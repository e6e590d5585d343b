import Iptfs.Spec.Delivery

/-!
# `Iptfs.Spec.DropReports`: what the drop counts should add up to

The receiver tells its peer how many datagrams got lost. `ack.ndrop` collects the count,
and every ACK carries it away and clears it. `Rx.reports` logs the counts that `send_ack`
found, before they are cut to 24 bits.

* `skipped` is what the counts should add up to: the sequence numbers between the first and
  the latest accepted one that were not accepted.
* `Wire n` says what comes in from a peer that numbers its datagrams in order and has used
  the numbers below `n`: its data datagrams, some of them lost, its ACK datagrams, and
  passes without a datagram. The limiter and the ACK timer are free.
* `CountsOnce` is the condition on a pass under which a datagram that is accepted leaves the
  counts right. It looks at the datagrams that the limiter has rejected since the last one
  accepted (`Tally.rejected`), each of which `read_tfs_pkts` has counted already.
-/

set_option autoImplicit false

namespace Iptfs

/-- The sequence numbers between the first and the latest accepted one that were not
accepted. -/
def skipped (accepted : List Nat) : Nat :=
  match accepted.head?, accepted.getLast? with
  | some first, some last =>
      ((List.range' first (last + 1 - first)).filter fun seq => seq ∉ accepted).length
  | _, _ => 0

/-- The drops are counted once each: what was reported and what is still to be reported is
the number of datagrams missing. -/
def Rx.Counted (s : Rx) : Prop := s.reports.sum + s.ack.ndrop = skipped s.accepted

instance (s : Rx) : Decidable s.Counted := instDecidableEqNat _ _

/-- What comes in, from a peer that has used the sequence numbers below `n`. -/
inductive Wire : Nat → List RxEvent → Prop
  | nil (n : Nat) : Wire n []
  | failed {n : Nat} {es : List RxEvent} (timer : Option Timespec) (h : Wire n es) :
      Wire n (⟨timer, .failed⟩ :: es)
  | ack {n : Nat} {es : List RxEvent} (timer : Option Timespec) (id : Nat) (bytes : List UInt8)
      (limited : Bool) (hack : classify (recvBytes bytes) false = .ok .ack) (h : Wire n es) :
      Wire n (⟨timer, .got id bytes limited⟩ :: es)
  | data {n : Nat} {es : List RxEvent} (timer : Option Timespec) (id : Nat) (bytes : List UInt8)
      (limited : Bool) (seq : Nat) (hdata : classify (recvBytes bytes) false = .ok (.data seq))
      (hseq : n ≤ seq) (h : Wire (seq + 1) es) : Wire n (⟨timer, .got id bytes limited⟩ :: es)

/-- A receiver with the number of datagrams that the limiter has rejected since the last one
accepted. -/
structure Tally where
  rx : Rx
  rejected : Nat
  deriving DecidableEq, Repr

/-- `read_tfs_pkts` before its first pass. -/
def Tally.init (pps : Pps) : Tally := ⟨Rx.init pps, 0⟩

/-- The limiter rejects what comes in. -/
def Recv.rejected : Recv → Bool
  | .failed => false
  | .got _ bytes limited => classify (recvBytes bytes) limited = .ok .limited

/-- One pass of the loop. -/
def tallyStep (cfg : Config) (t : Tally) (e : RxEvent) : Res Tally :=
  match readTfsPktsStep cfg t.rx e with
  | .error f => .error f
  | .ok rx =>
      .ok ⟨rx, if t.rx.accepted ≠ rx.accepted then 0
        else if e.recv.rejected then t.rejected + 1 else t.rejected⟩

/-- Right after a datagram is accepted, the drops are counted once each. -/
def CountedAfter (cfg : Config) (t : Tally) (e : RxEvent) : Prop :=
  ∀ t', tallyStep cfg t e = .ok t' → t.rx.accepted ≠ t'.rx.accepted → t'.rx.Counted

/-- The number of rejections since the last datagram accepted, `latest`, with which the
arrival of number `seq` leaves the counts right. Where an ACK went out since, the gap before
`seq` is not counted, and each missing datagram has to be a rejected one. Where none did, it
is counted, and nothing else may be. `last` is `ack.last`. -/
def dueRejections (latest : Option Nat) (last seq : Nat) : Nat :=
  match latest with
  | none => 0
  | some latest => if last = 0 then seq - (latest + 1) else 0

/-- The condition on a pass that accepts a datagram. -/
def CountsOnce (cfg : Config) (t : Tally) (e : RxEvent) : Prop :=
  ∀ id bytes seq, e.recv = .got id bytes false →
    classify (recvBytes bytes) false = .ok (.data seq) →
      t.rejected =
        dueRejections t.rx.accepted.getLast? (ackAfter cfg e.timer t.rx.ack).last seq

end Iptfs
