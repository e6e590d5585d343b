import Iptfs.Lib.Framing
import Iptfs.Model.ReadTfs
import Iptfs.Model.WriteTfs

/-!
# `Iptfs.Spec.Delivery`: which packets a lossy tunnel should deliver

The purpose of the two loops, stated over a finished run of the sender.

* `Sender.sends` are the calls that handed a datagram to the socket. Number `i` of them
  carries the sequence number `i + 1`. `Sender.datagram i` is what went onto the network,
  if the send succeeded.
* `Sender.ledger` is read off the entries of the datagrams: for each packet, in the order
  it was first laid into a datagram, the numbers of the datagrams that carried it, and
  whether its last byte was among them.
* `records` picks the accepted datagrams from those that got through, in the order they
  came: each one that exceeds everything accepted before it.

The network is a list of `Arrival`s. Loss, duplication and reordering are its freedom to
name any numbers in any order, and `limited` is a datagram that the rate limiter rejects.

`Overfull` and `Roomy` are about what a packet takes from the receiver while it is put
together: the mbufs of the pool, and the arrays of its miov.
-/

set_option autoImplicit false

namespace Iptfs

open Iptfs.Lib.Framing

/-- The packet bytes in one entry: the packet, with what it still owed, and whether the
entry has all of it. -/
def Iov.piece : Iov → Option (List UInt8 × Bool)
  | .hdr _ => none
  | .pad _ => none
  | .mbuf m len => some (m.data, decide (len = m.len))

/-- A datagram's number is entered for a piece. The packet under way goes on, or a new one
begins. -/
def bookPiece (L : Ledger UInt8) (piece : List UInt8 × Bool) : Ledger UInt8 :=
  let s : Shipment UInt8 :=
    match L.under with
    | some s => { s with carriers := s.carriers ++ [L.num] }
    | none => ⟨piece.1, [L.num], false⟩
  if piece.2 then { L with closed := L.closed ++ [{ s with complete := true }], under := none }
  else { L with under := some s }

/-- A datagram is entered: its pieces, and then, if the send failed, the packet under way
is given up. -/
def book (L : Ledger UInt8) (c : WriteCall × WriteOut) : Ledger UInt8 :=
  let pieces := (c.2.iov.filterMap Iov.piece).foldl bookPiece L
  if c.1.sent then { pieces with num := L.num + 1 }
  else { num := L.num + 1, closed := pieces.closed ++ pieces.under.toList, under := none }

namespace Sender

/-- The calls that handed a datagram to the socket. -/
def sends (s : Sender) : List (WriteCall × WriteOut) :=
  s.calls.filter fun c => c.2.datagram.isSome

/-- Datagram number `i`, if its send succeeded. -/
def datagram (s : Sender) (i : Nat) : Option (List UInt8) :=
  s.sends[i]?.bind fun c => if c.1.sent then c.2.datagram else none

/-- The datagrams, in order. -/
def emitted (s : Sender) : List (List UInt8) := s.sends.map fun c => c.2.datagram.getD []

/-- What became of each packet. -/
def ledger (s : Sender) : Ledger UInt8 := s.sends.foldl book Ledger.init

/-- The packets taken from the queue, as bytes, in order. -/
def packets (s : Sender) : List (List UInt8) := s.taken.map Mbuf.data

end Sender

/-- A datagram reaches `recvfrom`: its number, the address of the buffer it is read into,
and the answer of the rate limiter. `timer` is an expiry of the ACK timer in the same
pass. -/
structure Arrival where
  timer : Option Timespec
  id : Nat
  number : Nat
  limited : Bool
  deriving DecidableEq, Repr

/-- The pass of the loop for an arrival. -/
def Arrival.event (s : Sender) (a : Arrival) : RxEvent :=
  ⟨a.timer, .got a.id ((s.datagram a.number).getD []) a.limited⟩

/-- The numbers that exceed everything before them, as the list grows. -/
def records (ns : List Nat) : List Nat :=
  ns.foldl (fun acc n => if ∀ a ∈ acc, a < n then acc ++ [n] else acc) []

/-- The numbers of the datagrams that get past the limiter, in the order they come. -/
def passed (as : List Arrival) : List Nat :=
  (as.filter fun a => !a.limited).map Arrival.number

/-- The record after the check of the ACK timer: cleared when an ACK goes out. -/
def ackAfter (cfg : Config) (timer : Option Timespec) (ack : Ackinfo) : Ackinfo :=
  if timer.isSome ∧ cfg.oneonly = false ∧ ack.start ≠ 0 then .zero else ack

/-- The `ack.last` that the datagram of the pass is compared with: zero when `send_ack` has
just cleared the record. -/
def Arrival.seenLast (cfg : Config) (a : Arrival) (ack : Ackinfo) : Nat :=
  (ackAfter cfg a.timer ack).last

/-- The sequence number of the datagram. -/
def Arrival.seq (a : Arrival) : Nat := (a.number + 1) % 2 ^ 32

/-- The loop takes the datagram for a new one: the limiter lets it through, and its sequence
number is above `ack.last`. -/
def Arrival.isNew (cfg : Config) (a : Arrival) (ack : Ackinfo) : Prop :=
  a.limited = false ∧ a.seenLast cfg ack < a.seq

instance (cfg : Config) (a : Arrival) (ack : Ackinfo) : Decidable (a.isNew cfg ack) :=
  inferInstanceAs (Decidable (_ ∧ _))

/-- A receiver with the number after the highest accepted so far. -/
structure Track where
  rx : Rx
  next : Nat

/-- One arrival, for a receiver whose pass is `step`. A datagram is accepted when its sequence
number is logged in `Rx.accepted`. -/
def trackStep {ε : Type} (step : Rx → RxEvent → Except ε Rx) (s : Sender) (t : Track)
    (a : Arrival) : Except ε Track :=
  match step t.rx (a.event s) with
  | .error e => .error e
  | .ok rx =>
      .ok ⟨rx, if t.rx.accepted.length < rx.accepted.length then max t.next (a.number + 1)
        else t.next⟩

/-- The condition on one arrival under which the record still does its work. A datagram that
the loop takes for a new one is later than everything accepted before, and where it is not
the very next one, the gap shows or no packet is in progress. -/
def InStep (cfg : Config) (t : Track) (a : Arrival) : Prop :=
  a.isNew cfg t.rx.ack →
    t.next ≤ a.number ∧
      (a.number = t.next ∨
        (a.seq ≠ (a.seenLast cfg t.rx.ack + 1) % 2 ^ 32 ∧ a.seenLast cfg t.rx.ack ≠ 0) ∨
        t.rx.m.getD Miov.clean = Miov.clean)

instance (cfg : Config) (t : Track) (a : Arrival) : Decidable (InStep cfg t a) :=
  inferInstanceAs (Decidable (_ → _))

/-- The condition on one arrival under which the pool and the arrays suffice: there is an mbuf
for the pass, and a datagram taken for a new one finds room for one more entry in the packet
that the test for a gap leaves in progress. -/
def Roomy (cfg : Config) (t : Track) (a : Arrival) : Prop :=
  MbufLeft t.rx.m ∧ (a.isNew cfg t.rx.ack →
    entries ((ackAfter cfg a.timer t.rx.ack).keep a.seq t.rx.m) < cfg.maxiov)

instance (cfg : Config) (t : Track) (a : Arrival) : Decidable (Roomy cfg t a) :=
  inferInstanceAs (Decidable (_ ∧ (_ → _)))

/-- The packet is not at its end with its first `OUTERQSZ` datagrams: another one carries it, or
the rest was never sent. -/
def Overfull (S : Shipment UInt8) : Prop :=
  OUTERQSZ < S.carriers.length ∨ OUTERQSZ = S.carriers.length ∧ S.complete = false

end Iptfs
