import Iptfs.Model.ReadTfs
import Mathlib.Logic.Function.Basic

/-!
# `Iptfs.Model.Egress`: the two threads of the egress

`read_tfs_pkts` and `write_intf_pkts` (`src/src/iptfs.c`, lines 121-135 and 374-456) with
the three queues, the reference counts and the inner packets they share. Every queue
operation and every atomic operation on a `refcnt` is one step. What a thread does with its
own variables goes along with the step it leads up to. A run is any interleaving of the
steps of the two threads.

A buffer and a miov are known by their number in the pool. `refcnt` and `miov` are what the
memory holds for each. `TfsReader` and `IntfWriter` say where a thread is, with the buffers
and the miovs in its variables.

The decisions of `read_tfs_pkts` and `add_to_inner_packet` are those of
`Iptfs.Model.ReadTfs` and `Iptfs.Model.AddToInner` (`classify`, `Ackinfo.gap`, `enterInner`,
`innerPass`).

`miov_reset` walks over the entries of a miov and drops one reference after the other. Here
`iov` is cut at the front on the way, so it always holds the entries that the walk has not
come to.

`maxiov` is the number of entries that the arrays of a miov have room for. An entry beyond
them is a fault.
-/

set_option autoImplicit false

namespace Iptfs

/-- Where `read_tfs_pkts` is. `m` is the packet in progress, and `tbuf` the buffer that the
variable of this name points to. -/
inductive TfsReader
  /-- Before the first `mqueue_pop(freeq)`. -/
  | start
  /-- Before the first `atomic_fetch_add(&tbuf->refcnt, 1)`. -/
  | startRef (tbuf : Nat)
  /-- At the top of the loop, before `atomic_fetch_sub(&tbuf->refcnt, 1)`. -/
  | top (tbuf : Nat) (m : Option Nat)
  /-- Before `mbuf_reset(tbuf)`. -/
  | reset (tbuf : Nat) (m : Option Nat)
  /-- Before `tbuf = mqueue_pop(freeq)`. -/
  | pop (m : Option Nat)
  /-- Before `atomic_store(&tbuf->refcnt, 1)`. -/
  | store (tbuf : Nat) (m : Option Nat)
  /-- Before `recvfrom`. -/
  | recv (tbuf : Nat) (m : Option Nat)
  /-- In `miov_reset(m, iovfreeq)`, at the test of the loop. -/
  | deref (tbuf : Tbuf) (m : Nat)
  /-- In the `mqueue_push(freeq, b, true)` of `mbuf_deref`, before `mbuf_reset`. -/
  | derefReset (tbuf : Tbuf) (m b : Nat)
  /-- In the same call, before the push. -/
  | derefPush (tbuf : Tbuf) (m b : Nat)
  /-- In `add_to_inner_packet`, past the header. Without `m`, before `miovq_pop(freeq)`. -/
  | inner (tbuf : Tbuf) (offset : Nat) (m : Option Nat)
  /-- In `add_to_inner_packet`, before `miovq_push(outq, m)`, and whether it calls itself
  after that. -/
  | push (tbuf : Tbuf) (m : Nat) (recurse : Bool)
  deriving DecidableEq, Repr

/-- Where `write_intf_pkts` is. -/
inductive IntfWriter
  /-- Before `miovq_pop(outq)`. -/
  | pop
  /-- Before `writev`. -/
  | write (m : Nat)
  /-- In the `miov_reset` of `miovq_push(freeq, m)`, at the test of the loop. -/
  | deref (m : Nat)
  /-- In the `mqueue_push(freeq, b, true)` of `mbuf_deref`, before `mbuf_reset`. -/
  | derefReset (m b : Nat)
  /-- In the same call, before the push. -/
  | derefPush (m b : Nat)
  /-- Before the push of `miovq_push(freeq, m)`. -/
  | push (m : Nat)
  deriving DecidableEq, Repr

/-- The egress. `ack` is a variable of `read_tfs_pkts`, and `congest` are the globals of
`recv_ack`. -/
structure Egress where
  refcnt : Nat → Nat
  miov : Nat → Miov
  freeq : Queue Nat
  iovfreeq : Queue Nat
  outq : Queue Nat
  ack : Ackinfo
  congest : Congest
  reader : TfsReader
  writer : IntfWriter

/-- `tfs_tunnel_egress`, from zeroed pools, before either thread has taken a step. -/
def Egress.init (pps : Pps) : Egress :=
  { refcnt := fun _ => 0
    miov := fun _ => Miov.clean
    freeq := mqueueNewFreeq OUTERQSZ id
    iovfreeq := mqueueNewFreeq OUTERQSZ id
    outq := Queue.empty OUTERQSZ
    ack := .zero
    congest := { avgpps := runavgNew 5 1, avgdrops := runavgNew 5 1, pps := pps }
    reader := .start
    writer := .pop }

namespace Egress

/-- `atomic_fetch_add(&b->refcnt, 1)`. -/
def fetchAdd (s : Egress) (b : Nat) : Egress :=
  { s with refcnt := Function.update s.refcnt b ((s.refcnt b + 1) % 2 ^ 32) }

/-- `atomic_fetch_sub(&b->refcnt, 1)`. It returns the old value, `s.refcnt b`. -/
def fetchSub (s : Egress) (b : Nat) : Egress :=
  { s with refcnt := Function.update s.refcnt b ((s.refcnt b + 2 ^ 32 - 1) % 2 ^ 32) }

/-- `atomic_store(&b->refcnt, 1)`. -/
def storeOne (s : Egress) (b : Nat) : Egress :=
  { s with refcnt := Function.update s.refcnt b 1 }

/-- The memory of the miov `k`. -/
def setMiov (s : Egress) (k : Nat) (m : Miov) : Egress :=
  { s with miov := Function.update s.miov k m }

end Egress

/-- What one turn of the loop in `miov_reset` comes to: the loop has ended, a reference was
dropped, or the last reference to `b` was. -/
inductive Turn
  | ended
  | dropped
  | last (b : Nat)
  deriving DecidableEq, Repr

/-- One turn of the loop in `miov_reset` on the miov `k`: the `atomic_fetch_sub` of
`mbuf_deref`, or the end of the loop with what follows it. -/
def miovResetTurn (s : Egress) (k : Nat) : Egress × Turn :=
  match (s.miov k).iov with
  | [] => (s.setMiov k (miovReset (s.miov k)), .ended)
  | v :: rest =>
      ((s.setMiov k { s.miov k with iov := rest }).fetchSub v.mbuf,
        if s.refcnt v.mbuf = 1 then .last v.mbuf else .dropped)

/-- The `assert` of `mbuf_reset(b)`. -/
def assertUnref (s : Egress) (b : Nat) : Except Stop Egress :=
  if s.refcnt b = 0 then .ok s else .error (.fault .assertRefcnt)

/-- `if (!g_oneonly && st_check(&acktimer)) send_ack(..)`, for the record. -/
def ackTimerRecord (cfg : Config) (timer : Option Timespec) (ack : Ackinfo) : Res Ackinfo :=
  match timer with
  | none => .ok ack
  | some now => if cfg.oneonly then .ok ack else (sendAck cfg now ack).map Prod.snd

/-- `add_to_inner_packet` up to `if (!m)`. -/
def enterStep (s : Egress) (tbuf : Tbuf) (new : Bool) (m : Option Nat) : Except Stop Egress :=
  match enterInner tbuf new with
  | .error f => .error (.fault f)
  | .ok (tbuf, offset) => .ok { s with reader := .inner tbuf offset m }

/-- `ack.ndrop++`. -/
def Ackinfo.drop (ack : Ackinfo) : Ackinfo := { ack with ndrop := (ack.ndrop + 1) % 2 ^ 32 }

/-- `read_tfs_pkts` from `recvfrom` to the call of `miov_reset`, or else to the one of
`add_to_inner_packet`. `input` is what `recvfrom` returns, with the answer of the limiter. -/
def recvStep (cfg : Config) (s : Egress) (tbuf : Nat) (m : Option Nat)
    (input : Option (List UInt8 × Bool)) : Except Stop Egress :=
  let again (s : Egress) : Egress := { s with reader := .top tbuf m }
  match input with
  -- `recvfrom` has failed. Nothing is counted, as with a datagram without bytes.
  | none => .ok (again s)
  | some (bytes, limited) =>
      let data := recvBytes bytes
      match classify data limited with
      | .error f => .error (.fault f)
      | .ok .zero => .ok (again s)
      | .ok .short => .ok (again { s with ack := s.ack.drop })
      | .ok .limited => .ok (again { s with ack := s.ack.drop })
      | .ok .version => .ok (again { s with ack := s.ack.drop })
      | .ok .ack =>
          match recvAck cfg data s.congest with
          | .error f => .error (.fault f)
          | .ok congest => .ok (again { s with congest := congest })
      | .ok (.data seq) =>
          let ack := s.ack.begin seq
          -- A late or repeated packet is ignored, but `ack.start` is set already.
          if seq ≤ ack.last then .ok (again { s with ack := ack })
          else
            match m with
            | some k =>
                -- After a gap the packet in progress is abandoned. The miov stays in hand.
                if ack.gap seq then
                  .ok { s with ack := ack.advance seq, reader := .deref (Tbuf.fresh tbuf data) k }
                else
                  enterStep { s with ack := ack.advance seq } (Tbuf.fresh tbuf data) true (some k)
            | none =>
                enterStep { s with ack := ack.advance seq } (Tbuf.fresh tbuf data) true none

/-- `miov_addmbuf` on the miov `k`, with `left` after it. -/
def addmbufStep (maxiov : Nat) (s : Egress) (k : Nat) (tbuf : Tbuf) (start len left : Nat) :
    Except Stop Egress :=
  if (s.miov k).niov < maxiov then
    match miovAddmbuf (s.miov k) tbuf start len with
    | .error f => .error (.fault f)
    | .ok m => .ok ((s.setMiov k { m with left := left }).fetchAdd tbuf.id)
  else .error (.fault .iovOverflow)

/-- `add_to_inner_packet` from `miovq_pop` to `miovq_push`, on the miov `k`. -/
def innerStepOn (maxiov : Nat) (s : Egress) (tbuf : Tbuf) (offset k : Nat) : Except Stop Egress :=
  match innerPass tbuf offset (s.miov k) with
  | .error f => .error (.fault f)
  | .ok (.keep rest) => .ok { s with reader := .top rest.id (some k) }
  | .ok (.part start len left rest) =>
      match addmbufStep maxiov s k tbuf start len left with
      | .error e => .error e
      | .ok s => .ok { s with reader := .top rest.id (some k) }
  | .ok (.full start len rest recurse) =>
      match addmbufStep maxiov s k tbuf start len 0 with
      | .error e => .error e
      | .ok s => .ok { s with reader := .push rest k recurse }

/-- A step of `read_tfs_pkts`. `timer` is `acktimer.ts` where `st_check` finds the timer
expired. -/
def readTfsStep (cfg : Config) (maxiov : Nat) (s : Egress) (timer : Option Timespec)
    (input : Option (List UInt8 × Bool)) : Except Stop Egress :=
  match s.reader with
  | .start =>
      match mqueuePop s.freeq with
      | none => .error .waits
      | some (b, freeq) => .ok { s with freeq := freeq, reader := .startRef b }
  | .startRef b => .ok { s.fetchAdd b with reader := .top b none }
  | .top b m =>
      match ackTimerRecord cfg timer s.ack with
      | .error f => .error (.fault f)
      | .ok ack =>
          .ok { s.fetchSub b with
            ack := ack
            -- With the last reference gone the same buffer is used again.
            reader := if s.refcnt b = 1 then .reset b m else .pop m }
  | .reset b m =>
      match assertUnref s b with
      | .error e => .error e
      | .ok s => .ok { s with reader := .store b m }
  | .pop m =>
      match mqueuePop s.freeq with
      | none => .error .waits
      | some (b, freeq) => .ok { s with freeq := freeq, reader := .store b m }
  | .store b m => .ok { s.storeOne b with reader := .recv b m }
  | .recv b m => recvStep cfg s b m input
  | .deref tbuf k =>
      match miovResetTurn s k with
      | (s, .ended) => enterStep s tbuf true (some k)
      | (s, .dropped) => .ok { s with reader := .deref tbuf k }
      | (s, .last b) => .ok { s with reader := .derefReset tbuf k b }
  | .derefReset tbuf k b =>
      match assertUnref s b with
      | .error e => .error e
      | .ok s => .ok { s with reader := .derefPush tbuf k b }
  | .derefPush tbuf k b =>
      match mqueuePush s.freeq b with
      | none => .error .waits
      | some freeq => .ok { s with freeq := freeq, reader := .deref tbuf k }
  | .inner tbuf offset none =>
      match miovqPop s.iovfreeq with
      | none => .error .waits
      | some (k, iovfreeq) =>
          .ok { s with iovfreeq := iovfreeq, reader := .inner tbuf offset (some k) }
  | .inner tbuf offset (some k) => innerStepOn maxiov s tbuf offset k
  | .push tbuf k recurse =>
      match miovqPush s.outq k with
      | none => .error .waits
      | some outq =>
          -- The rest of the datagram begins without a packet in progress.
          if recurse then enterStep { s with outq := outq } tbuf false none
          else .ok { s with outq := outq, reader := .top tbuf.id none }

/-- A step of `write_intf_pkts`. Nothing depends on what `writev` returns. -/
def writeIntfStep (s : Egress) : Except Stop Egress :=
  match s.writer with
  | .pop =>
      match miovqPop s.outq with
      | none => .error .waits
      | some (k, outq) => .ok { s with outq := outq, writer := .write k }
  | .write k => .ok { s with writer := .deref k }
  | .deref k =>
      match miovResetTurn s k with
      | (s, .ended) => .ok { s with writer := .push k }
      | (s, .dropped) => .ok { s with writer := .deref k }
      | (s, .last b) => .ok { s with writer := .derefReset k b }
  | .derefReset k b =>
      match assertUnref s b with
      | .error e => .error e
      | .ok s => .ok { s with writer := .derefPush k b }
  | .derefPush k b =>
      match mqueuePush s.freeq b with
      | none => .error .waits
      | some freeq => .ok { s with freeq := freeq, writer := .deref k }
  | .push k =>
      match miovqPush s.iovfreeq k with
      | none => .error .waits
      | some iovfreeq => .ok { s with iovfreeq := iovfreeq, writer := .pop }

/-- One step of the egress: the thread that takes it, with what the world does. -/
inductive EgressEvent
  | reader (timer : Option Timespec) (input : Option (List UInt8 × Bool))
  | writer
  deriving DecidableEq, Repr

/-- One step of either thread. -/
def egressStep (cfg : Config) (maxiov : Nat) (s : Egress) : EgressEvent → Except Stop Egress
  | .reader timer input => readTfsStep cfg maxiov s timer input
  | .writer => writeIntfStep s

end Iptfs
