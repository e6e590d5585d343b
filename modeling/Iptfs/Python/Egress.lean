import Iptfs.Python.Read
import Mathlib.Logic.Function.Basic

/-!
# `Iptfs.Python.Egress`: the threads of `tunnel_egress`

`read_tfs_packets`, `write_intf_packets` and `send_ack_infos` of `src/iptfs/iptfs.py`, with the
three queues, the reference counts and the `MIOVBuf`s of `src/iptfs/mbuf.py` that they share.
Every queue operation and every turn under a `reflock` is one step. What a thread does with its own
variables goes along with the step it leads up to. A run is any interleaving.

The attributes `startseq`, `lastseq` and `dropcnt` of the outq have no lock that both of their
threads take: `send_ack_infos` holds `outq.lock`, and `read_tfs_packets` does not take it. So each
read and each write of one of them is a step of its own, and `outq.dropcnt += n` is two. Only
`read_tfs_packets` writes `lastseq`, so what it reads there goes along with its other steps.

A buffer and a `MIOVBuf` are known by their number in the pool. `TfsReader` and `IntfWriter` say
where a thread is, with what it has in its variables. The queues are those of `Iptfs.Model.Mbuf`:
an `append` and a `pop` at the end of a list are a stack. The decisions on a datagram are those of
`Iptfs.Python.Read` and `Iptfs.Python.Inner` (`classify`, `AckRecord.gap`, `enterInner`,
`innerPass`).

`MIOVBuf.reset` walks over the entries and drops one reference after the other. Here `iov` is cut
at the front on the way, so it always holds the entries that the walk has not come to.

How deep the calls of `add_to_inner_packet` nest is not part of the state. A `RecursionError` would
end a run sooner.
-/

set_option autoImplicit false

namespace Iptfs.Py

/-- Where `read_tfs_packets` is with the attributes of the outq. `seq` is the number of the
datagram. In `count` and `counted` it is there if the datagram is consumed after that. -/
inductive Access
  /-- Before `outq.startseq == 0` is tested. -/
  | test (seq : Nat)
  /-- Before `outq.startseq = seq`. -/
  | start (seq : Nat)
  /-- In `outq.dropcnt += n`, before `dropcnt` is read. -/
  | count (n : Nat) (seq : Option Nat)
  /-- In this `+=`, before the sum is written. -/
  | counted (dropcnt : Nat) (seq : Option Nat)
  /-- Before `outq.lastseq = seq`. -/
  | advance (seq : Nat)
  deriving DecidableEq, Repr

/-- Where `read_tfs_packets` is. `m` is the packet in progress, and `tmbuf` the buffer in the
variable of this name. -/
inductive TfsReader
  /-- Before the first `freeq.pop()`. -/
  | start
  /-- Before the first `tmbuf.addref()`. -/
  | startRef (tmbuf : Nat)
  /-- At the top of the loop, before `tmbuf.deref(freeq)`. -/
  | top (tmbuf : Nat) (m : Option Nat)
  /-- In this `deref`, before `freeq.push(self, True)`. -/
  | topPush (tmbuf : Nat) (m : Option Nat)
  /-- Before `tmbuf = freeq.pop()`. -/
  | pop (m : Option Nat)
  /-- Before `tmbuf.addref()`. -/
  | ref (tmbuf : Nat) (m : Option Nat)
  /-- Before `recvfrom_into`. -/
  | recv (tmbuf : Nat) (m : Option Nat)
  /-- Before an access to the attributes of the outq, with the datagram in `tmbuf`. -/
  | record (tmbuf : Tbuf) (m : Option Nat) (access : Access)
  /-- In `m.reset(freeq)`, at the head of the `for` loop. `seq` is that of the datagram. -/
  | reset (tmbuf : Tbuf) (m seq : Nat)
  /-- In a `deref` of this loop, before `freeq.push(self, True)`. -/
  | resetPush (tmbuf : Tbuf) (m seq b : Nat)
  /-- In `add_to_inner_packet`, past the header. Without `m`, before `iovfreeq.pop()`. -/
  | inner (tmbuf : Tbuf) (offset : Nat) (m : Option Nat)
  /-- In `add_to_inner_packet`, before `outq.push(m)`, and whether it calls itself after that. -/
  | push (tmbuf : Tbuf) (m : Nat) (recurse : Bool)
  deriving DecidableEq, Repr

/-- Where `write_intf_packets` is. -/
inductive IntfWriter
  /-- Before `outq.pop()`. -/
  | pop
  /-- Before `os.writev`. -/
  | write (m : Nat)
  /-- In the `m.reset(self.freeq)` of `freeq.push(m)`, at the head of the `for` loop. -/
  | reset (m : Nat)
  /-- In a `deref` of this loop, before `freeq.push(self, True)`. -/
  | resetPush (m b : Nat)
  /-- Before the `queue.append(m)` of `freeq.push(m)`. -/
  | push (m : Nat)
  deriving DecidableEq, Repr

/-- Where `send_ack_infos` is in its turn, which holds `outq.lock`. -/
inductive AckSender
  /-- Before `outq.startseq == 0` is tested. -/
  | test
  /-- Before `dropcnt = outq.dropcnt`. -/
  | drops
  /-- Before `outq.dropcnt = 0`. -/
  | clearDrops (dropcnt : Nat)
  /-- Before `ackstart = outq.startseq`. -/
  | start (dropcnt : Nat)
  /-- Before `outq.startseq = 0`. -/
  | clearStart (dropcnt ackstart : Nat)
  /-- Before `ackend = outq.lastseq`. -/
  | last (dropcnt ackstart : Nat)
  deriving DecidableEq, Repr

/-- The egress. `ack` are the attributes of the outq, and `congest` the globals of `recv_ack`. -/
structure Egress where
  refcnt : Nat → Int
  miov : Nat → MIOVBuf
  freeq : Queue Nat
  iovfreeq : Queue Nat
  outq : Queue Nat
  ack : AckRecord
  congest : AckState
  reader : TfsReader
  writer : IntfWriter
  acker : AckSender

/-- `tunnel_egress` before its threads have taken a step. -/
def Egress.init (pps : ℚ) : Egress where
  refcnt := fun _ => 0
  miov := fun _ => .empty none
  freeq := mqueueNewFreeq MAXQSZ id
  iovfreeq := mqueueNewFreeq MAXQSZ id
  outq := Queue.empty MAXQSZ
  ack := .zero
  congest := .init pps
  reader := .start
  writer := .pop
  acker := .test

/-- Why a thread does not take a step: an exception ends it, or it waits for a queue. -/
inductive Stop
  | raises (e : Exc)
  | waits
  deriving DecidableEq, Repr

namespace Egress

/-- `b.addref()`. -/
def addref (s : Egress) (b : Nat) : Egress :=
  { s with refcnt := Function.update s.refcnt b (s.refcnt b + 1) }

/-- The turn of `b.deref(freeq)` under the `reflock`: `refcnt -= 1`. -/
def deref (s : Egress) (b : Nat) : Egress :=
  { s with refcnt := Function.update s.refcnt b (s.refcnt b - 1) }

/-- The `MIOVBuf` number `k`. -/
def setMiov (s : Egress) (k : Nat) (m : MIOVBuf) : Egress :=
  { s with miov := Function.update s.miov k m }

end Egress

/-- What one turn of the `for` loop in `MIOVBuf.reset` comes to: the loop has ended, a reference was
dropped, or the last reference to `b` was. -/
inductive Turn
  | ended
  | dropped
  | last (b : Nat)
  deriving DecidableEq, Repr

/-- One turn of the loop in `reset` on the `MIOVBuf` number `k`: the `deref` of one entry, or the
end of the loop with what follows it. -/
def resetTurn (s : Egress) (k : Nat) : Egress × Turn :=
  match (s.miov k).iov with
  | [] => (s.setMiov k (s.miov k).reset, .ended)
  | v :: rest =>
      ((s.setMiov k { s.miov k with iov := rest }).deref v.mbuf,
        if s.refcnt v.mbuf - 1 ≠ 0 then .dropped else .last v.mbuf)

/-- `add_to_inner_packet` up to `if not m`. -/
def enterStep (s : Egress) (tmbuf : Tbuf) (new : Bool) (m : Option Nat) : Except Stop Egress :=
  match enterInner tmbuf new with
  | .error e => .error (.raises e)
  -- A datagram without a whole header: `None` is returned, whatever `m` was.
  | .ok none => .ok { s with reader := .top tmbuf.id none }
  | .ok (some (tmbuf, offset)) => .ok { s with reader := .inner tmbuf offset m }

/-- Consume the outer packet: `outq.lastseq = seq`, and the call of `add_to_inner_packet`. -/
def consume (s : Egress) (tmbuf : Tbuf) (seq : Nat) (m : Option Nat) : Except Stop Egress :=
  enterStep { s with ack := { s.ack with lastseq := seq } } tmbuf true m

/-- `read_tfs_packets` from `recvfrom_into` to the first access to the attributes of the outq. -/
def recvStep (target : ℚ) (s : Egress) (tmbuf : Nat) (m : Option Nat) (bytes : List UInt8)
    (limited : Bool) : Except Stop Egress :=
  let data := recvBytes bytes
  let access (a : Access) : Egress := { s with reader := .record (Tbuf.fresh tmbuf data) m a }
  match classify data limited with
  | .error e => .error (.raises e)
  | .ok .short => .ok (access (.count 1 none))
  | .ok .limited => .ok (access (.count 1 none))
  | .ok .version => .ok (access (.count 1 none))
  | .ok .ack =>
      match recvAck target data s.congest with
      | .error e => .error (.raises e)
      | .ok congest => .ok { s with congest := congest, reader := .top tmbuf m }
  | .ok (.data seq) => .ok (access (.test seq))

/-- Where the reader goes with `startseq` set: the tests of `outq.lastseq`. -/
def pastStart (outq : AckRecord) (tmbuf : Tbuf) (m : Option Nat) (seq : Nat) : TfsReader :=
  -- A late or repeated packet is ignored, but `startseq` is set already.
  if seq ≤ outq.lastseq then .top tmbuf.id m
  else if outq.gap seq then .record tmbuf m (.count (seq - (outq.lastseq + 1)) (some seq))
  else .record tmbuf m (.advance seq)

/-- Where the reader goes with the drops counted. -/
def pastCount (tmbuf : Tbuf) (m : Option Nat) : Option Nat → TfsReader
  | none => .top tmbuf.id m
  | some seq =>
      match m with
      -- `m.reset(freeq)` comes before `outq.lastseq = seq`.
      | some k => .reset tmbuf k seq
      | none => .record tmbuf none (.advance seq)

/-- An access of `read_tfs_packets` to the attributes of the outq. -/
def recordStep (s : Egress) (tmbuf : Tbuf) (m : Option Nat) : Access → Except Stop Egress
  | .test seq =>
      if s.ack.startseq = 0 then .ok { s with reader := .record tmbuf m (.start seq) }
      else .ok { s with reader := pastStart s.ack tmbuf m seq }
  | .start seq =>
      .ok { s with
        ack := { s.ack with startseq := seq }
        reader := pastStart s.ack tmbuf m seq }
  | .count n seq => .ok { s with reader := .record tmbuf m (.counted (s.ack.dropcnt + n) seq) }
  | .counted dropcnt seq =>
      .ok { s with
        ack := { s.ack with dropcnt := dropcnt }
        reader := pastCount tmbuf m seq }
  | .advance seq => consume s tmbuf seq m

/-- `addmbuf` on the `MIOVBuf` number `k`, with `left` after it. -/
def addmbufStep (s : Egress) (k : Nat) (tmbuf : Tbuf) (start len : Nat) (left : Option Nat) :
    Egress :=
  (s.setMiov k { (s.miov k).addmbuf tmbuf start len with left := left }).addref tmbuf.id

/-- `add_to_inner_packet` from `iovfreeq.pop()` to `outq.push(m)`, on the `MIOVBuf` number `k`. -/
def innerStepOn (s : Egress) (tmbuf : Tbuf) (offset k : Nat) : Except Stop Egress :=
  match innerPass tmbuf offset (s.miov k) with
  | .error e => .error (.raises e)
  | .ok (.keep rest) => .ok { s with reader := .top rest.id (some k) }
  | .ok (.part start len left rest) =>
      .ok { addmbufStep s k tmbuf start len left with reader := .top rest.id (some k) }
  | .ok (.full start len rest recurse) =>
      .ok { addmbufStep s k tmbuf start len (some 0) with reader := .push rest k recurse }

/-- A step of `read_tfs_packets`. The datagram is the next one, for the step that receives it. -/
def readTfsStep (target : ℚ) (s : Egress) (bytes : List UInt8) (limited : Bool) :
    Except Stop Egress :=
  match s.reader with
  | .start =>
      match s.freeq.pop with
      | none => .error .waits
      | some (b, freeq) => .ok { s with freeq := freeq, reader := .startRef b }
  | .startRef b => .ok { s.addref b with reader := .top b none }
  | .top b m =>
      -- With the last reference gone the buffer is pushed, and then one is popped.
      .ok { s.deref b with reader := if s.refcnt b - 1 ≠ 0 then .pop m else .topPush b m }
  | .topPush b m =>
      match s.freeq.push b with
      | none => .error .waits
      | some freeq => .ok { s with freeq := freeq, reader := .pop m }
  | .pop m =>
      match s.freeq.pop with
      | none => .error .waits
      | some (b, freeq) => .ok { s with freeq := freeq, reader := .ref b m }
  | .ref b m => .ok { s.addref b with reader := .recv b m }
  | .recv b m => recvStep target s b m bytes limited
  | .record tmbuf m access => recordStep s tmbuf m access
  | .reset tmbuf k seq =>
      match resetTurn s k with
      | (s, .ended) => consume s tmbuf seq (some k)
      | (s, .dropped) => .ok { s with reader := .reset tmbuf k seq }
      | (s, .last b) => .ok { s with reader := .resetPush tmbuf k seq b }
  | .resetPush tmbuf k seq b =>
      match s.freeq.push b with
      | none => .error .waits
      | some freeq => .ok { s with freeq := freeq, reader := .reset tmbuf k seq }
  | .inner tmbuf offset none =>
      match s.iovfreeq.pop with
      | none => .error .waits
      | some (k, iovfreeq) =>
          .ok { s with iovfreeq := iovfreeq, reader := .inner tmbuf offset (some k) }
  | .inner tmbuf offset (some k) => innerStepOn s tmbuf offset k
  | .push tmbuf k recurse =>
      match s.outq.push k with
      | none => .error .waits
      | some outq =>
          -- The rest of the datagram begins without a packet in progress.
          if recurse then enterStep { s with outq := outq } tmbuf false none
          else .ok { s with outq := outq, reader := .top tmbuf.id none }

/-- A step of `write_intf_packets`. Nothing depends on what `writev` returns. -/
def writeIntfStep (s : Egress) : Except Stop Egress :=
  match s.writer with
  | .pop =>
      match s.outq.pop with
      | none => .error .waits
      | some (k, outq) => .ok { s with outq := outq, writer := .write k }
  | .write k => .ok { s with writer := .reset k }
  | .reset k =>
      match resetTurn s k with
      | (s, .ended) => .ok { s with writer := .push k }
      | (s, .dropped) => .ok { s with writer := .reset k }
      | (s, .last b) => .ok { s with writer := .resetPush k b }
  | .resetPush k b =>
      match s.freeq.push b with
      | none => .error .waits
      | some freeq => .ok { s with freeq := freeq, writer := .reset k }
  | .push k =>
      match s.iovfreeq.push k with
      | none => .error .waits
      | some iovfreeq => .ok { s with iovfreeq := iovfreeq, writer := .pop }

/-- A step of `send_ack_infos`. The ACK itself is sent after the last one. -/
def sendAckInfosStep (s : Egress) : Egress :=
  match s.acker with
  | .test => { s with acker := if s.ack.startseq = 0 then .test else .drops }
  | .drops => { s with acker := .clearDrops s.ack.dropcnt }
  | .clearDrops dropcnt => { s with ack := { s.ack with dropcnt := 0 }, acker := .start dropcnt }
  | .start dropcnt => { s with acker := .clearStart dropcnt s.ack.startseq }
  | .clearStart dropcnt ackstart =>
      { s with ack := { s.ack with startseq := 0 }, acker := .last dropcnt ackstart }
  | .last _ _ => { s with acker := .test }

/-- One step of the egress: the thread that takes it, with what the world does. `ns` is what
`monotonic_ns()` returns, for the step with which `send_ack_infos` ends its turn. -/
inductive EgressEvent
  | reader (bytes : List UInt8) (limited : Bool)
  | writer
  | ackInfos (ns : Nat)
  deriving DecidableEq, Repr

/-- One step of any thread. -/
def egressStep (target : ℚ) (s : Egress) : EgressEvent → Except Stop Egress
  | .reader bytes limited => readTfsStep target s bytes limited
  | .writer => writeIntfStep s
  | .ackInfos _ => .ok (sendAckInfosStep s)

end Iptfs.Py
