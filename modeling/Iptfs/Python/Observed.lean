import Iptfs.Model.Observed
import Iptfs.Python.Egress

/-!
# `Iptfs.Python.Observed`: the Python egress with its memory

The threads of `Iptfs.Python.Egress`, with the memory of the buffers and a record of what crosses
their borders, as `Iptfs.Model.Observed` has them for the C program.

The Python program copies nothing either. `addmbuf(m, start)` keeps a slice of the memoryview that
`recvfrom_into` fills, and `os.writev` reads through it later.

The events of `Iptfs.Python.Read` have the values of `left` that the pops of `iovfreeq` find. They
come to light one after the other, so the record of a datagram grows while `add_to_inner_packet` is
at work on it (`addLeft`).
-/

set_option autoImplicit false

namespace Iptfs.Py

/-- The bytes that `os.writev(fd.fileno(), m.iov)` writes. -/
def MIOVBuf.gather (mem : Nat → List UInt8) (m : MIOVBuf) : List UInt8 :=
  (m.iov.map (Iovec.load mem)).flatten

/-- One more pop of `iovfreeq`, and the `left` that it found. -/
def RxEvent.withLeft (left : Option Nat) : RxEvent → RxEvent
  | .recv id bytes limited lefts => .recv id bytes limited (lefts ++ [left])
  | .ackInfos ns => .ackInfos ns

/-- The pop belongs to the last datagram. -/
def addLeft (left : Option Nat) : List RxEvent → List RxEvent
  | [] => []
  | [e] => [e.withLeft left]
  | e :: es => e :: addLeft left es

/-- The egress with its memory and its record. `mem b` are the bytes of the buffer `b` from where
`recvfrom_into` writes on. `passes` are the datagrams received, `pushed` the packets pushed on the
outq, `written` what each `writev` wrote, and `acks` what `send_ack_infos` handed to `sendmsg`. -/
structure Observed where
  egress : Egress
  mem : Nat → List UInt8
  passes : List RxEvent
  pushed : List MIOVBuf
  written : List (List UInt8)
  acks : List (List UInt8)

/-- Before any thread has taken a step, with what the buffers hold. -/
def Observed.init (pps : ℚ) (mem : Nat → List UInt8) : Observed where
  egress := .init pps
  mem := mem
  passes := []
  pushed := []
  written := []
  acks := []

/-- The memory after `recvfrom_into`. -/
def recvMem (mem : Nat → List UInt8) (tmbuf : Nat) (bytes : List UInt8) : Nat → List UInt8 :=
  Function.update mem tmbuf (overwrite (mem tmbuf) (recvBytes bytes))

/-- What a step of `read_tfs_packets` adds to the record. -/
def Observed.read (o : Observed) (bytes : List UInt8) (limited : Bool) : Observed :=
  match o.egress.reader with
  | .recv b _ =>
      { o with
        mem := recvMem o.mem b bytes
        passes := o.passes ++ [.recv b bytes limited []] }
  | .inner _ _ none =>
      match o.egress.iovfreeq.pop with
      | none => o
      | some (k, _) => { o with passes := addLeft (o.egress.miov k).left o.passes }
  | .push _ k _ => { o with pushed := o.pushed ++ [o.egress.miov k] }
  | _ => o

/-- What a step of `write_intf_packets` adds to the record. -/
def Observed.write (o : Observed) : Observed :=
  match o.egress.writer with
  | .write k => { o with written := o.written ++ [(o.egress.miov k).gather o.mem] }
  | _ => o

/-- What a step of `send_ack_infos` adds to the record. -/
def Observed.report (o : Observed) (ns : Nat) : Observed :=
  match o.egress.acker with
  | .last dropcnt ackstart =>
      let dropcnt := if dropcnt > 0xFFFFFF then 0xFFFFFF else dropcnt
      { o with acks := o.acks ++ [ackInfo dropcnt ns ackstart o.egress.ack.lastseq] }
  | _ => o

/-- One step of any thread. -/
def observedStep (target : ℚ) (o : Observed) (e : EgressEvent) : Except Stop Observed :=
  match egressStep target o.egress e with
  | .error f => .error f
  | .ok t =>
      match e with
      | .reader bytes limited => .ok { o.read bytes limited with egress := t }
      | .writer => .ok { o.write with egress := t }
      | .ackInfos ns => .ok { o.report ns with egress := t }

end Iptfs.Py
