import Iptfs.Model.Ingress
import Iptfs.Python.Egress
import Iptfs.Python.Write

/-!
# `Iptfs.Python.Ingress`: the threads of `tunnel_ingress`

`read_intf_packets` and `write_tfs_packets` of `src/iptfs/iptfs.py`, lines 82-95 and 432-563, with
the two `MQueue`s they share. Every queue operation, every system call and every pass of the packing
loop is one step. A run is any interleaving.

`read_intf_packets` is at the same points as `read_intf_pkts`, so `IntfReader` is that of
`Iptfs.Model.Ingress`. `TfsWriter` says where `write_tfs_packet` is. The passes of its loop are
those of `Iptfs.Python.Write`.

A `sendmsg` that fails raises `OSError`, which ends `write_tfs_packets` for good: `thread_catch`
turns it into `sys.exit(1)`, and that ends the thread only. The step is an error, and what
`read_intf_packets` can still do after it are the runs in which `write_tfs_packets` takes no further
step. A `readinto` that raises an exception is not a step either. The mbufs of the ingress have no
`refcnt`.

`ObservedIngress` has the record of the packets that come in, the calls of `write_tfs_packet`, and
the datagrams that go to `sendmsg`.
-/

set_option autoImplicit false

namespace Iptfs.Py

/-- Where `write_tfs_packet` is. -/
inductive TfsWriter
  /-- Before a call, with `leftover`. -/
  | call (leftover : Option Mbuf)
  /-- At the test of `while mtu > 0`. -/
  | pack (offset : Nat) (w : Wtp)
  /-- Before the `inq.trypop()` at the end of a pass. -/
  | trypop (offset : Nat) (w : Wtp)
  /-- After the loop, before `sendmsg`. -/
  | send (offset : Nat) (w : Wtp)
  /-- Before the remaining `freeq.push(m, True)`. -/
  | free (leftover : Option Mbuf) (freem : List Mbuf)
  deriving DecidableEq, Repr

/-- The ingress. `seq` is the variable of `write_tfs_packets`. -/
structure Ingress where
  freeq : Queue Mbuf
  outq : Queue Mbuf
  reader : IntfReader
  writer : TfsWriter
  seq : Nat

/-- `tunnel_ingress` before its threads have taken a step. -/
def Ingress.init : Ingress where
  freeq := mqueueNewFreeq MAXQSZ fun id => ⟨id, [], 0⟩
  outq := Queue.empty MAXQSZ
  reader := .pop
  writer := .call none
  seq := 1

/-- `mq.trypop()`. -/
def trypop (mq : Queue Mbuf) : Option Mbuf × Queue Mbuf :=
  match mq.pop with
  | none => (none, mq)
  | some (m, rest) => (some m, rest)

/-- `mq.push(m, True)`. `none` is a thread that waits. -/
def pushReset (mq : Queue Mbuf) (m : Mbuf) : Option (Queue Mbuf) := mq.push { m with data := [] }

/-- A step of `read_intf_packets`. `bytes` is what `readinto` stores in the buffer. -/
def readIntfStep (s : Ingress) (bytes : List UInt8) : Except Stop Ingress :=
  match s.reader with
  | .pop =>
      match s.freeq.pop with
      | none => .error .waits
      | some (m, freeq) => .ok { s with freeq := freeq, reader := .read m }
  | .read m =>
      -- `readinto` stores at most `len(m.start)` bytes.
      let data := bytes.take (MAXBUF - HDRSPACE)
      if data = [] then .ok { s with reader := .pushFree m }
      else .ok { s with reader := .pushOut { m with data := data } }
  | .pushFree m =>
      match pushReset s.freeq m with
      | none => .error .waits
      | some freeq => .ok { s with freeq := freeq, reader := .pop }
  | .pushOut m =>
      match s.outq.push m with
      | none => .error .waits
      | some outq => .ok { s with outq := outq, reader := .pop }

/-- A step of `write_tfs_packets`. `sent` is whether `sendmsg` succeeds, in a step that calls it. -/
def writeTfsStep (mtu : Nat) (s : Ingress) (sent : Bool) : Except Stop Ingress :=
  match s.writer with
  | .call (some m) => .ok { s with writer := .pack m.len (wtpEnter mtu m [] []) }
  | .call none =>
      match trypop s.outq with
      | (some m, outq) =>
          .ok { s with outq := outq, writer := .pack 0 (wtpEnter mtu m [m] [mtu]) }
      | (none, _) =>
          match writeEmptyTunnelPacket s.seq mtu sent with
          | .error e => .error (.raises e)
          | .ok (_, seq) => .ok { s with seq := seq }
  | .pack offset w =>
      if w.mtu = 0 then .ok { s with writer := .send offset w }
      else
        match packOnce w with
        | (w, false) => .ok { s with writer := .pack offset w }
        | (w, true) => .ok { s with writer := .trypop offset w }
  | .trypop offset w =>
      match trypop s.outq with
      | (m, outq) => .ok { s with outq := outq, writer := .pack offset (w.take m) }
  | .send _ w =>
      if sent then .ok { s with seq := s.seq + 1, writer := .free w.leftover w.freem }
      else .error (.raises .os)
  | .free leftover [] =>
      if leftover.any fun m => m.len = 0 then .error (.raises .assertion)
      else .ok { s with writer := .call leftover }
  | .free leftover (m :: freem) =>
      match pushReset s.freeq m with
      | none => .error .waits
      | some freeq => .ok { s with freeq := freeq, writer := .free leftover freem }

/-- One step of the ingress: the thread that takes it, and what its system call does. -/
inductive IngressEvent
  | reader (bytes : List UInt8)
  | writer (sent : Bool)
  deriving DecidableEq, Repr

/-- One step of either thread. -/
def ingressStep (mtu : Nat) (s : Ingress) : IngressEvent → Except Stop Ingress
  | .reader bytes => readIntfStep s bytes
  | .writer sent => writeTfsStep mtu s sent

/-- The ingress with its record, as in `Iptfs.ObservedIngress`. -/
structure ObservedIngress where
  ingress : Ingress
  came : List Mbuf
  answers : List (Option Mbuf)
  calls : List WriteCall
  sent : List (List UInt8 × Bool)

/-- Before either thread has taken a step. -/
def ObservedIngress.init : ObservedIngress where
  ingress := .init
  came := []
  answers := []
  calls := []
  sent := []

/-- What a step of `read_intf_packets` adds to the record. -/
def ObservedIngress.read (o : ObservedIngress) : ObservedIngress :=
  match o.ingress.reader with
  | .pushOut m => { o with came := o.came ++ [m] }
  | _ => o

/-- What a step of `write_tfs_packets` adds to the record. The call of `write_empty_tunnel_packet`
is in the step that finds the queue empty. -/
def ObservedIngress.write (mtu : Nat) (o : ObservedIngress) (sent : Bool) : ObservedIngress :=
  match o.ingress.writer with
  | .call (some _) => { o with answers := [] }
  | .call none =>
      match (trypop o.ingress.outq).1 with
      | some m => { o with answers := [some m] }
      | none =>
          { o with
            calls := o.calls ++ [⟨[none], sent⟩]
            sent := o.sent ++ [(emptyTunnelPacket o.ingress.seq mtu, sent)] }
  | .trypop _ _ => { o with answers := o.answers ++ [(trypop o.ingress.outq).1] }
  | .send offset w =>
      let hdr := put32 o.ingress.seq ++ put16 0 ++ put16 offset
      { o with
        calls := o.calls ++ [⟨o.answers, sent⟩]
        sent := o.sent ++ [(iovBytes (.hdr hdr :: w.iov), sent)] }
  | _ => o

/-- One step of either thread. -/
def observedIngressStep (mtu : Nat) (o : ObservedIngress) (e : IngressEvent) :
    Except Stop ObservedIngress :=
  match ingressStep mtu o.ingress e with
  | .error f => .error f
  | .ok t =>
      match e with
      | .reader _ => .ok { o.read with ingress := t }
      | .writer sent => .ok { o.write mtu sent with ingress := t }

end Iptfs.Py
