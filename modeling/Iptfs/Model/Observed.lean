import Iptfs.Model.Egress
import Iptfs.Model.Ingress

/-!
# `Iptfs.Model.Observed`: what goes into the tunnel and what comes out

The threads of `Iptfs.Model.Ingress` and `Iptfs.Model.Egress` with a record of what crosses their
borders.

`ObservedIngress` has the packets that `read_intf_pkts` pushes on its outq, the calls of
`write_tfs_pkt`, and the datagrams that go to `send` and `sendmsg`.

`Iptfs.Model.Egress` keeps with each slice of a datagram the bytes that were there when
`miov_addmbuf` added it. The C program copies nothing. A slice is a pointer into an mbuf, and
`writev` reads through it when `read_tfs_pkts` may be receiving other datagrams already. Here
the memory of the mbufs runs along: `recvfrom` writes to it, and `writev` reads from it.

`Observed` also has the passes of the loop in `read_tfs_pkts`, the packets that it pushes on the
outq, and the bytes that `write_intf_pkts` writes to the interface.
-/

set_option autoImplicit false

namespace Iptfs

/-- `recvfrom` writes `data` over what the buffer held. -/
def overwrite (old data : List UInt8) : List UInt8 := data ++ old.drop data.length

/-- The bytes that `writev` reads through an entry: `iov_len` bytes from `iov_base`. -/
def Iovec.load (mem : Nat → List UInt8) (v : Iovec) : List UInt8 :=
  ((mem v.mbuf).drop v.base).take v.bytes.length

/-- The bytes that `writev(fd, m->iov, m->niov)` writes. -/
def Miov.gather (mem : Nat → List UInt8) (m : Miov) : List UInt8 :=
  (m.iov.map (Iovec.load mem)).flatten

/-- The egress with its memory and its record. `mem b` are the bytes of the mbuf `b` from where
`recvfrom` writes on. `timer` is what `st_check` found in the pass under way. `passes` are the
passes in which `recvfrom` has returned, `pushed` the packets pushed on the outq, and `written`
what each `writev` wrote. -/
structure Observed where
  egress : Egress
  mem : Nat → List UInt8
  timer : Option Timespec
  passes : List RxEvent
  pushed : List Miov
  written : List (List UInt8)

/-- Before either thread has taken a step, with what `malloc` returned in the mbufs. -/
def Observed.init (pps : Pps) (mem : Nat → List UInt8) : Observed :=
  { egress := .init pps, mem := mem, timer := none, passes := [], pushed := [], written := [] }

/-- The memory after `recvfrom`. -/
def recvMem (mem : Nat → List UInt8) (tbuf : Nat) (input : Option (List UInt8 × Bool)) :
    Nat → List UInt8 :=
  match input with
  | none => mem
  | some (bytes, _) => Function.update mem tbuf (overwrite (mem tbuf) (recvBytes bytes))

/-- What `recvfrom` returns, as the loop of `Iptfs.Model.ReadTfs` has it. -/
def recvInput (tbuf : Nat) : Option (List UInt8 × Bool) → Recv
  | none => .failed
  | some (bytes, limited) => .got tbuf bytes limited

/-- The datagram goes to the test of its sequence number. It is no ACK, and it is not dropped. -/
def Recv.isData : Recv → Bool
  | .failed => false
  | .got _ bytes limited =>
      match classify (recvBytes bytes) limited with
      | .ok (.data _) => true
      | _ => false

/-- What a step of `read_tfs_pkts` adds to the record. -/
def Observed.read (o : Observed) (timer : Option Timespec) (input : Option (List UInt8 × Bool)) :
    Observed :=
  match o.egress.reader with
  | .top _ _ => { o with timer := timer }
  | .recv b _ =>
      { o with
        mem := recvMem o.mem b input
        passes := o.passes ++ [⟨o.timer, recvInput b input⟩] }
  | .push _ k _ => { o with pushed := o.pushed ++ [o.egress.miov k] }
  | _ => o

/-- What a step of `write_intf_pkts` adds to the record. -/
def Observed.write (o : Observed) : Observed :=
  match o.egress.writer with
  | .write k => { o with written := o.written ++ [(o.egress.miov k).gather o.mem] }
  | _ => o

/-- One step of either thread. -/
def observedStep (cfg : Config) (maxiov : Nat) (o : Observed) (e : EgressEvent) :
    Except Stop Observed :=
  match egressStep cfg maxiov o.egress e with
  | .error f => .error f
  | .ok t =>
      match e with
      | .reader timer input => .ok { o.read timer input with egress := t }
      | .writer => .ok { o.write with egress := t }

/-- The ingress with its record. `came` are the packets pushed on the outq. `answers` are those of
the `mqueue_trypop` calls in the call of `write_tfs_pkt` under way. `calls` are the calls before
it, and `sent` what they handed to `send` or `sendmsg`, each with its success. -/
structure ObservedIngress where
  ingress : Ingress
  came : List Mbuf
  answers : List (Option Mbuf)
  calls : List WriteCall
  sent : List (List UInt8 × Bool)

/-- Before either thread has taken a step. -/
def ObservedIngress.init : ObservedIngress :=
  { ingress := .init, came := [], answers := [], calls := [], sent := [] }

/-- What a step of `read_intf_pkts` adds to the record. -/
def ObservedIngress.read (o : ObservedIngress) : ObservedIngress :=
  match o.ingress.reader with
  | .pushOut m => { o with came := o.came ++ [m] }
  | _ => o

/-- What a step of `write_tfs_pkts` adds to the record. The call of `write_empty_tfs_pkt` is in the
step that finds the queue empty. -/
def ObservedIngress.write (cfg : Config) (o : ObservedIngress) (sent : Bool) : ObservedIngress :=
  match o.ingress.writer with
  | .call (some _) => { o with answers := [] }
  | .call none =>
      match (mqueueTrypop Mbuf.len o.ingress.outq 0).1 with
      | some m => { o with answers := [some m] }
      | none =>
          { o with
            calls := o.calls ++ [⟨[none], sent⟩]
            sent :=
              if cfg.oneonly then o.sent
              else o.sent ++ [((writeEmptyTfsPkt o.ingress.seq cfg.tfsmtu).1, sent)] }
  | .trypop _ _ maxsize =>
      { o with answers := o.answers ++ [(mqueueTrypop Mbuf.len o.ingress.outq maxsize).1] }
  | .send offset l =>
      { o with
        calls := o.calls ++ [⟨o.answers, sent⟩]
        sent := o.sent ++ [(iovBytes (.hdr (wtfsHdr o.ingress.seq offset) :: l.iov), sent)] }
  | _ => o

/-- One step of either thread. -/
def observedIngressStep (cfg : Config) (o : ObservedIngress) (e : IngressEvent) :
    Except Stop ObservedIngress :=
  match ingressStep cfg o.ingress e with
  | .error f => .error f
  | .ok t =>
      match e with
      | .reader _ => .ok { o.read with ingress := t }
      | .writer sent => .ok { o.write cfg sent with ingress := t }

end Iptfs
