import Iptfs.Model.WriteTfs

/-!
# `Iptfs.Model.Ingress`: the two threads of the ingress

`read_intf_pkts` and `write_tfs_pkts` (`src/src/iptfs.c`, lines 91-119 and 491-651) with the
two queues they share. Every queue operation runs under the lock of its queue, so it is one
step, and so is every system call and every pass of the packing loop. A run is any
interleaving of the steps of the two threads.

`IntfReader` and `TfsWriter` say where a thread is, with the buffers in its hands. The passes
of the packing loop are those of `Iptfs.Model.WriteTfs`.

A thread that has to wait takes no step: its step is an error, and the run is continued by
the other thread.
-/

set_option autoImplicit false

namespace Iptfs

/-- Where `read_intf_pkts` is. -/
inductive IntfReader
  /-- Before `mqueue_pop(freeq)`. -/
  | pop
  /-- Before `read`. -/
  | read (m : Mbuf)
  /-- After a bad read, before `mqueue_push(freeq, m, true)`. -/
  | pushFree (m : Mbuf)
  /-- Before `mqueue_push(outq, m, false)`. -/
  | pushOut (m : Mbuf)
  deriving DecidableEq, Repr

/-- Where `write_tfs_pkt` is. -/
inductive TfsWriter
  /-- Before a call, with `*leftover`. -/
  | call (leftover : Option Mbuf)
  /-- At the test of `while (mtu > 0)`. -/
  | pack (offset : Nat) (l : Wtfs)
  /-- Before the `mqueue_trypop(inq, maxsize)` at the end of a pass. -/
  | trypop (offset : Nat) (l : Wtfs) (maxsize : Nat)
  /-- After the loop, before the check of the length and `sendmsg`. -/
  | send (offset : Nat) (l : Wtfs)
  /-- Before the remaining `mqueue_push(freeq, *freem, true)`. -/
  | free (leftover : Option Mbuf) (freem : List Mbuf)
  deriving DecidableEq, Repr

/-- The ingress. `seq` is the variable of `write_tfs_pkts`. -/
structure Ingress where
  freeq : Queue Mbuf
  outq : Queue Mbuf
  reader : IntfReader
  writer : TfsWriter
  seq : Nat

/-- `tfs_tunnel_ingress`, before either thread has taken a step. -/
def Ingress.init : Ingress :=
  { freeq := mqueueNewFreeq INNERQSZ fun id => ⟨id, [], 0⟩, outq := Queue.empty INNERQSZ,
    reader := .pop, writer := .call none, seq := 1 }

/-- `mqueue_push(mq, m, true)`. -/
def mqueuePushReset (mq : Queue Mbuf) (m : Mbuf) : Except Stop (Queue Mbuf) :=
  match mbufReset m with
  | .error f => .error (.fault f)
  | .ok m =>
      match mqueuePush mq m with
      | none => .error .waits
      | some mq => .ok mq

/-- A step of `read_intf_pkts`. `result` is what `read` returns: an error, or bytes. -/
def readIntfStep (s : Ingress) (result : Option (List UInt8)) : Except Stop Ingress :=
  match s.reader with
  | .pop =>
      match mqueuePop s.freeq with
      | none => .error .waits
      | some (m, freeq) => .ok { s with freeq := freeq, reader := .read m }
  | .read m =>
      match result with
      | none => .ok { s with reader := .pushFree m }
      | some bytes =>
          -- `read` returns at most `MBUF_AVAIL(m)` bytes.
          let data := bytes.take (MAXBUF - HDRSPACE)
          -- After a zero read the loop goes on without pushing `m`.
          if data = [] then .ok { s with reader := .pop }
          else .ok { s with reader := .pushOut { m with data := data } }
  | .pushFree m =>
      match mqueuePushReset s.freeq m with
      | .error e => .error e
      | .ok freeq => .ok { s with freeq := freeq, reader := .pop }
  | .pushOut m =>
      match mqueuePush s.outq m with
      | none => .error .waits
      | some outq => .ok { s with outq := outq, reader := .pop }

/-- A step of `write_tfs_pkts`. `sent` is whether `sendmsg` returns `g_tfsmtu`. In
single-only mode `mqueue_wait` comes before each call. -/
def writeTfsStep (cfg : Config) (s : Ingress) (sent : Bool) : Except Stop Ingress :=
  match s.writer with
  | .call leftover =>
      if cfg.oneonly ∧ s.outq.queue = [] then .error .waits
      else
        match leftover with
        | some m => .ok { s with writer := .pack (m.len % 2 ^ 16) (wtfsEnter cfg m []) }
        | none =>
            match mqueueTrypop Mbuf.len s.outq 0 with
            | (some m, outq) =>
                .ok { s with outq := outq, writer := .pack 0 (wtfsEnter cfg m [m]) }
            | (none, _) =>
                .ok { s with
                  seq := if cfg.oneonly then s.seq else (writeEmptyTfsPkt s.seq cfg.tfsmtu).2 }
  | .pack offset l =>
      if l.mtu = 0 then .ok { s with writer := .send offset l }
      else
        match packOnce cfg l with
        | (l, none) => .ok { s with writer := .pack offset l }
        | (l, some maxsize) => .ok { s with writer := .trypop offset l maxsize }
  | .trypop offset l maxsize =>
      match mqueueTrypop Mbuf.len s.outq maxsize with
      | (m, outq) => .ok { s with outq := outq, writer := .pack offset (l.take m) }
  | .send offset l =>
      if iovlen (.hdr (wtfsHdr s.seq offset) :: l.iov) ≠ cfg.tfsmtu then
        .error (.fault .errxIovlen)
      else
        .ok { s with
          seq := (s.seq + 1) % 2 ^ 32
          writer :=
            if sent then .free l.leftover l.efreem
            else .free none (l.efreem ++ l.leftover.toList) }
  | .free leftover [] => .ok { s with writer := .call leftover }
  | .free leftover (m :: freem) =>
      match mqueuePushReset s.freeq m with
      | .error e => .error e
      | .ok freeq => .ok { s with freeq := freeq, writer := .free leftover freem }

/-- One step of the ingress: the thread that takes it, and what its system call returns
where it makes one. -/
inductive IngressEvent
  | reader (result : Option (List UInt8))
  | writer (sent : Bool)
  deriving DecidableEq, Repr

/-- One step of either thread. -/
def ingressStep (cfg : Config) (s : Ingress) : IngressEvent → Except Stop Ingress
  | .reader result => readIntfStep s result
  | .writer sent => writeTfsStep cfg s sent

end Iptfs
