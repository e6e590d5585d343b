import Iptfs.Python.Ack
import Iptfs.Python.Inner

/-!
# `Iptfs.Python.Read`: the Python receiver, `read_tfs_packets`

`read_tfs_packets` of `src/iptfs/iptfs.py`, lines 332-400, with the turns of `send_ack_infos`
between its datagrams.

One pass of the loop is an event `recv`: what `recvfrom_into` stores in the buffer, and whether the
limiter rejects it. `send_ack_infos` is another thread. Its hold on `outq.lock` is an event of its
own, `ackInfos`, which takes and clears the record. The datagrams come from `peeraddr`, as
`assert (addr == peeraddr)` asks.

`limit` is how deep the calls of `add_to_inner_packet` can nest before the interpreter raises
`RecursionError`, and `target` is `tunnel_target_pps`.
-/

set_option autoImplicit false

namespace Iptfs.Py

namespace AckRecord

/-- `if outq.startseq == 0: outq.startseq = seq`. -/
def begin (outq : AckRecord) (seq : Nat) : AckRecord :=
  { outq with startseq := if outq.startseq = 0 then seq else outq.startseq }

/-- `seq != outq.lastseq + 1 and outq.lastseq != 0`. -/
def gap (outq : AckRecord) (seq : Nat) : Prop := seq ≠ outq.lastseq + 1 ∧ outq.lastseq ≠ 0

instance (outq : AckRecord) (seq : Nat) : Decidable (outq.gap seq) := instDecidableAnd

/-- The missing packets are recorded, and `outq.lastseq = seq`. Only a `seq` above `lastseq`
gets here, so the difference is not negative. -/
def advance (outq : AckRecord) (seq : Nat) : AckRecord :=
  { outq with
    lastseq := seq
    dropcnt := if outq.gap seq then outq.dropcnt + (seq - (outq.lastseq + 1)) else outq.dropcnt }

/-- `outq.dropcnt += 1`. -/
def drop (outq : AckRecord) : AckRecord := { outq with dropcnt := outq.dropcnt + 1 }

/-- The packet in progress after the test for a gap. -/
def keep (outq : AckRecord) (seq : Nat) (m : Option MIOVBuf) : Option MIOVBuf :=
  if outq.gap seq then m.map MIOVBuf.reset else m

end AckRecord

/-- The receiver between two passes of the loop. `ack` are the attributes of the outq, and `outq`
are the packets pushed on it so far. -/
structure Rx where
  ack : AckRecord
  m : Option MIOVBuf
  congest : AckState
  outq : List MIOVBuf
  deriving DecidableEq, Repr

/-- `read_tfs_packets` before its first pass. -/
def Rx.init (pps : ℚ) : Rx := ⟨.zero, none, .init pps, []⟩

/-- What the world does: a datagram is received into the buffer `id`, or `send_ack_infos` takes
the record at the time `ns`. `limited` is the answer of `rxlimit.limit(n)`, and `lefts` are the
values of `left` that the pops of `iovfreeq` find. -/
inductive RxEvent
  | recv (id : Nat) (bytes : List UInt8) (limited : Bool) (lefts : List (Option Nat))
  | ackInfos (ns : Nat)
  deriving DecidableEq, Repr

/-- What the tests of the loop say of a datagram. -/
inductive Verdict
  | short
  | limited
  | ack
  | version
  | data (seq : Nat)
  deriving DecidableEq, Repr

/-- The tests from `n <= 8` to the version bit. -/
def classify (data : List UInt8) (limited : Bool) : Res Verdict :=
  if data.length ≤ 8 then .ok .short
  else if limited then .ok .limited
  else
    match get32 (slice data 4 8), get32 (slice data 0 4) with
    | .ok offset, .ok seq =>
        if offset &&& 0xC0000000 = 0x40000000 then .ok .ack
        else if offset &&& 0x80000000 ≠ 0 then .ok .version
        else .ok (.data seq)
    | _, _ => .error .index

/-- What `recvfrom_into(tmbuf.start)` keeps of a datagram. -/
def recvBytes (bytes : List UInt8) : List UInt8 := bytes.take (MAXBUF - HDRSPACE)

/-- `read_tfs_packets` from the sequence number on. -/
def acceptData (limit : Nat) (tmbuf : Tbuf) (seq : Nat) (lefts : List (Option Nat)) (s : Rx) :
    Res Rx :=
  let ack := s.ack.begin seq
  if seq ≤ ack.lastseq then .ok { s with ack := ack }
  else
    match addToInnerPacket limit tmbuf true (ack.keep seq s.m) lefts with
    | .error e => .error e
    | .ok a => .ok { s with ack := ack.advance seq, m := a.m, outq := s.outq ++ a.outq }

/-- The branch that the tests choose. -/
def dispatch (target : ℚ) (limit : Nat) (tmbuf : Tbuf) (lefts : List (Option Nat)) (s : Rx) :
    Verdict → Res Rx
  | .short => .ok { s with ack := s.ack.drop }
  | .limited => .ok { s with ack := s.ack.drop }
  | .ack => (recvAck target tmbuf.data s.congest).map fun g => { s with congest := g }
  | .version => .ok { s with ack := s.ack.drop }
  | .data seq => acceptData limit tmbuf seq lefts s

/-- One pass of the loop in `read_tfs_packets`, or one turn of `send_ack_infos`. -/
def readTfsPacketsStep (target : ℚ) (limit : Nat) (s : Rx) : RxEvent → Res Rx
  | .recv id bytes limited lefts =>
      match classify (recvBytes bytes) limited with
      | .error e => .error e
      | .ok verdict => dispatch target limit (Tbuf.fresh id (recvBytes bytes)) lefts s verdict
  | .ackInfos ns => .ok { s with ack := (sendAckInfos ns s.ack).2 }

end Iptfs.Py
