import Iptfs.Model.AddToInner
import Iptfs.Model.Util

/-!
# `Iptfs.Model.ReadTfs`: the receiver loop, `read_tfs_pkts`

`read_tfs_pkts`, `send_ack` and `recv_ack` (`src/src/iptfs.c`, lines 374-456 and 653-759).

One pass of the loop is `readTfsPktsStep`. What the world does during a pass is an
`RxEvent`: whether `st_check` finds the ACK timer expired, and what `recvfrom` returns.
The rate limiter reads the clock, so its answer is part of the event. `classify` is the
chain of tests from `n == 0` to the version bit, and `acceptData` the test on the sequence
number with everything after it.

The buffers are those of `Iptfs.Model.AddToInner`; their reference counts, and the queues
that the passes share with `write_intf_pkts`, are in `Iptfs.Model.Egress`.

What a pass takes from the egress comes in two layers over `readTfsPktsStep`, which has
neither. `miov_addmbuf` does not check the arrays of the miov: `boundedStep` is the pass with
that check added, where an overflow is a fault. Before a pass the loop needs an mbuf, and
there are `OUTERQSZ` of them: `pooledStep` is the pass with the pool, which waits when the
packet in progress holds them all. `confinedStep` has both.

The limiter of the source is a parameter of the run and not of the state, since only its
answers reach this code. The `addrlen` and `sender` arguments of `recvfrom` are not read
by anything.
-/

set_option autoImplicit false

namespace Iptfs

/-- `struct ackinfo`. -/
structure Ackinfo where
  start : Nat
  last : Nat
  ndrop : Nat
  deriving DecidableEq, Repr

/-- `memset(&ack, 0, sizeof(ack))`. -/
def Ackinfo.zero : Ackinfo := ⟨0, 0, 0⟩

/-- `struct timespec`. -/
structure Timespec where
  sec : Nat
  nsec : Nat
  deriving DecidableEq, Repr

/-- `send_ack(s, now, ack)`: the 20 bytes handed to `send`, if there is something to talk
about, and the record after it. -/
def sendAck (cfg : Config) (now : Timespec) (ack : Ackinfo) :
    Res (Option (List UInt8) × Ackinfo) :=
  if cfg.oneonly then .error .assertOneonly
  else if ack.start = 0 then .ok (none, ack)
  else
    let ndrop := if ack.ndrop > 0xFFFFFF then 0xFFFFFF else ack.ndrop
    .ok (some ([0xFF, 0xFF, 0xFF, 0xFF] ++ put32 (0x40000000 ||| ndrop)
      ++ put32 ((now.sec * 1000 + now.nsec / 1000000) % 2 ^ 32)
      ++ put32 ack.start ++ put32 ack.last), .zero)

/-- The globals that `recv_ack` works on: `g_avgpps`, `g_avgdrops` and `g_pps`. -/
structure Congest where
  avgpps : Runavg
  avgdrops : Runavg
  pps : Pps
  deriving DecidableEq, Repr

/-- `recv_ack` from the unpacked fields on. -/
def congestAck (ndrop runlen : Nat) (g : Congest) : Res Congest :=
  match runavgAdd g.avgpps runlen with
  | .error e => .error e
  | .ok (avgpps, _) =>
      match runavgAdd g.avgdrops ndrop with
      | .error e => .error e
      | .ok (avgdrops, ticked) =>
          let g := { g with avgpps := avgpps, avgdrops := avgdrops }
          -- Wait for enough data to start.
          if ticked = false then .ok g
          -- Not degraded, increase rate.
          else if avgdrops.average = 0 then .ok { g with pps := ppsChangePps g.pps 1 }
          -- Degraded. `droppct` is computed, and used in a comment only.
          else if avgpps.average = 0 then .error .divZero
          else .ok { g with pps := ppsChangePps g.pps (-avgdrops.average) }

/-- `recv_ack(m)`. -/
def recvAck (cfg : Config) (data : List UInt8) (g : Congest) : Res Congest :=
  if cfg.oneonly then .ok g
  else if data.length ≠ 20 then .ok g
  else
    match get32 data 0 with
    | .error e => .error e
    | .ok marker =>
        if marker ≠ 0xFFFFFFFF then .error .assertAckMark
        else
          match get32 data 4, get32 data 12, get32 data 16 with
          | .ok ndrop, .ok start, .ok last =>
              if last < start then .ok g
              else congestAck (ndrop &&& 0xFFFFFF) (last - start) g
          | _, _, _ => .error .outOfBounds

/-- The receiver between two passes of the loop. `outq` are the packets pushed on the outq
so far. The last two fields are not variables of the source: `accepted` are the sequence
numbers that reached `add_to_inner_packet`, and `reports` the drop counts that `send_ack`
found in the record, before saturation. -/
structure Rx where
  ack : Ackinfo
  m : Option Miov
  congest : Congest
  outq : List Miov
  accepted : List Nat
  reports : List Nat
  deriving DecidableEq, Repr

/-- `read_tfs_pkts` before its first pass. The running averages are those of
`tfs_tunnel_egress`. -/
def Rx.init (pps : Pps) : Rx :=
  { ack := .zero, m := none,
    congest := { avgpps := runavgNew 5 1, avgdrops := runavgNew 5 1, pps := pps },
    outq := [], accepted := [], reports := [] }

/-- What `recvfrom` returns: an error, or a datagram. `id` is the address of `tbuf`,
`bytes` what was sent to the socket, and `limited` the answer of `rl && limit(rl, n)`. -/
inductive Recv
  | failed
  | got (id : Nat) (bytes : List UInt8) (limited : Bool)
  deriving DecidableEq, Repr

/-- What the world does during one pass. `timer` is `acktimer.ts` where `st_check` finds
the timer expired. -/
structure RxEvent where
  timer : Option Timespec
  recv : Recv
  deriving DecidableEq, Repr

/-- What the tests of the loop say of a datagram. -/
inductive Verdict
  | zero
  | short
  | limited
  | ack
  | version
  | data (seq : Nat)
  deriving DecidableEq, Repr

/-- The tests from `n == 0` to the version bit. -/
def classify (data : List UInt8) (limited : Bool) : Res Verdict :=
  if data.length = 0 then .ok .zero
  else if data.length < 8 then .ok .short
  else if limited then .ok .limited
  else
    match get32 data 4, get32 data 0 with
    | .ok offset, .ok seq =>
        if offset &&& 0xC0000000 = 0x40000000 then .ok .ack
        else if offset &&& 0x80000000 ≠ 0 then .ok .version
        else .ok (.data seq)
    | _, _ => .error .outOfBounds

/-- `recvfrom(s, tbuf->start, MBUF_AVAIL(tbuf), ..)` keeps what fits the buffer. -/
def recvBytes (bytes : List UInt8) : List UInt8 := bytes.take (MAXBUF - HDRSPACE)

/-- `if (!g_oneonly && st_check(&acktimer)) send_ack(..)`. -/
def ackTimer (cfg : Config) (timer : Option Timespec) (s : Rx) : Res Rx :=
  match timer with
  | none => .ok s
  | some now =>
      if cfg.oneonly then .ok s
      else
        match sendAck cfg now s.ack with
        | .error e => .error e
        | .ok (none, ack) => .ok { s with ack := ack }
        | .ok (some _, ack) => .ok { s with ack := ack, reports := s.reports ++ [s.ack.ndrop] }

/-- The test for a lost datagram: `seq != ack.last + 1 && ack.last != 0`. -/
def Ackinfo.gap (ack : Ackinfo) (seq : Nat) : Prop := seq ≠ (ack.last + 1) % 2 ^ 32 ∧ ack.last ≠ 0

instance (ack : Ackinfo) (seq : Nat) : Decidable (ack.gap seq) := instDecidableAnd

/-- `if (ack.start == 0) ack.start = seq`. -/
def Ackinfo.begin (ack : Ackinfo) (seq : Nat) : Ackinfo :=
  { ack with start := if ack.start = 0 then seq else ack.start }

/-- `ack.ndrop += ndrop` for a gap before `seq`, and `ack.last = seq`. -/
def Ackinfo.advance (ack : Ackinfo) (seq : Nat) : Ackinfo :=
  { ack with
    last := seq
    ndrop :=
      if ack.gap seq then (ack.ndrop + (seq + 2 ^ 32 - (ack.last + 1)) % 2 ^ 32) % 2 ^ 32
      else ack.ndrop }

/-- The packet in progress after the test for a gap. -/
def Ackinfo.keep (ack : Ackinfo) (seq : Nat) (m : Option Miov) : Option Miov :=
  if ack.gap seq then m.map miovReset else m

/-- `read_tfs_pkts` from the sequence number on. -/
def acceptData (tbuf : Tbuf) (seq : Nat) (s : Rx) : Res Rx :=
  let ack := s.ack.begin seq
  if seq ≤ ack.last then .ok { s with ack := ack }
  else
    match addToInnerPacket tbuf.data.length tbuf true (ack.keep seq s.m) with
    | .error e => .error e
    | .ok a => .ok { s with
        ack := ack.advance seq
        m := a.m
        outq := s.outq ++ a.outq
        accepted := s.accepted ++ [seq] }

/-- `ack.ndrop++`. -/
def Rx.drop (s : Rx) : Rx :=
  { s with ack := { s.ack with ndrop := (s.ack.ndrop + 1) % 2 ^ 32 } }

/-- The branch that the tests choose. -/
def dispatch (cfg : Config) (tbuf : Tbuf) (s : Rx) : Verdict → Res Rx
  | .zero => .ok s
  | .short => .ok s.drop
  | .limited => .ok s.drop
  | .ack => (recvAck cfg tbuf.data s.congest).map fun g => { s with congest := g }
  | .version => .ok s.drop
  | .data seq => acceptData tbuf seq s

/-- One pass of the loop in `read_tfs_pkts`. -/
def readTfsPktsStep (cfg : Config) (s : Rx) (e : RxEvent) : Res Rx :=
  match ackTimer cfg e.timer s with
  | .error f => .error f
  | .ok s =>
      match e.recv with
      | .failed => .ok s
      | .got id bytes limited =>
          match classify (recvBytes bytes) limited with
          | .error f => .error f
          | .ok verdict => dispatch cfg (Tbuf.fresh id (recvBytes bytes)) s verdict

/-- `maxiov`, as `tfs_tunnel_egress` computes it: the entries that the arrays of a
`struct miov` have room for. -/
def Config.maxiov (cfg : Config) : Nat := MAXBUF / cfg.tfsmtu + 2

/-- No inner packet has more entries than its arrays have room for. -/
def Rx.Fits (cfg : Config) (s : Rx) : Prop :=
  ∀ m ∈ s.m.toList ++ s.outq, m.niov ≤ cfg.maxiov

instance (cfg : Config) (s : Rx) : Decidable (s.Fits cfg) :=
  inferInstanceAs (Decidable (∀ m ∈ s.m.toList ++ s.outq, m.niov ≤ cfg.maxiov))

/-- One pass of the loop with the arrays of the miovs: a pass that writes past one brings the
thread down. -/
def boundedStep (cfg : Config) (s : Rx) (e : RxEvent) : Res Rx :=
  match readTfsPktsStep cfg s e with
  | .error f => .error f
  | .ok s => if s.Fits cfg then .ok s else .error .iovOverflow

/-- `mqueue_pop(freeq)` comes back. The egress has `OUTERQSZ` mbufs. The packet in progress
keeps one for each of its entries, and `write_intf_pkts` gives back the others in the end. -/
def MbufLeft (m : Option Miov) : Prop := entries m < OUTERQSZ

instance (m : Option Miov) : Decidable (MbufLeft m) :=
  inferInstanceAs (Decidable (entries m < OUTERQSZ))

/-- A pass that needs an mbuf for its datagram first. When every mbuf is an entry of the packet
in progress, the loop waits in `mqueue_pop` and nothing ends the wait: only the loop itself
could free them. -/
def pooled {σ ι : Type} (m : σ → Option Miov) (step : σ → ι → Res σ) (s : σ) (i : ι) :
    Except Stop σ :=
  if MbufLeft (m s) then
    match step s i with
    | .error f => .error (.fault f)
    | .ok t => .ok t
  else .error .waits

/-- One pass of the loop with the pool of mbufs, where the arrays have room. -/
def pooledStep (cfg : Config) : Rx → RxEvent → Except Stop Rx :=
  pooled Rx.m (readTfsPktsStep cfg)

/-- One pass of the loop with the pool of mbufs and the arrays of the miovs. -/
def confinedStep (cfg : Config) : Rx → RxEvent → Except Stop Rx :=
  pooled Rx.m (boundedStep cfg)

end Iptfs
