import Iptfs.Model.Mbuf

/-!
# `Iptfs.Model.WriteTfs`: the sender, `write_tfs_pkt`

`write_tfs_pkt` and `write_empty_tfs_pkt` (`src/src/iptfs.c`, lines 465-610). One call
lays the leftover of the call before and packets from the ingress queue into one datagram
of `g_tfsmtu` bytes.

The packing loop is split at the point where it asks the queue: `packOnce` is one pass of
the `while` body, and tells whether the pass ends in `mqueue_trypop`. `packLoop` chains
the passes. The queue belongs to another thread, so the loop takes the answers of its
`mqueue_trypop` calls as a list: whatever the producer pushes and whenever it does, the
calls return some list of answers, and the results below hold for every such list. When
the list is used up, the queue stays empty. `Iptfs.Model.Ingress` runs the same passes
against the queue itself.

The counters behind the `LOG` line (`tcount`, `ecount`, `sectimer`) are left out.
-/

set_option autoImplicit false

namespace Iptfs

/-- One entry of `g_wtfs_iovecs`: the header `g_wtfs_hdr`, the first `len` bytes of
`padbytes`, or `len` bytes from `m->start`. -/
inductive Iov
  | hdr (bytes : List UInt8)
  | pad (len : Nat)
  | mbuf (m : Mbuf) (len : Nat)
  deriving DecidableEq, Repr

namespace Iov

/-- `iov_len`. -/
def len : Iov → Nat
  | hdr bytes => bytes.length
  | pad len => len
  | mbuf _ len => len

/-- The bytes that `sendmsg` reads from the entry. `padbytes` is `MAXBUF` zeros. -/
def bytes : Iov → List UInt8
  | hdr bytes => bytes
  | pad len => (List.replicate MAXBUF 0).take len
  | mbuf m len => m.data.take len

end Iov

/-- `iovlen`. -/
def iovlen (iov : List Iov) : Nat := (iov.map Iov.len).sum

/-- The bytes that `sendmsg` sends. -/
def iovBytes (iov : List Iov) : List UInt8 := (iov.map Iov.bytes).flatten

/-- The 8 bytes of `g_wtfs_hdr`: `put32(g_wtfs_hdr, seq)`, two bytes that stay zero, and
`put16(&g_wtfs_hdr[6], offset)`. -/
def wtfsHdr (seq offset : Nat) : List UInt8 := put32 seq ++ ([0, 0] ++ put16 offset)

/-- The local variables of `write_tfs_pkt` in the packing loop. `iov` are the entries
from `g_wtfs_iovecs[1]` on. `taken` is not a variable of the source: it collects the
packets that `mqueue_trypop` handed over. `m` is the packet under the loop's hands, and
`none` once it went to `efreem` or to `leftover`. -/
structure Wtfs where
  mtu : Nat
  m : Option Mbuf
  iov : List Iov
  efreem : List Mbuf
  leftover : Option Mbuf
  taken : List Mbuf
  deriving DecidableEq, Repr

/-- One pass of the `while (mtu > 0)` body. The second component is the `maxsize` of the
`mqueue_trypop` at the end of the pass, if the pass gets there. -/
def packOnce (cfg : Config) (l : Wtfs) : Wtfs × Option Nat :=
  match l.m with
  | none => ({ l with iov := l.iov ++ [.pad l.mtu], mtu := 0 }, none)
  | some m =>
      if l.mtu ≤ 6 then
        -- No room for dbhdr: pad. The packet stays in `m`.
        ({ l with iov := l.iov ++ [.pad l.mtu], mtu := 0 }, none)
      else if m.len > l.mtu then
        -- Room for partial MBUF.
        ({ l with
            iov := l.iov ++ [.mbuf m l.mtu]
            leftover := some { m with data := m.data.drop l.mtu }
            m := none
            mtu := 0 }, none)
      else
        -- Room for full MBUF. Get the next one if there is space.
        let mtu := l.mtu - m.len
        ({ l with
            iov := l.iov ++ [.mbuf m m.len]
            efreem := l.efreem ++ [m]
            m := none
            mtu := mtu },
          if mtu > 6 ∧ cfg.oneonly = false then some (if cfg.dontfrag then mtu else 0) else none)

/-- The answer of a `mqueue_trypop` reaches the loop. -/
def Wtfs.take (l : Wtfs) (m : Option Mbuf) : Wtfs :=
  { l with m := m, taken := l.taken ++ m.toList }

/-- The packing loop, with the answers that its `mqueue_trypop` calls get. `fuel` bounds
the passes. `packLoop_fills` shows that `packFuel` passes are enough. -/
def packLoop (cfg : Config) : Nat → Wtfs → List (Option Mbuf) → Wtfs
  | 0, l, _ => l
  | fuel + 1, l, answers =>
      if l.mtu = 0 then l
      else
        match packOnce cfg l with
        | (l', none) => packLoop cfg fuel l' answers
        | (l', some _) => packLoop cfg fuel (l'.take (answers.headD none)) answers.tail

/-- The room that is left at each `mqueue_trypop` of the packing loop, in order. -/
def packAsks (cfg : Config) : Nat → Wtfs → List (Option Mbuf) → List Nat
  | 0, _, _ => []
  | fuel + 1, l, answers =>
      if l.mtu = 0 then []
      else
        match packOnce cfg l with
        | (l', none) => packAsks cfg fuel l' answers
        | (l', some _) =>
            l'.mtu :: packAsks cfg fuel (l'.take (answers.headD none)) answers.tail

/-- A bound on the passes of the loop: each pass uses up room, or an answer, or the packet
in hand. -/
def packFuel (l : Wtfs) (answers : List (Option Mbuf)) : Nat :=
  l.mtu + answers.length + l.m.toList.length

/-- What one call of `write_tfs_pkt` leaves behind: the datagram handed to `send` or
`sendmsg` (none in single-only mode with an empty queue), the entries it was gathered
from, the next sequence number, the leftover, the buffers pushed on the free queue, and
the packets taken from the ingress queue. -/
structure WriteOut where
  datagram : Option (List UInt8)
  iov : List Iov
  seq : Nat
  leftover : Option Mbuf
  freed : List Mbuf
  taken : List Mbuf
  deriving DecidableEq, Repr

/-- `write_empty_tfs_pkt(s, seq, mtu)`: the datagram and the next sequence number.
`ebytes` is `MAXBUF` zeros with the sequence number in front. -/
def writeEmptyTfsPkt (seq mtu : Nat) : List UInt8 × Nat :=
  ((put32 seq ++ List.replicate (MAXBUF - 4) 0).take mtu, (seq + 1) % 2 ^ 32)

/-- The state of the loop on entry, for a packet `m` that came from the leftover or from
the first `mqueue_trypop`. -/
def wtfsEnter (cfg : Config) (m : Mbuf) (taken : List Mbuf) : Wtfs :=
  { mtu := cfg.tfsmtu - 8, m := some m, iov := [], efreem := [], leftover := none,
    taken := taken }

/-- `write_tfs_pkt` from the header on, for a packet `m` and an `offset`. `sent` is
whether `sendmsg` returned `g_tfsmtu`. -/
def writeTfsData (cfg : Config) (seq offset : Nat) (l : Wtfs) (answers : List (Option Mbuf))
    (sent : Bool) : Res WriteOut :=
  let l := packLoop cfg (packFuel l answers) l answers
  let iov := .hdr (wtfsHdr seq offset) :: l.iov
  if iovlen iov ≠ cfg.tfsmtu then .error .errxIovlen
  else
    .ok {
      datagram := some (iovBytes iov)
      iov := iov
      seq := (seq + 1) % 2 ^ 32
      leftover := if sent then l.leftover else none
      freed := if sent then l.efreem else l.efreem ++ l.leftover.toList
      taken := l.taken }

/-- `write_tfs_pkt`. The first of `answers` is that of the `mqueue_trypop` on entry, which
is not made when there is a leftover. -/
def writeTfsPkt (cfg : Config) (seq : Nat) (leftover : Option Mbuf)
    (answers : List (Option Mbuf)) (sent : Bool) : Res WriteOut :=
  match leftover with
  | some m => writeTfsData cfg seq (m.len % 2 ^ 16) (wtfsEnter cfg m []) answers sent
  | none =>
      match answers.headD none with
      | some m => writeTfsData cfg seq 0 (wtfsEnter cfg m [m]) answers.tail sent
      | none =>
          if cfg.oneonly then .ok ⟨none, [], seq, none, [], []⟩
          else
            let (datagram, seq) := writeEmptyTfsPkt seq cfg.tfsmtu
            .ok ⟨some datagram, [], seq, none, [], []⟩

/-- The points at which a call of `write_tfs_pkt` calls `mqueue_trypop`, as the bytes of the
datagram that are not laid out yet. The one on entry comes before the header. -/
def writeTfsAsks (cfg : Config) (leftover : Option Mbuf) (answers : List (Option Mbuf)) :
    List Nat :=
  match leftover with
  | some m =>
      let l := wtfsEnter cfg m []
      packAsks cfg (packFuel l answers) l answers
  | none =>
      cfg.tfsmtu ::
        match answers.headD none with
        | some m =>
            let l := wtfsEnter cfg m [m]
            packAsks cfg (packFuel l answers.tail) l answers.tail
        | none => []

/-- What the world does during one call: the answers of its `mqueue_trypop` calls, and
whether the send succeeds. -/
structure WriteCall where
  answers : List (Option Mbuf)
  sent : Bool
  deriving DecidableEq, Repr

/-- The sender between two calls of `write_tfs_pkt`: the variables of `write_tfs_pkts`,
and the record of the calls so far (not a variable of the source). -/
structure Sender where
  seq : Nat
  leftover : Option Mbuf
  calls : List (WriteCall × WriteOut)
  deriving DecidableEq, Repr

/-- `write_tfs_pkts` before its first call. -/
def Sender.init : Sender := ⟨1, none, []⟩

/-- One turn of the loop in `write_tfs_pkts`. -/
def writeTfsPktsStep (cfg : Config) (s : Sender) (c : WriteCall) : Res Sender :=
  match writeTfsPkt cfg s.seq s.leftover c.answers c.sent with
  | .error e => .error e
  | .ok out => .ok ⟨out.seq, out.leftover, s.calls ++ [(c, out)]⟩

/-- The packets taken from the ingress queue, in order. -/
def Sender.taken (s : Sender) : List Mbuf := (s.calls.map fun c => c.2.taken).flatten

end Iptfs
