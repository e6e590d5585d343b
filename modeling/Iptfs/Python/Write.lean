import Iptfs.Model.WriteTfs
import Iptfs.Python.Basic

/-!
# `Iptfs.Python.Write`: the Python sender, `write_tfs_packet`

`write_tfs_packet` and `write_empty_tunnel_packet` of `src/iptfs/iptfs.py`, lines 408-536.

The shape is that of `Iptfs.Model.WriteTfs`. `packOnce` is one pass of the `while` body, and
tells whether the pass ends in `inq.trypop()`. `packLoop` chains the passes, and takes the
answers of the `trypop` calls as a list. The packets, the entries of `iov` and the result of a
call have the same types as there.

`sent` is whether `sendmsg` succeeds. The socket is a datagram socket, so `sendmsg` sends the
whole datagram and returns its length, or it sends nothing and raises `OSError`. No function on
the way catches it: `thread_catch` logs it and ends the thread. What the two functions do after a
return value other than the length (a log line, and the leftover is freed) is not reached, and not
modelled.
-/

set_option autoImplicit false

namespace Iptfs.Py

/-- `PADBYTES`. -/
def PADBYTES : List UInt8 := List.replicate MAXBUF 0

/-- The bytes of an entry of `iov`. `pad len` is `PADBYTES[8:8 + len]`. -/
def iovEntry : Iov → List UInt8
  | .hdr bytes => bytes
  | .pad len => slice PADBYTES 8 (8 + len)
  | .mbuf m len => m.data.take len

/-- The bytes that `sendmsg(iov)` sends. -/
def iovBytes (iov : List Iov) : List UInt8 := (iov.map iovEntry).flatten

/-- The local variables of `write_tfs_packet` in the packing loop. `iov` are the entries after
the header, and `m` is `none` once it went to `freem` or to `leftover`. The last two are not
variables of the source: the packets that `trypop` handed over, and the room that was left at
each `trypop`. -/
structure Wtp where
  mtu : Nat
  m : Option Mbuf
  iov : List Iov
  freem : List Mbuf
  leftover : Option Mbuf
  taken : List Mbuf
  asks : List Nat
  deriving DecidableEq, Repr

/-- One pass of the `while mtu > 0` body. -/
def packOnce (w : Wtp) : Wtp × Bool :=
  match if w.mtu ≤ 6 then none else w.m with
  | none =>
      -- We need a minimum of 6 bytes to include IPv6 length field.
      ({ w with iov := w.iov ++ [.pad w.mtu], mtu := 0 }, false)
  | some m =>
      let mlen := m.len
      if mlen > w.mtu then
        -- Room for partial MBUF.
        ({ w with
            iov := w.iov ++ [.mbuf m w.mtu]
            leftover := some { m with data := m.data.drop w.mtu }
            m := none
            mtu := 0 }, false)
      else
        -- Room for full MBUF.
        let mtu := w.mtu - mlen
        ({ w with
            iov := w.iov ++ [.mbuf m mlen]
            freem := w.freem ++ [m]
            m := none
            mtu := mtu }, decide (mtu > 6))

/-- The answer of an `inq.trypop()` reaches the loop. -/
def Wtp.take (w : Wtp) (m : Option Mbuf) : Wtp :=
  { w with m := m, taken := w.taken ++ m.toList, asks := w.asks ++ [w.mtu] }

/-- The packing loop. `fuel` bounds the passes. -/
def packLoop : Nat → Wtp → List (Option Mbuf) → Wtp
  | 0, w, _ => w
  | fuel + 1, w, answers =>
      if w.mtu = 0 then w
      else
        match packOnce w with
        | (w', false) => packLoop fuel w' answers
        | (w', true) => packLoop fuel (w'.take (answers.headD none)) answers.tail

/-- A bound on the passes of the loop. -/
def packFuel (w : Wtp) (answers : List (Option Mbuf)) : Nat :=
  w.mtu + answers.length + w.m.toList.length

/-- What one call of `write_tfs_packet` leaves behind, with the room that was left at each of
its `trypop` calls. -/
structure WriteOut extends Iptfs.WriteOut where
  asks : List Nat
  deriving DecidableEq, Repr

/-- The datagram of `write_empty_tunnel_packet`: `m.start[:mlen]` of the buffer `emptym`, whose
first four bytes are the sequence number. The rest of the buffer is zero. -/
def emptyTunnelPacket (seq mtu : Nat) : List UInt8 :=
  (put32 seq ++ List.replicate (MAXBUF - HDRSPACE - 4) 0).take mtu

/-- `write_empty_tunnel_packet(s, send_lock, seq, mtu)`: the datagram and the next sequence
number. A failed send raises `OSError`. -/
def writeEmptyTunnelPacket (seq mtu : Nat) (sent : Bool) : Res (List UInt8 × Nat) :=
  if sent then .ok (emptyTunnelPacket seq mtu, seq + 1) else .error .os

/-- The state of the loop on entry. -/
def wtpEnter (mtu : Nat) (m : Mbuf) (taken : List Mbuf) (asks : List Nat) : Wtp :=
  { mtu := mtu - 8, m := some m, iov := [], freem := [], leftover := none,
    taken := taken, asks := asks }

/-- `write_tfs_packet` from the header on. A failed send raises `OSError`, before `seq` is moved
on and before a buffer is freed. -/
def writeTfsData (seq offset : Nat) (w : Wtp) (answers : List (Option Mbuf)) (sent : Bool) :
    Res WriteOut :=
  let w := packLoop (packFuel w answers) w answers
  let iov := .hdr (put32 seq ++ put16 0 ++ put16 offset) :: w.iov
  if sent then
    if w.leftover.any fun m => m.len = 0 then .error .assertion
    else
      .ok {
        datagram := some (iovBytes iov)
        iov := iov
        seq := seq + 1
        leftover := w.leftover
        freed := w.freem
        taken := w.taken
        asks := w.asks }
  else .error .os

/-- `write_tfs_packet(s, send_lock, seq, mtu, leftover, inq, freeq)`. -/
def writeTfsPacket (mtu seq : Nat) (leftover : Option Mbuf) (answers : List (Option Mbuf))
    (sent : Bool) : Res WriteOut :=
  match leftover with
  | some m => writeTfsData seq m.len (wtpEnter mtu m [] []) answers sent
  | none =>
      match answers.headD none with
      | some m => writeTfsData seq 0 (wtpEnter mtu m [m] [mtu]) answers.tail sent
      | none =>
          match writeEmptyTunnelPacket seq mtu sent with
          | .error e => .error e
          | .ok (datagram, seq) => .ok ⟨⟨some datagram, [], seq, none, [], []⟩, [mtu]⟩

/-- One turn of the loop in `write_tfs_packets`. -/
def writeTfsPacketsStep (mtu : Nat) (s : Sender) (c : WriteCall) : Res Sender :=
  match writeTfsPacket mtu s.seq s.leftover c.answers c.sent with
  | .error e => .error e
  | .ok out => .ok ⟨out.seq, out.leftover, s.calls ++ [(c, out.toWriteOut)]⟩

end Iptfs.Py
