import Iptfs.Model.Mbuf

/-!
# `Iptfs.Model.AddToInner`: the reassembler, `add_to_inner_packet`

`getiplen` and `add_to_inner_packet` (`src/src/iptfs.c`, lines 163-346). One call adds the
rest of a datagram to the inner packet in progress, and calls itself for what follows a
packet that is complete.

The function is cut where it touches the two miov queues. `enterInner` is the part before
`miovq_pop`, and `innerPass` decides what to do with the packet in hand. It answers with
a `Pass`: keep the packet as it is, add a slice and keep it, or add a slice, push it on
the outq, and go on or not. `addToInnerPacket` carries this out, and `Iptfs.Model.Egress`
carries it out in single steps against the shared queues.

`Tbuf.start` is `tbuf->start`. A `uint16_t` is written with `% 2 ^ 16`. The arguments
`freeq` and `outq` are the pools: a miov from the free queue is clean, and the pushes are
returned in order. `seq` is only logged.
-/

set_option autoImplicit false

namespace Iptfs

/-- `getiplen(m, tbuf)`. The masked byte is compared as the source compares it, with `0x4`
and `0x6`. -/
def getiplen (m : Miov) (tbuf : Tbuf) : Res Nat :=
  match m.iov.head?.bind fun v => v.bytes.head? with
  | none => .error .outOfBounds
  | some b =>
      let field (i : Nat) : Res Nat :=
        if tbuf.start + i < m.len then .error .outOfBounds
        else get16 tbuf.data (tbuf.start + i - m.len)
      if b &&& 0xF0 = 0x4 then field 2
      else if b &&& 0xF0 = 0x6 then field 4
      else .error .assertIplen

/-- All of `tbuf` is consumed: `tbuf->start = tbuf->end`. -/
def Tbuf.skip (tbuf : Tbuf) : Tbuf := { tbuf with start := tbuf.data.length }

/-- What `add_to_inner_packet` does with the packet in hand. `keep`: return it as it is.
`part`: add the slice, set `m->left`, return the packet. `full`: add the slice, set
`m->left` to zero, push the packet, and then call itself on `tbuf` if `recurse`, or else
return `NULL`. `tbuf` is the datagram with `start` where the pass leaves it. -/
inductive Pass
  | keep (tbuf : Tbuf)
  | part (start len left : Nat) (tbuf : Tbuf)
  | full (start len : Nat) (tbuf : Tbuf) (recurse : Bool)
  deriving DecidableEq, Repr

/-- The datagram with `start` where a pass leaves it. -/
def Pass.rest : Pass → Tbuf
  | .keep tbuf => tbuf
  | .part _ _ _ tbuf => tbuf
  | .full _ _ tbuf _ => tbuf

/-- `add_to_inner_packet` up to `miovq_pop`: the start of a new datagram. The result is
`tbuf` past the header, and `offset`. -/
def enterInner (tbuf : Tbuf) (new : Bool) : Res (Tbuf × Nat) :=
  if tbuf.len = 0 then .error .errxTlen
  else if new then
    if tbuf.len > 8 then
      match get16 tbuf.data (tbuf.start + 6) with
      | .error e => .error e
      | .ok offset => .ok ({ tbuf with start := tbuf.start + 8 }, offset)
    else .error .assertLtlen
  else .ok (tbuf, 0)

/-- Add `tlen` bytes, all that is left of the datagram ("copy A" of the source, and the
short start). -/
def morePass (tbuf : Tbuf) (tlen left : Nat) : Res Pass :=
  let rest := { tbuf with start := tbuf.start + tlen }
  if rest.len = 0 then .ok (.part tbuf.start tlen left rest) else .error .assertConsumed

/-- What follows the `if` chain: `m->left` is `left`, and `tlen` bytes at `tbuf->start`
belong to the packet or to what comes after it. -/
def finishPass (tbuf : Tbuf) (left tlen : Nat) : Res Pass :=
  if left > tlen then
    -- MORELEFT
    morePass tbuf tlen (left - tlen)
  else
    -- COMPLETE
    let rest := { tbuf with start := tbuf.start + left }
    let tlen := rest.len % 2 ^ 16
    if tlen = 0 then .ok (.full tbuf.start left rest false)
    else if rest.len ≠ tlen then .error .errxMbufLen
    else .ok (.full tbuf.start left rest true)

/-- The length field of the packet that starts at `tbuf->start`, zero where it is not
there yet. `none` is a pad block. -/
def startIplen (tbuf : Tbuf) (tlen : Nat) : Res (Option Nat) :=
  match tbuf.rest with
  | [] => .error .outOfBounds
  | b :: _ =>
      let vnib := b &&& 0xF0
      if vnib = 0x40 then
        if tlen ≥ 4 then (get16 tbuf.data (tbuf.start + 2)).map some else .ok (some 0)
      else if vnib = 0x60 then
        if tlen ≥ 6 then (get16 tbuf.data (tbuf.start + 4)).map some else .ok (some 0)
      else if vnib = 0x0 then .ok none
      else .ok (some 0)

/-- The branch `m->len == 0`: start a new inner packet after `offset` bytes. -/
def startPass (tbuf : Tbuf) (offset tlen : Nat) (m : Miov) : Res Pass :=
  if offset ≥ tlen then
    -- Next data block is past the end of this packet.
    .ok (.keep tbuf.skip)
  else
    let tbuf := { tbuf with start := tbuf.start + offset }
    let tlen := tlen - offset
    match startIplen tbuf tlen with
    | .error e => .error e
    | .ok none => .ok (.keep tbuf.skip)
    | .ok (some iplen) =>
        if iplen = 0 then
          -- STARTSHORT: `m->left` stays as it is.
          morePass tbuf tlen m.left
        else if tbuf.len ≠ tlen then .error .errxMbufLen
        else finishPass tbuf iplen tlen

/-- `m->left`. Where it is zero, the initial mbuf wasn't large enough to include the
length. -/
def knownLeft (m : Miov) (tbuf : Tbuf) : Res Nat :=
  if m.left = 0 then getiplen m tbuf else .ok m.left

/-- `add_to_inner_packet` after `miovq_pop`. -/
def innerPass (tbuf : Tbuf) (offset : Nat) (m : Miov) : Res Pass :=
  let tlen := tbuf.len % 2 ^ 16
  if tbuf.len ≠ tlen then .error .errxMbufLen
  else if m.len = 0 then startPass tbuf offset tlen m
  else
    match knownLeft m tbuf with
    | .error e => .error e
    | .ok left =>
        if offset > tlen then
          if left > tlen then
            -- MORE
            morePass tbuf tlen (left - tlen)
          else
            -- SLOPPY END: the rest of the datagram is skipped.
            .ok (.full tbuf.start left tbuf.skip false)
        else if left = offset then
          -- CONTINUED: existing inner packet where offset is within the TFS buffer.
          finishPass tbuf left offset
        else .error .assertLeft

/-- What a call of `add_to_inner_packet` leaves behind: the datagram, the packet in
progress it returns, and the packets it pushed on the outq, in order. -/
structure Added where
  tbuf : Tbuf
  m : Option Miov
  outq : List Miov
  deriving DecidableEq, Repr

/-- A packet goes out in front of what a call of `add_to_inner_packet` pushes. -/
def Added.cons (m : Miov) (a : Added) : Added := { a with outq := m :: a.outq }

/-- Carry out a pass on the packet in hand. `again` is the recursive call. -/
def applyPass (again : Tbuf → Res Added) (tbuf : Tbuf) (m : Miov) : Pass → Res Added
  | .keep rest => .ok ⟨rest, some m, []⟩
  | .part start len left rest =>
      match miovAddmbuf m tbuf start len with
      | .error e => .error e
      | .ok m => .ok ⟨rest, some { m with left := left }, []⟩
  | .full start len rest recurse =>
      match miovAddmbuf m tbuf start len with
      | .error e => .error e
      | .ok m =>
          let m := { m with left := 0 }
          if recurse then (again rest).map (Added.cons m) else .ok ⟨rest, none, [m]⟩

/-- `add_to_inner_packet`. `fuel` bounds the recursion; one level for each byte of the
datagram is enough. -/
def addToInnerPacket : Nat → Tbuf → Bool → Option Miov → Res Added
  | 0, _, _, _ => .error .fuel
  | fuel + 1, tbuf, new, m =>
      match enterInner tbuf new with
      | .error e => .error e
      | .ok (tbuf, offset) =>
          let m := m.getD Miov.clean
          match innerPass tbuf offset m with
          | .error e => .error e
          | .ok pass =>
              applyPass (fun rest => addToInnerPacket fuel rest false none) tbuf m pass

/-- The entries of the packet in progress. A datagram adds at most one to a packet it goes on
with, so each of them is in an mbuf of its own. -/
def entries (m : Option Miov) : Nat := (m.getD Miov.clean).niov

end Iptfs
