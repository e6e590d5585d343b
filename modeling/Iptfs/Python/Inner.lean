import Iptfs.Model.AddToInner
import Iptfs.Python.Basic

/-!
# `Iptfs.Python.Inner`: the Python reassembler, `add_to_inner_packet`

`MIOVBuf` of `src/iptfs/mbuf.py`, and `getiplen` and `add_to_inner_packet` of
`src/iptfs/iptfs.py`, lines 134-312.

The function is cut as in `Iptfs.Model.AddToInner`, where it touches the two queues:
`enterInner` up to `iovfreeq.pop()`, `innerPass` for the decision on the packet in hand, and
`applyPass` to carry it out. A received datagram is a `Tbuf`, as there. `tmbuf.start` runs on to
the end of the buffer, past `tmbuf.end`; `Tbuf.rest` stops at `tmbuf.end`, and nothing here reads
beyond it.

`m.left` has no value before its first assignment, and `reset` does not touch it. What
`iovfreeq.pop()` hands over is empty, and its `left` is whatever an earlier packet left there. So
the calls of `pop` take the values of `left` from a list.

The log lines are left out, and so are two assertions that cannot fail: `assert (tmlen >= 0)`, and
`assert (tmbuf.len() == tmlen - offset)` right after `start` has moved by `offset`.
-/

set_option autoImplicit false

namespace Iptfs.Py

/-- `MIOVBuf`. `mbufs` and `iov` are one list here. `left` is `none` before its first
assignment. -/
structure MIOVBuf where
  iov : List Iovec
  mlen : Nat
  left : Option Nat
  deriving DecidableEq, Repr

namespace MIOVBuf

/-- `MIOVBuf()`, with the `left` it has got since. -/
def empty (left : Option Nat) : MIOVBuf := ⟨[], 0, left⟩

/-- `addmbuf(m, s[:len])`, where the slice `s` begins at the byte number `start` of the
datagram. -/
def addmbuf (self : MIOVBuf) (m : Tbuf) (start len : Nat) : MIOVBuf :=
  let bytes := (m.data.drop start).take len
  { self with iov := self.iov ++ [⟨m.id, start, bytes⟩], mlen := self.mlen + bytes.length }

/-- `reset(freeq)`. `left` stays. -/
def reset (self : MIOVBuf) : MIOVBuf := { self with iov := [], mlen := 0 }

/-- The bytes of the inner packet, as `os.writev` writes them. -/
def bytes (self : MIOVBuf) : List UInt8 := (self.iov.map Iovec.bytes).flatten

end MIOVBuf

/-- `getiplen(m, tmbuf)`. The masked byte is compared as the source compares it, with `0x4` and
`0x6`. `2 - m.len` subtracts a method. -/
def getiplen (m : MIOVBuf) : Res Nat :=
  match m.iov.head?.bind fun v => v.bytes.head? with
  | none => .error .index
  | some b =>
      let vnib := b &&& 0xF0
      if vnib = 0x4 then .error .type
      else if vnib = 0x6 then .error .type
      else .error .assertion

/-- What `add_to_inner_packet` does with the packet in hand, as in `Iptfs.Pass`. `part` sets
`m.left` to `left`. -/
inductive Pass
  | keep (tmbuf : Tbuf)
  | part (start len : Nat) (left : Option Nat) (tmbuf : Tbuf)
  | full (start len : Nat) (tmbuf : Tbuf) (recurse : Bool)
  deriving DecidableEq, Repr

/-- `add_to_inner_packet` up to `if not m`: `tmbuf` past the header, and `offset`. `none` is a
short packet. -/
def enterInner (tmbuf : Tbuf) (new : Bool) : Res (Option (Tbuf × Nat)) :=
  if tmbuf.len = 0 then .error .assertion
  else if new then
    if tmbuf.len < 8 then .ok none
    else
      match get16 (slice tmbuf.rest 6 8) with
      | .error e => .error e
      | .ok offset => .ok (some ({ tmbuf with start := tmbuf.start + 8 }, offset))
  else .ok (some (tmbuf, 0))

/-- Add `tmlen` bytes, all that is left of the datagram: code copy A, and the short start. -/
def morePass (tmbuf : Tbuf) (tmlen : Nat) (left : Option Nat) : Res Pass :=
  let rest := { tmbuf with start := tmbuf.start + tmlen }
  if rest.len = 0 then .ok (.part tmbuf.start tmlen left rest) else .error .assertion

/-- What follows the `if` chain, with `left` for `m.left`. -/
def finishPass (tmbuf : Tbuf) (left tmlen : Nat) : Res Pass :=
  if left > tmlen then
    -- MORELEFT
    morePass tmbuf tmlen (some (left - tmlen))
  else
    -- COMPLETE
    let rest := { tmbuf with start := tmbuf.start + left }
    .ok (.full tmbuf.start left rest (decide (rest.len ≠ 0)))

/-- The branch `m.len() == 0`: start a new inner packet after `offset` bytes. -/
def startPass (tmbuf : Tbuf) (offset : Nat) (m : MIOVBuf) : Res Pass :=
  if offset ≥ tmbuf.len then
    -- Next data block is past the end of this packet.
    .ok (.keep tmbuf.skip)
  else
    let tmbuf := { tmbuf with start := tmbuf.start + offset }
    let start := tmbuf.rest
    let tmlen := tmbuf.len
    match start with
    | [] => .error .index
    | b :: _ =>
        let vnibble := b &&& 0xF0
        if vnibble ≠ 0x40 ∧ vnibble ≠ 0x60 then .ok (.keep tmbuf.skip)
        else if vnibble = 0x40 ∧ tmlen ≥ 4 then
          match get16 (slice start 2 4) with
          | .error e => .error e
          | .ok iplen => finishPass tmbuf iplen tmlen
        else if vnibble = 0x60 ∧ tmlen ≥ 6 then
          match get16 (slice start 4 6) with
          | .error e => .error e
          | .ok iplen => finishPass tmbuf iplen tmlen
        else
          -- STARTSHORT: `m.left` stays as it is.
          morePass tmbuf tmlen m.left

/-- `m.left`, after `if m.left <= 0: m.left = getiplen(m, tmbuf)`. -/
def knownLeft (m : MIOVBuf) : Res Nat :=
  match m.left with
  | none => .error .attribute
  | some 0 => getiplen m
  | some left => .ok left

/-- `add_to_inner_packet` from the test on `m.len()` on. -/
def innerPass (tmbuf : Tbuf) (offset : Nat) (m : MIOVBuf) : Res Pass :=
  let tmlen := tmbuf.len
  if m.mlen = 0 then startPass tmbuf offset m
  else
    match knownLeft m with
    | .error e => .error e
    | .ok left =>
        if offset > tmlen then
          if left > tmlen then
            -- MORELEFT
            morePass tmbuf tmlen (some (left - tmlen))
          else
            -- SLOPPYEND: the rest of the datagram is skipped.
            .ok (.full tmbuf.start left tmbuf.skip false)
        else if left = offset then
          -- CONTINUED
          finishPass tmbuf left offset
        else .error .assertion

/-- What a call of `add_to_inner_packet` leaves behind, as in `Iptfs.Added`. -/
structure Added where
  tmbuf : Tbuf
  m : Option MIOVBuf
  outq : List MIOVBuf
  deriving DecidableEq, Repr

/-- A packet goes out in front of what a call pushes. -/
def Added.cons (m : MIOVBuf) (a : Added) : Added := { a with outq := m :: a.outq }

/-- Carry out a pass on the packet in hand. `again` is the recursive call. -/
def applyPass (again : Tbuf → Res Added) (tmbuf : Tbuf) (m : MIOVBuf) : Pass → Res Added
  | .keep rest => .ok ⟨rest, some m, []⟩
  | .part start len left rest =>
      .ok ⟨rest, some { m.addmbuf tmbuf start len with left := left }, []⟩
  | .full start len rest recurse =>
      let m := { m.addmbuf tmbuf start len with left := some 0 }
      if recurse then (again rest).map (Added.cons m) else .ok ⟨rest, none, [m]⟩

/-- `if not m: m = iovfreeq.pop()`, with the values of `left` for this and the later pops. -/
def popIov (m : Option MIOVBuf) (lefts : List (Option Nat)) : MIOVBuf × List (Option Nat) :=
  match m with
  | some m => (m, lefts)
  | none => (.empty (lefts.headD none), lefts.tail)

/-- `add_to_inner_packet`. `depth` is how deep its calls can nest before the interpreter raises
`RecursionError`. -/
def addToInnerPacket : Nat → Tbuf → Bool → Option MIOVBuf → List (Option Nat) → Res Added
  | 0, _, _, _, _ => .error .recursion
  | depth + 1, tmbuf, new, m, lefts =>
      match enterInner tmbuf new with
      | .error e => .error e
      | .ok none => .ok ⟨tmbuf.skip, none, []⟩
      | .ok (some (tmbuf, offset)) =>
          let (m, lefts) := popIov m lefts
          match innerPass tmbuf offset m with
          | .error e => .error e
          | .ok pass =>
              applyPass (fun rest => addToInnerPacket depth rest false none lefts) tmbuf m pass

end Iptfs.Py
