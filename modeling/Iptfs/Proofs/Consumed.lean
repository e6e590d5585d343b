import Iptfs.Lib.Tiling
import Iptfs.Proofs.EgressProgress
import Iptfs.Proofs.AnyDatagram

/-!
# `Iptfs.Proofs.Consumed`: each datagram is consumed exactly

`add_to_inner_packet` on a datagram of any contents and with any packet in progress.
`recursiveCalls` counts the calls that it makes to itself. `Consumed` says what it has done with
the datagram when it returns: the slices added lie end to end, and only a prefix that the
BlockOffset skips and a suffix of padding or slop are left out.

* `innerPass_cases` is all that one pass can do: it keeps the packet, or adds one slice to it.
* `applyPass_tiled` is what a pass adds, given what the recursive call adds.
* `recursiveCalls_rest`, `addToInnerPacket_rest_fuel` and `addToInnerPacket_rest_tiled` are the
  inductions on the fuel: each packet that is complete uses up a byte or more.
* `addToInnerPacket_consumes` is the main result.
-/

set_option autoImplicit false

namespace Iptfs

/-- The calls that `add_to_inner_packet` makes to itself, under the same bound on the recursion as
`addToInnerPacket`. -/
def recursiveCalls : Nat → Tbuf → Bool → Option Miov → Nat
  | 0, _, _, _ => 0
  | fuel + 1, tbuf, new, m =>
      match enterInner tbuf new with
      | .error _ => 0
      | .ok (tbuf, offset) =>
          match innerPass tbuf offset (m.getD Miov.clean) with
          | .ok (.full start len rest true) =>
              match miovAddmbuf (m.getD Miov.clean) tbuf start len with
              | .ok _ => recursiveCalls fuel rest false none + 1
              | .error _ => 0
          | _ => 0

/-- The slices of the packets that a call pushed and of the one it returns, in order. -/
def Added.slices (a : Added) : List Iovec := ((a.outq ++ a.m.toList).map Miov.iov).flatten

/-- Where a slice lies in the datagram, and its bytes. -/
def Iovec.piece (v : Iovec) : Nat × List UInt8 := (v.base, v.bytes)

/-- A data block that starts with this byte is padding. -/
def PadAt (data : List UInt8) (i : Nat) : Prop := ∃ b, data[i]? = some b ∧ b &&& 0xF0 = 0

namespace Proofs

open Iptfs.Lib

/-- What a call has done with the datagram `data`, received into the buffer `id`, when `v` was in
progress: `new` are the slices it added. They reach from `first` to `last`. -/
structure Consumed (id : Nat) (data : List UInt8) (v : Miov) (a : Added) (new : List Iovec)
    (first last : Nat) : Prop where
  /-- `tbuf->start` is `tbuf->end`. -/
  finished : a.tbuf = ⟨id, data, data.length⟩
  /-- The slices come after those that were there. -/
  added : a.slices = v.iov ++ new
  mbuf : ∀ w ∈ new, w.mbuf = id
  tiles : Tiles data first (new.map Iovec.piece) last
  inOrder : new.Pairwise fun w u => w.base + w.bytes.length ≤ u.base
  inside : ∀ w ∈ new, 8 ≤ w.base ∧ w.base + w.bytes.length ≤ data.length
  /-- Nothing is skipped in front, or the packet in hand is empty and the BlockOffset is. -/
  prefix_skipped : first = 8 ∨
    v.len = 0 ∧ first = 8 + min (blockOffset data) (data.length - 8)
  /-- Nothing is left out at the end, or padding, or slop: the packet in progress has ended before
  the BlockOffset, which points past the datagram. -/
  suffix_skipped : last = data.length ∨ last < data.length ∧
    (PadAt data last ∨ v.len ≠ 0 ∧ data.length - 8 < blockOffset data)

/-! ### One pass -/

/-- A packet that goes on past the datagram takes the datagram to its end. The assertion of the
source is on that. -/
theorem morePass_cases {t : Tbuf} {tlen left : Nat} {pass : Pass}
    (h : morePass t tlen left = .ok pass) (hle : tlen ≤ t.rest.length) (hne : t.rest ≠ []) :
    tlen = t.rest.length ∧ pass = .part t.start t.rest.length left t.skip := by
  have hrest : t.rest.length = t.data.length - t.start := List.length_drop
  have hpos := List.length_pos_iff.mpr hne
  rw [morePass] at h
  split at h
  · rename_i hend
    have hlen : t.data.length - (t.start + tlen) = 0 := hend
    have hall : tlen = t.rest.length := by omega
    have hstart : t.start + t.rest.length = t.data.length := by omega
    cases h
    refine ⟨hall, ?_⟩
    rw [hall, hstart]
    rfl
  · cases h

/-- With its length known, a packet takes the rest of the datagram and goes on, or it ends in it
and the pass says whether more follows. -/
theorem finishPass_cases {t : Tbuf} {left tlen : Nat} {pass : Pass}
    (h : finishPass t left tlen = .ok pass) (hle : tlen ≤ t.rest.length) (hne : t.rest ≠ [])
    (hlen : t.rest.length < 2 ^ 16) :
    (∃ left', pass = .part t.start t.rest.length left' t.skip) ∨
      left ≤ tlen ∧
        pass = .full t.start left (Tbuf.advance t left) (decide (left < t.rest.length)) := by
  by_cases hmore : left > tlen
  · rw [finishPass, if_pos hmore] at h
    exact .inl ⟨_, (morePass_cases h hle hne).2⟩
  · have hle' : left ≤ tlen := Nat.le_of_not_lt hmore
    rw [finishPass_full hle' hlen] at h
    cases h
    exact .inr ⟨hle', rfl⟩

/-- Padding is found by the first byte. -/
theorem startIplen_none {t : Tbuf} {tlen : Nat} (h : startIplen t tlen = .ok none) :
    PadAt t.data t.start := by
  rw [startIplen] at h
  split at h
  · cases h
  · rename_i b rest hrest
    have hget : t.data[t.start]? = some b := by
      rw [← List.head?_drop]
      exact congrArg List.head? hrest
    dsimp only at h
    split at h
    · split at h
      · obtain ⟨n, -, hn⟩ := map_eq_ok.mp h
        cases hn
      · cases h
    · split at h
      · split at h
        · obtain ⟨n, -, hn⟩ := map_eq_ok.mp h
          cases hn
        · cases h
      · split at h
        · rename_i hpad
          exact ⟨b, hget, hpad⟩
        · cases h

/-- All that a pass can do, with the packet in hand empty: what is added begins after `offset`
bytes. -/
theorem startPass_cases {t : Tbuf} {offset : Nat} {m : Miov} {pass : Pass}
    (hlen : t.rest.length < 2 ^ 16) (h : startPass t offset t.rest.length m = .ok pass) :
    ((t.rest.length ≤ offset ∨
        offset < t.rest.length ∧ PadAt t.data (t.start + offset)) ∧ pass = .keep t.skip) ∨
      (∃ left, offset < t.rest.length ∧
        pass = .part (t.start + offset) (t.rest.length - offset) left t.skip) ∨
      ∃ n, 0 < n ∧ offset + n ≤ t.rest.length ∧
        pass = .full (t.start + offset) n (Tbuf.advance t (offset + n))
          (decide (offset + n < t.rest.length)) := by
  rw [startPass] at h
  split at h
  · rename_i hpast
    cases h
    -- The BlockOffset points past the datagram.
    exact .inl ⟨.inl hpast, rfl⟩
  · rename_i hin
    have hlt : offset < t.rest.length := Nat.lt_of_not_le hin
    have hne' : (Tbuf.advance t offset).rest ≠ [] := Tbuf.rest_advance_ne_nil hlt
    have hrest : (Tbuf.advance t offset).rest.length = t.rest.length - offset := by
      rw [Tbuf.rest_advance, List.length_drop]
    have hshort : (Tbuf.advance t offset).rest.length < 2 ^ 16 := by omega
    dsimp only at h
    split at h
    · cases h
    · rename_i hpad
      cases h
      -- Padding.
      exact .inl ⟨.inr ⟨hlt, startIplen_none hpad⟩, rfl⟩
    · rename_i iplen hiplen
      split at h
      · -- The length field is not there yet.
        obtain ⟨hall, rfl⟩ := morePass_cases h (Nat.le_of_eq hrest.symm) hne'
        exact .inr (.inl ⟨m.left, hlt, by rw [← hrest]; rfl⟩)
      · rename_i hpos
        split at h
        · cases h
        · cases finishPass_cases h (Nat.le_of_eq hrest.symm) hne' hshort with
          | inl hpart =>
              obtain ⟨left, rfl⟩ := hpart
              exact .inr (.inl ⟨left, hlt, by rw [← hrest]; rfl⟩)
          | inr hfull =>
              obtain ⟨hle, rfl⟩ := hfull
              have hwhole : Tbuf.advance (Tbuf.advance t offset) iplen =
                  Tbuf.advance t (offset + iplen) := by
                rw [Tbuf.advance, Tbuf.advance, Tbuf.advance, Nat.add_assoc]
              have hmore : iplen < (Tbuf.advance t offset).rest.length ↔
                  offset + iplen < t.rest.length := by
                rw [hrest]
                omega
              refine .inr (.inr ⟨iplen, Nat.pos_of_ne_zero hpos, by omega, ?_⟩)
              rw [← hwhole, ← decide_eq_decide.mpr hmore]
              rfl

/-- `m->left` is not zero once it is known. -/
theorem knownLeft_pos {m : Miov} {t : Tbuf} {left : Nat} (h : knownLeft m t = .ok left) :
    0 < left := by
  rw [knownLeft] at h
  split at h
  · obtain ⟨e, he⟩ := getiplen_error m t
    rw [he] at h
    cases h
  · rename_i hleft
    cases h
    exact Nat.pos_of_ne_zero hleft

/-- All that a pass can do. The packet in hand is empty, and what is added to it begins after
`offset` bytes, or it goes on with the first byte. -/
theorem innerPass_cases {t : Tbuf} {offset : Nat} {m : Miov} {pass : Pass} (hne : t.rest ≠ [])
    (h : innerPass t offset m = .ok pass) :
    (m.len = 0 ∧ (t.rest.length ≤ offset ∨
        offset < t.rest.length ∧ PadAt t.data (t.start + offset)) ∧ pass = .keep t.skip) ∨
      (∃ skip left, (skip = 0 ∨ m.len = 0 ∧ skip = offset) ∧ skip < t.rest.length ∧
        pass = .part (t.start + skip) (t.rest.length - skip) left t.skip) ∨
      (∃ skip n, (skip = 0 ∨ m.len = 0 ∧ skip = offset) ∧ 0 < n ∧ skip + n ≤ t.rest.length ∧
        pass = .full (t.start + skip) n (Tbuf.advance t (skip + n))
          (decide (skip + n < t.rest.length))) ∨
      ∃ n, m.len ≠ 0 ∧ t.rest.length < offset ∧ 0 < n ∧ n ≤ t.rest.length ∧
        pass = .full t.start n t.skip false := by
  have hpos := List.length_pos_iff.mpr hne
  rw [innerPass] at h
  split at h
  · cases h
  · rename_i hfits
    have hmod : t.rest.length = t.rest.length % 2 ^ 16 := by
      rw [← Tbuf.len_eq]
      exact not_not.mp hfits
    have hlen : t.rest.length < 2 ^ 16 := by omega
    rw [Tbuf.len_eq, ← hmod] at h
    split at h
    · -- No packet in hand: one starts at the BlockOffset.
      rename_i hidle
      cases startPass_cases hlen h with
      | inl hkeep => exact .inl ⟨hidle, hkeep⟩
      | inr hadd =>
          cases hadd with
          | inl hpart =>
              obtain ⟨left, hlt, rfl⟩ := hpart
              exact .inr (.inl ⟨offset, left, .inr ⟨hidle, rfl⟩, hlt, rfl⟩)
          | inr hfull =>
              obtain ⟨n, hn, hle, rfl⟩ := hfull
              exact .inr (.inr (.inl ⟨offset, n, .inr ⟨hidle, rfl⟩, hn, hle, rfl⟩))
    · -- A packet in hand goes on at the front of the datagram.
      rename_i hbusy
      split at h
      · cases h
      · rename_i left hleft
        have hknown : 0 < left := knownLeft_pos hleft
        split at h
        · rename_i hpast
          split at h
          · obtain ⟨-, rfl⟩ := morePass_cases h (Nat.le_refl _) hne
            exact .inr (.inl ⟨0, _, .inl rfl, hpos, rfl⟩)
          · -- It has ended before the BlockOffset, and what lies between is left out.
            rename_i hslop
            cases h
            exact .inr (.inr (.inr ⟨left, hbusy, hpast, hknown, Nat.le_of_not_lt hslop, rfl⟩))
        · rename_i hin
          split at h
          · rename_i hoffset
            subst hoffset
            have hle : left ≤ t.rest.length := Nat.le_of_not_lt hin
            cases finishPass_cases h hle hne hlen with
            | inl hpart =>
                obtain ⟨left', rfl⟩ := hpart
                exact .inr (.inl ⟨0, left', .inl rfl, hpos, rfl⟩)
            | inr hfull =>
                obtain ⟨-, rfl⟩ := hfull
                refine .inr (.inr (.inl ⟨0, left, .inl rfl, hknown, by omega, ?_⟩))
                simp only [Nat.zero_add, Nat.add_zero]
          · cases h

/-! ### What a pass adds -/

/-- Where nothing was pushed, the slices are those of the packet in progress. -/
theorem slices_some (t : Tbuf) (m : Miov) : Added.slices ⟨t, some m, []⟩ = m.iov :=
  List.append_nil m.iov

/-- A packet that is pushed is before whatever the rest of the call adds. -/
theorem slices_cons (m : Miov) (a : Added) : (Added.cons m a).slices = m.iov ++ a.slices := rfl

/-- The slices `new` are added after `old`, and lie end to end from `first` to `last`. -/
structure Tiled (t : Tbuf) (a : Added) (old new : List Iovec) (first last : Nat) : Prop where
  finished : a.tbuf = t.skip
  added : a.slices = old ++ new
  mbuf : ∀ w ∈ new, w.mbuf = t.id
  tiles : Tiles t.data first (new.map Iovec.piece) last

/-- The packet in hand stays as it is. -/
theorem tiled_keep (t : Tbuf) (m : Miov) (first : Nat) :
    Tiled t ⟨t.skip, some m, []⟩ m.iov [] first first where
  finished := rfl
  added := by
    rw [slices_some, List.append_nil]
  mbuf := List.forall_mem_nil _
  tiles := Tiles.nil _ _

/-- The packet in hand has all the rest of the datagram added. -/
theorem tiled_part {t : Tbuf} {m m' : Miov} {first len left : Nat} (hpos : 0 < len)
    (hend : first + len = t.data.length) (h : miovAddmbuf m t first len = .ok m') :
    Tiled t ⟨t.skip, some { m' with left := left }, []⟩ m.iov
      [⟨t.id, first, (t.data.drop first).take len⟩] first t.data.length := by
  rw [miovAddmbuf, if_pos (Nat.le_of_eq hend)] at h
  cases h
  refine ⟨rfl, slices_some _ _, List.forall_mem_singleton.mpr rfl, ?_⟩
  exact Tiles.cons hpos (Nat.le_of_eq hend) hend

/-- The packet in hand is pushed with a slice added, in front of what is pushed after it. -/
theorem Tiled.push {t r : Tbuf} {a : Added} {new : List Iovec} {first len last : Nat} {m m' : Miov}
    (h : Tiled r a [] new (first + len) last) (hid : r.id = t.id) (hdata : r.data = t.data)
    (hpos : 0 < len) (hend : first + len ≤ t.data.length)
    (hadd : miovAddmbuf m t first len = .ok m') :
    Tiled t (Added.cons { m' with left := 0 } a) m.iov
      (⟨t.id, first, (t.data.drop first).take len⟩ :: new) first last := by
  rw [miovAddmbuf, if_pos hend] at hadd
  cases hadd
  constructor
  · show a.tbuf = t.skip
    rw [h.finished, Tbuf.skip, Tbuf.skip, hid, hdata]
  · have hrest : a.slices = new := h.added
    rw [slices_cons, hrest, List.append_assoc, List.singleton_append]
  · intro w hw
    cases List.mem_cons.mp hw with
    | inl hw => rw [hw]
    | inr hw => rw [h.mbuf w hw, hid]
  · have hrest := h.tiles
    rw [hdata] at hrest
    exact Tiles.cons hpos hend hrest

/-- Nothing is left of the datagram. -/
theorem tiled_end {t : Tbuf} (h : t.start = t.data.length) (last : Nat) :
    Tiled t ⟨t, none, []⟩ [] [] last last where
  finished := by
    rw [Tbuf.skip, ← h]
  added := rfl
  mbuf := List.forall_mem_nil _
  tiles := Tiles.nil _ _

/-- How many bytes are skipped in front. -/
theorem skipped_cases {t : Tbuf} {m : Miov} {skip offset : Nat}
    (h : skip = 0 ∨ m.len = 0 ∧ skip = offset) (hlt : skip < t.rest.length) :
    t.start + skip = t.start ∨
      m.len = 0 ∧ t.start + skip = t.start + min offset t.rest.length := by
  cases h with
  | inl hnone => exact .inl (by omega)
  | inr hsome => exact .inr ⟨hsome.1, by omega⟩

/-- A pass, when the recursive call does what it should with the rest. -/
theorem applyPass_tiled {again : Tbuf → Res Added} {t : Tbuf} {offset : Nat} {m : Miov}
    {pass : Pass} {a : Added} (hne : t.rest ≠ []) (hpass : innerPass t offset m = .ok pass)
    (hagain : ∀ k b, k < t.rest.length → again (Tbuf.advance t k) = .ok b → ∃ new last,
      Tiled (Tbuf.advance t k) b [] new (t.start + k) last ∧
        (last = t.data.length ∨ last < t.data.length ∧ PadAt t.data last))
    (h : applyPass again t m pass = .ok a) :
    ∃ new first last, Tiled t a m.iov new first last ∧
      (first = t.start ∨ m.len = 0 ∧ first = t.start + min offset t.rest.length) ∧
      (last = t.data.length ∨ last < t.data.length ∧
        (PadAt t.data last ∨ m.len ≠ 0 ∧ t.rest.length < offset)) := by
  have hrest : t.rest.length = t.data.length - t.start := List.length_drop
  have hpos := List.length_pos_iff.mpr hne
  obtain ⟨hidle, hout, rfl⟩ | ⟨skip, left, hskip, hlt, rfl⟩ | ⟨skip, n, hskip, hn, hle, rfl⟩ |
    ⟨n, hbusy, hpast, hn, hle, rfl⟩ := innerPass_cases hne hpass
  · -- The packet in hand stays as it is.
    cases h
    refine ⟨[], _, _, tiled_keep t m (t.start + min offset t.rest.length), .inr ⟨hidle, rfl⟩, ?_⟩
    cases hout with
    | inl hpast => exact .inl (by omega)
    | inr hpad =>
        rw [Nat.min_eq_left (Nat.le_of_lt hpad.1)]
        exact .inr ⟨by omega, .inl hpad.2⟩
  · -- All that is left of the datagram is added.
    have hend : t.start + skip + (t.rest.length - skip) = t.data.length := by omega
    obtain ⟨m', hadd⟩ : ∃ m', miovAddmbuf m t (t.start + skip) (t.rest.length - skip) = .ok m' :=
      ⟨_, if_pos (Nat.le_of_eq hend)⟩
    simp only [applyPass, hadd, Except.ok.injEq] at h
    subst h
    exact ⟨_, _, _, tiled_part (Nat.sub_pos_of_lt hlt) hend hadd, skipped_cases hskip hlt, .inl rfl⟩
  · -- The packet in hand is complete.
    have hend : t.start + skip + n ≤ t.data.length := by omega
    obtain ⟨m', hadd⟩ : ∃ m', miovAddmbuf m t (t.start + skip) n = .ok m' := ⟨_, if_pos hend⟩
    simp only [applyPass, hadd] at h
    have hstart := skipped_cases hskip (show skip < t.rest.length by omega)
    split at h
    · rename_i hmore
      obtain ⟨b, hb, rfl⟩ := map_eq_ok.mp h
      obtain ⟨new, last, htiled, hlast⟩ := hagain (skip + n) b (of_decide_eq_true hmore) hb
      rw [← Nat.add_assoc] at htiled
      refine ⟨_, _, last, htiled.push rfl rfl hn hend hadd, hstart, ?_⟩
      cases hlast with
      | inl hall => exact .inl hall
      | inr hpad => exact .inr ⟨hpad.1, .inl hpad.2⟩
    · rename_i hmore
      have hlast : skip + n = t.rest.length := by
        have hge : ¬ skip + n < t.rest.length := fun hlt => hmore (decide_eq_true hlt)
        omega
      cases h
      have hall : t.start + skip + n = t.data.length := by omega
      have hdone : (Tbuf.advance t (skip + n)).start = t.data.length := by
        rw [← hall, Nat.add_assoc]
        rfl
      have hafter := tiled_end hdone (t.start + skip + n)
      exact ⟨_, _, _, hafter.push rfl rfl hn hend hadd, hstart, .inl hall⟩
  · -- The packet in hand is complete, and what follows it is skipped.
    have hend : t.start + n ≤ t.data.length := by omega
    obtain ⟨m', hadd⟩ : ∃ m', miovAddmbuf m t t.start n = .ok m' := ⟨_, if_pos hend⟩
    simp only [applyPass, hadd, Bool.false_eq_true, if_false, Except.ok.injEq] at h
    subst h
    have hafter := tiled_end (show t.skip.start = t.skip.data.length from rfl) (t.start + n)
    refine ⟨_, _, _, hafter.push rfl rfl hn hend hadd, .inl rfl, ?_⟩
    cases Nat.lt_or_ge (t.start + n) t.data.length with
    | inl hslop => exact .inr ⟨hslop, .inr ⟨hbusy, hpast⟩⟩
    | inr hall => exact .inl (Nat.le_antisymm hend hall)

/-! ### The recursion -/

/-- A pass that goes on has used up a byte or more, and left one or more. -/
theorem recurse_advance {t r : Tbuf} {offset start len : Nat} {m : Miov} (hne : t.rest ≠ [])
    (h : innerPass t offset m = .ok (.full start len r true)) :
    ∃ k, 0 < k ∧ k < t.rest.length ∧ r = Tbuf.advance t k := by
  obtain ⟨-, -, hkeep⟩ | ⟨skip, left, -, -, hpart⟩ | ⟨skip, n, -, hn, -, hfull⟩ |
    ⟨n, -, -, -, -, hslop⟩ := innerPass_cases hne h
  · cases hkeep
  · cases hpart
  · injection hfull with _ _ hrest hmore
    exact ⟨skip + n, by omega, of_decide_eq_true hmore.symm, hrest⟩
  · injection hslop with _ _ _ hmore
    cases hmore

/-- With bytes left, the loop goes around again and the BlockOffset is not read. -/
theorem enterInner_rest {t : Tbuf} (hne : t.rest ≠ []) : enterInner t false = .ok (t, 0) := by
  have hpos : t.len ≠ 0 := by
    rw [Tbuf.len_eq]
    exact Nat.ne_of_gt (List.length_pos_iff.mpr hne)
  simp only [enterInner, hpos, if_false, Bool.false_eq_true]

/-- The calls of a pass, when those of the recursive call are fewer than the bytes it has left. -/
theorem recursiveCalls_lt {fuel offset : Nat} {t u : Tbuf} {new : Bool} {m : Option Miov}
    (henter : enterInner u new = .ok (t, offset)) (hne : t.rest ≠ [])
    (hrec : ∀ k, k < t.rest.length →
      recursiveCalls fuel (Tbuf.advance t k) false none < (Tbuf.advance t k).rest.length) :
    recursiveCalls (fuel + 1) u new m < t.rest.length := by
  have hpos := List.length_pos_iff.mpr hne
  rw [recursiveCalls, henter]
  dsimp only
  split
  · rename_i start len r hpass
    split
    · obtain ⟨k, hk, hlt, rfl⟩ := recurse_advance hne hpass
      have hcalls := hrec k hlt
      rw [Tbuf.rest_advance, List.length_drop] at hcalls
      omega
    · exact hpos
  · exact hpos

/-- The recursion makes fewer calls than there are bytes left. -/
theorem recursiveCalls_rest (fuel : Nat) {t : Tbuf} (hne : t.rest ≠ []) :
    recursiveCalls fuel t false none < t.rest.length := by
  induction fuel generalizing t with
  | zero => exact List.length_pos_iff.mpr hne
  | succ fuel ih =>
      exact recursiveCalls_lt (enterInner_rest hne) hne fun k hk => ih (Tbuf.rest_advance_ne_nil hk)

/-- A pass does not run out of fuel, when the recursive call does not. -/
theorem addToInnerPacket_fuel {fuel offset : Nat} {t u : Tbuf} {new : Bool} {m : Option Miov}
    (henter : enterInner u new = .ok (t, offset)) (hne : t.rest ≠ [])
    (hrec : ∀ k, 0 < k → k < t.rest.length →
      addToInnerPacket fuel (Tbuf.advance t k) false none ≠ .error .fuel) :
    addToInnerPacket (fuel + 1) u new m ≠ .error .fuel := by
  rw [addToInnerPacket, henter]
  dsimp only
  cases hpass : innerPass t offset (m.getD Miov.clean) with
  | error e =>
      intro h
      cases h
      exact (innerPass_fault hpass).2 rfl
  | ok pass =>
      have hadd : ∀ start len, miovAddmbuf (m.getD Miov.clean) t start len ≠ .error .fuel := by
        intro start len h
        rw [miovAddmbuf] at h
        split at h <;> cases h
      dsimp only
      cases pass with
      | keep rest =>
          intro h
          cases h
      | part start len left rest =>
          rw [applyPass]
          split
          · rename_i e he
            intro h
            cases h
            exact hadd _ _ he
          · intro h
            cases h
      | full start len rest recurse =>
          rw [applyPass]
          split
          · rename_i e he
            intro h
            cases h
            exact hadd _ _ he
          · cases recurse with
            | false =>
                intro h
                cases h
            | true =>
                -- The call that is made has less to go over, and by assumption it does not run
                -- out.
                obtain ⟨k, hk, hlt, rfl⟩ := recurse_advance hne hpass
                rw [if_pos rfl]
                cases hrest : addToInnerPacket fuel (Tbuf.advance t k) false none with
                | ok b =>
                    intro h
                    cases h
                | error e =>
                    intro h
                    cases h
                    exact hrec k hk hlt hrest

/-- One level for each byte left is enough. -/
theorem addToInnerPacket_rest_fuel (fuel : Nat) {t : Tbuf} (hne : t.rest ≠ [])
    (hfuel : t.rest.length ≤ fuel) : addToInnerPacket fuel t false none ≠ .error .fuel := by
  induction fuel generalizing t with
  | zero => exact absurd (List.eq_nil_of_length_eq_zero (Nat.le_zero.mp hfuel)) hne
  | succ fuel ih =>
      apply addToInnerPacket_fuel (enterInner_rest hne) hne
      intro k hk hlt
      apply ih (Tbuf.rest_advance_ne_nil hlt)
      rw [Tbuf.rest_advance, List.length_drop]
      omega

/-- The rest of a datagram: the slices lie end to end, up to the end or to the padding. -/
theorem addToInnerPacket_rest_tiled (fuel : Nat) {t : Tbuf} {a : Added} (hne : t.rest ≠ [])
    (h : addToInnerPacket fuel t false none = .ok a) :
    ∃ new last, Tiled t a [] new t.start last ∧
      (last = t.data.length ∨ last < t.data.length ∧ PadAt t.data last) := by
  induction fuel generalizing t a with
  | zero => cases h
  | succ fuel ih =>
      rw [addToInnerPacket, enterInner_rest hne] at h
      dsimp only [Option.getD_none] at h
      split at h
      · cases h
      · rename_i pass hpass
        have hagain : ∀ k b, k < t.rest.length →
            addToInnerPacket fuel (Tbuf.advance t k) false none = .ok b → _ := fun k b hk hb =>
          ih (Tbuf.rest_advance_ne_nil hk) hb
        obtain ⟨new, first, last, htiled, hfirst, hlast⟩ := applyPass_tiled hne hpass hagain h
        have hstart : first = t.start := by
          cases hfirst with
          | inl hstart => exact hstart
          | inr hskip =>
              rw [hskip.2, Nat.zero_min]
              rfl
        subst hstart
        refine ⟨new, last, htiled, ?_⟩
        cases hlast with
        | inl hall => exact .inl hall
        | inr hleft =>
            -- The packet was empty, so what is left out is padding.
            exact .inr ⟨hleft.1, hleft.2.resolve_right fun hslop => hslop.1 rfl⟩

/-! ### A whole datagram -/

/-- A datagram of more than 8 bytes, whatever it has and whatever packet is in progress. The
recursion is bounded by the bytes of the payload, and a call that returns has consumed the whole
datagram in one row of slices. -/
theorem addToInnerPacket_consumes (fuel id : Nat) {data : List UInt8} (m : Option Miov)
    (h8 : 8 < data.length) :
    recursiveCalls fuel (Tbuf.fresh id data) true m ≤ data.length - 8 ∧
      (data.length - 8 ≤ fuel →
        addToInnerPacket fuel (Tbuf.fresh id data) true m ≠ .error .fuel) ∧
      ∀ a, addToInnerPacket fuel (Tbuf.fresh id data) true m = .ok a →
        ∃ new first last, Consumed id data (m.getD Miov.clean) a new first last := by
  have henter := enterInner_data id h8
  have hrest : (Tbuf.rest ⟨id, data, 8⟩).length = data.length - 8 := List.length_drop
  have hne : Tbuf.rest ⟨id, data, 8⟩ ≠ [] := List.ne_nil_of_length_pos (by omega)
  cases fuel with
  | zero =>
      refine ⟨Nat.zero_le _, fun hfuel => absurd hfuel (by omega), ?_⟩
      intro a h
      cases h
  | succ fuel =>
      refine ⟨?_, ?_, ?_⟩
      · rw [← hrest]
        apply Nat.le_of_lt
        exact recursiveCalls_lt henter hne fun k hk =>
          recursiveCalls_rest fuel (Tbuf.rest_advance_ne_nil hk)
      · intro hfuel
        apply addToInnerPacket_fuel henter hne
        intro k hk hlt
        apply addToInnerPacket_rest_fuel fuel (Tbuf.rest_advance_ne_nil hlt)
        rw [Tbuf.rest_advance, List.length_drop, hrest]
        omega
      · intro a h
        rw [addToInnerPacket, henter] at h
        dsimp only at h
        split at h
        · cases h
        · rename_i pass hpass
          -- What the passes add lies end to end, from behind the header or the BlockOffset on.
          obtain ⟨new, first, last, htiled, hfirst, hlast⟩ :=
            applyPass_tiled hne hpass (fun k b hk hb =>
              addToInnerPacket_rest_tiled fuel (Tbuf.rest_advance_ne_nil hk) hb) h
          rw [hrest] at hfirst hlast
          have hpieces : (new.map Iovec.piece).Pairwise fun p q => p.1 + p.2.length ≤ q.1 :=
            htiled.tiles.pairwise
          refine ⟨new, first, last, htiled.finished, htiled.added, htiled.mbuf, htiled.tiles,
            List.pairwise_map.mp hpieces, ?_, hfirst, hlast⟩
          intro w hw
          obtain ⟨hle, hend⟩ := htiled.tiles.inside _ (List.mem_map_of_mem hw)
          have h8first : 8 ≤ first := by
            cases hfirst with
            | inl h => exact Nat.le_of_eq h.symm
            | inr h =>
                rw [h.2]
                exact Nat.le_add_right 8 _
          have hlast' : last ≤ data.length := by
            cases hlast with
            | inl h => exact Nat.le_of_eq h
            | inr h => exact Nat.le_of_lt h.1
          exact ⟨Nat.le_trans h8first hle, Nat.le_trans hend hlast'⟩

/-- A datagram with a BlockOffset of three, two packets of five bytes and padding. -/
def paddedDatagram : List UInt8 :=
  [0, 0, 0, 0, 0, 0, 0, 3, 1, 2, 3, 0x45, 0, 0, 5, 9, 0x45, 0, 0, 5, 9, 0, 0]

/-- It is taken in with no packet in progress. -/
theorem addToInnerPacket_consumes_padded :
    (∃ a, addToInnerPacket 15 (Tbuf.fresh 7 paddedDatagram) true none = .ok a) ∧
      recursiveCalls 15 (Tbuf.fresh 7 paddedDatagram) true none ≤ 15 ∧
      ∀ a, addToInnerPacket 15 (Tbuf.fresh 7 paddedDatagram) true none = .ok a →
        ∃ new first last, Consumed 7 paddedDatagram Miov.clean a new first last := by
  have h8 : 8 < paddedDatagram.length := by decide
  obtain ⟨hcalls, -, hconsumed⟩ := addToInnerPacket_consumes 15 7 none h8
  exact ⟨⟨_, rfl⟩, hcalls, hconsumed⟩

end Proofs

end Iptfs
