import Iptfs.Proofs.AnyDatagram
import Iptfs.Proofs.Python.Walk

/-!
# `Iptfs.Proofs.Python.Inner`: both reassemblers on the same datagram

The two versions of `add_to_inner_packet` differ where a packet starts too short, where a length
field is zero, and in what they take for padding. Where the C function comes to a packet in
progress whose `left` it knows, none of these has happened, and the Python function does the same
(`addToInnerPacket_like`).

`Like` relates the packets in progress. An empty `MIOVBuf` may have any `left`, and a `struct miov`
has zero there. `addToInnerPacket_depth` says that a call that pushes few packets does not nest
deep, so its result does not depend on the recursion limit.
-/

set_option autoImplicit false

namespace Iptfs.Py

/-- The same packet in progress. -/
structure Like (v : MIOVBuf) (m : Miov) : Prop where
  iov : v.iov = m.iov
  mlen : v.mlen = m.len
  idle : m.len = 0 → m.left = 0
  left : m.len ≠ 0 → v.left = some m.left

/-- The same packet in progress, or none on either side. -/
def LikeOpt : Option MIOVBuf → Option Miov → Prop
  | none, none => True
  | some v, some m => Like v m
  | _, _ => False

/-- The same result of a call. The packets pushed have the same entries. -/
structure LikeAdded (b : Added) (a : Iptfs.Added) : Prop where
  tmbuf : b.tmbuf = a.tbuf
  m : LikeOpt b.m a.m
  outq : b.outq.map MIOVBuf.iov = a.outq.map Miov.iov

/-- A packet in progress whose `left` is known. -/
def Settled (m : Option Miov) : Prop := ∀ v, m = some v → v.len ≠ 0 → v.left ≠ 0

/-- The pass of the C function. -/
def Pass.ofC : Iptfs.Pass → Pass
  | .keep t => .keep t
  | .part start len left t => .part start len (some left) t
  | .full start len t recurse => .full start len t recurse

namespace Proofs

/-- A `MIOVBuf` from the pool is like a clean miov, with any `left`: it is not looked at before a
packet starts. -/
theorem like_empty (left : Option Nat) : Like (.empty left) Miov.clean where
  iov := rfl
  mlen := rfl
  idle := fun _ => rfl
  left := fun h => absurd rfl h

/-- A reset on each side. The Python one keeps its `left`, which makes no difference while it is
empty. -/
theorem Like.reset {v : MIOVBuf} {m : Miov} : Like v.reset (miovReset m) where
  iov := rfl
  mlen := rfl
  idle := fun _ => rfl
  left := fun h => absurd rfl h

/-! ### Reading -/

/-- Both read the same two bytes. -/
theorem get16_slice_eq {bytes : List UInt8} {i n : Nat} (hlen : i + 2 ≤ bytes.length)
    (h : Iptfs.get16 bytes i = .ok n) : get16 (slice bytes i (i + 2)) = .ok n := by
  rw [slice, get16_eq_ok, Iptfs.Proofs.get16_take (Nat.le_refl _) hlen]
  exact h

/-- The header. The C function takes datagrams of more than 8 bytes only. -/
theorem enterInner_like {t t' : Tbuf} {new : Bool} {offset : Nat}
    (h : Iptfs.enterInner t new = .ok (t', offset)) :
    enterInner t new = .ok (some (t', offset)) := by
  unfold Iptfs.enterInner at h
  unfold enterInner
  split at h
  · cases h
  · rename_i hlen
    rw [if_neg hlen]
    cases new with
    | false =>
        cases h
        rfl
    | true =>
        rw [if_pos rfl] at h ⊢
        split at h
        · rename_i h8
          rw [if_neg (by omega)]
          split at h
          · cases h
          · rename_i n hn
            cases h
            rw [Iptfs.Proofs.get16_drop] at hn
            have hrest : 6 + 2 ≤ t.rest.length := by
              rw [← Iptfs.Proofs.Tbuf.len_eq]
              omega
            rw [get16_slice_eq hrest hn]
        · cases h

/-! ### One pass -/

/-- All that is left of the datagram is added. -/
theorem morePass_like {t : Tbuf} {tlen left : Nat} {p : Iptfs.Pass}
    (h : Iptfs.morePass t tlen left = .ok p) :
    morePass t tlen (some left) = .ok (Pass.ofC p) := by
  unfold Iptfs.morePass at h
  dsimp only at h
  split at h
  · rename_i hend
    cases h
    exact if_pos hend
  · cases h

/-- What follows the `if` chain. -/
theorem finishPass_like {t : Tbuf} {left tlen : Nat} {p : Iptfs.Pass} (hlt : t.data.length < 2 ^ 16)
    (h : Iptfs.finishPass t left tlen = .ok p) :
    finishPass t left tlen = .ok (Pass.ofC p) := by
  unfold Iptfs.finishPass at h
  unfold finishPass
  split at h
  · rename_i hmore
    rw [if_pos hmore]
    exact morePass_like h
  · rename_i hmore
    rw [if_neg hmore]
    -- `tlen` has 16 bits in the C function, which no datagram fills.
    have hmod : Tbuf.len { t with start := t.start + left } % 2 ^ 16 =
        Tbuf.len { t with start := t.start + left } := by
      apply Nat.mod_eq_of_lt
      unfold Tbuf.len
      dsimp only
      omega
    dsimp only at h ⊢
    rw [hmod] at h
    split at h
    · rename_i hend
      cases h
      rw [decide_eq_false (not_not.mpr hend)]
      rfl
    · rename_i hgoes
      rw [if_neg (not_not.mpr rfl)] at h
      cases h
      rw [decide_eq_true hgoes]
      rfl

/-- A start that the C function takes for too short. -/
def Short (p : Iptfs.Pass) : Prop := ∃ start len rest, p = .part start len 0 rest ∧ 0 < len

/-- The Python function past the test on `offset`, where `u` is the rest of the datagram. -/
theorem startPass_here {t : Tbuf} {offset : Nat} (v : MIOVBuf) (h : ¬ offset ≥ t.len) {u : Tbuf}
    (hu : u = { t with start := t.start + offset }) :
    startPass t offset v =
      match u.rest with
      | [] => .error .index
      | b :: _ =>
          if b &&& 0xF0 ≠ 0x40 ∧ b &&& 0xF0 ≠ 0x60 then .ok (.keep u.skip)
          else if b &&& 0xF0 = 0x40 ∧ u.len ≥ 4 then
            match get16 (slice u.rest 2 4) with
            | .error e => .error e
            | .ok iplen => finishPass u iplen u.len
          else if b &&& 0xF0 = 0x60 ∧ u.len ≥ 6 then
            match get16 (slice u.rest 4 6) with
            | .error e => .error e
            | .ok iplen => finishPass u iplen u.len
          else morePass u u.len v.left := by
  rw [hu]
  exact if_neg h

/-- The length field, for both. -/
theorem lengthField_like {u : Tbuf} {i n : Nat} (hlen : i + 2 ≤ u.len)
    (h : (Iptfs.get16 u.data (u.start + i)).map some = .ok (some n)) :
    get16 (slice u.rest i (i + 2)) = .ok n := by
  have hrest := Iptfs.Proofs.Tbuf.len_eq u
  have hget : Iptfs.get16 u.data (u.start + i) = .ok n := by
    cases hget : Iptfs.get16 u.data (u.start + i) with
    | error e =>
        rw [hget] at h
        cases h
    | ok n' =>
        rw [hget] at h
        cases h
        rfl
  rw [Iptfs.Proofs.get16_drop] at hget
  exact get16_slice_eq (by omega) hget

/-- Where the C function reads a length, the Python function goes on with it. -/
theorem startPass_iplen {t : Tbuf} {offset : Nat} (v : MIOVBuf) (hhere : ¬ offset ≥ t.len)
    {u : Tbuf} (hu : u = { t with start := t.start + offset }) {n : Nat} (hn : n ≠ 0)
    (h : startIplen u u.len = .ok (some n)) : startPass t offset v = finishPass u n u.len := by
  rw [startPass_here v hhere hu]
  unfold startIplen at h
  have hfield : ∀ i, i + 2 ≤ u.len → (Iptfs.get16 u.data (u.start + i)).map some = .ok (some n) →
      get16 (slice u.rest i (i + 2)) = .ok n := fun i => lengthField_like
  rcases hrest : u.rest with _ | ⟨b, tail⟩
  · rw [hrest] at h
    cases h
  · rw [hrest] at h hfield
    dsimp only at h ⊢
    by_cases h4 : b &&& 0xF0 = 0x40
    · rw [if_pos h4] at h
      rw [if_neg fun hne => hne.1 h4]
      by_cases hlong : u.len ≥ 4
      · rw [if_pos hlong] at h
        rw [if_pos ⟨h4, hlong⟩, hfield 2 hlong h]
      · rw [if_neg hlong] at h
        cases h
        exact absurd rfl hn
    · rw [if_neg h4] at h
      by_cases h6 : b &&& 0xF0 = 0x60
      · rw [if_pos h6] at h
        rw [if_neg fun hne => hne.2 h6, if_neg fun hv => h4 hv.1]
        by_cases hlong : u.len ≥ 6
        · rw [if_pos hlong] at h
          rw [if_pos ⟨h6, hlong⟩, hfield 4 hlong h]
        · rw [if_neg hlong] at h
          cases h
          exact absurd rfl hn
      · -- The C function has no length here.
        rw [if_neg h6] at h
        split at h
        · cases h
        · cases h
          exact absurd rfl hn

/-- What the C function takes for padding, the Python function does too. The converse fails. -/
theorem startPass_pad {t : Tbuf} {offset : Nat} (v : MIOVBuf) (hhere : ¬ offset ≥ t.len) {u : Tbuf}
    (hu : u = { t with start := t.start + offset }) (h : startIplen u u.len = .ok none) :
    startPass t offset v = .ok (.keep u.skip) := by
  rw [startPass_here v hhere hu]
  have hnone : ∀ i, (Iptfs.get16 u.data i).map some ≠ .ok none := by
    intro i hi
    cases hget : Iptfs.get16 u.data i with
    | error e =>
        rw [hget] at hi
        cases hi
    | ok n =>
        rw [hget] at hi
        cases hi
  unfold startIplen at h
  rcases hrest : u.rest with _ | ⟨b, tail⟩
  · rw [hrest] at h
    cases h
  · rw [hrest] at h
    dsimp only at h ⊢
    by_cases h4 : b &&& 0xF0 = 0x40
    · rw [if_pos h4] at h
      split at h
      · exact absurd h (hnone _)
      · cases h
    · rw [if_neg h4] at h
      by_cases h6 : b &&& 0xF0 = 0x60
      · rw [if_pos h6] at h
        split at h
        · exact absurd h (hnone _)
        · cases h
      · exact if_pos ⟨h4, h6⟩

/-- Where a packet starts: both do the same, or the C function finds the start too short. -/
theorem startPass_like {t : Tbuf} {offset : Nat} {v : MIOVBuf} {m : Miov} {p : Iptfs.Pass}
    (hlt : t.data.length < 2 ^ 16) (hleft : m.left = 0)
    (h : Iptfs.startPass t offset t.len m = .ok p) :
    startPass t offset v = .ok (Pass.ofC p) ∨ Short p := by
  unfold Iptfs.startPass at h
  by_cases hpast : offset ≥ t.len
  · rw [if_pos hpast] at h
    cases h
    exact Or.inl (if_pos hpast)
  · rw [if_neg hpast] at h
    dsimp only at h
    -- The C function takes the offset off the length, and the Python function asks for it again.
    have hlen : Tbuf.len { t with start := t.start + offset } = t.len - offset := by
      unfold Tbuf.len
      dsimp only
      omega
    rw [← hlen] at h
    cases hiplen : startIplen { t with start := t.start + offset }
      (Tbuf.len { t with start := t.start + offset }) with
    | error e =>
        rw [hiplen] at h
        cases h
    | ok iplen =>
        rw [hiplen] at h
        cases iplen with
        | none =>
            cases h
            exact Or.inl (startPass_pad v hpast rfl hiplen)
        | some n =>
            dsimp only at h
            by_cases hn : n = 0
            · -- STARTSHORT for the C function, also where the field itself is zero.
              rw [if_pos hn] at h
              unfold Iptfs.morePass at h
              dsimp only at h
              split at h
              · cases h
                exact Or.inr ⟨_, _, _, by rw [hleft], by omega⟩
              · cases h
            · rw [if_neg hn, if_neg (not_not.mpr rfl)] at h
              rw [startPass_iplen v hpast rfl hn hiplen]
              exact Or.inl (finishPass_like hlt h)

/-- The pass on the packet in hand. -/
theorem innerPass_like {t : Tbuf} {offset : Nat} {v : MIOVBuf} {m : Miov} {p : Iptfs.Pass}
    (hlt : t.data.length < 2 ^ 16) (hv : Like v m)
    (h : Iptfs.innerPass t offset m = .ok p) :
    innerPass t offset v = .ok (Pass.ofC p) ∨ (m.len = 0 ∧ Short p) := by
  have hmod : t.len % 2 ^ 16 = t.len := by
    apply Nat.mod_eq_of_lt
    unfold Tbuf.len
    omega
  unfold Iptfs.innerPass at h
  unfold innerPass
  dsimp only at h ⊢
  rw [hmod, if_neg (not_not.mpr rfl)] at h
  rw [hv.mlen]
  by_cases hidle : m.len = 0
  · rw [if_pos hidle] at h ⊢
    rcases startPass_like (v := v) hlt (hv.idle hidle) h with hp | hshort
    · exact Or.inl hp
    · exact Or.inr ⟨hidle, hshort⟩
  · rw [if_neg hidle] at h ⊢
    refine Or.inl ?_
    have hleft := hv.left hidle
    cases hknown : Iptfs.knownLeft m t with
    | error e =>
        rw [hknown] at h
        cases h
    | ok left =>
        rw [hknown] at h
        dsimp only at h
        -- The C `getiplen` always fails, so `left` was known.
        have hne : left ≠ 0 ∧ v.left = some left := by
          unfold Iptfs.knownLeft at hknown
          split at hknown
          · rcases Iptfs.Proofs.getiplen_error m t with ⟨e, he⟩
            rw [he] at hknown
            cases hknown
          · rename_i hne
            cases hknown
            exact ⟨hne, hleft⟩
        rw [knownLeft_eq_ok.mpr ⟨hne.2, hne.1⟩]
        dsimp only
        by_cases hpast : offset > t.len
        · rw [if_pos hpast] at h ⊢
          by_cases hmore : left > t.len
          · rw [if_pos hmore] at h ⊢
            exact morePass_like h
          · rw [if_neg hmore] at h ⊢
            cases h
            rfl
        · rw [if_neg hpast] at h ⊢
          by_cases heq : left = offset
          · rw [if_pos heq] at h ⊢
            exact finishPass_like hlt h
          · rw [if_neg heq] at h
            cases h

/-- A pass that adds the rest of a datagram adds something. -/
theorem part_pos {t : Tbuf} {offset start len left : Nat} {m : Miov} {rest : Tbuf}
    (hpos : 0 < t.len) (h : Iptfs.innerPass t offset m = .ok (.part start len left rest)) :
    0 < len := by
  -- A part comes from `morePass` alone, with all that is left of the datagram.
  have hmore : ∀ (t : Tbuf) (tlen l : Nat),
      Iptfs.morePass t tlen l = .ok (.part start len left rest) → len = tlen := by
    intro t tlen l h
    unfold Iptfs.morePass at h
    dsimp only at h
    split at h
    · cases h
      rfl
    · cases h
  have hfinish : ∀ (t : Tbuf) (l tlen : Nat),
      Iptfs.finishPass t l tlen = .ok (.part start len left rest) → len = tlen ∧ tlen < l := by
    intro t l tlen h
    unfold Iptfs.finishPass at h
    split at h
    · rename_i hlt
      exact ⟨hmore _ _ _ h, hlt⟩
    · dsimp only at h
      split at h
      · cases h
      · split at h <;> cases h
  unfold Iptfs.innerPass at h
  dsimp only at h
  split at h
  · cases h
  · rename_i hmod
    have hsame : t.len % 2 ^ 16 = t.len := (not_not.mp hmod).symm
    rw [hsame] at h
    split at h
    · -- A packet starts behind the offset.
      unfold Iptfs.startPass at h
      split at h
      · cases h
      · dsimp only at h
        split at h
        · cases h
        · cases h
        · split at h
          · have hlen := hmore _ _ _ h
            omega
          · split at h
            · cases h
            · have hlen := (hfinish _ _ _ h).1
              omega
    · split at h
      · cases h
      · split at h
        · split at h
          · have hlen := hmore _ _ _ h
            omega
          · cases h
        · split at h
          · rename_i heq
            have hlt := (hfinish _ _ _ h).2
            omega
          · cases h

/-- The bytes past the header are some. -/
theorem enterInner_rest_pos {t t' : Tbuf} {new : Bool} {offset : Nat}
    (h : Iptfs.enterInner t new = .ok (t', offset)) : 0 < t'.len := by
  unfold Iptfs.enterInner at h
  split at h
  · cases h
  · rename_i hlen
    split at h
    · split at h
      · split at h
        · cases h
        · cases h
          unfold Tbuf.len at *
          dsimp only at *
          omega
      · cases h
    · cases h
      exact Nat.pos_of_ne_zero hlen

/-- A slice is added to both. -/
theorem addmbuf_like {v : MIOVBuf} {m m' : Miov} {t : Tbuf} {start len : Nat} (hv : Like v m)
    (h : miovAddmbuf m t start len = .ok m') :
    (v.addmbuf t start len).iov = m'.iov ∧ (v.addmbuf t start len).mlen = m'.len ∧
      m'.len = m.len + len := by
  unfold miovAddmbuf at h
  split at h
  · rename_i hle
    cases h
    -- The slice is inside the datagram, so Python does not cut it short.
    have hslice : ((t.data.drop start).take len).length = len := by
      rw [List.length_take, List.length_drop]
      omega
    refine ⟨?_, ?_, rfl⟩
    · unfold MIOVBuf.addmbuf
      dsimp only
      rw [hv.iov]
    · unfold MIOVBuf.addmbuf
      dsimp only
      rw [hv.mlen, hslice]
  · cases h

/-! ### The call -/

/-- Both take the same packet in hand. -/
theorem popIov_like {v : Option MIOVBuf} {m : Option Miov} (h : LikeOpt v m)
    (lefts : List (Option Nat)) : Like (popIov v lefts).1 (m.getD Miov.clean) := by
  cases v with
  | none =>
      cases m with
      | none => exact like_empty _
      | some m => exact absurd h id
  | some v =>
      cases m with
      | none => exact absurd h id
      | some m => exact h

/-- Carrying out a pass, when the recursive calls do the same. -/
theorem applyPass_like {again : Tbuf → Res Added} {againC : Tbuf → Iptfs.Res Iptfs.Added} {t : Tbuf}
    {v : MIOVBuf} {m : Miov} (hv : Like v m) {p : Iptfs.Pass} {a : Iptfs.Added}
    (hpart : ∀ start len left rest, p = .part start len left rest → 0 < len)
    (hagain : ∀ a', againC (Iptfs.Pass.rest p) = .ok a' → Settled a'.m →
      ∃ b, again (Iptfs.Pass.rest p) = .ok b ∧ LikeAdded b a')
    (h : Iptfs.applyPass againC t m p = .ok a) (hset : Settled a.m) :
    ∃ b, applyPass again t v (Pass.ofC p) = .ok b ∧ LikeAdded b a := by
  cases p with
  | keep rest =>
      cases h
      exact ⟨_, rfl, rfl, hv, rfl⟩
  | part start len left rest =>
      have hpos := hpart start len left rest rfl
      unfold Iptfs.applyPass at h
      dsimp only at h
      split at h
      · cases h
      · rename_i m' hadd
        cases h
        rcases addmbuf_like hv hadd with ⟨hiov, hmlen, hlen⟩
        refine ⟨_, rfl, rfl, ⟨hiov, hmlen, ?_, fun _ => rfl⟩, rfl⟩
        intro h0
        have h0 : m'.len = 0 := h0
        omega
  | full start len rest recurse =>
      unfold Iptfs.applyPass at h
      dsimp only at h
      split at h
      · cases h
      · rename_i m' hadd
        have hiov := (addmbuf_like hv hadd).1
        cases recurse with
        | false =>
            cases h
            exact ⟨_, rfl, rfl, trivial, congrArg (· :: []) hiov⟩
        | true =>
            -- The packet goes out in front of what the recursive call pushes.
            rw [if_pos rfl] at h
            obtain ⟨a', hres, rfl⟩ := Lib.map_eq_ok.mp h
            obtain ⟨b, hb, hlikes⟩ := hagain a' hres hset
            have hb : again rest = .ok b := hb
            refine ⟨b.cons { v.addmbuf t start len with left := some 0 }, ?_, hlikes.tmbuf,
              hlikes.m, congrArg₂ List.cons hiov hlikes.outq⟩
            exact Lib.map_eq_ok.mpr ⟨b, hb, rfl⟩

/-- A start too short leaves a packet whose `left` is not known. -/
theorem Short.not_settled {againC : Tbuf → Iptfs.Res Iptfs.Added} {t : Tbuf} {v : MIOVBuf}
    {m : Miov} {p : Iptfs.Pass} {a : Iptfs.Added} (hv : Like v m) (hp : Short p)
    (h : Iptfs.applyPass againC t m p = .ok a) : ¬ Settled a.m := by
  rcases hp with ⟨start, len, rest, rfl, hpos⟩
  unfold Iptfs.applyPass at h
  dsimp only at h
  split at h
  · cases h
  · rename_i m' hadd
    cases h
    intro hset
    have hlen := (addmbuf_like hv hadd).2.2
    have hne : m'.len ≠ 0 := by omega
    exact hset _ rfl hne rfl

/-- The Python function does what the C function does, when that comes to a packet in progress
whose `left` it knows. Induction on the calls. -/
theorem addToInnerPacket_like (fuel : Nat) {t : Tbuf} {new : Bool} {v : Option MIOVBuf}
    {m : Option Miov} {a : Iptfs.Added} (lefts : List (Option Nat))
    (hlt : t.data.length < 2 ^ 16) (hv : LikeOpt v m)
    (h : Iptfs.addToInnerPacket fuel t new m = .ok a) (hset : Settled a.m) :
    ∃ b, addToInnerPacket fuel t new v lefts = .ok b ∧ LikeAdded b a := by
  induction fuel generalizing t new v m a lefts with
  | zero => cases h
  | succ fuel ih =>
      rw [Iptfs.addToInnerPacket] at h
      cases henter : Iptfs.enterInner t new with
      | error e =>
          rw [henter] at h
          cases h
      | ok entered =>
          rcases entered with ⟨t', offset⟩
          rw [henter] at h
          dsimp only at h
          have hdata := (Iptfs.Proofs.enterInner_same henter).2
          have hlt' : t'.data.length < 2 ^ 16 := hdata ▸ hlt
          -- The Python call takes a `MIOVBuf` off its pool where the C call takes a clean miov.
          have hlike := popIov_like hv lefts
          cases hpass : Iptfs.innerPass t' offset (m.getD Miov.clean) with
          | error e =>
              rw [hpass] at h
              cases h
          | ok p =>
              rw [hpass] at h
              have hpart : ∀ start len left rest, p = .part start len left rest → 0 < len := by
                rintro start len left rest rfl
                exact part_pos (enterInner_rest_pos henter) hpass
              -- The rest is in the same buffer, so the hypothesis on its length stays.
              have hrdata := (Iptfs.Proofs.innerPass_same hpass).2
              rcases innerPass_like hlt' hlike hpass with hp | ⟨-, hshort⟩
              · rw [addToInnerPacket_pass (enterInner_like henter) hp]
                refine applyPass_like hlike hpart (fun a' ha' hset' => ?_) h hset
                exact ih (popIov v lefts).2 (hrdata ▸ hlt') (show LikeOpt none none from trivial)
                  ha' hset'
              · exact absurd hset (hshort.not_settled hlike h)

/-- A call that pushes few packets does not nest deep, so more room for nesting changes nothing.
Induction on the calls: each one that calls itself has pushed a packet. -/
theorem addToInnerPacket_depth (fuel : Nat) {t : Tbuf} {new : Bool} {v : Option MIOVBuf}
    {lefts : List (Option Nat)} {b : Added} (h : addToInnerPacket fuel t new v lefts = .ok b)
    {depth : Nat} (hdepth : b.outq.length < depth) :
    addToInnerPacket depth t new v lefts = .ok b := by
  induction fuel generalizing t new v lefts b depth with
  | zero => cases h
  | succ fuel ih =>
      cases depth with
      | zero => exact absurd hdepth (Nat.not_lt_zero _)
      | succ depth =>
          rw [addToInnerPacket] at h ⊢
          cases henter : enterInner t new with
          | error e =>
              rw [henter] at h
              cases h
          | ok entered =>
              rw [henter] at h
              cases entered with
              | none => exact h
              | some entered =>
                  rcases entered with ⟨t', offset⟩
                  dsimp only at h ⊢
                  cases hpass : innerPass t' offset (popIov v lefts).1 with
                  | error e =>
                      rw [hpass] at h
                      cases h
                  | ok p =>
                      rw [hpass] at h
                      dsimp only at h ⊢
                      cases p with
                      | keep rest => exact h
                      | part start len left rest => exact h
                      | full start len rest recurse =>
                          cases recurse with
                          | false => exact h
                          | true =>
                              unfold applyPass at h ⊢
                              dsimp only at h ⊢
                              rw [if_pos rfl] at h ⊢
                              cases hagain : addToInnerPacket fuel rest false none
                                (popIov v lefts).2 with
                              | error e =>
                                  rw [hagain] at h
                                  cases h
                              | ok b' =>
                                  rw [hagain] at h
                                  cases h
                                  have hless : b'.outq.length < depth :=
                                    Nat.lt_of_succ_lt_succ hdepth
                                  rw [ih hagain hless]
                                  rfl

end Proofs

end Iptfs.Py
