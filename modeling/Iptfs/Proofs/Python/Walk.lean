import Iptfs.Lib.Run
import Iptfs.Proofs.Reassembly
import Iptfs.Python.Read

/-!
# `Iptfs.Proofs.Python.Walk`: which datagrams `add_to_inner_packet` survives

`add_to_inner_packet` walks over the blocks of a datagram, and calls itself for each block after
the first. `blockLength` reads the length field that the walk goes by, and `Walkable depth` says
that the walk comes to its end within `depth` calls: no block says that it has no bytes, and the
blocks are not too many. `walk_iff` is the induction on the calls.

`Digestible` adds the packet in progress. Its `left` must have been assigned, by a start that had
the length field, and a block offset inside the datagram must be what is owed.

`consumes_iff` is the main result, over runs of `read_tfs_packets`: each call of
`add_to_inner_packet` returns and leaves the datagram consumed exactly when the datagram is
digestible. No length of a datagram rules a failure out: two bytes of a packet are enough
(`not_consumes`).
-/

set_option autoImplicit false

namespace Iptfs.Py

/-- The length field of the packet at the front of `bytes`. `none` is padding, the end of the
datagram, or a start too short to have the field. -/
def blockLength (bytes : List UInt8) : Option Nat :=
  match bytes with
  | [] => none
  | b :: _ =>
      if b &&& 0xF0 = 0x40 ∧ 4 ≤ bytes.length then (get16 (slice bytes 2 4)).toOption
      else if b &&& 0xF0 = 0x60 ∧ 6 ≤ bytes.length then (get16 (slice bytes 4 6)).toOption
      else none

/-- The front of a packet, too short to have the length field. -/
def ShortStart : List UInt8 → Prop
  | [] => False
  | b :: tail => (b &&& 0xF0 = 0x40 ∧ tail.length < 3) ∨ (b &&& 0xF0 = 0x60 ∧ tail.length < 5)

instance : (bytes : List UInt8) → Decidable (ShortStart bytes)
  | [] => instDecidableFalse
  | _ :: _ => instDecidableOr

/-- The walk over the blocks of `bytes` ends within `depth` calls. -/
def Walkable : Nat → List UInt8 → Prop
  | 0, _ => False
  | depth + 1, bytes =>
      match blockLength bytes with
      | none => True
      | some n => n ≠ 0 ∧ (n < bytes.length → Walkable depth (bytes.drop n))

/-- The BlockOffset of a datagram. -/
def blockOffset (data : List UInt8) : Nat := ((get16 (slice data 6 8)).toOption).getD 0

/-- The packet in progress `m` can take the datagram `data`. -/
def Digestible (depth : Nat) (m : Option MIOVBuf) (data : List UInt8) : Prop :=
  if (m.getD (.empty none)).mlen = 0 then Walkable depth ((data.drop 8).drop (blockOffset data))
  else
    ∃ left, (m.getD (.empty none)).left = some left ∧ left ≠ 0 ∧ depth ≠ 0 ∧
      (blockOffset data ≤ (data.drop 8).length → left = blockOffset data ∧
        (left < (data.drop 8).length → Walkable (depth - 1) ((data.drop 8).drop left)))

/-- The call returns, and the whole datagram is consumed. -/
def Done (r : Res Added) : Prop := ∃ a, r = .ok a ∧ a.tmbuf.len = 0

/-- The call of `add_to_inner_packet` that the pass makes, if it makes one, returns and leaves
the datagram consumed. -/
def Consumes (limit : Nat) (s : Rx) : RxEvent → Prop
  | .recv id bytes limited lefts =>
      ∀ seq, classify (recvBytes bytes) limited = .ok (.data seq) → s.ack.lastseq < seq →
        Done (addToInnerPacket limit (Tbuf.fresh id (recvBytes bytes)) true (s.ack.keep seq s.m)
          lefts)
  | .ackInfos _ => True

/-- The datagram of that call is one that the packet in progress can take. -/
def Digests (limit : Nat) (s : Rx) : RxEvent → Prop
  | .recv _ bytes limited _ =>
      ∀ seq, classify (recvBytes bytes) limited = .ok (.data seq) → s.ack.lastseq < seq →
        Digestible limit (s.ack.keep seq s.m) (recvBytes bytes)
  | .ackInfos _ => True

namespace Proofs

open Iptfs.Lib

/-! ### Reading -/

/-- Two bytes are there to be read. -/
theorem get16_slice {bytes : List UInt8} {i : Nat} (h : i + 2 ≤ bytes.length) :
    ∃ n, get16 (slice bytes i (i + 2)) = .ok n := by
  have hlen : (slice bytes i (i + 2)).length = 2 := by
    rw [slice, List.length_drop, List.length_take]
    omega
  match hs : slice bytes i (i + 2) with
  | [] => simp [hs] at hlen
  | [_] => simp [hs] at hlen
  | a :: b :: _ => exact ⟨_, rfl⟩

/-- A result without its error. -/
theorem toOption_ok {α : Type} {r : Res α} {a : α} (h : r = .ok a) : r.toOption = some a := by
  rw [h]
  rfl

/-- The whole datagram is past its header. -/
theorem enterInner_new (id : Nat) {data : List UInt8} (h : 8 < data.length) :
    enterInner (Tbuf.fresh id data) true = .ok (some (⟨id, data, 8⟩, blockOffset data)) := by
  have hlen : (Tbuf.fresh id data).len = data.length := rfl
  rcases get16_slice (show 6 + 2 ≤ data.length by omega) with ⟨n, hn⟩
  have hoffset : blockOffset data = n := by
    rw [blockOffset, toOption_ok hn]
    rfl
  have hread : get16 (slice (Tbuf.fresh id data).rest 6 8) = .ok n := hn
  unfold enterInner
  rw [hlen, if_neg (by omega), if_pos rfl, if_neg (by omega), hread, hoffset]
  rfl

/-- The rest of a datagram. -/
theorem enterInner_rest {t : Tbuf} (h : t.rest ≠ []) :
    enterInner t false = .ok (some (t, 0)) := by
  have hlen : t.len ≠ 0 := by
    rw [Iptfs.Proofs.Tbuf.len_eq]
    exact fun h0 => h (List.length_eq_zero_iff.mp h0)
  unfold enterInner
  rw [if_neg hlen]
  rfl

/-- A block that says it has no bytes stops every walk. -/
theorem not_walkable_of_zero (depth : Nat) {bytes : List UInt8}
    (h : blockLength bytes = some 0) : ¬ Walkable depth bytes := by
  cases depth with
  | zero => exact fun hwalk => hwalk
  | succ depth =>
      unfold Walkable
      rw [h]
      exact fun hwalk => hwalk.1 rfl

/-! ### One pass -/

/-- The pass ends the walk, and the datagram is consumed. -/
def Pass.Ends : Pass → Prop
  | .keep t => t.len = 0
  | .part _ _ _ t => t.len = 0
  | .full _ _ t recurse => recurse = false ∧ t.len = 0

/-- Nothing is left of a datagram that is skipped. -/
theorem skip_len (t : Tbuf) : t.skip.len = 0 := Nat.sub_self _

/-- A pass that ends the walk is carried out. -/
theorem applyPass_ends {p : Pass} (h : Pass.Ends p) (again : Tbuf → Res Added) (t : Tbuf)
    (m : MIOVBuf) : Done (applyPass again t m p) := by
  cases p with
  | keep rest => exact ⟨_, rfl, h⟩
  | part start len left rest => exact ⟨_, rfl, h⟩
  | full start len rest recurse =>
      rcases h with ⟨rfl, hlen⟩
      exact ⟨_, rfl, hlen⟩

/-- A pass that goes on is as good as the call it makes. -/
theorem applyPass_goes (again : Tbuf → Res Added) (t rest : Tbuf) (m : MIOVBuf)
    (start len : Nat) :
    Done (applyPass again t m (.full start len rest true)) ↔ Done (again rest) := by
  show Done ((again rest).map _) ↔ _
  constructor
  · rintro ⟨b, hb, hlen⟩
    obtain ⟨a, ha, rfl⟩ := map_eq_ok.mp hb
    exact ⟨a, ha, hlen⟩
  · rintro ⟨a, ha, hlen⟩
    exact ⟨_, map_eq_ok.mpr ⟨a, ha, rfl⟩, hlen⟩

/-- Nothing is left behind all that is left. -/
theorem len_past (t : Tbuf) : Tbuf.len { t with start := t.start + t.len } = 0 := by
  unfold Tbuf.len
  dsimp only
  omega

/-- All that is left of the datagram is added. -/
theorem morePass_eq (t : Tbuf) (left : Option Nat) :
    morePass t t.len left = .ok (.part t.start t.len left { t with start := t.start + t.len }) :=
  if_pos (len_past t)

/-- A packet that goes on in the next datagram ends the walk. -/
theorem morePass_ends (t : Tbuf) (left : Option Nat) :
    ∃ p, morePass t t.len left = .ok p ∧ Pass.Ends p :=
  ⟨_, morePass_eq t left, len_past t⟩

/-- A block of `n` bytes at the front, in a datagram that goes on behind it. -/
theorem finishPass_goes {t : Tbuf} {n tlen : Nat} (hn : n ≤ tlen) (hlt : n < t.len) :
    finishPass t n tlen = .ok (.full t.start n { t with start := t.start + n } true) := by
  have hrest : Tbuf.len { t with start := t.start + n } ≠ 0 := by
    unfold Tbuf.len at hlt ⊢
    dsimp only
    omega
  unfold finishPass
  rw [if_neg (by omega)]
  dsimp only
  rw [decide_eq_true hrest]

/-- A block that ends where the datagram does, or later. -/
theorem finishPass_ends {t : Tbuf} {n : Nat} (tlen : Nat) (hle : t.len ≤ n)
    (htlen : tlen = t.len ∨ tlen = n) : ∃ p, finishPass t n tlen = .ok p ∧ Pass.Ends p := by
  unfold finishPass
  by_cases hmore : n > tlen
  · rw [if_pos hmore]
    rcases htlen with rfl | rfl
    · exact morePass_ends t _
    · omega
  · rw [if_neg hmore]
    have hrest : Tbuf.len { t with start := t.start + n } = 0 := by
      unfold Tbuf.len at hle ⊢
      dsimp only
      omega
    exact ⟨_, rfl, decide_eq_false (not_not.mpr hrest), hrest⟩

/-- Where a packet starts: padding, a start that is too short, or a packet with a length. -/
theorem startPass_cases {t : Tbuf} {offset : Nat} (m : MIOVBuf) (hoff : offset < t.len) {u : Tbuf}
    (hu : u = { t with start := t.start + offset }) :
    (blockLength u.rest = none ∧ ¬ ShortStart u.rest ∧
        startPass t offset m = .ok (.keep u.skip)) ∨
      (blockLength u.rest = none ∧ ShortStart u.rest ∧
        startPass t offset m = morePass u u.len m.left) ∨
      ∃ n, blockLength u.rest = some n ∧ startPass t offset m = finishPass u n u.len := by
  have hlen : u.len = u.rest.length := Iptfs.Proofs.Tbuf.len_eq u
  have hpos : 0 < u.rest.length := by
    rw [← hlen, hu]
    unfold Tbuf.len at hoff ⊢
    dsimp only
    omega
  unfold startPass
  rw [if_neg (by omega)]
  dsimp only
  rw [← hu, hlen]
  generalize u.rest = bytes at *
  match bytes with
  | [] => exact absurd hpos (Nat.lt_irrefl 0)
  | b :: tail =>
      have hcons : (b :: tail).length = tail.length + 1 := List.length_cons
      unfold blockLength ShortStart
      dsimp only
      by_cases hpad : b &&& 0xF0 ≠ 0x40 ∧ b &&& 0xF0 ≠ 0x60
      · -- Padding, or an unknown version.
        have h4 : ¬ (b &&& 0xF0 = 0x40 ∧ 4 ≤ (b :: tail).length) := fun h => hpad.1 h.1
        have h6 : ¬ (b &&& 0xF0 = 0x60 ∧ 6 ≤ (b :: tail).length) := fun h => hpad.2 h.1
        rw [if_pos hpad, if_neg h4, if_neg h6]
        refine Or.inl ⟨rfl, ?_, rfl⟩
        rintro (h | h)
        · exact hpad.1 h.1
        · exact hpad.2 h.1
      · rw [if_neg hpad]
        by_cases h4 : b &&& 0xF0 = 0x40 ∧ (b :: tail).length ≥ 4
        · obtain ⟨n, hn⟩ := get16_slice (show 2 + 2 ≤ (b :: tail).length from h4.2)
          rw [if_pos h4, if_pos h4, hn]
          exact Or.inr (Or.inr ⟨n, rfl, rfl⟩)
        · rw [if_neg h4, if_neg h4]
          by_cases h6 : b &&& 0xF0 = 0x60 ∧ (b :: tail).length ≥ 6
          · obtain ⟨n, hn⟩ := get16_slice (show 4 + 2 ≤ (b :: tail).length from h6.2)
            rw [if_pos h6, if_pos h6, hn]
            exact Or.inr (Or.inr ⟨n, rfl, rfl⟩)
          · -- STARTSHORT
            rw [if_neg h6, if_neg h6]
            refine Or.inr (Or.inl ⟨rfl, ?_, rfl⟩)
            by_cases hv4 : b &&& 0xF0 = 0x40
            · have hshort : ¬ (b :: tail).length ≥ 4 := fun h => h4 ⟨hv4, h⟩
              exact Or.inl ⟨hv4, by omega⟩
            · have hv6 : b &&& 0xF0 = 0x60 := not_not.mp fun h => hpad ⟨hv4, h⟩
              have hshort : ¬ (b :: tail).length ≥ 6 := fun h => h6 ⟨hv6, h⟩
              exact Or.inr ⟨hv6, by omega⟩

/-- Where a packet starts, by the length field. -/
theorem startPass_eq {t : Tbuf} {offset : Nat} (m : MIOVBuf) (hoff : offset < t.len) :
    (∃ p, blockLength (t.rest.drop offset) = none ∧ startPass t offset m = .ok p ∧ Pass.Ends p) ∨
      ∃ n, blockLength (t.rest.drop offset) = some n ∧ startPass t offset m =
        finishPass { t with start := t.start + offset } n (t.rest.drop offset).length := by
  have hrest : Tbuf.rest { t with start := t.start + offset } = t.rest.drop offset :=
    Iptfs.Proofs.Tbuf.rest_advance t offset
  have hlen : Tbuf.len { t with start := t.start + offset } = (t.rest.drop offset).length := by
    rw [Iptfs.Proofs.Tbuf.len_eq, hrest]
  obtain ⟨hnone, _, hp⟩ | ⟨hnone, _, hp⟩ | ⟨n, hsome, hp⟩ := startPass_cases m hoff rfl
  · rw [hrest] at hnone
    exact Or.inl ⟨_, hnone, hp, skip_len _⟩
  · obtain ⟨p, hmore, hends⟩ := morePass_ends { t with start := t.start + offset } m.left
    rw [hrest] at hnone
    exact Or.inl ⟨p, hnone, hp.trans hmore, hends⟩
  · rw [hrest] at hsome
    rw [hlen] at hp
    exact Or.inr ⟨n, hsome, hp⟩

/-! ### The walk -/

/-- A call whose pass is `p`. -/
theorem addToInnerPacket_pass {depth : Nat} {t t' : Tbuf} {new : Bool} {m : Option MIOVBuf}
    {lefts : List (Option Nat)} {offset : Nat} {p : Pass}
    (henter : enterInner t new = .ok (some (t', offset)))
    (hp : innerPass t' offset (popIov m lefts).1 = .ok p) :
    addToInnerPacket (depth + 1) t new m lefts =
      applyPass (fun rest => addToInnerPacket depth rest false none (popIov m lefts).2) t'
        (popIov m lefts).1 p := by
  rw [addToInnerPacket, henter]
  dsimp only
  rw [hp]

/-- With no packet in progress the call walks over the blocks behind the offset. `ih` is what is
known of the calls it makes. -/
theorem start_iff {depth : Nat} {t t' : Tbuf} {new : Bool} {m : Option MIOVBuf}
    {lefts : List (Option Nat)} {offset : Nat}
    (henter : enterInner t new = .ok (some (t', offset))) (hm : (popIov m lefts).1.mlen = 0)
    (ih : ∀ (rest : Tbuf) (lefts : List (Option Nat)), rest.rest ≠ [] →
      (Done (addToInnerPacket depth rest false none lefts) ↔ Walkable depth rest.rest)) :
    Done (addToInnerPacket (depth + 1) t new m lefts) ↔
      Walkable (depth + 1) (t'.rest.drop offset) := by
  have hinner : innerPass t' offset (popIov m lefts).1 =
      startPass t' offset (popIov m lefts).1 := if_pos hm
  unfold Walkable
  by_cases hoff : offset < t'.len
  · rcases startPass_eq (popIov m lefts).1 hoff with ⟨p, hnone, hp, hends⟩ | ⟨n, hsome, hp⟩
    · rw [hnone, addToInnerPacket_pass henter (hinner.trans hp)]
      exact iff_of_true (applyPass_ends hends _ _ _) trivial
    · rw [hsome]
      dsimp only
      have hlen :
          Tbuf.len { t' with start := t'.start + offset } = (t'.rest.drop offset).length := by
        rw [List.length_drop, ← Iptfs.Proofs.Tbuf.len_eq]
        unfold Tbuf.len
        dsimp only
        omega
      have hpos : 0 < (t'.rest.drop offset).length := by
        rw [List.length_drop, ← Iptfs.Proofs.Tbuf.len_eq]
        omega
      by_cases hlt : n < (t'.rest.drop offset).length
      · -- The datagram goes on behind the block: the call calls itself.
        -- Behind the block there are bytes, so the assertion on the length left passes.
        have hgoes := finishPass_goes (Nat.le_of_lt hlt) (hlen ▸ hlt)
        have hblock : Tbuf.rest { t' with start := t'.start + offset } = t'.rest.drop offset :=
          Iptfs.Proofs.Tbuf.rest_advance t' offset
        have hrest : Tbuf.rest { t' with start := t'.start + offset + n } =
            (t'.rest.drop offset).drop n := by
          rw [← hblock]
          exact Iptfs.Proofs.Tbuf.rest_advance { t' with start := t'.start + offset } n
        have hne : Tbuf.rest { t' with start := t'.start + offset + n } ≠ [] :=
          Iptfs.Proofs.Tbuf.rest_advance_ne_nil (t := { t' with start := t'.start + offset })
            (hblock ▸ hlt)
        rw [addToInnerPacket_pass henter (hinner.trans (hp.trans hgoes)), applyPass_goes,
          ih _ _ hne, hrest]
        constructor
        · intro hwalk
          refine ⟨?_, fun _ => hwalk⟩
          rintro rfl
          -- A block without bytes comes again and again, until the calls run out.
          rw [List.drop_zero] at hwalk
          exact absurd hwalk (not_walkable_of_zero depth hsome)
        · intro hwalk
          exact hwalk.2 hlt
      · rcases finishPass_ends (t := { t' with start := t'.start + offset }) (n := n)
          (t'.rest.drop offset).length (by omega) (Or.inl hlen.symm) with
          ⟨p, hfin, hends⟩
        rw [addToInnerPacket_pass henter (hinner.trans (hp.trans hfin))]
        exact iff_of_true (applyPass_ends hends _ _ _) ⟨by omega, fun h => absurd h hlt⟩
  · -- The next block is past the end of the datagram.
    have hnil : t'.rest.drop offset = [] := by
      apply List.drop_eq_nil_of_le
      rw [← Iptfs.Proofs.Tbuf.len_eq]
      omega
    have hp : startPass t' offset (popIov m lefts).1 = .ok (.keep t'.skip) := if_pos (by omega)
    rw [hnil, addToInnerPacket_pass henter (hinner.trans hp)]
    exact iff_of_true ⟨_, rfl, skip_len t'⟩ trivial

/-- The walk over the rest of a datagram. Induction on the depth. -/
theorem walk_iff (depth : Nat) (t : Tbuf) (lefts : List (Option Nat)) (h : t.rest ≠ []) :
    Done (addToInnerPacket depth t false none lefts) ↔ Walkable depth t.rest := by
  induction depth generalizing t lefts with
  | zero =>
      refine iff_of_false ?_ (fun h => h)
      rintro ⟨a, ha, -⟩
      cases ha
  | succ depth ih => exact start_iff (enterInner_rest h) rfl ih

/-- When `m.left` is known: when it was assigned, and is not zero. `getiplen` always fails. -/
theorem knownLeft_eq_ok {v : MIOVBuf} {left : Nat} :
    knownLeft v = .ok left ↔ v.left = some left ∧ left ≠ 0 := by
  -- `getiplen` masks the high four bits and compares them with 4 and 6, so it raises always.
  have hnever : ∀ n, getiplen v ≠ .ok n := by
    intro n h
    unfold getiplen at h
    split at h
    · cases h
    · dsimp only at h
      split at h
      · cases h
      · split at h <;> cases h
  unfold knownLeft
  split
  · rename_i hnone
    rw [hnone]
    exact iff_of_false (fun h => by cases h) fun h => by cases h.1
  · rename_i hzero
    rw [hzero]
    refine iff_of_false (hnever left) ?_
    rintro ⟨h, hne⟩
    cases h
    exact hne rfl
  · rename_i n hne hsome
    rw [hsome]
    constructor
    · intro h
      cases h
      exact ⟨rfl, fun h0 => hne h0⟩
    · rintro ⟨h, -⟩
      cases h
      rfl

/-- The pass with a packet in progress: its `left` is not known, or it decides. -/
theorem busyPass_cases (t : Tbuf) (offset : Nat) {v : MIOVBuf} (hv : v.mlen ≠ 0) :
    (∃ e, innerPass t offset v = .error e ∧ ∀ left, v.left = some left → left = 0) ∨
      ∃ left, v.left = some left ∧ left ≠ 0 ∧ innerPass t offset v =
        if offset > t.rest.length then
          if left > t.rest.length then morePass t t.len (some (left - t.len))
          else .ok (.full t.start left t.skip false)
        else if left = offset then finishPass t left offset
        else .error .assertion := by
  unfold innerPass
  rw [if_neg hv, ← Iptfs.Proofs.Tbuf.len_eq]
  cases hknown : knownLeft v with
  | error e =>
      refine Or.inl ⟨e, rfl, fun left hleft => ?_⟩
      by_contra hne
      rw [knownLeft_eq_ok.mpr ⟨hleft, hne⟩] at hknown
      cases hknown
  | ok left =>
      obtain ⟨hleft, hne⟩ := knownLeft_eq_ok.mp hknown
      exact Or.inr ⟨left, hleft, hne, rfl⟩

/-- With a packet in progress: its `left` must be known, and a next block in this datagram must
begin where the packet ends. -/
theorem busy_iff {depth : Nat} {t t' : Tbuf} {v : MIOVBuf} {lefts : List (Option Nat)}
    {offset : Nat} (henter : enterInner t true = .ok (some (t', offset))) (hv : v.mlen ≠ 0) :
    Done (addToInnerPacket (depth + 1) t true (some v) lefts) ↔
      ∃ left, v.left = some left ∧ left ≠ 0 ∧
        (offset ≤ t'.rest.length → left = offset ∧
          (left < t'.rest.length → Walkable depth (t'.rest.drop left))) := by
  have hlen : t'.len = t'.rest.length := Iptfs.Proofs.Tbuf.len_eq t'
  -- An exception of the pass is one of the call.
  have hraise : ∀ e, innerPass t' offset v = .error e →
      ¬ Done (addToInnerPacket (depth + 1) t true (some v) lefts) := by
    rintro e he ⟨a, ha, -⟩
    rw [addToInnerPacket, henter] at ha
    dsimp only [popIov] at ha
    rw [he] at ha
    cases ha
  have hcall : ∀ p, innerPass t' offset v = .ok p →
      addToInnerPacket (depth + 1) t true (some v) lefts =
        applyPass (fun rest => addToInnerPacket depth rest false none lefts) t' v p :=
    fun p hp => addToInnerPacket_pass (m := some v) henter hp
  obtain ⟨e, hpass, hunknown⟩ | ⟨left, hleft, hne, hpass⟩ := busyPass_cases t' offset hv
  · refine iff_of_false (hraise e hpass) ?_
    rintro ⟨left, hleft, hne, -⟩
    exact hne (hunknown left hleft)
  · -- There is one value of `left`, so the right-hand side is about that one.
    have hone : ∀ P : Nat → Prop,
        (∃ l, v.left = some l ∧ l ≠ 0 ∧ P l) ↔ P left := by
      intro P
      constructor
      · rintro ⟨l, hl, -, h⟩
        rw [hleft] at hl
        cases hl
        exact h
      · exact fun h => ⟨left, hleft, hne, h⟩
    rw [hone]
    by_cases hpast : offset > t'.rest.length
    · -- All of the datagram is for the packet in progress.
      rw [if_pos hpast] at hpass
      refine iff_of_true ?_ fun h => absurd h (Nat.not_le.mpr hpast)
      by_cases hmore : left > t'.rest.length
      · rw [if_pos hmore] at hpass
        rcases morePass_ends t' (some (left - t'.len)) with ⟨p, hp, hends⟩
        rw [hcall _ (hpass.trans hp)]
        exact applyPass_ends hends _ _ _
      · rw [if_neg hmore] at hpass
        rw [hcall _ hpass]
        exact ⟨_, rfl, skip_len t'⟩
    · rw [if_neg hpast] at hpass
      by_cases heq : left = offset
      · rw [if_pos heq] at hpass
        by_cases hlt : left < t'.rest.length
        · have hgoes := finishPass_goes (Nat.le_of_eq heq) (hlen ▸ hlt)
          have hrest : Tbuf.rest { t' with start := t'.start + left } = t'.rest.drop left :=
            Iptfs.Proofs.Tbuf.rest_advance t' left
          -- The packet ends here, and the walk goes on behind it.
          have hcont : Tbuf.rest { t' with start := t'.start + left } ≠ [] :=
            Iptfs.Proofs.Tbuf.rest_advance_ne_nil hlt
          rw [hcall _ (hpass.trans hgoes), applyPass_goes,
            walk_iff depth _ _ hcont, hrest]
          constructor
          · exact fun hwalk _ => ⟨heq, fun _ => hwalk⟩
          · exact fun h => (h (Nat.le_of_not_lt hpast)).2 hlt
        · rcases finishPass_ends (t := t') (n := left) offset (by omega) (Or.inr heq.symm) with
            ⟨p, hp, hends⟩
          rw [hcall _ (hpass.trans hp)]
          exact iff_of_true (applyPass_ends hends _ _ _) fun _ => ⟨heq, fun h => absurd h hlt⟩
      · rw [if_neg heq] at hpass
        refine iff_of_false (hraise _ hpass) ?_
        -- `assert m.left == tlen` fails.
        exact fun h => heq (h (Nat.le_of_not_lt hpast)).1

/-- One call of `add_to_inner_packet` on a new datagram. -/
theorem done_iff (depth id : Nat) {data : List UInt8} (hlen : 8 < data.length)
    (m : Option MIOVBuf) (lefts : List (Option Nat)) :
    Done (addToInnerPacket depth (Tbuf.fresh id data) true m lefts) ↔
      Digestible depth m data := by
  unfold Digestible
  cases depth with
  | zero =>
      refine iff_of_false ?_ ?_
      · rintro ⟨a, ha, -⟩
        cases ha
      · split
        · exact fun h => h
        · rintro ⟨left, -, -, h0, -⟩
          exact h0 rfl
  | succ depth =>
      have henter := enterInner_new id hlen
      cases m with
      | none =>
          have hidle : ((none : Option MIOVBuf).getD (.empty none)).mlen = 0 := rfl
          rw [if_pos hidle]
          exact start_iff henter rfl (walk_iff depth)
      | some v =>
          by_cases hv : v.mlen = 0
          · rw [Option.getD_some, if_pos hv]
            exact start_iff henter hv (walk_iff depth)
          · rw [Option.getD_some, if_neg hv, busy_iff henter hv]
            refine exists_congr fun left => and_congr_right fun _ => and_congr_right fun _ => ?_
            exact (and_iff_right (Nat.succ_ne_zero depth)).symm

/-! ### Runs -/

/-- Which datagrams reach `add_to_inner_packet`. -/
theorem length_of_classify {data : List UInt8} {limited : Bool} {seq : Nat}
    (h : classify data limited = .ok (.data seq)) : 8 < data.length := by
  unfold classify at h
  split at h
  · cases h
  · omega

/-- What a pass over the sequence number leaves: the datagram is old, or it reached
`add_to_inner_packet`. -/
theorem acceptData_cases {limit seq : Nat} {tmbuf : Tbuf} {lefts : List (Option Nat)} {s s' : Rx}
    (h : acceptData limit tmbuf seq lefts s = .ok s') :
    (seq ≤ s.ack.lastseq ∧ s' = { s with ack := s.ack.begin seq }) ∨
      (s.ack.lastseq < seq ∧ ∃ a, addToInnerPacket limit tmbuf true (s.ack.keep seq s.m) lefts =
        .ok a ∧ s' = { s with
          ack := (s.ack.begin seq).advance seq
          m := a.m
          outq := s.outq ++ a.outq }) := by
  unfold acceptData at h
  dsimp only at h
  split at h
  · rename_i hold
    cases h
    exact Or.inl ⟨hold, rfl⟩
  · rename_i hnew
    split at h
    · cases h
    · rename_i a ha
      cases h
      exact Or.inr ⟨Nat.not_le.mp hnew, a, ha, rfl⟩

/-- What a pass with a datagram leaves: its sequence number is looked at, or only the count of
drops and the averages change. -/
theorem recv_cases {target : ℚ} {limit id : Nat} {bytes : List UInt8} {limited : Bool}
    {lefts : List (Option Nat)} {s s' : Rx}
    (h : readTfsPacketsStep target limit s (.recv id bytes limited lefts) = .ok s') :
    (∃ seq, classify (recvBytes bytes) limited = .ok (.data seq) ∧
        acceptData limit (Tbuf.fresh id (recvBytes bytes)) seq lefts s = .ok s') ∨
      ((∀ seq, classify (recvBytes bytes) limited ≠ .ok (.data seq)) ∧ ∃ dropcnt g,
        s' = { s with ack := { s.ack with dropcnt := dropcnt }, congest := g }) := by
  unfold readTfsPacketsStep at h
  dsimp only at h
  cases hclass : classify (recvBytes bytes) limited with
  | error e =>
      rw [hclass] at h
      cases h
  | ok verdict =>
      rw [hclass] at h
      cases verdict with
      | data seq => exact Or.inl ⟨seq, rfl, h⟩
      | ack =>
          have hno : ∀ seq, (Except.ok Verdict.ack : Res Verdict) ≠ .ok (.data seq) := by
            intro seq hseq
            cases hseq
          refine Or.inr ⟨hno, ?_⟩
          obtain ⟨g, _, rfl⟩ := map_eq_ok.mp h
          exact ⟨s.ack.dropcnt, g, rfl⟩
      | _ =>
          refine Or.inr ⟨?_, ?_⟩
          · intro seq hseq
            cases hseq
          · cases h
            exact ⟨s.ack.dropcnt + 1, s.congest, rfl⟩

/-- When the Python receiver survives data datagrams. Over any run of `read_tfs_packets`, each
call of `add_to_inner_packet` returns with the datagram consumed exactly when the datagram is
digestible for the packet in progress. -/
theorem consumes_iff (target pps : ℚ) (limit : Nat) (events : List RxEvent) :
    Along (readTfsPacketsStep target limit) (Consumes limit) (Rx.init pps) events ↔
      Along (readTfsPacketsStep target limit) (Digests limit) (Rx.init pps) events := by
  apply along_congr
  intro s e
  cases e with
  | ackInfos ns => exact Iff.rfl
  | recv id bytes limited lefts =>
      refine forall_congr' fun seq => forall_congr' fun hdata => forall_congr' fun _ => ?_
      exact done_iff limit id (length_of_classify hdata) _ lefts

/-- A datagram with the sequence number `seq`, the BlockOffset `offset` and a payload. -/
def someDatagram (seq offset : Nat) (payload : List UInt8) : List UInt8 :=
  put32 seq ++ [0, 0] ++ put16 offset ++ payload

/-- Two bytes of a packet, and then more of it. -/
theorem not_consumes : ¬ ∀ (target pps : ℚ) (limit : Nat) (events : List RxEvent), 1000 ≤ limit →
    Along (readTfsPacketsStep target limit) (Consumes limit) (Rx.init pps) events := by
  intro h
  have hrun := h 1 1 1000 [.recv 0 (someDatagram 1 0 [0x45, 0]) false [],
    .recv 1 (someDatagram 2 18 [0, 20]) false []] (Nat.le_refl _)
  rcases (hrun.2 _ rfl).1 2 rfl (by decide) with ⟨a, ha, -⟩
  cases ha

end Proofs

end Iptfs.Py
