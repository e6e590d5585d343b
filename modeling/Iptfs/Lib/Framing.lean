import Mathlib.Data.List.Induction

/-!
# `Iptfs.Lib.Framing`: blocks cut into numbered frames over a lossy channel

A sender lays a sequence of blocks (lists over any alphabet) end to end and cuts the
result into frames. A block may start and end anywhere and may stretch over several
frames. A frame either carries nothing but a middle piece of the block under way
(`Frame.middle`), or it carries what is still owed of that block, then whole blocks, and
then the beginning of the next one or padding (`Frame.blocks`). `Carry` is a block under
way, and its fields say that some of it has gone out and some is still owed.

The channel loses frames. `Frame.receive` is what a receiver does with a frame that
arrives: it keeps the block under way only while it has every frame of it, and picks up
again at the next block that starts. `channel` folds this over the numbered frames, where
`acc` tells which of them arrive.

`ledger` writes down, for each block in the order taken, the numbers of the frames that
carried it and whether its last element has gone out. `channel_out` is the main fact:
over a chained sequence of frames, the receiver delivers exactly the blocks that are
complete and all of whose frames arrived, in the order taken.

`Ledger.aboard` counts the frames that have carried the block which the receiver holds, and
`Frame.load` is how one frame changes that count. `aboard_concat` ties the two.
`under_of_shipment` and `exists_shipment` read the ledger of the first frames off the ledger of
all of them, and `within_iff_carriers` uses both for a receiver that has room for a bounded
number of frames of a block.
-/

set_option autoImplicit false

namespace Iptfs.Lib.Framing

variable {α : Type}

/-- A block under way: the first `sent` elements have gone out, the rest is owed. -/
structure Carry (α : Type) where
  block : List α
  sent : Nat
  sent_pos : 0 < sent
  sent_lt : sent < block.length

namespace Carry

/-- The part that has gone out. -/
def front (c : Carry α) : List α := c.block.take c.sent

/-- The part still owed. -/
def rest (c : Carry α) : List α := c.block.drop c.sent

/-- As many elements of the block have gone out as the carry counts. -/
theorem length_front (c : Carry α) : c.front.length = c.sent := by
  have := c.sent_lt
  simp [front]
  omega

@[simp] theorem length_rest (c : Carry α) : c.rest.length = c.block.length - c.sent := by
  simp [rest]

/-- A block under way still owes an element, so that the frame that ends it carries at least one. -/
theorem rest_pos (c : Carry α) : 0 < c.block.length - c.sent := by
  have := c.sent_lt
  omega

@[simp] theorem front_append_rest (c : Carry α) : c.front ++ c.rest = c.block :=
  List.take_append_drop _ _

/-- The carry after `n` more elements, not the last ones. -/
def more (c : Carry α) (n : Nat) (h : c.sent + n < c.block.length) : Carry α where
  block := c.block
  sent := c.sent + n
  sent_pos := by have := c.sent_pos; omega
  sent_lt := h

/-- The piece of `n` elements extends the part that has gone out. -/
theorem front_more (c : Carry α) (n : Nat) (h : c.sent + n < c.block.length) :
    (c.more n h).front = c.front ++ c.rest.take n := by
  simp [front, rest, more, List.take_add]

end Carry

/-- One frame. `middle` is a piece of the block under way that does not end it. `blocks`
is the end of the block under way (if there is one), whole blocks, and then either the
beginning of a block that goes on or padding. -/
inductive Frame (α : Type)
  | middle (c : Carry α) (n : Nat) (pos : 0 < n) (h : c.sent + n < c.block.length)
  | blocks (owed : Option (Carry α)) (whole : List (List α)) (next : Option (Carry α))
      (pad : List α)

namespace Frame

/-- The block under way when the frame begins. -/
def before : Frame α → Option (Carry α)
  | middle c _ _ _ => some c
  | blocks owed _ _ _ => owed

/-- The block under way when the frame ends. -/
def after : Frame α → Option (Carry α)
  | middle c n _ h => some (c.more n h)
  | blocks _ _ next _ => next

/-- How many elements are owed when the frame begins. -/
def owes (f : Frame α) : Nat := (f.before.map fun c => c.rest.length).getD 0

/-- The blocks that begin in the frame, in order. -/
def begun : Frame α → List (List α)
  | middle _ _ _ _ => []
  | blocks _ whole next _ => whole ++ (next.map Carry.block).toList

/-- The elements of the frame. -/
def payload : Frame α → List α
  | middle c n _ _ => c.rest.take n
  | blocks owed whole next pad =>
      (owed.map Carry.rest).getD [] ++ (whole.flatten ++ (next.map Carry.front).getD pad)

/-- What a receiver does with a frame that arrives. `held` is the block under way, if the
receiver has everything of it that has gone out. The result is the block held after the
frame and the blocks delivered. -/
def receive (held : Option (Carry α)) : Frame α → Option (Carry α) × List (List α)
  | middle c n _ h => (held.map fun _ => c.more n h, [])
  | blocks owed whole next _ =>
      (next, (if held.isSome then (owed.map Carry.block).toList else []) ++ whole)

/-- A receiver that holds the block under way delivers it when it ends, and then holds the
next one. -/
theorem receive_before (f : Frame α) :
    (f.receive f.before).1 = f.after ∧
      (f.receive f.before).2 ++ (f.after.map Carry.block).toList =
        (f.before.map Carry.block).toList ++ f.begun := by
  cases f with
  | middle c n pos h => exact ⟨rfl, by simp [receive, after, before, begun, Carry.more]⟩
  | blocks owed whole next pad =>
      refine ⟨rfl, ?_⟩
      cases owed <;> simp [receive, after, before, begun]

end Frame

/-- A numbered frame's fate at the sender: the frame, and whether it left. A frame that
does not leave takes the block under way with it. -/
structure Cut (α : Type) where
  frame : Frame α
  left : Bool

/-- The block under way after the cut. -/
def Cut.carry (k : Cut α) : Option (Carry α) := if k.left then k.frame.after else none

/-- A sequence of cuts that continue each other: each frame begins with the block that
the cut before it left under way. -/
def Chained : Option (Carry α) → List (Cut α) → Prop
  | _, [] => True
  | c, k :: ks => k.frame.before = c ∧ Chained k.carry ks

/-- The block under way after all the cuts. -/
def carryAfter : Option (Carry α) → List (Cut α) → Option (Carry α)
  | c, [] => c
  | _, k :: ks => carryAfter k.carry ks

/-- A sequence of cuts is chained when its first part is, and its second part goes on from the
block that the first leaves under way. -/
theorem chained_append {c : Option (Carry α)} {ks ls : List (Cut α)} :
    Chained c (ks ++ ls) ↔ Chained c ks ∧ Chained (carryAfter c ks) ls := by
  induction ks generalizing c with
  | nil => simp [Chained, carryAfter]
  | cons k ks ih => simp [Chained, carryAfter, ih, and_assoc]

/-- What is under way after the cuts is what the last one leaves under way. -/
@[simp] theorem carryAfter_concat (c : Option (Carry α)) (ks : List (Cut α)) (k : Cut α) :
    carryAfter c (ks ++ [k]) = k.carry := by
  induction ks generalizing c with
  | nil => rfl
  | cons l ks ih => simpa [carryAfter] using ih l.carry

/-! ### Cutting a stream of blocks -/

/-- How many elements of the block under way lie before and after the position `n` of the
stream, none at the end of a block. -/
def underway : List (List α) → Nat → Nat × Nat
  | [], _ => (0, 0)
  | b :: bs, n =>
      if n = 0 then (0, 0)
      else if n < b.length then (n, b.length - n)
      else underway bs (n - b.length)

@[simp] theorem underway_zero (bs : List (List α)) : underway bs 0 = (0, 0) := by
  cases bs <;> rfl

/-- Positions after the blocks `ds`. -/
theorem underway_append {ds : List (List α)} (hds : ∀ d ∈ ds, d ≠ []) (bs : List (List α))
    (n : Nat) : underway (ds ++ bs) (ds.flatten.length + n) = underway bs n := by
  induction ds with
  | nil => simp
  | cons d ds ih =>
      have hd : 0 < d.length := List.length_pos_iff.mpr (hds d (by simp))
      rw [List.cons_append, List.flatten_cons, List.length_append, underway,
        if_neg (by omega), if_neg (by omega),
        ← ih fun e he => hds e (List.mem_cons_of_mem _ he)]
      congr 1
      omega

/-- The position in the stream `bs` where the block `c` is under way and the blocks `next`
are still to come. -/
structure At (bs : List (List α)) (n : Nat) (c : Option (Carry α)) (next : List (List α)) :
    Prop where
  ne : ∀ b ∈ bs, b ≠ []
  split : ∃ before, bs = before ++ ((c.map Carry.block).toList ++ next) ∧
    n = before.flatten.length + (c.map Carry.sent).getD 0

/-- The stream at its beginning: nothing is under way and all the blocks are to come. -/
theorem at_zero {bs : List (List α)} (hne : ∀ b ∈ bs, b ≠ []) : At bs 0 none bs where
  ne := hne
  split := ⟨[], by simp⟩

/-- The numbers that `underway` computes from the position are those of the block under way, or
zeros between two blocks. Cases on whether there is one. -/
theorem At.underway {bs next : List (List α)} {n : Nat} {c : Option (Carry α)}
    (h : At bs n c next) :
    Framing.underway bs n = ((c.map Carry.sent).getD 0, (c.map fun c => c.rest.length).getD 0) := by
  obtain ⟨before, rfl, rfl⟩ := h.split
  rw [underway_append fun b hb => h.ne b (List.mem_append_left _ hb)]
  cases c with
  | none => simp
  | some c =>
      have hpos := c.sent_pos
      have hlt := c.sent_lt
      simp only [Option.map_some, Option.getD_some, Option.toList_some, List.singleton_append,
        Framing.underway, Carry.length_rest]
      rw [if_neg (by omega), if_pos hlt]

/-- A block that is still to come is one of the stream. -/
theorem At.mem {bs next : List (List α)} {n : Nat} {c : Option (Carry α)} (h : At bs n c next)
    {b : List α} (hb : b ∈ next) : b ∈ bs := by
  obtain ⟨before, hbs, -⟩ := h.split
  rw [hbs]
  simp [hb]

/-- Where no element is left, no block is under way and none is to come: a block under way owes an
element, and no block is empty. -/
theorem At.ended {bs next : List (List α)} {n : Nat} {c : Option (Carry α)} (h : At bs n c next)
    (hflat : (c.map Carry.rest).getD [] ++ next.flatten = []) : c = none ∧ next = [] := by
  obtain ⟨hrest, hnext⟩ := List.append_eq_nil_iff.mp hflat
  constructor
  · cases c with
    | none => rfl
    | some c =>
        have hlen : c.rest.length = 0 := List.length_eq_zero_iff.mpr hrest
        have hpos := c.rest_pos
        rw [Carry.length_rest] at hlen
        omega
  · cases next with
    | nil => rfl
    | cons b next =>
        have hb := h.ne b (h.mem List.mem_cons_self)
        exact absurd (List.flatten_eq_nil_iff.mp hnext b List.mem_cons_self) hb

/-- Blocks from the beginning of a block on, cut after the elements `q`. Induction on the
blocks. -/
theorem exists_blocks {bs : List (List α)} :
    ∀ {q y : List α}, (∀ b ∈ bs, b ≠ []) → q ++ y = bs.flatten →
      ∃ (whole : List (List α)) (next : Option (Carry α)) (after : List (List α)),
        q = whole.flatten ++ (next.map Carry.front).getD [] ∧
        y = (next.map Carry.rest).getD [] ++ after.flatten ∧
        bs = whole ++ ((next.map Carry.block).toList ++ after) := by
  induction bs with
  | nil =>
      intro q y _ h
      obtain ⟨rfl, rfl⟩ := List.append_eq_nil_iff.mp h
      exact ⟨[], none, [], rfl, rfl, rfl⟩
  | cons b bs ih =>
      intro q y hne h
      have hb := hne b (by simp)
      rw [List.flatten_cons] at h
      rcases Nat.lt_or_ge q.length b.length with hlt | hge
      · have hq : q = b.take q.length := by
          have := congrArg (List.take q.length) h
          rwa [List.take_left, List.take_append_of_le_length (by omega)] at this
        have hy : y = b.drop q.length ++ bs.flatten := by
          have := congrArg (List.drop q.length) h
          rwa [List.drop_left, List.drop_append_of_le_length (by omega)] at this
        rcases Nat.eq_zero_or_pos q.length with h0 | hpos
        · -- The cut is at the beginning of `b`.
          refine ⟨[], none, b :: bs, ?_, ?_, rfl⟩
          · simpa using h0
          · rw [hy, h0]
            simp
        · exact ⟨[], some ⟨b, q.length, hpos, hlt⟩, bs, hq, hy, rfl⟩
      · have hq : q = b ++ q.drop b.length := by
          have := congrArg (List.take b.length) h
          rw [List.take_left, List.take_append_of_le_length hge] at this
          calc q = q.take b.length ++ q.drop b.length := (List.take_append_drop _ _).symm
            _ = b ++ q.drop b.length := by rw [this]
        have hrest : q.drop b.length ++ y = bs.flatten := by
          have := congrArg (List.drop b.length) h
          rwa [List.drop_left, List.drop_append_of_le_length hge] at this
        obtain ⟨whole, next, after, h1, h2, h3⟩ :=
          ih (fun c hc => hne c (List.mem_cons_of_mem _ hc)) hrest
        refine ⟨b :: whole, next, after, ?_, h2, ?_⟩
        · rw [hq, h1]
          simp
        · rw [h3]
          simp

/-- A stream that grows. Of what is owed and the new blocks `ps` the elements `d` go out, and
`rest` is nothing, or the end of the last block. -/
theorem At.extend {bs ps : List (List α)} {n : Nat} {c : Option (Carry α)}
    (h : At bs n c []) (hps : ∀ p ∈ ps, p ≠ []) {d rest : List α}
    (hd : d ++ rest = ((c.map Carry.rest).toList ++ ps).flatten)
    (hrest : rest = [] ∨ ∃ init last k, (c.map Carry.rest).toList ++ ps = init ++ [last] ∧
      rest = last.drop k ∧ 0 < k ∧ k < last.length) :
    ∃ c' : Option (Carry α), (c'.map Carry.rest).getD [] = rest ∧
      (rest = [] → c' = none) ∧ At (bs ++ ps) (n + d.length) c' [] := by
  rcases h.split with ⟨before, hbs, hn⟩
  rw [List.append_nil] at hbs
  have hne : ∀ b ∈ bs ++ ps, b ≠ [] := by
    intro b hb
    rcases List.mem_append.mp hb with hb | hb
    · exact h.ne b hb
    · exact hps b hb
  -- Where the stream was cut, and how much of it there was.
  have hlen : n + (c.map Carry.rest).toList.flatten.length = bs.flatten.length := by
    rw [hbs, hn]
    cases c with
    | none => simp
    | some c =>
        have hlt := c.sent_lt
        simp
        omega
  have hdlen := congrArg List.length hd
  rw [List.length_append, List.flatten_append, List.length_append] at hdlen
  rcases hrest with hrest | ⟨init, last, k, hms, hrest, hpos, hlt⟩
  · refine ⟨none, by simp [hrest], fun _ => rfl, hne, bs ++ ps, by simp, ?_⟩
    rw [hrest, List.length_nil] at hdlen
    rw [List.flatten_append, List.length_append, Option.map_none, Option.getD_none]
    omega
  · have hk : rest.length = last.length - k := by rw [hrest, List.length_drop]
    have hrestne : rest ≠ [] := by
      intro h0
      rw [h0, List.length_nil] at hk
      omega
    cases hps' : ps using List.reverseRecOn with
    | nil =>
        -- The block under way goes on.
        cases c with
        | none => simp [hps'] at hms
        | some c =>
            have hlast : init = [] ∧ last = c.rest := by
              rw [hps'] at hms
              cases init with
              | nil => simpa using hms.symm
              | cons a init => simp at hms
            rw [hlast.2, Carry.length_rest] at hlt
            refine ⟨some (c.more k (by omega)), ?_, fun h0 => absurd h0 hrestne, ?_, before, ?_, ?_⟩
            · rw [hrest, hlast.2]
              simp [Carry.more, Carry.rest]
            · rw [← hps']
              exact hne
            · rw [hps', hbs, List.append_assoc]
              rfl
            · rw [hps', hk, hlast.2, Carry.length_rest] at hdlen
              simp only [Option.map_some, Option.toList_some, List.flatten_cons, List.flatten_nil,
                List.append_nil, List.length_nil, Carry.length_rest] at hdlen hn ⊢
              simp only [Option.getD_some, Carry.more] at hn ⊢
              omega
    | append_singleton ps' p =>
        have hlast : init = (c.map Carry.rest).toList ++ ps' ∧ last = p := by
          rw [hps', ← List.append_assoc] at hms
          have hsplit := List.append_inj' hms rfl
          exact ⟨hsplit.1.symm, by simpa using hsplit.2.symm⟩
        refine ⟨some ⟨last, k, hpos, hlt⟩, ?_, fun h0 => absurd h0 hrestne, ?_, bs ++ ps', ?_, ?_⟩
        · rw [hrest]
          rfl
        · rw [← hps']
          exact hne
        · rw [← hlast.2]
          simp
        · have hp : p.length = last.length := by rw [hlast.2]
          rw [hps', hk] at hdlen
          simp only [List.flatten_append, List.length_append, List.flatten_cons, List.flatten_nil,
            List.length_nil, Option.map_some, Option.getD_some] at hdlen ⊢
          omega

/-- A frame without padding. -/
def Frame.Unpadded : Frame α → Prop
  | .middle _ _ _ _ => True
  | .blocks _ _ _ pad => pad = []

/-- The next `q` elements of the stream are a frame. -/
theorem At.frame {bs next : List (List α)} {n : Nat} {c : Option (Carry α)} (h : At bs n c next)
    {q y : List α} (hq : q ≠ [])
    (hqy : q ++ y = (c.map Carry.rest).getD [] ++ next.flatten) :
    ∃ (f : Frame α) (next' : List (List α)), f.before = c ∧ f.payload = q ∧ f.Unpadded ∧
      f.begun ++ next' = next ∧ y = (f.after.map Carry.rest).getD [] ++ next'.flatten ∧
      At bs (n + q.length) f.after next' := by
  obtain ⟨before, hbs, hn⟩ := h.split
  have hpos := List.length_pos_iff.mpr hq
  have hblocks : ∀ x, x ++ y = next.flatten → (c.map Carry.rest).getD [] ++ x = q →
      ∃ (f : Frame α) (next' : List (List α)), f.before = c ∧ f.payload = q ∧ f.Unpadded ∧
        f.begun ++ next' = next ∧ y = (f.after.map Carry.rest).getD [] ++ next'.flatten ∧
        At bs (n + q.length) f.after next' := by
    intro x hx hcx
    obtain ⟨whole, carry, after, h1, h2, h3⟩ := exists_blocks (fun b hb => h.ne b (h.mem hb)) hx
    refine ⟨.blocks c whole carry [], after, rfl, ?_, rfl, ?_, h2, h.ne,
      before ++ ((c.map Carry.block).toList ++ whole), ?_, ?_⟩
    · rw [Frame.payload, ← h1, hcx]
    · rw [h3, Frame.begun, List.append_assoc]
    · rw [hbs, h3]
      simp [Frame.after]
    · have hlen := congrArg List.length hcx
      have hlen1 := congrArg List.length h1
      rw [List.length_append] at hlen hlen1
      have hfront : ((carry.map Carry.front).getD []).length = (carry.map Carry.sent).getD 0 := by
        cases carry with
        | none => rfl
        | some d => exact d.length_front
      have hblock : (c.map Carry.sent).getD 0 + ((c.map Carry.rest).getD []).length =
          (c.map Carry.block).toList.flatten.length := by
        cases c with
        | none => rfl
        | some d =>
            have hlt := d.sent_lt
            simp
            omega
      rw [hn, ← hlen, hlen1, hfront]
      simp only [List.flatten_append, List.length_append, Frame.after]
      omega
  cases c with
  | none => exact hblocks q hqy rfl
  | some c =>
      simp only [Option.map_some, Option.getD_some] at hqy
      rcases Nat.lt_or_ge q.length c.rest.length with hlt | hge
      · -- A middle piece.
        have hq' : q = c.rest.take q.length := by
          have := congrArg (List.take q.length) hqy
          rwa [List.take_left, List.take_append_of_le_length (by omega)] at this
        have hy : y = c.rest.drop q.length ++ next.flatten := by
          have := congrArg (List.drop q.length) hqy
          rwa [List.drop_left, List.drop_append_of_le_length (by omega)] at this
        rw [Carry.length_rest] at hlt
        have hmore : c.sent + q.length < c.block.length := by omega
        refine ⟨.middle c q.length hpos hmore, next, rfl, hq'.symm, trivial, rfl, ?_, h.ne, before,
          ?_, ?_⟩
        · rw [hy]
          simp [Frame.after, Carry.more, Carry.rest, List.drop_drop]
        · exact hbs
        · rw [hn]
          simp [Frame.after, Carry.more, Nat.add_assoc]
      · have hq' : q = c.rest ++ q.drop c.rest.length := by
          have := congrArg (List.take c.rest.length) hqy
          rw [List.take_left, List.take_append_of_le_length hge] at this
          calc q = q.take c.rest.length ++ q.drop c.rest.length :=
                (List.take_append_drop _ _).symm
            _ = c.rest ++ q.drop c.rest.length := by rw [this]
        have hx : q.drop c.rest.length ++ y = next.flatten := by
          have := congrArg (List.drop c.rest.length) hqy
          rwa [List.drop_left, List.drop_append_of_le_length hge] at this
        exact hblocks _ hx hq'.symm

/-! ### The channel -/

/-- The receiver's side of the channel: the number of the next frame, the block held, and
the blocks delivered so far. -/
structure Chan (α : Type) where
  num : Nat
  held : Option (Carry α)
  out : List (List α)

/-- The channel before the first frame. -/
def Chan.init : Chan α := ⟨0, none, []⟩

/-- One frame passes, and arrives when `acc` says so for its number. -/
def Chan.pass (acc : Nat → Bool) (s : Chan α) (k : Cut α) : Chan α :=
  if acc s.num then
    let r := k.frame.receive s.held
    ⟨s.num + 1, r.1, s.out ++ r.2⟩
  else
    ⟨s.num + 1, none, s.out⟩

/-- The receiver's side after all the cuts. -/
def channel (acc : Nat → Bool) (ks : List (Cut α)) : Chan α :=
  ks.foldl (Chan.pass acc) Chan.init

@[simp] theorem channel_nil (acc : Nat → Bool) : channel acc ([] : List (Cut α)) = Chan.init :=
  rfl

/-- The receiver after one more frame, which the inductions at the end of the cuts rewrite with. -/
theorem channel_concat (acc : Nat → Bool) (ks : List (Cut α)) (k : Cut α) :
    channel acc (ks ++ [k]) = (channel acc ks).pass acc k := by
  simp [channel]

/-- The receiver numbers every frame sent, those that did not arrive too. -/
@[simp] theorem channel_num (acc : Nat → Bool) (ks : List (Cut α)) :
    (channel acc ks).num = ks.length := by
  induction ks using List.reverseRecOn with
  | nil => rfl
  | append_singleton ks k ih =>
      rw [channel_concat, Chan.pass]
      split <;> simp [ih]

/-- Only the verdicts on the frames sent matter. -/
theorem channel_congr {acc acc' : Nat → Bool} {ks : List (Cut α)}
    (h : ∀ i < ks.length, acc i = acc' i) : channel acc ks = channel acc' ks := by
  induction ks using List.reverseRecOn with
  | nil => rfl
  | append_singleton ks k ih =>
      have hprev : channel acc ks = channel acc' ks :=
        ih fun i hi => h i (by simp only [List.length_append]; omega)
      rw [channel_concat, channel_concat, hprev, Chan.pass, Chan.pass, channel_num,
        h ks.length (by simp)]

/-- A stretch of frames none of which arrives delivers nothing. -/
theorem channel_out_skip {acc : Nat → Bool} {ks ls : List (Cut α)}
    (h : ∀ i, ks.length ≤ i → i < ks.length + ls.length → acc i = false) :
    (channel acc (ks ++ ls)).out = (channel acc ks).out := by
  induction ls using List.reverseRecOn with
  | nil => simp
  | append_singleton ls l ih =>
      rw [← List.append_assoc, channel_concat, Chan.pass, channel_num,
        h (ks ++ ls).length (by simp) (by simp), if_neg (by simp)]
      exact ih fun i h1 h2 => h i h1 (by simp only [List.length_append]; omega)

/-- Nothing is held after a frame that did not arrive. -/
theorem channel_held_skip {acc : Nat → Bool} {ks : List (Cut α)} {k : Cut α}
    (h : acc ks.length = false) : (channel acc (ks ++ [k])).held = none := by
  rw [channel_concat, Chan.pass, channel_num, h]
  rfl

/-! ### The ledger -/

/-- What became of one block: the numbers of the frames that carried it, and whether its
last element has gone out. -/
structure Shipment (α : Type) where
  block : List α
  carriers : List Nat
  complete : Bool

/-- The blocks taken so far, in order. The one under way, if any, is the last of them and
is kept apart. -/
structure Ledger (α : Type) where
  num : Nat
  closed : List (Shipment α)
  under : Option (Shipment α)

namespace Ledger

/-- The ledger before the first frame. -/
def init : Ledger α := ⟨0, [], none⟩

/-- Enter one cut: first the frame, then, if it did not leave, the block under way is
given up. -/
def enter (L : Ledger α) (k : Cut α) : Ledger α :=
  let sent : Ledger α :=
    match k.frame with
    | .middle _ _ _ _ =>
        { L with under := L.under.map fun s => { s with carriers := s.carriers ++ [L.num] } }
    | .blocks _ whole next _ =>
        { L with
          closed := L.closed
            ++ (L.under.map fun s =>
                { s with carriers := s.carriers ++ [L.num], complete := true }).toList
            ++ whole.map fun b => ⟨b, [L.num], true⟩
          under := next.map fun c => ⟨c.block, [L.num], false⟩ }
  if k.left then { sent with num := L.num + 1 }
  else { num := L.num + 1, closed := sent.closed ++ sent.under.toList, under := none }

/-- Every block taken so far, in order. -/
def shipments (L : Ledger α) : List (Shipment α) := L.closed ++ L.under.toList

end Ledger

/-- The ledger after all the cuts. -/
def ledger (ks : List (Cut α)) : Ledger α := ks.foldl Ledger.enter Ledger.init

/-- The ledger after one more cut, as `channel_concat` for the receiver. -/
theorem ledger_concat (ks : List (Cut α)) (k : Cut α) :
    ledger (ks ++ [k]) = (ledger ks).enter k := by
  simp [ledger]

/-- Entering a cut adds the blocks that begin in it. -/
theorem shipments_enter (L : Ledger α) (k : Cut α) :
    (L.enter k).shipments.map Shipment.block = L.shipments.map Shipment.block ++ k.frame.begun := by
  obtain ⟨num, closed, under⟩ := L
  obtain ⟨frame, left⟩ := k
  cases frame with
  | middle c n pos h =>
      cases under <;> cases left <;> simp [Ledger.enter, Ledger.shipments, Frame.begun]
  | blocks owed whole next pad =>
      have hwhole : (whole.map fun b => (⟨b, [num], true⟩ : Shipment α)).map Shipment.block
          = whole := by
        rw [List.map_map]
        exact List.map_id whole
      cases under <;> cases left <;> cases next <;>
        simp [Ledger.enter, Ledger.shipments, Frame.begun, hwhole]

/-- The blocks of the ledger are those that begin in the frames. -/
theorem ledger_blocks (ks : List (Cut α)) :
    (ledger ks).shipments.map Shipment.block = (ks.map fun k => k.frame.begun).flatten := by
  induction ks using List.reverseRecOn with
  | nil => rfl
  | append_singleton ks k ih => simp [ledger_concat, shipments_enter, ih]

/-- A shipment arrived: the block is complete and all its frames arrived. -/
def Shipment.arrived (acc : Nat → Bool) (s : Shipment α) : Bool :=
  s.complete && s.carriers.all acc

/-- The blocks of the shipments that arrived. -/
def arrivals (acc : Nat → Bool) (ss : List (Shipment α)) : List (List α) :=
  (ss.filter (Shipment.arrived acc)).map Shipment.block

/-- The shipments that arrived, a part of the ledger at a time. -/
theorem arrivals_append (acc : Nat → Bool) (ss ts : List (Shipment α)) :
    arrivals acc (ss ++ ts) = arrivals acc ss ++ arrivals acc ts := by
  simp [arrivals]

/-! ### The channel delivers what the ledger says arrived -/

/-- The invariant that ties the two sides after the cuts `ks`. Everything delivered is a
closed shipment that arrived. The receiver holds the block under way exactly when every
frame that has carried it so far arrived. -/
structure Tied (acc : Nat → Bool) (ks : List (Cut α)) : Prop where
  num : (ledger ks).num = ks.length
  out : (channel acc ks).out = arrivals acc (ledger ks).closed
  block : (ledger ks).under.map Shipment.block = (carryAfter none ks).map Carry.block
  open_ : ∀ u, (ledger ks).under = some u → u.complete = false
  held : (channel acc ks).held =
    (ledger ks).under.bind fun u => if u.carriers.all acc then carryAfter none ks else none

/-- Before the first cut, nothing is delivered, under way or held. -/
theorem tied_nil (acc : Nat → Bool) : Tied acc ([] : List (Cut α)) where
  num := rfl
  out := rfl
  block := rfl
  open_ := by simp [ledger, Ledger.init]
  held := rfl

/-- A shipment with one frame arrived exactly when that frame did. -/
theorem arrivals_map_whole (acc : Nat → Bool) (n : Nat) (whole : List (List α)) :
    arrivals acc (whole.map fun b => (⟨b, [n], true⟩ : Shipment α))
      = if acc n then whole else [] := by
  induction whole with
  | nil => simp [arrivals]
  | cons b whole ih =>
      rw [List.map_cons, ← List.singleton_append, arrivals_append, ih]
      cases h : acc n <;> simp [arrivals, Shipment.arrived, h]

/-- One more cut keeps the invariant. The two kinds of frame are the two cases; in each,
the frame arrives or not, and leaves or not. -/
theorem Tied.step {acc : Nat → Bool} {ks : List (Cut α)} {k : Cut α} (h : Tied acc ks)
    (hchain : k.frame.before = carryAfter none ks) (hacc : acc ks.length = true → k.left = true) :
    Tied acc (ks ++ [k]) := by
  obtain ⟨hnum, hout, hblock, hopen, hheld⟩ := h
  obtain ⟨frame, left⟩ := k
  cases frame with
  | middle c n pos hlt =>
      -- The block under way goes on: its shipment gets one more carrier.
      simp only [Frame.before] at hchain
      rw [← hchain] at hblock hheld
      obtain ⟨u, hu, hub⟩ : ∃ u, (ledger ks).under = some u ∧ u.block = c.block := by
        simpa using hblock
      have hcomplete := hopen u hu
      constructor
      · simp only [ledger_concat, Ledger.enter, hnum, List.length_append, List.length_singleton]
        split <;> rfl
      · rw [ledger_concat, channel_concat, Chan.pass, channel_num]
        cases left with
        | true =>
            simp only [Ledger.enter, if_true, Frame.receive, List.append_nil]
            split <;> exact hout
        | false =>
            have hno : acc ks.length = false := by simpa using hacc
            simp [Ledger.enter, hno, hu, hout, arrivals, Shipment.arrived, hcomplete]
      · cases left <;> simp [ledger_concat, Ledger.enter, hu, hub, Cut.carry, Frame.after,
          Carry.more]
      · intro v hv
        cases left with
        | false => simp [ledger_concat, Ledger.enter] at hv
        | true =>
            simp only [ledger_concat, Ledger.enter, hu, if_true, Option.map_some,
              Option.some.injEq] at hv
            rw [← hv]
            exact hcomplete
      · rw [ledger_concat, channel_concat, Chan.pass, channel_num, carryAfter_concat]
        cases left with
        | false =>
            have hno : acc ks.length = false := by simpa using hacc
            simp [Ledger.enter, hno]
        | true =>
            rw [hu] at hheld
            simp only [Option.bind_some] at hheld
            simp only [Ledger.enter, if_true, hu, Option.map_some, Option.bind_some, hnum,
              List.all_append, List.all_cons, List.all_nil, Bool.and_true, Cut.carry,
              Frame.after, Frame.receive, hheld]
            cases acc ks.length <;> cases u.carriers.all acc <;> simp
  | blocks owed whole next pad =>
      -- The block under way is closed, the whole blocks are closed at once.
      simp only [Frame.before] at hchain
      rw [← hchain] at hblock hheld
      constructor
      · simp only [ledger_concat, Ledger.enter, hnum, List.length_append, List.length_singleton]
        split <;> rfl
      · have hclosed : arrivals acc ((ledger ks).closed
            ++ ((ledger ks).under.map fun s =>
                { s with carriers := s.carriers ++ [(ledger ks).num], complete := true }).toList
            ++ whole.map fun b => ⟨b, [(ledger ks).num], true⟩)
            = (channel acc (ks ++ [⟨.blocks owed whole next pad, left⟩])).out := by
          rw [channel_concat, Chan.pass, channel_num, arrivals_append, arrivals_append,
            arrivals_map_whole, ← hout, hnum]
          cases hu : (ledger ks).under with
          | none =>
              have howed : owed = none := by simpa [hu] using hblock.symm
              cases acc ks.length <;> simp [howed, Frame.receive, arrivals]
          | some u =>
              rw [hu] at hblock
              obtain ⟨c, rfl, hcb⟩ := Option.map_eq_some_iff.mp hblock.symm
              rw [hu] at hheld
              simp only [Option.bind_some] at hheld
              cases hacc' : acc ks.length <;> cases hall : u.carriers.all acc <;>
                simp [Frame.receive, arrivals, Shipment.arrived, hacc', hall, hheld, hcb]
        rw [ledger_concat, ← hclosed]
        cases left with
        | true => simp [Ledger.enter]
        | false =>
            cases next <;> simp [Ledger.enter, arrivals, Shipment.arrived]
      · cases left <;> cases next <;>
          simp [ledger_concat, Ledger.enter, Cut.carry, Frame.after]
      · intro v hv
        cases left <;> cases next <;> simp [ledger_concat, Ledger.enter] at hv
        rw [← hv]
      · rw [ledger_concat, channel_concat, Chan.pass, channel_num, carryAfter_concat]
        cases left with
        | false =>
            have hno : acc ks.length = false := by simpa using hacc
            simp [Ledger.enter, hno]
        | true =>
            cases next <;> cases hacc' : acc ks.length <;>
              simp [Ledger.enter, Frame.receive, Cut.carry, Frame.after, hnum, hacc']

/-- The invariant holds after any chained cuts, when only frames that left arrive. -/
theorem tied_of_chained {acc : Nat → Bool} {ks : List (Cut α)} (hchain : Chained none ks)
    (hacc : ∀ i k, ks[i]? = some k → acc i = true → k.left = true) : Tied acc ks := by
  induction ks using List.reverseRecOn with
  | nil => exact tied_nil acc
  | append_singleton ks k ih =>
      obtain ⟨hks, hk⟩ := chained_append.mp hchain
      refine (ih hks fun i l hl => hacc i l ?_).step hk.1 (hacc ks.length k (by simp))
      rw [List.getElem?_append_left (List.getElem?_eq_some_iff.mp hl).1, hl]

/-- The channel delivers exactly the blocks that are complete and all of whose frames
arrived, in the order taken. -/
theorem channel_out {acc : Nat → Bool} {ks : List (Cut α)} (hchain : Chained none ks)
    (hacc : ∀ i k, ks[i]? = some k → acc i = true → k.left = true) :
    (channel acc ks).out = arrivals acc (ledger ks).shipments := by
  have h := tied_of_chained hchain hacc
  rw [h.out, Ledger.shipments, arrivals_append]
  cases hu : (ledger ks).under with
  | none => simp [arrivals]
  | some u => simp [arrivals, Shipment.arrived, h.open_ u hu]

/-- Where every frame leaves, the blocks that are closed are complete, and the frames that carried
a block are among the frames so far. -/
theorem ledger_left {ks : List (Cut α)} (hleft : ∀ k ∈ ks, k.left = true) :
    (ledger ks).num = ks.length ∧
      (∀ s ∈ (ledger ks).closed, s.complete = true ∧ ∀ n ∈ s.carriers, n < ks.length) ∧
      ∀ s ∈ (ledger ks).under, ∀ n ∈ s.carriers, n < ks.length := by
  induction ks using List.reverseRecOn with
  | nil => simp [ledger, Ledger.init]
  | append_singleton ks k ih =>
      obtain ⟨hnum, hclosed, hunder⟩ := ih fun l hl => hleft l (List.mem_append_left _ hl)
      have hk : k.left = true := hleft k (by simp)
      have hclosed' : ∀ s ∈ (ledger ks).closed, s.complete = true ∧
          ∀ n ∈ s.carriers, n < ks.length + 1 := fun s hs =>
        ⟨(hclosed s hs).1, fun n hn => Nat.lt_succ_of_lt ((hclosed s hs).2 n hn)⟩
      have hmore : ∀ s ∈ (ledger ks).under, ∀ n ∈ s.carriers ++ [ks.length], n < ks.length + 1 := by
        intro s hs n hn
        rcases List.mem_append.mp hn with hn | hn
        · exact Nat.lt_succ_of_lt (hunder s hs n hn)
        · rw [List.mem_singleton.mp hn]
          exact Nat.lt_succ_self _
      -- A frame in the middle of a block adds its number to the block. One at the end of it closes
      -- the block, and those that begin and end in it, and opens the next.
      obtain ⟨frame, left⟩ := k
      obtain rfl : left = true := hk
      rw [ledger_concat, List.length_append, List.length_singleton]
      cases frame with
      | middle c n pos h =>
          simp only [Ledger.enter, if_true, hnum]
          refine ⟨trivial, hclosed', ?_⟩
          intro s hs
          obtain ⟨u, hu, rfl⟩ := Option.map_eq_some_iff.mp hs
          exact hmore u hu
      | blocks owed whole next pad =>
          simp only [Ledger.enter, if_true, hnum]
          refine ⟨trivial, ?_, ?_⟩
          · intro s hs
            rcases List.mem_append.mp hs with hs | hs
            · rcases List.mem_append.mp hs with hs | hs
              · exact hclosed' s hs
              · obtain ⟨u, hu, rfl⟩ := Option.map_eq_some_iff.mp (Option.mem_toList.mp hs)
                exact ⟨rfl, hmore u hu⟩
            · obtain ⟨b, -, rfl⟩ := List.mem_map.mp hs
              simp
          · intro s hs
            obtain ⟨c, -, rfl⟩ := Option.map_eq_some_iff.mp hs
            simp

/-- Where every frame leaves and arrives, and no block is under way at the end, all the blocks
arrive. -/
theorem arrivals_all {acc : Nat → Bool} {ks : List (Cut α)} (hchain : Chained none ks)
    (hleft : ∀ k ∈ ks, k.left = true) (hend : carryAfter none ks = none)
    (hacc : ∀ n < ks.length, acc n = true) :
    arrivals acc (ledger ks).shipments = (ledger ks).shipments.map Shipment.block := by
  have htied := tied_of_chained hchain fun i k hk (_ : acc i = true) =>
    hleft k (List.mem_of_getElem? hk)
  have hnone : (ledger ks).under = none := by
    have hblock := htied.block
    rw [hend] at hblock
    exact Option.map_eq_none_iff.mp hblock
  obtain ⟨-, hclosed, -⟩ := ledger_left hleft
  have hall : (ledger ks).closed.filter (Shipment.arrived acc) = (ledger ks).closed := by
    apply List.filter_eq_self.mpr
    intro s hs
    obtain ⟨hcomplete, hcarriers⟩ := hclosed s hs
    rw [Shipment.arrived, hcomplete, Bool.true_and, List.all_eq_true]
    exact fun n hn => hacc n (hcarriers n hn)
  rw [Ledger.shipments, hnone, Option.toList_none, List.append_nil, arrivals, hall]

/-- The block held when a frame comes: the one that the frame goes on with, or none. -/
theorem channel_held (acc : Nat → Bool) {ks ls : List (Cut α)} {k : Cut α}
    (hchain : Chained none (ks ++ k :: ls))
    (hacc : ∀ i l, ks[i]? = some l → acc i = true → l.left = true) :
    (channel acc ks).held = none ∨ (channel acc ks).held = k.frame.before := by
  obtain ⟨hks, hk⟩ := chained_append.mp hchain
  rw [(tied_of_chained hks hacc).held, hk.1]
  cases (ledger ks).under with
  | none => exact .inl rfl
  | some u =>
      by_cases hall : u.carriers.all acc = true
      · right
        rw [Option.bind_some, if_pos hall]
      · left
        rw [Option.bind_some, if_neg hall]

/-- A stretch of frames none of which arrives loses the block held. -/
theorem channel_held_lost {acc : Nat → Bool} {ks ls : List (Cut α)} (hne : ls ≠ [])
    (h : ∀ i, ks.length ≤ i → i < ks.length + ls.length → acc i = false) :
    (channel acc (ks ++ ls)).held = none := by
  rw [← List.dropLast_concat_getLast hne, ← List.append_assoc]
  apply channel_held_skip
  have hpos := List.length_pos_iff.mpr hne
  exact h _ (by simp) (by simp only [List.length_append, List.length_dropLast]; omega)

/-! ### How many frames a block takes -/

namespace Ledger

/-- How many frames have carried the block under way, if all of them arrived. It is zero when
the receiver holds no block. -/
def aboard (acc : Nat → Bool) (L : Ledger α) : Nat :=
  match L.under with
  | some u => if u.carriers.all acc then u.carriers.length else 0
  | none => 0

/-- What a cut does to a shipment. A block that is closed stays as it is, the one under way gets
one more carrier, and the others begin in the frame. A block that gets this carrier and is not
complete then is under way, or given up because the frame did not leave. -/
theorem mem_shipments_enter {L : Ledger α} {k : Cut α} {S : Shipment α}
    (hS : S ∈ (L.enter k).shipments) : S ∈ L.closed ∨
      (∃ us, (us = [] ∨ ∃ u, L.under = some u ∧ us = u.carriers) ∧ S.carriers = us ++ [L.num] ∧
        (S.complete = false → (∃ u, L.under = some u ∧ u.complete = true) ∨ k.left = false ∨
          (L.enter k).under = some S)) := by
  obtain ⟨num, closed, under⟩ := L
  obtain ⟨frame, left⟩ := k
  cases frame with
  | middle c n pos h =>
      cases under with
      | none => cases left <;> simp_all [Ledger.enter, Ledger.shipments]
      | some u =>
          have hcase : S ∈ closed ∨ S = { u with carriers := u.carriers ++ [num] } := by
            cases left <;> simpa [Ledger.enter, Ledger.shipments] using hS
          refine hcase.imp_right fun h => ?_
          subst h
          refine ⟨u.carriers, .inr ⟨u, rfl, rfl⟩, rfl, fun _ => ?_⟩
          cases left <;> simp [Ledger.enter]
  | blocks owed whole next pad =>
      have hcase : S ∈ closed ∨
          (∃ u, under = some u ∧ S = { u with carriers := u.carriers ++ [num], complete := true }) ∨
          (∃ b ∈ whole, S = ⟨b, [num], true⟩) ∨
          ∃ c, next = some c ∧ S = ⟨c.block, [num], false⟩ := by
        cases left <;> cases under <;> cases next <;>
          simp_all [Ledger.enter, Ledger.shipments, eq_comm]
      refine hcase.imp_right fun h => ?_
      rcases h with ⟨u, rfl, rfl⟩ | ⟨b, -, rfl⟩ | ⟨c, rfl, rfl⟩
      · exact ⟨u.carriers, .inr ⟨u, rfl, rfl⟩, rfl, by simp⟩
      · exact ⟨[], .inl rfl, rfl, by simp⟩
      · refine ⟨[], .inl rfl, rfl, fun _ => ?_⟩
        cases left <;> simp [Ledger.enter]

/-- The block under way after a cut: it was under way before, or it begins in the frame. -/
theorem under_enter {L : Ledger α} {k : Cut α} {u : Shipment α} (hu : (L.enter k).under = some u) :
    k.left = true ∧ ∃ us, u.carriers = us ++ [L.num] ∧
      (us = [] ∧ u.complete = false ∨
        ∃ v, L.under = some v ∧ us = v.carriers ∧ u.complete = v.complete) := by
  obtain ⟨num, closed, under⟩ := L
  obtain ⟨frame, left⟩ := k
  cases left with
  | false => simp [Ledger.enter] at hu
  | true =>
      refine ⟨rfl, ?_⟩
      cases frame with
      | middle c n pos h =>
          simp only [Ledger.enter, if_true] at hu
          obtain ⟨v, rfl, rfl⟩ := Option.map_eq_some_iff.mp hu
          exact ⟨v.carriers, rfl, .inr ⟨v, rfl, rfl, rfl⟩⟩
      | blocks owed whole next pad =>
          simp only [Ledger.enter, if_true] at hu
          obtain ⟨c, -, rfl⟩ := Option.map_eq_some_iff.mp hu
          exact ⟨[], rfl, .inl ⟨rfl, rfl⟩⟩

/-- Every block that is there before a cut is there after it, with the same carriers, or, where
it was under way, with one more. -/
theorem exists_shipment_enter {L : Ledger α} (k : Cut α) {S : Shipment α}
    (hS : S ∈ L.shipments) :
    ∃ S' ∈ (L.enter k).shipments, S' = S ∨ S'.carriers = S.carriers ++ [L.num] := by
  obtain ⟨num, closed, under⟩ := L
  obtain ⟨frame, left⟩ := k
  rcases List.mem_append.mp hS with hS | hS
  · refine ⟨S, ?_, .inl rfl⟩
    cases frame <;> cases left <;> simp [Ledger.enter, Ledger.shipments, show S ∈ closed from hS]
  · obtain rfl : under = some S := by simpa using hS
    cases frame with
    | middle c n pos h =>
        refine ⟨{ S with carriers := S.carriers ++ [num] }, ?_, .inr rfl⟩
        cases left <;> simp [Ledger.enter, Ledger.shipments]
    | blocks owed whole next pad =>
        refine ⟨{ S with carriers := S.carriers ++ [num], complete := true }, ?_, .inr rfl⟩
        cases left <;> simp [Ledger.enter, Ledger.shipments]

end Ledger

/-- What holds of the ledger after any cuts. The frames that carried the block under way left,
and it is not complete. The carriers of a block come in order, and they are frames so far. -/
structure Orderly (ks : List (Cut α)) : Prop where
  num : (ledger ks).num = ks.length
  open_ : ∀ u, (ledger ks).under = some u → u.complete = false ∧
    ∀ n ∈ u.carriers, ∀ k, ks[n]? = some k → k.left = true
  sorted : ∀ S ∈ (ledger ks).shipments, S.carriers.Pairwise (· < ·) ∧
    ∀ n ∈ S.carriers, n < ks.length

/-- The block under way is one of the shipments of the ledger. -/
theorem mem_shipments_of_under {L : Ledger α} {u : Shipment α} (hu : L.under = some u) :
    u ∈ L.shipments := by
  rw [Ledger.shipments, hu]
  simp

/-- The ledger of any cuts is orderly. Induction on the cuts, at their end. -/
theorem orderly (ks : List (Cut α)) : Orderly ks := by
  induction ks using List.reverseRecOn with
  | nil =>
      exact ⟨rfl, by simp [ledger, Ledger.init], by simp [ledger, Ledger.init, Ledger.shipments]⟩
  | append_singleton ks k ih =>
      have hlen : (ks ++ [k]).length = ks.length + 1 := by simp
      refine ⟨?_, fun u hu => ?_, fun S hS => ?_⟩
      · rw [ledger_concat, hlen, ← ih.num, Ledger.enter]
        split <;> rfl
      · rw [ledger_concat] at hu
        obtain ⟨hleft, us, hus, hcase⟩ := Ledger.under_enter hu
        have hlast : ∀ l, (ks ++ [k])[ks.length]? = some l → l.left = true := by
          intro l hl
          rw [List.getElem?_concat_length, Option.some.injEq] at hl
          rw [← hl]
          exact hleft
        rw [hus, ih.num]
        rcases hcase with ⟨rfl, hcomplete⟩ | ⟨v, hv, rfl, hcomplete⟩
        · refine ⟨hcomplete, fun n hn => ?_⟩
          rw [List.nil_append, List.mem_singleton] at hn
          rw [hn]
          exact hlast
        · obtain ⟨hvopen, hvleft⟩ := ih.open_ v hv
          refine ⟨hcomplete.trans hvopen, fun n hn => ?_⟩
          rcases List.mem_append.mp hn with hn | hn
          · intro l hl
            have hlt := (ih.sorted v (mem_shipments_of_under hv)).2 n hn
            rw [List.getElem?_append_left hlt] at hl
            exact hvleft n hn l hl
          · rw [List.mem_singleton.mp hn]
            exact hlast
      · rw [ledger_concat] at hS
        rw [hlen]
        rcases Ledger.mem_shipments_enter hS with hS | ⟨us, hus, hcarriers, -⟩
        · obtain ⟨hsorted, hlt⟩ := ih.sorted S (List.mem_append_left _ hS)
          exact ⟨hsorted, fun n hn => Nat.lt_succ_of_lt (hlt n hn)⟩
        · -- One more carrier, with the number of this frame.
          have hbefore : us.Pairwise (· < ·) ∧ ∀ n ∈ us, n < ks.length := by
            rcases hus with rfl | ⟨u, hu, rfl⟩
            · exact ⟨.nil, by simp⟩
            · exact ih.sorted u (mem_shipments_of_under hu)
          rw [hcarriers, ih.num]
          constructor
          · rw [List.pairwise_append]
            refine ⟨hbefore.1, List.pairwise_singleton _ _, fun n hn l hl => ?_⟩
            rw [List.mem_singleton.mp hl]
            exact hbefore.2 n hn
          · intro n hn
            rcases List.mem_append.mp hn with hn | hn
            · exact Nat.lt_succ_of_lt (hbefore.2 n hn)
            · rw [List.mem_singleton.mp hn]
              exact Nat.lt_succ_self _

/-- A block goes on after its carrier at place `i`: there is another carrier, or it is not
complete and the frame left. -/
def Shipment.GoesOn (ks : List (Cut α)) (S : Shipment α) (i : Nat) : Prop :=
  i + 1 < S.carriers.length ∨
    S.complete = false ∧ ∀ n, S.carriers[i]? = some n → ∀ k, ks[n]? = some k → k.left = true

/-- The ledger right after the carrier at place `i` of a block that goes on: the block is under
way there, with the carriers up to this one. Induction on the cuts, at their end. -/
theorem under_of_shipment {ks : List (Cut α)} :
    ∀ {S : Shipment α} {i n : Nat}, S ∈ (ledger ks).shipments → S.carriers[i]? = some n →
      S.GoesOn ks i →
      ∃ u, (ledger (ks.take (n + 1))).under = some u ∧ u.carriers = S.carriers.take (i + 1) := by
  induction ks using List.reverseRecOn with
  | nil => simp [ledger, Ledger.init, Ledger.shipments]
  | append_singleton ks k ih =>
      intro S i n hS hn hgo
      have hks := orderly ks
      have hi : i < S.carriers.length := (List.getElem?_eq_some_iff.mp hn).1
      -- What is known of a block that was there before this cut.
      have hbefore : ∀ T ∈ (ledger ks).shipments, T.carriers[i]? = some n → T.GoesOn ks i →
          T.carriers.take (i + 1) = S.carriers.take (i + 1) →
          ∃ u, (ledger ((ks ++ [k]).take (n + 1))).under = some u ∧
            u.carriers = S.carriers.take (i + 1) := by
        intro T hT hTn hTgo htake
        have hlt := (hks.sorted T hT).2 n (List.mem_of_getElem? hTn)
        obtain ⟨u, hu, hcarriers⟩ := ih hT hTn hTgo
        rw [List.take_append_of_le_length (by omega)]
        exact ⟨u, hu, hcarriers.trans htake⟩
      rw [ledger_concat] at hS
      rcases Ledger.mem_shipments_enter hS with hS' | ⟨us, hus, hcarriers, hend⟩
      · -- The block was closed before.
        have hmem : S ∈ (ledger ks).shipments := List.mem_append_left _ hS'
        refine hbefore S hmem hn (hgo.imp_right fun ⟨hc, hl⟩ => ⟨hc, fun m hm l hl' => ?_⟩) rfl
        have hlt := (hks.sorted S hmem).2 m (List.mem_of_getElem? hm)
        exact hl m hm l (by rw [List.getElem?_append_left hlt]; exact hl')
      · rw [hcarriers, List.length_append, List.length_singleton] at hi
        rcases Nat.lt_or_ge i us.length with hlt | hge
        · -- The carrier was entered before, when the block was under way.
          rcases hus with rfl | ⟨u, hu, rfl⟩
          · simp at hlt
          · have hun : u.carriers[i]? = some n := by
              rw [hcarriers, List.getElem?_append_left hlt] at hn
              exact hn
            refine hbefore u (mem_shipments_of_under hu) hun (.inr ?_) ?_
            · obtain ⟨hopen, hleft⟩ := hks.open_ u hu
              exact ⟨hopen, fun m hm => hleft m (List.mem_of_getElem? hm)⟩
            · rw [hcarriers, List.take_append_of_le_length (by omega)]
        · -- The carrier is this frame.
          have hlast : i = us.length := by omega
          have hnum : n = ks.length := by
            rw [hcarriers, hlast, List.getElem?_concat_length, Option.some.injEq] at hn
            rw [← hn]
            exact hks.num
          subst hnum
          obtain ⟨hopen, hleft⟩ := hgo.resolve_left (by
            rw [hcarriers, List.length_append, List.length_singleton]
            omega)
          have hk : k.left = true := hleft ks.length hn k (by simp)
          refine ⟨S, ?_, ?_⟩
          · rw [List.take_of_length_le (by simp), ledger_concat]
            rcases hend hopen with ⟨u, hu, hcomplete⟩ | hno | hunder
            · rw [(hks.open_ u hu).1] at hcomplete
              cases hcomplete
            · rw [hk] at hno
              cases hno
            · exact hunder
          · have hlen : S.carriers.length ≤ i + 1 := by
              rw [hcarriers, List.length_append, List.length_singleton]
              omega
            rw [List.take_of_length_le hlen]

/-- The block under way after the first cuts, in the ledger of all of them: it has the same
carriers and perhaps more, and if it has no more it is not complete. Induction on the other
cuts, at their end. -/
theorem exists_shipment {ks : List (Cut α)} (ls : List (Cut α)) {u : Shipment α}
    (hu : (ledger ks).under = some u) :
    ∃ S ∈ (ledger (ks ++ ls)).shipments, u.carriers <+: S.carriers ∧
      (S.carriers = u.carriers → S.complete = false) := by
  induction ls using List.reverseRecOn with
  | nil =>
      rw [List.append_nil]
      exact ⟨u, mem_shipments_of_under hu, List.prefix_refl _, fun _ => ((orderly ks).open_ u hu).1⟩
  | append_singleton ls l ih =>
      obtain ⟨S, hS, hpre, hsame⟩ := ih
      obtain ⟨S', hS', hcase⟩ := Ledger.exists_shipment_enter l hS
      rw [← List.append_assoc, ledger_concat]
      refine ⟨S', hS', ?_⟩
      rcases hcase with rfl | hmore
      · exact ⟨hpre, hsame⟩
      · refine ⟨hmore ▸ hpre.trans (List.prefix_append _ _), fun heq => ?_⟩
        have hlen := hpre.length_le
        have hlens := congrArg List.length heq
        rw [hmore, List.length_append, List.length_singleton] at hlens
        omega

/-- What a frame that arrives makes of the count `n` of frames aboard, when `held` is the block
held before it. -/
def Frame.load (held : Option (Carry α)) (n : Nat) : Frame α → Nat
  | .middle _ _ _ _ => if held.isSome then n + 1 else 0
  | .blocks _ _ next _ => if next.isSome then 1 else 0

/-- One more cut: the count is that of its frame, if it arrives. -/
theorem aboard_concat {acc : Nat → Bool} {ks : List (Cut α)} {k : Cut α} (h : Tied acc ks)
    (hchain : k.frame.before = carryAfter none ks) (hacc : acc ks.length = true → k.left = true) :
    (ledger (ks ++ [k])).aboard acc =
      if acc ks.length then k.frame.load (channel acc ks).held ((ledger ks).aboard acc) else 0 := by
  obtain ⟨hnum, -, hblock, -, hheld⟩ := h
  obtain ⟨frame, left⟩ := k
  rw [ledger_concat, hheld]
  cases left with
  | false =>
      have hno : acc ks.length = false := by simpa using hacc
      simp [Ledger.enter, Ledger.aboard, hno]
  | true =>
      cases frame with
      | middle c n pos hlt =>
          -- The block under way is carried by one more frame.
          simp only [Frame.before] at hchain
          rw [← hchain] at hblock ⊢
          obtain ⟨u, hu, -⟩ : ∃ u, (ledger ks).under = some u ∧ u.block = c.block := by
            simpa using hblock
          simp only [Ledger.enter, Ledger.aboard, Frame.load, hu, hnum, if_true, Option.map_some,
            Option.bind_some, List.all_append, List.all_cons, List.all_nil, Bool.and_true,
            List.length_append, List.length_singleton]
          cases acc ks.length <;> cases u.carriers.all acc <;> simp
      | blocks owed whole next pad =>
          cases next <;> cases hacc' : acc ks.length <;>
            simp [Ledger.enter, Ledger.aboard, Frame.load, hnum, hacc']

/-- Nothing is aboard after a frame that did not arrive. -/
theorem aboard_skip {acc : Nat → Bool} {ks : List (Cut α)} {k : Cut α}
    (h : acc ks.length = false) : (ledger (ks ++ [k])).aboard acc = 0 := by
  rw [ledger_concat, Ledger.aboard]
  cases hu : ((ledger ks).enter k).under with
  | none => rfl
  | some u =>
      -- The frame is the last carrier of the block under way.
      obtain ⟨-, us, hus, -⟩ := Ledger.under_enter hu
      have hall : u.carriers.all acc = false := by
        rw [hus, (orderly ks).num, List.all_append]
        simp [h]
      simp [hall]

/-- A stretch of frames none of which arrives leaves nothing aboard. -/
theorem aboard_lost {acc : Nat → Bool} {ks ls : List (Cut α)} (hne : ls ≠ [])
    (h : ∀ i, ks.length ≤ i → i < ks.length + ls.length → acc i = false) :
    (ledger (ks ++ ls)).aboard acc = 0 := by
  rw [← List.dropLast_concat_getLast hne, ← List.append_assoc]
  apply aboard_skip
  have hpos := List.length_pos_iff.mpr hne
  exact h _ (by simp) (by simp only [List.length_append, List.length_dropLast]; omega)

/-- Only the verdicts on the frames sent matter. -/
theorem aboard_congr {acc acc' : Nat → Bool} {ks : List (Cut α)}
    (h : ∀ i < ks.length, acc i = acc' i) :
    (ledger ks).aboard acc = (ledger ks).aboard acc' := by
  rw [Ledger.aboard, Ledger.aboard]
  cases hu : (ledger ks).under with
  | none => rfl
  | some u =>
      have hlt := ((orderly ks).sorted u (mem_shipments_of_under hu)).2
      have hall : u.carriers.all acc = u.carriers.all acc' := by
        rw [Bool.eq_iff_iff, List.all_eq_true, List.all_eq_true]
        exact forall₂_congr fun n hn => by rw [h n (hlt n hn)]
      simp only [hall]

/-- A receiver that takes all the frames with room for `b` frames of a block: there is room
before each frame. `n` frames are aboard. -/
def Within (b : Nat) : Nat → List (Cut α) → Prop
  | _, [] => True
  | n, k :: ks => n < b ∧ Within b (k.frame.load k.frame.before n) ks

/-- The frames aboard after frames that all arrive. -/
def loadAll : Nat → List (Cut α) → Nat
  | n, [] => n
  | n, k :: ks => loadAll (k.frame.load k.frame.before n) ks

/-- There was room for each of the frames when there was for all before the last, and the last
finds fewer than `b` aboard. -/
theorem within_concat {b n : Nat} {ks : List (Cut α)} {k : Cut α} :
    Within b n (ks ++ [k]) ↔ Within b n ks ∧ loadAll n ks < b := by
  induction ks generalizing n with
  | nil => simp [Within, loadAll]
  | cons l ks ih => simp [Within, loadAll, ih, and_assoc]

/-- The frames aboard after one more frame. -/
theorem loadAll_concat (n : Nat) (ks : List (Cut α)) (k : Cut α) :
    loadAll n (ks ++ [k]) = k.frame.load k.frame.before (loadAll n ks) := by
  induction ks generalizing n with
  | nil => rfl
  | cons l ks ih => exact ih _

/-- Where every frame leaves and arrives, the receiver holds the block under way. -/
theorem held_all {ks : List (Cut α)} (hchain : Chained none ks) (hleft : ∀ k ∈ ks, k.left = true) :
    (channel (fun _ => true) ks).held = carryAfter none ks := by
  have h := tied_of_chained hchain fun i k hk (_ : true = true) => hleft k (List.mem_of_getElem? hk)
  rw [h.held]
  cases hu : (ledger ks).under with
  | none =>
      have hblock := h.block
      rw [hu] at hblock
      rw [Option.map_eq_none_iff.mp hblock.symm]
      rfl
  | some u => simp

/-- The frames aboard are those that the ledger counts. -/
theorem loadAll_eq {ks : List (Cut α)} (hchain : Chained none ks)
    (hleft : ∀ k ∈ ks, k.left = true) :
    loadAll 0 ks = (ledger ks).aboard fun _ => true := by
  induction ks using List.reverseRecOn with
  | nil => rfl
  | append_singleton ks k ih =>
      obtain ⟨hks, hk⟩ := chained_append.mp hchain
      have hleft' : ∀ l ∈ ks, l.left = true := fun l hl => hleft l (List.mem_append_left _ hl)
      have htied := tied_of_chained hks fun i l hl (_ : true = true) =>
        hleft' l (List.mem_of_getElem? hl)
      rw [loadAll_concat, aboard_concat htied hk.1 fun _ => hleft k (by simp), if_pos rfl,
        held_all hks hleft', ← hk.1, ih hks hleft']

/-- Frames that all arrive fit a receiver with room for `b` frames of a block exactly when no
block has more than `b` carriers. No block is under way at the end. -/
theorem within_iff_carriers {b : Nat} (hb : 0 < b) {ks : List (Cut α)} (hchain : Chained none ks)
    (hleft : ∀ k ∈ ks, k.left = true) (hend : carryAfter none ks = none) :
    Within b 0 ks ↔ ∀ S ∈ (ledger ks).shipments, S.carriers.length ≤ b := by
  -- Room before every frame is room after each of the first frames.
  have hpoints : ∀ ls : List (Cut α), Within b 0 ls ↔
      ∀ j < ls.length, loadAll 0 (ls.take j) < b := by
    intro ls
    induction ls using List.reverseRecOn with
    | nil => simp [Within]
    | append_singleton ls l ih =>
        rw [within_concat, ih]
        constructor
        · rintro ⟨h, hlast⟩ j hj
          rw [List.length_append, List.length_singleton] at hj
          rw [List.take_append_of_le_length (by omega)]
          rcases Nat.lt_or_ge j ls.length with hlt | hge
          · exact h j hlt
          · rwa [List.take_of_length_le hge]
        · intro h
          refine ⟨fun j hj => ?_, ?_⟩
          · have hj' := h j (by simp; omega)
            rwa [List.take_append_of_le_length (by omega)] at hj'
          · have hlast := h ls.length (by simp)
            rwa [List.take_left] at hlast
  have hcount : ∀ j, loadAll 0 (ks.take j) = (ledger (ks.take j)).aboard fun _ => true := by
    intro j
    have hsplit : ks.take j ++ ks.drop j = ks := List.take_append_drop j ks
    refine loadAll_eq (chained_append.mp (hsplit ▸ hchain)).1 fun k hk => ?_
    exact hleft k (List.mem_of_mem_take hk)
  rw [hpoints]
  constructor
  · intro h S hS
    apply Nat.not_lt.mp
    intro hlong
    -- The carrier number `b` of the block: after it the block is under way, with `b` frames.
    have hn : S.carriers[b - 1]? = some S.carriers[b - 1] :=
      List.getElem?_eq_getElem (by omega)
    obtain ⟨u, hu, hcarriers⟩ := under_of_shipment hS hn (.inl (by omega))
    have hsorted := (orderly ks).sorted S hS
    have hlater : S.carriers[b - 1] < S.carriers[b] :=
      List.pairwise_iff_getElem.mp hsorted.1 _ _ (by omega) hlong (by omega)
    have hlt := hsorted.2 _ (List.getElem_mem hlong)
    have hroom := h (S.carriers[b - 1] + 1) (by omega)
    rw [hcount, Ledger.aboard, hu] at hroom
    simp only [List.all_eq_true, implies_true, if_true, hcarriers, List.length_take] at hroom
    omega
  · intro h j hj
    rw [hcount, Ledger.aboard]
    cases hu : (ledger (ks.take j)).under with
    | none => exact hb
    | some u =>
        simp only [List.all_eq_true, implies_true, if_true]
        obtain ⟨S, hS, hpre, hsame⟩ := exists_shipment (ks.drop j) hu
        rw [List.take_append_drop] at hS
        -- The block is complete in the end, so it has one more carrier.
        have hcomplete : S.complete = true := by
          have hnone : (ledger ks).under = none := by
            have hblock := (tied_of_chained hchain fun i k hk (_ : true = true) =>
              hleft k (List.mem_of_getElem? hk)).block
            rw [hend] at hblock
            exact Option.map_eq_none_iff.mp hblock
          rw [Ledger.shipments, hnone, Option.toList_none, List.append_nil] at hS
          exact ((ledger_left hleft).2.1 S hS).1
        have hne : u.carriers.length ≠ S.carriers.length := by
          intro heq
          have hfalse := hsame (hpre.eq_of_length heq).symm
          rw [hcomplete] at hfalse
          cases hfalse
        have hle := hpre.length_le
        have hmost := h S hS
        omega

end Iptfs.Lib.Framing
