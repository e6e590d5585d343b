import Mathlib.Algebra.BigOperators.Group.Finset.Basic
import Mathlib.Algebra.Order.BigOperators.Group.Finset
import Mathlib.Data.List.Dedup
import Mathlib.Data.List.Perm.Subperm

/-!
# `Iptfs.Lib.Refcount`: a pool of buffers with reference counts

Buffers of type `β` are taken from a free list, referenced, and put back by whoever drops the
last reference. The books of such a pool are four numbers for each buffer: how often it is on
the free list, how often it is held without a reference, its reference count, and how many
references to it there are.

`Counted` says that the books balance: the reference count is the number of references, and
each buffer of the pool is on the free list, or held, or referenced, and only one of these.
The rules below are the moves that keep them balanced. Each takes the books before and after,
and what the move changes in them, with `single b` for the one buffer it is about.

* `Counted.take` and `Counted.put`: from the free list into someone's hands, and back.
* `Counted.claim`: a held buffer gets its first reference.
* `Counted.share` and `Counted.drop`: a reference more, and one less.
* `Counted.dropLast`: the last reference goes, and the buffer is held by who dropped it.

`Counted.exists_free` is the counting argument: when nothing is held and the references
reach fewer buffers than there are, some buffer is free.
-/

set_option autoImplicit false

namespace Iptfs.Lib

variable {β : Type}

/-- The books of a pool balance. `pool` is one for the buffers of the pool. -/
structure Counted (pool free held rc refs : β → Nat) : Prop where
  pool_le : ∀ b, pool b ≤ 1
  rc_eq : ∀ b, rc b = refs b
  once : ∀ b, free b + held b + min 1 (rc b) = pool b

/-- The same books. -/
theorem Counted.congr {pool free held held' rc refs refs' : β → Nat}
    (h : Counted pool free held rc refs) (hheld : ∀ b, held' b = held b)
    (hrefs : ∀ b, refs' b = refs b) : Counted pool free held' rc refs' where
  pool_le := h.pool_le
  rc_eq := by
    intro b
    rw [hrefs b]
    exact h.rc_eq b
  once := by
    intro b
    rw [hheld b]
    exact h.once b

/-- A held buffer has no references. -/
theorem Counted.rc_of_held {pool free held rc refs : β → Nat} {b : β}
    (h : Counted pool free held rc refs) (hb : 0 < held b) :
    rc b = 0 := by
  have h1 := h.once b
  have h2 := h.pool_le b
  omega

variable [DecidableEq β]

/-- One for the buffer `b`, and nothing for the others. -/
def single (b c : β) : Nat := if c = b then 1 else 0

@[simp] theorem single_self (b : β) : single b b = 1 := if_pos rfl

/-- It counts nothing for another buffer. -/
theorem single_of_ne {b c : β} (h : c ≠ b) : single b c = 0 := if_neg h

/-- One more element in front adds one reference to the buffer that it names, and none to
another. -/
theorem count_cons_single (b c : β) (l : List β) :
    (b :: l).count c = l.count c + single b c := by
  rw [List.count_cons, single]
  by_cases h : c = b
  · simp [h]
  · rw [if_neg (by simpa using Ne.symm h), if_neg h]

/-- The same for one more element at the end. -/
theorem count_concat_single (b c : β) (l : List β) :
    (l ++ [b]).count c = (l ++ []).count c + single b c := by
  rw [List.count_append, count_cons_single, List.count_nil, List.append_nil, Nat.zero_add]

section Moves

variable {pool free free' held held' rc rc' refs refs' : β → Nat} {b : β}

/-- A buffer is taken from the free list. -/
theorem Counted.take (h : Counted pool free held rc refs)
    (hfree : ∀ c, free c = free' c + single b c) (hheld : ∀ c, held' c = held c + single b c) :
    Counted pool free' held' rc refs where
  pool_le := h.pool_le
  rc_eq := h.rc_eq
  once := by
    intro c
    have h1 := h.once c
    rw [hheld c]
    rw [hfree c] at h1
    omega

/-- A buffer is put on the free list. -/
theorem Counted.put (h : Counted pool free held rc refs)
    (hheld : ∀ c, held c = held' c + single b c) (hfree : ∀ c, free' c = free c + single b c) :
    Counted pool free' held' rc refs where
  pool_le := h.pool_le
  rc_eq := h.rc_eq
  once := by
    intro c
    have h1 := h.once c
    rw [hfree c]
    rw [hheld c] at h1
    omega

/-- A held buffer gets its first reference. -/
theorem Counted.claim (h : Counted pool free held rc refs)
    (hheld : ∀ c, held c = held' c + single b c) (hrc : ∀ c, rc' c = rc c + single b c)
    (hrefs : ∀ c, refs' c = refs c + single b c) : Counted pool free held' rc' refs' where
  pool_le := h.pool_le
  rc_eq := by
    intro c
    rw [hrc c, hrefs c, h.rc_eq c]
  once := by
    intro c
    have h1 := h.once c
    have h2 := h.pool_le c
    rw [hrc c]
    rw [hheld c] at h1
    rcases eq_or_ne c b with rfl | hc
    · rw [single_self] at *
      omega
    · rw [single_of_ne hc] at *
      omega

/-- A referenced buffer gets one more reference. -/
theorem Counted.share (h : Counted pool free held rc refs) (hb : 0 < rc b)
    (hrc : ∀ c, rc' c = rc c + single b c) (hrefs : ∀ c, refs' c = refs c + single b c) :
    Counted pool free held rc' refs' where
  pool_le := h.pool_le
  rc_eq := by
    intro c
    rw [hrc c, hrefs c, h.rc_eq c]
  once := by
    intro c
    have h1 := h.once c
    rw [hrc c]
    rcases eq_or_ne c b with rfl | hc
    · rw [single_self] at *
      omega
    · rw [single_of_ne hc] at *
      omega

/-- A reference is dropped, and others stay. -/
theorem Counted.drop (h : Counted pool free held rc refs) (hb : rc b ≠ 1)
    (hrc : ∀ c, rc c = rc' c + single b c) (hrefs : ∀ c, refs c = refs' c + single b c) :
    Counted pool free held rc' refs' where
  pool_le := h.pool_le
  rc_eq := by
    intro c
    have h1 := h.rc_eq c
    rw [hrc c, hrefs c] at h1
    omega
  once := by
    intro c
    have h1 := h.once c
    have h2 := hrc c
    rcases eq_or_ne c b with rfl | hc
    · rw [single_self] at h2
      omega
    · rw [single_of_ne hc] at h2
      rw [h2] at h1
      exact h1

/-- The last reference is dropped. -/
theorem Counted.dropLast (h : Counted pool free held rc refs) (hb : rc b = 1)
    (hrc : ∀ c, rc c = rc' c + single b c) (hrefs : ∀ c, refs c = refs' c + single b c)
    (hheld : ∀ c, held' c = held c + single b c) : Counted pool free held' rc' refs' where
  pool_le := h.pool_le
  rc_eq := by
    intro c
    have h1 := h.rc_eq c
    rw [hrc c, hrefs c] at h1
    omega
  once := by
    intro c
    have h1 := h.once c
    have h2 := hrc c
    rw [hheld c]
    rcases eq_or_ne c b with rfl | hc
    · rw [single_self] at *
      omega
    · rw [single_of_ne hc] at *
      rw [h2] at h1
      exact h1

end Moves

/-! ### Counting -/

omit [DecidableEq β] in
/-- When nothing is held, and the references reach fewer buffers than the pool has, one of
its buffers is free. -/
theorem Counted.exists_free {pool free held rc refs : β → Nat}
    (h : Counted pool free held rc refs) {all reached : List β} (hall : all.Nodup)
    (hpool : ∀ b ∈ all, pool b = 1) (hheld : ∀ b, held b = 0)
    (hreached : ∀ b, 0 < refs b → b ∈ reached) (hlen : reached.length < all.length) :
    ∃ b ∈ all, 0 < free b := by
  by_contra hno
  have hsub : all ⊆ reached := by
    intro b hb
    have h1 := h.once b
    have h2 := h.rc_eq b
    have h3 := hheld b
    have h4 := hpool b hb
    have h5 : ¬ 0 < free b := fun hf => hno ⟨b, hb, hf⟩
    exact hreached b (by omega)
  have := (hall.subperm hsub).length_le
  omega

/-- A free list is not full while one buffer of the pool is held. -/
theorem Counted.length_free_lt {pool held rc refs : β → Nat} {free : List β}
    (h : Counted pool (fun b => free.count b) held rc refs) {all : List β}
    (hpool : ∀ b, b ∈ all ↔ pool b = 1) {b : β} (hb : 0 < held b) :
    free.length < all.length := by
  have hnodup : free.Nodup := by
    rw [List.nodup_iff_count_le_one]
    intro c
    have h1 := h.once c
    have h2 := h.pool_le c
    omega
  have hnot : b ∉ free := by
    intro hmem
    have h0 := List.count_pos_iff.mpr hmem
    have h1 := h.once b
    have h2 := h.pool_le b
    omega
  have hsub : b :: free ⊆ all := by
    intro c hc
    have h1 := h.once c
    have h2 := h.pool_le c
    rw [hpool]
    rcases List.mem_cons.mp hc with rfl | hc
    · omega
    · have h0 := List.count_pos_iff.mpr hc
      omega
  exact ((List.nodup_cons.mpr ⟨hnot, hnodup⟩).subperm hsub).length_le

/-! ### Cells -/

/-- The sum over the cells `0 .. n - 1` after one of them is written. -/
theorem sum_update {α : Type} (f : α → Nat) (cell : Nat → α) {n k : Nat} (hk : k < n) (v : α) :
    (∑ i ∈ Finset.range n, f (Function.update cell k v i)) + f (cell k) =
      (∑ i ∈ Finset.range n, f (cell i)) + f v := by
  have hmem := Finset.mem_range.mpr hk
  have hnew := Finset.add_sum_erase (Finset.range n) (fun i => f (Function.update cell k v i)) hmem
  have hold := Finset.add_sum_erase (Finset.range n) (fun i => f (cell i)) hmem
  have hrest : ∑ i ∈ (Finset.range n).erase k, f (Function.update cell k v i) =
      ∑ i ∈ (Finset.range n).erase k, f (cell i) := by
    apply Finset.sum_congr rfl
    intro i hi
    rw [Function.update_of_ne (Finset.ne_of_mem_erase hi)]
  simp only [Function.update_self] at hnew
  omega

/-- A sum over cells that are bounded. -/
theorem sum_le {f : Nat → Nat} {n bound : Nat} (h : ∀ i < n, f i ≤ bound) :
    ∑ i ∈ Finset.range n, f i ≤ n * bound := by
  have hle := Finset.sum_le_card_nsmul (Finset.range n) f bound fun i hi =>
    h i (Finset.mem_range.mp hi)
  rwa [Finset.card_range, Nat.nsmul_eq_mul] at hle

end Iptfs.Lib
