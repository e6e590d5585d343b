import Mathlib.Init

/-!
# `Iptfs.Lib.Tiling`: pieces that lie end to end

A piece of a list is a place and the elements from there on. `Tiles data first ps last` says that
the pieces `ps` lie end to end in `data`, from `first` to `last`, and that none of them is empty.

* `Tiles.pairwise` and `Tiles.inside`: the pieces are in order, do not overlap, and stay between
  the two ends.
* `Tiles.flatten`: together they are all that is between the ends.
-/

set_option autoImplicit false

namespace Iptfs.Lib

variable {α : Type}

/-- The pieces lie end to end in `data`, from `first` to `last`. -/
def Tiles (data : List α) : Nat → List (Nat × List α) → Nat → Prop
  | first, [], last => first = last
  | first, p :: ps, last =>
      p.1 = first ∧ 0 < p.2.length ∧ p.2 <+: data.drop first ∧
        Tiles data (first + p.2.length) ps last

/-- No pieces cover the bytes from `first` to `first`. -/
theorem Tiles.nil (data : List α) (first : Nat) : Tiles data first [] first := rfl

/-- A piece in front: `n` elements of `data`. -/
theorem Tiles.cons {data : List α} {first n last : Nat} {ps : List (Nat × List α)} (hpos : 0 < n)
    (hn : first + n ≤ data.length) (h : Tiles data (first + n) ps last) :
    Tiles data first ((first, (data.drop first).take n) :: ps) last := by
  have hlen : ((data.drop first).take n).length = n := by
    rw [List.length_take, List.length_drop]
    omega
  refine ⟨rfl, ?_, List.take_prefix n _, ?_⟩
  · show 0 < ((data.drop first).take n).length
    rw [hlen]
    exact hpos
  · show Tiles data (first + ((data.drop first).take n).length) ps last
    rw [hlen]
    exact h

/-- Pieces go forward in the data. -/
theorem Tiles.le {data : List α} {first last : Nat} {ps : List (Nat × List α)}
    (h : Tiles data first ps last) : first ≤ last := by
  induction ps generalizing first with
  | nil => exact Nat.le_of_eq h
  | cons p ps ih =>
      obtain ⟨-, -, -, hrest⟩ := h
      exact Nat.le_trans (Nat.le_add_right _ _) (ih hrest)

/-- Every piece stays between the ends. -/
theorem Tiles.inside {data : List α} {first last : Nat} {ps : List (Nat × List α)}
    (h : Tiles data first ps last) : ∀ p ∈ ps, first ≤ p.1 ∧ p.1 + p.2.length ≤ last := by
  induction ps generalizing first with
  | nil => exact List.forall_mem_nil _
  | cons p ps ih =>
      obtain ⟨rfl, -, -, hrest⟩ := h
      intro q hq
      cases List.mem_cons.mp hq with
      | inl hp =>
          subst hp
          exact ⟨Nat.le_refl _, hrest.le⟩
      | inr hps =>
          obtain ⟨hle, hlast⟩ := ih hrest q hps
          exact ⟨Nat.le_trans (Nat.le_add_right _ _) hle, hlast⟩

/-- Each piece ends before the later ones begin. -/
theorem Tiles.pairwise {data : List α} {first last : Nat} {ps : List (Nat × List α)}
    (h : Tiles data first ps last) : ps.Pairwise fun p q => p.1 + p.2.length ≤ q.1 := by
  induction ps generalizing first with
  | nil => exact .nil
  | cons p ps ih =>
      obtain ⟨rfl, -, -, hrest⟩ := h
      exact .cons (fun q hq => (hrest.inside q hq).1) (ih hrest)

/-- The pieces together are what lies between the ends. -/
theorem Tiles.flatten {data : List α} {first last : Nat} {ps : List (Nat × List α)}
    (h : Tiles data first ps last) :
    (ps.map Prod.snd).flatten = (data.drop first).take (last - first) := by
  induction ps generalizing first with
  | nil =>
      have hends : first = last := h
      rw [hends, Nat.sub_self, List.take_zero]
      rfl
  | cons p ps ih =>
      obtain ⟨rfl, -, hprefix, hrest⟩ := h
      have hle := hrest.le
      have hsplit : last - p.1 = p.2.length + (last - (p.1 + p.2.length)) := by omega
      have htake : (data.drop p.1).take p.2.length = p.2 :=
        (List.prefix_iff_eq_take.mp hprefix).symm
      rw [List.map_cons, List.flatten_cons, ih hrest, hsplit, List.take_add, htake, List.drop_drop]

end Iptfs.Lib
