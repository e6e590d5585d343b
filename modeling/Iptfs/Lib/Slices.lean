import Mathlib.Logic.Function.Basic

/-!
# `Iptfs.Lib.Slices`: slices of buffers that are written again

A slice refers to a part of a buffer, and nothing is copied when it is made. `elems` is what it was
made from. It can be read back as long as nothing else is written there (`Slice.load`).

`Readable` is the invariant of a program that keeps slices in cells, and that fills one buffer after
the other: every slice can be read back. The program fills the buffer `target` next, and no slice
refers to it. It makes slices of what it has filled, the `source`. There is one lemma for each thing
that the program can do: drop slices, turn to another buffer, fill it, and make a slice.
-/

set_option autoImplicit false

namespace Iptfs.Lib

/-- A part of the buffer, from `base` on. `elems` is what was there when the slice was made. -/
structure Slice (β α : Type) where
  buffer : β
  base : Nat
  elems : List α

variable {κ β α : Type}

/-- What is there now. -/
def Slice.load (mem : β → List α) (v : Slice β α) : List α :=
  ((mem v.buffer).drop v.base).take v.elems.length

/-- A slice of what the buffer begins with can be read back. -/
theorem Slice.load_prefix {mem : β → List α} {b : β} {data : List α} (h : data <+: mem b)
    (start len : Nat) : (⟨b, start, (data.drop start).take len⟩ : Slice β α).load mem =
      (data.drop start).take len := by
  obtain ⟨rest, hrest⟩ := h
  show ((mem b).drop start).take ((data.drop start).take len).length = _
  rw [← hrest]
  by_cases hstart : start ≤ data.length
  · rw [List.drop_append_of_le_length hstart, List.take_append_of_le_length]
    · rw [List.length_take, List.take_eq_take_iff]
      omega
    · rw [List.length_take]
      omega
  · rw [List.drop_of_length_le (l := data) (by omega), List.take_nil]
    rfl

/-- What the slices of a cell give, one after the other. -/
def Slice.gather (mem : β → List α) (vs : List (Slice β α)) : List α :=
  (vs.map (Slice.load mem)).flatten

/-- Every slice in the cells can be read back. -/
structure Readable (cells : κ → List (Slice β α)) (mem : β → List α) (target : Option β)
    (source : Option (β × List α)) : Prop where
  load_eq : ∀ k, ∀ v ∈ cells k, v.load mem = v.elems
  apart : ∀ b ∈ target, ∀ k, ∀ v ∈ cells k, v.buffer ≠ b
  filled : ∀ d ∈ source, d.2 <+: mem d.1

namespace Readable

variable {cells cells' : κ → List (Slice β α)} {mem : β → List α} {target target' : Option β}
  {source source' : Option (β × List α)}

/-- Without entries nothing has been read, and no memory is held. -/
theorem nil (mem : β → List α) : Readable (fun _ : κ => []) mem none none where
  load_eq := by simp
  apart := by simp
  filled := by simp

/-- The cell gives what its slices were made from. -/
theorem gather_eq (h : Readable cells mem target source) (k : κ) :
    Slice.gather mem (cells k) = ((cells k).map Slice.elems).flatten := by
  rw [Slice.gather]
  congr 1
  exact List.map_congr_left fun v hv => h.load_eq k v hv

/-- Slices are dropped. The buffer to be filled is the same, or no slice refers to the new one. -/
theorem keep (h : Readable cells mem target source) (hsub : ∀ k, cells' k ⊆ cells k)
    (htarget : ∀ b ∈ target', b ∈ target ∨ ∀ k, ∀ v ∈ cells k, v.buffer ≠ b)
    (hsource : ∀ d ∈ source', d ∈ source) : Readable cells' mem target' source' where
  load_eq := fun k v hv => h.load_eq k v (hsub k hv)
  apart := by
    intro b hb k v hv
    rcases htarget b hb with hold | hnew
    · exact h.apart b hold k v (hsub k hv)
    · exact hnew k v (hsub k hv)
  filled := fun d hd => h.filled d (hsource d hd)

/-- The buffer is filled with `data`, and `rest` is what is behind it. -/
theorem fill [DecidableEq β] {b : β} (h : Readable cells mem (some b) source) (data rest : List α)
    (hsource : ∀ d ∈ source', d = (b, data)) :
    Readable cells (Function.update mem b (data ++ rest)) none source' where
  load_eq := by
    intro k v hv
    have hne : v.buffer ≠ b := h.apart b rfl k v hv
    rw [← h.load_eq k v hv, Slice.load, Slice.load, Function.update_of_ne hne]
  apart := by simp
  filled := by
    intro d hd
    rw [hsource d hd, Function.update_self]
    exact List.prefix_append data rest

/-- A slice of the source is added to the cell `k`. -/
theorem add [DecidableEq κ] {b : β} {data : List α}
    (h : Readable cells mem target (some (b, data))) (k : κ) (start len : Nat)
    (hsource : ∀ d ∈ source', d = (b, data)) :
    Readable (Function.update cells k (cells k ++ [⟨b, start, (data.drop start).take len⟩])) mem
      none source' where
  load_eq := by
    intro j v hv
    rcases eq_or_ne j k with rfl | hne
    · rw [Function.update_self] at hv
      rcases List.mem_append.mp hv with hold | hnew
      · exact h.load_eq j v hold
      · rw [List.mem_singleton.mp hnew]
        exact Slice.load_prefix (h.filled _ rfl) start len
    · rw [Function.update_of_ne hne] at hv
      exact h.load_eq j v hv
  apart := by simp
  filled := by
    intro d hd
    rw [hsource d hd]
    exact h.filled _ rfl

end Readable

end Iptfs.Lib
