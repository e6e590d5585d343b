import Iptfs.Lib.Run
import Mathlib.Tactic.Ring

/-!
# `Iptfs.Lib.Progress`: what a thread gets done

A component whose steps are taken by several threads, and one of them does something again and
again. `count` says how often it was done so far, and `rank` bounds the steps that the thread still
needs to the next time. Nothing here depends on what the states, the steps and the threads are.

* `Paced` is what has to be shown of one step, and `Paced.often` is the rule for runs: in any run in
  which the thread takes `n * bound` steps, it is done `n` times. The other threads may take any
  steps in between.
* `exists_run_alone` is the rule for a thread that runs alone, until it has reached its goal.
-/

set_option autoImplicit false

namespace Iptfs.Lib

variable {ε σ ι : Type}

/-- Every step of the thread serves, or it comes closer to the next time. The steps of the others
set nothing back. -/
structure Paced (step : σ → ι → Except ε σ) (Inv : σ → Prop) (mine : ι → Bool)
    (count rank : σ → Nat) (bound : Nat) : Prop where
  keep : ∀ s i t, Inv s → step s i = .ok t → Inv t
  rank_lt : ∀ s, Inv s → rank s < bound
  serves : ∀ s i t, Inv s → mine i = true → step s i = .ok t →
    count s < count t ∨ count s ≤ count t ∧ rank t < rank s
  others : ∀ s i t, Inv s → mine i = false → step s i = .ok t →
    count s < count t ∨ count s ≤ count t ∧ rank t ≤ rank s

section Paced

variable {step : σ → ι → Except ε σ} {Inv : σ → Prop} {mine : ι → Bool} {count rank : σ → Nat}
  {bound : Nat}

/-- One step, in the potential `bound * count - rank`. The two sides are free of subtraction. -/
theorem Paced.one (h : Paced step Inv mine count rank bound) {s t : σ} {i : ι} (hs : Inv s)
    (hst : step s i = .ok t) :
    bound * count s + (if mine i then 1 else 0) + rank t ≤ bound * count t + rank s := by
  have hlt := h.rank_lt t (h.keep s i t hs hst)
  -- Once more pays for whatever the rank has risen to.
  have hmore : count s < count t → bound * count s + bound ≤ bound * count t := by
    intro hcount
    calc bound * count s + bound = bound * (count s + 1) := by ring
      _ ≤ bound * count t := Nat.mul_le_mul_left bound hcount
  have hsame : count s ≤ count t → bound * count s ≤ bound * count t :=
    Nat.mul_le_mul_left bound
  cases hi : mine i with
  | true =>
      rw [if_pos rfl]
      rcases h.serves s i t hs hi hst with hcount | ⟨hcount, hrank⟩
      · have := hmore hcount
        omega
      · have := hsame hcount
        omega
  | false =>
      rw [if_neg Bool.false_ne_true]
      rcases h.others s i t hs hi hst with hcount | ⟨hcount, hrank⟩
      · have := hmore hcount
        omega
      · have := hsame hcount
        omega

/-- The potential over a run. Induction on the steps. -/
theorem Paced.potential (h : Paced step Inv mine count rank bound) :
    ∀ {is : List ι} {s t : σ}, Inv s → Lib.run step s is = .ok t →
      Inv t ∧ bound * count s + is.countP mine + rank t ≤ bound * count t + rank s := by
  intro is
  induction is with
  | nil =>
      intro s t hs hrun
      cases hrun
      exact ⟨hs, Nat.le_refl _⟩
  | cons i is ih =>
      intro s t hs hrun
      obtain ⟨u, hu, hrest⟩ := run_cons_eq_ok.mp hrun
      obtain ⟨ht, hle⟩ := ih (h.keep s i u hs hu) hrest
      have hone := h.one hs hu
      refine ⟨ht, ?_⟩
      rw [List.countP_cons]
      omega

/-- In a run in which the thread takes `n * bound` steps, `count` grows by `n`. -/
theorem Paced.often (h : Paced step Inv mine count rank bound) {is : List ι} {s t : σ} {n : Nat}
    (hs : Inv s) (hrun : Lib.run step s is = .ok t) (hn : n * bound ≤ is.countP mine) :
    count s + n ≤ count t := by
  obtain ⟨-, hle⟩ := h.potential hs hrun
  have hlt := h.rank_lt s hs
  have hmul : bound * (count s + n) < bound * (count t + 1) := by
    calc bound * (count s + n) = bound * count s + n * bound := by ring
      _ < bound * count t + bound := by omega
      _ = bound * (count t + 1) := by ring
  exact Nat.lt_succ_iff.mp (Nat.lt_of_mul_lt_mul_left hmul)

end Paced

/-- A thread that runs alone. Short of its goal, its step is possible, keeps the invariant and
brings the rank down, so it comes to its goal. Induction on the rank. -/
theorem exists_run_alone (step : σ → ι → Except ε σ) (Inv Goal : σ → Prop) (rank : σ → Nat) (i : ι)
    (h : ∀ s, Inv s → ¬ Goal s → ∃ t, step s i = .ok t ∧ Inv t ∧ rank t < rank s) :
    ∀ s, Inv s → ∃ n ≤ rank s, ∃ t, run step s (List.replicate n i) = .ok t ∧ Inv t ∧ Goal t := by
  intro s
  induction hrank : rank s using Nat.strong_induction_on generalizing s with
  | _ r ih =>
      intro hs
      by_cases hgoal : Goal s
      · exact ⟨0, Nat.zero_le _, s, rfl, hs, hgoal⟩
      · obtain ⟨t, hst, ht, hlt⟩ := h s hs hgoal
        rw [hrank] at hlt
        obtain ⟨n, hn, u, hrun, hu, hgoal'⟩ := ih (rank t) hlt t rfl ht
        refine ⟨n + 1, by omega, u, ?_, hu, hgoal'⟩
        rw [List.replicate_succ, run_cons_ok _ hst]
        exact hrun

end Iptfs.Lib
