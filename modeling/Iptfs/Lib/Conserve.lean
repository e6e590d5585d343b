import Iptfs.Lib.Run
import Mathlib.Data.List.Perm.Subperm

/-!
# `Iptfs.Lib.Conserve`: things that move from place to place

A component keeps things in several places: queues, variables, the hands of its threads.
`places s` lists everything it has in a state, each as often as it is there. A step moves
things about, and may lose some: what was there before is what is lost and what is there
after (`Moves`). Nothing here depends on what the things and the places are.

`Moves.conserved_iff` is the rule for runs: a run has everything it started with exactly
when none of its steps lost anything.

`Conveyed` is for things that only pass through. They are put in at one end and come out at the
other, in another form, and there is one lemma for each thing that can happen to them.
-/

set_option autoImplicit false

namespace Iptfs.Lib

variable {ε σ ι β : Type}

/-- Every step from a state with the invariant keeps the invariant, and what it moves out of
`places` is lost. It loses nothing exactly under the condition `C`. -/
structure Moves (step : σ → ι → Except ε σ) (Inv : σ → Prop) (places : σ → List β)
    (C : σ → ι → Prop) : Prop where
  step_ok : ∀ s i t, Inv s → step s i = .ok t →
    Inv t ∧ ∃ lost, (places s).Perm (lost ++ places t) ∧ (C s i ↔ lost = [])

variable {step : σ → ι → Except ε σ} {Inv : σ → Prop} {places : σ → List β} {C : σ → ι → Prop}

/-- A run never has more than it started with. -/
theorem Moves.length_le (h : Moves step Inv places C) :
    ∀ {is : List ι} {s t : σ}, Inv s → run step s is = .ok t →
      (places t).length ≤ (places s).length := by
  intro is
  induction is with
  | nil =>
      intro s t _ hrun
      cases hrun
      exact Nat.le_refl _
  | cons i is ih =>
      intro s t hs hrun
      obtain ⟨u, hu, hrest⟩ := run_cons_eq_ok.mp hrun
      obtain ⟨hinv, lost, hperm, -⟩ := h.step_ok s i u hs hu
      have hlen := hperm.length_eq
      rw [List.length_append] at hlen
      have := ih hinv hrest
      omega

/-- A run has everything it started with exactly when every step meets the condition. -/
theorem Moves.conserved_iff (h : Moves step Inv places C) :
    ∀ {is : List ι} {s t : σ}, Inv s → run step s is = .ok t →
      ((places s).Perm (places t) ↔ Along step C s is) := by
  intro is
  induction is with
  | nil =>
      intro s t _ hrun
      cases hrun
      exact iff_of_true (List.Perm.refl _) trivial
  | cons i is ih =>
      intro s t hs hrun
      obtain ⟨u, hu, hrest⟩ := run_cons_eq_ok.mp hrun
      obtain ⟨hinv, lost, hperm, hC⟩ := h.step_ok s i u hs hu
      constructor
      · intro hall
        -- What the step lost could not come back.
        have hle := h.length_le hinv hrest
        have hlen := hperm.length_eq
        rw [hall.length_eq, List.length_append] at hlen
        have hnil : lost = [] := List.eq_nil_of_length_eq_zero (by omega)
        refine ⟨hC.mpr hnil, fun v hv => ?_⟩
        rw [hu] at hv
        cases hv
        rw [hnil, List.nil_append] at hperm
        exact (ih hinv hrest).mp (hperm.symm.trans hall)
      · rintro ⟨hc, hall⟩
        rw [hC.mp hc, List.nil_append] at hperm
        exact hperm.trans ((ih hinv hrest).mpr (hall u hu))

/-! ### Things that pass through -/

section Conveyed

variable {κ γ : Type} {out into : List γ} {f g : κ → γ} {way way' : List κ} {k : κ}

/-- What was put in has come out once, in the form that `f` gives it, or it is on the way. -/
def Conveyed (out : List γ) (f : κ → γ) (way : List κ) (into : List γ) : Prop :=
  (out ++ way.map f).Perm into

/-- One more is put in. -/
theorem Conveyed.put (h : Conveyed out f way into) (k : κ) :
    Conveyed out f (k :: way) (into ++ [f k]) :=
  List.perm_middle.trans ((List.Perm.cons (f k) h).trans (List.perm_append_singleton _ _).symm)

/-- It does not matter where on the way something is. -/
theorem Conveyed.moved (h : Conveyed out f way into) (hway : way'.Perm way) :
    Conveyed out f way' into :=
  (List.Perm.append_left out (hway.map f)).trans h

/-- The last one comes out. -/
theorem Conveyed.comes_out (h : Conveyed out f (way ++ [k]) into) :
    Conveyed (out ++ [f k]) f way into := by
  refine List.Perm.trans ?_ h
  rw [List.append_assoc, List.map_append]
  exact List.Perm.append_left out List.perm_append_comm

/-- Only what is on the way has to keep its form. -/
theorem Conveyed.congr (h : Conveyed out f way into) (hsame : ∀ k ∈ way, g k = f k) :
    Conveyed out g way into := by
  rw [Conveyed, List.map_congr_left hsame]
  exact h

/-- Nothing comes out that was not put in. -/
theorem Conveyed.subperm (h : Conveyed out f way into) : out.Subperm into :=
  (List.sublist_append_left _ _).subperm.trans (List.Perm.subperm h)

end Conveyed

end Iptfs.Lib
