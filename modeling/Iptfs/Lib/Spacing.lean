import Mathlib.Algebra.Order.Ring.Int
import Mathlib.Tactic.Linarith

/-!
# `Iptfs.Lib.Spacing`: what a least spacing says about a window

Something is released and then done, again and again. A release waits for what was done last
(`Spaced.done_le`), and it comes at least `d` after the release before it. Between a release and
what is done there may be any delay, so what is done is not spaced itself. But a window of time has
little room for it all the same (`Spaced.window`): one more than the releases that fit, and one for
what was released before the window.
-/

set_option autoImplicit false

namespace Iptfs.Lib

/-- Something that was released at one time, and done at another one, not before. -/
structure Release where
  released : Int
  done : Int

/-- Releases at least `d` apart, the newest first. Each one waits for what was done before it. -/
structure Spaced (d : Int) (rs : List Release) : Prop where
  released_le : ∀ r ∈ rs, r.released ≤ r.done
  done_le : rs.Pairwise fun later earlier => earlier.done ≤ later.released
  apart : rs.Pairwise fun later earlier => earlier.released + d ≤ later.released

namespace Spaced

variable {d : Int} {rs : List Release}

/-- Nothing has been released so far. -/
theorem nil (d : Int) : Spaced d [] := ⟨by simp, .nil, .nil⟩

/-- One more release. -/
theorem cons {r : Release} (h : Spaced d rs) (hr : r.released ≤ r.done)
    (hdone : ∀ e ∈ rs, e.done ≤ r.released) (hapart : ∀ e ∈ rs, e.released + d ≤ r.released) :
    Spaced d (r :: rs) where
  released_le := List.forall_mem_cons.mpr ⟨hr, h.released_le⟩
  done_le := List.pairwise_cons.mpr ⟨hdone, h.done_le⟩
  apart := List.pairwise_cons.mpr ⟨hapart, h.apart⟩

/-- Without the last release, the ones before are as far apart as they were. -/
theorem tail {r : Release} (h : Spaced d (r :: rs)) : Spaced d rs where
  released_le := fun e he => h.released_le e (List.mem_cons_of_mem r he)
  done_le := (List.pairwise_cons.mp h.done_le).2
  apart := (List.pairwise_cons.mp h.apart).2

/-- Fewer releases are no closer to each other. -/
theorem filter (h : Spaced d rs) (p : Release → Bool) : Spaced d (rs.filter p) where
  released_le := fun e he => h.released_le e (List.mem_filter.mp he).1
  done_le := h.done_le.filter p
  apart := h.apart.filter p

/-- Where all of it is done after `a`, the newest release is late. Induction on the releases: the
second one waits for the first, and from there on they are `d` apart. -/
theorem released_ge {a : Int} (h : Spaced d rs) (ha : ∀ r ∈ rs, a ≤ r.done) :
    ∀ {r : Release}, Spaced d (r :: rs) → rs ≠ [] →
      a + ((rs.length : Int) - 1) * d ≤ r.released := by
  induction rs with
  | nil =>
      intro _ _ hne
      exact absurd rfl hne
  | cons e rs ih =>
      intro r hr _
      have hdone : e.done ≤ r.released := (List.pairwise_cons.mp hr.done_le).1 e List.mem_cons_self
      have hapart : e.released + d ≤ r.released :=
        (List.pairwise_cons.mp hr.apart).1 e List.mem_cons_self
      have hfirst : a ≤ e.done := ha e List.mem_cons_self
      cases rs with
      | nil =>
          simp only [List.length_singleton, Nat.cast_one, sub_self, zero_mul, add_zero]
          omega
      | cons f rs =>
          have hlate := ih h.tail (fun x hx => ha x (List.mem_cons_of_mem e hx)) h (by simp)
          rw [List.length_cons, Nat.cast_add, Nat.cast_one]
          linarith

/-- What a window from `a` on, `t` long, has room for. -/
theorem window (h : Spaced d rs) {a t : Int} (ht : 0 ≤ t) (hd : 0 ≤ d) :
    ((rs.countP fun r => a ≤ r.done ∧ r.done ≤ a + t : Nat) - 2 : Int) * d ≤ t := by
  rw [List.countP_eq_length_filter]
  have hin : ∀ r ∈ rs.filter fun r => decide (a ≤ r.done ∧ r.done ≤ a + t),
      a ≤ r.done ∧ r.done ≤ a + t := fun r hr => of_decide_eq_true (List.mem_filter.mp hr).2
  have hspaced := h.filter fun r => decide (a ≤ r.done ∧ r.done ≤ a + t)
  generalize (rs.filter fun r => decide (a ≤ r.done ∧ r.done ≤ a + t)) = inside at hin hspaced
  cases inside with
  | nil =>
      rw [List.length_nil, Nat.cast_zero]
      linarith
  | cons r rest =>
      have hlast : r.released ≤ a + t :=
        (hspaced.released_le r List.mem_cons_self).trans (hin r List.mem_cons_self).2
      rw [List.length_cons, Nat.cast_add, Nat.cast_one]
      by_cases hrest : rest = []
      · rw [hrest, List.length_nil, Nat.cast_zero]
        linarith
      · have hlate := hspaced.tail.released_ge
          (fun e he => (hin e (List.mem_cons_of_mem r he)).1) hspaced hrest
        linarith

end Spaced

end Iptfs.Lib
