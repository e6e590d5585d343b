import Iptfs.Lib.Run
import Iptfs.Model.Timer

/-!
# `Iptfs.Proofs.Timers`: elapsed time and the timers that rest on it

`clock_delta` multiplies the difference of the seconds by `NSECS_IN_SEC` in 32 bits. Five
seconds make more nanoseconds than that, so the product has lost `2 ^ 32` or more from there
on.

* `clockDelta_exact_iff`: the result is exact up to a difference of four seconds, and never
  beyond.
* `outputs_stUse`: a timer that is checked often enough gives the answers of `exactUse`, the
  timer over unbounded nanoseconds.
* `elapsed_exact_iff` puts the two together, with what the first means for `st_check`.
-/

set_option autoImplicit false

namespace Iptfs

/-- The time in nanoseconds. -/
def Tspec.nsecs (ts : Tspec) : Int := ts.tvSec * NSECS_IN_SEC + ts.tvNsec

/-- From `past` to `recent` time is measured as it is: `clock_delta` is exact, a timer started
at `past` is found expired at `recent` exactly when its time has passed, and one that would be
found expired before is found expired at `recent` too. -/
def ElapsedExact (past recent : Tspec) : Prop :=
  (clockDelta recent past : Int) = recent.nsecs - past.nsecs ∧
    (∀ nsecs : Nat, nsecs < 2 ^ 64 →
      ((stCheck ⟨past, nsecs⟩ recent).2 = true ↔ (nsecs : Int) ≤ recent.nsecs - past.nsecs)) ∧
    ∀ nsecs : Nat, nsecs < 2 ^ 64 → ∀ now : Tspec, now.Normal → past.nsecs ≤ now.nsecs →
      now.nsecs ≤ recent.nsecs → (stCheck ⟨past, nsecs⟩ now).2 = true →
        (stCheck ⟨past, nsecs⟩ recent).2 = true

/-- A use of a timer at a clock reading: `st_reset` with a time, or `st_check`. -/
inductive TimerUse
  | reset (now : Tspec) (nsecs : Nat)
  | check (now : Tspec)
  deriving DecidableEq, Repr

/-- The clock reading of a use. -/
def TimerUse.now : TimerUse → Tspec
  | reset now _ => now
  | check now => now

/-- One use of a timer, with the answer of `st_check`. -/
def stUse (t : Stimer) : TimerUse → Res (Stimer × Option Bool)
  | .reset now nsecs => .ok (stReset now nsecs, none)
  | .check now => .ok ((stCheck t now).1, some (stCheck t now).2)

/-- The timer after a use. -/
def stAfter (t : Stimer) (u : TimerUse) : Res Stimer := (stUse t u).map Prod.fst

/-- The same use of a timer over unbounded nanoseconds: `since` is the time of the last reset or
expiry, and `nsecs` what has to pass. -/
def exactUse (t : Int × Nat) : TimerUse → Res ((Int × Nat) × Option Bool)
  | .reset now nsecs => .ok ((now.nsecs, nsecs), none)
  | .check now =>
      if (t.2 : Int) ≤ now.nsecs - t.1 then .ok ((now.nsecs, t.2), some true)
      else .ok (t, some false)

/-- The readings are normalised and do not go back, from `now` on. -/
def Clocked : Tspec → List TimerUse → Prop
  | _, [] => True
  | now, u :: us => u.now.Normal ∧ now.nsecs ≤ u.now.nsecs ∧ Clocked u.now us

instance : (now : Tspec) → (us : List TimerUse) → Decidable (Clocked now us)
  | _, [] => .isTrue trivial
  | _, u :: us =>
      haveI := instDecidableClocked u.now us
      inferInstanceAs (Decidable (_ ∧ _ ∧ _))

/-- A check comes at most four seconds after the last reset or expiry, by `tv_sec`. -/
def InTime (t : Stimer) : TimerUse → Prop
  | .reset _ _ => True
  | .check now => now.tvSec - t.ts.tvSec ≤ 4

instance (t : Stimer) : (u : TimerUse) → Decidable (InTime t u)
  | .reset _ _ => .isTrue trivial
  | .check _ => inferInstanceAs (Decidable (_ ≤ _))

namespace Proofs

open Iptfs.Lib

/-! ### `clock_delta` -/

/-- Readings in order are in order by their seconds. -/
theorem tvSec_le {past recent : Tspec} (hp : past.Normal) (hr : recent.Normal)
    (hle : past.nsecs ≤ recent.nsecs) : past.tvSec ≤ recent.tvSec := by
  unfold Tspec.Normal at hp hr
  unfold Tspec.nsecs at hle
  unfold NSECS_IN_SEC at hp hr hle
  omega

/-- The seconds are below `2 ^ 31` apart when the readings are. -/
theorem tvSec_sub_lt {past recent : Tspec} (hp : past.Normal) (hr : recent.Normal)
    (hlt : recent.nsecs - past.nsecs < 2 ^ 31 * NSECS_IN_SEC) :
    recent.tvSec - past.tvSec ≤ 2 ^ 31 := by
  unfold Tspec.Normal at hp hr
  unfold Tspec.nsecs at hlt
  unfold NSECS_IN_SEC at hp hr hlt
  omega

/-- The product in 32 bits, and everything else exact as far as 64 bits go. -/
theorem clockDelta_eq {past recent : Tspec} (hp : past.Normal) (hr : recent.Normal)
    (hle : past.nsecs ≤ recent.nsecs)
    (hlt : recent.nsecs - past.nsecs < 2 ^ 31 * NSECS_IN_SEC) :
    (clockDelta recent past : Int) =
      ((recent.tvSec - past.tvSec) * NSECS_IN_SEC % 2 ^ 32 + recent.tvNsec - past.tvNsec) %
        2 ^ 64 := by
  have hsec := tvSec_le hp hr hle
  have hsub := tvSec_sub_lt hp hr hlt
  unfold Tspec.Normal NSECS_IN_SEC at hp hr
  have hsdiff : (recent.tvSec - past.tvSec) % 2 ^ 32 = recent.tvSec - past.tvSec :=
    Int.emod_eq_of_lt (by omega) (by omega)
  simp only [clockDelta, NSECS_IN_SEC, hsdiff]
  omega

/-- The exact time, up to the multiple of `2 ^ 32` that the product has lost. -/
theorem clockDelta_exact_iff {past recent : Tspec} (hp : past.Normal) (hr : recent.Normal)
    (hle : past.nsecs ≤ recent.nsecs)
    (hlt : recent.nsecs - past.nsecs < 2 ^ 31 * NSECS_IN_SEC) :
    (clockDelta recent past : Int) = recent.nsecs - past.nsecs ↔
      recent.tvSec - past.tvSec ≤ 4 := by
  have hsec := tvSec_le hp hr hle
  have hsub := tvSec_sub_lt hp hr hlt
  rw [clockDelta_eq hp hr hle hlt]
  unfold Tspec.Normal at hp hr
  unfold Tspec.nsecs at hle hlt ⊢
  unfold NSECS_IN_SEC at hp hr hle hlt ⊢
  -- `lost` is how often the product has passed `2 ^ 32`.
  have hsplit := Int.emod_add_mul_ediv ((recent.tvSec - past.tvSec) * (1000000000 : Nat)) (2 ^ 32)
  generalize (recent.tvSec - past.tvSec) * (1000000000 : Nat) / 2 ^ 32 = lost at hsplit
  have hmod := Int.emod_lt_of_pos ((recent.tvSec - past.tvSec) * (1000000000 : Nat))
    (show (0 : Int) < 2 ^ 32 by decide)
  have hnonneg := Int.emod_nonneg ((recent.tvSec - past.tvSec) * (1000000000 : Nat))
    (show (2 ^ 32 : Int) ≠ 0 by decide)
  generalize (recent.tvSec - past.tvSec) * (1000000000 : Nat) % 2 ^ 32 = product at *
  -- The result is the difference, or wraps once where that is negative.
  have hwrap : (product + recent.tvNsec - past.tvNsec) % 2 ^ 64 =
      product + recent.tvNsec - past.tvNsec ∨
        (product + recent.tvNsec - past.tvNsec) % 2 ^ 64 =
          product + recent.tvNsec - past.tvNsec + 2 ^ 64 := by
    omega
  constructor
  · intro h
    rcases hwrap with hstay | hback
    · omega
    · omega
  · intro h
    have hlost : lost = 0 := by omega
    omega

/-- Four seconds and less: the exact time. -/
theorem clockDelta_of_inTime {past recent : Tspec} (hp : past.Normal) (hr : recent.Normal)
    (hle : past.nsecs ≤ recent.nsecs) (h4 : recent.tvSec - past.tvSec ≤ 4) :
    (clockDelta recent past : Int) = recent.nsecs - past.nsecs := by
  have hlt : recent.nsecs - past.nsecs < 2 ^ 31 * NSECS_IN_SEC := by
    unfold Tspec.Normal at hp hr
    unfold Tspec.nsecs
    unfold NSECS_IN_SEC at hp hr ⊢
    omega
  exact (clockDelta_exact_iff hp hr hle hlt).mpr h4

/-! ### `st_check` -/

/-- The timer says that it has expired when as much time has passed as it was set to. -/
theorem stCheck_snd (t : Stimer) (now : Tspec) :
    (stCheck t now).2 = true ↔ t.nsecs ≤ clockDelta now t.ts := by
  unfold stCheck
  split
  · rename_i hlt
    exact iff_of_false (fun h => by cases h) (Nat.not_le.mpr hlt)
  · rename_i hge
    exact iff_of_true rfl (Nat.not_lt.mp hge)

/-- What a check answers and leaves behind, where the time is exact. -/
theorem stCheck_of_exact {t : Stimer} {now : Tspec}
    (h : (clockDelta now t.ts : Int) = now.nsecs - t.ts.nsecs) :
    stCheck t now =
      if (t.nsecs : Int) ≤ now.nsecs - t.ts.nsecs then ({ t with ts := now }, true)
      else (t, false) := by
  have hiff : clockDelta now t.ts < t.nsecs ↔ ¬ (t.nsecs : Int) ≤ now.nsecs - t.ts.nsecs := by
    omega
  unfold stCheck
  by_cases hdue : (t.nsecs : Int) ≤ now.nsecs - t.ts.nsecs
  · rw [if_pos hdue, if_neg (fun hlt => hiff.mp hlt hdue)]
  · rw [if_neg hdue, if_pos (hiff.mpr hdue)]

/-- A check in time. -/
theorem elapsedExact_of_inTime {past recent : Tspec} (hp : past.Normal) (hr : recent.Normal)
    (hle : past.nsecs ≤ recent.nsecs) (h4 : recent.tvSec - past.tvSec ≤ 4) :
    ElapsedExact past recent := by
  have hexact := clockDelta_of_inTime hp hr hle h4
  refine ⟨hexact, fun nsecs _ => ?_, fun nsecs _ now hn hpast hnow hexp => ?_⟩
  · rw [stCheck_snd]
    show nsecs ≤ clockDelta recent past ↔ _
    omega
  · -- A reading in between is in time as well.
    have hsec := tvSec_le hn hr hnow
    have hbefore := clockDelta_of_inTime hp hn hpast (by omega)
    rw [stCheck_snd] at hexp ⊢
    have hdue : nsecs ≤ clockDelta now past := hexp
    show nsecs ≤ clockDelta recent past
    omega

/-! ### Runs of a timer -/

/-- A timer checked in time gives the answers of the exact one. Induction on the uses. -/
theorem outputs_stUse {us : List TimerUse} :
    ∀ {t : Stimer} {now : Tspec}, t.ts.Normal → t.ts.nsecs ≤ now.nsecs → Clocked now us →
      Along stAfter InTime t us →
        outputs stUse t us = outputs exactUse (t.ts.nsecs, t.nsecs) us := by
  induction us with
  | nil =>
      intro t now _ _ _ _
      rfl
  | cons u us ih =>
      intro t now ht hts hclock hal
      obtain ⟨hnormal, hnow, hrest⟩ := hclock
      obtain ⟨hin, hnext⟩ := hal
      cases u with
      | reset reading nsecs =>
          have hrun := ih (t := stReset reading nsecs) hnormal (Int.le_refl _) hrest
            (hnext _ rfl)
          simp only [outputs, stUse, exactUse, hrun]
          rfl
      | check reading =>
          have hexact : stCheck t reading = _ :=
            stCheck_of_exact (clockDelta_of_inTime ht hnormal (Int.le_trans hts hnow) hin)
          have hnext' : Along _ InTime (stCheck t reading).1 us := hnext _ rfl
          simp only [outputs, stUse, exactUse]
          rw [hexact] at hnext' ⊢
          by_cases hdue : (t.nsecs : Int) ≤ reading.nsecs - t.ts.nsecs
          · rw [if_pos hdue] at hnext' ⊢
            rw [if_pos hdue]
            have hrun := ih (t := { t with ts := reading }) hnormal (Int.le_refl _) hrest hnext'
            rw [hrun]
          · rw [if_neg hdue] at hnext' ⊢
            rw [if_neg hdue]
            have hrun := ih ht (Int.le_trans hts hnow) hrest hnext'
            rw [hrun]

/-- Time is measured as it is up to a difference of four seconds, and never beyond. And a timer
that was reset or expired at `past`, each of whose checks comes in time, gives the answers of
the exact timer. -/
theorem elapsed_exact_iff (past recent : Tspec) (hp : past.Normal) (hr : recent.Normal)
    (hle : past.nsecs ≤ recent.nsecs)
    (hlt : recent.nsecs - past.nsecs < 2 ^ 31 * NSECS_IN_SEC) :
    (ElapsedExact past recent ↔ recent.tvSec - past.tvSec ≤ 4) ∧
      ∀ (nsecs : Nat) (us : List TimerUse), Clocked past us →
        Along stAfter InTime ⟨past, nsecs⟩ us →
          outputs stUse ⟨past, nsecs⟩ us = outputs exactUse (past.nsecs, nsecs) us := by
  constructor
  · constructor
    · intro h
      exact (clockDelta_exact_iff hp hr hle hlt).mp h.1
    · intro h
      exact elapsedExact_of_inTime hp hr hle h
  · intro nsecs us hclock hal
    exact outputs_stUse (t := ⟨past, nsecs⟩) hp (Int.le_refl _) hclock hal

/-- A second, and a timer of half a second that is checked twice. -/
theorem elapsed_exact_second : ElapsedExact ⟨7, 5⟩ ⟨8, 5⟩ ∧
    outputs stUse ⟨⟨7, 5⟩, 500000000⟩ [.check ⟨7, 6⟩, .check ⟨8, 5⟩] =
      .ok [some false, some true] := by
  have h := elapsed_exact_iff ⟨7, 5⟩ ⟨8, 5⟩ (by decide) (by decide) (by decide) (by decide)
  refine ⟨h.1.mpr (by decide), ?_⟩
  rw [h.2 500000000 [.check ⟨7, 6⟩, .check ⟨8, 5⟩] (by decide) (by decide)]
  rfl

/-- Five seconds are measured as less than one. -/
theorem elapsed_not_exact : ¬ ∀ past recent : Tspec, past.Normal → recent.Normal →
    past.nsecs ≤ recent.nsecs → recent.nsecs - past.nsecs < 2 ^ 31 * NSECS_IN_SEC →
      ElapsedExact past recent := by
  intro h
  have hfive := h ⟨0, 0⟩ ⟨5, 0⟩ (by decide) (by decide) (by decide) (by decide)
  exact absurd hfive.1 (by decide)

end Proofs

end Iptfs
