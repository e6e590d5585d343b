import Iptfs.Model.Util
import Iptfs.Proofs.Timers

/-!
# `Iptfs.Proofs.Pacer`: the pacing sleep and the rate

`periodic_wait` sleeps until the interval has passed since its timestamp. It carries from the
nanoseconds to the seconds once, and only where the sum is more than a second.

`periodicWait_iff` is the main result. The sleep is right exactly when the time is over, or one
carry and one borrow are enough. Where they are not, `ns` is not a valid argument of `nanosleep`,
and the loop around it does not end (`sleepLoop_of_not_valid`).

Three functions change the rate. Each clamps it at the target, and two of them at one.
`staysBounded_iff` says when a run of calls keeps the rate between one and the target, with its
interval: when `pps_incrate`, the third one, is never asked for a rate of zero.
-/

set_option autoImplicit false

namespace Iptfs

/-- The loop around `nanosleep` ends once a call is not interrupted. A call that is interrupted
leaves a valid time. -/
def SleepEnds (ns : Tspec) : Prop :=
  ∀ interrupts : List (Option Tspec), (∀ rest, some rest ∈ interrupts → rest.Valid) →
    none ∈ interrupts → sleepLoop ns interrupts = none

/-- The time that is left of the interval at `now`, in nanoseconds. -/
def Periodic.due (pp : Periodic) (now : Tspec) : Int := pp.timestamp.nsecs + pp.ival - now.nsecs

/-- `periodic_wait` sleeps for the time that is left, if any, and its loop ends. -/
def SleepsRight (pp : Periodic) (now : Tspec) : Prop :=
  ∀ later : Tspec,
    if 0 ≤ pp.due now then
      ∃ ns, (periodicWait pp now later).1 = some ns ∧ ns.Valid ∧ ns.nsecs = pp.due now ∧
        SleepEnds ns
    else (periodicWait pp now later).1 = none

/-- The time is over. Or `now` is not past the next second, the sum of the nanoseconds is below
two seconds and those of `now`, and it is not a second where those of `now` are zero. -/
def OneCarry (pp : Periodic) (now : Tspec) : Prop :=
  pp.due now < 0 ∨
    (now.tvSec ≤ pp.timestamp.tvSec + 1 ∧
      pp.timestamp.tvNsec + pp.ival < 2 * NSECS_IN_SEC + now.tvNsec ∧
      ¬ (pp.timestamp.tvNsec + pp.ival = NSECS_IN_SEC ∧ now.tvNsec = 0))

instance (pp : Periodic) (now : Tspec) : Decidable (OneCarry pp now) :=
  inferInstanceAs (Decidable (_ ∨ _))

/-- A call of one of the functions that change the rate. -/
inductive PpsCall
  | incrate (inc : Int)
  | decrate (pct : Int)
  | change (pps : Int)
  deriving DecidableEq, Repr

/-- The call on a rate, with the value that it returns. -/
def ppsCall (pp : Pps) : PpsCall → Res (Pps × Nat)
  | .incrate inc => ppsIncrate pp inc
  | .decrate pct => ppsDecrate pp pct
  | .change pps => ppsChange pp pps

/-- The rate after a call. -/
def ppsAfter (pp : Pps) (call : PpsCall) : Res Pps := (ppsCall pp call).map Prod.fst

/-- The rate is from one to the target, and the interval belongs to it. -/
structure Pps.Bounded (target : Nat) (pp : Pps) : Prop where
  pos : 1 ≤ pp.pps
  le_target : pp.pps ≤ target
  target_eq : pp.targetPps = target
  ival_eq : pp.ival = NSECS_IN_SEC / pp.pps

/-- The rate is bounded before each call and at the end, no call divides by zero, and each one
returns the rate that is stored. -/
def StaysBounded (target : Nat) : Pps → List PpsCall → Prop
  | pp, [] => pp.Bounded target
  | pp, call :: calls =>
      pp.Bounded target ∧
        ∃ pp' value, ppsCall pp call = .ok (pp', value) ∧ value = pp'.pps ∧
          StaysBounded target pp' calls

/-- `pps_incrate` is not asked for a rate of zero, as 32 bits have it. -/
def AsksRate (pp : Pps) : PpsCall → Prop
  | .incrate inc => ((pp.pps : Int) + inc) % 2 ^ 32 ≠ 0
  | _ => True

instance (pp : Pps) : (call : PpsCall) → Decidable (AsksRate pp call)
  | .incrate inc => inferInstanceAs (Decidable (((pp.pps : Int) + inc) % 2 ^ 32 ≠ 0))
  | .decrate _ => .isTrue trivial
  | .change _ => .isTrue trivial

namespace Proofs

open Iptfs.Lib

/-! ### The loop around `nanosleep` -/

/-- A valid time: each call either ends the loop or leaves a valid time. Induction on the calls. -/
theorem sleepEnds_of_valid {ns : Tspec} (h : ns.Valid) : SleepEnds ns := by
  intro interrupts
  induction interrupts generalizing ns with
  | nil =>
      intro _ hend
      cases hend
  | cons interrupt interrupts ih =>
      intro hvalid hend
      cases interrupt with
      | none => rw [sleepLoop, nanosleep, if_pos h]
      | some rest =>
          have hrest : rest.Valid := hvalid rest (by simp)
          have hlater : none ∈ interrupts := by
            rcases List.mem_cons.mp hend with heq | hmem
            · cases heq
            · exact hmem
          rw [sleepLoop, nanosleep, if_pos h]
          exact ih hrest (fun r hr => hvalid r (List.mem_cons_of_mem _ hr)) hlater

/-- A time that is not valid: no number of calls ends the loop. -/
theorem sleepLoop_of_not_valid {ns : Tspec} (h : ¬ ns.Valid) (interrupts : List (Option Tspec)) :
    sleepLoop ns interrupts = some ns := by
  induction interrupts with
  | nil => rfl
  | cons interrupt interrupts ih =>
      rw [sleepLoop, nanosleep, if_neg h]
      exact ih

/-! ### `expire` and `ns` -/

/-- `expire` without a wrap of the sum. -/
theorem expire_eq {pp : Periodic} (h0 : 0 ≤ pp.timestamp.tvNsec)
    (hsum : pp.timestamp.tvNsec + pp.ival < 2 ^ 63) :
    pp.expire =
      if pp.timestamp.tvNsec + pp.ival > NSECS_IN_SEC then
        ⟨pp.timestamp.tvSec + 1, pp.timestamp.tvNsec + pp.ival - NSECS_IN_SEC⟩
      else ⟨pp.timestamp.tvSec, pp.timestamp.tvNsec + pp.ival⟩ := by
  have hlong : asLong (pp.timestamp.tvNsec + pp.ival) = pp.timestamp.tvNsec + pp.ival := by
    unfold asLong
    omega
  simp only [Periodic.expire, hlong]

/-- Without a wrap of the sum, `expire` is right, normalised or not. -/
theorem expire_nsecs {pp : Periodic} (h0 : 0 ≤ pp.timestamp.tvNsec)
    (hsum : pp.timestamp.tvNsec + pp.ival < 2 ^ 63) :
    pp.expire.nsecs = pp.timestamp.nsecs + pp.ival := by
  rw [expire_eq h0 hsum]
  unfold Tspec.nsecs
  split
  · show (pp.timestamp.tvSec + 1) * (NSECS_IN_SEC : Int) +
      (pp.timestamp.tvNsec + pp.ival - NSECS_IN_SEC) = _
    rw [Int.add_mul]
    omega
  · show pp.timestamp.tvSec * (NSECS_IN_SEC : Int) + (pp.timestamp.tvNsec + pp.ival) = _
    omega

/-- The sum wraps: `expire` is before the timestamp. -/
theorem expire_of_wrap {pp : Periodic} (hn : pp.timestamp.Normal) (hival : pp.ival < 2 ^ 64)
    (hsum : 2 ^ 63 ≤ pp.timestamp.tvNsec + pp.ival) :
    pp.expire.tvSec = pp.timestamp.tvSec ∧ pp.expire.tvNsec < pp.timestamp.tvNsec := by
  unfold Tspec.Normal at hn
  have hlong : asLong (pp.timestamp.tvNsec + pp.ival) < pp.timestamp.tvNsec := by
    unfold asLong
    omega
  have hcarry : ¬ asLong (pp.timestamp.tvNsec + pp.ival) > NSECS_IN_SEC := by omega
  simp only [Periodic.expire]
  rw [if_neg hcarry]
  exact ⟨rfl, hlong⟩

/-- `ns` is the difference, normalised or not. -/
theorem sleepTime_nsecs (expire now : Tspec) :
    (sleepTime expire now).nsecs = expire.nsecs - now.nsecs := by
  unfold sleepTime Tspec.nsecs NSECS_IN_SEC
  split
  · show (expire.tvSec - now.tvSec) * (1000000000 : Nat) + (expire.tvNsec - now.tvNsec) = _
    omega
  · show (expire.tvSec - now.tvSec - 1) * (1000000000 : Nat) +
      ((1000000000 : Nat) + expire.tvNsec - now.tvNsec) = _
    omega

/-- The timer has expired when its time lies in an earlier second, or earlier in the same second.
At the very nanosecond it has not. -/
theorem periodicIsExpired_iff (now expire : Tspec) :
    periodicIsExpired now expire = true ↔
      expire.tvSec < now.tvSec ∨ (now.tvSec = expire.tvSec ∧ expire.tvNsec < now.tvNsec) := by
  unfold periodicIsExpired
  split
  · rename_i hpast
    exact iff_of_true rfl (Or.inl hpast)
  · rename_i hsec
    split
    · rename_i heq
      rw [decide_eq_true_eq]
      constructor
      · intro hlt
        exact Or.inr ⟨heq, hlt⟩
      · rintro (hlt | ⟨-, hlt⟩)
        · omega
        · exact hlt
    · rename_i hne
      exact iff_of_false (fun h => by cases h) (by omega)

/-- What `periodic_wait` asks for. -/
theorem periodicWait_fst (pp : Periodic) (now later : Tspec) :
    (periodicWait pp now later).1 =
      if periodicIsExpired now pp.expire then none else some (sleepTime pp.expire now) := by
  unfold periodicWait
  split
  · rfl
  · rfl

/-! ### When the sleep is right -/

/-- A sum that wraps: `periodic_wait` does not sleep. -/
theorem periodicWait_of_wrap {pp : Periodic} {now : Tspec} (hn : pp.timestamp.Normal)
    (hnow : now.Normal) (hle : pp.timestamp.nsecs ≤ now.nsecs) (hival : pp.ival < 2 ^ 64)
    (hsum : 2 ^ 63 ≤ pp.timestamp.tvNsec + pp.ival) (later : Tspec) :
    (periodicWait pp now later).1 = none := by
  have hexpire := expire_of_wrap hn hival hsum
  have hexpired : periodicIsExpired now pp.expire = true := by
    rw [periodicIsExpired_iff, hexpire.1]
    unfold Tspec.Normal at hn hnow
    unfold Tspec.nsecs at hle
    unfold NSECS_IN_SEC at hn hnow hle
    omega
  rw [periodicWait_fst, if_pos hexpired]

/-- The time is over: `periodic_wait` does not sleep. -/
theorem periodicWait_of_over {pp : Periodic} {now : Tspec} (hn : pp.timestamp.Normal)
    (hnow : now.Normal) (hsum : pp.timestamp.tvNsec + pp.ival < 2 ^ 63)
    (hover : pp.due now < 0) (later : Tspec) : (periodicWait pp now later).1 = none := by
  have hexpired : periodicIsExpired now pp.expire = true := by
    rw [periodicIsExpired_iff, expire_eq hn.1 hsum]
    unfold Periodic.due Tspec.nsecs at hover
    unfold Tspec.Normal at hn hnow
    unfold NSECS_IN_SEC at hn hnow hover ⊢
    split
    · show pp.timestamp.tvSec + 1 < now.tvSec ∨ now.tvSec = pp.timestamp.tvSec + 1 ∧
        pp.timestamp.tvNsec + pp.ival - (1000000000 : Nat) < now.tvNsec
      omega
    · show pp.timestamp.tvSec < now.tvSec ∨ now.tvSec = pp.timestamp.tvSec ∧
        pp.timestamp.tvNsec + pp.ival < now.tvNsec
      omega
  rw [periodicWait_fst, if_pos hexpired]

/-- There is time left: `periodic_wait` asks for a valid time exactly when one carry is enough. -/
theorem valid_iff_oneCarry {pp : Periodic} {now : Tspec} (hn : pp.timestamp.Normal)
    (hnow : now.Normal) (hle : pp.timestamp.nsecs ≤ now.nsecs)
    (hsum : pp.timestamp.tvNsec + pp.ival < 2 ^ 63) (hdue : 0 ≤ pp.due now) :
    (periodicIsExpired now pp.expire = false ∧ (sleepTime pp.expire now).Valid) ↔
      OneCarry pp now := by
  have hexpired := periodicIsExpired_iff now pp.expire
  rw [← Bool.not_eq_true, hexpired, expire_eq hn.1 hsum]
  unfold OneCarry
  unfold Periodic.due Tspec.nsecs at hdue ⊢
  unfold Tspec.nsecs at hle
  unfold sleepTime Tspec.Valid Tspec.Normal
  unfold Tspec.Normal at hn hnow
  unfold NSECS_IN_SEC at hn hnow hdue hle ⊢
  by_cases hcarry : pp.timestamp.tvNsec + pp.ival > (1000000000 : Nat)
  · rw [if_pos hcarry]
    dsimp only
    split
    · dsimp only
      omega
    · dsimp only
      omega
  · rw [if_neg hcarry]
    dsimp only
    split
    · dsimp only
      omega
    · dsimp only
      omega

/-- The pacing sleep is right exactly when the time is over, or one carry is enough. -/
theorem periodicWait_iff (pp : Periodic) (now : Tspec) (hn : pp.timestamp.Normal)
    (hnow : now.Normal) (hle : pp.timestamp.nsecs ≤ now.nsecs) (hival : pp.ival < 2 ^ 64) :
    SleepsRight pp now ↔ OneCarry pp now := by
  rcases Int.lt_or_le (pp.due now) 0 with hover | hdue
  · -- Nothing is left of the interval.
    refine iff_of_true (fun later => ?_) (Or.inl hover)
    rw [if_neg (Int.not_le.mpr hover)]
    rcases Int.lt_or_le (pp.timestamp.tvNsec + pp.ival) (2 ^ 63) with hsum | hsum
    · exact periodicWait_of_over hn hnow hsum hover later
    · exact periodicWait_of_wrap hn hnow hle hival hsum later
  rcases Int.lt_or_le (pp.timestamp.tvNsec + pp.ival) (2 ^ 63) with hsum | hsum
  · rw [← valid_iff_oneCarry hn hnow hle hsum hdue]
    constructor
    · intro h
      have hsleep := h now
      rw [if_pos hdue, periodicWait_fst] at hsleep
      obtain ⟨ns, hns, hvalid, -, -⟩ := hsleep
      cases hexp : periodicIsExpired now pp.expire with
      | true =>
          rw [hexp] at hns
          cases hns
      | false =>
          rw [hexp] at hns
          cases hns
          exact ⟨rfl, hvalid⟩
    · rintro ⟨hexp, hvalid⟩ later
      rw [if_pos hdue, periodicWait_fst, hexp]
      refine ⟨_, rfl, hvalid, ?_, sleepEnds_of_valid hvalid⟩
      rw [sleepTime_nsecs, expire_nsecs hn.1 hsum]
      rfl
  · -- The sum wraps: there is time left, and `periodic_wait` does not sleep.
    refine iff_of_false (fun h => ?_) ?_
    · have hsleep := h now
      rw [if_pos hdue, periodicWait_of_wrap hn hnow hle hival hsum now] at hsleep
      obtain ⟨ns, hns, -⟩ := hsleep
      cases hns
    · rintro (hover | ⟨-, hshort, -⟩)
      · omega
      · unfold Tspec.Normal at hnow
        unfold NSECS_IN_SEC at hnow hshort
        omega

/-- An interval of 100 microseconds, and a timestamp at the end of a second. -/
theorem sleepsRight_carry : SleepsRight ⟨⟨7, 999950000⟩, 100000⟩ ⟨7, 999960000⟩ :=
  (periodicWait_iff ⟨⟨7, 999950000⟩, 100000⟩ ⟨7, 999960000⟩ (by decide) (by decide) (by decide)
    (by decide)).mpr (by decide)

/-- One packet in three seconds, and a wait that begins at once: the loop asks for one second and
more than `10 ^ 9` nanoseconds. -/
theorem not_sleepsRight_slow : ¬ ∀ (pp : Periodic) (now : Tspec), pp.timestamp.Normal →
    now.Normal → pp.timestamp.nsecs ≤ now.nsecs → 1 ≤ pp.ival → pp.ival < 2 ^ 64 →
      SleepsRight pp now := by
  intro h
  have hsleep := h ⟨⟨7, 100⟩, 2936000000⟩ ⟨7, 200⟩ (by decide) (by decide) (by decide) (by decide)
    (by decide) ⟨8, 0⟩
  have hask : (periodicWait ⟨⟨7, 100⟩, 2936000000⟩ ⟨7, 200⟩ ⟨8, 0⟩).1 = some ⟨1, 1935999900⟩ := by
    decide
  rw [if_pos (by decide), hask] at hsleep
  obtain ⟨ns, hns, hvalid, -⟩ := hsleep
  cases hns
  exact absurd hvalid (by decide)

/-! ### The rate -/

/-- A rate from one to the target is stored, and returned. -/
theorem ppsStore_bounded {target : Nat} {pp : Pps} (h : pp.Bounded target) {nval : Nat}
    (hpos : 1 ≤ nval) (hle : nval ≤ target) :
    ∃ pp' value, ppsStore pp nval = .ok (pp', value) ∧ value = pp'.pps ∧ pp'.Bounded target := by
  unfold ppsStore
  by_cases hsame : nval ≠ pp.pps
  · rw [if_pos hsame, if_neg (by omega)]
    exact ⟨_, _, rfl, rfl, ⟨hpos, hle, h.target_eq, rfl⟩⟩
  · rw [if_neg hsame]
    exact ⟨_, _, rfl, not_not.mp hsame, h⟩

/-- The two clamps. -/
theorem clamp_bounds {target : Nat} (htarget : 1 ≤ target) (nval : Nat) :
    1 ≤ (if (if nval > target then target else nval) = 0 then 1
        else if nval > target then target else nval) ∧
      (if (if nval > target then target else nval) = 0 then 1
        else if nval > target then target else nval) ≤ target := by
  by_cases hmax : nval > target
  · rw [if_pos hmax]
    split <;> omega
  · rw [if_neg hmax]
    split <;> omega

/-- One call. Only a `pps_incrate` that is asked for a rate of zero goes wrong: the rate is not
zero, so a zero is stored, and divided by. -/
theorem ppsCall_bounded {target : Nat} (htarget : 1 ≤ target) {pp : Pps} (h : pp.Bounded target)
    (call : PpsCall) :
    (AsksRate pp call ∧ ∃ pp' value, ppsCall pp call = .ok (pp', value) ∧ value = pp'.pps ∧
        pp'.Bounded target) ∨
      (¬ AsksRate pp call ∧ ppsCall pp call = .error .divZero) := by
  have htgt := h.target_eq
  cases call with
  | incrate inc =>
      by_cases hzero : ((pp.pps : Int) + inc) % 2 ^ 32 = 0
      · refine Or.inr ⟨fun hask => hask hzero, ?_⟩
        have hpos := h.pos
        simp only [ppsCall, ppsIncrate, hzero, Int.toNat_zero]
        rw [if_neg (Nat.not_lt_zero _), ppsStore, if_pos (by omega), if_pos rfl]
      · refine Or.inl ⟨hzero, ?_⟩
        apply ppsStore_bounded h
        · split <;> omega
        · split <;> omega
  | decrate pct =>
      have hclamp := clamp_bounds htarget ((((pp.pps : Int) * pct) % 2 ^ 32).toNat / 100)
      rw [← htgt] at hclamp
      refine Or.inl ⟨trivial, ppsStore_bounded h hclamp.1 ?_⟩
      exact Nat.le_trans hclamp.2 (Nat.le_of_eq htgt)
  | change pps =>
      have hclamp := clamp_bounds htarget (((pp.pps : Int) + pps) % 2 ^ 32).toNat
      rw [← htgt] at hclamp
      refine Or.inl ⟨trivial, ppsStore_bounded h hclamp.1 ?_⟩
      exact Nat.le_trans hclamp.2 (Nat.le_of_eq htgt)

/-- A run of calls from a bounded rate. Induction on the calls. -/
theorem staysBounded_of_bounded {target : Nat} (htarget : 1 ≤ target) {calls : List PpsCall} :
    ∀ {pp : Pps}, pp.Bounded target →
      (StaysBounded target pp calls ↔
        Along ppsAfter AsksRate pp calls) := by
  induction calls with
  | nil =>
      intro pp h
      exact iff_of_true h trivial
  | cons call calls ih =>
      intro pp h
      rcases ppsCall_bounded htarget h call with
        ⟨hask, pp', value, hcall, hvalue, hpp'⟩ | ⟨hask, hzero⟩
      · have hnext := ih hpp'
        have hafter : ppsAfter pp call = .ok pp' := by rw [ppsAfter, hcall, Except.map]
        constructor
        · rintro ⟨-, pp'', value', hcall', -, hrest⟩
          refine ⟨hask, fun t ht => ?_⟩
          rw [hcall] at hcall'
          rw [hafter] at ht
          cases hcall'
          cases ht
          exact hnext.mp hrest
        · rintro ⟨-, hrest⟩
          exact ⟨h, pp', value, hcall, hvalue, hnext.mpr (hrest pp' hafter)⟩
      · refine iff_of_false ?_ (fun hal => hask hal.1)
        rintro ⟨-, pp', value, hcall, -⟩
        rw [hzero] at hcall
        cases hcall

/-- From the target rate on, with whatever interval is stored at first: the rate stays between
one and the target with the interval that belongs to it, exactly when the interval did at first
and `pps_incrate` is never asked for a rate of zero. -/
theorem staysBounded_iff (target ival : Nat) (htarget : 1 ≤ target) (calls : List PpsCall) :
    StaysBounded target ⟨target, target, ival⟩ calls ↔
      ival = NSECS_IN_SEC / target ∧
        Along ppsAfter AsksRate ⟨target, target, ival⟩ calls := by
  have hbounded : Pps.Bounded target ⟨target, target, ival⟩ ↔ ival = NSECS_IN_SEC / target :=
    ⟨fun h => h.ival_eq, fun h => ⟨htarget, Nat.le_refl _, rfl, h⟩⟩
  constructor
  · intro h
    have hstart : Pps.Bounded target ⟨target, target, ival⟩ := by
      cases calls with
      | nil => exact h
      | cons call calls => exact h.1
    exact ⟨hbounded.mp hstart, (staysBounded_of_bounded htarget hstart).mp h⟩
  · rintro ⟨hival, hal⟩
    exact (staysBounded_of_bounded htarget (hbounded.mpr hival)).mpr hal

/-- A rate that goes down, up past the target, and down past zero. -/
theorem staysBounded_calls :
    StaysBounded 100 ⟨100, 100, 10000000⟩
      [.decrate 50, .incrate 70, .change (-200), .decrate (-1)] :=
  (staysBounded_iff 100 10000000 (by decide) _).mpr ⟨by decide, by decide⟩

/-- `pps_incrate(pp, -5)` at a rate of five. -/
theorem not_staysBounded : ¬ ∀ (target : Nat), 1 ≤ target → target < 2 ^ 32 →
    ∀ calls : List PpsCall, StaysBounded target ⟨target, target, NSECS_IN_SEC / target⟩ calls := by
  intro h
  obtain ⟨-, pp', value, hcall, -⟩ := h 5 (by decide) (by decide) [.incrate (-5)]
  have hzero : ppsCall ⟨5, 5, NSECS_IN_SEC / 5⟩ (.incrate (-5)) = .error .divZero := by decide
  rw [hzero] at hcall
  cases hcall

end Proofs

end Iptfs
