import Iptfs.Lib.Ring
import Iptfs.Lib.Run
import Iptfs.Model.Util

/-!
# `Iptfs.Proofs.RunningAverage`: the running average is the average of the window

`runavg_add` keeps the sum of its ring up to date by taking off the value that it is about to
overwrite. Until the index has come round once, nothing is taken off and the divisor is the
index. From then on the divisor is `runlen`.

* `Averaging` ties a running average to the history of the values added: the ring, the rounds
  counted in `ticks`, and the exact sum of the window.
* `Averaging.add` is its step lemma, put together from what the call does to each field.
* `outputs_runavgCall`: over any values whose window sums stay below `2 ^ 32`, every call leaves
  and returns what `WindowAverage` says.
-/

set_option autoImplicit false

namespace Iptfs

/-- A call of `runavg_add`, with the average it leaves and what it returns. -/
def runavgCall (avg : Runavg) (value : Nat) : Res (Runavg × Runavg × Bool) :=
  (runavgAdd avg value).map fun r => (r.1, r)

/-- What a call of `runavg_add` leaves in `total` and `average` and what it returns, after the
values `history` with the one of this call. -/
structure WindowAverage (runlen min : Nat) (history : List Nat) (avg : Runavg) (ticked : Bool) :
    Prop where
  total : avg.total = (Lib.latest runlen history).sum
  average : avg.average =
    if (Lib.latest runlen history).sum = 0 then 0
    else max min ((Lib.latest runlen history).sum / (Lib.latest runlen history).length)
  ticked : ticked = true ↔ runlen ∣ history.length

namespace Proofs

open Iptfs.Lib

/-- A running average after the values `history`. -/
structure Averaging (runlen min : Nat) (history : List Nat) (avg : Runavg) : Prop where
  runlen_eq : avg.runlen = runlen
  min_eq : avg.min = min
  ring : Lib.Ring 0 runlen avg.values avg.index history
  ticks : avg.ticks = history.length / runlen
  total : avg.total = (latest runlen history).sum

/-- The average that `runavg_new` makes has seen no values, and its ring holds zeros. -/
theorem averaging_runavgNew (runlen min : Nat) :
    Averaging runlen min [] (runavgNew runlen min) where
  runlen_eq := rfl
  min_eq := rfl
  ring := ring_replicate 0 runlen
  ticks := (Nat.zero_div runlen).symm
  total := by
    rw [latest, List.drop_nil]
    rfl

/-! ### What a call does to each field -/

/-- The new total is the sum of the new window: nothing has wrapped for good. -/
theorem Averaging.total_add {runlen min oldest value : Nat} {history : List Nat} {avg : Runavg}
    (h : Averaging runlen min history avg) (hpos : 0 < runlen)
    (hold : avg.values[avg.index]? = some oldest)
    (hnext : (latest runlen (history ++ [value])).sum < 2 ^ 32) :
    ((if avg.ticks ≠ 0 then (avg.total + 2 ^ 32 - oldest) % 2 ^ 32 else avg.total) + value)
      % 2 ^ 32 = (latest runlen (history ++ [value])).sum := by
  rw [h.ticks, h.total]
  cases Nat.lt_or_ge history.length runlen with
  | inl hshort =>
      have hticks : ¬ history.length / runlen ≠ 0 := by
        rw [Nat.div_eq_of_lt hshort]
        exact not_not.mpr rfl
      have hgrow : (latest runlen (history ++ [value])).sum =
          (latest runlen history).sum + value := by
        rw [latest_concat_of_short hshort, List.sum_append, List.sum_singleton]
      rw [if_neg hticks, ← hgrow]
      exact Nat.mod_eq_of_lt hnext
  | inr hfull =>
      have hticks : history.length / runlen ≠ 0 := Nat.ne_of_gt (Nat.div_pos hfull hpos)
      have hhead : (latest runlen history).head? = some oldest := by
        rw [← hold, h.ring.get_of_full hpos hfull]
        rfl
      have hle : oldest ≤ (latest runlen history).sum := by
        obtain ⟨rest, hrest⟩ := List.head?_eq_some_iff.mp hhead
        rw [hrest, List.sum_cons]
        exact Nat.le_add_right oldest rest.sum
      have hslide := sum_latest_concat hpos hfull hhead value
      rw [if_pos hticks]
      omega

/-- The index comes round at every `runlen`-th value. -/
theorem Averaging.ends_iff {runlen min : Nat} {history : List Nat} {avg : Runavg}
    (h : Averaging runlen min history avg) (hpos : 0 < runlen) :
    avg.index + 1 = runlen ↔ runlen ∣ history.length + 1 := by
  have hlt : history.length % runlen < runlen := Nat.mod_lt _ hpos
  have hmod : (history.length + 1) % runlen = (history.length % runlen + 1) % runlen :=
    (Nat.mod_add_mod history.length runlen 1).symm
  rw [h.ring.index_eq, Nat.dvd_iff_mod_eq_zero, hmod]
  constructor
  · intro hend
    rw [hend, Nat.mod_self]
  · intro hzero
    by_contra hne
    rw [Nat.mod_eq_of_lt (by omega)] at hzero
    omega

/-- The rounds counted after the call. -/
theorem Averaging.ticks_add {runlen min : Nat} {history : List Nat} {avg : Runavg}
    (h : Averaging runlen min history avg) (hpos : 0 < runlen)
    (hticks : (history.length + 1) / runlen < 2 ^ 32) :
    (if avg.index + 1 = runlen then (avg.ticks + 1) % 2 ^ 32 else avg.ticks) =
      (history.length + 1) / runlen := by
  rw [h.ticks]
  by_cases hend : avg.index + 1 = runlen
  · have hnext : (history.length + 1) / runlen = history.length / runlen + 1 :=
      Nat.succ_div_of_dvd ((h.ends_iff hpos).mp hend)
    rw [if_pos hend, ← hnext]
    exact Nat.mod_eq_of_lt hticks
  · have hstay : (history.length + 1) / runlen = history.length / runlen :=
      Nat.succ_div_of_not_dvd fun hdvd => hend ((h.ends_iff hpos).mpr hdvd)
    rw [if_neg hend, hstay]

/-- The divisor is the number of values in the window, in the first round and after it. -/
theorem divisor_eq {runlen : Nat} (calls : Nat) (hpos : 0 < runlen) :
    (if calls / runlen ≠ 0 then runlen else calls % runlen) = min calls runlen := by
  cases Nat.lt_or_ge calls runlen with
  | inl hshort =>
      have hzero : ¬ calls / runlen ≠ 0 := by
        rw [Nat.div_eq_of_lt hshort]
        exact not_not.mpr rfl
      rw [if_neg hzero, Nat.mod_eq_of_lt hshort, Nat.min_eq_left (Nat.le_of_lt hshort)]
  | inr hfull =>
      rw [if_pos (Nat.ne_of_gt (Nat.div_pos hfull hpos)), Nat.min_eq_right hfull]

/-- The quotient raised to `min`, where anything was summed. -/
theorem raised_eq (total divisor min : Nat) :
    (if total ≠ 0 ∧ total / divisor < min then min else total / divisor) =
      if total = 0 then 0 else max min (total / divisor) := by
  by_cases hzero : total = 0
  · simp [hzero]
  · rw [if_neg hzero]
    by_cases hlow : total / divisor < min
    · rw [if_pos ⟨hzero, hlow⟩, Nat.max_eq_left (Nat.le_of_lt hlow)]
    · rw [if_neg fun h => hlow h.2, Nat.max_eq_right (Nat.le_of_not_lt hlow)]

/-! ### Every call -/

/-- One call: it divides by the number of values in the window, which is not zero. -/
theorem Averaging.add {runlen min value : Nat} {history : List Nat} {avg : Runavg}
    (h : Averaging runlen min history avg) (hpos : 0 < runlen)
    (hnext : (latest runlen (history ++ [value])).sum < 2 ^ 32)
    (hticks : (history.length + 1) / runlen < 2 ^ 32) :
    ∃ avg' ticked, runavgAdd avg value = .ok (avg', ticked) ∧
      Averaging runlen min (history ++ [value]) avg' ∧
      WindowAverage runlen min (history ++ [value]) avg' ticked := by
  have hring := h.ring.write hpos value
  have hlt : avg.index < avg.values.length := by
    rw [h.ring.length_eq, h.ring.index_eq]
    exact Nat.mod_lt _ hpos
  have hget := List.getElem?_eq_getElem hlt
  have hcalls : (history ++ [value]).length = history.length + 1 := List.length_append
  have hindex : (if avg.index + 1 = runlen then 0 else avg.index + 1) =
      (history.length + 1) % runlen := by
    rw [← hcalls]
    exact hring.index_eq
  have hwidth : Nat.min (history.length + 1) runlen =
      (latest runlen (history ++ [value])).length := by
    rw [length_latest, hcalls]
  have hdivisor := (divisor_eq (history.length + 1) hpos).trans hwidth
  have hnonzero : (latest runlen (history ++ [value])).length ≠ 0 := by
    rw [length_latest, hcalls]
    omega
  rw [runavgAdd, hget]
  simp only [decide_eq_true_eq, h.runlen_eq, h.total_add hpos hget hnext, hindex,
    h.ticks_add hpos hticks, hdivisor, if_neg hnonzero, raised_eq, h.min_eq]
  refine ⟨_, _, rfl, ⟨rfl, rfl, ?_, ?_, rfl⟩, rfl, rfl, ?_⟩
  · rw [← hindex]
    exact hring
  · rw [hcalls]
  · rw [hcalls, decide_eq_true_eq]
    exact h.ends_iff hpos

/-- All calls from a running average with a history behind it. -/
theorem outputs_of_averaging {runlen min : Nat} {values history : List Nat} {avg : Runavg}
    (hpos : 0 < runlen) (h : Averaging runlen min history avg)
    (hsum : ∀ k ≤ values.length, (latest runlen (history ++ values.take k)).sum < 2 ^ 32)
    (hticks : (history.length + values.length) / runlen < 2 ^ 32) :
    ∃ calls, outputs runavgCall avg values = .ok calls ∧ calls.length = values.length ∧
      ∀ (k : Nat) (avg' : Runavg) (ticked : Bool), calls[k]? = some (avg', ticked) →
        WindowAverage runlen min (history ++ values.take (k + 1)) avg' ticked := by
  induction values generalizing history avg with
  | nil =>
      refine ⟨[], rfl, rfl, ?_⟩
      intro k avg' ticked hk
      cases hk
  | cons value values ih =>
      have hsums : ∀ k ≤ values.length,
          (latest runlen (history ++ [value] ++ values.take k)).sum < 2 ^ 32 := by
        intro k hk
        rw [List.append_assoc]
        exact hsum (k + 1) (Nat.succ_le_succ hk)
      have hnext : (latest runlen (history ++ [value])).sum < 2 ^ 32 := by
        have hzero := hsums 0 (Nat.zero_le _)
        rwa [List.take_zero, List.append_nil] at hzero
      have hround : (history.length + 1) / runlen ≤
          (history.length + (value :: values).length) / runlen :=
        Nat.div_le_div_right (by rw [List.length_cons]; omega)
      obtain ⟨avg', ticked, hadd, hkept, hcall⟩ :=
        h.add hpos hnext (Nat.lt_of_le_of_lt hround hticks)
      have hstep : runavgCall avg value = .ok (avg', avg', ticked) := by
        rw [runavgCall, hadd]
        rfl
      have hlen : (history ++ [value]).length + values.length =
          history.length + (value :: values).length := by
        rw [List.length_append, List.length_singleton, List.length_cons]
        omega
      obtain ⟨calls, hcalls, hcount, hall⟩ := ih hkept hsums (by rwa [hlen])
      refine ⟨(avg', ticked) :: calls, ?_, ?_, ?_⟩
      · exact (outputs_cons_eq_ok hstep).mpr ⟨calls, hcalls, rfl⟩
      · rw [List.length_cons, hcount, List.length_cons]
      · intro k avg'' ticked'' hk
        cases k with
        | zero =>
            cases hk
            exact hcall
        | succ k =>
            have hrest := hall k avg'' ticked'' hk
            rwa [List.append_assoc] at hrest

/-- The running average is the average of the window. Whatever the values, as long as no window
sums to `2 ^ 32` and `ticks` does not wrap, no call divides by zero, and each leaves the exact
sum of the window and its average, and returns true at the end of each round. -/
theorem outputs_runavgCall {runlen min : Nat} {values : List Nat} (hpos : 1 ≤ runlen)
    (hsum : ∀ k ≤ values.length, (latest runlen (values.take k)).sum < 2 ^ 32)
    (hticks : values.length / runlen < 2 ^ 32) :
    ∃ calls, outputs runavgCall (runavgNew runlen min) values = .ok calls ∧
      calls.length = values.length ∧
      ∀ (k : Nat) (avg : Runavg) (ticked : Bool), calls[k]? = some (avg, ticked) →
        WindowAverage runlen min (values.take (k + 1)) avg ticked := by
  have hrounds : (([] : List Nat).length + values.length) / runlen < 2 ^ 32 := by
    rwa [List.length_nil, Nat.zero_add]
  exact outputs_of_averaging hpos (averaging_runavgNew runlen min) hsum hrounds

/-- Five values over windows of three. The fourth sum is zero. -/
theorem outputs_runavgCall_three :
    (∀ k ≤ [4, 0, 0, 0, 1].length, (latest 3 ([4, 0, 0, 0, 1].take k)).sum < 2 ^ 32) ∧
      ∃ calls, outputs runavgCall (runavgNew 3 1) [4, 0, 0, 0, 1] = .ok calls ∧
        calls.length = 5 ∧
        ∀ (k : Nat) (avg : Runavg) (ticked : Bool), calls[k]? = some (avg, ticked) →
          WindowAverage 3 1 ([4, 0, 0, 0, 1].take (k + 1)) avg ticked := by
  have hsum : ∀ k ≤ [4, 0, 0, 0, 1].length,
      (latest 3 ([4, 0, 0, 0, 1].take k)).sum < 2 ^ 32 := by decide
  exact ⟨hsum, outputs_runavgCall (by decide) hsum (by decide)⟩

end Proofs

end Iptfs
