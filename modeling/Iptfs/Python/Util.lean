import Iptfs.Python.Basic
import Mathlib.Algebra.Order.Field.Rat

/-!
# `Iptfs.Python.Util`: running averages and the sending rate

`RunningAverage` and `PeriodicPPS` of `src/iptfs/util.py`. A Python integer is an `Int`. A
rate is a `float` in the source, and a rational here.
-/

set_option autoImplicit false

namespace Iptfs.Py

/-- `RunningAverage`. `index` stays within `values`, so `values[index]` never fails. The
length of `values` is `runlen`. `avgf` is an argument of the methods. -/
structure RunningAverage where
  values : List Int
  index : Nat
  ticks : Nat
  average : Int
  index_lt : index < values.length
  deriving DecidableEq, Repr

namespace RunningAverage

/-- `self.runlen`. -/
def runlen (self : RunningAverage) : Nat := self.values.length

/-- `RunningAverage(runlen, defval, avgf)`, for a `runlen` of at least one. -/
def new (runlen : Nat) (defval : Int) (avgf : List Int → Int) (h : 0 < runlen) :
    RunningAverage where
  values := List.replicate runlen defval
  index := 0
  ticks := 0
  average := avgf (List.replicate runlen defval)
  index_lt := by rwa [List.length_replicate]

/-- `add_value`. The second component is `rv`. -/
def addValue (avgf : List Int → Int) (self : RunningAverage) (value : Int) :
    RunningAverage × Bool :=
  let values := self.values.set self.index value
  if h : self.index + 1 = self.runlen then
    ({ values := values, index := 0, ticks := self.ticks + 1, average := avgf values,
       index_lt := by
        rw [List.length_set, ← runlen, ← h]
        exact Nat.succ_pos _ }, true)
  else
    ({ values := values, index := self.index + 1, ticks := self.ticks, average := avgf values,
       index_lt := by
        rw [List.length_set, ← runlen]
        exact Nat.lt_of_le_of_ne self.index_lt h }, false)

variable (avgf : List Int → Int) (self : RunningAverage) (value : Int)

/-- The value takes the place of the one that was there longest. -/
@[simp] theorem addValue_values :
    (self.addValue avgf value).1.values = self.values.set self.index value := by
  by_cases h : self.index + 1 = self.runlen <;> simp [addValue, h]

/-- The average is computed over all the places, those that were never written too. -/
@[simp] theorem addValue_average :
    (self.addValue avgf value).1.average = avgf (self.values.set self.index value) := by
  by_cases h : self.index + 1 = self.runlen <;> simp [addValue, h]

/-- The index goes around. -/
@[simp] theorem addValue_index :
    (self.addValue avgf value).1.index =
      if self.index + 1 = self.runlen then 0 else self.index + 1 := by
  by_cases h : self.index + 1 = self.runlen <;> simp [addValue, h]

end RunningAverage

/-- `PeriodicPPS`, without its timer. -/
structure PeriodicPPS where
  pps : ℚ
  ival : ℚ
  deriving DecidableEq, Repr

/-- `PeriodicPPS(pps)`. -/
def PeriodicPPS.new (pps : ℚ) : PeriodicPPS := ⟨pps, 1 / pps⟩

/-- `change_rate(pps)`. -/
def PeriodicPPS.changeRate (self : PeriodicPPS) (pps : ℚ) : Res PeriodicPPS :=
  if pps ≠ self.pps then
    if pps = 0 then .error .zeroDivision else .ok ⟨pps, 1 / pps⟩
  else .ok self

/-- The rate becomes `pps`, if that is not zero. -/
theorem PeriodicPPS.changeRate_ok (self : PeriodicPPS) {pps : ℚ} (h : pps ≠ 0) :
    ∃ pp, self.changeRate pps = .ok pp ∧ pp.pps = pps := by
  by_cases hsame : pps = self.pps
  · exact ⟨self, if_neg (not_not.mpr hsame), hsame.symm⟩
  · have hset : self.changeRate pps = .ok ⟨pps, 1 / pps⟩ := by simp [changeRate, hsame, h]
    exact ⟨_, hset, rfl⟩

end Iptfs.Py
