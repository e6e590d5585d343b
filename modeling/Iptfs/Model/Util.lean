import Iptfs.Model.Basic
import Mathlib.Algebra.Ring.Int.Defs

/-!
# `Iptfs.Model.Util`: running averages and the sending rate

`runavg_new`, `runavg_add` and the three functions of `src/src/util.c` that change the rate:
`pps_incrate`, `pps_decrate` and `pps_change_pps`. Every field is a `uint`, and sums,
differences and products wrap at `2 ^ 32`. `recv_ack` calls `pps_change_pps` and does not use
the value it returns.
-/

set_option autoImplicit false

namespace Iptfs

/-- `struct runavg`. -/
structure Runavg where
  runlen : Nat
  values : List Nat
  ticks : Nat
  index : Nat
  average : Nat
  total : Nat
  min : Nat
  deriving DecidableEq, Repr

/-- `runavg_new(runlen, min)`. -/
def runavgNew (runlen min : Nat) : Runavg :=
  { runlen := runlen, values := List.replicate runlen 0, ticks := 0, index := 0, average := 0,
    total := 0, min := min }

/-- `runavg_add(avg, value)`. The second component is `ticked`. -/
def runavgAdd (avg : Runavg) (value : Nat) : Res (Runavg × Bool) :=
  match avg.values[avg.index]? with
  | none => .error .outOfBounds
  | some oldest =>
      -- Remove the oldest value that we are about to overwrite.
      let total := if avg.ticks ≠ 0 then (avg.total + 2 ^ 32 - oldest) % 2 ^ 32 else avg.total
      let total := (total + value) % 2 ^ 32
      let ticked : Bool := avg.index + 1 = avg.runlen
      let index := if ticked then 0 else avg.index + 1
      let ticks := if ticked then (avg.ticks + 1) % 2 ^ 32 else avg.ticks
      let divisor := if ticks ≠ 0 then avg.runlen else index
      if divisor = 0 then .error .divZero
      else
        let average := total / divisor
        .ok ({ avg with
          values := avg.values.set avg.index value
          ticks := ticks
          index := index
          average := if total ≠ 0 ∧ average < avg.min then avg.min else average
          total := total }, ticked)

/-- `struct pps`. `ival` is the interval of `periodic`. -/
structure Pps where
  pps : Nat
  targetPps : Nat
  ival : Nat
  deriving DecidableEq, Repr

/-- `pps_change_pps(pp, pps)`. -/
def ppsChangePps (pp : Pps) (pps : Int) : Pps :=
  let oval := pp.pps
  let nval := (((oval : Int) + pps) % 2 ^ 32).toNat
  let nval := if nval > pp.targetPps then pp.targetPps else nval
  let nval := if nval = 0 then 1 else nval
  if nval ≠ oval then { pp with pps := nval, ival := NSECS_IN_SEC / nval } else pp

/-- The end of `pps_incrate`, `pps_decrate` and `pps_change_pps`: a rate that has changed is
stored, with its interval. The second component is the value returned. -/
def ppsStore (pp : Pps) (nval : Nat) : Res (Pps × Nat) :=
  if nval ≠ pp.pps then
    if nval = 0 then .error .divZero
    else .ok ({ pp with pps := nval, ival := NSECS_IN_SEC / nval }, nval)
  else .ok (pp, nval)

/-- `pps_incrate(pp, inc)`. -/
def ppsIncrate (pp : Pps) (inc : Int) : Res (Pps × Nat) :=
  let nval := (((pp.pps : Int) + inc) % 2 ^ 32).toNat
  let nval := if nval > pp.targetPps then pp.targetPps else nval
  ppsStore pp nval

/-- `pps_decrate(pp, pct)`. -/
def ppsDecrate (pp : Pps) (pct : Int) : Res (Pps × Nat) :=
  let nval := (((pp.pps : Int) * pct) % 2 ^ 32).toNat / 100
  let nval := if nval > pp.targetPps then pp.targetPps else nval
  let nval := if nval = 0 then 1 else nval
  ppsStore pp nval

/-- `pps_change_pps(pp, pps)` with the value that it returns. -/
def ppsChange (pp : Pps) (pps : Int) : Res (Pps × Nat) :=
  let nval := (((pp.pps : Int) + pps) % 2 ^ 32).toNat
  let nval := if nval > pp.targetPps then pp.targetPps else nval
  let nval := if nval = 0 then 1 else nval
  ppsStore pp nval

/-- `ppsChangePps` is what `pps_change_pps` leaves in `pp`, and the value returned is the rate. -/
theorem ppsChange_eq (pp : Pps) (pps : Int) :
    ppsChange pp pps = .ok (ppsChangePps pp pps, (ppsChangePps pp pps).pps) := by
  simp only [ppsChange, ppsChangePps, ppsStore]
  generalize (if (((pp.pps : Int) + pps) % 2 ^ 32).toNat > pp.targetPps then pp.targetPps
    else (((pp.pps : Int) + pps) % 2 ^ 32).toNat) = nval
  have hpos : (if nval = 0 then 1 else nval) ≠ 0 := by
    split
    · decide
    · assumption
  generalize (if nval = 0 then 1 else nval) = n at hpos
  by_cases hsame : n = pp.pps
  · rw [if_neg (not_not.mpr hsame), if_neg (not_not.mpr hsame), hsame]
  · rw [if_pos hsame, if_pos hsame, if_neg hpos]

end Iptfs
