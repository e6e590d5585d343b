import Iptfs.Python.Util
import Mathlib.Algebra.Order.Floor.Defs
import Mathlib.Data.Rat.Floor

/-!
# `Iptfs.Python.Ack`: the reports, `send_ack_infos` and `recv_ack`

`summin1`, `recv_ack` and `send_ack_infos` of `src/iptfs/iptfs.py`, lines 572-690.

`AckRecord` are the attributes `startseq`, `lastseq` and `dropcnt` of the outq, and
`sendAckInfos` is one turn of the loop in `send_ack_infos`. `AckState` are the globals that
`recv_ack` works on. `tunnel_target_pps` is an argument, since `recv_ack` only reads it.

`recv_ack` is cut in three: `ackFeed` fills the two windows, `ackAct` changes the rate, and
`recvAckFields` puts them together with the division in the last log line. The other log
lines are left out.
-/

set_option autoImplicit false

namespace Iptfs.Py

/-- `outq.startseq`, `outq.lastseq` and `outq.dropcnt`. -/
structure AckRecord where
  startseq : Nat
  lastseq : Nat
  dropcnt : Nat
  deriving DecidableEq, Repr

/-- The record as `read_tfs_packets` sets it up. -/
def AckRecord.zero : AckRecord := ⟨0, 0, 0⟩

/-- The 24 bytes of an ACK. -/
def ackInfo (dropcnt ns ackstart ackend : Nat) : List UInt8 :=
  put32 0xFFFFFFFF ++ put32 (0x40000000 ||| dropcnt) ++ put32 ((ns >>> 32) &&& 0xFFFFFFFF)
    ++ put32 (ns &&& 0xFFFFFFFF) ++ put32 ackstart ++ put32 ackend

/-- What one turn of the loop in `send_ack_infos` hands to `sendmsg`, and the record after
it. `lastseq` is not cleared. -/
def sendAckInfos (ns : Nat) (outq : AckRecord) : Option (List UInt8) × AckRecord :=
  if outq.startseq = 0 then (none, outq)
  else
    let dropcnt := if outq.dropcnt > 0xFFFFFF then 0xFFFFFF else outq.dropcnt
    (some (ackInfo dropcnt ns outq.startseq outq.lastseq),
      { outq with startseq := 0, dropcnt := 0 })

/-- `summin1(l)`, for a list that is not empty. -/
def summin1 (l : List Int) : Int := max (if l.any (· ≠ 0) then 1 else 0) (l.sum / l.length)

/-- The globals `ppsavg`, `dropavg`, `lastack` and `tunnel_periodic`. -/
structure AckState where
  ppsavg : RunningAverage
  dropavg : RunningAverage
  lastack : Nat
  periodic : PeriodicPPS
  deriving DecidableEq, Repr

/-- The globals before the first ACK, with a sending rate of `pps`. -/
def AckState.init (pps : ℚ) : AckState where
  ppsavg := .new 5 0 summin1 (by decide)
  dropavg := .new 5 0 summin1 (by decide)
  lastack := 0
  periodic := .new pps

/-- `ppsavg.add_value(runlen)` and `dropavg.add_value(dropcnt)`, with what the second
returns. -/
def AckState.addValues (g : AckState) (runlen dropcnt : Int) : AckState × Bool :=
  let (dropavg, ticked) := g.dropavg.addValue summin1 dropcnt
  ({ g with ppsavg := (g.ppsavg.addValue summin1 runlen).1, dropavg := dropavg }, ticked)

/-- `count`: the ACKs since the last one, this one included, from their timestamps. -/
def ackCount (lastack ns : Nat) : Int :=
  if lastack = 0 then 1 else ((ns : Int) + 100000000 - lastack) / 1000000000

/-- The loop over `range(1, count)`: each missed ACK counts as dropping 25%. -/
def missedAcks (pps : Int) : Nat → AckState × Bool → AckState × Bool
  | 0, s => s
  | n + 1, (g, ticked) =>
      let (g, t) := g.addValues pps (pps / 4)
      missedAcks pps n (g, ticked || t)

/-- `recv_ack` up to `if ticked`. -/
def ackFeed (dropcnt ns ackstart ackend : Nat) (g : AckState) : AckState × Bool :=
  let (g, ticked) := g.addValues ((ackend : Int) - ackstart) dropcnt
  let count := ackCount g.lastack ns
  let g := { g with lastack := ns }
  if count > 1 then missedAcks g.ppsavg.average (count - 1).toNat (g, ticked) else (g, ticked)

/-- The body of `if ticked`: we've gone a full run so let's act. -/
def ackAct (target : ℚ) (g : AckState) : Res AckState :=
  let pps := g.periodic.pps
  let change (pps : ℚ) : Res AckState :=
    (g.periodic.changeRate pps).map fun periodic => { g with periodic := periodic }
  if g.dropavg.average = 0 then
    -- Increase rate as we have zero drops.
    if pps < target then change (if pps + 1 > target then target else pps + 1) else .ok g
  else if g.ppsavg.average = 0 then .error .zeroDivision
  else
    -- Decrease by 1/4 droppct.
    let droppct : ℚ := (g.dropavg.average : ℚ) * 25 / g.ppsavg.average
    let droppct := if droppct = 0 then 1 else droppct
    let goal : ℚ := max (⌊pps * (100 - droppct) / 100⌋ : ℚ) 1
    change (if goal < 0 then (⌊target * 1 / 100⌋ : ℚ) else goal)

/-- `recv_ack` from the unpacked fields on. The last division is that of `pct`. -/
def recvAckFields (target : ℚ) (dropcnt ns ackstart ackend : Nat) (g : AckState) :
    Res AckState :=
  let (g, ticked) := ackFeed dropcnt ns ackstart ackend g
  match if ticked then ackAct target g else .ok g with
  | .error e => .error e
  | .ok g => if dropcnt ≠ 0 ∧ ackend = ackstart then .error .zeroDivision else .ok g

/-- `recv_ack(m)`, with `tunnel_target_pps`. -/
def recvAck (target : ℚ) (data : List UInt8) (g : AckState) : Res AckState :=
  if data.length ≠ 24 then .ok g
  else
    let start := data.drop 4
    match get32 start, get32 (start.drop 4), get32 (start.drop 8), get32 (start.drop 12),
      get32 (start.drop 16) with
    | .ok dropcnt, .ok ns1, .ok ns2, .ok ackstart, .ok ackend =>
        recvAckFields target (dropcnt &&& 0xFFFFFF) ((ns1 <<< 32) + ns2) ackstart ackend g
    | _, _, _, _, _ => .error .index

end Iptfs.Py
