import Iptfs.Proofs.AckWindows

/-!
# `Iptfs.Proofs.Rate`: what a report of drops does to the sending rate

At the end of each window `recv_ack` changes the rate by one up, or by the average of the
drops down. The change is an unsigned number that is negated and added modulo `2 ^ 32`, and
then `pps_change_pps` clamps the sum, between 1 and the target.

`ppsChangePps_down` says what the clamps make of it. Where the average is at most the rate,
the rate goes down. Where it is more than the rate, the difference wraps to a number near
`2 ^ 32`, and the clamp at the target turns it into the fastest rate there is.
`neverFaster_iff` puts this together with the windows.
-/

set_option autoImplicit false

namespace Iptfs

/-- The rate that `recv_ack` leaves does not go up on drops, and by one at most without. -/
def NeverFaster (g g' : Congest) : Prop :=
  if g'.avgdrops.average = 0 then g'.pps.pps ≤ g.pps.pps + 1 ∧ g'.pps.pps ≤ g.pps.targetPps
  else 1 ≤ g'.pps.pps ∧ g'.pps.pps ≤ g.pps.pps

namespace Proofs

open Iptfs.Lib

/-! ### `pps_change_pps` -/

/-- The rate after a change: the sum modulo `2 ^ 32`, clamped. -/
theorem ppsChangePps_pps (p : Pps) (change : Int) :
    (ppsChangePps p change).pps =
      max 1 (min (((p.pps : Int) + change) % 2 ^ 32).toNat p.targetPps) := by
  generalize hn : (((p.pps : Int) + change) % 2 ^ 32).toNat = nval
  -- The rate is stored when it has changed, and otherwise it is there already.
  have hstore : ∀ n : Nat, (if n ≠ p.pps then
      { p with pps := n, ival := NSECS_IN_SEC / n } else p).pps = n := by
    intro n
    by_cases hne : n ≠ p.pps
    · rw [if_pos hne]
    · rw [if_neg hne]
      exact (not_not.mp hne).symm
  rw [ppsChangePps, hn, hstore]
  split <;> split <;> omega

/-- One up: by one at most, and not above the target. -/
theorem ppsChangePps_up {p : Pps} (hp : 1 ≤ p.pps) (hle : p.pps ≤ p.targetPps) :
    (ppsChangePps p 1).pps ≤ p.pps + 1 ∧ (ppsChangePps p 1).pps ≤ p.targetPps := by
  rw [ppsChangePps_pps]
  omega

/-- Down by an average of at most the rate: it goes down. -/
theorem ppsChangePps_down {p : Pps} {average : Nat} (hp : 1 ≤ p.pps)
    (hle : p.pps ≤ p.targetPps) (ht : p.targetPps < 2 ^ 32) (ha : average ≤ p.pps) :
    1 ≤ (ppsChangePps p (-average)).pps ∧ (ppsChangePps p (-average)).pps ≤ p.pps := by
  rw [ppsChangePps_pps]
  omega

/-- Down by an average of more than the rate: the difference wraps, and the rate ends at the
target, or near `2 ^ 32`. -/
theorem ppsChangePps_wraps {p : Pps} {average : Nat} (hle : p.pps ≤ p.targetPps)
    (ht : p.targetPps < 2 ^ 32) (ha : p.pps < average) (hmax : average < 2 ^ 32) :
    (ppsChangePps p (-average)).pps ≤ p.pps ↔ p.pps = p.targetPps ∧ 1 ≤ p.pps := by
  rw [ppsChangePps_pps]
  omega

/-! ### The average at the end of a window -/

/-- The average that `runavg_add` stores at the end of a window. -/
theorem average_of_tick {avg avg' : Runavg} {value : Nat} {ticked : Bool} (h : Window avg)
    (hend : avg.index + 1 = avg.runlen) (hadd : runavgAdd avg value = .ok (avg', ticked)) :
    ticked = true ∧ avg'.average =
      (if (Runavg.written avg value).sum % 2 ^ 32 ≠ 0 then
        max 1 ((Runavg.written avg value).sum % 2 ^ 32 / avg.runlen) else 0) := by
  have hlt : avg.index < avg.values.length := by
    rw [h.length]
    exact h.index
  have hget := List.getElem?_eq_getElem hlt
  have htotal := h.total_written value hget
  -- Where `ticks` wraps, `runavg_add` divides by zero, and here it returned.
  have hnowrap : ¬ Runavg.wraps avg := by
    intro hw
    rw [runavgAdd_wraps h value hw] at hadd
    cases hadd
  have hticks : (avg.ticks + 1) % 2 ^ 32 = avg.ticks + 1 := by
    have hlt := h.ticks
    have hne : avg.ticks ≠ 2 ^ 32 - 1 := fun ht => hnowrap ⟨hend, ht⟩
    exact Nat.mod_eq_of_lt (by omega)
  have hpos : avg.runlen ≠ 0 := by omega
  rw [runavgAdd, hget] at hadd
  simp only [htotal, hend, decide_true, if_true, hticks, ne_eq, Nat.succ_ne_zero,
    not_false_eq_true, hpos, if_false, h.min, Except.ok.injEq, Prod.mk.injEq] at hadd
  rcases hadd with ⟨rfl, rfl⟩
  refine ⟨rfl, ?_⟩
  show (if _ ∧ _ then 1 else _) = _
  -- The minimum applies where there were drops, but fewer than one on average.
  by_cases hzero : (Runavg.written avg value).sum % 2 ^ 32 = 0
  · rw [if_neg (fun h => h.1 hzero), if_neg (fun h => h hzero), hzero, Nat.zero_div]
  · by_cases hsmall : (Runavg.written avg value).sum % 2 ^ 32 / avg.runlen < 1
    · rw [if_pos ⟨hzero, hsmall⟩, if_pos hzero]
      omega
    · rw [if_neg (fun h => hsmall h.2), if_pos hzero]
      omega

/-! ### Reachable windows -/

/-- What `recv_ack` does with a datagram, if it survives it. -/
theorem recvAck_eq_ok {cfg : Config} {data : List UInt8} {g g' : Congest}
    (h : recvAck cfg data g = .ok g') :
    g' = g ∨ ∃ ndrop runlen, ndrop ≤ 0xFFFFFF ∧ runlen < 2 ^ 32 ∧
      congestAck ndrop runlen g = .ok g' := by
  cases hone : cfg.oneonly with
  | true =>
      rw [recvAck, if_pos hone] at h
      cases h
      exact Or.inl rfl
  | false =>
      by_cases hack : IsAck data
      · rw [recvAck_of_isAck hone hack] at h
        cases hreport : ackReport data with
        | none =>
            simp only [hreport] at h
            cases h
            exact Or.inl rfl
        | some r =>
            simp only [hreport] at h
            have hbounds := ackReport_bounds hreport
            exact Or.inr ⟨_, _, hbounds.1, hbounds.2, h⟩
      · by_cases hlen : data.length = 20
        · -- The marker is not there.
          rcases get32_ok (show 0 + 4 ≤ data.length by omega) with ⟨marker, hmarker, -⟩
          have hne : marker ≠ 0xFFFFFFFF := by
            rintro rfl
            exact hack ⟨hlen, hmarker⟩
          simp only [recvAck, hone, hlen, hmarker, Bool.false_eq_true, ne_eq, not_true_eq_false,
            if_false, hne, not_false_eq_true, if_true] at h
          cases h
        · simp only [recvAck, hone, hlen, Bool.false_eq_true, ne_eq, not_false_eq_true, if_false,
            if_true] at h
          cases h
          exact Or.inl rfl

/-- In every reachable state the windows hold some reports. -/
theorem fed_of_reachable {cfg : Config} {pps : Pps} {g : Congest}
    (h : Reachable (fun g data => recvAck cfg data g) (Congest.init pps) g) :
    ∃ rs, Fed g rs := by
  refine Reachable.induct (P := fun g => ∃ rs, Fed g rs) h ⟨[], fed_init pps⟩ ?_
  rintro g data g' ⟨rs, hfed⟩ hstep
  rcases recvAck_eq_ok hstep with rfl | ⟨ndrop, runlen, hn, hr, hack⟩
  · exact ⟨rs, hfed⟩
  · exact ⟨_, hfed.congestAck hn hr hack⟩

/-- When drops make the sender faster. At the end of a window `recv_ack` keeps the rate in
its bounds exactly when the drops of the window, five reports, are on average at most the
current rate, or the sender is at its target already. -/
theorem neverFaster_iff (cfg : Config) (hone : cfg.oneonly = false) (pps : Pps) (g : Congest)
    (hg : Reachable (fun g data => recvAck cfg data g) (Congest.init pps) g) (p : Pps)
    (hp : 1 ≤ p.pps) (hle : p.pps ≤ p.targetPps) (ht : p.targetPps < 2 ^ 32)
    (data : List UInt8) (ndrop runlen : Nat) (hack : IsAck data)
    (hreport : ackReport data = some (ndrop, runlen))
    (hacts : g.avgdrops.index + 1 = g.avgdrops.runlen) (g' : Congest)
    (hok : recvAck cfg data { g with pps := p } = .ok g') :
    NeverFaster { g with pps := p } g' ↔
      (Runavg.written g.avgdrops ndrop).sum / 5 ≤ p.pps ∨ p.pps = p.targetPps := by
  rcases fed_of_reachable hg with ⟨rs, hfed⟩
  have hbounds := ackReport_bounds hreport
  rw [recvAck_of_isAck hone hack] at hok
  simp only [hreport] at hok
  rcases congestAck_eq_ok hok with ⟨ticked, ticked', -, hdrops, hpps⟩
  have htick := average_of_tick hfed.paired.avgdrops hacts hdrops
  have hrunlen : g.avgdrops.runlen = 5 := by rw [hfed.paired.runlen, hfed.runlen]
  have hsum := hfed.sum_drops_le hbounds.1
  rw [htick.1, if_neg (by decide)] at hpps
  -- Five drop counts of 24 bits do not wrap in the sum.
  have haverage := htick.2
  rw [hrunlen, Nat.mod_eq_of_lt (by omega)] at haverage
  generalize (Runavg.written g.avgdrops ndrop).sum = sum at hsum haverage ⊢
  rw [NeverFaster]
  by_cases hzero : g'.avgdrops.average = 0
  · -- No drops.
    rw [if_pos hzero] at hpps ⊢
    have hnone : sum = 0 := by
      by_contra hne
      rw [if_pos hne] at haverage
      omega
    rw [hpps]
    refine iff_of_true (ppsChangePps_up hp hle) (Or.inl ?_)
    rw [hnone]
    exact Nat.zero_le _
  · rw [if_neg hzero] at hpps ⊢
    have hne : sum ≠ 0 := by
      rintro rfl
      rw [if_neg (by simp)] at haverage
      exact hzero haverage
    rw [if_pos hne] at haverage
    rw [hpps]
    rcases Nat.lt_or_ge p.pps g'.avgdrops.average with hlt | hge
    -- More drops on average than the rate: the subtraction wraps.
    · have hwraps := ppsChangePps_wraps hle ht hlt (by omega)
      have hlow : 1 ≤ (ppsChangePps p (-g'.avgdrops.average)).pps := by
        rw [ppsChangePps_pps]
        omega
      have hover : ¬ sum / 5 ≤ p.pps := by omega
      constructor
      · intro h
        exact Or.inr (hwraps.mp h.2).1
      · rintro (h | h)
        · exact absurd h hover
        · exact ⟨hlow, hwraps.mpr ⟨h, hp⟩⟩
    · refine iff_of_true (ppsChangePps_down hp hle ht hge) (Or.inl ?_)
      omega

/-- Four reports of `ndrop` drops in 100 packets. -/
def fourReports (ndrop : Nat) : List (List UInt8) :=
  [ackDatagram ndrop 1 101, ackDatagram ndrop 102 202, ackDatagram ndrop 203 303,
    ackDatagram ndrop 304 404]

/-- Ten drops in each of five reports, at a rate of 500 out of 1000. -/
theorem neverFaster_iff_ten : ∃ g g',
    run (fun g data => recvAck ⟨1500, false, false⟩ data g)
      (Congest.init ⟨1000, 1000, 1000000⟩) (fourReports 10) = .ok g ∧
    recvAck ⟨1500, false, false⟩ (ackDatagram 10 405 505) { g with pps := ⟨500, 1000, 2000000⟩ } =
      .ok g' ∧
    NeverFaster { g with pps := ⟨500, 1000, 2000000⟩ } g' := by
  refine ⟨_, _, rfl, rfl, ?_⟩
  refine (neverFaster_iff ⟨1500, false, false⟩ rfl ⟨1000, 1000, 1000000⟩ _ ⟨fourReports 10, rfl⟩
    ⟨500, 1000, 2000000⟩ (by decide) (by decide) (by decide) (ackDatagram 10 405 505) 10 100
    (by decide) (by decide) rfl _ rfl).mpr (Or.inl ?_)
  decide

/-- Ten drops in each of five reports, at a rate of 5 out of 1000: the sender goes to 1000. -/
theorem not_neverFaster : ¬ ∀ (cfg : Config), cfg.oneonly = false → ∀ (pps : Pps) (g : Congest),
    Reachable (fun g data => recvAck cfg data g) (Congest.init pps) g → ∀ p : Pps, 1 ≤ p.pps →
    p.pps ≤ p.targetPps → p.targetPps < 2 ^ 32 → ∀ data : List UInt8, IsAck data →
    (ackReport data).isSome → g.avgdrops.index + 1 = g.avgdrops.runlen → ∀ g' : Congest,
    recvAck cfg data { g with pps := p } = .ok g' → NeverFaster { g with pps := p } g' := by
  intro h
  have hfaster := h ⟨1500, false, false⟩ rfl ⟨1000, 1000, 1000000⟩ _ ⟨fourReports 10, rfl⟩
    ⟨5, 1000, 200000000⟩ (by decide) (by decide) (by decide) (ackDatagram 10 405 505)
    (by decide) (by decide) rfl _ rfl
  revert hfaster
  unfold NeverFaster
  decide

end Proofs

end Iptfs
