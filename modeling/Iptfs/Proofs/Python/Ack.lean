import Iptfs.Lib.Run
import Iptfs.Python.Ack
import Mathlib.Algebra.Order.BigOperators.Group.List
import Mathlib.Tactic.Linarith
import Mathlib.Tactic.Positivity

/-!
# `Iptfs.Proofs.Python.Ack`: `recv_ack` over runs of honest reports

A `Report` is what `send_ack_infos` can send (`sendAckInfos_report`), and `recv_ack` reads its
fields back (`recvAck_bytes`).

`recv_ack` divides twice. The divisor of `droppct` is the average of the packet counts, and
is reached where the average of the drops is not zero. Both windows are written at the same
place, by an ACK and by the loop over missed ACKs alike. So `Paired` is kept: where a drop
count is not zero, the packet count beside it is not. The divisor of `pct` is
`ackend - ackstart`, and nothing keeps that from zero. `wellBehaved_iff` is the main result: a run
of reports goes well exactly when no report has both drops and a range of one datagram.
-/

set_option autoImplicit false

namespace Iptfs.Py

/-- An ACK that `send_ack_infos` can send. -/
structure Report where
  dropcnt : Nat
  ns : Nat
  ackstart : Nat
  ackend : Nat
  dropcnt_le : dropcnt ≤ 0xFFFFFF
  ns_lt : ns < 2 ^ 64
  ackstart_pos : 0 < ackstart
  ackstart_le : ackstart ≤ ackend
  ackend_lt : ackend < 2 ^ 32

/-- The 24 bytes of a report. -/
def Report.bytes (r : Report) : List UInt8 := ackInfo r.dropcnt r.ns r.ackstart r.ackend

/-- `recv_ack` survives the report, leaves the rate between one and the target, and does not
raise it when the drop average is not zero. -/
def WellBehaved (target : ℚ) (g : AckState) (r : Report) : Prop :=
  ∃ g', recvAck target r.bytes g = .ok g' ∧ 1 ≤ g'.periodic.pps ∧ g'.periodic.pps ≤ target ∧
    (g'.dropavg.average ≠ 0 → g'.periodic.pps ≤ g.periodic.pps)

namespace Proofs

open Iptfs.Lib

/-! ### What a report says -/

/-- What `send_ack_infos` sends is a report, when the record has a range. -/
theorem sendAckInfos_report {ns : Nat} {outq : AckRecord} {data : List UInt8}
    (hns : ns < 2 ^ 64) (hle : outq.startseq ≤ outq.lastseq) (hlt : outq.lastseq < 2 ^ 32)
    (h : (sendAckInfos ns outq).1 = some data) :
    ∃ r : Report, data = r.bytes ∧ r.dropcnt = min outq.dropcnt 0xFFFFFF ∧ r.ns = ns ∧
      r.ackstart = outq.startseq ∧ r.ackend = outq.lastseq := by
  unfold sendAckInfos at h
  split at h
  · cases h
  · rename_i hstart
    have hmin : (if outq.dropcnt > 0xFFFFFF then 0xFFFFFF else outq.dropcnt) =
        min outq.dropcnt 0xFFFFFF := by
      split <;> omega
    rw [hmin] at h
    cases h
    exact ⟨⟨min outq.dropcnt 0xFFFFFF, ns, outq.startseq, outq.lastseq, Nat.min_le_right _ _, hns,
      Nat.pos_of_ne_zero hstart, hle, hlt⟩, rfl, rfl, rfl, rfl, rfl⟩

/-- `get32` after `put32`. -/
theorem get32_put32 {v : Nat} (h : v < 2 ^ 32) (post : List UInt8) :
    get32 (put32 v ++ post) = .ok v := by
  have hread := Iptfs.get32_put32 [] post h
  rw [List.nil_append, List.length_nil, ← put32_eq] at hread
  exact get32_eq_ok.mpr hread

/-- The mask takes the marker off the drop count. -/
theorem land_marker {d : Nat} (h : d ≤ 0xFFFFFF) : (0x40000000 ||| d) &&& 0xFFFFFF = d := by
  have hmask : d &&& 0xFFFFFF = d := by
    rw [show (0xFFFFFF : Nat) = 2 ^ 24 - 1 from rfl, Nat.and_two_pow_sub_one_eq_mod]
    exact Nat.mod_eq_of_lt (by omega)
  rw [Nat.and_or_distrib_right, hmask]
  exact Nat.zero_or d

/-- The two words of a timestamp. -/
theorem join_ns {ns : Nat} (h : ns < 2 ^ 64) :
    (((ns >>> 32) &&& 0xFFFFFFFF) <<< 32) + (ns &&& 0xFFFFFFFF) = ns := by
  rw [show (0xFFFFFFFF : Nat) = 2 ^ 32 - 1 from rfl, Nat.and_two_pow_sub_one_eq_mod,
    Nat.and_two_pow_sub_one_eq_mod, Nat.shiftRight_eq_div_pow, Nat.shiftLeft_eq]
  omega

/-- What the mask leaves is one word. -/
theorem land_word_lt (n : Nat) : n &&& 0xFFFFFFFF < 2 ^ 32 :=
  Nat.lt_of_le_of_lt Nat.and_le_right (by decide)

/-- `recv_ack` reads the fields of a report. -/
theorem recvAck_bytes (target : ℚ) (r : Report) (g : AckState) :
    recvAck target r.bytes g = recvAckFields target r.dropcnt r.ns r.ackstart r.ackend g := by
  -- The marker and a count of 24 bits share a word.
  have hmark : 0x40000000 ||| r.dropcnt < 2 ^ 32 :=
    Nat.or_lt_two_pow (by decide) (Nat.lt_of_le_of_lt r.dropcnt_le (by decide))
  have hstart : r.ackstart < 2 ^ 32 := Nat.lt_of_le_of_lt r.ackstart_le r.ackend_lt
  have hlen : ¬ r.bytes.length ≠ 24 := not_not.mpr rfl
  have h0 : get32 (r.bytes.drop 4) = .ok (0x40000000 ||| r.dropcnt) := get32_put32 hmark _
  have h4 : get32 ((r.bytes.drop 4).drop 4) = .ok ((r.ns >>> 32) &&& 0xFFFFFFFF) :=
    get32_put32 (land_word_lt _) _
  have h8 : get32 ((r.bytes.drop 4).drop 8) = .ok (r.ns &&& 0xFFFFFFFF) :=
    get32_put32 (land_word_lt _) _
  have h12 : get32 ((r.bytes.drop 4).drop 12) = .ok r.ackstart := get32_put32 hstart _
  have h16 : get32 ((r.bytes.drop 4).drop 16) = .ok r.ackend := get32_put32 r.ackend_lt []
  unfold recvAck
  rw [if_neg hlen]
  simp only [h0, h4, h8, h12, h16]
  rw [land_marker r.dropcnt_le, join_ns r.ns_lt]

/-! ### The minimum average -/

/-- Without negative values there is no negative average. -/
theorem summin1_nonneg {l : List Int} (h : ∀ x ∈ l, 0 ≤ x) : 0 ≤ summin1 l :=
  le_max_of_le_right (Int.ediv_nonneg (List.sum_nonneg h) (Int.natCast_nonneg _))

/-- The average is zero only where every value is. -/
theorem summin1_eq_zero_iff {l : List Int} : summin1 l = 0 ↔ ∀ x ∈ l, x = 0 := by
  constructor
  · intro hzero x hx
    by_contra hne
    have hany : l.any (· ≠ 0) = true := List.any_eq_true.mpr ⟨x, hx, by simpa using hne⟩
    have hle : (1 : Int) ≤ summin1 l := by
      unfold summin1
      rw [if_pos hany]
      exact le_max_left _ _
    omega
  · intro hall
    have hany : ¬ l.any (· ≠ 0) = true := by
      intro hany
      rcases List.any_eq_true.mp hany with ⟨x, hx, hne⟩
      simp [hall x hx] at hne
    have hsum : l.sum = 0 := List.sum_eq_zero hall
    unfold summin1
    rw [if_neg hany, hsum, Int.zero_ediv, max_self]

/-! ### The two windows -/

/-- A place of the two windows: the packet count and the drop count. -/
def Backs (p d : Int) : Prop := 0 ≤ p ∧ 0 ≤ d ∧ (d ≠ 0 → p ≠ 0)

/-- The two windows between two calls of `recv_ack`. -/
structure Paired (g : AckState) : Prop where
  index : g.dropavg.index = g.ppsavg.index
  backs : List.Forall₂ Backs g.ppsavg.values g.dropavg.values
  ppsavg : g.ppsavg.average = summin1 g.ppsavg.values
  dropavg : g.dropavg.average = summin1 g.dropavg.values

/-- Both windows are filled with zeros, and no report has come. -/
theorem paired_init (pps : ℚ) : Paired (AckState.init pps) where
  index := rfl
  backs := by
    have hzero : Backs 0 0 := ⟨Int.le_refl 0, Int.le_refl 0, id⟩
    exact .cons hzero (.cons hzero (.cons hzero (.cons hzero (.cons hzero .nil))))
  ppsavg := rfl
  dropavg := rfl

/-- The same place of two lists is written. -/
theorem forall₂_set {α β : Type} {R : α → β → Prop} {as : List α} {bs : List β}
    (h : List.Forall₂ R as bs) {a : α} {b : β} (hab : R a b) (i : Nat) :
    List.Forall₂ R (as.set i a) (bs.set i b) := by
  induction h generalizing i with
  | nil => exact .nil
  | cons hcd hrest ih =>
      cases i with
      | zero => exact .cons hab hrest
      | succ i => exact .cons hcd (ih i)

/-- One more value in each window. -/
theorem Paired.addValues {g : AckState} (h : Paired g) {p d : Int} (hb : Backs p d) :
    Paired (g.addValues p d).1 where
  index := by
    have hlen : g.dropavg.runlen = g.ppsavg.runlen := h.backs.length_eq.symm
    simp only [AckState.addValues, RunningAverage.addValue_index, h.index, hlen]
  backs := by
    simp only [AckState.addValues, RunningAverage.addValue_values, h.index]
    exact forall₂_set h.backs hb _
  ppsavg := by simp only [AckState.addValues, RunningAverage.addValue_average,
    RunningAverage.addValue_values]
  dropavg := by simp only [AckState.addValues, RunningAverage.addValue_average,
    RunningAverage.addValue_values]

/-- The values of both windows, and what all zeros in one say of the other. -/
theorem backs_values {ps ds : List Int} (h : List.Forall₂ Backs ps ds) :
    (∀ p ∈ ps, 0 ≤ p) ∧ (∀ d ∈ ds, 0 ≤ d) ∧ ((∀ p ∈ ps, p = 0) → ∀ d ∈ ds, d = 0) := by
  induction h with
  | nil => simp
  | cons hb _ ih =>
      rcases hb with ⟨hp, hd, hback⟩
      rcases ih with ⟨hps, hds, hzero⟩
      refine ⟨List.forall_mem_cons.mpr ⟨hp, hps⟩, List.forall_mem_cons.mpr ⟨hd, hds⟩, ?_⟩
      intro hall
      rcases List.forall_mem_cons.mp hall with ⟨hpzero, hpszero⟩
      refine List.forall_mem_cons.mpr ⟨?_, hzero hpszero⟩
      by_contra hne
      exact hback hne hpzero

/-- Both averages are at least zero, and the divisor of `droppct` is not zero where it is
used. -/
theorem Paired.averages {g : AckState} (h : Paired g) :
    0 ≤ g.ppsavg.average ∧ 0 ≤ g.dropavg.average ∧
      (g.dropavg.average ≠ 0 → g.ppsavg.average ≠ 0) := by
  rcases backs_values h.backs with ⟨hps, hds, hzero⟩
  rw [h.ppsavg, h.dropavg]
  refine ⟨summin1_nonneg hps, summin1_nonneg hds, ?_⟩
  intro hdrop hpps
  apply hdrop
  exact summin1_eq_zero_iff.mpr (hzero (summin1_eq_zero_iff.mp hpps))

/-- The missed ACKs keep the windows paired. Induction on their number. -/
theorem Paired.missedAcks {pps : Int} (hpps : 0 ≤ pps) (n : Nat) {g : AckState}
    (h : Paired g) (ticked : Bool) :
    Paired (missedAcks pps n (g, ticked)).1 ∧
      (Py.missedAcks pps n (g, ticked)).1.periodic = g.periodic := by
  induction n generalizing g ticked with
  | zero => exact ⟨h, rfl⟩
  | succ n ih =>
      -- A missed ACK counts as a quarter of the packets dropped, which is no drops where there
      -- are no packets.
      have hb : Backs pps (pps / 4) := ⟨hpps, Int.ediv_nonneg hpps (by decide), by omega⟩
      exact ih (h.addValues hb) _

/-- An ACK and the ones missed before it. -/
theorem Paired.ackFeed {g : AckState} (h : Paired g) (ns : Nat) {dropcnt ackstart ackend : Nat}
    (hle : ackstart ≤ ackend) (hback : dropcnt ≠ 0 → ackend ≠ ackstart) :
    Paired (ackFeed dropcnt ns ackstart ackend g).1 ∧
      (Py.ackFeed dropcnt ns ackstart ackend g).1.periodic = g.periodic := by
  have hb : Backs ((ackend : Int) - ackstart) dropcnt := ⟨by omega, by omega, by omega⟩
  have hadd := h.addValues hb
  have hack : Paired { (g.addValues ((ackend : Int) - ackstart) dropcnt).1 with lastack := ns } :=
    ⟨hadd.index, hadd.backs, hadd.ppsavg, hadd.dropavg⟩
  unfold Py.ackFeed
  dsimp only
  split
  · exact Paired.missedAcks hadd.averages.1 _ hack _
  · exact ⟨hack, rfl⟩

/-! ### The rate -/

/-- The rate after drops: rounded down, at least one, and not above the rate before. -/
theorem decreased {pps droppct : ℚ} (hpps : 1 ≤ pps) (hpct : 0 ≤ droppct) :
    1 ≤ max (⌊pps * (100 - droppct) / 100⌋ : ℚ) 1 ∧
      max (⌊pps * (100 - droppct) / 100⌋ : ℚ) 1 ≤ pps := by
  refine ⟨le_max_right _ _, max_le ?_ hpps⟩
  have hfloor := Int.floor_le (pps * (100 - droppct) / 100)
  have hprod : 0 ≤ pps * droppct := mul_nonneg (by linarith) hpct
  linarith

/-- What `recv_ack` makes of the rate, when it acts. -/
theorem ackAct_ok {target : ℚ} {g : AckState} (h : Paired g) (hpps : 1 ≤ g.periodic.pps)
    (htarget : g.periodic.pps ≤ target) :
    ∃ periodic, ackAct target g = .ok { g with periodic := periodic } ∧ 1 ≤ periodic.pps ∧
      periodic.pps ≤ target ∧ (g.dropavg.average ≠ 0 → periodic.pps ≤ g.periodic.pps) := by
  have havg := h.averages
  unfold ackAct
  dsimp only
  by_cases hdrop : g.dropavg.average = 0
  · rw [if_pos hdrop]
    by_cases hlt : g.periodic.pps < target
    · rw [if_pos hlt]
      -- The rate goes up by one, and stops at the target.
      have hbounds : 1 ≤ (if g.periodic.pps + 1 > target then target else g.periodic.pps + 1) ∧
          (if g.periodic.pps + 1 > target then target else g.periodic.pps + 1) ≤ target := by
        split
        · exact ⟨hpps.trans htarget, le_refl _⟩
        · rename_i hle
          exact ⟨by linarith, not_lt.mp hle⟩
      rcases g.periodic.changeRate_ok (ne_of_gt (lt_of_lt_of_le one_pos hbounds.1)) with
        ⟨periodic, hset, hrate⟩
      refine ⟨periodic, by rw [hset]; rfl, ?_, ?_, fun hne => absurd hdrop hne⟩
      · rw [hrate]
        exact hbounds.1
      · rw [hrate]
        exact hbounds.2
    · rw [if_neg hlt]
      exact ⟨g.periodic, rfl, hpps, htarget, fun _ => le_refl _⟩
  · rw [if_neg hdrop, if_neg (havg.2.2 hdrop)]
    -- The windows are paired, so the divisor is not zero where there are drops.
    have hquot : (0 : ℚ) ≤ (g.dropavg.average : ℚ) * 25 / g.ppsavg.average := by
      have hd : (0 : ℚ) ≤ (g.dropavg.average : ℚ) := Int.cast_nonneg havg.2.1
      have hp : (0 : ℚ) ≤ (g.ppsavg.average : ℚ) := Int.cast_nonneg havg.1
      positivity
    have hpct : (0 : ℚ) ≤ (if (g.dropavg.average : ℚ) * 25 / g.ppsavg.average = 0 then 1
        else (g.dropavg.average : ℚ) * 25 / g.ppsavg.average) := by
      split
      · exact zero_le_one
      · exact hquot
    have hdec := decreased hpps hpct
    rw [if_neg (not_lt.mpr (zero_le_one.trans hdec.1))]
    rcases g.periodic.changeRate_ok (ne_of_gt (lt_of_lt_of_le one_pos hdec.1)) with
      ⟨periodic, hset, hrate⟩
    refine ⟨periodic, by rw [hset]; rfl, ?_, ?_, ?_⟩
    · rw [hrate]
      exact hdec.1
    · rw [hrate]
      exact hdec.2.trans htarget
    · intro _
      rw [hrate]
      exact hdec.2

/-! ### Runs of reports -/

/-- Between two reports: the windows are paired, and the rate is in its range. -/
structure Steady (target : ℚ) (g : AckState) : Prop where
  paired : Paired g
  one_le : 1 ≤ g.periodic.pps
  le_target : g.periodic.pps ≤ target

/-- A report without the slip is well behaved, and the state is steady after it. -/
theorem Steady.recvAck {target : ℚ} {g : AckState} (h : Steady target g) {r : Report}
    (hback : r.dropcnt ≠ 0 → r.ackend ≠ r.ackstart) :
    ∃ g', recvAck target r.bytes g = .ok g' ∧ Steady target g' ∧
      (g'.dropavg.average ≠ 0 → g'.periodic.pps ≤ g.periodic.pps) := by
  have hfeed := h.paired.ackFeed r.ns r.ackstart_le hback
  -- The percentage in the log line divides by the length of the range.
  have hpct : ¬ (r.dropcnt ≠ 0 ∧ r.ackend = r.ackstart) := fun hslip => hback hslip.1 hslip.2
  rw [recvAck_bytes]
  unfold recvAckFields
  rcases hg : ackFeed r.dropcnt r.ns r.ackstart r.ackend g with ⟨fed, ticked⟩
  rw [hg] at hfeed
  have hone := h.one_le
  have hle := h.le_target
  rw [← hfeed.2] at hone hle
  dsimp only
  rw [← hfeed.2]
  cases ticked with
  | false =>
      refine ⟨fed, if_neg hpct, ⟨hfeed.1, hone, hle⟩, fun _ => le_refl _⟩
  | true =>
      rcases ackAct_ok hfeed.1 hone hle with ⟨periodic, hact, hlow, hhigh, hdrop⟩
      rw [if_pos rfl, hact]
      have hpaired : Paired { fed with periodic := periodic } :=
        ⟨hfeed.1.index, hfeed.1.backs, hfeed.1.ppsavg, hfeed.1.dropavg⟩
      exact ⟨_, if_neg hpct, ⟨hpaired, hlow, hhigh⟩, hdrop⟩

/-- A report with drops and a range of one datagram raises an exception, in every state. -/
theorem recvAck_of_slip {target : ℚ} {g g' : AckState} {r : Report}
    (h : recvAck target r.bytes g = .ok g') : r.dropcnt = 0 ∨ r.ackstart ≠ r.ackend := by
  rw [recvAck_bytes] at h
  unfold recvAckFields at h
  dsimp only at h
  split at h
  · cases h
  · split at h
    · cases h
    · rename_i hslip
      by_cases hdrop : r.dropcnt = 0
      · exact Or.inl hdrop
      · exact Or.inr fun heq => hslip ⟨hdrop, heq.symm⟩

/-- When a run of reports goes well. From any rate between one and the target, each report is
well behaved exactly when none of them has both drops and a range of one datagram. -/
theorem wellBehaved_iff (target pps : ℚ) (hpps : 1 ≤ pps) (htarget : pps ≤ target)
    (reports : List Report) :
    Along (fun g (r : Report) => recvAck target r.bytes g) (WellBehaved target)
        (AckState.init pps) reports ↔
      ∀ r ∈ reports, r.dropcnt = 0 ∨ r.ackstart ≠ r.ackend := by
  have hsteady : Steady target (AckState.init pps) := ⟨paired_init pps, hpps, htarget⟩
  generalize AckState.init pps = g at hsteady
  induction reports generalizing g with
  | nil => exact iff_of_true trivial fun r hr => by cases hr
  | cons r reports ih =>
      rw [List.forall_mem_cons]
      constructor
      · rintro ⟨⟨g', hg', -⟩, hrest⟩
        have hslip := recvAck_of_slip hg'
        have hback : r.dropcnt ≠ 0 → r.ackend ≠ r.ackstart :=
          fun hdrop heq => hslip.elim hdrop fun hne => hne heq.symm
        rcases hsteady.recvAck hback with ⟨g'', hg'', hnext, -⟩
        exact ⟨hslip, (ih g'' hnext).mp (hrest g'' hg'')⟩
      · rintro ⟨hslip, hall⟩
        have hback : r.dropcnt ≠ 0 → r.ackend ≠ r.ackstart :=
          fun hdrop heq => hslip.elim hdrop fun hne => hne heq.symm
        rcases hsteady.recvAck hback with ⟨g', hg', hnext, hrate⟩
        refine ⟨⟨g', hg', hnext.one_le, hnext.le_target, hrate⟩, ?_⟩
        intro g'' hg''
        -- The step has one result, and the state after it is steady.
        have hsame : g' = g'' := Except.ok.inj (hg'.symm.trans hg'')
        subst hsame
        exact (ih g' hnext).mpr hall

/-- A report of six datagrams and up to two drops. The reports with an odd number come two seconds
after the one before. -/
def someReport (k : Fin 7) : Report :=
  ⟨k % 3, 1000000000 * (k + (k + 1) / 2), 6 * k + 3, 6 * k + 8, by omega, by omega, by omega,
    by omega, by omega⟩

/-- Seven reports, with drops in most of them and ACKs missing in between. A window of five ends
with a missing one. -/
theorem wellBehaved_seven :
    Along (fun g (r : Report) => recvAck 100 r.bytes g) (WellBehaved 100)
      (AckState.init 60) (List.ofFn someReport) :=
  (wellBehaved_iff 100 60 (by norm_num) (by norm_num) (List.ofFn someReport)).mpr (by decide)

/-- The report of a drop before the datagram number three. -/
def slipReport : Report :=
  ⟨1, 5000000000, 3, 3, by decide, by decide, by decide, by decide, by decide⟩

/-- It ends the thread. -/
theorem not_wellBehaved : ¬ ∀ (target pps : ℚ), 1 ≤ pps → pps ≤ target →
    ∀ reports : List Report,
      Along (fun g (r : Report) => recvAck target r.bytes g) (WellBehaved target)
        (AckState.init pps) reports := by
  intro h
  rcases (h 100 100 (by norm_num) (le_refl _) [slipReport]).1 with ⟨g', hg', -⟩
  cases hg'

end Proofs

end Iptfs.Py
