import Iptfs.Lib.Ring
import Iptfs.Lib.Run
import Iptfs.Proofs.Congestion
import Mathlib.Algebra.Order.BigOperators.Group.List
import Mathlib.Algebra.Order.Ring.Nat
import Mathlib.Data.List.Induction

/-!
# `Iptfs.Proofs.AckWindows`: the divisor of the drop percentage over runs of ACKs

`recv_ack` divides the drops of the last five reports by their packets. Each running average
has its own window, and the two are fed together. `Fed` ties both windows to the list of
reports taken in so far, and is kept by each report (`Fed.congestAck`).

`Backed` is the condition on the reports alone: cut into groups of five, each group with
drops has packets. `recvAck_survives_iff` is the main result. A run of ACK datagrams divides
by zero exactly when the reports are not backed. A report of one datagram counts as zero
packets, since `runlen` is `end - start`. So five honest reports of one datagram each, with a
drop in one of them, are not backed (`recvAck_divides_by_zero`).
-/

set_option autoImplicit false

namespace Iptfs

/-- What `recv_ack` works on, as `tfs_tunnel_egress` and `write_tfs_pkts` set it up. -/
def Congest.init (pps : Pps) : Congest := (Rx.init pps).congest

/-- An ACK datagram of the right length, with the marker word. -/
def IsAck (data : List UInt8) : Prop := data.length = 20 ∧ get32 data 0 = .ok 0xFFFFFFFF

instance (data : List UInt8) : Decidable (IsAck data) := instDecidableAnd

/-- The drops and the packets that an ACK datagram reports, if its range does not end before
it starts. -/
def ackReport (data : List UInt8) : Option (Nat × Nat) :=
  match get32 data 4, get32 data 12, get32 data 16 with
  | .ok ndrop, .ok start, .ok last =>
      if last < start then none else some (ndrop &&& 0xFFFFFF, last - start)
  | _, _, _ => none

/-- The sum over the group number `k` of five reports. -/
def groupSum (f : Nat × Nat → Nat) (reports : List (Nat × Nat)) (k : Nat) : Nat :=
  (((reports.drop (5 * k)).take 5).map f).sum

/-- Each group of five reports with drops has packets, as far as 32 bits can tell, and the
groups are not so many that `ticks` wraps. -/
def Backed (reports : List (Nat × Nat)) : Prop :=
  ∀ k, 5 * (k + 1) ≤ reports.length →
    k + 1 < 2 ^ 32 ∧
      (groupSum Prod.fst reports k ≠ 0 → groupSum Prod.snd reports k % 2 ^ 32 ≠ 0)

namespace Proofs

open Iptfs.Lib

/-! ### The groups of five -/

/-- One more report does not change the sum over a group that is complete already. -/
theorem groupSum_concat (f : Nat × Nat → Nat) {rs : List (Nat × Nat)} {k : Nat}
    (h : 5 * (k + 1) ≤ rs.length) (r : Nat × Nat) :
    groupSum f (rs ++ [r]) k = groupSum f rs k := by
  have hlen : 5 ≤ (rs.drop (5 * k)).length := by
    rw [List.length_drop]
    omega
  rw [groupSum, groupSum, List.drop_append_of_le_length (by omega),
    List.take_append_of_le_length hlen]

/-- The last group, when it is complete. -/
theorem groupSum_last (f : Nat × Nat → Nat) {rs : List (Nat × Nat)} {k : Nat}
    (h : rs.length = 5 * (k + 1)) : groupSum f rs k = ((rs.map f).drop (5 * k)).sum := by
  have hlen : (rs.drop (5 * k)).length ≤ 5 := by
    rw [List.length_drop]
    omega
  rw [groupSum, List.take_of_length_le hlen, List.map_drop]

/-- Without reports there is no group of five to look at. -/
theorem backed_nil : Backed [] := by
  intro k hk
  rw [List.length_nil] at hk
  omega

/-- One more report matters where it completes a group. -/
theorem backed_concat {rs : List (Nat × Nat)} {r : Nat × Nat} :
    Backed (rs ++ [r]) ↔ Backed rs ∧ ∀ k, rs.length + 1 = 5 * (k + 1) →
      k + 1 < 2 ^ 32 ∧ (groupSum Prod.fst (rs ++ [r]) k ≠ 0 →
        groupSum Prod.snd (rs ++ [r]) k % 2 ^ 32 ≠ 0) := by
  have hlen : (rs ++ [r]).length = rs.length + 1 := List.length_append
  constructor
  · intro h
    refine ⟨fun k hk => ?_, fun k hk => h k (by omega)⟩
    have hback := h k (by omega)
    rwa [groupSum_concat _ hk, groupSum_concat _ hk] at hback
  · rintro ⟨h, hlast⟩ k hk
    rw [hlen] at hk
    -- Either the new report completes group `k`, or the group was complete before it.
    rcases Nat.lt_or_ge rs.length (5 * (k + 1)) with hlt | hge
    · exact hlast k (by omega)
    · rw [groupSum_concat _ hge, groupSum_concat _ hge]
      exact h k hge

/-! ### One report -/

/-- What `runavg_add` writes. -/
theorem runavgAdd_values {avg avg' : Runavg} {value : Nat} {ticked : Bool}
    (h : runavgAdd avg value = .ok (avg', ticked)) :
    avg'.values = Runavg.written avg value ∧ avg'.index = ringNext avg.runlen avg.index := by
  rw [runavgAdd] at h
  split at h
  · cases h
  · extract_lets total total' ticked' index ticks divisor average at h
    split at h
    · cases h
    · simp only [Except.ok.injEq, Prod.mk.injEq] at h
      rcases h with ⟨rfl, -⟩
      refine ⟨rfl, ?_⟩
      by_cases hend : avg.index + 1 = avg.runlen <;> simp [index, ticked', ringNext, hend]

/-- What `recv_ack` does with the fields of a report. -/
theorem congestAck_eq_ok {ndrop runlen : Nat} {g g' : Congest}
    (h : congestAck ndrop runlen g = .ok g') :
    ∃ ticked ticked', runavgAdd g.avgpps runlen = .ok (g'.avgpps, ticked) ∧
      runavgAdd g.avgdrops ndrop = .ok (g'.avgdrops, ticked') ∧
      g'.pps =
        if ticked' = false then g.pps
        else if g'.avgdrops.average = 0 then ppsChangePps g.pps 1
        else ppsChangePps g.pps (-g'.avgdrops.average) := by
  rw [congestAck] at h
  split at h
  · cases h
  · rename_i avgpps ticked hpps
    split at h
    · cases h
    · rename_i avgdrops ticked' hdrops
      dsimp only at h
      split at h
      · rename_i hwait
        cases h
        exact ⟨ticked, ticked', hpps, hdrops, (if_pos hwait).symm⟩
      · rename_i hacts
        split at h
        · rename_i hnone
          cases h
          exact ⟨ticked, ticked', hpps, hdrops, by rw [if_neg hacts, if_pos hnone]⟩
        · rename_i hsome
          split at h
          · cases h
          · cases h
            exact ⟨ticked, ticked', hpps, hdrops, by rw [if_neg hacts, if_neg hsome]⟩

/-- The two windows after the reports `rs`. -/
structure Fed (g : Congest) (rs : List (Nat × Nat)) : Prop where
  paired : Paired g
  runlen : g.avgpps.runlen = 5
  packets : Ring 0 5 g.avgpps.values g.avgpps.index (rs.map Prod.snd)
  drops : Ring 0 5 g.avgdrops.values g.avgdrops.index (rs.map Prod.fst)
  ticks : g.avgpps.ticks = rs.length / 5
  small : ∀ v ∈ g.avgdrops.values, v ≤ 0xFFFFFF

/-- The two averages as they are made, with rings of zeros, have seen no report. -/
theorem fed_init (pps : Pps) : Fed (Congest.init pps) [] where
  paired := ⟨window_runavgNew (by decide), window_runavgNew (by decide), rfl, rfl, rfl⟩
  runlen := rfl
  packets := ring_replicate 0 5
  drops := ring_replicate 0 5
  ticks := rfl
  small := by
    intro v hv
    rw [List.eq_of_mem_replicate hv]
    exact Nat.zero_le _

/-- A report that `recv_ack` survives is in both windows. -/
theorem Fed.congestAck {g g' : Congest} {rs : List (Nat × Nat)} (h : Fed g rs)
    {ndrop runlen : Nat} (hn : ndrop ≤ 0xFFFFFF) (hr : runlen < 2 ^ 32)
    (hg' : congestAck ndrop runlen g = .ok g') : Fed g' (rs ++ [(ndrop, runlen)]) := by
  have hpaired : Paired g' := by
    -- `Paired` is kept by any report that is survived.
    rcases congestAck_spec h.paired (show ndrop < 2 ^ 32 by omega) hr with
      ⟨-, g'', hg'', hp⟩ | ⟨-, herr⟩
    · rw [hg'] at hg''
      cases hg''
      exact hp
    · rw [hg'] at herr
      cases herr
  rcases congestAck_eq_ok hg' with ⟨ticked, ticked', hpps, hdrops, -⟩
  -- Where `ticks` wraps to zero, so does `index`, and `runavg_add` divides by it.
  have hlast : ¬ Runavg.wraps g.avgpps := by
    intro hw
    rw [runavgAdd_wraps h.paired.avgpps runlen hw] at hpps
    cases hpps
  rcases h.paired.avgpps.add hr hlast with ⟨avg, t, hadd, havg⟩
  rw [hpps] at hadd
  cases hadd
  have hvpps := runavgAdd_values hpps
  have hvdrops := runavgAdd_values hdrops
  have hdrunlen : g.avgdrops.runlen = 5 := by rw [h.paired.runlen, h.runlen]
  have hwp := h.packets.write (by decide) runlen
  have hwd := h.drops.write (by decide) ndrop
  refine ⟨hpaired, ?_, ?_, ?_, ?_, ?_⟩
  · rw [havg.runlen, h.runlen]
  · rw [hvpps.1, hvpps.2, h.runlen, List.map_append]
    exact hwp
  · rw [hvdrops.1, hvdrops.2, hdrunlen, List.map_append]
    exact hwd
  · have hindex := h.packets.index_eq
    rw [List.length_map] at hindex
    rw [havg.ticks, h.runlen, h.ticks, hindex, List.length_append, List.length_singleton]
    split <;> omega
  · intro v hv
    rw [hvdrops.1] at hv
    rcases List.mem_or_eq_of_mem_set hv with hv | rfl
    · exact h.small v hv
    · exact hn

/-- The sum of a window with the new value, where it completes a group. -/
theorem sum_written {avg : Runavg} {history : List Nat} {k : Nat}
    (h : Ring 0 5 avg.values avg.index history) (hlast : history.length + 1 = 5 * (k + 1))
    (value : Nat) :
    (Runavg.written avg value).sum = ((history ++ [value]).drop (5 * k)).sum := by
  have hround : (history ++ [value]).length = 5 * (k + 1) := by
    rw [List.length_append, List.length_singleton, hlast]
  have hrecent := (h.write (by decide) value).recent_of_round hround
  rw [← hrecent]
  exact (recent_perm _ _).sum_eq.symm

/-- The drop counts of a window. -/
theorem Fed.sum_drops_le {g : Congest} {rs : List (Nat × Nat)} (h : Fed g rs) {ndrop : Nat}
    (hn : ndrop ≤ 0xFFFFFF) : (Runavg.written g.avgdrops ndrop).sum ≤ 5 * 0xFFFFFF := by
  have hsmall : ∀ v ∈ Runavg.written g.avgdrops ndrop, v ≤ 0xFFFFFF := by
    intro v hv
    rcases List.mem_or_eq_of_mem_set hv with hv | rfl
    · exact h.small v hv
    · exact hn
  have hle := List.sum_le_card_nsmul (Runavg.written g.avgdrops ndrop) 0xFFFFFF hsmall
  rwa [Runavg.written, List.length_set, h.drops.length_eq] at hle

/-- Whether a report is safe, from the reports before it. -/
theorem Fed.safeReport_iff {g : Congest} {rs : List (Nat × Nat)} (h : Fed g rs)
    {ndrop runlen : Nat} (hn : ndrop ≤ 0xFFFFFF) :
    SafeReport ndrop runlen g ↔ ∀ k, rs.length + 1 = 5 * (k + 1) →
      k + 1 < 2 ^ 32 ∧ (groupSum Prod.fst (rs ++ [(ndrop, runlen)]) k ≠ 0 →
        groupSum Prod.snd (rs ++ [(ndrop, runlen)]) k % 2 ^ 32 ≠ 0) := by
  have hindex := h.packets.index_eq
  rw [List.length_map] at hindex
  have hticks := h.paired.avgpps.ticks
  -- At the end of a window its five values are the last group of the reports.
  have hgroup : ∀ k, rs.length + 1 = 5 * (k + 1) →
      (g.avgpps.ticks ≠ 2 ^ 32 - 1 ↔ k + 1 < 2 ^ 32) ∧
        (Runavg.written g.avgdrops ndrop).sum % 2 ^ 32 =
          groupSum Prod.fst (rs ++ [(ndrop, runlen)]) k ∧
        (Runavg.written g.avgpps runlen).sum = groupSum Prod.snd (rs ++ [(ndrop, runlen)]) k := by
    intro k hk
    have hlen : (rs ++ [(ndrop, runlen)]).length = 5 * (k + 1) := by
      rw [List.length_append, List.length_singleton, hk]
    have hwp := sum_written (k := k) h.packets (by rw [List.length_map, hk]) runlen
    have hwd := sum_written (k := k) h.drops (by rw [List.length_map, hk]) ndrop
    refine ⟨?_, ?_, ?_⟩
    · rw [h.ticks] at hticks ⊢
      omega
    · -- Five drop counts of 24 bits do not wrap.
      have hbound := h.sum_drops_le hn
      rw [Nat.mod_eq_of_lt (by omega), hwd, groupSum_last _ hlen, List.map_append]
      rfl
    · rw [hwp, groupSum_last _ hlen, List.map_append]
      rfl
  rw [SafeReport, h.runlen]
  constructor
  · intro hsafe k hk
    have hg := hgroup k hk
    have hs := hsafe (by omega)
    refine ⟨hg.1.mp hs.1, ?_⟩
    rw [← hg.2.1, ← hg.2.2]
    exact hs.2
  · intro hall hend
    -- The index comes back to zero with this report, so it completes a group.
    have hk : rs.length + 1 = 5 * (rs.length / 5 + 1) := by omega
    have hg := hgroup _ hk
    have hs := hall _ hk
    refine ⟨hg.1.mpr hs.1, ?_⟩
    rw [hg.2.1, hg.2.2]
    exact hs.2

/-! ### Runs of ACK datagrams -/

/-- The fields of an ACK datagram. -/
theorem ackReport_bounds {data : List UInt8} {ndrop runlen : Nat}
    (h : ackReport data = some (ndrop, runlen)) : ndrop ≤ 0xFFFFFF ∧ runlen < 2 ^ 32 := by
  rw [ackReport] at h
  split at h
  · rename_i n start last hn hstart hlast
    split at h
    · cases h
    · cases h
      have hlt : last < 2 ^ 32 := get32_lt hlast
      exact ⟨Nat.and_le_right, by omega⟩
  · cases h

/-- `recv_ack` takes in the report of an ACK datagram, if there is one. -/
theorem recvAck_of_isAck {cfg : Config} (hone : cfg.oneonly = false) {data : List UInt8}
    (h : IsAck data) (g : Congest) :
    recvAck cfg data g =
      match ackReport data with
      | none => .ok g
      | some (ndrop, runlen) => congestAck ndrop runlen g := by
  have hlen := h.1
  rcases get32_ok (show 4 + 4 ≤ data.length by omega) with ⟨ndrop, hndrop, -⟩
  rcases get32_ok (show 12 + 4 ≤ data.length by omega) with ⟨start, hstart, -⟩
  rcases get32_ok (show 16 + 4 ≤ data.length by omega) with ⟨last, hlast, -⟩
  simp only [recvAck, ackReport, hone, Bool.false_eq_true, h.1, h.2, hndrop, hstart, hlast, ne_eq,
    not_true_eq_false, if_false]
  split <;> rfl

/-- A run of ACK datagrams feeds the windows, or divides by zero. Induction on the run, at
its end. -/
theorem run_recvAck {cfg : Config} (hone : cfg.oneonly = false) (pps : Pps)
    (datas : List (List UInt8)) (hdatas : ∀ data ∈ datas, IsAck data) :
    (Backed (datas.filterMap ackReport) ∧
        ∃ g, run (fun g data => recvAck cfg data g) (Congest.init pps) datas = .ok g ∧
          Fed g (datas.filterMap ackReport)) ∨
      (¬ Backed (datas.filterMap ackReport) ∧
        run (fun g data => recvAck cfg data g) (Congest.init pps) datas = .error .divZero) := by
  induction datas using List.reverseRecOn with
  | nil => exact Or.inl ⟨backed_nil, _, rfl, fed_init pps⟩
  | append_singleton datas data ih =>
      have hack : IsAck data := hdatas data (by simp)
      have hstep := recvAck_of_isAck hone hack
      rw [List.filterMap_append]
      rcases ih (fun d hd => hdatas d (List.mem_append_left _ hd)) with
        ⟨hback, g, hrun, hfed⟩ | ⟨hback, hrun⟩
      · cases hreport : ackReport data with
        | none =>
            simp only [hreport] at hstep
            rw [List.filterMap_cons_none hreport, List.filterMap_nil, List.append_nil]
            exact Or.inl ⟨hback, g, run_concat.mpr ⟨g, hrun, hstep g⟩, hfed⟩
        | some r =>
            rcases r with ⟨ndrop, runlen⟩
            have hbounds := ackReport_bounds hreport
            simp only [hreport] at hstep
            rw [List.filterMap_cons_some hreport, List.filterMap_nil, backed_concat,
              ← hfed.safeReport_iff hbounds.1]
            rcases congestAck_spec hfed.paired (show ndrop < 2 ^ 32 by omega) hbounds.2 with
              ⟨hsafe, g', hg', -⟩ | ⟨hsafe, herr⟩
            · exact Or.inl ⟨⟨hback, hsafe⟩, g',
                run_concat.mpr ⟨g, hrun, (hstep g).trans hg'⟩,
                hfed.congestAck hbounds.1 hbounds.2 hg'⟩
            · refine Or.inr ⟨fun h => hsafe h.2, ?_⟩
              exact run_concat_error hrun ((hstep g).trans herr)
      -- The run has ended in the error before this report. A prefix that is not backed is not
      -- made so by what follows it.
      · refine Or.inr ⟨?_, run_append_error hrun⟩
        intro hall
        apply hback
        cases hreport : ackReport data with
        | none =>
            rwa [List.filterMap_cons_none hreport, List.filterMap_nil, List.append_nil] at hall
        | some r =>
            rw [List.filterMap_cons_some hreport, List.filterMap_nil, backed_concat] at hall
            exact hall.1

/-- In single-only mode `recv_ack` takes nothing in. -/
theorem run_recvAck_oneonly {cfg : Config} (hone : cfg.oneonly = true) (g : Congest)
    (datas : List (List UInt8)) : run (fun g data => recvAck cfg data g) g datas = .ok g := by
  induction datas with
  | nil => rfl
  | cons data datas ih =>
      have hstep : recvAck cfg data g = .ok g := if_pos hone
      rw [run_cons_ok _ hstep]
      exact ih

/-- When `recv_ack` divides by zero. Over any run of ACK datagrams, it never does exactly in
single-only mode, or when each group of five reports with drops has packets. -/
theorem recvAck_survives_iff (cfg : Config) (pps : Pps) (datas : List (List UInt8))
    (hdatas : ∀ data ∈ datas, IsAck data) :
    run (fun g data => recvAck cfg data g) (Congest.init pps) datas ≠ .error .divZero ↔
      cfg.oneonly = true ∨ Backed (datas.filterMap ackReport) := by
  cases hone : cfg.oneonly with
  | true =>
      rw [run_recvAck_oneonly hone]
      exact iff_of_true (fun h => by cases h) (Or.inl rfl)
  | false =>
      have hor : (false = true ∨ Backed (datas.filterMap ackReport)) ↔
          Backed (datas.filterMap ackReport) := by simp
      rw [hor]
      rcases run_recvAck hone pps datas hdatas with ⟨hback, g, hrun, -⟩ | ⟨hback, hrun⟩
      · rw [hrun]
        exact iff_of_true (fun h => by cases h) hback
      · exact iff_of_false (fun h => h hrun) hback

/-- The ACK datagram for the sequence numbers from `start` to `last`. -/
def ackDatagram (ndrop start last : Nat) : List UInt8 :=
  [0xFF, 0xFF, 0xFF, 0xFF] ++ put32 (0x40000000 ||| ndrop) ++ put32 0 ++ put32 start ++ put32 last

/-- Twelve reports of five datagrams each, with no drop, one and two in turn. -/
def twelveReports : List (List UInt8) :=
  (List.range 12).map fun k => ackDatagram (k % 3) (5 * k + 1) (5 * k + 5)

/-- Two groups of five are complete, and each of them has drops and packets. -/
theorem recvAck_survives_twelve :
    run (fun g data => recvAck ⟨1500, false, false⟩ data g) (Congest.init ⟨100, 100, 10000000⟩)
      twelveReports ≠ .error .divZero := by
  refine (recvAck_survives_iff ⟨1500, false, false⟩ _ twelveReports (by decide)).mpr (Or.inr ?_)
  intro k hk
  have hlen : (twelveReports.filterMap ackReport).length = 12 := by decide
  have hgroup : k = 0 ∨ k = 1 := by omega
  rcases hgroup with rfl | rfl <;> decide

/-- Five honest reports of one datagram each, with a drop in the first of them. -/
theorem recvAck_divides_by_zero : ¬ ∀ (cfg : Config) (pps : Pps) (datas : List (List UInt8)),
    (∀ data ∈ datas, IsAck data) →
      run (fun g data => recvAck cfg data g) (Congest.init pps) datas ≠ .error .divZero := by
  intro h
  exact h ⟨1500, false, false⟩ ⟨100, 100, 10000000⟩
    [ackDatagram 1 1 1, ackDatagram 0 2 2, ackDatagram 0 3 3, ackDatagram 0 4 4, ackDatagram 0 5 5]
    (by decide) (by decide)

end Proofs

end Iptfs
