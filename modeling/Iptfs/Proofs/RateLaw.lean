import Iptfs.Proofs.Rate

/-!
# `Iptfs.Proofs.RateLaw`: the sending rate over a whole run

`recv_ack` keeps two running averages and acts at the end of a window. Seen over a whole run it is
simpler: the reports fall into groups of five, and the drops of a group alone decide what happens to
the rate at its end (`rateLaw`). The numbers of packets do not count, neither do the other groups.
`rate_law` is this.

A group without drops is one step up. `rate_recovers` follows from it: whatever has happened
before, after five times the target rate of reports without drops the sender is back at its target.
-/

set_option autoImplicit false

namespace Iptfs

/-- The rate after a group of five reports with `drops` drops. -/
def ratePps (p : Pps) (drops : Nat) : Pps :=
  if drops = 0 then ppsChangePps p 1 else ppsChangePps p (-(max 1 (drops / 5) : Nat))

/-- The rate after the first `n` groups of the reports. -/
def rateAfter (p : Pps) (reports : List (Nat × Nat)) : Nat → Pps
  | 0 => p
  | n + 1 => ratePps (rateAfter p reports n) (groupSum Prod.fst reports n)

/-- The rate after all the groups. A group that is not complete does not count. -/
def rateLaw (p : Pps) (reports : List (Nat × Nat)) : Pps :=
  rateAfter p reports (reports.length / 5)

namespace Proofs

open Iptfs.Lib

/-! ### The law -/

/-- What comes later does not change the groups before. -/
theorem rateAfter_concat (p : Pps) {rs : List (Nat × Nat)} (r : Nat × Nat) :
    ∀ n, 5 * n ≤ rs.length → rateAfter p (rs ++ [r]) n = rateAfter p rs n := by
  intro n
  induction n with
  | zero => exact fun _ => rfl
  | succ n ih =>
      intro hn
      rw [rateAfter, rateAfter, ih (by omega), groupSum_concat Prod.fst hn]

/-- `runavg_add` ticks at the end of its window. -/
theorem runavgAdd_ticked {avg avg' : Runavg} {value : Nat} {ticked : Bool}
    (h : runavgAdd avg value = .ok (avg', ticked)) :
    ticked = decide (avg.index + 1 = avg.runlen) := by
  rw [runavgAdd] at h
  split at h
  · cases h
  · obtain ⟨-, heq⟩ := ite_error_eq_ok.mp h
    exact (congrArg Prod.snd heq).symm

/-- The windows hold the reports, and the rate is what the law says. -/
structure Governed (p : Pps) (g : Congest) (rs : List (Nat × Nat)) : Prop where
  fed : Fed g rs
  pps : g.pps = rateLaw p rs

/-- No report has come, and the rate is that of the start. -/
theorem governed_init (p : Pps) : Governed p (Congest.init p) [] := ⟨fed_init p, rfl⟩

/-- The rate after one more report. -/
theorem Fed.pps_concat {g g' : Congest} {rs : List (Nat × Nat)} (h : Fed g rs)
    {ndrop runlen : Nat} (hn : ndrop ≤ 0xFFFFFF) (hg' : Iptfs.congestAck ndrop runlen g = .ok g') :
    g'.pps = if rs.length % 5 = 4 then
        ratePps g.pps (groupSum Prod.fst (rs ++ [(ndrop, runlen)]) (rs.length / 5))
      else g.pps := by
  obtain ⟨ticked, ticked', -, hdrops, hpps⟩ := congestAck_eq_ok hg'
  have hrunlen : g.avgdrops.runlen = 5 := by rw [h.paired.runlen, h.runlen]
  have hindex : g.avgdrops.index = rs.length % 5 := by
    rw [h.drops.index_eq, List.length_map]
  have hticked := runavgAdd_ticked hdrops
  rw [hindex, hrunlen] at hticked
  by_cases hend : rs.length % 5 = 4
  · -- The report completes a group.
    have hk : rs.length + 1 = 5 * (rs.length / 5 + 1) := by omega
    have hlen : (rs ++ [(ndrop, runlen)]).length = 5 * (rs.length / 5 + 1) := by
      rw [List.length_append, List.length_singleton, hk]
    have htick := average_of_tick h.paired.avgdrops (by omega) hdrops
    have hsum : (Runavg.written g.avgdrops ndrop).sum ≤ 5 * 0xFFFFFF := h.sum_drops_le hn
    have hgroup : (Runavg.written g.avgdrops ndrop).sum =
        groupSum Prod.fst (rs ++ [(ndrop, runlen)]) (rs.length / 5) := by
      rw [groupSum_last _ hlen, List.map_append]
      exact sum_written h.drops (by rw [List.length_map, hk]) ndrop
    have haverage := htick.2
    rw [hrunlen, Nat.mod_eq_of_lt (by omega), hgroup] at haverage
    rw [if_pos hend, hpps, htick.1, if_neg (by decide), ratePps]
    by_cases hzero : groupSum Prod.fst (rs ++ [(ndrop, runlen)]) (rs.length / 5) = 0
    · rw [hzero, if_neg (by simp)] at haverage
      rw [if_pos haverage, if_pos hzero]
    · rw [if_pos hzero] at haverage
      rw [if_neg (by omega), if_neg hzero, haverage]
  · rw [if_neg hend, hpps, hticked, if_pos (by rw [decide_eq_false_iff_not]; omega)]

/-- A report that `recv_ack` survives. -/
theorem Governed.congestAck {p : Pps} {g g' : Congest} {rs : List (Nat × Nat)}
    (h : Governed p g rs) {ndrop runlen : Nat} (hn : ndrop ≤ 0xFFFFFF) (hr : runlen < 2 ^ 32)
    (hg' : Iptfs.congestAck ndrop runlen g = .ok g') : Governed p g' (rs ++ [(ndrop, runlen)]) := by
  refine ⟨h.fed.congestAck hn hr hg', ?_⟩
  rw [h.fed.pps_concat hn hg', h.pps, rateLaw, rateLaw, List.length_append, List.length_singleton]
  by_cases hend : rs.length % 5 = 4
  · have hnext : (rs.length + 1) / 5 = rs.length / 5 + 1 := by omega
    rw [if_pos hend, hnext, rateAfter, rateAfter_concat p _ _ (by omega)]
  · have hsame : (rs.length + 1) / 5 = rs.length / 5 := by omega
    rw [if_neg hend, hsame, rateAfter_concat p _ _ (by omega)]

/-- A run of ACK datagrams. Induction on the run, at its end. -/
theorem governed_of_run {cfg : Config} (hone : cfg.oneonly = false) (p : Pps) :
    ∀ {datas : List (List UInt8)} {g : Congest}, (∀ data ∈ datas, IsAck data) →
      run (fun g data => recvAck cfg data g) (Congest.init p) datas = .ok g →
        Governed p g (datas.filterMap ackReport) := by
  intro datas
  induction datas using List.reverseRecOn with
  | nil =>
      intro g _ hrun
      cases hrun
      exact governed_init p
  | append_singleton datas data ih =>
      intro g hdatas hrun
      obtain ⟨g₁, hg₁, hlast⟩ := run_concat.mp hrun
      have hbefore := ih (fun d hd => hdatas d (List.mem_append_left _ hd)) hg₁
      rw [recvAck_of_isAck hone (hdatas data (by simp))] at hlast
      rw [List.filterMap_append]
      cases hreport : ackReport data with
      | none =>
          simp only [hreport] at hlast
          cases hlast
          rw [List.filterMap_cons_none hreport, List.filterMap_nil, List.append_nil]
          exact hbefore
      | some r =>
          obtain ⟨ndrop, runlen⟩ := r
          simp only [hreport] at hlast
          obtain ⟨hn, hr⟩ := ackReport_bounds hreport
          rw [List.filterMap_cons_some hreport, List.filterMap_nil]
          exact hbefore.congestAck hn hr hlast

/-- The sending rate after any run of ACK datagrams that `recv_ack` survives: it depends on the drop
counts in the complete groups of five reports, one group after the other, and on nothing else. -/
theorem rate_law (cfg : Config) (hone : cfg.oneonly = false) (p : Pps) (datas : List (List UInt8))
    (hdatas : ∀ data ∈ datas, IsAck data) (g : Congest)
    (hrun : run (fun g data => recvAck cfg data g) (Congest.init p) datas = .ok g) :
    g.pps = rateLaw p (datas.filterMap ackReport) :=
  (governed_of_run hone p hdatas hrun).pps

/-- Ten drops in each of five reports, then two reports more. -/
theorem rate_law_ten : ∃ g,
    run (fun g data => recvAck ⟨1500, false, false⟩ data g)
      (Congest.init ⟨1000, 1000, 1000000⟩) (fourReports 10 ++ [ackDatagram 10 405 505] ++
        [ackDatagram 0 506 606, ackDatagram 0 607 707]) = .ok g ∧
      g.pps.pps = 990 ∧
      g.pps = rateLaw ⟨1000, 1000, 1000000⟩
        ((fourReports 10 ++ [ackDatagram 10 405 505] ++
          [ackDatagram 0 506 606, ackDatagram 0 607 707]).filterMap ackReport) := by
  refine ⟨_, rfl, by decide +kernel, ?_⟩
  exact rate_law ⟨1500, false, false⟩ rfl ⟨1000, 1000, 1000000⟩ _ (by decide) _ rfl

/-! ### Recovery -/

/-- A change of the rate leaves the target. -/
theorem ppsChangePps_targetPps (p : Pps) (change : Int) :
    (ppsChangePps p change).targetPps = p.targetPps := by
  have hstore : ∀ n : Nat, (if n ≠ p.pps then
      { p with pps := n, ival := NSECS_IN_SEC / n } else p).targetPps = p.targetPps := by
    intro n
    split <;> rfl
  exact hstore _

/-- The rate is between one and the target. -/
structure Bounded (target : Nat) (p : Pps) : Prop where
  targetPps : p.targetPps = target
  pps_pos : 1 ≤ p.pps
  pps_le : p.pps ≤ target

/-- Every change of the rate keeps it there. -/
theorem Bounded.change {target : Nat} {p : Pps} (h : Bounded target p) (change : Int) :
    Bounded target (ppsChangePps p change) := by
  have hpos := h.pps_pos
  have hle := h.pps_le
  refine ⟨(ppsChangePps_targetPps p change).trans h.targetPps, ?_, ?_⟩
  · rw [ppsChangePps_pps]
    omega
  · rw [ppsChangePps_pps, h.targetPps]
    omega

/-- The change after a group of five reports, up or down. -/
theorem Bounded.ratePps {target : Nat} {p : Pps} (h : Bounded target p) (drops : Nat) :
    Bounded target (ratePps p drops) := by
  unfold Iptfs.ratePps
  split
  · exact h.change 1
  · exact h.change _

/-- The rate after any number of groups. Induction on the groups. -/
theorem Bounded.rateAfter {target : Nat} {p : Pps} (h : Bounded target p)
    (rs : List (Nat × Nat)) (n : Nat) : Bounded target (rateAfter p rs n) := by
  induction n with
  | zero => exact h
  | succ n ih => exact ih.ratePps _

/-- A group without drops is one step up, to the target at most. -/
theorem Bounded.up {target : Nat} {p : Pps} (h : Bounded target p) (ht : target + 1 < 2 ^ 32) :
    (Iptfs.ratePps p 0).pps = min (p.pps + 1) target := by
  have hpos := h.pps_pos
  have hle := h.pps_le
  rw [Iptfs.ratePps, if_pos rfl, ppsChangePps_pps, h.targetPps]
  omega

/-- Some groups without drops, after any others. -/
theorem Bounded.climb {target : Nat} {p : Pps} (h : Bounded target p) (ht : target + 1 < 2 ^ 32)
    {rs : List (Nat × Nat)} {before : Nat} :
    ∀ n, (∀ k, before ≤ k → k < before + n → groupSum Prod.fst rs k = 0) →
      (Iptfs.rateAfter p rs (before + n)).pps =
        min ((Iptfs.rateAfter p rs before).pps + n) target := by
  intro n
  induction n with
  | zero =>
      intro _
      have hle := (h.rateAfter rs before).pps_le
      show (Iptfs.rateAfter p rs before).pps = _
      omega
  | succ n ih =>
      intro hclean
      have hlast := hclean (before + n) (by omega) (by omega)
      have hrest := ih fun k hk hlt => hclean k hk (by omega)
      show (Iptfs.ratePps (Iptfs.rateAfter p rs (before + n))
        (groupSum Prod.fst rs (before + n))).pps = _
      rw [hlast, (h.rateAfter rs (before + n)).up ht, hrest]
      omega

/-- A group of reports without drops. -/
theorem groupSum_clean {rs more : List (Nat × Nat)} (hclean : ∀ r ∈ more, r.1 = 0) {k : Nat}
    (hk : rs.length ≤ 5 * k) : groupSum Prod.fst (rs ++ more) k = 0 := by
  rw [groupSum, List.drop_append, List.drop_eq_nil_of_le hk, List.nil_append]
  apply List.sum_eq_zero
  intro d hd
  obtain ⟨r, hr, rfl⟩ := List.mem_map.mp hd
  exact hclean r (List.mem_of_mem_drop (List.mem_of_mem_take hr))

/-- The sender recovers. Whatever ACKs came before, after `5 * target_pps` reports without drops the
rate is back at the target, and it stays there while no more drops are reported. -/
theorem rate_recovers (cfg : Config) (hone : cfg.oneonly = false) (p : Pps) (hp : 1 ≤ p.pps)
    (hle : p.pps ≤ p.targetPps) (ht : p.targetPps + 1 < 2 ^ 32) (datas more : List (List UInt8))
    (hacks : ∀ data ∈ datas ++ more, IsAck data)
    (hclean : ∀ r ∈ more.filterMap ackReport, r.1 = 0)
    (henough : 5 * p.targetPps ≤ (more.filterMap ackReport).length) (g : Congest)
    (hrun : run (fun g data => recvAck cfg data g) (Congest.init p) (datas ++ more) = .ok g) :
    g.pps.pps = p.targetPps := by
  have hlaw := (governed_of_run hone p hacks hrun).pps
  rw [List.filterMap_append] at hlaw
  generalize datas.filterMap ackReport = rs at hlaw
  generalize more.filterMap ackReport = clean at hclean henough hlaw
  have hbounded : Bounded p.targetPps p := ⟨rfl, hp, hle⟩
  -- The first group that has no report from before, and the number of groups from there on.
  obtain ⟨before, hbefore⟩ : ∃ before, before = (rs.length + 4) / 5 := ⟨_, rfl⟩
  obtain ⟨n, hn⟩ : ∃ n, (rs ++ clean).length / 5 = before + n := by
    refine ⟨(rs ++ clean).length / 5 - before, ?_⟩
    rw [List.length_append]
    omega
  have hlater : ∀ k, before ≤ k → k < before + n → groupSum Prod.fst (rs ++ clean) k = 0 :=
    fun k hk _ => groupSum_clean hclean (by omega)
  have hclimb := hbounded.climb ht n hlater
  have hpos := (hbounded.rateAfter (rs ++ clean) before).pps_pos
  have hmany : p.targetPps ≤ n + 1 := by
    rw [List.length_append] at hn
    omega
  rw [hlaw, rateLaw, hn, hclimb]
  omega

/-- With a target of two the rate is halved, and ten reports bring it back. -/
theorem rate_recovers_two : ∃ g,
    run (fun g data => recvAck ⟨1500, false, false⟩ data g) (Congest.init ⟨2, 2, 500000000⟩)
      ((fourReports 1 ++ [ackDatagram 1 405 505]) ++
        (fourReports 0 ++ fourReports 0 ++ [ackDatagram 0 1 2, ackDatagram 0 1 2])) = .ok g ∧
      g.pps.pps = 2 := by
  refine ⟨_, rfl, ?_⟩
  exact rate_recovers ⟨1500, false, false⟩ rfl ⟨2, 2, 500000000⟩ (by decide) (by decide) (by decide)
    (fourReports 1 ++ [ackDatagram 1 405 505])
    (fourReports 0 ++ fourReports 0 ++ [ackDatagram 0 1 2, ackDatagram 0 1 2])
    (by decide) (by decide) (by decide) _ rfl

end Proofs

end Iptfs
