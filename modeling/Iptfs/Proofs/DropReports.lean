import Iptfs.Lib.Run
import Iptfs.Proofs.Receiver
import Iptfs.Spec.DropReports

/-!
# `Iptfs.Proofs.DropReports`: when the drop counts are right

Four places of `read_tfs_pkts` count a drop. Against a peer that numbers its datagrams in
order, two of them matter: the limiter, and the gap before an accepted datagram. They see
the same loss, so a datagram that the limiter rejects is counted twice, once by each. And
after an ACK `ack.last` is zero, so the next gap is counted by neither.

`Tallied` is the invariant between two accepted datagrams: apart from wraps of `ack.ndrop`,
the counts are what they should be plus the datagrams rejected since.
`counted_iff_countsOnce` is the main result: the condition on the passes, and its converse
for runs of less than `2 ^ 32` passes.
-/

set_option autoImplicit false

namespace Iptfs.Proofs

open Iptfs.Lib

/-! ### The sequence numbers that were not accepted -/

/-- A later datagram is accepted: those between it and the one before are skipped. -/
theorem skipped_concat {accepted : List Nat} {latest seq : Nat}
    (hlast : accepted.getLast? = some latest) (hmax : ∀ a ∈ accepted, a ≤ latest)
    (hlt : latest < seq) :
    skipped (accepted ++ [seq]) = skipped accepted + (seq - (latest + 1)) := by
  obtain ⟨first, hfirst⟩ : ∃ first, accepted.head? = some first := by
    cases accepted with
    | nil => cases hlast
    | cons a as => exact ⟨a, rfl⟩
  have hle : first ≤ latest := hmax first (List.mem_of_mem_head? hfirst)
  have hhead : (accepted ++ [seq]).head? = some first := by
    rw [List.head?_append, hfirst]
    rfl
  -- The range is cut in three: up to `latest`, the gap, and `seq` itself.
  have hrange : List.range' first (seq + 1 - first) =
      List.range' first (latest + 1 - first) ++
        (List.range' (latest + 1) (seq - (latest + 1)) ++ [seq]) := by
    have hgap : List.range' (latest + 1) (seq - (latest + 1)) ++ [seq] =
        List.range' (latest + 1) (seq - (latest + 1) + 1) := by
      rw [← List.range'_append_1, show latest + 1 + (seq - (latest + 1)) = seq by omega]
      rfl
    have hjoin := @List.range'_append_1 first (latest + 1 - first) (seq - (latest + 1) + 1)
    rw [show first + (latest + 1 - first) = latest + 1 by omega] at hjoin
    rw [hgap, hjoin]
    congr 1
    omega
  have hold : (List.range' first (latest + 1 - first)).filter (fun n => n ∉ accepted ++ [seq]) =
      (List.range' first (latest + 1 - first)).filter (fun n => n ∉ accepted) := by
    apply List.filter_congr
    intro n hn
    have hle := (List.mem_range'_1.mp hn).2
    have hne : n ≠ seq := by omega
    simp [hne]
  have hgap : (List.range' (latest + 1) (seq - (latest + 1))).filter
      (fun n => n ∉ accepted ++ [seq]) = List.range' (latest + 1) (seq - (latest + 1)) := by
    rw [List.filter_eq_self]
    intro n hn
    have hn' := List.mem_range'_1.mp hn
    have hne : n ≠ seq := by omega
    have hnot : n ∉ accepted := by
      intro hmem
      have := hmax n hmem
      omega
    simp [hne, hnot]
  have hseq : [seq].filter (fun n => n ∉ accepted ++ [seq]) = [] := by simp
  rw [skipped, skipped, hhead, hfirst, hlast, List.getLast?_concat]
  dsimp only
  rw [hrange, List.filter_append, List.filter_append, hold, hgap, hseq, List.append_nil,
    List.length_append, List.length_range']

/-- There are at most `latest` of them. -/
theorem skipped_le {accepted : List Nat} {latest : Nat}
    (hlast : accepted.getLast? = some latest) (hpos : ∀ a ∈ accepted, 1 ≤ a) :
    skipped accepted ≤ latest := by
  cases accepted with
  | nil => cases hlast
  | cons first as =>
      have h1 := hpos first (by simp)
      rw [skipped, hlast]
      dsimp only [List.head?_cons]
      refine Nat.le_trans (List.length_filter_le _ _) ?_
      rw [List.length_range']
      omega

/-- Nothing accepted leaves nothing out. -/
theorem skipped_nil : skipped [] = 0 := rfl

/-- One datagram leaves nothing out: the range begins and ends with it. -/
theorem skipped_singleton (seq : Nat) : skipped [seq] = 0 := by
  rw [skipped]
  simp

/-! ### Passes that accept nothing -/

/-- A datagram of 8 bytes or more that the limiter rejects is counted as that. -/
theorem classify_limited {data : List UInt8} (h : 8 ≤ data.length) :
    classify data true = .ok .limited := by
  rw [classify, if_neg (by omega), if_neg (by omega), if_pos rfl]

/-- An ACK datagram has 8 bytes or more. -/
theorem length_of_classify_ack {data : List UInt8} (h : classify data false = .ok .ack) :
    8 ≤ data.length := by
  rw [classify] at h
  by_cases h0 : data.length = 0
  · rw [if_pos h0] at h
    cases h
  · by_cases h8 : data.length < 8
    · rw [if_neg h0, if_pos h8] at h
      cases h
    · omega

/-- Where the ACK timer fires, the count moves to the reports. -/
theorem AckTimed.total {cfg : Config} {timer : Option Timespec} {s s' : Rx}
    (h : AckTimed cfg timer s s') :
    s'.reports.sum + s'.ack.ndrop = s.reports.sum + s.ack.ndrop := by
  rw [h.reports, h.ack, ackAfter]
  split
  · show (s.reports ++ [s.ack.ndrop]).sum + 0 = _
    rw [List.sum_append, List.sum_singleton, Nat.add_zero]
  · rfl

/-! ### The invariant -/

/-- The receiver between two passes, while every datagram accepted so far has left the
counts right. The peer has used the numbers below `n`. -/
structure Tallied (n : Nat) (t : Tally) : Prop where
  pos : 1 ≤ n
  below : ∀ a ∈ t.rx.accepted, 1 ≤ a ∧ a < n
  latest : ∀ l, t.rx.accepted.getLast? = some l → ∀ a ∈ t.rx.accepted, a ≤ l
  /-- `ack.last` is the latest number accepted, until an ACK clears it. -/
  last : t.rx.ack.last = 0 ∨ t.rx.accepted.getLast? = some t.rx.ack.last
  ndrop : t.rx.ack.ndrop < 2 ^ 32
  /-- The datagrams rejected since are counted on top. `wraps` are the wraps of `ack.ndrop`. -/
  total : ∃ wraps, t.rx.reports.sum + t.rx.ack.ndrop + 2 ^ 32 * wraps =
    skipped t.rx.accepted + t.rejected

/-- Nothing has come, and the peer is about to use the number 1. -/
theorem tallied_init (pps : Pps) : Tallied 1 (Tally.init pps) where
  pos := Nat.le_refl 1
  below := by
    intro a ha
    cases ha
  latest := by
    intro l hl
    cases hl
  last := .inl rfl
  ndrop := Nat.two_pow_pos 32
  total := ⟨0, rfl⟩

/-- The peer goes on. -/
theorem Tallied.mono {n k : Nat} {t : Tally} (h : Tallied n t) (hle : n ≤ k) : Tallied k t where
  pos := Nat.le_trans h.pos hle
  below := fun a ha => ⟨(h.below a ha).1, Nat.lt_of_lt_of_le (h.below a ha).2 hle⟩
  latest := h.latest
  last := h.last
  ndrop := h.ndrop
  total := h.total

/-- The ACK timer keeps the invariant. -/
theorem Tallied.timer {cfg : Config} {timer : Option Timespec} {n : Nat} {t : Tally} {s : Rx}
    (h : Tallied n t) (htimed : AckTimed cfg timer t.rx s) : Tallied n ⟨s, t.rejected⟩ := by
  have hack : s.ack = .zero ∨ s.ack = t.rx.ack := by
    rw [htimed.ack, ackAfter]
    split
    · exact .inl rfl
    · exact .inr rfl
  refine ⟨h.pos, ?_, ?_, ?_, ?_, ?_⟩
  · rw [htimed.accepted]
    exact h.below
  · rw [htimed.accepted]
    exact h.latest
  · show s.ack.last = 0 ∨ s.accepted.getLast? = some s.ack.last
    rcases hack with hz | hz
    · exact .inl (by rw [hz]; rfl)
    · rw [hz, htimed.accepted]
      exact h.last
  · show s.ack.ndrop < 2 ^ 32
    rcases hack with hz | hz
    · rw [hz]
      exact Nat.two_pow_pos 32
    · rw [hz]
      exact h.ndrop
  · show ∃ wraps, s.reports.sum + s.ack.ndrop + 2 ^ 32 * wraps = skipped s.accepted + t.rejected
    rw [htimed.total, htimed.accepted]
    exact h.total

/-- A rejection is counted, and kept in mind. -/
theorem Tallied.reject {n : Nat} {t : Tally} (h : Tallied n t) :
    Tallied n ⟨t.rx.drop, t.rejected + 1⟩ := by
  obtain ⟨wraps, htotal⟩ := h.total
  have hlt := h.ndrop
  refine ⟨h.pos, h.below, h.latest, h.last, Nat.mod_lt _ (Nat.two_pow_pos 32), ?_⟩
  show ∃ wraps, t.rx.reports.sum + (t.rx.ack.ndrop + 1) % 2 ^ 32 + 2 ^ 32 * wraps =
    skipped t.rx.accepted + (t.rejected + 1)
  by_cases hwrap : t.rx.ack.ndrop + 1 = 2 ^ 32
  · refine ⟨wraps + 1, ?_⟩
    rw [hwrap, Nat.mod_self]
    omega
  · refine ⟨wraps, ?_⟩
    rw [Nat.mod_eq_of_lt (by omega)]
    omega

/-- What a datagram in order adds to `ack.ndrop`: the gap before it, unless `ack.last` has
been cleared. -/
theorem ndrop_advance {ack : Ackinfo} {seq : Nat} (hlast : ack.last < seq) (hseq : seq < 2 ^ 32)
    (hndrop : ack.ndrop < 2 ^ 32) :
    ((ack.begin seq).advance seq).ndrop =
      if ack.last = 0 then ack.ndrop
      else (ack.ndrop + (seq - (ack.last + 1))) % 2 ^ 32 := by
  show (if ack.gap seq then (ack.ndrop + (seq + 2 ^ 32 - (ack.last + 1)) % 2 ^ 32) % 2 ^ 32
    else ack.ndrop) = _
  have hnext : (ack.last + 1) % 2 ^ 32 = ack.last + 1 := Nat.mod_eq_of_lt (by omega)
  by_cases h0 : ack.last = 0
  · rw [if_neg (fun h => h.2 h0), if_pos h0]
  · rw [if_neg h0]
    by_cases hgap : seq = ack.last + 1
    · have hno : ¬ ack.gap seq := fun h => h.1 (by rw [hnext, hgap])
      rw [if_neg hno, hgap, Nat.sub_self, Nat.add_zero, Nat.mod_eq_of_lt hndrop]
    · have hyes : ack.gap seq := ⟨by rwa [hnext], h0⟩
      rw [if_pos hyes]
      congr 2
      omega

/-- The three sums at an accepted datagram: what the counts come to, what they should come
to, and what was there before. -/
theorem Tallied.sums {n seq : Nat} {t : Tally} {s' : Rx} (h : Tallied n t) (hn : n ≤ seq)
    (hseq : seq < 2 ^ 32) (hacc : s'.accepted = t.rx.accepted ++ [seq])
    (hrep : s'.reports = t.rx.reports) (hack : s'.ack = (t.rx.ack.begin seq).advance seq) :
    ∃ gap wraps counted,
      skipped s'.accepted = skipped t.rx.accepted + gap ∧ skipped s'.accepted < 2 ^ 32 ∧
      dueRejections t.rx.accepted.getLast? t.rx.ack.last seq + counted = gap ∧
      (counted = 0 ∨ dueRejections t.rx.accepted.getLast? t.rx.ack.last seq = 0) ∧
      s'.reports.sum + s'.ack.ndrop + 2 ^ 32 * wraps =
        skipped t.rx.accepted + t.rejected + counted := by
  obtain ⟨wraps, htotal⟩ := h.total
  cases hlatest : t.rx.accepted.getLast? with
  | none =>
      -- The first one.
      have hnil : t.rx.accepted = [] := List.getLast?_eq_none_iff.mp hlatest
      have hzero : t.rx.ack.last = 0 := by
        rcases h.last with hz | hl
        · exact hz
        · rw [hlatest] at hl
          cases hl
      have hpos := h.pos
      have hndrop := ndrop_advance (show t.rx.ack.last < seq by omega) hseq h.ndrop
      rw [if_pos hzero, ← hack] at hndrop
      refine ⟨0, wraps, 0, ?_, ?_, rfl, .inl rfl, ?_⟩
      · rw [hacc, hnil, List.nil_append, skipped_singleton, skipped_nil]
      · rw [hacc, hnil, List.nil_append, skipped_singleton]
        exact Nat.two_pow_pos 32
      · rw [hrep, hndrop, htotal]
        rfl
  | some latest =>
      have hmem : latest ∈ t.rx.accepted := List.mem_of_getLast? hlatest
      have hlt : latest < seq := Nat.lt_of_lt_of_le (h.below latest hmem).2 hn
      have hskip : skipped s'.accepted = skipped t.rx.accepted + (seq - (latest + 1)) := by
        rw [hacc]
        exact skipped_concat hlatest (h.latest latest hlatest) hlt
      have hle := skipped_le hlatest fun a ha => (h.below a ha).1
      by_cases hzero : t.rx.ack.last = 0
      · -- An ACK went out since, and the gap is not counted.
        have hndrop := ndrop_advance (show t.rx.ack.last < seq by omega) hseq h.ndrop
        rw [if_pos hzero, ← hack] at hndrop
        refine ⟨seq - (latest + 1), wraps, 0, hskip, by omega, ?_, .inl rfl, ?_⟩
        · rw [dueRejections]
          exact if_pos hzero
        · rw [hrep, hndrop, htotal]
          rfl
      · -- The gap is counted.
        have heq : t.rx.ack.last = latest := by
          rcases h.last with hz | hl
          · exact absurd hz hzero
          · rw [hlatest] at hl
            exact (Option.some.inj hl).symm
        have hndrop := ndrop_advance (show t.rx.ack.last < seq by omega) hseq h.ndrop
        rw [if_neg hzero, ← hack, heq] at hndrop
        have hdue : dueRejections (some latest) t.rx.ack.last seq = 0 := if_neg hzero
        have hlim := h.ndrop
        refine ⟨seq - (latest + 1), wraps + (t.rx.ack.ndrop + (seq - (latest + 1))) / 2 ^ 32,
          seq - (latest + 1), hskip, by omega, ?_, .inr hdue, ?_⟩
        · rw [hdue, Nat.zero_add]
        · rw [hrep, hndrop]
          have hdiv := Nat.div_add_mod (t.rx.ack.ndrop + (seq - (latest + 1))) (2 ^ 32)
          omega

/-- A datagram that is accepted. The counts are right if as many were rejected as are due,
and only then, unless the rejections wrap `ack.ndrop`. -/
theorem Tallied.accept {n seq : Nat} {t : Tally} {s' : Rx} (h : Tallied n t) (hn : n ≤ seq)
    (hseq : seq < 2 ^ 32) (hacc : s'.accepted = t.rx.accepted ++ [seq])
    (hrep : s'.reports = t.rx.reports) (hack : s'.ack = (t.rx.ack.begin seq).advance seq) :
    (t.rejected = dueRejections t.rx.accepted.getLast? t.rx.ack.last seq → s'.Counted) ∧
    (t.rejected < 2 ^ 32 → s'.Counted →
      t.rejected = dueRejections t.rx.accepted.getLast? t.rx.ack.last seq) ∧
    (s'.Counted → Tallied (seq + 1) ⟨s', 0⟩) := by
  -- All three parts come from one equation between the numbers skipped, the gap that the code
  -- counts, and the drops it has counted before.
  obtain ⟨gap, wraps, counted, hskip, hlt, hgap, hone, htotal⟩ := h.sums hn hseq hacc hrep hack
  have hpos := h.pos
  refine ⟨fun hdue => ?_, fun hlim hcounted => ?_, fun hcounted => ⟨by omega, ?_, ?_, ?_, ?_, ?_⟩⟩
  · show s'.reports.sum + s'.ack.ndrop = skipped s'.accepted
    omega
  · have hc : s'.reports.sum + s'.ack.ndrop = skipped s'.accepted := hcounted
    omega
  · intro a ha
    rw [hacc] at ha
    rcases List.mem_append.mp ha with ha | ha
    · have := h.below a ha
      omega
    · have : a = seq := List.mem_singleton.mp ha
      omega
  · intro l hl a ha
    simp only [hacc, List.getLast?_concat, Option.some.injEq] at hl
    rw [hacc] at ha
    rcases List.mem_append.mp ha with ha | ha
    · have := h.below a ha
      omega
    · have : a = seq := List.mem_singleton.mp ha
      omega
  · -- The datagram just accepted is the last one of both records.
    right
    show s'.accepted.getLast? = some s'.ack.last
    rw [hacc, hack, List.getLast?_concat]
    rfl
  · show s'.ack.ndrop < 2 ^ 32
    have hc : s'.reports.sum + s'.ack.ndrop = skipped s'.accepted := hcounted
    omega
  · exact ⟨0, hcounted⟩

/-! ### Runs -/

/-- What one pass does for the counts: the peer goes on from `k`, the condition makes the
counts right and is needed for it, and right counts keep the invariant. -/
structure PassCounts (cfg : Config) (k : Nat) (t : Tally) (e : RxEvent) (t' : Tally) : Prop where
  counted : CountsOnce cfg t e → CountedAfter cfg t e
  countsOnce : t.rejected < 2 ^ 32 → CountedAfter cfg t e → CountsOnce cfg t e
  tallied : CountedAfter cfg t e → Tallied k t'
  rejected : t'.rejected ≤ t.rejected + 1

/-- A pass that brings no data datagram, or one that the limiter rejects. -/
theorem passCounts_quiet {cfg : Config} {k : Nat} {t t' : Tally} {e : RxEvent} {s : Rx}
    (hno : ∀ id bytes seq, e.recv = .got id bytes false →
      classify (recvBytes bytes) false ≠ .ok (.data seq))
    (hpass : readTfsPktsStep cfg t.rx e = .ok s) (hsame : s.accepted = t.rx.accepted)
    (htallied : Tallied k ⟨s, if e.recv.rejected then t.rejected + 1 else t.rejected⟩)
    (hstep : tallyStep cfg t e = .ok t') : PassCounts cfg k t e t' := by
  have hkeep : ¬ t.rx.accepted ≠ s.accepted := not_not.mpr hsame.symm
  rw [tallyStep, hpass] at hstep
  simp only [if_neg hkeep] at hstep
  have ht' := (Except.ok.inj hstep).symm
  refine ⟨fun _ u hu hne => ?_, fun _ _ id bytes seq hgot hdata => ?_, fun _ => ?_, ?_⟩
  · -- Nothing is accepted.
    rw [tallyStep, hpass] at hu
    simp only [if_neg hkeep] at hu
    cases hu
    exact absurd hne hkeep
  · exact absurd hdata (hno id bytes seq hgot)
  · rw [ht']
    exact htallied
  · rw [ht']
    show (if e.recv.rejected then t.rejected + 1 else t.rejected) ≤ t.rejected + 1
    split <;> omega

/-- A pass in which the limiter rejects a datagram. -/
theorem passCounts_limited {cfg : Config} {n k : Nat} {t t' : Tally} {timer : Option Timespec}
    {id : Nat} {bytes : List UInt8} (h : Tallied n t) (hle : n ≤ k)
    (h8 : 8 ≤ (recvBytes bytes).length)
    (hstep : tallyStep cfg t ⟨timer, .got id bytes true⟩ = .ok t') :
    PassCounts cfg k t ⟨timer, .got id bytes true⟩ t' := by
  obtain ⟨s, hs, htimed⟩ := ackTimer_ok cfg timer t.rx
  have hlim := classify_limited h8
  have hpass : readTfsPktsStep cfg t.rx ⟨timer, .got id bytes true⟩ = .ok s.drop := by
    simp only [readTfsPktsStep, hs, hlim]
    rfl
  refine passCounts_quiet ?_ hpass htimed.accepted ?_ hstep
  · intro id' bytes' seq hgot
    cases hgot
  · have hrej : Recv.rejected (.got id bytes true) = true := decide_eq_true hlim
    rw [if_pos hrej]
    exact (h.timer htimed).reject.mono hle

/-- A pass in which an ACK datagram comes in. -/
theorem passCounts_ack {cfg : Config} {n : Nat} {t t' : Tally} {timer : Option Timespec}
    {id : Nat} {bytes : List UInt8} (h : Tallied n t)
    (hack : classify (recvBytes bytes) false = .ok .ack)
    (hstep : tallyStep cfg t ⟨timer, .got id bytes false⟩ = .ok t') :
    PassCounts cfg n t ⟨timer, .got id bytes false⟩ t' := by
  obtain ⟨s, hs, htimed⟩ := ackTimer_ok cfg timer t.rx
  have hpass : readTfsPktsStep cfg t.rx ⟨timer, .got id bytes false⟩ =
      (recvAck cfg (recvBytes bytes) s.congest).map fun g => { s with congest := g } := by
    simp only [readTfsPktsStep, hs, hack]
    rfl
  cases hg : recvAck cfg (recvBytes bytes) s.congest with
  | error f =>
      rw [tallyStep, hpass, hg] at hstep
      cases hstep
  | ok g =>
      rw [hg] at hpass
      have hs' := h.timer htimed
      refine passCounts_quiet ?_ hpass htimed.accepted ?_ hstep
      · intro id' bytes' seq hgot hdata
        cases hgot
        rw [hack] at hdata
        cases hdata
      · have hrej : ¬ Recv.rejected (.got id bytes false) = true := by
          rw [Recv.rejected, hack]
          decide
        rw [if_neg hrej]
        exact ⟨hs'.pos, hs'.below, hs'.latest, hs'.last, hs'.ndrop, hs'.total⟩

/-- A pass in which a data datagram gets past the limiter. It is accepted. -/
theorem passCounts_data {cfg : Config} {n seq : Nat} {t t' : Tally} {timer : Option Timespec}
    {id : Nat} {bytes : List UInt8} (h : Tallied n t) (hn : n ≤ seq)
    (hdata : classify (recvBytes bytes) false = .ok (.data seq))
    (hstep : tallyStep cfg t ⟨timer, .got id bytes false⟩ = .ok t') :
    PassCounts cfg (seq + 1) t ⟨timer, .got id bytes false⟩ t' := by
  obtain ⟨s, hs, htimed⟩ := ackTimer_ok cfg timer t.rx
  have hs' := h.timer htimed
  obtain ⟨-, h8, hget⟩ := classify_data hdata
  have hseq : seq < 2 ^ 32 := by
    obtain ⟨v, hv, hlt⟩ := get32_ok (show 0 + 4 ≤ (recvBytes bytes).length by omega)
    rw [hget] at hv
    cases hv
    exact hlt
  -- A datagram in order is never an old one.
  have hlast : s.ack.last < seq := by
    have hpos := h.pos
    rcases hs'.last with hz | hl
    · have hz' : s.ack.last = 0 := hz
      omega
    · have hb : s.ack.last < n := (hs'.below s.ack.last (List.mem_of_getLast? hl)).2
      omega
  have hpass : readTfsPktsStep cfg t.rx ⟨timer, .got id bytes false⟩ =
      acceptData (Tbuf.fresh id (recvBytes bytes)) seq s := by
    simp only [readTfsPktsStep, hs, hdata]
    rfl
  cases ha : acceptData (Tbuf.fresh id (recvBytes bytes)) seq s with
  | error f =>
      rw [tallyStep, hpass, ha] at hstep
      cases hstep
  | ok s' =>
      obtain ⟨hacc, hrep, hack⟩ := acceptData_accepts hlast ha
      have hne : t.rx.accepted ≠ s'.accepted := by
        rw [hacc, htimed.accepted]
        intro heq
        have hlen := congrArg List.length heq
        simp at hlen
      have ht : tallyStep cfg t ⟨timer, .got id bytes false⟩ = .ok ⟨s', 0⟩ := by
        rw [tallyStep, hpass, ha]
        simp only [if_pos hne]
      rw [ht] at hstep
      cases hstep
      obtain ⟨hdue, hneed, hkeep⟩ := hs'.accept hn hseq hacc hrep hack
      have hafter : CountedAfter cfg t ⟨timer, .got id bytes false⟩ ↔ s'.Counted := by
        constructor
        · intro hc
          exact hc _ ht hne
        · intro hc u hu _
          rw [ht] at hu
          cases hu
          exact hc
      have honce : CountsOnce cfg t ⟨timer, .got id bytes false⟩ ↔
          t.rejected = dueRejections s.accepted.getLast? s.ack.last seq := by
        rw [htimed.accepted, htimed.ack]
        constructor
        · intro hc
          exact hc id bytes seq rfl hdata
        · intro hc id' bytes' seq' hgot hdata'
          cases hgot
          rw [hdata] at hdata'
          cases hdata'
          exact hc
      exact ⟨fun hc => hafter.mpr (hdue (honce.mp hc)),
        fun hlim hc => honce.mpr (hneed hlim (hafter.mp hc)),
        fun hc => hkeep (hafter.mp hc), Nat.zero_le _⟩

/-- One pass. The cases are those of `Wire`. -/
theorem tallyStep_spec {cfg : Config} {n : Nat} {t t' : Tally} {e : RxEvent} {es : List RxEvent}
    (h : Tallied n t) (hw : Wire n (e :: es)) (hstep : tallyStep cfg t e = .ok t') :
    ∃ k, Wire k es ∧ PassCounts cfg k t e t' := by
  cases hw with
  | failed timer hes =>
      obtain ⟨s, hs, htimed⟩ := ackTimer_ok cfg timer t.rx
      have hpass : readTfsPktsStep cfg t.rx ⟨timer, .failed⟩ = .ok s := by
        simp only [readTfsPktsStep, hs]
      refine ⟨n, hes, passCounts_quiet ?_ hpass htimed.accepted (h.timer htimed) hstep⟩
      intro id bytes seq hgot
      cases hgot
  | ack timer id bytes limited hack hes =>
      refine ⟨n, hes, ?_⟩
      cases limited with
      | true => exact passCounts_limited h (Nat.le_refl n) (length_of_classify_ack hack) hstep
      | false => exact passCounts_ack h hack hstep
  | data timer id bytes limited seq hdata hn hes =>
      refine ⟨seq + 1, hes, ?_⟩
      cases limited with
      | true => exact passCounts_limited h (by omega) (classify_data hdata).2.1 hstep
      | false => exact passCounts_data h hn hdata hstep

/-- A run: the condition on its passes makes the counts right after each of them, and in a
short run it is needed. Induction on the passes, with `Tallied` as the invariant. -/
theorem along_counted {cfg : Config} {es : List RxEvent} :
    ∀ {n : Nat} {t u : Tally}, Tallied n t → Wire n es → run (tallyStep cfg) t es = .ok u →
      (Along (tallyStep cfg) (CountsOnce cfg) t es →
        Along (tallyStep cfg) (CountedAfter cfg) t es) ∧
      (t.rejected + es.length < 2 ^ 32 → Along (tallyStep cfg) (CountedAfter cfg) t es →
        Along (tallyStep cfg) (CountsOnce cfg) t es) := by
  induction es with
  | nil =>
      intro n t u _ _ _
      exact ⟨fun _ => trivial, fun _ _ => trivial⟩
  | cons e es ih =>
      intro n t u h hw hrun
      obtain ⟨t', hstep, hrest⟩ := run_cons_eq_ok.mp hrun
      obtain ⟨k, hes, hpass⟩ := tallyStep_spec h hw hstep
      constructor
      · rintro ⟨hone, hall⟩
        have hafter := hpass.counted hone
        refine ⟨hafter, fun v hv => ?_⟩
        rw [hstep] at hv
        cases hv
        exact (ih (hpass.tallied hafter) hes hrest).1 (hall t' hstep)
      · rintro hlen ⟨hafter, hall⟩
        rw [List.length_cons] at hlen
        have hrej := hpass.rejected
        refine ⟨hpass.countsOnce (by omega) hafter, fun v hv => ?_⟩
        rw [hstep] at hv
        cases hv
        exact (ih (hpass.tallied hafter) hes hrest).2 (by omega) (hall t' hstep)

/-- When the drop reports are right. In every run against a peer that numbers its datagrams
in order, with any losses, any rejections by the limiter, any ACK datagrams and any expiries
of the ACK timer: if each pass that accepts a datagram has the rejections before it that are
due, then right after each datagram accepted the reports and `ack.ndrop` add up to the
datagrams missing. In a run of less than `2 ^ 32` passes they do so only then. -/
theorem counted_iff_countsOnce (cfg : Config) (pps : Pps) (es : List RxEvent) (hw : Wire 1 es)
    (u : Tally) (hrun : run (tallyStep cfg) (Tally.init pps) es = .ok u) :
    (Along (tallyStep cfg) (CountsOnce cfg) (Tally.init pps) es →
      Along (tallyStep cfg) (CountedAfter cfg) (Tally.init pps) es) ∧
    (es.length < 2 ^ 32 → Along (tallyStep cfg) (CountedAfter cfg) (Tally.init pps) es →
      Along (tallyStep cfg) (CountsOnce cfg) (Tally.init pps) es) := by
  obtain ⟨henough, hneed⟩ := along_counted (tallied_init pps) hw hrun
  refine ⟨henough, fun hlen => hneed ?_⟩
  show 0 + es.length < 2 ^ 32
  omega

/-- The peer's datagram number `seq`, with one byte of padding. -/
def padDatagram (seq : Nat) (limited : Bool) : RxEvent :=
  ⟨none, .got 0 (wtfsHdr seq 0 ++ [0]) limited⟩

/-- Number 2 of three datagrams is lost. -/
theorem counted_iff_countsOnce_lost :
    Along (tallyStep ⟨1500, false, false⟩) (CountedAfter ⟨1500, false, false⟩)
      (Tally.init ⟨100, 100, 10000000⟩) [padDatagram 1 false, padDatagram 3 false] := by
  have hwire : Wire 1 [padDatagram 1 false, padDatagram 3 false] :=
    .data none 0 _ false 1 rfl (by decide) (.data none 0 _ false 3 rfl (by decide) (.nil 4))
  refine (counted_iff_countsOnce _ _ _ hwire _ rfl).1 ⟨?_, fun t ht => ?_⟩
  · intro id bytes seq hgot hdata
    cases hgot
    cases hdata
    rfl
  · cases ht
    refine ⟨?_, fun t ht => trivial⟩
    intro id bytes seq hgot hdata
    cases hgot
    cases hdata
    rfl

/-- Eleven datagrams come in order. The first ten fill the ring of the limiter, and it rejects the
eleventh. -/
def eleven : List RxEvent := (List.range' 1 11).map fun seq => padDatagram seq (seq = 11)

/-- Datagrams in order, any of them rejected by the limiter, and then another one. -/
theorem wire_padDatagrams (limited : Nat → Bool) (k : Nat) :
    ∀ n, n + k ≤ 12 → Wire n ((List.range' n k).map (fun seq => padDatagram seq (limited seq)) ++
      [padDatagram 12 false]) := by
  have hdata : ∀ seq < 13, classify (recvBytes (wtfsHdr seq 0 ++ [0])) false = .ok (.data seq) := by
    decide
  induction k with
  | zero =>
      intro n hn
      exact .data none 0 _ false 12 (hdata 12 (by decide)) hn (.nil 13)
  | succ k ih =>
      intro n hn
      exact .data none 0 _ (limited n) n (hdata n (by omega)) (Nat.le_refl n)
        (ih (n + 1) (by omega))

/-- Number 11 of twelve datagrams is rejected by the limiter. It is counted then, and again as the
gap before number 12. -/
theorem counted_twice : ¬ ∀ (cfg : Config) (pps : Pps) (es : List RxEvent), Wire 1 es →
    ∀ u, run (tallyStep cfg) (Tally.init pps) es = .ok u →
      Along (tallyStep cfg) (CountedAfter cfg) (Tally.init pps) es := by
  intro h
  have hwire : Wire 1 (eleven ++ [padDatagram 12 false]) :=
    wire_padDatagrams (fun seq => seq = 11) 11 1 (by decide)
  have hall := h ⟨1500, false, false⟩ ⟨100, 100, 10000000⟩ _ hwire _ rfl
  have hlast := (along_concat.mp hall).2 _ rfl _ rfl (by decide)
  exact absurd hlast (by decide)

end Iptfs.Proofs
