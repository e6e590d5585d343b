import Iptfs.Proofs.Python.Walk

/-!
# `Iptfs.Proofs.Python.Reports`: the ranges that the Python receiver reports

A report names the range from `startseq` to `lastseq`. `send_ack_infos` clears `startseq`, and the
next datagram with a sequence number sets it again. `read_tfs_packets` does that before it
compares the number with `lastseq`, so an old datagram can start a range.

`Reporter` is the receiver with the reports it has sent. `SoundReports` says that their ranges are
not empty, follow one another, and each has news. `Kept` is the invariant: a receiver with
`startseq` cleared has sent everything up to `lastseq`. `reports_iff` is the main result: the
reports of a run are sound, wherever one is sent, exactly when no range is started by an old
datagram.
-/

set_option autoImplicit false

namespace Iptfs.Py

/-- A report that was sent: `ackstart` and `ackend` of `send_ack_infos`, and whether a datagram was
accepted since the report before. -/
structure SentReport where
  ackstart : Nat
  ackend : Nat
  fresh : Bool
  deriving DecidableEq, Repr

/-- The receiver, the reports sent so far, and whether a datagram was accepted since the last. -/
structure Reporter where
  rx : Rx
  sent : List SentReport
  fresh : Bool

/-- The receiver before its first datagram. -/
def Reporter.init (pps : ℚ) : Reporter := ⟨.init pps, [], false⟩

/-- Whether `read_tfs_packets` accepts what it receives: a data datagram with a new number. -/
def acceptsNew (s : Rx) : RxEvent → Bool
  | .recv _ bytes limited _ =>
      match classify (recvBytes bytes) limited with
      | .ok (.data seq) => s.ack.lastseq < seq
      | _ => false
  | .ackInfos _ => false

/-- One step of the receiver, with the record of its reports. -/
def reporterStep (target : ℚ) (limit : Nat) (s : Reporter) (e : RxEvent) : Res Reporter :=
  match readTfsPacketsStep target limit s.rx e with
  | .error exc => .error exc
  | .ok rx =>
      match e with
      | .recv .. => .ok { s with rx := rx, fresh := s.fresh || acceptsNew s.rx e }
      | .ackInfos ns =>
          match (sendAckInfos ns s.rx.ack).1 with
          | none => .ok { s with rx := rx }
          | some _ =>
              .ok ⟨rx, s.sent ++ [⟨s.rx.ack.startseq, s.rx.ack.lastseq, s.fresh⟩], false⟩

/-- The reports have ranges, each above those before it, and each tells of a new datagram. -/
structure SoundReports (sent : List SentReport) : Prop where
  range : ∀ r ∈ sent, r.ackstart ≤ r.ackend
  above : sent.Pairwise fun r r' => r.ackend < r'.ackstart
  news : ∀ r ∈ sent, r.fresh = true

/-- The event does not start a range with an old datagram. -/
def Timely (s : Reporter) : RxEvent → Prop
  | .recv _ bytes limited _ => ∀ seq, classify (recvBytes bytes) limited = .ok (.data seq) →
      s.rx.ack.startseq = 0 → seq = 0 ∨ s.rx.ack.lastseq < seq
  | .ackInfos _ => True

namespace Proofs

open Iptfs.Lib

/-! ### One step -/

/-- What a step leaves: a datagram went through the loop, there was nothing to report, or a report
was sent. -/
theorem reporterStep_cases {target : ℚ} {limit : Nat} {s t : Reporter} {e : RxEvent}
    (h : reporterStep target limit s e = .ok t) :
    (∃ id bytes limited lefts rx, e = .recv id bytes limited lefts ∧
        readTfsPacketsStep target limit s.rx e = .ok rx ∧
        t = { s with rx := rx, fresh := s.fresh || acceptsNew s.rx e }) ∨
      (∃ ns, e = .ackInfos ns ∧ s.rx.ack.startseq = 0 ∧ t = s) ∨
      (∃ ns dropcnt, e = .ackInfos ns ∧ s.rx.ack.startseq ≠ 0 ∧
        t = ⟨{ s.rx with ack := ⟨0, s.rx.ack.lastseq, dropcnt⟩ },
          s.sent ++ [⟨s.rx.ack.startseq, s.rx.ack.lastseq, s.fresh⟩], false⟩) := by
  unfold reporterStep at h
  cases e with
  | recv id bytes limited lefts =>
      cases hrx : readTfsPacketsStep target limit s.rx (.recv id bytes limited lefts) with
      | error exc =>
          rw [hrx] at h
          cases h
      | ok rx =>
          rw [hrx] at h
          cases h
          exact Or.inl ⟨id, bytes, limited, lefts, rx, rfl, rfl, rfl⟩
  | ackInfos ns =>
      by_cases hzero : s.rx.ack.startseq = 0
      · simp only [readTfsPacketsStep, sendAckInfos, hzero, if_true] at h
        cases h
        exact Or.inr (Or.inl ⟨ns, rfl, hzero, rfl⟩)
      · simp only [readTfsPacketsStep, sendAckInfos, hzero, if_false] at h
        cases h
        exact Or.inr (Or.inr ⟨ns, 0, rfl, hzero, rfl⟩)

/-- A turn of `send_ack_infos` never fails, and this is what it leaves of the reports. -/
theorem reporterStep_ackInfos {target : ℚ} {limit ns : Nat} {s t : Reporter}
    (h : reporterStep target limit s (.ackInfos ns) = .ok t) :
    t.sent = if s.rx.ack.startseq = 0 then s.sent
      else s.sent ++ [⟨s.rx.ack.startseq, s.rx.ack.lastseq, s.fresh⟩] := by
  obtain ⟨_, _, _, _, _, he, _⟩ | ⟨_, _, hzero, rfl⟩ | ⟨_, _, _, hstart, rfl⟩ :=
    reporterStep_cases h
  · cases he
  · rw [if_pos hzero]
  · rw [if_neg hstart]

/-- What a datagram leaves of the record: it has no sequence number, its number is old, or it is
accepted. -/
theorem recv_ack {target : ℚ} {limit id : Nat} {bytes : List UInt8} {limited : Bool}
    {lefts : List (Option Nat)} {s rx : Rx}
    (h : readTfsPacketsStep target limit s (.recv id bytes limited lefts) = .ok rx) :
    ((∀ seq, classify (recvBytes bytes) limited ≠ .ok (.data seq)) ∧
        rx.ack.startseq = s.ack.startseq ∧ rx.ack.lastseq = s.ack.lastseq ∧
        acceptsNew s (.recv id bytes limited lefts) = false) ∨
      (∃ seq, classify (recvBytes bytes) limited = .ok (.data seq) ∧
        rx.ack.startseq = (s.ack.begin seq).startseq ∧
        rx.ack.lastseq = max s.ack.lastseq seq ∧
        acceptsNew s (.recv id bytes limited lefts) = decide (s.ack.lastseq < seq)) := by
  obtain ⟨seq, hdata, haccept⟩ | ⟨hno, dropcnt, g, rfl⟩ := recv_cases h
  · refine Or.inr ⟨seq, hdata, ?_⟩
    have haccepts : acceptsNew s (.recv id bytes limited lefts) = decide (s.ack.lastseq < seq) := by
      simp only [acceptsNew, hdata]
    obtain ⟨hold, rfl⟩ | ⟨hnew, a, _, rfl⟩ := acceptData_cases haccept
    · exact ⟨rfl, (Nat.max_eq_left hold).symm, haccepts⟩
    · exact ⟨rfl, (Nat.max_eq_right (Nat.le_of_lt hnew)).symm, haccepts⟩
  · have hfalse : acceptsNew s (.recv id bytes limited lefts) = false := by
      simp only [acceptsNew]
    exact Or.inl ⟨hno, rfl, rfl, hfalse⟩

/-! ### The invariant -/

/-- The reports stay at or below `lastseq`, and one of them ends there when no range is open. -/
structure Kept (s : Reporter) : Prop where
  below : ∀ r ∈ s.sent, r.ackend ≤ s.rx.ack.lastseq
  reached : s.rx.ack.startseq = 0 → s.rx.ack.lastseq ≠ 0 →
    ∃ r ∈ s.sent, r.ackend = s.rx.ack.lastseq

/-- It holds at the start. -/
theorem kept_init (pps : ℚ) : Kept (.init pps) := by
  constructor
  · intro r hr
    cases hr
  · intro _ hlast
    exact absurd rfl hlast

/-- Every step keeps it. -/
theorem kept_step {target : ℚ} {limit : Nat} {s t : Reporter} {e : RxEvent} (hs : Kept s)
    (h : reporterStep target limit s e = .ok t) : Kept t := by
  obtain ⟨id, bytes, limited, lefts, rx, rfl, hrx, rfl⟩ | ⟨_, _, _, rfl⟩ | ⟨_, _, _, _, rfl⟩ :=
    reporterStep_cases h
  · obtain ⟨_, hstart, hlast, _⟩ | ⟨seq, _, hstart, hlast, _⟩ := recv_ack hrx
    · constructor
      · intro r hr
        rw [hlast]
        exact hs.below r hr
      · rw [hstart, hlast]
        exact hs.reached
    · constructor
      · intro r hr
        rw [hlast]
        exact (hs.below r hr).trans (Nat.le_max_left _ _)
      · rw [hstart, hlast]
        -- A range stays closed only at a number 0, which moves nothing.
        intro hzero hmax
        unfold AckRecord.begin at hzero
        dsimp only at hzero
        split at hzero
        · rename_i hopen
          rw [hzero, Nat.max_zero] at hmax ⊢
          exact hs.reached hopen hmax
        · rename_i hopen
          exact absurd hzero hopen
  · exact hs
  · constructor
    · intro r hr
      obtain hr | hr := List.mem_append.mp hr
      · exact hs.below r hr
      · rw [List.mem_singleton.mp hr]
    · intro _ _
      exact ⟨_, List.mem_append_right _ (List.mem_singleton_self _), rfl⟩

/-! ### What the next report would say -/

/-- The reports sent are sound, and so is the one that could be sent now. -/
structure Due (s : Reporter) : Prop where
  sound : SoundReports s.sent
  range : s.rx.ack.startseq ≠ 0 → s.rx.ack.startseq ≤ s.rx.ack.lastseq
  above : s.rx.ack.startseq ≠ 0 → ∀ r ∈ s.sent, r.ackend < s.rx.ack.startseq
  news : s.rx.ack.startseq ≠ 0 → s.fresh = true

/-- No report yet. -/
theorem sound_nil : SoundReports [] :=
  ⟨List.forall_mem_nil _, List.Pairwise.nil, List.forall_mem_nil _⟩

/-- One more report. -/
theorem sound_append {sent : List SentReport} {r : SentReport} :
    SoundReports (sent ++ [r]) ↔
      SoundReports sent ∧ r.ackstart ≤ r.ackend ∧ (∀ q ∈ sent, q.ackend < r.ackstart) ∧
        r.fresh = true := by
  constructor
  · intro h
    obtain ⟨hsent, _, hcross⟩ := List.pairwise_append.mp h.above
    have hmem : r ∈ sent ++ [r] := List.mem_append_right _ (List.mem_singleton_self _)
    refine ⟨⟨?_, hsent, ?_⟩, h.range r hmem, ?_, h.news r hmem⟩
    · intro q hq
      exact h.range q (List.mem_append_left _ hq)
    · intro q hq
      exact h.news q (List.mem_append_left _ hq)
    · intro q hq
      exact hcross q hq r (List.mem_singleton_self _)
  · rintro ⟨h, hrange, habove, hnews⟩
    constructor
    · intro q hq
      obtain hq | hq := List.mem_append.mp hq
      · exact h.range q hq
      · rw [List.mem_singleton.mp hq]
        exact hrange
    · apply List.pairwise_append.mpr
      refine ⟨h.above, List.pairwise_singleton _ _, ?_⟩
      intro q hq q' hq'
      rw [List.mem_singleton.mp hq']
      exact habove q hq
    · intro q hq
      obtain hq | hq := List.mem_append.mp hq
      · exact h.news q hq
      · rw [List.mem_singleton.mp hq]
        exact hnews

/-- A report now is sound with those before it exactly when it is due. -/
theorem due_iff (target : ℚ) (limit : Nat) (s : Reporter) :
    Due s ↔ ∀ ns t, reporterStep target limit s (.ackInfos ns) = .ok t → SoundReports t.sent := by
  by_cases hzero : s.rx.ack.startseq = 0
  · constructor
    · intro h ns t ht
      rw [reporterStep_ackInfos ht, if_pos hzero]
      exact h.sound
    · intro h
      have hstep : reporterStep target limit s (.ackInfos 0) = .ok s := by
        simp only [reporterStep, readTfsPacketsStep, sendAckInfos, hzero, if_true]
      exact ⟨h 0 s hstep, fun hne => absurd hzero hne, fun hne => absurd hzero hne,
        fun hne => absurd hzero hne⟩
  · constructor
    · intro h ns t ht
      rw [reporterStep_ackInfos ht, if_neg hzero]
      exact sound_append.mpr ⟨h.sound, h.range hzero, h.above hzero, h.news hzero⟩
    · intro h
      have hstep : ∃ t, reporterStep target limit s (.ackInfos 0) = .ok t := by
        simp only [reporterStep, readTfsPacketsStep, sendAckInfos, hzero, if_false]
        exact ⟨_, rfl⟩
      obtain ⟨t, ht⟩ := hstep
      have hsound := h 0 t ht
      rw [reporterStep_ackInfos ht, if_neg hzero] at hsound
      obtain ⟨hsent, hrange, habove, hnews⟩ := sound_append.mp hsound
      exact ⟨hsent, fun _ => hrange, fun _ => habove, fun _ => hnews⟩

/-- A timely step leaves the next report due. -/
theorem due_step {target : ℚ} {limit : Nat} {s t : Reporter} {e : RxEvent} (hs : Kept s)
    (hdue : Due s) (htimely : Timely s e) (h : reporterStep target limit s e = .ok t) : Due t := by
  obtain ⟨id, bytes, limited, lefts, rx, rfl, hrx, rfl⟩ | ⟨_, _, _, rfl⟩ |
    ⟨ns, _, rfl, hstart, rfl⟩ := reporterStep_cases h
  · obtain ⟨_, hstart, hlast, haccepts⟩ | ⟨seq, hdata, hstart, hlast, haccepts⟩ := recv_ack hrx
    · constructor
      · exact hdue.sound
      · rw [hstart, hlast]
        exact hdue.range
      · rw [hstart]
        exact hdue.above
      · rw [hstart, haccepts, Bool.or_false]
        exact hdue.news
    · have hwhen := htimely seq hdata
      unfold AckRecord.begin at hstart
      dsimp only at hstart
      split at hstart
      · rename_i hopen
        -- The datagram starts the range, and it is new.
        have hnew : rx.ack.startseq ≠ 0 → s.rx.ack.lastseq < seq := by
          intro hne
          rw [hstart] at hne
          exact (hwhen hopen).resolve_left hne
        constructor
        · exact hdue.sound
        · intro _
          rw [hstart, hlast]
          exact Nat.le_max_right _ _
        · intro hne r hr
          rw [hstart]
          exact (hs.below r hr).trans_lt (hnew hne)
        · intro hne
          rw [haccepts, decide_eq_true (hnew hne), Bool.or_true]
      · rename_i hopen
        constructor
        · exact hdue.sound
        · intro _
          rw [hstart, hlast]
          exact (hdue.range hopen).trans (Nat.le_max_left _ _)
        · intro _
          rw [hstart]
          exact hdue.above hopen
        · intro _
          rw [hdue.news hopen, Bool.true_or]
  · exact hdue
  · constructor
    · exact sound_append.mpr ⟨hdue.sound, hdue.range hstart, hdue.above hstart, hdue.news hstart⟩
    · intro hne
      exact absurd rfl hne
    · intro hne
      exact absurd rfl hne
    · intro hne
      exact absurd rfl hne

/-- An old datagram passes the loop, whatever it holds. -/
theorem recv_old {target : ℚ} {limit id seq : Nat} {bytes : List UInt8} {limited : Bool}
    {lefts : List (Option Nat)} {s : Rx}
    (hdata : classify (recvBytes bytes) limited = .ok (.data seq)) (hold : seq ≤ s.ack.lastseq) :
    readTfsPacketsStep target limit s (.recv id bytes limited lefts) =
      .ok { s with ack := s.ack.begin seq } := by
  have hbegin : seq ≤ (s.ack.begin seq).lastseq := hold
  simp only [readTfsPacketsStep, hdata, dispatch, acceptData, if_pos hbegin]

/-- A step that leaves the next report due was timely. -/
theorem timely_of_due {target : ℚ} {limit : Nat} {s : Reporter} {e : RxEvent} (hs : Kept s)
    (hdue : ∀ t, reporterStep target limit s e = .ok t → Due t) : Timely s e := by
  cases e with
  | ackInfos ns => trivial
  | recv id bytes limited lefts =>
      intro seq hdata hopen
      by_contra hlate
      have hpos : seq ≠ 0 := fun h => hlate (Or.inl h)
      have hold : seq ≤ s.rx.ack.lastseq := Nat.not_lt.mp fun h => hlate (Or.inr h)
      have hrx : readTfsPacketsStep target limit s.rx (.recv id bytes limited lefts) =
          .ok { s.rx with ack := s.rx.ack.begin seq } := recv_old hdata hold
      have hnext := hdue _ (by rw [reporterStep, hrx])
      have hstart : (s.rx.ack.begin seq).startseq = seq := if_pos hopen
      -- The last report ended at `lastseq`, where the new range would start or overlap it.
      obtain ⟨r, hr, hend⟩ := hs.reached hopen (by omega)
      have habove := hnext.above (by rw [hstart]; exact hpos) r hr
      rw [hstart, hend] at habove
      exact absurd habove (Nat.not_lt.mpr hold)

/-! ### The reports of a run -/

/-- When the reports are sound. In any run of the Python receiver, with a report sent at any point
of it, all reports are sound exactly when no datagram of the run that is the first with a sequence
number since a report, or since the start, is old. -/
theorem reports_iff (target pps : ℚ) (limit : Nat) (events : List RxEvent) :
    (∀ js ns s, js <+: events →
        run (reporterStep target limit) (.init pps) (js ++ [.ackInfos ns]) = .ok s →
        SoundReports s.sent) ↔
      Along (reporterStep target limit) Timely (.init pps) events := by
  have hdue : Due (.init pps) := by
    constructor
    · exact sound_nil
    · intro hne
      exact absurd rfl hne
    · intro hne
      exact absurd rfl hne
    · intro hne
      exact absurd rfl hne
  have halong : (∀ js t, js <+: events →
      run (reporterStep target limit) (.init pps) js = .ok t → Due t) ↔
      Along (reporterStep target limit) Timely (.init pps) events := by
    apply prefixes_iff_along (P := Kept)
    · intro s e hs hd
      exact ⟨fun hC t ht => due_step hs hd hC ht, timely_of_due hs⟩
    · intro s e t hs ht
      exact kept_step hs ht
    · exact kept_init pps
    · exact hdue
  rw [← halong]
  constructor
  · intro h js t hjs ht
    apply (due_iff target limit t).mpr
    intro ns u hu
    exact h js ns u hjs (run_concat.mpr ⟨t, ht, hu⟩)
  · intro h js ns s hjs hs
    obtain ⟨t, ht, hts⟩ := run_concat.mp hs
    exact (due_iff target limit t).mp (h js t hjs ht) ns s hts

/-- A datagram is reported, and a copy of it then starts a range of its own. -/
theorem not_reports : ¬ ∀ (target pps : ℚ) (limit : Nat) (events : List RxEvent) (s : Reporter),
    1000 ≤ limit → run (reporterStep target limit) (.init pps) events = .ok s →
    SoundReports s.sent := by
  intro h
  have hsound := h 1 1 1000 [.recv 0 (someDatagram 1 0 [0]) false [], .ackInfos 0,
    .recv 1 (someDatagram 1 0 [0]) false [], .ackInfos 0] _ (Nat.le_refl _) rfl
  exact absurd hsound.above (by decide)

end Proofs

end Iptfs.Py
