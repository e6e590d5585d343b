import Iptfs.Proofs.Scatter

/-!
# `Iptfs.Proofs.Mbufs`: when the mbufs of the receiver suffice

The reader takes an mbuf for each datagram, and the packet in progress keeps one for each of
its entries. There are `OUTERQSZ` of them. When a packet that is not at its end holds them all,
the reader waits in `mqueue_pop` for ever: only the end of the packet, or a gap, would free them.

`Follows.overfull` and `Follows.waits` read off the ledger which packets those are, from the
count that `Follows` keeps: a packet that is not at its end with its first `OUTERQSZ` datagrams,
when these were all accepted. `mbufLeft_iff` puts the passes together, and `delivered_iff_mbufs`
is the main result: between ACKs the receiver delivers exactly the packets all of whose
datagrams were accepted, if and only if the mbufs suffice. `mbufs_give_out` is a run in which
they do not.
-/

set_option autoImplicit false

namespace Iptfs.Proofs

open Iptfs.Lib Iptfs.Lib.Framing

/-- The packet in progress holds every mbuf: it is not at its end with the first `OUTERQSZ` of
its datagrams, and these were all accepted. -/
theorem Follows.overfull {cfg : Config} {s : Sender} {ks : List (Cut UInt8)} {t : Track}
    {idx : List Nat} (hf : Framed Ipv4 cfg s ks) (h : Follows ks t idx)
    (hwaits : ¬ MbufLeft t.rx.m) :
    ∃ S ∈ s.ledger.shipments, Overfull S ∧ ∀ n ∈ S.carriers.take OUTERQSZ, n ∈ idx := by
  rw [MbufLeft, Nat.not_lt, h.aboard, Ledger.aboard] at hwaits
  cases hu : (ledger (ks.take t.next)).under with
  | none =>
      rw [hu] at hwaits
      exact absurd hwaits (show ¬ OUTERQSZ ≤ 0 by decide)
  | some u =>
      rw [hu] at hwaits
      dsimp only at hwaits
      split at hwaits
      · rename_i hall
        obtain ⟨S, hS, hpre, hsame⟩ := exists_shipment (ks.drop t.next) hu
        rw [List.take_append_drop, ← hf.ledger] at hS
        refine ⟨S, hS, ?_, fun n hn => ?_⟩
        · rcases Nat.lt_or_ge OUTERQSZ S.carriers.length with hlt | hge
          · exact .inl hlt
          · have hlen := hpre.length_le
            have heq := hpre.eq_of_length (by omega)
            exact .inr ⟨by omega, hsame heq.symm⟩
        · -- These carriers are among those of the block under way.
          rw [List.prefix_iff_eq_take.mp hpre, List.all_eq_true] at hall
          have hmem : n ∈ S.carriers.take u.carriers.length :=
            (List.take_subset_take_left _ hwaits) hn
          exact of_decide_eq_true (hall n hmem)
      · exact absurd hwaits (show ¬ OUTERQSZ ≤ 0 by decide)

/-- The converse, right after the last of those `OUTERQSZ` datagrams was accepted. -/
theorem Follows.waits {cfg : Config} {s : Sender} {ks : List (Cut UInt8)} {t : Track}
    {idx : List Nat} (hf : Framed Ipv4 cfg s ks) (h : Follows ks t idx) {S : Shipment UInt8}
    (hS : S ∈ s.ledger.shipments) (hover : Overfull S)
    (hall : ∀ n ∈ S.carriers.take OUTERQSZ, n ∈ idx)
    (hlast : ∀ n, S.carriers[OUTERQSZ - 1]? = some n → t.next = n + 1) : ¬ MbufLeft t.rx.m := by
  have hlen : OUTERQSZ ≤ S.carriers.length := by
    rcases hover with hlt | ⟨heq, -⟩
    · exact Nat.le_of_lt hlt
    · exact Nat.le_of_eq heq
  obtain ⟨n, hn⟩ : ∃ n, S.carriers[OUTERQSZ - 1]? = some n :=
    ⟨_, List.getElem?_eq_getElem (Nat.lt_of_lt_of_le (by decide) hlen)⟩
  have hgo : S.GoesOn ks (OUTERQSZ - 1) := by
    rcases hover with hlt | ⟨-, hopen⟩
    · exact .inl hlt
    · refine .inr ⟨hopen, fun n hn => h.left n (hall n ?_)⟩
      apply List.mem_of_getElem? (i := OUTERQSZ - 1)
      rw [List.getElem?_take_of_lt (by decide)]
      exact hn
  rw [hf.ledger] at hS
  obtain ⟨u, hu, hcarriers⟩ := under_of_shipment hS hn hgo
  rw [← hlast n hn] at hu
  have htake : u.carriers = S.carriers.take OUTERQSZ := hcarriers
  have hacc : u.carriers.all (accepts idx) = true := by
    rw [htake, List.all_eq_true]
    exact fun m hm => decide_eq_true (hall m hm)
  have hfull : u.carriers.length = OUTERQSZ := by
    rw [htake, List.length_take, Nat.min_eq_left hlen]
  rw [MbufLeft, h.aboard, Ledger.aboard, hu]
  simp only [hacc, if_true, hfull]
  exact Nat.lt_irrefl _

/-- The number after the latest record. -/
theorem Follows.next_record {ks : List (Cut UInt8)} {t : Track} {ns : List Nat} {n : Nat}
    (h : Follows ks t (ns ++ [n])) (hn : ∀ i ∈ ns, i < n) : t.next = n + 1 := by
  have hle : t.next ≤ n + 1 := by
    rw [h.next]
    intro i hi
    rcases List.mem_append.mp hi with hi | hi
    · exact Nat.lt_succ_of_lt (hn i hi)
    · rw [List.mem_singleton.mp hi]
      exact Nat.lt_succ_self n
  have hgt : ¬ t.next ≤ n := by
    rw [h.next]
    exact fun hall => Nat.lt_irrefl n (hall n (by simp))
  omega

/-- The first `OUTERQSZ` datagrams of the packet are all among the numbers. -/
def AllIn (S : Shipment UInt8) (ns : List Nat) : Prop := ∀ n ∈ S.carriers.take OUTERQSZ, n ∈ ns

/-- When the datagrams of a packet that goes on are all accepted with one more arrival, they are
accepted with its latest, and the reader holds every mbuf. -/
theorem Follows.waits_records {cfg : Config} {s : Sender} {ks : List (Cut UInt8)} {t : Track}
    (hf : Framed Ipv4 cfg s ks) {as : List Arrival} (h : Follows ks t (records (passed as)))
    {S : Shipment UInt8} (hS : S ∈ s.ledger.shipments) (hover : Overfull S)
    (hall : AllIn S (records (passed as))) (hbefore : ¬ AllIn S (records (passed as.dropLast))) :
    ¬ MbufLeft t.rx.m := by
  cases has : as using List.reverseRecOn with
  | nil =>
      rw [has] at hall hbefore
      exact absurd hall hbefore
  | append_singleton bs b =>
      rw [has, List.dropLast_concat] at hbefore
      -- The latest arrival is a record.
      have hrec : records (passed as) = records (passed bs) ++ [b.number] ∧
          ∀ i ∈ records (passed bs), i < b.number := by
        rw [has, passed_concat] at hall ⊢
        cases hlim : b.limited with
        | true =>
            rw [hlim, if_pos rfl, List.append_nil] at hall
            exact absurd hall hbefore
        | false =>
            rw [hlim, if_neg (by simp), records_concat] at hall
            rw [if_neg (by simp), records_concat]
            by_cases hnew : ∀ i ∈ records (passed bs), i < b.number
            · exact ⟨if_pos hnew, hnew⟩
            · rw [if_neg hnew] at hall
              exact absurd hall hbefore
      refine h.waits hf hS hover hall fun n hn => ?_
      rw [hrec.1] at h
      rw [h.next_record hrec.2]
      -- It carries the packet, and no carrier up to the last of them comes after it.
      have hmem : n ∈ S.carriers.take OUTERQSZ := by
        apply List.mem_of_getElem? (i := OUTERQSZ - 1)
        rw [List.getElem?_take_of_lt (by decide)]
        exact hn
      have hle : n ≤ b.number := by
        have hin := hall n hmem
        rw [hrec.1] at hin
        rcases List.mem_append.mp hin with hin | hin
        · exact Nat.le_of_lt (hrec.2 n hin)
        · exact Nat.le_of_eq (List.mem_singleton.mp hin)
      have hcarries : b.number ∈ S.carriers.take OUTERQSZ := by
        by_contra hno
        refine hbefore fun i hi => ?_
        have hin := hall i hi
        rw [hrec.1] at hin
        rcases List.mem_append.mp hin with hin | hin
        · exact hin
        · exact absurd (List.mem_singleton.mp hin ▸ hi) hno
      have hge : b.number ≤ n := by
        obtain ⟨j, hj, hjb⟩ := List.getElem_of_mem hcarries
        rw [hf.ledger] at hS
        have hsorted := ((orderly ks).sorted S hS).1
        obtain ⟨hlt, rfl⟩ := List.getElem?_eq_some_iff.mp hn
        rw [List.length_take] at hj
        rw [List.getElem_take] at hjb
        rcases Nat.lt_or_ge j (OUTERQSZ - 1) with hlt' | hge'
        · have hless := List.pairwise_iff_getElem.mp hsorted j (OUTERQSZ - 1) (by omega) hlt hlt'
          omega
        · have hjeq : j = OUTERQSZ - 1 := by omega
          subst hjeq
          exact Nat.le_of_eq hjb.symm
      omega

/-- When the reader finds an mbuf in every pass: a packet that is not at its end with its first
`OUTERQSZ` datagrams never has them all accepted before the last pass. Induction on the
arrivals, at their end. -/
theorem mbufLeft_iff {cfg : Config} (h9 : 8 < cfg.tfsmtu) (hmax : cfg.tfsmtu ≤ MAXBUF - HDRSPACE)
    {s : Sender} {ks : List (Cut UInt8)} (hf : Framed Ipv4 cfg s ks)
    (hcount : ks.length < 2 ^ 32) (pps : Pps) :
    ∀ as : List Arrival, (∀ a ∈ as, a.timer = none) →
      (∀ a ∈ as, (s.datagram a.number).isSome) →
      (Along (readTfsPktsStep cfg) (fun u _ => MbufLeft u.m) (Rx.init pps)
          (as.map (Arrival.event s)) ↔
        ∀ S ∈ s.ledger.shipments, Overfull S → ¬ AllIn S (records (passed as.dropLast))) := by
  intro as
  -- Induction on the arrivals, at their end.
  induction as using List.reverseRecOn with
  | nil =>
      intro _ _
      refine iff_of_true trivial fun S _ hover hall => ?_
      have hlen : 0 < S.carriers.length := by
        rcases hover with hlt | ⟨heq, -⟩
        · omega
        · rw [← heq]
          decide
      have hmem : S.carriers[0] ∈ S.carriers.take OUTERQSZ := by
        apply List.mem_of_getElem? (i := 0)
        rw [List.getElem?_take_of_lt (by decide), List.getElem?_eq_getElem hlen]
      exact absurd (hall _ hmem) (by simp [passed, records])
  | append_singleton as a ih =>
      intro htimer hsent
      have htimer' : ∀ b ∈ as, b.timer = none := fun b hb => htimer b (List.mem_append_left _ hb)
      have hsent' : ∀ b ∈ as, (s.datagram b.number).isSome :=
        fun b hb => hsent b (List.mem_append_left _ hb)
      obtain ⟨t, ht, -, h⟩ := follows_records h9 hmax hf hcount pps as htimer' hsent'
      have hrun := run_of_track ht
      rw [List.map_append, List.map_singleton, along_concat, ih htimer' hsent',
        List.dropLast_concat]
      -- There is one state after the arrivals so far, and the question is whether the next
      -- datagram gets an mbuf there.
      have hlast : (∀ u, run (readTfsPktsStep cfg) (Rx.init pps) (as.map (Arrival.event s)) =
          .ok u → MbufLeft u.m) ↔ MbufLeft t.rx.m := by
        constructor
        · exact fun hall => hall _ hrun
        · intro hleft u hu
          rw [show run (readTfsPktsStep cfg) (Rx.init pps) (as.map (Arrival.event s)) = _ from
            hrun] at hu
          cases hu
          exact hleft
      rw [hlast]
      constructor
      · -- A packet with all its first frames in takes the mbufs now, or it took them before.
        rintro ⟨hprev, hleft⟩ S hS hover hall
        exact h.waits_records hf hS hover hall (hprev S hS hover) hleft
      · intro hall
        refine ⟨fun S hS hover hin => hall S hS hover fun n hn => ?_, ?_⟩
        · exact records_dropLast_subset as (hin n hn)
        · -- Where no mbuf is left, one packet has them all.
          by_contra hwaits
          obtain ⟨S, hS, hover, hin⟩ := h.overfull hf hwaits
          exact hall S hS hover hin

/-- End-to-end reassembly between ACKs. Whatever is lost, repeated, reordered or dropped by
the limiter, the receiver delivers exactly the packets all of whose datagrams were accepted,
each once, byte for byte, in the order the sender took them, exactly when the mbufs suffice: in
every packet that is not at its end with its first `OUTERQSZ` datagrams, one of these is not
accepted before the last pass. -/
theorem delivered_iff_mbufs (cfg : Config) (h15 : 15 ≤ cfg.tfsmtu)
    (hmax : cfg.tfsmtu ≤ MAXBUF - HDRSPACE) (calls : List WriteCall)
    (hans : ∀ call ∈ calls, ∀ p, some p ∈ call.answers → Ipv4 p.data) (s : Sender)
    (hrun : run (writeTfsPktsStep cfg) Sender.init calls = .ok s)
    (hcount : s.sends.length < 2 ^ 32) (pps : Pps) (as : List Arrival)
    (htimer : ∀ a ∈ as, a.timer = none) (hsent : ∀ a ∈ as, (s.datagram a.number).isSome) :
    (∃ rx, run (pooledStep cfg) (Rx.init pps) (as.map (Arrival.event s)) = .ok rx ∧
      rx.outq.map Miov.bytes = arrivals (accepts (records (passed as))) s.ledger.shipments ∧
      s.ledger.shipments.map Shipment.block = s.packets) ↔
    ∀ S ∈ s.ledger.shipments, Overfull S →
      ∃ n ∈ S.carriers.take OUTERQSZ, n ∉ records (passed as.dropLast) := by
  obtain ⟨ks, hf⟩ := framed_of_run (by omega) (Nat.le_trans hmax (Nat.sub_le _ _))
    (fun _ hp => hp.length_lt) hans hrun
  have hcount' : ks.length < 2 ^ 32 := by rwa [← hf.length]
  obtain ⟨t, ht, -, h⟩ := follows_records (by omega) hmax hf hcount' pps as htimer hsent
  have hblocks : s.ledger.shipments.map Shipment.block = s.packets := by
    rw [hf.ledger]
    exact hf.begun_eq (by omega)
  have hmbufs := mbufLeft_iff (by omega) hmax hf hcount' pps as htimer hsent
  have hcond : (∀ S ∈ s.ledger.shipments, Overfull S →
      ∃ n ∈ S.carriers.take OUTERQSZ, n ∉ records (passed as.dropLast)) ↔
      ∀ S ∈ s.ledger.shipments, Overfull S → ¬ AllIn S (records (passed as.dropLast)) := by
    simp only [AllIn, not_forall, exists_prop]
  rw [hcond, ← hmbufs]
  constructor
  · rintro ⟨rx, hrx, -⟩
    exact (run_pooled_iff.mp hrx).2
  · intro hal
    exact ⟨t.rx, run_pooled_iff.mpr ⟨run_of_track ht, hal⟩, h.delivered hf, hblocks⟩

/-- A packet over two datagrams, the second of which comes twice. -/
theorem delivered_iff_mbufs_twice :
    ∃ s rx, run (writeTfsPktsStep ⟨40, false, false⟩) Sender.init
        [⟨[some ⟨0, ipv4Packet 40, 0⟩], true⟩, ⟨[], true⟩] = .ok s ∧
      run (pooledStep ⟨40, false, false⟩) (Rx.init ⟨1, 1, 1⟩)
        ([⟨none, 0, 0, false⟩, ⟨none, 1, 1, false⟩, ⟨none, 2, 1, false⟩].map
          (Arrival.event s)) = .ok rx ∧
      rx.outq.map Miov.bytes = arrivals (accepts (records (passed
        [⟨none, 0, 0, false⟩, ⟨none, 1, 1, false⟩, ⟨none, 2, 1, false⟩]))) s.ledger.shipments := by
  have hans : ∀ call ∈ [(⟨[some ⟨0, ipv4Packet 40, 0⟩], true⟩ : WriteCall), ⟨[], true⟩],
      ∀ p, some p ∈ call.answers → Ipv4 p.data := by
    intro call hcall p hp
    rcases List.mem_cons.mp hcall with rfl | hcall
    · simp only [List.mem_singleton, Option.some.injEq] at hp
      rw [hp]
      exact ipv4_packet 40 (by decide)
    · rw [List.mem_singleton.mp hcall] at hp
      simp at hp
  obtain ⟨s, hs, hsends, hsent, hcarriers⟩ : ∃ s,
      run (writeTfsPktsStep ⟨40, false, false⟩) Sender.init
        [⟨[some ⟨0, ipv4Packet 40, 0⟩], true⟩, ⟨[], true⟩] = .ok s ∧ s.sends.length = 2 ∧
      (∀ a ∈ [(⟨none, 0, 0, false⟩ : Arrival), ⟨none, 1, 1, false⟩, ⟨none, 2, 1, false⟩],
        (s.datagram a.number).isSome) ∧
      s.ledger.shipments.map Shipment.carriers = [[0, 1]] :=
    ⟨_, rfl, by decide, by decide, by decide⟩
  obtain ⟨rx, hrx, hout, -⟩ := (delivered_iff_mbufs ⟨40, false, false⟩ (by decide) (by decide) _
    hans s hs (by rw [hsends]; decide) ⟨1, 1, 1⟩
    [⟨none, 0, 0, false⟩, ⟨none, 1, 1, false⟩, ⟨none, 2, 1, false⟩] (by simp) hsent).mpr (by
      intro S hS hover
      have hmem := List.mem_map_of_mem (f := Shipment.carriers) hS
      rw [hcarriers, List.mem_singleton] at hmem
      rw [Overfull, hmem] at hover
      rcases hover with hlt | ⟨heq, -⟩
      · exact absurd hlt (by decide)
      · exact absurd heq (by decide))
  exact ⟨s, rx, hs, hrx, hout⟩

/-- A packet of 1793 bytes at the smallest MTU: the sender cuts it into 257 datagrams, and they all
come, in order. The reader waits for an mbuf before it can read the last of them. -/
theorem mbufs_give_out :
    ¬ ∀ cfg : Config, 15 ≤ cfg.tfsmtu → cfg.tfsmtu ≤ MAXBUF - HDRSPACE →
      ∀ calls : List WriteCall, (∀ call ∈ calls, ∀ p, some p ∈ call.answers → Ipv4 p.data) →
      ∀ s : Sender, run (writeTfsPktsStep cfg) Sender.init calls = .ok s →
      s.sends.length < 2 ^ 32 → ∀ (pps : Pps) (as : List Arrival),
      (∀ a ∈ as, a.timer = none) → (∀ a ∈ as, (s.datagram a.number).isSome) →
      ∃ rx, run (pooledStep cfg) (Rx.init pps) (as.map (Arrival.event s)) = .ok rx ∧
        rx.outq.map Miov.bytes = arrivals (accepts (records (passed as))) s.ledger.shipments ∧
        s.ledger.shipments.map Shipment.block = s.packets := by
  intro hall
  rcases longPacket_fits (n := 1793) (by decide) (by decide) with ⟨hfits, hlen⟩
  rcases @first_alone ⟨15, false, false⟩ (by decide) _ hfits (by rw [hlen]; decide)
    (by decide) with ⟨hans, s₁, m, hs₁, hleft, hm⟩
  -- Without the pool the packet has 257 entries in the end.
  rcases wide_inOrder (by decide) (by decide) rfl rfl hans hs₁ hleft
    (show 256 ≤ _ by rw [hm, hlen]; decide) with ⟨s, hrun, hsends, u, hinner, x, hx, hwide⟩
  have hcallsent : ∀ call ∈ wideCalls ⟨[some ⟨0, longPacket 1793, 0⟩], true⟩ 256,
      call.sent = true := sent_wideCalls rfl 256
  have hans' : ∀ call ∈ wideCalls ⟨[some ⟨0, longPacket 1793, 0⟩], true⟩ 256,
      ∀ p, some p ∈ call.answers → FitsBuffer p.data :=
    answers_wideCalls (P := fun p => FitsBuffer p.data) hans 256
  obtain ⟨rx, hrx, -⟩ := hall ⟨15, false, false⟩ (by decide) (by decide) _
    (fun call hcall p hp => (hans' call hcall p hp).1) s hrun (by rw [hsends]; decide) ⟨1, 1, 1⟩
    (allInOrder s) (fun a ha => timer_allInOrder ha)
    (sent_allInOrder (by decide) (by decide) hcallsent hrun)
  -- With it no packet has more than 256, and the run is the same.
  have hnarrow := (pooledRx_of_run hrx).narrow
  have hcount : (allInOrder s).length = 257 := by
    rw [allInOrder, List.length_map, List.length_range, hsends]
  rcases Kept.run (numbered_of_run (by decide) (by decide) hrun) (sent_of_run hcallsent hrun)
    (fun h => h) (k := 0) (kept_init ⟨1, 1, 1⟩)
    (by rw [number_allInOrder, hsends, hcount, List.range_eq_range']) (by rw [hcount]; decide)
    (by rw [hcount, hsends]) (fun a ha => limited_allInOrder ha) with
    ⟨rx', hinner', hrx', -⟩ | ⟨e, -, herr⟩
  · rw [(run_pooled_iff.mp hrx).1] at hrx'
    cases hrx'
    rw [show Rx.inner (Rx.init ⟨1, 1, 1⟩) = Inner.init from rfl, hinner] at hinner'
    cases hinner'
    have hle := hnarrow x hx
    have hqsz : OUTERQSZ = 256 := rfl
    omega
  · rw [(run_pooled_iff.mp hrx).1] at herr
    cases herr

end Iptfs.Proofs
