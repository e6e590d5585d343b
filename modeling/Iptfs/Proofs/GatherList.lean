import Iptfs.Proofs.SingleOnly

/-!
# `Iptfs.Proofs.GatherList`: the arrays of `write_tfs_pkt` are long enough

`g_wtfs_iovecs` and `g_wtfs_freem` have `g_max_inner_pkt` entries, one for each inner packet of 20
bytes that a buffer holds. `write_tfs_pkt` does not check them. It also needs entries for the
header, for the leftover, and for what fills the datagram at the end.

`iov_packed` and `freed_packed` count what one packing loop uses, by induction on `Packed`. The
entries are enough for any queue up to a `g_tfsmtu` of 9169, and above it for a queue that does
not give more than 457 packets to one call.

In the program the packets are in `INNERQSZ` buffers, and every entry but the header and the last
belongs to a buffer in the hands of the call (`Listed`). So no run uses more than 258.
-/

set_option autoImplicit false

namespace Iptfs

/-- `g_max_inner_pkt`, as `write_tfs_pkts` computes it. -/
def maxInnerPkt : Nat := MAXBUF / 20

/-- The leftover has a byte, and the packets of the queue have 20. -/
structure QueueOf20 (leftover : Option Mbuf) (answers : List (Option Mbuf)) : Prop where
  leftover : ∀ m, leftover = some m → 1 ≤ m.len
  queue : ∀ m, some m ∈ answers → 20 ≤ m.len

/-- The entries of both arrays that the packing loop has used: `g_wtfs_iovecs` with the header in
front, and `g_wtfs_freem`. -/
def Wtfs.GathersAtMost (entries freem : Nat) (l : Wtfs) : Prop :=
  1 + l.iov.length ≤ entries ∧ l.efreem.length ≤ freem

/-- The same of the writer, from the first pass of the loop until the buffers are freed. -/
def TfsWriter.GathersAtMost (entries freem : Nat) : TfsWriter → Prop
  | .call _ => True
  | .pack _ l => l.GathersAtMost entries freem
  | .trypop _ l _ => l.GathersAtMost entries freem
  | .send _ l => l.GathersAtMost entries freem
  | .free _ l => l.length ≤ freem

namespace Proofs

open Iptfs.Lib

/-! ### What one packing loop uses -/

/-- Packets of 20 bytes: each entry but the last takes 20 bytes of the room. -/
theorem iov_packed {room : Nat} {ms : List Mbuf} {iov : List Iov} {freed : List Mbuf}
    {leftover : Option Mbuf} (h : Packed room ms iov freed leftover) (hms : ∀ m ∈ ms, 20 ≤ m.len) :
    20 * iov.length ≤ room + 19 := by
  induction h with
  | exact => exact Nat.zero_le _
  | pad room hpos =>
      rw [List.length_singleton]
      omega
  | lost room m hpos _ =>
      rw [List.length_singleton]
      omega
  | part room m hroom _ =>
      rw [List.length_singleton]
      omega
  | full room m ms iov freed leftover _ hlen _ _ ih =>
      have hm := hms m List.mem_cons_self
      have hrest := ih fun m' hm' => hms m' (List.mem_cons_of_mem _ hm')
      rw [List.length_cons]
      omega

/-- The buffers that are freed, with the one that is cut. -/
theorem freed_packed {room : Nat} {ms : List Mbuf} {iov : List Iov} {freed : List Mbuf}
    {leftover : Option Mbuf} (h : Packed room ms iov freed leftover) (hms : ∀ m ∈ ms, 20 ≤ m.len) :
    20 * (freed.length + leftover.toList.length) ≤ room + 13 := by
  induction h with
  | exact => exact Nat.zero_le _
  | pad room _ => exact Nat.zero_le _
  | lost room m _ _ => exact Nat.zero_le _
  | part room m hroom _ =>
      rw [List.length_nil, Option.toList_some, List.length_singleton]
      omega
  | full room m ms iov freed leftover _ hlen _ _ ih =>
      have hm := hms m List.mem_cons_self
      have hrest := ih fun m' hm' => hms m' (List.mem_cons_of_mem _ hm')
      rw [List.length_cons]
      omega

/-- Behind a first packet of any length but zero. -/
theorem packed_first {room : Nat} {m : Mbuf} {ms : List Mbuf} {iov : List Iov} {freed : List Mbuf}
    {leftover : Option Mbuf} (h : Packed room (m :: ms) iov freed leftover) (hm : 1 ≤ m.len)
    (hms : ∀ m' ∈ ms, 20 ≤ m'.len) :
    20 * iov.length ≤ room + 38 ∧ 20 * (freed.length + leftover.toList.length) ≤ room + 32 := by
  cases h with
  | lost _ _ _ _ =>
      rw [List.length_singleton]
      exact ⟨by omega, Nat.zero_le _⟩
  | part _ _ _ _ =>
      rw [List.length_singleton, List.length_nil, Option.toList_some, List.length_singleton]
      omega
  | full _ _ _ iov freed _ _ hlen _ h =>
      have hiov := iov_packed h hms
      have hfreed := freed_packed h hms
      rw [List.length_cons, List.length_cons]
      omega

/-- No more entries than packets, and one to fill up. -/
theorem iov_packed_le {room : Nat} {ms : List Mbuf} {iov : List Iov} {freed : List Mbuf}
    {leftover : Option Mbuf} (h : Packed room ms iov freed leftover) :
    iov.length ≤ ms.length + 1 := by
  induction h with
  | exact => exact Nat.zero_le _
  | pad room _ => exact Nat.le_refl _
  | lost room m _ _ =>
      rw [List.length_singleton]
      omega
  | part room m _ _ =>
      rw [List.length_singleton]
      omega
  | full room m ms iov freed leftover _ _ _ _ ih =>
      rw [List.length_cons, List.length_cons]
      omega

/-- The packing loop in single-only mode takes nothing from the queue. -/
theorem taken_oneonly {cfg : Config} (hone : cfg.oneonly = true) (fuel : Nat) :
    ∀ (l : Wtfs) (answers : List (Option Mbuf)),
      (packLoop cfg fuel l answers).taken = l.taken := by
  have hkeep : ∀ l : Wtfs, (packOnce cfg l).1.taken = l.taken := by
    intro l
    unfold packOnce
    split
    · rfl
    · split
      · rfl
      · split <;> rfl
  induction fuel with
  | zero =>
      intro l answers
      rfl
  | succ fuel ih =>
      intro l answers
      by_cases hmtu : l.mtu = 0
      · rw [packLoop, if_pos hmtu]
      · have hpass : packOnce cfg l = ((packOnce cfg l).1, none) :=
          Prod.ext rfl (packOnce_oneonly hone hmtu).1
        rw [packLoop, if_neg hmtu, hpass]
        exact (ih _ answers).trans (hkeep l)

/-! ### One call -/

/-- What a call uses from the header on, for a first packet that is not empty. -/
theorem data_uses {cfg : Config} (h9 : 8 < cfg.tfsmtu) {seq offset : Nat} {m : Mbuf}
    {taken : List Mbuf} {answers : List (Option Mbuf)} {sent : Bool} {out : WriteOut}
    (hm : 1 ≤ m.len) (hq : ∀ m', some m' ∈ answers → 20 ≤ m'.len)
    (h : writeTfsData cfg seq offset (wtfsEnter cfg m taken) answers sent = .ok out) :
    20 * out.iov.length ≤ cfg.tfsmtu + 50 ∧ 20 * out.freed.length ≤ cfg.tfsmtu + 24 ∧
      out.iov.length + taken.length ≤ out.taken.length + 3 := by
  obtain ⟨ts, iov, freed, leftover, hpacked, hts, hdata⟩ :=
    writeTfsData_spec cfg h9 seq offset m taken answers sent
  rw [hdata] at h
  cases h
  obtain ⟨hiov, hfreed⟩ := packed_first hpacked hm fun p hp => hq p (hts p hp)
  have hcount := iov_packed_le hpacked
  rw [List.length_cons] at hcount
  refine ⟨?_, ?_, ?_⟩
  · rw [List.length_cons]
    omega
  · have hall : (if sent then freed else freed ++ leftover.toList).length ≤
        freed.length + leftover.toList.length := by
      cases sent with
      | true => exact Nat.le_add_right _ _
      | false => exact Nat.le_of_eq List.length_append
    show 20 * (if sent then freed else freed ++ leftover.toList).length ≤ cfg.tfsmtu + 24
    omega
  · rw [List.length_cons, List.length_append]
    omega

/-- In single-only mode a call takes one packet at most. -/
theorem taken_le_one {cfg : Config} (hone : cfg.oneonly = true) {seq : Nat} {leftover : Option Mbuf}
    {answers : List (Option Mbuf)} {sent : Bool} {out : WriteOut}
    (h : writeTfsPkt cfg seq leftover answers sent = .ok out) : out.taken.length ≤ 1 := by
  have hdata : ∀ {offset : Nat} {l : Wtfs} {answers : List (Option Mbuf)},
      writeTfsData cfg seq offset l answers sent = .ok out → out.taken = l.taken := by
    intro offset l answers h
    unfold writeTfsData at h
    dsimp only at h
    split at h
    · cases h
    · cases h
      exact taken_oneonly hone _ l answers
  unfold writeTfsPkt at h
  split at h
  · rw [hdata h]
    exact Nat.zero_le _
  · split at h
    · rw [hdata h]
      exact Nat.le_refl _
    · rw [if_pos hone] at h
      cases h
      exact Nat.zero_le _

/-- One call of `write_tfs_pkt`, with any queue of packets of 20 bytes or more. -/
theorem call_uses {cfg : Config} (h9 : 9 ≤ cfg.tfsmtu) (hmax : cfg.tfsmtu ≤ MAXBUF - HDRSPACE)
    {seq : Nat} {leftover : Option Mbuf} {answers : List (Option Mbuf)} {sent : Bool}
    {out : WriteOut} (hq : QueueOf20 leftover answers)
    (h : writeTfsPkt cfg seq leftover answers sent = .ok out) :
    out.freed.length ≤ maxInnerPkt ∧
      (cfg.tfsmtu ≤ 9169 ∨ cfg.oneonly = true ∨ out.taken.length ≤ 457 →
        out.iov.length ≤ maxInnerPkt) := by
  have hmost : cfg.tfsmtu ≤ 9192 := hmax
  have hpkt : maxInnerPkt = 460 := rfl
  have hone : cfg.oneonly = true → out.taken.length ≤ 1 := fun hone => taken_le_one hone h
  -- A call that packs: the counts of its loop, taken one way for each of the three conditions.
  have hdata : ∀ {offset : Nat} {m : Mbuf} {taken : List Mbuf} {answers : List (Option Mbuf)},
      1 ≤ m.len → (∀ m', some m' ∈ answers → 20 ≤ m'.len) →
      writeTfsData cfg seq offset (wtfsEnter cfg m taken) answers sent = .ok out →
      out.freed.length ≤ maxInnerPkt ∧
        (cfg.tfsmtu ≤ 9169 ∨ cfg.oneonly = true ∨ out.taken.length ≤ 457 →
          out.iov.length ≤ maxInnerPkt) := by
    intro offset m taken answers hm hq h
    obtain ⟨hiov, hfreed, hcount⟩ := data_uses h9 hm hq h
    refine ⟨by omega, ?_⟩
    rintro (hsmall | hsingle | hfew)
    · omega
    · have := hone hsingle
      omega
    · omega
  -- A call that sends an empty datagram, or nothing, lists nothing.
  have hempty : ∀ datagram seq', out = ⟨datagram, [], seq', none, [], []⟩ →
      out.freed.length ≤ maxInnerPkt ∧
        (cfg.tfsmtu ≤ 9169 ∨ cfg.oneonly = true ∨ out.taken.length ≤ 457 →
          out.iov.length ≤ maxInnerPkt) := by
    rintro datagram seq' rfl
    exact ⟨Nat.zero_le _, fun _ => Nat.zero_le _⟩
  -- In the order of the source: the leftover, a packet from the queue, an empty queue.
  unfold writeTfsPkt at h
  split at h
  · rename_i m
    exact hdata (hq.leftover m rfl) hq.queue h
  · split at h
    · rename_i m hhead
      have hcons : answers = some m :: answers.tail := by
        cases answers with
        | nil => cases hhead
        | cons o answers =>
            rw [List.headD_cons] at hhead
            rw [hhead, List.tail_cons]
      have hmem : some m ∈ answers := by
        rw [hcons]
        exact List.mem_cons_self
      have hlen := hq.queue m hmem
      refine hdata (by omega) ?_ h
      intro m' hm'
      exact hq.queue m' (List.mem_of_mem_tail hm')
    · split at h
      · cases h
        exact hempty _ _ rfl
      · cases h
        exact hempty _ _ rfl

/-! ### The program -/

/-- The entries of the packing loop: one for each buffer to be freed, and the last. -/
def Listed : TfsWriter → Prop
  | .pack _ l => l.iov.length ≤ l.efreem.length + 1 ∧
      (l.mtu ≠ 0 → l.iov.length = l.efreem.length)
  | .trypop _ l _ => l.iov.length = l.efreem.length
  | .send _ l => l.iov.length ≤ l.efreem.length + 1
  | _ => True

/-- A pass of the loop adds an entry, and a buffer to be freed or nothing more. -/
theorem packOnce_listed (cfg : Config) {l : Wtfs} (h : l.iov.length = l.efreem.length) :
    (packOnce cfg l).1.iov.length ≤ (packOnce cfg l).1.efreem.length + 1 ∧
      ((packOnce cfg l).1.mtu ≠ 0 →
        (packOnce cfg l).1.iov.length = (packOnce cfg l).1.efreem.length) ∧
      ((packOnce cfg l).2 ≠ none →
        (packOnce cfg l).1.iov.length = (packOnce cfg l).1.efreem.length) := by
  unfold packOnce
  split
  · simp [h]
  · split
    · simp [h]
    · split <;> simp [h]

/-- Every step of the writer keeps it. -/
theorem writeTfsStep_listed {cfg : Config} {s t : Ingress} {sent : Bool} (hs : Listed s.writer)
    (h : writeTfsStep cfg s sent = .ok t) : Listed t.writer := by
  unfold writeTfsStep at h
  cases hwriter : s.writer with
  | call leftover =>
      simp only [hwriter] at h
      split at h
      · cases h
      · split at h
        · cases h
          exact ⟨Nat.zero_le _, fun _ => rfl⟩
        · split at h
          · cases h
            exact ⟨Nat.zero_le _, fun _ => rfl⟩
          · cases h
            exact trivial
  | pack offset l =>
      simp only [hwriter] at h hs
      -- A pass adds an entry, and a buffer to be freed wherever room is left or the next packet is
      -- asked for.
      obtain ⟨hle, heq⟩ := hs
      split at h
      · cases h
        exact hle
      · rename_i hmtu
        obtain ⟨hle', heq', hask⟩ := packOnce_listed cfg (heq hmtu)
        split at h
        · rename_i l' hpass
          cases h
          rw [hpass] at hle' heq'
          exact ⟨hle', heq'⟩
        · rename_i l' maxsize hpass
          cases h
          rw [hpass] at hask
          exact hask (Option.some_ne_none _)
  | trypop offset l maxsize =>
      simp only [hwriter] at h hs
      cases h
      have hs : l.iov.length = l.efreem.length := hs
      -- `trypop` puts a packet in hand and leaves both lists as they were.
      exact ⟨Nat.le_succ_of_le (Nat.le_of_eq hs), fun _ => hs⟩
  | send offset l =>
      simp only [hwriter] at h
      split at h
      · cases h
      · cases h
        cases sent <;> trivial
  | free leftover freem =>
      simp only [hwriter] at h
      cases freem with
      | nil =>
          cases h
          trivial
      | cons m freem =>
          dsimp only at h
          split at h
          · cases h
          · cases h
            trivial

/-- In a run of the program no call uses more entries than there are buffers, and two. -/
theorem gathers_of_run (cfg : Config) {es : List IngressEvent} {s : Ingress}
    (hrun : run (ingressStep cfg) Ingress.init es = .ok s) :
    s.writer.GathersAtMost (INNERQSZ + 2) INNERQSZ := by
  have hlisted : Listed s.writer := by
    have hinit : Listed Ingress.init.writer := trivial
    refine run_invariant (P := fun s => Listed s.writer) ?_ hinit hrun
    intro s e t hs hstep
    cases e with
    | reader result =>
        rw [(readIntfStep_moves hstep).1]
        exact hs
    | writer sent => exact writeTfsStep_listed hs hstep
  have hplaces : s.places.length ≤ INNERQSZ := by
    have hle := (ingress_moves cfg).length_le (s := Ingress.init) trivial hrun
    rw [places_init.length_eq, List.length_range] at hle
    exact hle
  have hhands : s.writer.hands.length ≤ INNERQSZ := by
    rw [Ingress.places] at hplaces
    simp only [List.length_append] at hplaces
    omega
  -- The buffers to be freed are in the hands of the writer, and there is one entry more at most.
  have hloop : ∀ {l : Wtfs}, l.iov.length ≤ l.efreem.length + 1 → l.hands.length ≤ INNERQSZ →
      l.GathersAtMost (INNERQSZ + 2) INNERQSZ := by
    intro l hiov hle
    simp only [Wtfs.hands, List.length_map, List.length_append] at hle
    constructor <;> omega
  cases hwriter : s.writer with
  | call leftover => trivial
  | pack offset l =>
      rw [hwriter] at hlisted hhands
      exact hloop hlisted.1 hhands
  | trypop offset l maxsize =>
      rw [hwriter] at hlisted hhands
      exact hloop (Nat.le_succ_of_le (Nat.le_of_eq hlisted)) hhands
  | send offset l =>
      rw [hwriter] at hlisted hhands
      exact hloop hlisted hhands
  | free leftover freem =>
      rw [hwriter] at hhands
      simp only [TfsWriter.hands, List.length_map, List.length_append] at hhands
      show freem.length ≤ INNERQSZ
      omega

/-- Larger arrays are enough, too. -/
theorem gathersAtMost_mono {w : TfsWriter} {entries freem entries' freem' : Nat}
    (h : w.GathersAtMost entries freem) (he : entries ≤ entries') (hf : freem ≤ freem') :
    w.GathersAtMost entries' freem' := by
  cases w with
  | call leftover => trivial
  | pack offset l | trypop offset l maxsize | send offset l =>
      exact ⟨Nat.le_trans h.1 he, Nat.le_trans h.2 hf⟩
  | free leftover freem => exact Nat.le_trans (show freem.length ≤ _ from h) hf

/-- When the gather list is large enough. For every `g_tfsmtu` and every queue of packets of 20
bytes, a call never frees more buffers than `g_wtfs_freem` has entries, and `g_wtfs_iovecs` has
entries enough up to a `g_tfsmtu` of 9169, in single-only mode, and for 457 packets in one call.
In the program, with its `INNERQSZ` buffers, both are enough in every run. -/
theorem gather_list_fits (cfg : Config) (h9 : 9 ≤ cfg.tfsmtu)
    (hmax : cfg.tfsmtu ≤ MAXBUF - HDRSPACE) :
    (∀ seq leftover answers sent out, QueueOf20 leftover answers →
        writeTfsPkt cfg seq leftover answers sent = .ok out →
        out.freed.length ≤ maxInnerPkt ∧
          (cfg.tfsmtu ≤ 9169 ∨ cfg.oneonly = true ∨ out.taken.length ≤ 457 →
            out.iov.length ≤ maxInnerPkt)) ∧
      ∀ es s, run (ingressStep cfg) Ingress.init es = .ok s →
        s.writer.GathersAtMost maxInnerPkt maxInnerPkt := by
  constructor
  · intro seq leftover answers sent out hq h
    exact call_uses h9 hmax hq h
  · intro es s hrun
    exact gathersAtMost_mono (gathers_of_run cfg hrun) (by decide) (by decide)

/-- Three packets in a datagram of 1500 bytes: five entries, with the header and the pad. -/
theorem gather_list_fits_three : ∃ out, writeTfsPkt ⟨1500, false, false⟩ 1 none
    (List.replicate 3 (some ⟨0, List.replicate 20 0x45, 0⟩)) true = .ok out ∧
    out.iov.length = 5 ∧ out.iov.length ≤ maxInnerPkt := by
  obtain ⟨out, hout, hfive⟩ : ∃ out, writeTfsPkt ⟨1500, false, false⟩ 1 none
      (List.replicate 3 (some ⟨0, List.replicate 20 0x45, 0⟩)) true = .ok out ∧
      out.iov.length = 5 := ⟨_, rfl, rfl⟩
  have hq : QueueOf20 none (List.replicate 3 (some ⟨0, List.replicate 20 0x45, 0⟩)) := by
    constructor
    · intro m hm
      cases hm
    · intro m hm
      cases (List.mem_replicate.mp hm).2
      exact Nat.le_refl _
  exact ⟨out, hout, hfive, ((gather_list_fits ⟨1500, false, false⟩ (by decide) (by decide)).1
    1 none _ true out hq hout).2 (Or.inl (by decide))⟩

/-- A leftover of one byte and 458 packets of 20 fill a datagram of 9170 bytes but for one byte.
With the header and the pad these are 461 entries. -/
theorem not_gather_list_fits : ¬ ∀ (cfg : Config) (seq : Nat) (leftover : Option Mbuf)
    (answers : List (Option Mbuf)) (sent : Bool) (out : WriteOut),
    9 ≤ cfg.tfsmtu → cfg.tfsmtu ≤ MAXBUF - HDRSPACE → QueueOf20 leftover answers →
    writeTfsPkt cfg seq leftover answers sent = .ok out → out.iov.length ≤ maxInnerPkt := by
  intro h
  have hq : QueueOf20 (some ⟨0, [7], 0⟩)
      (List.replicate 458 (some ⟨0, List.replicate 20 0x45, 0⟩)) := by
    constructor
    · intro m hm
      cases hm
      exact Nat.le_refl _
    · intro m hm
      cases (List.mem_replicate.mp hm).2
      exact Nat.le_refl _
  have hcount : ((writeTfsPkt ⟨9170, false, false⟩ 1 (some ⟨0, [7], 0⟩)
      (List.replicate 458 (some ⟨0, List.replicate 20 0x45, 0⟩)) true).toOption.map
      fun out => out.iov.length) = some 461 := by decide +kernel
  cases hout : writeTfsPkt ⟨9170, false, false⟩ 1 (some ⟨0, [7], 0⟩)
      (List.replicate 458 (some ⟨0, List.replicate 20 0x45, 0⟩)) true with
  | error e =>
      rw [hout] at hcount
      cases hcount
  | ok out =>
      have hle := h _ _ _ _ _ out (by decide) (by decide) hq hout
      rw [hout] at hcount
      have hiov : out.iov.length = 461 := Option.some.inj hcount
      have hpkt : maxInnerPkt = 460 := rfl
      omega

end Proofs

end Iptfs
