import Iptfs.Proofs.EgressProgress
import Iptfs.Proofs.EgressPointers
import Iptfs.Proofs.IngressPointers

/-!
# `Iptfs.Proofs.CleanPools`: what is free is clean

`mbuf_reset` and `miov_reset` leave an mbuf and a miov as `add_to_inner_packet` and `mbuf_deref`
expect them: no references, no entries, no bytes. The constructors leave that to the memory they
get. `clean_iff_zeroed` says when it holds all the same: `Tunnel.Clean` holds in every state of
every run exactly when `malloc` returned zeros in these fields.

`TunnelPointed` is the invariant from zeros on (`tunnelStep_pointed`). For the other direction a
run has to get to each miov. `burst` is a datagram with as many small packets as there are miovs,
and the reader pops one for each packet (`burst_handsDown`).
-/

set_option autoImplicit false

namespace Iptfs.Proofs

open Iptfs.Lib

/-! ### Zeroed memory -/

section Zeroed

variable {cfg : Config} {pps : Pps} {mem : Malloc}

/-- In memory that starts as zeros the ingress is the one that the model starts from: the fields
of the mbufs that no constructor writes are zero anyway. -/
theorem tfsTunnelIngress_zeroed (h : mem.Zeroed) : tfsTunnelIngress mem = .init := by
  have hzero : ∀ id, (cell 0 mem.inner id).toNat = 0 := by
    intro id
    rw [cell_eq_zero h.inner]
    rfl
  simp only [tfsTunnelIngress, hzero]
  rfl

/-- The pools of the egress are built where `g_tfsmtu` is not zero. -/
theorem tfsTunnelEgress_ok {s : Egress} (hs : tfsTunnelEgress cfg pps mem = .ok s) :
    cfg.tfsmtu ≠ 0 ∧ s = { Egress.init pps with
      refcnt := fun b => (cell 0 mem.outer b).toNat, miov := cell Miov.clean mem.miov } := by
  rw [tfsTunnelEgress] at hs
  split at hs
  · cases hs
  · rename_i hmtu
    cases hs
    exact ⟨hmtu, rfl⟩

/-- The same for the egress. Here it is the fields of the miovs that matter, `refcnt` among them. -/
theorem tfsTunnelEgress_zeroed (h : mem.Zeroed) (hmtu : cfg.tfsmtu ≠ 0) :
    tfsTunnelEgress cfg pps mem = .ok (.init pps) := by
  have hrefcnt : ∀ b, (cell 0 mem.outer b).toNat = 0 := by
    intro b
    rw [cell_eq_zero h.outer]
    rfl
  have hmiov : cell Miov.clean mem.miov = fun _ => Miov.clean := funext (cell_eq_zero h.miov)
  simp only [tfsTunnelEgress, hmtu, if_false, hrefcnt, hmiov]
  rfl

/-- The arrays of a miov are not so long that the entries of all of them pass a `uint32_t`. -/
theorem refcntFits_maxiov (cfg : Config) : RefcntFits cfg.maxiov := by
  have hle : MAXBUF / cfg.tfsmtu ≤ MAXBUF := Nat.div_le_self _ _
  simp only [RefcntFits, Config.maxiov, OUTERQSZ, MAXBUF] at hle ⊢
  omega

/-- Both tunnels between two steps. -/
structure TunnelPointed (cfg : Config) (s : Tunnel) : Prop where
  ingress : IngressPointed cfg s.ingress s.innerPtrs
  conserves : Conserves cfg.maxiov s.egress
  miovs : MiovsClean s.egress
  outer : OuterPointed s.egress s.outerPtrs

/-- The four threads can start: each mbuf is in one place, with pointers as `mbuf_reset` sets
them, and each miov is empty. -/
theorem tfsTunnel_pointed {s : Tunnel} (h : mem.Zeroed) (hs : tfsTunnel cfg pps mem = .ok s) :
    TunnelPointed cfg s := by
  have hmtu : cfg.tfsmtu ≠ 0 := by
    intro hzero
    rw [tfsTunnel, tfsTunnelEgress, if_pos hzero] at hs
    cases hs
  rw [tfsTunnel, tfsTunnelEgress_zeroed h hmtu] at hs
  cases hs
  refine ⟨?_, conserves_init _ pps, miovsClean_init pps, outerPointed_init pps⟩
  rw [tfsTunnelIngress_zeroed h]
  exact ingressPointed_init cfg

/-- Every step of any of the threads keeps the invariant. -/
theorem tunnelStep_pointed (s : Tunnel) (e : TunnelEvent) (t : Tunnel) (h : TunnelPointed cfg s)
    (hstep : tunnelStep cfg s e = .ok t) : TunnelPointed cfg t := by
  cases e with
  | ingress e =>
      rw [tunnelStep] at hstep
      split at hstep
      · cases hstep
      · rename_i u hu
        cases hstep
        exact ⟨ingressStep_pointed h.ingress hu, h.conserves, h.miovs, h.outer⟩
  | egress e =>
      rw [tunnelStep] at hstep
      split at hstep
      · cases hstep
      · rename_i u hu
        cases hstep
        -- Where the buffers are does not depend on what is in them.
        have hcons := egressStep_conserves (refcntFits_maxiov cfg) _ _ _ h.conserves hu
        have hmiovs := egressStep_miovsClean h.conserves h.miovs hu
        refine ⟨h.ingress, hcons, hmiovs, ?_⟩
        cases e with
        | reader timer input => exact readTfsStep_pointed h.outer h.conserves hu
        | writer => exact writeIntfStep_pointed h.outer h.conserves hu

/-- The invariant says that what is free is clean. -/
theorem TunnelPointed.clean {s : Tunnel} (h : TunnelPointed cfg s) : s.Clean where
  inner := by
    intro m hm
    have hmbufs : m ∈ s.ingress.mbufs := List.mem_append_left _ hm
    have hunread : m ∈ s.ingress.unread := List.mem_append_left _ hm
    exact ⟨(h.ingress.pointed.agrees m hmbufs).1, h.ingress.pointed.unread m hunread⟩
  outer := by
    intro b hb
    have hunread : b ∈ s.egress.unread := List.mem_append_left _ hb
    refine ⟨?_, h.outer.unread b hunread⟩
    have hfree : 0 < s.egress.freeq.queue.count b := List.count_pos_iff.mpr hb
    have honce := h.conserves.counted.once b
    have hpool := h.conserves.counted.pool_le b
    omega
  miov := by
    rintro k ⟨-, iovfreeq, hpop⟩
    have hmem : k ∈ s.egress.iovfreeq.queue := by
      rw [(Queue.pop_eq_some.mp hpop).1]
      exact List.mem_cons_self
    rw [h.miovs.free k hmem]
    exact ⟨rfl, rfl, rfl⟩

end Zeroed

/-! ### A run to each miov -/

/-- `n` packets of four bytes, as their length fields say. -/
def tinies (n : Nat) : List UInt8 := (List.replicate n [0x45, 0, 0, 4]).flatten

/-- A datagram with a packet for each miov. -/
def burst : List UInt8 := [0, 0, 0, 1, 0, 0, 0, 0] ++ tinies OUTERQSZ

/-- The packets of the burst, one at a time. The first one is four bytes as its own length field
says. -/
theorem tinies_succ (n : Nat) : tinies (n + 1) = 0x45 :: 0 :: 0 :: 4 :: tinies n := rfl

theorem length_tinies (n : Nat) : (tinies n).length = 4 * n := by
  induction n with
  | zero => rfl
  | succ n ih =>
      rw [tinies_succ]
      simp only [List.length_cons, ih]
      omega

/-- `read` hands the burst out whole, since it is shorter than an mbuf. -/
theorem recvBytes_burst : recvBytes burst = burst := by
  apply List.take_of_length_le
  rw [burst, List.length_append, length_tinies]
  decide

/-- The reader is in the burst, before a `miovq_pop`. There are `left` packets left, and as many
miovs, each as the memory had it. -/
structure HandsDown (mem : Malloc) (left : Nat) (s : Egress) : Prop where
  reader : ∃ tbuf, s.reader = .inner tbuf 0 none ∧ tbuf.rest = tinies left
  iovfreeq : s.iovfreeq.queue = (List.range left).reverse
  outq : s.outq.queue.length + left = s.outq.size
  miov : ∀ k < left, s.miov k = cell .clean mem.miov k

section Burst

variable {cfg : Config} {pps : Pps} {mem : Malloc}

/-- The miov on top is handed out next. -/
theorem HandsDown.handsOut {k : Nat} {s : Egress} (h : HandsDown mem (k + 1) s) : s.HandsOut k := by
  obtain ⟨tbuf, hreader, -⟩ := h.reader
  have hq : s.iovfreeq.queue = k :: (List.range k).reverse := by
    rw [h.iovfreeq, List.range_succ, List.reverse_append]
    rfl
  obtain ⟨iovfreeq, hpop, -, -⟩ := Queue.exists_pop hq
  exact ⟨⟨tbuf, 0, hreader⟩, iovfreeq, hpop⟩

/-- The pass that completes the first of the packets. -/
theorem innerPass_tinies {tbuf : Tbuf} {n : Nat} (hrest : tbuf.rest = tinies (n + 2))
    (hn : n + 2 ≤ OUTERQSZ) :
    innerPass tbuf 0 .clean = .ok (.full tbuf.start 4 (Tbuf.advance tbuf 4) true) := by
  have hlen : tbuf.rest.length = 4 * (n + 2) := by
    rw [hrest, length_tinies]
  have hshort : tbuf.rest.length < 2 ^ 16 := by
    simp only [OUTERQSZ] at hn
    omega
  have hfield : tbuf.data.drop (tbuf.start + 2) = 0 :: 4 :: tinies (n + 1) := by
    rw [← List.drop_drop]
    show tbuf.rest.drop 2 = _
    rw [hrest, tinies_succ]
    rfl
  have hiplen : startIplen tbuf tbuf.rest.length = .ok (some 4) := by
    have hge : tbuf.rest.length ≥ 4 := by omega
    rw [startIplen, hrest, tinies_succ]
    simp only [← tinies_succ, ← hrest, hge, if_true, get16, hfield]
    rfl
  have hmore : 4 < tbuf.rest.length := by omega
  rw [innerPass_clean hshort, startPass_full hshort hiplen (by decide) (by omega),
    decide_eq_true hmore]

/-- A packet of the burst is pushed on the outq, with the miov on top. -/
theorem HandsDown.next {n : Nat} {s : Egress} (h : HandsDown mem (n + 2) s)
    (hn : n + 2 ≤ OUTERQSZ) (hclean : cell .clean mem.miov (n + 1) = .clean) :
    ∃ es t, run (egressStep cfg cfg.maxiov) s es = .ok t ∧ HandsDown mem (n + 1) t := by
  obtain ⟨tbuf, hreader, hrest⟩ := h.reader
  have hq : s.iovfreeq.queue = (n + 1) :: (List.range (n + 1)).reverse := by
    rw [h.iovfreeq, List.range_succ, List.reverse_append]
    rfl
  obtain ⟨iovfreeq, hpop, hiovfreeq, -⟩ := Queue.exists_pop hq
  have hspace : s.outq.queue.length < s.outq.size := by
    have := h.outq
    omega
  obtain ⟨outq, hpush, houtq, hsize⟩ := Queue.exists_push hspace (n + 1)
  have hmiov : s.miov (n + 1) = .clean := by
    rw [h.miov (n + 1) (by omega), hclean]
  have hlen : tbuf.rest.length = 4 * (n + 2) := by
    rw [hrest, length_tinies]
  have hnext : (Tbuf.advance tbuf 4).rest = tinies (n + 1) := by
    rw [Tbuf.rest_advance, hrest, tinies_succ]
    rfl
  have hne : (Tbuf.advance tbuf 4).rest ≠ [] := by
    rw [hnext, tinies_succ]
    exact List.cons_ne_nil _ _
  have hadd := miovAddmbuf_take (t := tbuf) Miov.clean (show 0 < 4 by decide) (by omega)
  -- After the `miovq_pop`, after the pass, and after the push and the recursive call.
  let s₁ : Egress := { s with iovfreeq := iovfreeq, reader := .inner tbuf 0 (some (n + 1)) }
  let s₂ : Egress :=
    { (s₁.setMiov (n + 1) { addSlice .clean tbuf (tbuf.rest.take 4) with left := 0 }).fetchAdd
        tbuf.id with reader := .push (Tbuf.advance tbuf 4) (n + 1) true }
  let s₃ : Egress := { s₂ with outq := outq, reader := .inner (Tbuf.advance tbuf 4) 0 none }
  have h₁ : egressStep cfg cfg.maxiov s (.reader none none) = .ok s₁ := by
    simp only [egressStep, readTfsStep, hreader, miovqPop, hpop]
    rfl
  have h₂ : egressStep cfg cfg.maxiov s₁ (.reader none none) = .ok s₂ := by
    have hroom : (Miov.clean).niov < cfg.maxiov := Nat.succ_pos _
    have hmiov₁ : s₁.miov (n + 1) = .clean := hmiov
    show innerStepOn cfg.maxiov s₁ tbuf 0 (n + 1) = .ok s₂
    simp only [innerStepOn, addmbufStep, hmiov₁, innerPass_tinies hrest hn, hroom, if_true, hadd]
    rfl
  have h₃ : egressStep cfg cfg.maxiov s₂ (.reader none none) = .ok s₃ := by
    have hpush₂ : miovqPush s₂.outq (n + 1) = some outq := hpush
    show readTfsStep cfg cfg.maxiov s₂ none none = .ok s₃
    simp only [readTfsStep, s₂, s₃, enterStep, enterInner_rest hne, if_true]
    simp only [s₂] at hpush₂
    simp only [hpush₂]
  refine ⟨List.replicate 3 (.reader none none), s₃, ?_, ?_⟩
  · exact run_cons_eq_ok.mpr ⟨s₁, h₁, run_cons_eq_ok.mpr ⟨s₂, h₂, run_cons_eq_ok.mpr ⟨s₃, h₃, rfl⟩⟩⟩
  · refine ⟨⟨_, rfl, hnext⟩, hiovfreeq, ?_, ?_⟩
    · have hall := h.outq
      show outq.queue.length + (n + 1) = outq.size
      rw [houtq, hsize, List.length_cons]
      omega
    · intro k hk
      have hne : k ≠ n + 1 := Nat.ne_of_lt hk
      show Function.update s.miov (n + 1) _ k = _
      rw [Function.update_of_ne hne]
      exact h.miov k (by omega)

/-- The burst is a data datagram. -/
theorem classify_burst : classify burst false = .ok (.data 1) := by
  have hlen : burst.length = 8 + 4 * OUTERQSZ := by
    rw [burst, List.length_append, length_tinies]
    rfl
  have h0 : ¬ burst.length = 0 := by omega
  have h8 : ¬ burst.length < 8 := by omega
  have hword : get32 burst 4 = .ok 0 := rfl
  have hseq : get32 burst 0 = .ok 1 := rfl
  simp only [classify, h0, h8, if_false, Bool.false_eq_true, hword, hseq]
  decide

/-- The reader takes a buffer without references from the free queue, and comes to `recvfrom`. -/
theorem reader_takes (cfg : Config) {s : Egress} {b : Nat} {rest : List Nat}
    (hreader : s.reader = .start) (hq : s.freeq.queue = b :: rest) (hzero : s.refcnt b = 0) :
    ∃ es t, run (egressStep cfg cfg.maxiov) s es = .ok t ∧ t.reader = .recv b none ∧
      t.ack = s.ack ∧ t.iovfreeq = s.iovfreeq ∧ t.outq = s.outq ∧ t.miov = s.miov := by
  obtain ⟨freeq, hpop, -, -⟩ := Queue.exists_pop hq
  let s₁ : Egress := { s with freeq := freeq, reader := .startRef b }
  let s₂ : Egress := { s₁.fetchAdd b with reader := .top b none }
  let s₃ : Egress := { s₂.fetchSub b with reader := .reset b none }
  let s₄ : Egress := { s₃ with reader := .store b none }
  let s₅ : Egress := { s₄.storeOne b with reader := .recv b none }
  have hone : s₂.refcnt b = 1 := by
    show Function.update s.refcnt b ((s.refcnt b + 1) % 2 ^ 32) b = 1
    rw [Function.update_self, hzero]
    rfl
  have hnone : s₃.refcnt b = 0 := by
    show Function.update s₂.refcnt b ((s₂.refcnt b + 2 ^ 32 - 1) % 2 ^ 32) b = 0
    rw [Function.update_self, hone]
    rfl
  have h₁ : readTfsStep cfg cfg.maxiov s none none = .ok s₁ := by
    simp only [readTfsStep, hreader, mqueuePop, hpop]
    rfl
  have h₂ : readTfsStep cfg cfg.maxiov s₁ none none = .ok s₂ := rfl
  have h₃ : readTfsStep cfg cfg.maxiov s₂ none none = .ok s₃ := by
    have hr : s₂.reader = .top b none := rfl
    simp only [readTfsStep, hr, ackTimerRecord, hone, if_true]
    rfl
  have h₄ : readTfsStep cfg cfg.maxiov s₃ none none = .ok s₄ := by
    have hr : s₃.reader = .reset b none := rfl
    simp only [readTfsStep, hr, assertUnref, hnone, if_true]
    rfl
  have h₅ : readTfsStep cfg cfg.maxiov s₄ none none = .ok s₅ := rfl
  refine ⟨List.replicate 5 (.reader none none), s₅, ?_, rfl, rfl, rfl, rfl, rfl⟩
  exact run_cons_eq_ok.mpr ⟨s₁, h₁, run_cons_eq_ok.mpr ⟨s₂, h₂, run_cons_eq_ok.mpr ⟨s₃, h₃,
    run_cons_eq_ok.mpr ⟨s₄, h₄, run_cons_eq_ok.mpr ⟨s₅, h₅, rfl⟩⟩⟩⟩⟩

/-- The burst is the first datagram that is received. -/
theorem recv_burst {s : Egress} {b : Nat} (hreader : s.reader = .recv b none)
    (hack : s.ack = .zero) :
    egressStep cfg cfg.maxiov s (.reader none (some (burst, false))) =
      .ok { s with
        ack := (Ackinfo.zero.begin 1).advance 1, reader := .inner ⟨b, burst, 8⟩ 0 none } := by
  have henter : enterInner (Tbuf.fresh b burst) true = .ok (⟨b, burst, 8⟩, 0) :=
    enterInner_new b (show ([0, 0, 0, 1, 0, 0, 0, 0] : List UInt8).length = 8 from rfl)
      (List.cons_ne_nil _ _) rfl
  have hnew : ¬ 1 ≤ (Ackinfo.zero.begin 1).last := by decide
  simp only [egressStep, readTfsStep, hreader, recvStep, recvBytes_burst, classify_burst, hack,
    hnew, if_false, enterStep, henter]

/-- The reader comes to the burst. -/
theorem burst_begins {s : Egress} (hs : tfsTunnelEgress cfg pps mem = .ok s)
    (hzero : s.refcnt 255 = 0) :
    ∃ es t, run (egressStep cfg cfg.maxiov) s es = .ok t ∧ HandsDown mem OUTERQSZ t := by
  obtain ⟨-, heq⟩ := tfsTunnelEgress_ok hs
  have hstart : s.reader = .start := by rw [heq]; rfl
  have hzeroAck : s.ack = .zero := by rw [heq]; rfl
  have hq : s.freeq.queue = 255 :: (List.range 255).reverse := by
    rw [heq]
    show (List.range (255 + 1)).reverse.map id = _
    rw [List.map_id, List.range_succ, List.reverse_append]
    rfl
  obtain ⟨es, t, hrun, hreader, hack, hiovfreeq, houtq, hmiov⟩ :=
    reader_takes cfg hstart hq hzero
  refine ⟨es ++ [.reader none (some (burst, false))], _,
    run_concat.mpr ⟨t, hrun, recv_burst hreader (hack.trans hzeroAck)⟩, ⟨_, rfl, rfl⟩, ?_, ?_, ?_⟩
  · show t.iovfreeq.queue = _
    rw [hiovfreeq, heq]
    exact List.map_id _
  · show t.outq.queue.length + OUTERQSZ = t.outq.size
    rw [houtq, heq]
    rfl
  · intro k _
    show t.miov k = _
    rw [hmiov, heq]

end Burst

/-! ### Every state of every run -/

section Main

variable {cfg : Config} {pps : Pps} {mem : Malloc}

/-- A run of the egress is a run of both tunnels in which the ingress does nothing. -/
theorem run_egress {es : List EgressEvent} {s : Tunnel} {u : Egress}
    (h : run (egressStep cfg cfg.maxiov) s.egress es = .ok u) :
    ∃ ptrs, run (tunnelStep cfg) s (es.map .egress) =
      .ok { s with egress := u, outerPtrs := ptrs } := by
  induction es generalizing s with
  | nil =>
      cases h
      exact ⟨s.outerPtrs, rfl⟩
  | cons e es ih =>
      obtain ⟨t, ht, hrest⟩ := run_cons_eq_ok.mp h
      have hstep : tunnelStep cfg s (.egress e) =
          .ok { s with egress := t, outerPtrs := egressPtrs s.egress t s.outerPtrs e } := by
        rw [tunnelStep, ht]
      obtain ⟨ptrs, hrun⟩ := ih (s := { s with
        egress := t, outerPtrs := egressPtrs s.egress t s.outerPtrs e }) hrest
      exact ⟨ptrs, run_cons_eq_ok.mpr ⟨_, hstep, hrun⟩⟩

/-- Where `tfs_tunnel` makes both tunnels, it has made each. -/
theorem tfsTunnel_ok {s : Tunnel} (hs : tfsTunnel cfg pps mem = .ok s) :
    tfsTunnelEgress cfg pps mem = .ok s.egress ∧ s.ingress = tfsTunnelIngress mem := by
  rw [tfsTunnel] at hs
  split at hs
  · cases hs
  · rename_i egress hegress
    cases hs
    exact ⟨hegress, rfl⟩

/-- A miov with no entries, no bytes and nothing left is as `miov_reset` leaves it. -/
theorem eq_clean {m : Miov} (hniov : m.niov = 0) (hlen : m.len = 0) (hleft : m.left = 0) :
    m = .clean := by
  obtain ⟨iov, len, left⟩ := m
  cases List.eq_nil_of_length_eq_zero hniov
  cases hlen
  cases hleft
  rfl

/-- A miov of the burst is handed out as the memory had it. -/
theorem HandsDown.cell_eq {s : Tunnel} {es : List EgressEvent} {u : Egress} {k : Nat}
    (h : HandsDown mem (k + 1) u) (hrun : run (egressStep cfg cfg.maxiov) s.egress es = .ok u)
    (hclean : ∀ t, Reachable (tunnelStep cfg) s t → t.Clean) :
    cell .clean mem.miov k = .clean := by
  obtain ⟨ptrs, htunnel⟩ := run_egress hrun
  obtain ⟨hniov, hlen, hleft⟩ := (hclean _ ⟨_, htunnel⟩).miov k h.handsOut
  rw [← h.miov k (Nat.lt_succ_self k)]
  exact eq_clean hniov hlen hleft

/-- Where what is free is clean in every state, the reader gets to each of the miovs with the
burst. -/
theorem burst_handsDown {s : Tunnel} (hs : tfsTunnel cfg pps mem = .ok s)
    (hclean : ∀ t, Reachable (tunnelStep cfg) s t → t.Clean) {n : Nat} (hn : n < OUTERQSZ) :
    ∃ es u, run (egressStep cfg cfg.maxiov) s.egress es = .ok u ∧
      HandsDown mem (OUTERQSZ - n) u := by
  obtain ⟨hegress, -⟩ := tfsTunnel_ok hs
  induction n with
  | zero =>
      -- The buffer that the reader pops first is in the free queue, so it is clean.
      apply burst_begins hegress
      refine ((hclean s (Reachable.refl _ _)).outer 255 ?_).1
      rw [(tfsTunnelEgress_ok hegress).2]
      show 255 ∈ (List.range OUTERQSZ).reverse.map id
      simp [OUTERQSZ]
  | succ n ih =>
      -- The miov on top is handed out, so it is clean, and the packet goes out with it.
      obtain ⟨es, u, hrun, hu⟩ := ih (by omega)
      have hleft : OUTERQSZ - n = OUTERQSZ - (n + 2) + 2 := by omega
      have hnext : OUTERQSZ - (n + 1) = OUTERQSZ - (n + 2) + 1 := by omega
      rw [hleft] at hu
      rw [hnext]
      obtain ⟨es', t, hrun', ht⟩ := hu.next (by omega) (hu.cell_eq hrun hclean)
      exact ⟨es ++ es', t, run_append.mpr ⟨u, hrun, hrun'⟩, ht⟩

/-- The memory was zero. -/
theorem zeroed_of_clean {s : Tunnel} (hs : tfsTunnel cfg pps mem = .ok s)
    (hclean : ∀ t, Reachable (tunnelStep cfg) s t → t.Clean) : mem.Zeroed where
  inner := by
    intro i
    have hmem : (⟨i.val, [], (cell 0 mem.inner i.val).toNat⟩ : Mbuf) ∈ s.ingress.freeq.queue := by
      rw [(tfsTunnel_ok hs).2]
      apply List.mem_map_of_mem
      exact List.mem_reverse.mpr (List.mem_range.mpr i.isLt)
    have hzero := ((hclean s (Reachable.refl _ _)).inner _ hmem).1
    rw [cell_of_lt] at hzero
    exact UInt32.toNat_inj.mp hzero
  outer := by
    intro b
    have hegress := (tfsTunnelEgress_ok (tfsTunnel_ok hs).1).2
    have hmem : b.val ∈ s.egress.freeq.queue := by
      rw [hegress]
      show b.val ∈ (List.range OUTERQSZ).reverse.map id
      rw [List.map_id]
      exact List.mem_reverse.mpr (List.mem_range.mpr b.isLt)
    have hzero : s.egress.refcnt b.val = 0 := ((hclean s (Reachable.refl _ _)).outer _ hmem).1
    rw [hegress] at hzero
    have hcell : (cell 0 mem.outer b.val).toNat = 0 := hzero
    rw [cell_of_lt] at hcell
    exact UInt32.toNat_inj.mp hcell
  miov := by
    intro k
    have hk : OUTERQSZ - (OUTERQSZ - (k.val + 1)) = k.val + 1 := by omega
    obtain ⟨es, u, hrun, hu⟩ := burst_handsDown hs hclean
      (show OUTERQSZ - (k.val + 1) < OUTERQSZ by omega)
    rw [hk] at hu
    have hcell := hu.cell_eq hrun hclean
    rwa [cell_of_lt] at hcell

/-- What is free is clean in every state, exactly when the memory from `malloc` was zero. After
`tfs_tunnel_ingress` and `tfs_tunnel_egress` have built their pools, and in every state that any
interleaving of the four threads reaches, each mbuf in a free queue has no references and both
its pointers after the header space, and each miov that is handed out has no entries and no bytes,
exactly when `malloc` returned zeros in these fields. Where `g_tfsmtu` is zero the pools are not
built. -/
theorem clean_iff_zeroed (cfg : Config) (pps : Pps) (mem : Malloc) :
    (∀ s t, tfsTunnel cfg pps mem = .ok s → Reachable (tunnelStep cfg) s t → t.Clean) ↔
      cfg.tfsmtu = 0 ∨ mem.Zeroed := by
  constructor
  · intro h
    by_cases hmtu : cfg.tfsmtu = 0
    · exact .inl hmtu
    · -- The first state says so of the mbufs, and the burst of the miovs.
      right
      have hs : ∃ s, tfsTunnel cfg pps mem = .ok s := by
        rw [tfsTunnel, tfsTunnelEgress, if_neg hmtu]
        exact ⟨_, rfl⟩
      obtain ⟨s, hs⟩ := hs
      exact zeroed_of_clean hs fun t => h s t hs
  · -- By the invariant. With a zero `g_tfsmtu` there is no state.
    intro h s t hs hreach
    have hmem : mem.Zeroed := by
      refine h.resolve_left fun hmtu => ?_
      rw [tfsTunnel, tfsTunnelEgress, if_pos hmtu] at hs
      cases hs
    exact (hreach.induct (tfsTunnel_pointed hmem hs) tunnelStep_pointed).clean

/-- Memory in which the reference counts of the egress stand at one. -/
theorem not_clean : ¬ ∀ (cfg : Config) (pps : Pps) (mem : Malloc) (s t : Tunnel),
    tfsTunnel cfg pps mem = .ok s → Reachable (tunnelStep cfg) s t → t.Clean := by
  intro h
  let mem : Malloc := ⟨fun _ => 0, fun _ => 1, fun _ => .clean⟩
  obtain ⟨s, hs⟩ : ∃ s, tfsTunnel ⟨1500, false, false⟩ ⟨100, 100, 10000000⟩ mem = .ok s := ⟨_, rfl⟩
  have hzeroed := zeroed_of_clean hs fun t => h _ _ mem s t hs
  exact absurd (hzeroed.outer ⟨0, by decide⟩) (by decide)

end Main

end Iptfs.Proofs
