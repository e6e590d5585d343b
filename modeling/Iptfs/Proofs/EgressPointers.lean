import Iptfs.Model.Pools
import Iptfs.Proofs.Consumed
import Iptfs.Proofs.EgressBuffers

/-!
# `Iptfs.Proofs.EgressPointers`: the pointers and the miovs of the egress

`Conserves` says where each buffer and each miov of the egress is. This module adds what is in
them. `MiovsClean`: a free miov is as `miov_reset` leaves it, and so is one that the writer is
about to push. `OuterPointed`: in the buffers that nothing was received into since their reset,
both pointers are where the reset left them, and in the one with the datagram in progress they
are where `Tbuf` has them.

A thread writes to the miov in its hands, and to the pointers of the buffer that it has its own
reference to or that it resets. By `Conserves` neither is free.
-/

set_option autoImplicit false

namespace Iptfs

/-- The buffer in the hands of `read_tfs_pkts` that nothing was received into since its reset. -/
def TfsReader.unread : TfsReader → List Nat
  | .startRef b => [b]
  | .store b _ => [b]
  | .recv b _ => [b]
  | .derefPush _ _ b => [b]
  | _ => []

/-- The same for `write_intf_pkts`. -/
def IntfWriter.unread : IntfWriter → List Nat
  | .derefPush _ b => [b]
  | _ => []

/-- The datagram in progress. -/
def TfsReader.datagram : TfsReader → Option Tbuf
  | .deref tbuf _ => some tbuf
  | .derefReset tbuf _ _ => some tbuf
  | .derefPush tbuf _ _ => some tbuf
  | .inner tbuf _ _ => some tbuf
  | .push tbuf _ _ => some tbuf
  | _ => none

/-- In a pass of `add_to_inner_packet` there are bytes left. -/
def TfsReader.Inside : TfsReader → Prop
  | .inner tbuf _ _ => tbuf.rest ≠ []
  | _ => True

/-- The buffers that nothing was received into since their reset. -/
def Egress.unread (s : Egress) : List Nat :=
  s.freeq.queue ++ (s.reader.unread ++ s.writer.unread)

/-- `tbuf->start` and `tbuf->end` of a buffer that holds a datagram. -/
def Tbuf.ptrs (tbuf : Tbuf) : Ptrs := ⟨HDRSPACE + tbuf.start, HDRSPACE + tbuf.data.length⟩

namespace Proofs

open Iptfs.Lib

/-! ### What the parts of a step do -/

/-- The header of a new datagram is passed over, and there are bytes left. -/
theorem enterInner_start {tbuf tbuf' : Tbuf} {new : Bool} {offset : Nat}
    (h : enterInner tbuf new = .ok (tbuf', offset)) :
    tbuf' = { tbuf with start := tbuf.start + if new then 8 else 0 } ∧ tbuf'.rest ≠ [] := by
  have hrest : ∀ u : Tbuf, u.len ≠ 0 → u.rest ≠ [] := by
    intro u hlen
    rw [Tbuf.len_eq] at hlen
    exact List.ne_nil_of_length_pos (Nat.pos_of_ne_zero hlen)
  rw [enterInner] at h
  split at h
  · cases h
  · rename_i hlen
    split at h
    · split at h
      · rename_i hnew h8
        split at h
        · cases h
        · cases h
          subst hnew
          refine ⟨rfl, hrest _ ?_⟩
          simp only [Tbuf.len] at h8 ⊢
          omega
      · cases h
    · rename_i hnew
      cases h
      rw [if_neg hnew]
      exact ⟨rfl, hrest _ hlen⟩

/-- A pass of `add_to_inner_packet` writes the miov in hand and reference counts, and the reader
goes on with the datagram where the pass leaves it. -/
theorem innerStepOn_cases {maxiov : Nat} {s t : Egress} {tbuf : Tbuf} {offset k : Nat}
    (h : innerStepOn maxiov s tbuf offset k = .ok t) :
    ∃ pass m refcnt r, innerPass tbuf offset (s.miov k) = .ok pass ∧
      t = { s with miov := Function.update s.miov k m, refcnt := refcnt, reader := r } ∧
      (r = .top pass.rest.id (some k) ∨ ∃ recurse, r = .push pass.rest k recurse) := by
  -- `miov_addmbuf` writes one miov and one count and leaves every other part as it was.
  have hadd : ∀ {start len left : Nat} {u : Egress},
      addmbufStep maxiov s k tbuf start len left = .ok u →
        ∃ m refcnt, u = { s with miov := Function.update s.miov k m, refcnt := refcnt } := by
    intro start len left u hu
    rw [addmbufStep] at hu
    split at hu
    · split at hu
      · cases hu
      · cases hu
        exact ⟨_, _, rfl⟩
    · cases hu
  rw [innerStepOn] at h
  split at h
  · cases h
  · rename_i rest hpass
    cases h
    refine ⟨_, s.miov k, s.refcnt, _, hpass, ?_, .inl rfl⟩
    -- The pass ended with nothing added: the update writes back what was there.
    rw [Function.update_eq_self]
    rfl
  · rename_i start len left rest hpass
    split at h
    · cases h
    · rename_i u hu
      obtain ⟨m, refcnt, rfl⟩ := hadd hu
      cases h
      exact ⟨_, m, refcnt, _, hpass, rfl, .inl rfl⟩
  · rename_i start len rest recurse hpass
    split at h
    · cases h
    · rename_i u hu
      obtain ⟨m, refcnt, rfl⟩ := hadd hu
      cases h
      exact ⟨_, m, refcnt, _, hpass, rfl, .inr ⟨recurse, rfl⟩⟩

/-- A turn of `miov_reset` writes the miov and reference counts. At the end of the loop the miov
is clean. -/
theorem miovResetTurn_cases (s : Egress) (k : Nat) :
    ∃ m refcnt turn,
      miovResetTurn s k =
        ({ s with miov := Function.update s.miov k m, refcnt := refcnt }, turn) ∧
      (turn = .ended → m = .clean) := by
  rw [miovResetTurn]
  cases (s.miov k).iov with
  | nil => exact ⟨_, s.refcnt, _, rfl, fun _ => rfl⟩
  | cons v rest =>
      refine ⟨_, _, _, rfl, ?_⟩
      intro hturn
      by_cases hlast : s.refcnt v.mbuf = 1
      · rw [if_pos hlast] at hturn
        cases hturn
      · rw [if_neg hlast] at hturn
        cases hturn

/-! ### The miovs -/

/-- The miovs that are free are clean, and so is one that is about to be. -/
structure MiovsClean (s : Egress) : Prop where
  free : ∀ k ∈ s.iovfreeq.queue, s.miov k = .clean
  pushed : ∀ k, s.writer = .push k → s.miov k = .clean

/-- Every miov is clean at first, as the constructor leaves it. -/
theorem miovsClean_init (pps : Pps) : MiovsClean (.init pps) where
  free := fun _ _ => rfl
  pushed := by
    intro k hk
    cases hk

section Step

variable {maxiov : Nat} {s t : Egress} {ptrs : Nat → Ptrs}

/-- A write to one miov leaves the others. -/
theorem miov_of_not_mem {j k : Nat} {m : Miov} (hj : j ∉ [k]) :
    Function.update s.miov k m j = s.miov j :=
  Function.update_of_ne (fun hjk => hj (List.mem_singleton.mpr hjk)) _ _

/-- A step of the reader writes to no miov but its own, and frees none. -/
theorem readTfsStep_miovs {cfg : Config} {timer : Option Timespec}
    {input : Option (List UInt8 × Bool)} (hstep : readTfsStep cfg maxiov s timer input = .ok t) :
    t.writer = s.writer ∧ (∀ k, k ∉ s.reader.miovs → t.miov k = s.miov k) ∧
      ∀ k ∈ t.iovfreeq.queue, k ∈ s.iovfreeq.queue := by
  rw [readTfsStep] at hstep
  cases hr : s.reader with
  | start | pop m =>
      simp only [hr] at hstep
      split at hstep
      · cases hstep
      · cases hstep
        exact ⟨rfl, fun _ _ => rfl, fun _ hk => hk⟩
  | startRef b | store b m =>
      simp only [hr] at hstep
      cases hstep
      exact ⟨rfl, fun _ _ => rfl, fun _ hk => hk⟩
  | top b m =>
      simp only [hr] at hstep
      split at hstep
      · cases hstep
      · cases hstep
        exact ⟨rfl, fun _ _ => rfl, fun _ hk => hk⟩
  | reset b m | derefReset tbuf k b =>
      simp only [hr] at hstep
      split at hstep
      · cases hstep
      · rename_i u hu
        cases hstep
        rw [assertUnref_ok hu]
        exact ⟨rfl, fun _ _ => rfl, fun _ hk => hk⟩
  -- Entering a datagram changes the reader and the ACK record only; the miov it goes on with is
  -- one that the reader had.
  | recv b m =>
      simp only [hr] at hstep
      obtain ⟨ack, congest, rfl | ⟨bytes, -, -, ⟨k, -, rfl⟩ | ⟨tbuf, offset, -, rfl⟩⟩⟩ :=
        recvStep_cases hstep
      · exact ⟨rfl, fun _ _ => rfl, fun _ hk => hk⟩
      · exact ⟨rfl, fun _ _ => rfl, fun _ hk => hk⟩
      · exact ⟨rfl, fun _ _ => rfl, fun _ hk => hk⟩
  | deref tbuf k =>
      simp only [hr] at hstep
      obtain ⟨m, refcnt, turn, hturn, -⟩ := miovResetTurn_cases s k
      rw [hturn] at hstep
      -- A turn of `miov_reset` writes the miov in hand, which is among `s.reader.miovs`.
      have hother := fun j => miov_of_not_mem (s := s) (j := j) (k := k) (m := m)
      cases turn with
      | ended =>
          obtain ⟨tbuf', offset, -, rfl⟩ := enterStep_ok hstep
          exact ⟨rfl, hother, fun _ hk => hk⟩
      | dropped =>
          cases hstep
          exact ⟨rfl, hother, fun _ hk => hk⟩
      | last b =>
          cases hstep
          exact ⟨rfl, hother, fun _ hk => hk⟩
  | derefPush tbuf k b =>
      simp only [hr] at hstep
      split at hstep
      · cases hstep
      · cases hstep
        exact ⟨rfl, fun _ _ => rfl, fun _ hk => hk⟩
  | inner tbuf offset m =>
      cases m with
      | none =>
          simp only [hr] at hstep
          split at hstep
          · cases hstep
          · rename_i k iovfreeq hpop
            cases hstep
            -- The miov comes from the free queue, which is shorter by it afterwards.
            refine ⟨rfl, fun _ _ => rfl, ?_⟩
            intro j hj
            rw [(Queue.pop_eq_some.mp hpop).1]
            exact List.mem_cons_of_mem _ hj
      | some k =>
          simp only [hr] at hstep
          obtain ⟨pass, m, refcnt, r, -, rfl, -⟩ := innerStepOn_cases hstep
          exact ⟨rfl, fun _ => miov_of_not_mem, fun _ hk => hk⟩
  | push tbuf k recurse =>
      simp only [hr] at hstep
      split at hstep
      · cases hstep
      · split at hstep
        · obtain ⟨tbuf', offset, -, rfl⟩ := enterStep_ok hstep
          exact ⟨rfl, fun _ _ => rfl, fun _ hk => hk⟩
        · cases hstep
          exact ⟨rfl, fun _ _ => rfl, fun _ hk => hk⟩

/-- A step of the writer writes to no miov but its own. It frees the one that it pushes, and it
comes to that at the end of a `miov_reset`. -/
theorem writeIntfStep_miovs (hstep : writeIntfStep s = .ok t) :
    (∀ k, k ∉ s.writer.miovs → t.miov k = s.miov k) ∧
      (∀ k ∈ t.iovfreeq.queue, k ∈ s.iovfreeq.queue ∨ s.writer = .push k ∧ t.miov k = s.miov k) ∧
      ∀ k, t.writer = .push k → t.miov k = .clean := by
  rw [writeIntfStep] at hstep
  cases hw : s.writer with
  | pop | derefPush k b =>
      simp only [hw] at hstep
      split at hstep
      · cases hstep
      · cases hstep
        -- `miov_reset` has come to its end, where it clears the fields: the miov about to go back
        -- is clean.
        exact ⟨fun _ _ => rfl, fun _ hk => .inl hk, fun _ hpush => by cases hpush⟩
  | write k =>
      simp only [hw] at hstep
      cases hstep
      exact ⟨fun _ _ => rfl, fun _ hk => .inl hk, fun _ hpush => by cases hpush⟩
  | deref k =>
      simp only [hw] at hstep
      obtain ⟨m, refcnt, turn, hturn, hended⟩ := miovResetTurn_cases s k
      rw [hturn] at hstep
      have hother := fun j => miov_of_not_mem (s := s) (j := j) (k := k) (m := m)
      cases turn with
      | ended =>
          cases hstep
          refine ⟨hother, fun _ hk => .inl hk, ?_⟩
          intro j hpush
          cases hpush
          show Function.update s.miov k m k = _
          rw [Function.update_self, hended rfl]
      | dropped =>
          cases hstep
          exact ⟨hother, fun _ hk => .inl hk, fun _ hpush => by cases hpush⟩
      | last b =>
          cases hstep
          exact ⟨hother, fun _ hk => .inl hk, fun _ hpush => by cases hpush⟩
  | derefReset k b =>
      simp only [hw] at hstep
      split at hstep
      · cases hstep
      · rename_i u hu
        cases hstep
        rw [assertUnref_ok hu]
        exact ⟨fun _ _ => rfl, fun _ hk => .inl hk, fun _ hpush => by cases hpush⟩
  | push k =>
      simp only [hw] at hstep
      split at hstep
      · cases hstep
      · rename_i iovfreeq hpush
        cases hstep
        refine ⟨fun _ _ => rfl, ?_, fun _ hpush => by cases hpush⟩
        intro j hj
        -- The queue takes in one miov, the one that the writer was pushing.
        have hq : j ∈ k :: s.iovfreeq.queue := by
          rw [← (Queue.push_eq_some.mp hpush).1]
          exact hj
        rcases List.mem_cons.mp hq with rfl | hold
        · exact .inr ⟨rfl, rfl⟩
        · exact .inl hold

/-- Every step of either thread keeps the free miovs clean. -/
theorem egressStep_miovsClean {cfg : Config} {e : EgressEvent} (h : Conserves maxiov s)
    (hclean : MiovsClean s) (hstep : egressStep cfg maxiov s e = .ok t) : MiovsClean t := by
  cases e with
  | reader timer input =>
      -- The miov in the reader's hands is neither free nor in the writer's.
      obtain ⟨hwriter, hother, hfree⟩ := readTfsStep_miovs hstep
      constructor
      · intro k hk
        have hmine : k ∉ s.reader.miovs := fun hmine => (h.of_reader hmine).2.1 (hfree k hk)
        rw [hother k hmine]
        exact hclean.free k (hfree k hk)
      · intro k hpush
        rw [hwriter] at hpush
        have hmine : k ∉ s.reader.miovs := by
          intro hmine
          apply (h.of_reader hmine).2.2
          rw [hpush]
          exact List.mem_singleton.mpr rfl
        rw [hother k hmine]
        exact hclean.pushed k hpush
  | writer =>
      obtain ⟨hother, hfree, hpushed⟩ := writeIntfStep_miovs hstep
      refine ⟨?_, hpushed⟩
      intro k hk
      rcases hfree k hk with hold | ⟨hpush, hsame⟩
      · -- It was free before.
        have hmine : k ∉ s.writer.miovs := fun hmine => (h.of_writer hmine).2 hold
        rw [hother k hmine]
        exact hclean.free k hold
      · -- It has just been pushed.
        rw [hsame]
        exact hclean.pushed k hpush

/-! ### The pointers -/

/-- The pointers agree with where the buffers of the egress are. -/
structure OuterPointed (s : Egress) (ptrs : Nat → Ptrs) : Prop where
  unread : ∀ b ∈ s.unread, ptrs b = .reset
  datagram : ∀ tbuf, s.reader.datagram = some tbuf → ptrs tbuf.id = tbuf.ptrs
  inside : s.reader.Inside

/-- All the buffers are on the free queue, with their pointers reset. -/
theorem outerPointed_init (pps : Pps) : OuterPointed (.init pps) fun _ => .reset where
  unread := fun _ _ => rfl
  datagram := by
    intro tbuf ht
    cases ht
  inside := trivial

/-- The buffer that the reader has its own reference to is not free, and not in the hands of
either thread without a reference. -/
theorem Conserves.not_mem_of_own (h : Conserves maxiov s) {b : Nat} (hb : b ∈ s.reader.own) :
    b ∉ s.freeq.queue ∧ b ∉ s.reader.hands ∧ b ∉ s.writer.hands := by
  have hown : 0 < s.reader.own.count b := List.count_pos_iff.mpr hb
  have hrc := h.counted.rc_eq b
  have honce := h.counted.once b
  have hpool := h.counted.pool_le b
  rw [Egress.refs] at hrc
  rw [Egress.held, List.count_append] at honce
  refine ⟨fun hmem => ?_, fun hmem => ?_, fun hmem => ?_⟩
  · have := List.count_pos_iff.mpr hmem
    omega
  · have := List.count_pos_iff.mpr hmem
    omega
  · have := List.count_pos_iff.mpr hmem
    omega

/-- The reader has its own reference to the buffer of the datagram that it is in. -/
theorem mem_own_of_datagram {r : TfsReader} {tbuf : Tbuf} (h : r.datagram = some tbuf) :
    tbuf.id ∈ r.own := by
  cases r <;> cases h <;> exact List.mem_singleton.mpr rfl

/-- A buffer that the writer has not read a datagram into is in its hands. -/
theorem mem_hands_of_unread {w : IntfWriter} {b : Nat} (h : b ∈ w.unread) : b ∈ w.hands := by
  cases w <;> first | exact h | cases h

/-- No pointer is written. -/
theorem OuterPointed.keep (h : OuterPointed s ptrs) (hunread : ∀ b ∈ t.unread, b ∈ s.unread)
    (hdatagram : ∀ tbuf, t.reader.datagram = some tbuf → s.reader.datagram = some tbuf)
    (hinside : t.reader.Inside) : OuterPointed t ptrs where
  unread := fun b hb => h.unread b (hunread b hb)
  datagram := fun tbuf ht => h.datagram tbuf (hdatagram tbuf ht)
  inside := hinside

/-- The reader goes on, and neither queue nor pointer is written. -/
theorem OuterPointed.goto {r : TfsReader} (h : OuterPointed s ptrs) (hfreeq : t.freeq = s.freeq)
    (hwriter : t.writer = s.writer) (hreader : t.reader = r)
    (hunread : ∀ b ∈ r.unread, b ∈ s.reader.unread)
    (hdatagram : ∀ tbuf, r.datagram = some tbuf → s.reader.datagram = some tbuf)
    (hinside : r.Inside) : OuterPointed t ptrs := by
  subst hreader
  refine h.keep ?_ hdatagram hinside
  intro b hb
  have hold := hunread b
  simp only [Egress.unread, hfreeq, hwriter, List.mem_append] at hb ⊢
  tauto

/-- The buffer `a` is reset. -/
theorem OuterPointed.reset {a : Nat} (h : OuterPointed s ptrs)
    (hunread : ∀ b ∈ t.unread, b = a ∨ b ∈ s.unread)
    (hdatagram : ∀ tbuf, t.reader.datagram = some tbuf →
      s.reader.datagram = some tbuf ∧ tbuf.id ≠ a)
    (hinside : t.reader.Inside) : OuterPointed t (Function.update ptrs a .reset) where
  unread := by
    intro b hb
    rcases eq_or_ne b a with rfl | hne
    · exact Function.update_self _ _ _
    · rw [Function.update_of_ne hne]
      exact h.unread b ((hunread b hb).resolve_left hne)
  datagram := by
    intro tbuf ht
    obtain ⟨hold, hne⟩ := hdatagram tbuf ht
    rw [Function.update_of_ne hne]
    exact h.datagram tbuf hold
  inside := hinside

/-- The reader writes the pointers of the buffer that it has its own reference to. -/
theorem OuterPointed.own {r : TfsReader} {a : Nat} {p : Ptrs} (h : OuterPointed s ptrs)
    (hcons : Conserves maxiov s) (ha : a ∈ s.reader.own) (hfreeq : t.freeq = s.freeq)
    (hwriter : t.writer = s.writer) (hreader : t.reader = r) (hr : r.unread = [])
    (hdatagram : ∀ tbuf, r.datagram = some tbuf → tbuf.id = a ∧ p = tbuf.ptrs)
    (hinside : r.Inside) : OuterPointed t (Function.update ptrs a p) where
  unread := by
    intro b hb
    -- The own reference keeps `a` out of the free queue and of the writer's hands.
    obtain ⟨hfree, -, hhands⟩ := hcons.not_mem_of_own ha
    rw [Egress.unread, hfreeq, hwriter, hreader, hr, List.nil_append, List.mem_append] at hb
    have hne : b ≠ a := by
      rintro rfl
      exact hb.elim hfree fun hw => hhands (mem_hands_of_unread hw)
    rw [Function.update_of_ne hne]
    apply h.unread
    simp only [Egress.unread, List.mem_append]
    tauto
  datagram := by
    intro tbuf ht
    rw [hreader] at ht
    obtain ⟨rfl, rfl⟩ := hdatagram tbuf ht
    exact Function.update_self _ _ _
  inside := by
    rw [hreader]
    exact hinside

/-- A step of the writer. -/
theorem writeIntfStep_pointed (h : OuterPointed s ptrs) (hcons : Conserves maxiov s)
    (hstep : writeIntfStep s = .ok t) : OuterPointed t (writeIntfPtrs s ptrs) := by
  have hsame : ∀ {u : Egress}, u.freeq = s.freeq → u.reader = s.reader → u.writer.unread = [] →
      OuterPointed u ptrs := by
    intro u hfreeq hreader hwriter
    refine h.keep ?_ ?_ ?_
    · intro b hb
      rw [Egress.unread, hfreeq, hreader, hwriter, List.append_nil] at hb
      simp only [Egress.unread, List.mem_append] at hb ⊢
      tauto
    · rw [hreader]
      exact fun _ ht => ht
    · rw [hreader]
      exact h.inside
  rw [writeIntfStep] at hstep
  rw [writeIntfPtrs]
  cases hw : s.writer with
  | pop | push k =>
      simp only [hw] at hstep ⊢
      split at hstep
      · cases hstep
      · cases hstep
        exact hsame rfl rfl rfl
  | write k =>
      simp only [hw] at hstep ⊢
      cases hstep
      exact hsame rfl rfl rfl
  | deref k =>
      simp only [hw] at hstep ⊢
      obtain ⟨m, refcnt, turn, hturn, -⟩ := miovResetTurn_cases s k
      rw [hturn] at hstep
      cases turn with
      | ended =>
          cases hstep
          exact hsame rfl rfl rfl
      | dropped =>
          cases hstep
          exact hsame rfl rfl rfl
      | last b =>
          cases hstep
          exact hsame rfl rfl rfl
  | derefReset k b =>
      simp only [hw] at hstep ⊢
      split at hstep
      · cases hstep
      · rename_i u hu
        cases hstep
        rw [assertUnref_ok hu]
        refine h.reset ?_ ?_ h.inside
        · intro c hc
          simp only [Egress.unread, IntfWriter.unread, List.mem_append, List.mem_singleton] at hc ⊢
          tauto
        · intro tbuf ht
          -- Nobody has a reference to the buffer that is reset.
          refine ⟨ht, ?_⟩
          rintro rfl
          apply (hcons.not_mem_of_own (mem_own_of_datagram ht)).2.2
          rw [hw]
          exact List.mem_singleton.mpr rfl
  | derefPush k b =>
      simp only [hw] at hstep ⊢
      split at hstep
      · cases hstep
      · rename_i freeq hpush
        cases hstep
        refine h.keep ?_ (fun _ ht => ht) h.inside
        intro c hc
        simp only [Egress.unread, hw, IntfWriter.unread, (Queue.push_eq_some.mp hpush).1,
          List.append_nil, List.mem_append, List.mem_cons, List.not_mem_nil, or_false] at hc ⊢
        tauto

/-- A pass of `add_to_inner_packet` moves `tbuf->start` to where it leaves the datagram. -/
theorem passPtrs_eq {tbuf : Tbuf} {offset : Nat} {m : Miov} {pass : Pass} (hne : tbuf.rest ≠ [])
    (h : innerPass tbuf offset m = .ok pass) :
    passPtrs tbuf.ptrs tbuf offset m = pass.rest.ptrs := by
  have hdata : pass.rest.data = tbuf.data := (innerPass_same h).2
  have hskip : tbuf.start ≤ tbuf.skip.start := by
    have hpos := List.length_pos_iff.mpr hne
    rw [← Tbuf.len_eq, Tbuf.len] at hpos
    show tbuf.start ≤ tbuf.data.length
    omega
  have hle : tbuf.start ≤ pass.rest.start := by
    rcases innerPass_cases hne h with ⟨-, -, rfl⟩ | ⟨skip, left, -, -, rfl⟩ |
      ⟨skip, n, -, -, -, rfl⟩ | ⟨n, -, -, -, -, rfl⟩
    · exact hskip
    · exact hskip
    · exact Nat.le_add_right _ _
    · exact hskip
  simp only [passPtrs, h, Ptrs.advance, Tbuf.ptrs, hdata, Ptrs.mk.injEq, and_true]
  omega

/-- `recvfrom`, into a buffer that was reset: `tbuf->end` follows the bytes, and `tbuf->start`
passes over the header where `add_to_inner_packet` has begun. -/
theorem recvStep_pointed {cfg : Config} {timer : Option Timespec}
    {input : Option (List UInt8 × Bool)} {b : Nat} {m : Option Nat}
    (h : OuterPointed s ptrs) (hcons : Conserves maxiov s) (hr : s.reader = .recv b m)
    (hstep : readTfsStep cfg maxiov s timer input = .ok t) :
    OuterPointed t (readTfsPtrs s t input ptrs) := by
  rw [readTfsStep] at hstep
  rw [readTfsPtrs]
  simp only [hr] at hstep ⊢
  have hb : ptrs b = .reset := h.unread b (by simp [Egress.unread, hr, TfsReader.unread])
  have hown : b ∈ s.reader.own := by
    rw [hr]
    exact List.mem_singleton.mpr rfl
  obtain ⟨ack, congest, hcases⟩ := recvStep_cases hstep
  rcases hcases with rfl | ⟨bytes, rfl, hlong, ⟨k, -, rfl⟩ | ⟨tbuf, offset, henter, rfl⟩⟩
  · -- Back to the top of the loop. Whatever `tbuf->end` is now, `mbuf_reset` comes next.
    exact h.own hcons hown rfl rfl rfl rfl (fun _ ht => by cases ht) trivial
  · -- After a gap, with the header still to be read.
    refine h.own hcons hown rfl rfl rfl rfl ?_ trivial
    intro tbuf ht
    cases ht
    refine ⟨rfl, ?_⟩
    have hshort : ¬ (recvBytes bytes).length < 8 := Nat.not_lt.mpr hlong
    simp [recvPtrs, hshort, enterPtrs, hb, Ptrs.fill, Tbuf.ptrs, Tbuf.fresh]
  · -- In `add_to_inner_packet`, past the header.
    obtain ⟨rfl, hne⟩ := enterInner_start henter
    refine h.own hcons hown rfl rfl rfl rfl ?_ hne
    intro tbuf ht
    cases ht
    refine ⟨rfl, ?_⟩
    have hshort : ¬ (recvBytes bytes).length < 8 := Nat.not_lt.mpr hlong
    simp [recvPtrs, hshort, enterPtrs, hb, Ptrs.fill, Ptrs.advance, Tbuf.ptrs, Tbuf.fresh]

/-- A turn of `miov_reset` in the reader, and the start of the datagram after the last. -/
theorem derefStep_pointed {cfg : Config} {timer : Option Timespec}
    {input : Option (List UInt8 × Bool)} {tbuf : Tbuf} {k : Nat}
    (h : OuterPointed s ptrs) (hcons : Conserves maxiov s) (hr : s.reader = .deref tbuf k)
    (hstep : readTfsStep cfg maxiov s timer input = .ok t) :
    OuterPointed t (readTfsPtrs s t input ptrs) := by
  rw [readTfsStep] at hstep
  rw [readTfsPtrs]
  simp only [hr] at hstep ⊢
  have hold : ptrs tbuf.id = tbuf.ptrs := h.datagram tbuf (by rw [hr]; rfl)
  have hown : tbuf.id ∈ s.reader.own := by
    rw [hr]
    exact List.mem_singleton.mpr rfl
  obtain ⟨m, refcnt, turn, hturn, -⟩ := miovResetTurn_cases s k
  rw [hturn] at hstep
  cases turn with
  | ended =>
      -- The datagram begins.
      obtain ⟨tbuf', offset, henter, rfl⟩ := enterStep_ok hstep
      obtain ⟨rfl, hne⟩ := enterInner_start henter
      refine h.own hcons hown rfl rfl rfl rfl ?_ hne
      intro tbuf' ht
      cases ht
      exact ⟨rfl, by simp [enterPtrs, hold, Ptrs.advance, Tbuf.ptrs, Nat.add_assoc]⟩
  | dropped =>
      cases hstep
      refine h.own hcons hown rfl rfl rfl rfl ?_ trivial
      intro tbuf' ht
      cases ht
      exact ⟨rfl, hold⟩
  | last b =>
      cases hstep
      refine h.own hcons hown rfl rfl rfl rfl ?_ trivial
      intro tbuf' ht
      cases ht
      exact ⟨rfl, hold⟩

/-- A pass of `add_to_inner_packet`. -/
theorem innerStep_pointed {cfg : Config} {timer : Option Timespec}
    {input : Option (List UInt8 × Bool)} {tbuf : Tbuf} {offset k : Nat}
    (h : OuterPointed s ptrs) (hcons : Conserves maxiov s)
    (hr : s.reader = .inner tbuf offset (some k))
    (hstep : readTfsStep cfg maxiov s timer input = .ok t) :
    OuterPointed t (readTfsPtrs s t input ptrs) := by
  rw [readTfsStep] at hstep
  rw [readTfsPtrs]
  simp only [hr] at hstep ⊢
  have hne : tbuf.rest ≠ [] := by
    have hinside := h.inside
    rw [hr] at hinside
    exact hinside
  have hold : ptrs tbuf.id = tbuf.ptrs := h.datagram tbuf (by rw [hr]; rfl)
  have hown : tbuf.id ∈ s.reader.own := by
    rw [hr]
    exact List.mem_singleton.mpr rfl
  obtain ⟨pass, m, refcnt, r, hpass, rfl, rfl | ⟨recurse, rfl⟩⟩ := innerStepOn_cases hstep
  · exact h.own hcons hown rfl rfl rfl rfl (fun _ ht => by cases ht) trivial
  · refine h.own hcons hown rfl rfl rfl rfl ?_ trivial
    intro tbuf' ht
    cases ht
    rw [hold]
    exact ⟨(innerPass_same hpass).1, passPtrs_eq hne hpass⟩

/-- A step of the reader. -/
theorem readTfsStep_pointed {cfg : Config} {timer : Option Timespec}
    {input : Option (List UInt8 × Bool)} (h : OuterPointed s ptrs) (hcons : Conserves maxiov s)
    (hstep : readTfsStep cfg maxiov s timer input = .ok t) :
    OuterPointed t (readTfsPtrs s t input ptrs) := by
  cases hr : s.reader with
  | start | pop m =>
      simp only [readTfsStep, hr] at hstep
      simp only [readTfsPtrs, hr]
      split at hstep
      · cases hstep
      · rename_i b freeq hpop
        cases hstep
        refine h.keep ?_ (fun _ ht => by cases ht) trivial
        intro c hc
        simp only [Egress.unread, TfsReader.unread, (Queue.pop_eq_some.mp hpop).1,
          List.mem_append, List.mem_cons, List.not_mem_nil, or_false] at hc ⊢
        tauto
  | startRef b =>
      simp only [readTfsStep, hr] at hstep
      simp only [readTfsPtrs, hr]
      cases hstep
      exact h.goto rfl rfl rfl (fun _ hb => by cases hb) (fun _ ht => by cases ht) trivial
  | top b m =>
      simp only [readTfsStep, hr] at hstep
      simp only [readTfsPtrs, hr]
      split at hstep
      · cases hstep
      · cases hstep
        by_cases hlast : s.refcnt b = 1
        · exact h.goto rfl rfl (if_pos hlast) (fun _ hb => by cases hb) (fun _ ht => by cases ht)
            trivial
        · exact h.goto rfl rfl (if_neg hlast) (fun _ hb => by cases hb) (fun _ ht => by cases ht)
            trivial
  | reset b m =>
      simp only [readTfsStep, hr] at hstep
      simp only [readTfsPtrs, hr]
      split at hstep
      · cases hstep
      · rename_i u hu
        cases hstep
        rw [assertUnref_ok hu]
        refine h.reset ?_ (fun _ ht => by cases ht) trivial
        intro c hc
        simp only [Egress.unread, TfsReader.unread, List.mem_append, List.mem_singleton] at hc ⊢
        tauto
  | store b m =>
      simp only [readTfsStep, hr] at hstep
      simp only [readTfsPtrs, hr]
      cases hstep
      exact h.goto rfl rfl rfl (fun _ hb => by rw [hr]; exact hb) (fun _ ht => by cases ht) trivial
  | recv b m => exact recvStep_pointed h hcons hr hstep
  | deref tbuf k => exact derefStep_pointed h hcons hr hstep
  | derefReset tbuf k b =>
      simp only [readTfsStep, hr] at hstep
      simp only [readTfsPtrs, hr]
      split at hstep
      · cases hstep
      · rename_i u hu
        cases hstep
        rw [assertUnref_ok hu]
        refine h.reset ?_ ?_ trivial
        · intro c hc
          simp only [Egress.unread, TfsReader.unread, List.mem_append, List.mem_singleton] at hc ⊢
          tauto
        · intro tbuf' ht
          refine ⟨by rw [hr]; exact ht, ?_⟩
          -- The reader has its own reference to the datagram, so it resets another buffer.
          rintro rfl
          cases ht
          apply (hcons.not_mem_of_own (b := tbuf.id) ?_).2.1
          · rw [hr]
            exact List.mem_singleton.mpr rfl
          · rw [hr]
            exact List.mem_singleton.mpr rfl
  | derefPush tbuf k b =>
      simp only [readTfsStep, hr] at hstep
      simp only [readTfsPtrs, hr]
      split at hstep
      · cases hstep
      · rename_i freeq hpush
        cases hstep
        refine h.keep ?_ (fun _ ht => by rw [hr]; exact ht) trivial
        intro c hc
        simp only [Egress.unread, hr, TfsReader.unread, (Queue.push_eq_some.mp hpush).1,
          List.nil_append, List.mem_append, List.mem_cons, List.not_mem_nil, or_false] at hc ⊢
        tauto
  | inner tbuf offset m =>
      cases m with
      | none =>
          simp only [readTfsStep, hr] at hstep
          simp only [readTfsPtrs, hr]
          split at hstep
          · cases hstep
          · rename_i k iovfreeq hpop
            cases hstep
            have hinside := h.inside
            rw [hr] at hinside
            exact h.goto rfl rfl rfl (fun _ hb => by cases hb) (fun _ ht => by rw [hr]; exact ht)
              hinside
      | some k => exact innerStep_pointed h hcons hr hstep
  | push tbuf k recurse =>
      simp only [readTfsStep, hr] at hstep
      simp only [readTfsPtrs, hr]
      split at hstep
      · cases hstep
      · split at hstep
        · -- The rest of the datagram has no header.
          obtain ⟨tbuf', offset, henter, rfl⟩ := enterStep_ok hstep
          obtain ⟨rfl, hne⟩ := enterInner_start henter
          exact h.goto rfl rfl rfl (fun _ hb => by cases hb) (fun _ ht => by rw [hr]; exact ht) hne
        · cases hstep
          exact h.goto rfl rfl rfl (fun _ hb => by cases hb) (fun _ ht => by cases ht) trivial

end Step

end Proofs

end Iptfs
