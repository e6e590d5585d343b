import Iptfs.Proofs.Python.Egress

/-!
# `Iptfs.Proofs.Python.EgressProgress`: what the threads of the Python egress wait for

With the invariant `Conserves` no push ever waits, so a thread that does not take a step waits on a
pop, or has been ended by an exception (`readTfsStep_waits`, `writeIntfStep_waits`). The reader
can wait for a `MIOVBuf` only while the writer has something to write.

It is not so for the `MBuf`s. One inner packet can have entries in all of them. Then the reader
waits for a free one, to receive the rest of the packet, and the writer waits for the packet.
`Egress.spare` is the condition on a step under which this does not happen, and `Slack` the
invariant that follows from it. `mbufs_conserved` is the main result. `mbufs_locked` is a run that
ends with both threads waiting.
-/

set_option autoImplicit false

namespace Iptfs.Py

open Iptfs.Lib

namespace Egress

/-- The number of entries that refer to the buffer `b`. -/
def entries (s : Egress) (b : Nat) : Nat :=
  ∑ k ∈ Finset.range MAXQSZ, (s.miov k).mbufs.count b

/-- How often `b` is in the hands of a thread, on the way from `freeq` or to it. -/
def held (s : Egress) (b : Nat) : Nat :=
  (s.reader.holding.hands ++ s.writer.holding.hands).count b

/-- The count of the buffer is the reader's own reference and the entries that refer to it. It is
in `freeq` once, without references; or it is not there. Where it has no references then, one
thread has it in its hands. -/
def Accounted (s : Egress) (b : Nat) : Prop :=
  s.refcnt b = s.reader.holding.own.count b + s.entries b ∧
    ((s.freeq.queue.count b = 1 ∧ s.refcnt b = 0 ∧ s.held b = 0) ∨
      (s.freeq.queue.count b = 0 ∧
        (0 < s.refcnt b ∧ s.held b = 0 ∨ s.refcnt b = 0 ∧ s.held b = 1)))

/-- The `MIOVBuf`s, by where they are: `iovfreeq`, `outq`, the reader, the writer. -/
def miovs (s : Egress) : List Nat :=
  s.iovfreeq.queue ++ (s.outq.queue ++ (s.reader.holding.boxes ++
    (s.writer.holding.boxes ++ s.writer.holding.emptied)))

/-- A datagram that does not end the packet in progress finds fewer than `MAXQSZ - 1` entries in
it. Steps of other kinds meet the condition. -/
def spare (s : Egress) : EgressEvent → Bool
  | .reader _ _ =>
      match s.reader with
      | .inner tmbuf offset (some k) =>
          match innerPass tmbuf offset (s.miov k) with
          | .ok (.part _ _ _ _) => decide ((s.miov k).iov.length + 1 < MAXQSZ)
          | _ => true
      | _ => true
  | _ => true

end Egress

/-- The packet to which more may be added. -/
def TfsReader.inProgress : TfsReader → List Nat
  | .push _ _ _ => []
  | r => r.holding.boxes

namespace Proofs

open Iptfs.Lib.Depot

/-- Some buffer is not in the packet in progress. -/
def Slack (s : Egress) : Prop := ∀ k ∈ s.reader.inProgress, (s.miov k).iov.length < MAXQSZ

/-! ### Why a thread does not take a step -/

section Waits

variable {s : Egress}

/-- `add_to_inner_packet` begins without a wait. -/
theorem enterStep_ne_waits {tmbuf : Tbuf} {new : Bool} {m : Option Nat} :
    enterStep s tmbuf new m ≠ .error .waits := by
  intro h
  unfold enterStep at h
  split at h <;> cases h

/-- What comes behind `recvfrom_into` raises an exception or goes on. -/
theorem recvStep_ne_waits {target : ℚ} {b : Nat} {m : Option Nat} {bytes : List UInt8}
    {limited : Bool} : recvStep target s b m bytes limited ≠ .error .waits := by
  intro h
  rcases recvStep_cases target s b m bytes limited with ⟨e, hres⟩ | ⟨congest, r, -, hres⟩
  · rw [hres] at h
    cases h
  · rw [hres] at h
    cases h

/-- An access to an attribute of the outq takes no lock, so that it does not wait. -/
theorem recordStep_ne_waits {tmbuf : Tbuf} {m : Option Nat} {access : Access} :
    recordStep s tmbuf m access ≠ .error .waits := by
  intro h
  rcases recordStep_cases s tmbuf m access with ⟨ack, r, -, hres⟩ | ⟨seq, -, hres⟩
  · rw [hres] at h
    cases h
  · rw [hres] at h
    exact enterStep_ne_waits h

/-- A pass on the `MIOVBuf` in hand does not wait. -/
theorem innerStepOn_ne_waits {tmbuf : Tbuf} {offset k : Nat} :
    innerStepOn s tmbuf offset k ≠ .error .waits := by
  intro h
  unfold innerStepOn at h
  split at h <;> cases h

/-- A push on `freeq` does not wait. -/
theorem Conserves.push_freeq (h : Conserves s) {b : Nat}
    (hb : b ∈ s.reader.holding.hands ∨ b ∈ s.writer.holding.hands) : s.freeq.push b ≠ none := by
  intro hfull
  have hlen := Queue.push_eq_none.mp hfull
  -- A full `freeq` would hold all buffers of the pool, and one is in the hands of a thread.
  have hall : ∀ b, b ∈ List.range MAXQSZ ↔ outerPool b = 1 := by
    intro b
    rw [List.mem_range, outerPool]
    split <;> simp [*]
  have hlt : s.freeq.queue.length < (List.range MAXQSZ).length := by
    rcases hb with hb | hb
    · exact h.balanced.length_free hall hb
    · exact h.balanced.symm.length_free hall hb
  rw [List.length_range] at hlt
  rw [h.freeq] at hlen
  omega

/-- A push on the outq does not wait. -/
theorem Conserves.push_outq (h : Conserves s) {k : Nat} (hk : s.reader.holding.boxes = [k]) :
    s.outq.push k ≠ none := by
  intro hfull
  have hlen := Queue.push_eq_none.mp hfull
  have hall := h.balanced.length_boxes
  rw [h.outq] at hlen
  rw [hk, List.length_singleton] at hall
  have hsent : s.depot.sent.length = s.outq.queue.length := rfl
  omega

/-- A push on `iovfreeq` does not wait. -/
theorem Conserves.push_iovfreeq (h : Conserves s) {k : Nat}
    (hk : s.writer.holding.emptied = [k]) : s.iovfreeq.push k ≠ none := by
  intro hfull
  have hlen := Queue.push_eq_none.mp hfull
  have hall := h.balanced.length_boxes
  rw [h.iovfreeq] at hlen
  rw [hk, List.length_singleton] at hall
  have hidle : s.depot.idle.length = s.iovfreeq.queue.length := rfl
  omega

/-- Where the reader can wait: for a buffer, or for a `MIOVBuf` when it has none. -/
inductive ReaderWaits (s : Egress) : Prop
  | start (hr : s.reader = .start) (hq : s.freeq.queue = [])
  | pop (m : Option Nat) (hr : s.reader = .pop m) (hq : s.freeq.queue = [])
  | inner (tmbuf : Tbuf) (offset : Nat) (hr : s.reader = .inner tmbuf offset none)
      (hq : s.iovfreeq.queue = [])

/-- A reader that waits, waits on a pop. -/
theorem readTfsStep_waits {target : ℚ} {bytes : List UInt8} {limited : Bool} (h : Conserves s)
    (hstep : readTfsStep target s bytes limited = .error .waits) : ReaderWaits s := by
  unfold readTfsStep at hstep
  cases hr : s.reader with
  | start =>
      rw [hr] at hstep
      dsimp only at hstep
      split at hstep
      · rename_i hpop
        exact .start hr (Queue.pop_eq_none.mp hpop)
      · cases hstep
  | startRef b =>
      rw [hr] at hstep
      cases hstep
  | top b m =>
      rw [hr] at hstep
      cases hstep
  | topPush b m =>
      rw [hr] at hstep
      dsimp only at hstep
      split at hstep
      · rename_i hpush
        -- The mbuf in hand leaves a slot for it, so this push never waits.
        exact absurd hpush (h.push_freeq (Or.inl (by rw [hr]; exact List.mem_singleton.mpr rfl)))
      · cases hstep
  | pop m =>
      rw [hr] at hstep
      dsimp only at hstep
      split at hstep
      · rename_i hpop
        exact .pop m hr (Queue.pop_eq_none.mp hpop)
      · cases hstep
  | ref b m =>
      rw [hr] at hstep
      cases hstep
  | recv b m =>
      rw [hr] at hstep
      exact absurd hstep recvStep_ne_waits
  | record tmbuf m access =>
      rw [hr] at hstep
      exact absurd hstep recordStep_ne_waits
  | reset tmbuf k seq =>
      rw [hr] at hstep
      dsimp only at hstep
      split at hstep
      · exact absurd hstep enterStep_ne_waits
      · cases hstep
      · cases hstep
  | resetPush tmbuf k seq b =>
      rw [hr] at hstep
      dsimp only at hstep
      split at hstep
      · rename_i hpush
        exact absurd hpush (h.push_freeq (Or.inl (by rw [hr]; exact List.mem_singleton.mpr rfl)))
      · cases hstep
  | inner tmbuf offset m =>
      rw [hr] at hstep
      cases m with
      | none =>
          dsimp only at hstep
          split at hstep
          · rename_i hpop
            exact .inner tmbuf offset hr (Queue.pop_eq_none.mp hpop)
          · cases hstep
      | some k => exact absurd hstep innerStepOn_ne_waits
  | push tmbuf k recurse =>
      rw [hr] at hstep
      dsimp only at hstep
      split at hstep
      · rename_i hpush
        -- Nor does this one: the outq has room for every miov.
        exact absurd hpush (h.push_outq (by rw [hr]; rfl))
      · split at hstep
        · exact absurd hstep enterStep_ne_waits
        · cases hstep

/-- A writer that waits, waits for a packet. -/
theorem writeIntfStep_waits (h : Conserves s) (hstep : writeIntfStep s = .error .waits) :
    s.writer = .pop ∧ s.outq.queue = [] := by
  unfold writeIntfStep at hstep
  cases hw : s.writer with
  | pop =>
      rw [hw] at hstep
      dsimp only at hstep
      split at hstep
      · rename_i hpop
        exact ⟨rfl, Queue.pop_eq_none.mp hpop⟩
      · cases hstep
  | write k =>
      rw [hw] at hstep
      cases hstep
  | reset k =>
      rw [hw] at hstep
      dsimp only at hstep
      split at hstep <;> cases hstep
  | resetPush k b =>
      rw [hw] at hstep
      dsimp only at hstep
      split at hstep
      · rename_i hpush
        exact absurd hpush (h.push_freeq (Or.inr (by rw [hw]; exact List.mem_singleton.mpr rfl)))
      · cases hstep
  | push k =>
      rw [hw] at hstep
      dsimp only at hstep
      split at hstep
      · rename_i hpush
        exact absurd hpush (h.push_iovfreeq (by rw [hw]; rfl))
      · cases hstep

/-! ### Counting -/

/-- With nothing in its hands and the writer waiting for a packet, the reader finds a buffer, as
long as the packet in progress does not have them all. -/
theorem Conserves.freeq_ne_nil (h : Conserves s) (hw : s.writer = .pop) (hq : s.outq.queue = [])
    {m : Option Nat} (hholding : s.reader.holding = ⟨[], [], m.toList, []⟩)
    (hslack : ∀ k ∈ m.toList, (s.miov k).iov.length < MAXQSZ) : s.freeq.queue ≠ [] := by
  have hbooks : Balanced outerPool MAXQSZ s.depot ⟨[], [], m.toList, []⟩ s.writer.holding := by
    rw [← hholding]
    exact h.balanced
  have hpool : ∀ b ∈ List.range MAXQSZ, outerPool b = 1 := by
    intro b hb
    exact if_pos (List.mem_range.mp hb)
  -- The only entries are those of the packet in progress, and they are too few.
  have hlen : (m.toList.flatMap s.depot.cells).length < (List.range MAXQSZ).length := by
    rw [List.length_range]
    cases m with
    | none =>
        show 0 < MAXQSZ
        decide
    | some k =>
        have hk := hslack k (List.mem_singleton.mpr rfl)
        show ([k].flatMap s.depot.cells).length < MAXQSZ
        rw [List.flatMap_singleton]
        show ((s.miov k).iov.map Iovec.mbuf).length < MAXQSZ
        rw [List.length_map]
        exact hk
  exact hbooks.exists_free List.nodup_range hpool rfl (by rw [hw]; rfl) rfl (by rw [hw]; rfl) hq
    (by rw [hw]; rfl) hlen

/-- With a spare buffer the two threads do not wait at the same time. -/
theorem Conserves.not_both_wait (h : Conserves s) (hslack : Slack s) (hr : ReaderWaits s)
    (hw : s.writer = .pop) (hq : s.outq.queue = []) : False := by
  cases hr with
  | start hr hempty =>
      exact h.freeq_ne_nil (m := none) hw hq (by rw [hr]; rfl) (fun k hk => by cases hk) hempty
  | pop m hr hempty =>
      refine h.freeq_ne_nil (m := m) hw hq (by rw [hr]; rfl) ?_ hempty
      unfold Slack at hslack
      rwa [hr] at hslack
  | inner tmbuf offset hr hempty =>
      -- All the boxes are somewhere, and neither thread has one.
      have hall := h.balanced.length_boxes
      rw [hr, hw] at hall
      have hidle : s.depot.idle = [] := hempty
      have hsent : s.depot.sent = [] := hq
      rw [hidle, hsent] at hall
      cases hall

end Waits

/-! ### The packet in progress -/

section InProgress

variable {s t : Egress}

/-- Entries may go, and no packet comes into progress. -/
structure Shrinks (s t : Egress) : Prop where
  inProgress : ∀ k ∈ t.reader.inProgress, k ∈ s.reader.inProgress
  length : ∀ k, (t.miov k).iov.length ≤ (s.miov k).iov.length

/-- With no more entries and no other packet in progress, some buffer is still not in it. -/
theorem Slack.shrink (h : Slack s) (hst : Shrinks s t) : Slack t := by
  intro k hk
  have hlt := h k (hst.inProgress k hk)
  have hle := hst.length k
  omega

/-- The step of a reader that adds no entry. -/
theorem shrinks_of_miov {r : TfsReader} (hr : s.reader = r) (hmiov : t.miov = s.miov)
    (hsub : ∀ k ∈ t.reader.inProgress, k ∈ r.inProgress) : Shrinks s t where
  inProgress := fun k hk => hr ▸ hsub k hk
  length := fun k => by rw [hmiov]

/-- A `MIOVBuf` that is written with no more entries than it had makes none longer. -/
theorem length_setMiov {k : Nat} {m : MIOVBuf} (hm : m.iov.length ≤ (s.miov k).iov.length)
    (j : Nat) : ((s.setMiov k m).miov j).iov.length ≤ (s.miov j).iov.length := by
  show (Function.update s.miov k m j).iov.length ≤ _
  rcases eq_or_ne j k with rfl | hne
  · rw [Function.update_self]
    exact hm
  · rw [Function.update_of_ne hne]

/-- A turn of the loop in `reset` adds no entry. -/
theorem resetTurn_length (s : Egress) (k j : Nat) :
    ((resetTurn s k).1.miov j).iov.length ≤ (s.miov j).iov.length ∧
      (resetTurn s k).1.reader = s.reader := by
  rcases resetTurn_cases s k with ⟨-, hturn⟩ | ⟨v, rest, hiov, ⟨-, hturn⟩ | ⟨-, hturn⟩⟩
  · rw [hturn]
    exact ⟨length_setMiov (Nat.zero_le _) j, rfl⟩
  all_goals
    rw [hturn]
    refine ⟨length_setMiov ?_ j, rfl⟩
    rw [hiov]
    exact Nat.le_succ _

/-- The call of `add_to_inner_packet` leaves the entries as they are. -/
theorem enterStep_keeps {tmbuf : Tbuf} {new : Bool} {m : Option Nat}
    (h : enterStep s tmbuf new m = .ok t) :
    t.miov = s.miov ∧ ∀ k ∈ t.reader.inProgress, k ∈ m.toList := by
  unfold enterStep at h
  split at h
  · cases h
  · cases h
    exact ⟨rfl, fun k hk => absurd hk List.not_mem_nil⟩
  · cases h
    exact ⟨rfl, fun k hk => hk⟩

/-- Where the datagram is consumed, the entries stay as they are until the first pass over it. -/
theorem consume_keeps {tmbuf : Tbuf} {seq : Nat} {m : Option Nat}
    (h : consume s tmbuf seq m = .ok t) :
    t.miov = s.miov ∧ ∀ k ∈ t.reader.inProgress, k ∈ m.toList := by
  unfold consume at h
  have hkeeps := enterStep_keeps h
  exact hkeeps

/-- `recvfrom_into` and the tests leave the entries as they are. -/
theorem recvStep_keeps {target : ℚ} {b : Nat} {m : Option Nat} {bytes : List UInt8}
    {limited : Bool} (h : recvStep target s b m bytes limited = .ok t) :
    t.miov = s.miov ∧ ∀ k ∈ t.reader.inProgress, k ∈ m.toList := by
  rcases recvStep_cases target s b m bytes limited with ⟨e, hres⟩ | ⟨congest, r, hr, hres⟩
  · rw [hres] at h
    cases h
  · rw [hres] at h
    cases h
    cases hr with
    | top => exact ⟨rfl, fun j hj => hj⟩
    | record _ => exact ⟨rfl, fun j hj => hj⟩

/-- And so does an access to the attributes of the outq. -/
theorem recordStep_keeps {tmbuf : Tbuf} {m : Option Nat} {access : Access}
    (h : recordStep s tmbuf m access = .ok t) :
    t.miov = s.miov ∧ ∀ k ∈ t.reader.inProgress, k ∈ m.toList := by
  rcases recordStep_cases s tmbuf m access with ⟨ack, r, hr, hres⟩ | ⟨seq, -, hres⟩
  · rw [hres] at h
    cases h
    refine ⟨rfl, fun j hj => ?_⟩
    cases hr with
    | top => exact hj
    | record _ => exact hj
    | reset hm _ =>
        rw [hm]
        exact hj
  · rw [hres] at h
    have hkeeps := consume_keeps h
    exact hkeeps

/-- A pass that meets the condition leaves a spare buffer. -/
theorem innerStepOn_slack {tmbuf : Tbuf} {offset k : Nat} (h : Slack s)
    (hr : s.reader = .inner tmbuf offset (some k)) {bytes : List UInt8} {limited : Bool}
    (hspare : s.spare (.reader bytes limited) = true)
    (hstep : innerStepOn s tmbuf offset k = .ok t) : Slack t := by
  unfold innerStepOn at hstep
  cases hpass : innerPass tmbuf offset (s.miov k) with
  | error e =>
      rw [hpass] at hstep
      cases hstep
  | ok pass =>
      rw [hpass] at hstep
      cases pass with
      | keep rest =>
          cases hstep
          exact h.shrink (shrinks_of_miov hr rfl fun j hj => hj)
      | part start len left rest =>
          -- The condition on the step is about this case.
          have hroom : (s.miov k).iov.length + 1 < MAXQSZ := by
            unfold Egress.spare at hspare
            rw [hr] at hspare
            dsimp only at hspare
            rw [hpass] at hspare
            exact of_decide_eq_true hspare
          cases hstep
          intro j hj
          have hjk : j = k := List.mem_singleton.mp hj
          rw [hjk]
          show (Function.update s.miov k _ k).iov.length < MAXQSZ
          rw [Function.update_self]
          show ((s.miov k).iov ++ [_]).length < MAXQSZ
          rw [List.length_append]
          exact hroom
      | full start len rest recurse =>
          -- The packet is finished.
          cases hstep
          exact fun j hj => absurd hj List.not_mem_nil

/-- The pass of a packet that begins: what was free has no entries. -/
theorem firstStep_slack {target : ℚ} {bytes : List UInt8} {limited : Bool} (hc : Conserves s)
    {tmbuf : Tbuf} {offset : Nat} (hr : s.reader = .inner tmbuf offset none)
    (hstep : readTfsStep target s bytes limited = .ok t) : Slack t := by
  unfold readTfsStep at hstep
  rw [hr] at hstep
  dsimp only at hstep
  split at hstep
  · cases hstep
  · rename_i k iovfreeq hpop
    cases hstep
    intro j hj
    rw [List.mem_singleton.mp hj]
    have hmem : k ∈ s.depot.idle := by
      show k ∈ s.iovfreeq.queue
      rw [(Queue.pop_eq_some.mp hpop).1]
      exact List.mem_cons_self
    have hcell : ((s.miov k).iov.map Iovec.mbuf).length = 0 :=
      List.length_eq_zero_iff.mpr (hc.balanced.cells_idle hmem)
    rw [List.length_map] at hcell
    show (s.miov k).iov.length < MAXQSZ
    rw [hcell]
    decide

/-- A step in `reset`, after a gap. -/
theorem resetStep_shrinks {target : ℚ} {bytes : List UInt8} {limited : Bool} {tmbuf : Tbuf}
    {k seq : Nat} (hr : s.reader = .reset tmbuf k seq)
    (hstep : readTfsStep target s bytes limited = .ok t) : Shrinks s t := by
  have hturn := resetTurn_length s k
  unfold readTfsStep at hstep
  rw [hr] at hstep
  dsimp only at hstep
  split at hstep
  · -- The loop is at its end, and the datagram is consumed.
    rename_i u hu
    rw [hu] at hturn
    have hkeeps := consume_keeps hstep
    refine ⟨fun j hj => ?_, fun j => ?_⟩
    · rw [hr]
      exact hkeeps.2 j hj
    · rw [hkeeps.1]
      exact (hturn j).1
  all_goals
    rename_i hu
    rw [hu] at hturn
    cases hstep
    refine ⟨fun j hj => ?_, fun j => (hturn j).1⟩
    rw [hr]
    exact hj

/-- Only a pass of `add_to_inner_packet` adds an entry, or begins a packet. -/
theorem readTfsStep_shrinks {target : ℚ} {bytes : List UInt8} {limited : Bool}
    (hinner : ∀ tmbuf offset m, s.reader ≠ .inner tmbuf offset m)
    (hstep : readTfsStep target s bytes limited = .ok t) : Shrinks s t := by
  cases hr : s.reader with
  | start =>
      unfold readTfsStep at hstep
      rw [hr] at hstep
      dsimp only at hstep
      split at hstep
      · cases hstep
      · cases hstep
        exact shrinks_of_miov hr rfl fun k hk => absurd hk List.not_mem_nil
  | startRef b =>
      unfold readTfsStep at hstep
      rw [hr] at hstep
      cases hstep
      exact shrinks_of_miov hr rfl fun k hk => absurd hk List.not_mem_nil
  | top b m =>
      unfold readTfsStep at hstep
      rw [hr] at hstep
      cases hstep
      -- Both branches keep the miov in hand.
      refine shrinks_of_miov hr rfl fun k hk => ?_
      show k ∈ m.toList
      dsimp only at hk
      split at hk <;> exact hk
  | topPush b m =>
      unfold readTfsStep at hstep
      rw [hr] at hstep
      dsimp only at hstep
      split at hstep
      · cases hstep
      · cases hstep
        exact shrinks_of_miov hr rfl fun k hk => hk
  | pop m =>
      unfold readTfsStep at hstep
      rw [hr] at hstep
      dsimp only at hstep
      split at hstep
      · cases hstep
      · cases hstep
        exact shrinks_of_miov hr rfl fun k hk => hk
  | ref b m =>
      unfold readTfsStep at hstep
      rw [hr] at hstep
      cases hstep
      exact shrinks_of_miov hr rfl fun k hk => hk
  | recv b m =>
      unfold readTfsStep at hstep
      rw [hr] at hstep
      have hkeeps := recvStep_keeps hstep
      exact shrinks_of_miov hr hkeeps.1 hkeeps.2
  | record tmbuf m access =>
      unfold readTfsStep at hstep
      rw [hr] at hstep
      have hkeeps := recordStep_keeps hstep
      exact shrinks_of_miov hr hkeeps.1 hkeeps.2
  | reset tmbuf k seq => exact resetStep_shrinks hr hstep
  | resetPush tmbuf k seq b =>
      unfold readTfsStep at hstep
      rw [hr] at hstep
      dsimp only at hstep
      split at hstep
      · cases hstep
      · cases hstep
        exact shrinks_of_miov hr rfl fun k hk => hk
  -- Only `add_to_inner_packet` adds to a miov, and the hypothesis leaves it out.
  | inner tmbuf offset m => exact absurd hr (hinner tmbuf offset m)
  | push tmbuf k recurse =>
      unfold readTfsStep at hstep
      rw [hr] at hstep
      dsimp only at hstep
      split at hstep
      · cases hstep
      · split at hstep
        · have hkeeps := enterStep_keeps hstep
          exact shrinks_of_miov hr hkeeps.1 fun j hj => absurd (hkeeps.2 j hj) List.not_mem_nil
        · cases hstep
          exact shrinks_of_miov hr rfl fun j hj => absurd hj List.not_mem_nil

/-- A step of the reader that meets the condition leaves a spare buffer. -/
theorem readTfsStep_slack {target : ℚ} {bytes : List UInt8} {limited : Bool} (hc : Conserves s)
    (h : Slack s) (hspare : s.spare (.reader bytes limited) = true)
    (hstep : readTfsStep target s bytes limited = .ok t) : Slack t := by
  by_cases hinner : ∃ tmbuf offset m, s.reader = .inner tmbuf offset m
  · rcases hinner with ⟨tmbuf, offset, m, hr⟩
    cases m with
    | none => exact firstStep_slack hc hr hstep
    | some k =>
        unfold readTfsStep at hstep
        rw [hr] at hstep
        exact innerStepOn_slack h hr hspare hstep
  · exact h.shrink (readTfsStep_shrinks (fun tmbuf offset m hr => hinner ⟨_, _, _, hr⟩) hstep)

/-- A step of the writer adds no entry. -/
theorem writeIntfStep_shrinks (hstep : writeIntfStep s = .ok t) : Shrinks s t := by
  unfold writeIntfStep at hstep
  cases hw : s.writer with
  | pop =>
      rw [hw] at hstep
      dsimp only at hstep
      split at hstep
      · cases hstep
      · cases hstep
        exact shrinks_of_miov rfl rfl fun k hk => hk
  | write k =>
      rw [hw] at hstep
      cases hstep
      exact shrinks_of_miov rfl rfl fun k hk => hk
  | reset k =>
      rw [hw] at hstep
      -- A turn of `reset` takes an entry off, or leaves the miov empty.
      have hturn := resetTurn_length s k
      dsimp only at hstep
      split at hstep
      all_goals
        rename_i hu
        rw [hu] at hturn
        cases hstep
        refine ⟨fun j hj => ?_, fun j => (hturn j).1⟩
        rw [← (hturn j).2]
        exact hj
  | resetPush k b =>
      rw [hw] at hstep
      dsimp only at hstep
      split at hstep
      · cases hstep
      · cases hstep
        exact shrinks_of_miov rfl rfl fun k hk => hk
  | push k =>
      rw [hw] at hstep
      dsimp only at hstep
      split at hstep
      · cases hstep
      · cases hstep
        exact shrinks_of_miov rfl rfl fun k hk => hk

end InProgress

/-- Every step that meets the condition keeps both invariants. -/
theorem egressStep_slack {target : ℚ} (s : Egress) (e : EgressEvent) (t : Egress)
    (h : Conserves s ∧ Slack s) (hspare : s.spare e = true)
    (hstep : egressStep target s e = .ok t) :
    Conserves t ∧ Slack t := by
  refine ⟨egressStep_conserves s e t h.1 hstep, ?_⟩
  cases e with
  | reader bytes limited => exact readTfsStep_slack h.1 h.2 hspare hstep
  | writer => exact h.2.shrink (writeIntfStep_shrinks hstep)
  | ackInfos ns =>
      obtain ⟨ack, acker, heq, -⟩ := sendAckInfosStep_eq s
      cases hstep
      rw [heq]
      exact h.2

/-! ### Runs -/

/-- The reader empties no `MIOVBuf` for the pool. -/
theorem reader_emptied (r : TfsReader) : r.holding.emptied = [] := by cases r <;> rfl

/-- The writer has no reference of its own, besides its entries. -/
theorem writer_own (w : IntfWriter) : w.holding.own = [] := by cases w <;> rfl

/-- The books say where each buffer is. -/
theorem Conserves.accounted {s : Egress} (h : Conserves s) {b : Nat} (hb : b < MAXQSZ) :
    s.Accounted b := by
  -- The writer has no references of its own, only its entries.
  have hrefs : s.depot.refs MAXQSZ s.reader.holding s.writer.holding b =
      s.reader.holding.own.count b + s.entries b := by
    unfold Depot.refs
    rw [writer_own, List.count_nil, Nat.add_zero]
    rfl
  have hrc : s.refcnt b = s.depot.refs MAXQSZ s.reader.holding s.writer.holding b :=
    h.balanced.rc_eq b
  have hheld : Depot.held s.reader.holding s.writer.holding b = s.held b := by
    unfold Egress.held
    rw [List.count_append]
    rfl
  have honce : s.freeq.queue.count b + Depot.held s.reader.holding s.writer.holding b +
      min 1 (s.depot.refs MAXQSZ s.reader.holding s.writer.holding b) = outerPool b :=
    h.balanced.counted.once b
  rw [outerPool, if_pos hb, hheld, hrefs] at honce
  rw [hrefs] at hrc
  refine ⟨by rw [hrc]; rfl, ?_⟩
  omega

/-- Each `MIOVBuf` is in one place. -/
theorem Conserves.miovs {s : Egress} (h : Conserves s) : s.miovs.Perm (List.range MAXQSZ) := by
  have hplaces : s.depot.places s.reader.holding s.writer.holding = s.miovs := by
    unfold Depot.places
    rw [reader_emptied, List.append_nil]
    rfl
  rw [← hplaces]
  exact h.balanced.placed

/-- The pools of the Python egress are conserved in every state that a run reaches: each `MBuf` is
accounted for, and each `MIOVBuf` is in exactly one place. And where no datagram adds to a packet
that has entries in all but one of the `MBuf`s without ending it, the two threads do not wait at
the same time. -/
theorem mbufs_conserved (target pps : ℚ) (events : List EgressEvent) (s : Egress)
    (hrun : run (egressStep target) (Egress.init pps) events = .ok s) :
    (∀ b < MAXQSZ, s.Accounted b) ∧ s.miovs.Perm (List.range MAXQSZ) ∧
      (Along (egressStep target) (fun s e => s.spare e = true) (Egress.init pps) events →
        ¬ ((∃ bytes limited, readTfsStep target s bytes limited = .error .waits) ∧
          writeIntfStep s = .error .waits)) := by
  have hinit := conserves_init pps
  have h : Conserves s := run_invariant egressStep_conserves hinit hrun
  refine ⟨fun b hb => h.accounted hb, h.miovs, fun hspare => ?_⟩
  rintro ⟨⟨bytes, limited, hreader⟩, hwriter⟩
  have hslack : Slack s := by
    -- No packet is in progress at the start.
    have hstart : Slack (Egress.init pps) := fun k hk => absurd hk List.not_mem_nil
    exact (run_invariant_along egressStep_slack ⟨hinit, hstart⟩ hspare hrun).2
  rcases writeIntfStep_waits h hwriter with ⟨hw, hq⟩
  exact h.not_both_wait hslack (readTfsStep_waits h hreader) hw hq

/-- A turn of the reader that does not receive. -/
def turn : EgressEvent := .reader [] false

/-- The turns of the reader for its first datagram, which begins a packet of 40 bytes. -/
def firstTurns : List EgressEvent :=
  [turn, turn, turn, turn, turn, turn, .reader (someDatagram 1 0 [0x45, 0, 0, 40]) false, turn,
    turn, turn, turn, turn]

/-- The turns for a later one, with one byte of the packet. -/
def nextTurns (n : Nat) : List EgressEvent :=
  [turn, turn, turn, .reader (someDatagram (n + 2) (36 - n) [7]) false, turn, turn, turn]

/-- After two datagrams the reader has an `MBuf` to receive the third. -/
theorem mbufs_conserved_two : ∃ s,
    run (egressStep 1) (Egress.init 1) (firstTurns ++ nextTurns 0 ++ [turn]) = .ok s ∧
      (∀ b < MAXQSZ, s.Accounted b) ∧
      ¬ ((∃ bytes limited, readTfsStep 1 s bytes limited = .error .waits) ∧
        writeIntfStep s = .error .waits) := by
  have hok : ((run (egressStep 1) (Egress.init 1) (firstTurns ++ nextTurns 0 ++ [turn])).map
      fun s => s.reader) = .ok (.pop (some 31)) := by decide +kernel
  cases hrun : run (egressStep 1) (Egress.init 1) (firstTurns ++ nextTurns 0 ++ [turn]) with
  | error e =>
      rw [hrun] at hok
      cases hok
  | ok s =>
      have hall := mbufs_conserved 1 1 _ s hrun
      exact ⟨s, rfl, hall.1, hall.2.2 (by decide +kernel)⟩

/-- Thirty-two datagrams with parts of one packet: the packet refers to every `MBuf`, so the reader
waits for a free one, and the writer waits for the packet. -/
theorem mbufs_locked : ¬ ∀ (target pps : ℚ) (events : List EgressEvent) (s : Egress),
    run (egressStep target) (Egress.init pps) events = .ok s →
      ¬ ((∃ bytes limited, readTfsStep target s bytes limited = .error .waits) ∧
        writeIntfStep s = .error .waits) := by
  intro hall
  -- The writer takes no step in this run.
  have hends : (run (egressStep 1) (Egress.init 1)
      (firstTurns ++ (List.range 31).flatMap nextTurns ++ [turn])).map
        (fun s => (s.reader, s.freeq.queue, s.writer, s.outq.queue)) =
      .ok (.pop (some 31), [], .pop, []) := by decide +kernel
  cases hrun : run (egressStep 1) (Egress.init 1)
      (firstTurns ++ (List.range 31).flatMap nextTurns ++ [turn]) with
  | error e =>
      rw [hrun] at hends
      cases hends
  | ok s =>
      rw [hrun] at hends
      simp only [Except.map, Except.ok.injEq, Prod.mk.injEq] at hends
      rcases hends with ⟨hr, hfree, hw, hout⟩
      refine hall 1 1 _ s hrun ⟨⟨[], false, ?_⟩, ?_⟩
      · unfold readTfsStep
        rw [hr]
        dsimp only
        rw [Queue.pop_eq_none.mpr hfree]
      · unfold writeIntfStep
        rw [hw]
        dsimp only
        rw [Queue.pop_eq_none.mpr hout]

end Proofs

end Iptfs.Py
