import Iptfs.Proofs.EgressBuffers

/-!
# `Iptfs.Proofs.EgressProgress`: what the two threads of the egress wait for

A step of a thread can fail in three ways. A datagram brings the reader down (`OtherFault`);
or the `assert` of `mbuf_reset` does; or the thread waits for a queue. With the invariant
`Conserves` the second never happens, and no push ever waits, because no queue is full while
an element of its pool is somewhere else. What is left are the pops on empty queues
(`readTfsStep_error`, `writeIntfStep_error`), and both at once are excluded by counting.

`egress_conserves` puts it together: the two pools are conserved, the `assert` of
`mbuf_reset` never fails, and the two threads never wait at the same time.
-/

set_option autoImplicit false

namespace Iptfs

/-- The count of the buffer is the reader's own reference and the entries that point at it.
It is on the free queue once, without references; or it is off the queue. Where it has no
references there, one thread has it in its hands, on the way from the queue or to it. -/
def Egress.Accounted (s : Egress) (b : Nat) : Prop :=
  s.refcnt b = s.reader.own.count b + s.entries b ∧
    ((s.freeq.queue.count b = 1 ∧ s.refcnt b = 0 ∧ s.held b = 0) ∨
      (s.freeq.queue.count b = 0 ∧
        (0 < s.refcnt b ∧ s.held b = 0 ∨ s.refcnt b = 0 ∧ s.held b = 1)))

namespace Proofs

open Iptfs.Lib

/-! ### The faults of the other functions -/

/-- A read of two bytes can only fail by running out of the datagram. -/
theorem get16_fault {buf : List UInt8} {i : Nat} {f : Fault} (h : get16 buf i = .error f) :
    f = .outOfBounds := by
  rw [get16] at h
  split at h
  · cases h
  · cases h
    rfl

/-- Where `add_to_inner_packet` begins, only the `assert` on the length of the datagram and the
read of the BlockOffset can fail. -/
theorem enterInner_fault {tbuf : Tbuf} {new : Bool} {f : Fault}
    (h : enterInner tbuf new = .error f) : f ≠ .assertRefcnt ∧ f ≠ .fuel := by
  rw [enterInner] at h
  split at h
  · cases h
    decide
  · split at h
    · split at h
      · split at h
        · rename_i hget
          cases h
          rw [get16_fault hget]
          decide
        · cases h
      · cases h
        decide
    · cases h

/-- Where a packet goes on in the next datagram, only its `assert` on the end of this one can
fail. -/
theorem morePass_fault {tbuf : Tbuf} {tlen left : Nat} {f : Fault}
    (h : morePass tbuf tlen left = .error f) : f ≠ .assertRefcnt ∧ f ≠ .fuel := by
  rw [morePass] at h
  split at h
  · cases h
  · cases h
    decide

/-- The same where the length of the packet is known: the pass ends it, or it goes on. -/
theorem finishPass_fault {tbuf : Tbuf} {left tlen : Nat} {f : Fault}
    (h : finishPass tbuf left tlen = .error f) : f ≠ .assertRefcnt ∧ f ≠ .fuel := by
  rw [finishPass] at h
  split at h
  · exact morePass_fault h
  · dsimp only at h
    split at h
    · cases h
    · split at h
      · cases h
        decide
      · cases h

/-- Running out of the datagram is the only way for the read of a length field to fail. -/
theorem map_some_fault {r : Res Nat} {f : Fault} (hr : ∀ f, r = .error f → f = .outOfBounds)
    (h : r.map some = .error f) : f ≠ .assertRefcnt ∧ f ≠ .fuel := by
  cases r with
  | error g =>
      cases h
      rw [hr f rfl]
      decide
  | ok v => cases h

/-- The length field of the packet that starts here, of either version. -/
theorem startIplen_fault {tbuf : Tbuf} {tlen : Nat} {f : Fault}
    (h : startIplen tbuf tlen = .error f) : f ≠ .assertRefcnt ∧ f ≠ .fuel := by
  rw [startIplen] at h
  split at h
  · cases h
    decide
  · dsimp only at h
    split at h
    · split at h
      · exact map_some_fault (fun _ => get16_fault) h
      · cases h
    · split at h
      · split at h
        · exact map_some_fault (fun _ => get16_fault) h
        · cases h
      · split at h
        · cases h
        · cases h

/-- A pass that starts a packet fails in the read of its length field, in an `assert` on what is
left there, or where the packet goes on. -/
theorem startPass_fault {tbuf : Tbuf} {offset tlen : Nat} {m : Miov} {f : Fault}
    (h : startPass tbuf offset tlen m = .error f) : f ≠ .assertRefcnt ∧ f ≠ .fuel := by
  rw [startPass] at h
  split at h
  · cases h
  · dsimp only at h
    split at h
    · rename_i hiplen
      cases h
      exact startIplen_fault hiplen
    · cases h
    · split at h
      · exact morePass_fault h
      · split at h
        · cases h
          decide
        · exact finishPass_fault h

/-- The length field of a packet cut before it. The `assert(0)` of the source is here. -/
theorem getiplen_fault {m : Miov} {tbuf : Tbuf} {f : Fault} (h : getiplen m tbuf = .error f) :
    f ≠ .assertRefcnt ∧ f ≠ .fuel := by
  have hfield : ∀ {i : Nat} {g : Fault}, (if tbuf.start + i < m.len then .error .outOfBounds
      else get16 tbuf.data (tbuf.start + i - m.len)) = .error g →
        g ≠ .assertRefcnt ∧ g ≠ .fuel := by
    intro i g hg
    split at hg
    · cases hg
      decide
    · rw [get16_fault hg]
      decide
  rw [getiplen] at h
  split at h
  · cases h
    decide
  · dsimp only at h
    split at h
    · exact hfield h
    · split at h
      · exact hfield h
      · cases h
        decide

/-- A whole pass, by the branches of the source: none of the faults is the `assert` of
`mbuf_reset`, and the recursion is not at its end. -/
theorem innerPass_fault {tbuf : Tbuf} {offset : Nat} {m : Miov} {f : Fault}
    (h : innerPass tbuf offset m = .error f) : f ≠ .assertRefcnt ∧ f ≠ .fuel := by
  rw [innerPass] at h
  split at h
  · cases h
    decide
  · split at h
    · exact startPass_fault h
    · split at h
      · rename_i hleft
        cases h
        rw [knownLeft] at hleft
        split at hleft
        · exact getiplen_fault hleft
        · cases hleft
      · split at h
        · split at h
          · exact morePass_fault h
          · cases h
        · split at h
          · exact finishPass_fault h
          · cases h
            decide

/-- A read of four bytes can only fail by running out of the datagram. -/
theorem get32_fault {buf : List UInt8} {i : Nat} {f : Fault} (h : get32 buf i = .error f) :
    f = .outOfBounds := by
  rw [get32] at h
  split at h
  · cases h
  · cases h
    rfl

/-- The header of a datagram and its sequence number, before the datagram is taken apart. -/
theorem classify_fault {data : List UInt8} {limited : Bool} {f : Fault}
    (h : classify data limited = .error f) : f ≠ .assertRefcnt := by
  rw [classify] at h
  split at h
  · cases h
  · split at h
    · cases h
    · split at h
      · cases h
      · split at h
        · split at h
          · cases h
          · split at h
            · cases h
            · cases h
        · cases h
          decide

/-- An average fails by its division, if at all. -/
theorem runavgAdd_fault {avg : Runavg} {value : Nat} {f : Fault}
    (h : runavgAdd avg value = .error f) : f ≠ .assertRefcnt := by
  rw [runavgAdd] at h
  split at h
  · cases h
    decide
  · extract_lets total total' ticked index ticks divisor average at h
    split at h
    · cases h
      decide
    · cases h

/-- What an ACK does to the rate fails in one of the averages or in a division. -/
theorem congestAck_fault {ndrop runlen : Nat} {g : Congest} {f : Fault}
    (h : congestAck ndrop runlen g = .error f) : f ≠ .assertRefcnt := by
  rw [congestAck] at h
  split at h
  · rename_i hadd
    cases h
    exact runavgAdd_fault hadd
  · split at h
    · rename_i hadd
      cases h
      exact runavgAdd_fault hadd
    · dsimp only at h
      split at h
      · cases h
      · split at h
        · cases h
        · split at h
          · cases h
            decide
          · cases h

/-- An ACK fails in the reads of its words or in what it does to the rate. -/
theorem recvAck_fault {cfg : Config} {data : List UInt8} {g : Congest} {f : Fault}
    (h : recvAck cfg data g = .error f) : f ≠ .assertRefcnt := by
  rw [recvAck] at h
  split at h
  · cases h
  · split at h
    · cases h
    · split at h
      · rename_i hget
        cases h
        rw [get32_fault hget]
        decide
      · split at h
        · cases h
          decide
        · split at h
          · split at h
            · cases h
            · exact congestAck_fault h
          · cases h
            decide

/-- The check of the ACK timer never fails: it leaves the record, or clears it. -/
theorem ackTimerRecord_ok (cfg : Config) (timer : Option Timespec) (ack : Ackinfo) :
    ∃ ack', ackTimerRecord cfg timer ack = .ok ack' := by
  cases timer with
  | none => exact ⟨ack, rfl⟩
  | some now =>
      by_cases hone : cfg.oneonly = true
      · exact ⟨ack, if_pos hone⟩
      · by_cases hstart : ack.start = 0
        · exact ⟨ack, by simp [ackTimerRecord, sendAck, hone, hstart, Except.map]⟩
        · exact ⟨.zero, by simp [ackTimerRecord, sendAck, hone, hstart, Except.map]⟩

/-! ### Why a thread does not take a step -/

/-- A datagram has brought the reader down, and not the `assert` of `mbuf_reset`. -/
def OtherFault (e : Stop) : Prop := ∃ f, e = .fault f ∧ f ≠ .assertRefcnt

/-- A fault of the code for the datagram, as the reason of a stop. -/
theorem otherFault_of {f : Fault} (h : f ≠ .assertRefcnt) : OtherFault (.fault f) := ⟨f, rfl, h⟩

section Error

variable {maxiov : Nat} {s : Egress} {e : Stop}

/-- `add_to_inner_packet` begins in the reader, and never waits there. -/
theorem enterStep_error {tbuf : Tbuf} {new : Bool} {m : Option Nat}
    (h : enterStep s tbuf new m = .error e) : OtherFault e := by
  rw [enterStep] at h
  split at h
  · rename_i henter
    cases h
    exact otherFault_of (enterInner_fault henter).1
  · cases h

/-- A step at `recvfrom` never waits. The cases are what the datagram is classified as. -/
theorem recvStep_error {cfg : Config} {b : Nat} {m : Option Nat}
    {input : Option (List UInt8 × Bool)} (h : recvStep cfg s b m input = .error e) :
    OtherFault e := by
  unfold recvStep at h
  cases input with
  | none => cases h
  | some p =>
      obtain ⟨bytes, limited⟩ := p
      dsimp only at h
      split at h
      · rename_i hclass
        cases h
        exact otherFault_of (classify_fault hclass)
      · cases h
      · cases h
      · cases h
      · cases h
      · split at h
        · rename_i hack
          cases h
          exact otherFault_of (recvAck_fault hack)
        · cases h
      · split at h
        · cases h
        · split at h
          · split at h
            · cases h
            · exact enterStep_error h
          · exact enterStep_error h

/-- `miov_addmbuf` fails where the arrays of the miov are full, or where the bytes would run past
the buffer. -/
theorem addmbufStep_error {k start len left : Nat} {tbuf : Tbuf}
    (h : addmbufStep maxiov s k tbuf start len left = .error e) : OtherFault e := by
  rw [addmbufStep] at h
  split at h
  · by_cases hfit : start + len ≤ tbuf.data.length
    · rw [miovAddmbuf, if_pos hfit] at h
      cases h
    · rw [miovAddmbuf, if_neg hfit] at h
      cases h
      exact otherFault_of (by decide)
  · cases h
    exact otherFault_of (by decide)

/-- A pass on the miov in hand fails in `add_to_inner_packet` or in `miov_addmbuf`. -/
theorem innerStepOn_error {tbuf : Tbuf} {offset k : Nat}
    (h : innerStepOn maxiov s tbuf offset k = .error e) : OtherFault e := by
  rw [innerStepOn] at h
  split at h
  · rename_i hpass
    cases h
    exact otherFault_of (innerPass_fault hpass).1
  · cases h
  · split at h
    · rename_i hadd
      cases h
      exact addmbufStep_error hadd
    · cases h
  · split at h
    · rename_i hadd
      cases h
      exact addmbufStep_error hadd
    · cases h

/-- The `assert` of `mbuf_reset` on a buffer that a thread holds. -/
theorem Conserves.assertUnref (h : Conserves maxiov s) {b : Nat} (hb : 0 < s.held b) :
    assertUnref s b = .ok s := if_pos (h.counted.rc_of_held hb)

/-- A push on `freeq` does not wait. -/
theorem Conserves.push_freeq (h : Conserves maxiov s) {b : Nat} (hb : 0 < s.held b) :
    mqueuePush s.freeq b ≠ none := by
  intro hfull
  have hlen := Queue.push_eq_none.mp hfull
  rw [h.freeq] at hlen
  have hlt := h.counted.length_free_lt mem_range_iff_outerPool hb
  rw [List.length_range] at hlt
  omega

/-- All the miovs together: on the two queues, and with the two threads. -/
theorem Conserves.length_miovs (h : Conserves maxiov s) :
    s.iovfreeq.queue.length + s.outq.queue.length + s.reader.miovs.length +
      s.writer.miovs.length = OUTERQSZ := by
  have hlen := h.miovs.length_eq
  rw [List.length_range, Egress.miovs, List.length_append, List.length_append,
    List.length_append] at hlen
  omega

/-- A push on the outq does not wait. -/
theorem Conserves.push_outq (h : Conserves maxiov s) {k : Nat} (hk : s.reader.miovs = [k]) :
    miovqPush s.outq k ≠ none := by
  intro hfull
  have hlen := Queue.push_eq_none.mp hfull
  have hall := h.length_miovs
  rw [h.outq] at hlen
  rw [hk, List.length_singleton] at hall
  omega

/-- A push on `iovfreeq` does not wait. -/
theorem Conserves.push_iovfreeq (h : Conserves maxiov s) {k : Nat} (hk : s.writer.miovs = [k]) :
    miovqPush s.iovfreeq k ≠ none := by
  intro hfull
  have hlen := Queue.push_eq_none.mp hfull
  have hall := h.length_miovs
  rw [h.iovfreeq] at hlen
  rw [hk, List.length_singleton] at hall
  omega

/-- Where the reader can wait: for a buffer, or for a miov when it has none. -/
inductive ReaderWaits (s : Egress) : Prop
  | start (hr : s.reader = .start) (hq : s.freeq.queue = [])
  | pop (m : Option Nat) (hr : s.reader = .pop m) (hq : s.freeq.queue = [])
  | inner (tbuf : Tbuf) (offset : Nat) (hr : s.reader = .inner tbuf offset none)
      (hq : s.iovfreeq.queue = [])

/-- The reader does not take a step: a datagram brings it down, or it waits on a pop. -/
theorem readTfsStep_error {cfg : Config} {timer : Option Timespec}
    {input : Option (List UInt8 × Bool)} (h : Conserves maxiov s)
    (hstep : readTfsStep cfg maxiov s timer input = .error e) :
    OtherFault e ∨ (e = .waits ∧ ReaderWaits s) := by
  cases hr : s.reader with
  | start =>
      simp only [readTfsStep, hr] at hstep
      split at hstep
      · rename_i hpop
        cases hstep
        exact Or.inr ⟨rfl, .start hr (Queue.pop_eq_none.mp hpop)⟩
      · cases hstep
  | startRef b =>
      simp only [readTfsStep, hr] at hstep
      cases hstep
  | top b m =>
      simp only [readTfsStep, hr] at hstep
      have hack := ackTimerRecord_ok cfg timer s.ack
      rcases hack with ⟨ack, hack⟩
      simp only [hack] at hstep
      cases hstep
  | reset b m =>
      -- The reader holds this mbuf, so its count is not zero and the assertion of `mbuf_deref`
      -- holds.
      have hb : 0 < s.held b := by simp [Egress.held, TfsReader.hands, hr]
      simp only [readTfsStep, hr, h.assertUnref hb] at hstep
      cases hstep
  | pop m =>
      simp only [readTfsStep, hr] at hstep
      split at hstep
      · rename_i hpop
        cases hstep
        exact Or.inr ⟨rfl, .pop m hr (Queue.pop_eq_none.mp hpop)⟩
      · cases hstep
  | store b m =>
      simp only [readTfsStep, hr] at hstep
      cases hstep
  | recv b m =>
      simp only [readTfsStep, hr] at hstep
      exact Or.inl (recvStep_error hstep)
  | deref tbuf k =>
      simp only [readTfsStep, hr] at hstep
      split at hstep
      · exact Or.inl (enterStep_error hstep)
      · cases hstep
      · cases hstep
  | derefReset tbuf k b =>
      have hb : 0 < s.held b := by simp [Egress.held, TfsReader.hands, hr]
      simp only [readTfsStep, hr, h.assertUnref hb] at hstep
      cases hstep
  | derefPush tbuf k b =>
      have hb : 0 < s.held b := by simp [Egress.held, TfsReader.hands, hr]
      simp only [readTfsStep, hr] at hstep
      split at hstep
      · rename_i hpush
        -- An mbuf in hand leaves room for it on the free queue.
        exact absurd hpush (h.push_freeq hb)
      · cases hstep
  | inner tbuf offset m =>
      cases m with
      | none =>
          simp only [readTfsStep, hr] at hstep
          split at hstep
          · rename_i hpop
            cases hstep
            exact Or.inr ⟨rfl, .inner tbuf offset hr (Queue.pop_eq_none.mp hpop)⟩
          · cases hstep
      | some k =>
          simp only [readTfsStep, hr] at hstep
          exact Or.inl (innerStepOn_error hstep)
  | push tbuf k recurse =>
      have hk : s.reader.miovs = [k] := by rw [hr, TfsReader.miovs]
      simp only [readTfsStep, hr] at hstep
      split at hstep
      · rename_i hpush
        -- So does a miov on the outq, which has room for all of them.
        exact absurd hpush (h.push_outq hk)
      · split at hstep
        · exact Or.inl (enterStep_error hstep)
        · cases hstep

/-- The writer does not take a step: it waits for a packet. -/
theorem writeIntfStep_error (h : Conserves maxiov s) (hstep : writeIntfStep s = .error e) :
    e = .waits ∧ s.writer = .pop ∧ s.outq.queue = [] := by
  cases hw : s.writer with
  | pop =>
      simp only [writeIntfStep, hw] at hstep
      split at hstep
      · rename_i hpop
        cases hstep
        exact ⟨rfl, rfl, Queue.pop_eq_none.mp hpop⟩
      · cases hstep
  | write k =>
      simp only [writeIntfStep, hw] at hstep
      cases hstep
  | deref k =>
      simp only [writeIntfStep, hw] at hstep
      split at hstep
      · cases hstep
      · cases hstep
      · cases hstep
  | derefReset k b =>
      -- As for the reader: what the writer holds keeps its count above zero, and a queue that
      -- lacks one element is not full.
      have hb : 0 < s.held b := by simp [Egress.held, IntfWriter.hands, hw]
      simp only [writeIntfStep, hw, h.assertUnref hb] at hstep
      cases hstep
  | derefPush k b =>
      have hb : 0 < s.held b := by simp [Egress.held, IntfWriter.hands, hw]
      simp only [writeIntfStep, hw] at hstep
      split at hstep
      · rename_i hpush
        exact absurd hpush (h.push_freeq hb)
      · cases hstep
  | push k =>
      have hk : s.writer.miovs = [k] := by rw [hw, IntfWriter.miovs]
      simp only [writeIntfStep, hw] at hstep
      split at hstep
      · rename_i hpush
        exact absurd hpush (h.push_iovfreeq hk)
      · cases hstep

end Error

/-! ### The two threads never wait for each other -/

section Progress

variable {maxiov : Nat} {s : Egress}

/-- When the writer waits for a packet, only the reader's own has entries. -/
theorem Conserves.mem_miovs (h : Conserves maxiov s) (hw : s.writer = .pop)
    (hq : s.outq.queue = []) {k : Nat} (hk : k < OUTERQSZ) :
    k ∈ s.iovfreeq.queue ∨ k ∈ s.reader.miovs := by
  have hmem : k ∈ s.miovs := h.miovs.mem_iff.mpr (List.mem_range.mpr hk)
  simpa [Egress.miovs, hw, hq, IntfWriter.miovs] using hmem

/-- When the writer waits for a packet, an entry is one of the reader's own packet. -/
theorem Conserves.entry_of_pos (h : Conserves maxiov s) (hw : s.writer = .pop)
    (hq : s.outq.queue = []) {b : Nat} (hb : 0 < s.entries b) :
    ∃ k ∈ s.reader.miovs, b ∈ (s.miov k).mbufs := by
  have hsum : ∃ k ∈ Finset.range OUTERQSZ, 0 < (s.miov k).mbufs.count b :=
    Finset.sum_pos_iff.mp hb
  rcases hsum with ⟨k, hk, hcount⟩
  have hmem : b ∈ (s.miov k).mbufs := List.count_pos_iff.mp hcount
  rcases h.mem_miovs hw hq (Finset.mem_range.mp hk) with hfree | hown
  · rw [Miov.mbufs, h.clean k hfree] at hmem
    exact absurd hmem List.not_mem_nil
  · exact ⟨k, hown, hmem⟩

/-- The reader has one miov at most in its hands. -/
theorem length_miovs_le (r : TfsReader) : r.miovs.length ≤ 1 := by
  have hm : ∀ m : Option Nat, m.toList.length ≤ 1 := by
    intro m
    cases m <;> simp
  cases r <;> simp [TfsReader.miovs, hm]

/-- The buffers that the reader's own packet points at are fewer than there are. -/
theorem Conserves.length_reached (h : Conserves maxiov s) (hmax : maxiov < OUTERQSZ) :
    (s.reader.miovs.flatMap fun k => (s.miov k).mbufs).length < OUTERQSZ := by
  have hlen := length_miovs_le s.reader
  rcases hmiovs : s.reader.miovs with _ | ⟨k, _ | ⟨k', ks⟩⟩
  · exact Nat.lt_of_le_of_lt (Nat.zero_le _) hmax
  · rw [List.flatMap_cons, List.flatMap_nil, List.append_nil, Miov.mbufs, List.length_map]
    exact Nat.lt_of_le_of_lt (h.room k) hmax
  · rw [hmiovs, List.length_cons, List.length_cons] at hlen
    omega

/-- With nothing in its hands and the writer waiting for a packet, the reader finds a buffer. -/
theorem Conserves.freeq_ne_nil (h : Conserves maxiov s) (hmax : maxiov < OUTERQSZ)
    (hw : s.writer = .pop) (hq : s.outq.queue = []) (hown : s.reader.own = [])
    (hhands : s.reader.hands = []) : s.freeq.queue ≠ [] := by
  intro hempty
  have hheld : ∀ b, s.held b = 0 := by
    intro b
    rw [Egress.held, hhands, hw]
    rfl
  have hreached : ∀ b, 0 < s.refs b →
      b ∈ s.reader.miovs.flatMap fun k => (s.miov k).mbufs := by
    intro b hb
    rw [Egress.refs, hown, List.count_nil, Nat.zero_add] at hb
    exact List.mem_flatMap.mpr (h.entry_of_pos hw hq hb)
  have hlen : (s.reader.miovs.flatMap fun k => (s.miov k).mbufs).length <
      (List.range OUTERQSZ).length := by
    rw [List.length_range]
    exact h.length_reached hmax
  -- The pool has more buffers than the packet in progress can point at.
  have hfree := h.counted.exists_free List.nodup_range
    (fun b => (mem_range_iff_outerPool b).mp) hheld hreached hlen
  rcases hfree with ⟨b, -, hb⟩
  rw [hempty, List.count_nil] at hb
  exact Nat.lt_irrefl 0 hb

/-- The two threads never wait at the same time. -/
theorem Conserves.not_both_wait (h : Conserves maxiov s) (hmax : maxiov < OUTERQSZ)
    (hr : ReaderWaits s) (hw : s.writer = .pop) (hq : s.outq.queue = []) : False := by
  cases hr with
  | start hr hempty => exact h.freeq_ne_nil hmax hw hq (by rw [hr]; rfl) (by rw [hr]; rfl) hempty
  | pop m hr hempty => exact h.freeq_ne_nil hmax hw hq (by rw [hr]; rfl) (by rw [hr]; rfl) hempty
  | inner tbuf offset hr hempty =>
      -- All the miovs are somewhere, and neither thread has one.
      have hall := h.length_miovs
      rw [hempty, hq, hr, hw] at hall
      cases hall

/-- The books say where each buffer is. -/
theorem Conserves.accounted (h : Conserves maxiov s) {b : Nat} (hb : b < OUTERQSZ) :
    s.Accounted b := by
  have hrc := h.counted.rc_eq b
  have honce := h.counted.once b
  rw [outerPool, if_pos hb] at honce
  refine ⟨hrc, ?_⟩
  omega

/-- No step of either thread fails the `assert` of `mbuf_reset`. -/
theorem Conserves.ne_assertRefcnt (h : Conserves maxiov s) (cfg : Config) (e : EgressEvent) :
    egressStep cfg maxiov s e ≠ .error (.fault .assertRefcnt) := by
  intro herr
  cases e with
  | reader timer input =>
      rcases readTfsStep_error h herr with ⟨f, hf, hne⟩ | ⟨hwaits, -⟩
      · cases hf
        exact hne rfl
      · cases hwaits
  | writer =>
      have hwaits := (writeIntfStep_error h herr).1
      cases hwaits

end Progress

/-- Every step of either thread keeps the invariant. -/
theorem egressStep_conserves {cfg : Config} {maxiov : Nat} (hfits : RefcntFits maxiov)
    (s : Egress) (e : EgressEvent) (t : Egress) (h : Conserves maxiov s)
    (hstep : egressStep cfg maxiov s e = .ok t) : Conserves maxiov t := by
  cases e with
  | reader timer input => exact readTfsStep_conserves h hfits hstep
  | writer => exact writeIntfStep_conserves h hfits hstep

/-- The pools of the egress are conserved, and its threads do not lock each other up. In every
state that a run of the two threads reaches, each buffer is accounted for, each miov is in
exactly one place, the `assert` of `mbuf_reset` does not fail, and one of the threads does
not wait. -/
theorem egress_conserves (cfg : Config) (maxiov : Nat) (hmax : maxiov < OUTERQSZ) (pps : Pps)
    (s : Egress) (hs : Reachable (egressStep cfg maxiov) (Egress.init pps) s) :
    (∀ b < OUTERQSZ, s.Accounted b) ∧
      s.miovs.Perm (List.range OUTERQSZ) ∧
      (∀ e, egressStep cfg maxiov s e ≠ .error (.fault .assertRefcnt)) ∧
      ¬ ((∃ timer input, readTfsStep cfg maxiov s timer input = .error .waits) ∧
        writeIntfStep s = .error .waits) := by
  have hfits : RefcntFits maxiov := by
    simp only [RefcntFits, OUTERQSZ] at hmax ⊢
    omega
  have h : Conserves maxiov s :=
    hs.induct (conserves_init maxiov pps) (egressStep_conserves hfits)
  refine ⟨fun b hb => h.accounted hb, h.miovs, h.ne_assertRefcnt cfg, ?_⟩
  rintro ⟨⟨timer, input, hreader⟩, hwriter⟩
  have hpop := writeIntfStep_error h hwriter
  rcases readTfsStep_error h hreader with ⟨f, hf, -⟩ | ⟨-, hwaits⟩
  · cases hf
  · exact h.not_both_wait hmax hwaits hpop.2.1 hpop.2.2

/-- A datagram with one packet in it is read, and the packet is written. The reader drops its
reference to the buffer first, and the writer puts it back. -/
def onePacket : List EgressEvent :=
  let turn : EgressEvent := .reader none none
  [turn, turn, turn, turn, turn,
    .reader none (some ([0, 0, 0, 1, 0, 0, 0, 0, 0x45, 0, 0, 5, 9], false)),
    turn, turn, turn, turn, .writer, .writer, .writer, .writer, .writer, .writer, .writer]

/-- Applied where one packet has gone through and the buffers are free again. -/
theorem egress_conserves_one : ∃ s,
    run (egressStep ⟨1500, false, false⟩ 8) (Egress.init ⟨100, 100, 10000000⟩) onePacket = .ok s ∧
      (s.reader, s.writer, s.outq.queue) = (.pop none, .pop, []) ∧
      ∀ b < OUTERQSZ, s.Accounted b := by
  have hends : (run (egressStep ⟨1500, false, false⟩ 8) (Egress.init ⟨100, 100, 10000000⟩)
      onePacket).map (fun s => (s.reader, s.writer, s.outq.queue)) =
        .ok (.pop none, .pop, []) := by decide +kernel
  cases hrun : run (egressStep ⟨1500, false, false⟩ 8) (Egress.init ⟨100, 100, 10000000⟩)
      onePacket with
  | error e =>
      rw [hrun] at hends
      cases hends
  | ok s =>
      rw [hrun] at hends
      exact ⟨s, rfl, Except.ok.inj hends, (egress_conserves _ 8 (by decide) _ s ⟨_, hrun⟩).1⟩

end Proofs

end Iptfs
