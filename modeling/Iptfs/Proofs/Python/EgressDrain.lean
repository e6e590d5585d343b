import Iptfs.Lib.Progress
import Iptfs.Proofs.Python.EgressRefinement

/-!
# `Iptfs.Proofs.Python.EgressDrain`: what the Python egress pushes gets written

As `Iptfs.Proofs.EgressDrain` for the C program: `write_intf_packets` needs nothing from
`read_tfs_packets`, it waits for packets and for nothing else. Here an `iov` can have any length, so
the bound on its steps is that of the state: two for each entry of a packet on the way, to drop a
reference and give the buffer back, and four for the packet.
-/

set_option autoImplicit false

namespace Iptfs.Py

/-- The steps that `write_intf_packets` takes for a packet, from the pop to the push. -/
def MIOVBuf.steps (m : MIOVBuf) : Nat := 2 * m.iov.length + 4

/-- The steps to the next `outq.pop()`. -/
def IntfWriter.steps (miov : Nat → MIOVBuf) : IntfWriter → Nat
  | .pop => 0
  | .write k => 2 * (miov k).iov.length + 3
  | .reset k => 2 * (miov k).iov.length + 2
  | .resetPush k _ => 2 * (miov k).iov.length + 3
  | .push _ => 1

/-- The steps until nothing is left to be written. -/
def Egress.writeSteps (s : Egress) : Nat :=
  s.writer.steps s.miov + (s.outq.queue.map fun k => (s.miov k).steps).sum

namespace Proofs

open Iptfs.Lib

section Drain

variable {target pps : ℚ} {s t : Egress} {o : Observed}

/-- `reset` does not touch the packets on the outq. -/
theorem writeSteps_within (h : Conserves s) (hstep : writeIntfStep s = .ok t)
    (houtq : t.outq = s.outq) (hsteps : t.writer.steps t.miov < s.writer.steps s.miov) :
    t.writeSteps < s.writeSteps := by
  have hkept : ∀ k ∈ s.outq.queue, (t.miov k).steps = (s.miov k).steps := by
    intro k hk
    rw [(writeIntfStep_frame hstep).2 k fun hmine => (h.balanced.symm.only hmine).2.1 hk]
  rw [Egress.writeSteps, Egress.writeSteps, houtq, List.map_congr_left hkept]
  exact Nat.add_lt_add_right hsteps _

/-- Every step of `write_intf_packets` brings it closer to the end of its work. -/
theorem writeSteps_lt (h : Conserves s) (hstep : writeIntfStep s = .ok t) :
    t.writeSteps < s.writeSteps := by
  have hwithin := writeSteps_within h hstep
  -- Only the pop takes a packet from the outq. Every other step is on the packet in hand.
  cases writerStep_of_step hstep with
  | @pop k outq hw hpop =>
      have hqueue := (Queue.pop_eq_some.mp hpop).1
      simp only [Egress.writeSteps, hw, hqueue, IntfWriter.steps, MIOVBuf.steps, List.map_cons,
        List.sum_cons]
      omega
  | @write k hw =>
      apply hwithin rfl
      rw [hw]
      exact Nat.lt_succ_self _
  | @resetTurn k v rest w hw hiov hnext =>
      apply hwithin rfl
      have hbefore : (s.miov k).iov.length = rest.length + 1 := by rw [hiov, List.length_cons]
      have hafter : ((cutEntry s k v.mbuf rest).miov k).iov = rest := by
        show (Function.update s.miov k { s.miov k with iov := rest } k).iov = rest
        rw [Function.update_self]
      -- The entry is gone. If its buffer is free now, one of its two steps is left.
      have hdone : w.steps (cutEntry s k v.mbuf rest).miov ≤ 2 * rest.length + 3 := by
        rcases hnext with rfl | rfl
        · show 2 * _ + 2 ≤ _
          rw [hafter]
          omega
        · show 2 * _ + 3 ≤ _
          rw [hafter]
      rw [hw]
      show w.steps (cutEntry s k v.mbuf rest).miov < 2 * (s.miov k).iov.length + 2
      omega
  | @resetEnded k hw hiov =>
      apply hwithin rfl
      rw [hw]
      show 1 < 2 * (s.miov k).iov.length + 2
      omega
  | @resetPush k b freeq hw hpush =>
      apply hwithin rfl
      rw [hw]
      exact Nat.lt_succ_self _
  | @push k iovfreeq hw hpush =>
      apply hwithin rfl
      rw [hw]
      exact Nat.lt_succ_self _

/-- `write_intf_packets` raises nothing. -/
theorem writeIntfStep_error {f : Stop} (hstep : writeIntfStep s = .error f) : f = .waits := by
  unfold writeIntfStep at hstep
  cases hw : s.writer with
  | write k =>
      rw [hw] at hstep
      cases hstep
  | reset k =>
      rw [hw] at hstep
      dsimp only at hstep
      split at hstep <;> cases hstep
  | pop | resetPush _ _ | push _ =>
      rw [hw] at hstep
      dsimp only at hstep
      split at hstep
      · cases hstep
        rfl
      · cases hstep

/-- The writer has nothing to do. -/
def Drained (s : Egress) : Prop := s.writer = .pop ∧ s.outq.queue = []

/-- Nothing is on the way then. -/
theorem Drained.onTheWay (h : Drained s) : s.onTheWay = [] := by
  rw [Egress.onTheWay, h.1, h.2]
  rfl

/-- A step of the writer, with what it leaves alone. -/
theorem Faithful.writes (h : Faithful target pps o) (hbusy : ¬ Drained o.egress) :
    ∃ p, observedStep target o .writer = .ok p ∧ Faithful target pps p ∧
      p.passes = o.passes ∧ p.egress.reader = o.egress.reader ∧
      p.egress.writeSteps < o.egress.writeSteps := by
  have hcons := h.intact.conserves
  cases hstep : writeIntfStep o.egress with
  | error f =>
      obtain rfl := writeIntfStep_error hstep
      exact absurd (writeIntfStep_waits hcons hstep) hbusy
  | ok t =>
      have hobs : observedStep target o .writer = .ok { o.write with egress := t } := by
        rw [observedStep, egressStep, hstep]
      exact ⟨_, hobs, h.step hobs, (write_record o).2, (writeIntfStep_frame hstep).1.1,
        writeSteps_lt hcons hstep⟩

/-- From every state the steps of `write_intf_packets` alone lead to the end of its work. -/
theorem Faithful.drain (h : Faithful target pps o) :
    ∃ n ≤ o.egress.writeSteps, ∃ p,
      run (observedStep target) o (List.replicate n .writer) = .ok p ∧ Faithful target pps p ∧
        p.passes = o.passes ∧ p.egress.reader = o.egress.reader ∧ Drained p.egress := by
  -- The reader takes no step here, so it stays where it is, and nothing is received.
  let Inv : Observed → Prop := fun p =>
    Faithful target pps p ∧ p.passes = o.passes ∧ p.egress.reader = o.egress.reader
  have hgoes : ∀ p, Inv p → ¬ Drained p.egress → ∃ q, observedStep target p .writer = .ok q ∧
      Inv q ∧ q.egress.writeSteps < p.egress.writeSteps := by
    rintro p ⟨hp, hpasses, hreader⟩ hbusy
    obtain ⟨q, hstep, hq, hpasses', hreader', hlt⟩ := hp.writes hbusy
    exact ⟨q, hstep, ⟨hq, hpasses'.trans hpasses, hreader'.trans hreader⟩, hlt⟩
  obtain ⟨n, hn, p, hrun, ⟨hp, hpasses, hreader⟩, hdrained⟩ :=
    exists_run_alone (observedStep target) Inv (fun p => Drained p.egress)
      (fun p => p.egress.writeSteps) .writer hgoes o ⟨h, rfl, rfl⟩
  exact ⟨n, hn, p, hrun, hp, hpasses, hreader, hdrained⟩

end Drain

end Proofs

end Iptfs.Py
