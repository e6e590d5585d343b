import Iptfs.Lib.Progress
import Iptfs.Proofs.EgressRefinement

/-!
# `Iptfs.Proofs.EgressDrain`: what is pushed gets written

`Iptfs.Proofs.EgressRefinement` says that each packet that `read_tfs_pkts` has pushed is written or
on its way to the interface. Here it comes there. `write_intf_pkts` needs nothing from
`read_tfs_pkts` for it, not a buffer and not a place on a queue: it waits for packets and for
nothing else.

`Egress.writeTurns` counts the steps that it has still to take. Each packet takes at most three for
each entry of its miov, to drop a reference and give the mbuf back, and four more.
-/

set_option autoImplicit false

namespace Iptfs

/-- The steps that `write_intf_pkts` takes for a packet, from the pop to the push. -/
def Miov.turns (m : Miov) : Nat := 3 * m.niov + 4

/-- The steps to the next `miovq_pop`. -/
def IntfWriter.turns (miov : Nat → Miov) : IntfWriter → Nat
  | .pop => 0
  | .write k => 3 * (miov k).niov + 3
  | .deref k => 3 * (miov k).niov + 2
  | .derefReset k _ => 3 * (miov k).niov + 4
  | .derefPush k _ => 3 * (miov k).niov + 3
  | .push _ => 1

/-- The steps until nothing is left to be written. -/
def Egress.writeTurns (s : Egress) : Nat :=
  s.writer.turns s.miov + (s.outq.queue.map fun k => (s.miov k).turns).sum

namespace Proofs

open Iptfs.Lib

section Drain

variable {cfg : Config} {maxiov : Nat} {pps : Pps} {s t : Egress} {o : Observed}

/-- The walk over a miov does not touch those on the outq. -/
theorem writeTurns_within (h : Conserves maxiov s) (hstep : writeIntfStep s = .ok t)
    (houtq : t.outq = s.outq) (hturns : t.writer.turns t.miov < s.writer.turns s.miov) :
    t.writeTurns < s.writeTurns := by
  have hkept : ∀ k ∈ s.outq.queue, (t.miov k).turns = (s.miov k).turns := fun k hk => by
    rw [(writeIntfStep_miovs hstep).1 k (h.writer_only hk)]
  rw [Egress.writeTurns, Egress.writeTurns, houtq, List.map_congr_left hkept]
  exact Nat.add_lt_add_right hturns _

/-- Every step of `write_intf_pkts` brings it closer to the end of its work. -/
theorem writeTurns_lt (h : Conserves maxiov s) (hstep : writeIntfStep s = .ok t) :
    t.writeTurns < s.writeTurns := by
  have hwithin := writeTurns_within h hstep
  cases writerStep_of_step hstep with
  | @pop k outq hw hpop =>
      have hqueue := (Queue.pop_eq_some.mp hpop).1
      simp only [Egress.writeTurns, hw, hqueue, IntfWriter.turns, Miov.turns, List.map_cons,
        List.sum_cons]
      omega
  | @write k hw =>
      apply hwithin rfl
      rw [hw]
      exact Nat.lt_succ_self _
  | @derefTurn k v rest w hw hiov hnext =>
      apply hwithin rfl
      have hbefore : (s.miov k).niov = rest.length + 1 := by rw [Miov.niov, hiov, List.length_cons]
      have hafter : ((s.setMiov k { s.miov k with iov := rest }).miov k).niov = rest.length := by
        show (Function.update s.miov k { s.miov k with iov := rest } k).niov = _
        rw [Function.update_self]
        rfl
      have hdone : w.turns (s.setMiov k { s.miov k with iov := rest }).miov ≤
          3 * rest.length + 4 := by
        rcases hnext with rfl | rfl
        · show 3 * _ + 2 ≤ _
          rw [hafter]
          omega
        · show 3 * _ + 4 ≤ _
          rw [hafter]
      rw [hw]
      show w.turns (s.setMiov k { s.miov k with iov := rest }).miov < 3 * (s.miov k).niov + 2
      omega
  | @derefEnded k hw hiov =>
      apply hwithin rfl
      rw [hw]
      show 1 < 3 * (s.miov k).niov + 2
      omega
  | @derefReset k b hw =>
      apply hwithin rfl
      rw [hw]
      exact Nat.lt_succ_self _
  | @derefPush k b freeq hw hpush =>
      apply hwithin rfl
      rw [hw]
      exact Nat.lt_succ_self _
  | @push k iovfreeq hw hpush =>
      apply hwithin rfl
      rw [hw]
      exact Nat.lt_succ_self _

/-- There are no more packets on the way than miovs. -/
theorem Conserves.writeTurns_le (h : Conserves maxiov s) :
    s.writeTurns ≤ OUTERQSZ * (3 * maxiov + 4) := by
  have hone : ∀ k, (s.miov k).turns ≤ 3 * maxiov + 4 := fun k =>
    Nat.add_le_add_right (Nat.mul_le_mul_left 3 (h.room k)) 4
  have hqueue : (s.outq.queue.map fun k => (s.miov k).turns).sum ≤
      s.outq.queue.length * (3 * maxiov + 4) := by
    induction s.outq.queue with
    | nil => exact Nat.zero_le _
    | cons k ks ih =>
        rw [List.map_cons, List.sum_cons, List.length_cons, Nat.add_mul, Nat.one_mul]
        have := hone k
        omega
  have hwriter : s.writer.turns s.miov ≤ s.writer.miovs.length * (3 * maxiov + 4) := by
    cases s.writer with
    | pop => exact Nat.zero_le _
    | push k =>
        show 1 ≤ 1 * (3 * maxiov + 4)
        omega
    | write k | deref k | derefReset k b | derefPush k b =>
        have := h.room k
        simp only [IntfWriter.turns, IntfWriter.miovs, List.length_singleton, Nat.one_mul]
        omega
  have hmiovs := h.length_miovs
  calc s.writeTurns
      ≤ s.writer.miovs.length * (3 * maxiov + 4) + s.outq.queue.length * (3 * maxiov + 4) :=
        Nat.add_le_add hwriter hqueue
    _ = (s.writer.miovs.length + s.outq.queue.length) * (3 * maxiov + 4) := by rw [Nat.add_mul]
    _ ≤ OUTERQSZ * (3 * maxiov + 4) := Nat.mul_le_mul_right _ (by omega)

/-- The writer has nothing to do. -/
def Drained (s : Egress) : Prop := s.writer = .pop ∧ s.outq.queue = []

/-- Nothing is on the way then. -/
theorem Drained.onTheWay (h : Drained s) : s.onTheWay = [] := by
  rw [Egress.onTheWay, h.1, h.2]
  rfl

/-- A step of the writer, with what it leaves alone. -/
theorem Faithful.writes (hfits : RefcntFits maxiov) (h : Faithful cfg pps maxiov o)
    (hbusy : ¬ Drained o.egress) :
    ∃ p, observedStep cfg maxiov o .writer = .ok p ∧ Faithful cfg pps maxiov p ∧
      p.pushed = o.pushed ∧ p.egress.reader = o.egress.reader ∧
      p.egress.writeTurns < o.egress.writeTurns := by
  have hcons := h.intact.conserves
  cases hstep : writeIntfStep o.egress with
  | error e =>
      obtain ⟨-, hw, hq⟩ := writeIntfStep_error hcons hstep
      exact absurd ⟨hw, hq⟩ hbusy
  | ok t =>
      have hobs : observedStep cfg maxiov o .writer = .ok { o.write with egress := t } := by
        rw [observedStep, egressStep, hstep]
      exact ⟨_, hobs, h.step hfits hobs, (write_record o).1, (writeIntfStep_frame hstep).1,
        writeTurns_lt hcons hstep⟩

/-- The writer alone comes to the end of its work. -/
theorem Faithful.drain (hfits : RefcntFits maxiov) (h : Faithful cfg pps maxiov o) :
    ∃ n ≤ OUTERQSZ * (3 * maxiov + 4), ∃ p,
      run (observedStep cfg maxiov) o (List.replicate n .writer) = .ok p ∧
        Faithful cfg pps maxiov p ∧ p.pushed = o.pushed ∧ p.egress.reader = o.egress.reader ∧
        Drained p.egress := by
  let Inv : Observed → Prop := fun p =>
    Faithful cfg pps maxiov p ∧ p.pushed = o.pushed ∧ p.egress.reader = o.egress.reader
  have hgoes : ∀ p, Inv p → ¬ Drained p.egress → ∃ q, observedStep cfg maxiov p .writer = .ok q ∧
      Inv q ∧ q.egress.writeTurns < p.egress.writeTurns := by
    rintro p ⟨hp, hpushed, hreader⟩ hbusy
    obtain ⟨q, hstep, hq, hpushed', hreader', hlt⟩ := hp.writes hfits hbusy
    exact ⟨q, hstep, ⟨hq, hpushed'.trans hpushed, hreader'.trans hreader⟩, hlt⟩
  obtain ⟨n, hn, p, hrun, ⟨hp, hpushed, hreader⟩, hdrained⟩ :=
    exists_run_alone (observedStep cfg maxiov) Inv (fun p => Drained p.egress)
      (fun p => p.egress.writeTurns) .writer hgoes o ⟨h, rfl, rfl⟩
  exact ⟨n, hn.trans h.intact.conserves.writeTurns_le, p, hrun, hp, hpushed, hreader, hdrained⟩

/-- What has been written when the writer is done: each packet that was pushed, once. -/
theorem Faithful.written_perm (h : Faithful cfg pps maxiov o) (hdrained : Drained o.egress) :
    o.written.Perm (o.pushed.map Miov.bytes) := by
  have hall := h.delivered
  rw [Delivered, hdrained.onTheWay, List.map_nil, List.append_nil] at hall
  exact hall

end Drain

/-- From every state of the egress, in the middle of anything, the steps of `write_intf_pkts` alone
lead to a state where every packet that `read_tfs_pkts` has pushed is on the interface, each exactly
once and byte for byte. They are at most `OUTERQSZ * (3 * maxiov + 4)`. -/
theorem egress_drains (cfg : Config) {maxiov : Nat} (hfits : RefcntFits maxiov) (pps : Pps)
    (mem : Nat → List UInt8) {o : Observed}
    (h : Reachable (observedStep cfg maxiov) (.init pps mem) o) :
    ∃ n ≤ OUTERQSZ * (3 * maxiov + 4), ∃ p,
      run (observedStep cfg maxiov) o (List.replicate n .writer) = .ok p ∧
        p.egress.reader = o.egress.reader ∧ p.egress.writer = .pop ∧ p.egress.outq.queue = [] ∧
        p.written.Perm (o.pushed.map Miov.bytes) := by
  obtain ⟨n, hn, p, hrun, hp, hpushed, hreader, hdrained⟩ :=
    (faithful_of_reachable hfits h).drain hfits
  refine ⟨n, hn, p, hrun, hreader, hdrained.1, hdrained.2, ?_⟩
  rw [← hpushed]
  exact hp.written_perm hdrained

/-- A packet and the start of another one come in, and the first is on the outq. -/
def packetWaits : List EgressEvent := packetAndPart.dropLast.dropLast

/-- Applied where a packet waits on the outq and the writer has not taken it yet. -/
theorem egress_drains_waits : ∃ o n p,
    run (observedStep ⟨1500, false, false⟩ 8) (.init ⟨100, 100, 10000000⟩ fun _ => [])
      packetWaits = .ok o ∧
      o.written = [] ∧
      run (observedStep ⟨1500, false, false⟩ 8) o (List.replicate n .writer) = .ok p ∧
      p.written = [[0x45, 0, 0, 5, 9]] := by
  have hends : (run (observedStep ⟨1500, false, false⟩ 8)
      (.init ⟨100, 100, 10000000⟩ fun _ => []) packetWaits).map
        (fun o => (o.written, o.pushed.map Miov.bytes)) = .ok ([], [[0x45, 0, 0, 5, 9]]) := by
    decide +kernel
  cases hrun : run (observedStep ⟨1500, false, false⟩ 8)
      (.init ⟨100, 100, 10000000⟩ fun _ => []) packetWaits with
  | error e =>
      rw [hrun] at hends
      cases hends
  | ok o =>
      rw [hrun] at hends
      obtain ⟨hwritten, hpushed⟩ := Prod.mk.inj (Except.ok.inj hends)
      obtain ⟨n, -, p, hdrain, -, -, -, hperm⟩ :=
        egress_drains ⟨1500, false, false⟩ (by unfold RefcntFits; decide) _ _ ⟨_, hrun⟩
      rw [hpushed] at hperm
      exact ⟨o, n, p, rfl, hwritten, hdrain, List.perm_singleton.mp hperm⟩

end Proofs

end Iptfs
