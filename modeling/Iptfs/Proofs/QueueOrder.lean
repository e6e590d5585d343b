import Iptfs.Lib.Run
import Iptfs.Model.Mbuf
import Mathlib.Data.List.Range
import Mathlib.Data.List.Induction

/-!
# `Iptfs.Proofs.QueueOrder`: what order a queue keeps

A producer and a consumer share a queue. Every operation runs under the queue's lock, so
an interleaving of the two is the list of their operations in the order they complete. An
operation that has to wait does not complete, and the run stops there. `History` keeps the
queue together with the elements pushed so far and those that have come out. The `n`-th
element pushed carries the tag `n`, because the program pushes the same buffer again and
again.

The ingress outq is an `mqueue` (`mqueue_push`, `mqueue_pop`, `mqueue_trypop`), the egress
outq a `miovq` (`miovq_push`, `miovq_pop`).

Both take the element pushed last. Nothing is lost and nothing comes out twice
(`History.Conserved`). The elements come out in the order they were pushed exactly when
every operation that takes an element finds it alone in the queue
(`inOrder_iff_alone`).
-/

set_option autoImplicit false

namespace Iptfs.Proofs

open Iptfs.Lib

/-- An operation waits: a pop on an empty queue, a push on a full one. -/
inductive Waits
  | waits
  deriving DecidableEq, Repr

/-- A queue with its history. -/
structure History (β : Type) where
  mq : Queue (β × Nat)
  pushed : List β
  popped : List (β × Nat)

namespace History

variable {β : Type}

/-- A new queue. -/
def init (size : Nat) : History β := ⟨Queue.empty size, [], []⟩

/-- The elements come out in the order they were pushed. -/
def InOrder (h : History β) : Prop := h.popped = h.pushed.zipIdx.take h.popped.length

/-- Each element pushed has come out once or is in the queue once. -/
def Conserved (h : History β) : Prop := (h.popped ++ h.mq.queue).Perm h.pushed.zipIdx

/-- What the operations keep: nothing is lost, and the queue holds later elements above
earlier ones. -/
structure Stacked (h : History β) : Prop where
  conserved : h.Conserved
  sorted : h.mq.queue.Pairwise fun a b => b.2 < a.2

/-- The three things an operation can do. `push` puts an element on top, `take` takes the
top one, and `stay` is a `mqueue_trypop` that returns `NULL`. -/
inductive Move : History β → History β → Prop
  | push (h h' : History β) (m : β) (hq : h'.mq.queue = (m, h.pushed.length) :: h.mq.queue)
      (hpushed : h'.pushed = h.pushed ++ [m]) (hpopped : h'.popped = h.popped) : Move h h'
  | take (h h' : History β) (x : β × Nat) (hq : h.mq.queue = x :: h'.mq.queue)
      (hpushed : h'.pushed = h.pushed) (hpopped : h'.popped = h.popped ++ [x]) : Move h h'
  | stay (h : History β) : Move h h

/-- A new queue holds nothing, and nothing has been pushed. -/
theorem stacked_init (size : Nat) : (init size : History β).Stacked where
  conserved := by simp [Conserved, init, Queue.empty]
  sorted := by simp [init, Queue.empty]

/-- A tag in a queue is below the number of elements pushed. -/
theorem Stacked.tag_lt {h : History β} (hs : h.Stacked) {x : β × Nat}
    (hx : x ∈ h.mq.queue) : x.2 < h.pushed.length := by
  have hmem : x ∈ h.pushed.zipIdx := hs.conserved.subset (List.mem_append_right _ hx)
  simpa using List.snd_lt_of_mem_zipIdx hmem

/-- No more elements have come out than were pushed. -/
theorem Stacked.length_popped_le {h : History β} (hs : h.Stacked) :
    h.popped.length ≤ h.pushed.length := by
  have hlen := hs.conserved.length_eq
  simp only [List.length_append, List.length_zipIdx] at hlen
  omega

/-- Every operation keeps `Stacked`. -/
theorem Stacked.move {h h' : History β} (hs : h.Stacked) (hm : Move h h') : h'.Stacked := by
  cases hm with
  | push _ m hq hpushed hpopped =>
      constructor
      · have hperm := hs.conserved
        unfold Conserved at hperm ⊢
        rw [hq, hpushed, hpopped, List.zipIdx_append]
        simp only [Nat.zero_add, List.zipIdx_singleton]
        exact List.perm_middle.trans ((hperm.cons _).trans (List.perm_append_singleton _ _).symm)
      · rw [hq, List.pairwise_cons]
        exact ⟨fun x hx => hs.tag_lt hx, hs.sorted⟩
  | take _ x hq hpushed hpopped =>
      constructor
      · have hperm := hs.conserved
        unfold Conserved at hperm ⊢
        rw [hq] at hperm
        rw [hpushed, hpopped, List.append_assoc]
        exact hperm
      · have hsorted := hs.sorted
        rw [hq, List.pairwise_cons] at hsorted
        exact hsorted.2
  | stay => exact hs

/-- When the elements have come out in order, the queue holds the ones not yet out. -/
theorem Stacked.perm_drop {h : History β} (hs : h.Stacked) (hord : h.InOrder) :
    h.mq.queue.Perm (h.pushed.zipIdx.drop h.popped.length) := by
  have hperm := hs.conserved
  unfold Conserved at hperm
  rw [← List.take_append_drop h.popped.length h.pushed.zipIdx, ← hord] at hperm
  exact (List.perm_append_left_iff _).mp hperm

/-- The step lemma of the order. A push and a refused `mqueue_trypop` leave the order as
it is. Taking an element keeps it exactly when the element is alone: the top element has
the largest tag, and the order asks for the smallest. -/
theorem Stacked.inOrder_move {h h' : History β} (hs : h.Stacked) (hm : Move h h') :
    h'.InOrder ↔ h.InOrder ∧ (h'.popped ≠ h.popped → h.mq.depth = 1) := by
  cases hm with
  | push _ m hq hpushed hpopped =>
      have hle := hs.length_popped_le
      simp only [hpopped, ne_eq, not_true_eq_false, false_implies, and_true]
      unfold InOrder
      rw [hpopped, hpushed, List.zipIdx_append, List.take_append_of_le_length (by simpa using hle)]
  | stay => simp
  | take _ x hq hpushed hpopped =>
      have hne : h'.popped ≠ h.popped := by simp [hpopped]
      simp only [hne, ne_eq, not_false_eq_true, true_implies]
      constructor
      · intro hord'
        have hord : h.InOrder := by
          unfold InOrder at hord' ⊢
          rw [hpopped, hpushed, List.length_append] at hord'
          have := congrArg (List.take h.popped.length) hord'
          rw [List.take_left, List.take_take] at this
          simpa using this
        refine ⟨hord, ?_⟩
        have hx : (h.pushed.zipIdx.drop h.popped.length).head? = some x := by
          unfold InOrder at hord'
          rw [hpopped, hpushed] at hord'
          rw [List.head?_drop]
          have := congrArg (fun l => l[h.popped.length]?) hord'
          simp only [List.length_append, List.length_singleton, List.getElem?_concat_length] at this
          rw [this, List.getElem?_take_of_lt (by omega)]
        -- The element taken has the smallest tag of those still in, and so none is below it.
        have hperm := hs.perm_drop hord
        have hrest : h'.mq.queue = [] := by
          rw [List.eq_nil_iff_forall_not_mem]
          intro y hy
          have hsorted := hs.sorted
          rw [hq, List.pairwise_cons] at hsorted
          have hlt := hsorted.1 y hy
          have hy' : y ∈ h.pushed.zipIdx.drop h.popped.length := by
            apply hperm.subset
            rw [hq]
            exact List.mem_cons_of_mem _ hy
          rw [List.head?_drop, List.getElem?_eq_some_iff] at hx
          obtain ⟨hxl, hx⟩ := hx
          obtain ⟨i, hi, hyi⟩ := List.getElem_of_mem hy'
          simp only [List.getElem_drop, List.getElem_zipIdx] at hyi
          simp only [List.getElem_zipIdx] at hx
          have h1 : y.2 = h.popped.length + i := by rw [← hyi]; simp
          have h2 : x.2 = h.popped.length := by rw [← hx]; simp
          omega
        simp [Queue.depth, hq, hrest]
      · rintro ⟨hord, hdepth⟩
        have hrest : h'.mq.queue = [] := by
          simp only [Queue.depth, hq, List.length_cons] at hdepth
          exact List.eq_nil_of_length_eq_zero (by omega)
        have hperm := hs.perm_drop hord
        rw [hq, hrest] at hperm
        have hdrop := List.singleton_perm.mp hperm
        unfold InOrder at hord ⊢
        rw [hpopped, hpushed, List.length_append, List.take_add, ← hord, ← hdrop]
        simp

end History

section Runs

variable {β ι : Type} {step : History β → ι → Except Waits (History β)}
  {takes : History β → ι → Prop}

/-- The run lemma of the order, for any set of operations each of which makes one of the
three moves. `takes` tells which operations take an element. -/
theorem inOrder_iff_alone
    (hmove : ∀ h i h', step h i = .ok h' → History.Move h h')
    (htakes : ∀ h i h', step h i = .ok h' → (takes h i ↔ h'.popped ≠ h.popped))
    {size : Nat} {is : List ι} {h : History β} (hrun : run step (History.init size) is = .ok h) :
    (h.InOrder ∧ h.Conserved) ↔
      Along step (fun h i => takes h i → h.mq.depth = 1) (History.init size) is := by
  have hstacked : ∀ {is : List ι} {h : History β},
      run step (History.init size) is = .ok h → h.Stacked := fun hr =>
    run_invariant (fun s i t hs hst => hs.move (hmove s i t hst)) (History.stacked_init size) hr
  rw [and_iff_left (hstacked hrun).conserved]
  induction is using List.reverseRecOn generalizing h with
  | nil =>
      cases hrun
      simp [Along, History.InOrder, History.init]
  | append_singleton is i ih =>
      obtain ⟨t, ht, hth⟩ := run_concat.mp hrun
      rw [(hstacked ht).inOrder_move (hmove t i h hth), along_concat, iff_iff_eq.mp (ih ht)]
      refine and_congr_right fun _ => ?_
      rw [← htakes t i h hth]
      exact ⟨fun hd u hu => by rw [ht] at hu; cases hu; exact hd, fun hd => hd t ht⟩

end Runs

/-! ### The ingress outq -/

/-- The operations on the ingress outq. `maxsize` is the argument of `mqueue_trypop`. -/
inductive MqueueOp (β : Type)
  | push (m : β)
  | pop
  | trypop (maxsize : Nat)
  deriving DecidableEq, Repr

/-- One operation on the ingress outq completes. `len` is `MBUF_LEN`. -/
def mqueueStep {β : Type} (len : β → Nat) (h : History β) :
    MqueueOp β → Except Waits (History β)
  | .push m =>
      match mqueuePush h.mq (m, h.pushed.length) with
      | none => .error .waits
      | some mq => .ok { h with mq := mq, pushed := h.pushed ++ [m] }
  | .pop =>
      match mqueuePop h.mq with
      | none => .error .waits
      | some (x, mq) => .ok { h with mq := mq, popped := h.popped ++ [x] }
  | .trypop maxsize =>
      match mqueueTrypop (fun x => len x.1) h.mq maxsize with
      | (none, mq) => .ok { h with mq := mq }
      | (some x, mq) => .ok { h with mq := mq, popped := h.popped ++ [x] }

/-- The operation takes an element. A `mqueue_trypop` takes the top one unless it is longer
than a nonzero `maxsize`. -/
def mqueueTakes {β : Type} (len : β → Nat) (h : History β) : MqueueOp β → Prop
  | .push _ => False
  | .pop => True
  | .trypop maxsize => ∃ x rest, h.mq.queue = x :: rest ∧ ¬ (maxsize ≠ 0 ∧ len x.1 > maxsize)

/-- Each operation on the ingress outq pushes, takes or leaves. It takes an element where the
condition says so. The cases are the three functions. -/
theorem mqueueStep_move {β : Type} (len : β → Nat) (h : History β) (op : MqueueOp β)
    (h' : History β) (hst : mqueueStep len h op = .ok h') :
    History.Move h h' ∧ (mqueueTakes len h op ↔ h'.popped ≠ h.popped) := by
  cases op with
  | push m =>
      simp only [mqueueStep, mqueuePush] at hst
      split at hst
      · cases hst
      · rename_i mq hpush
        cases hst
        exact ⟨.push _ _ m (Queue.push_eq_some.mp hpush).1 rfl rfl, by simp [mqueueTakes]⟩
  | pop =>
      simp only [mqueueStep, mqueuePop] at hst
      split at hst
      · cases hst
      · rename_i x mq hpop
        cases hst
        exact ⟨.take _ _ x (Queue.pop_eq_some.mp hpop).1 rfl rfl, by simp [mqueueTakes]⟩
  | trypop maxsize =>
      simp only [mqueueStep, mqueueTrypop] at hst
      cases hpop : h.mq.pop with
      | none =>
          rw [hpop] at hst
          cases hst
          have hq := Queue.pop_eq_none.mp hpop
          exact ⟨.stay h, by simp [mqueueTakes, hq]⟩
      | some p =>
          obtain ⟨x, mq⟩ := p
          have hq := (Queue.pop_eq_some.mp hpop).1
          rw [hpop] at hst
          by_cases hbig : maxsize ≠ 0 ∧ len x.1 > maxsize
          · simp only [if_pos hbig] at hst
            cases hst
            refine ⟨.stay h, ?_⟩
            simp only [mqueueTakes, hq, List.cons.injEq, ne_eq, not_true_eq_false, iff_false]
            rintro ⟨y, rest, ⟨rfl, -⟩, hy⟩
            exact hy hbig
          · simp only [if_neg hbig] at hst
            cases hst
            refine ⟨.take _ _ x hq rfl rfl, ?_⟩
            simp only [ne_eq, List.append_right_eq_self, List.cons_ne_self, not_false_eq_true,
              iff_true]
            exact ⟨x, mq.queue, hq, hbig⟩

/-! ### The egress outq -/

/-- The operations on the egress outq. -/
inductive MiovqOp (β : Type)
  | push (m : β)
  | pop
  deriving DecidableEq, Repr

/-- One operation on the egress outq completes. -/
def miovqStep {β : Type} (h : History β) : MiovqOp β → Except Waits (History β)
  | .push m =>
      match miovqPush h.mq (m, h.pushed.length) with
      | none => .error .waits
      | some mq => .ok { h with mq := mq, pushed := h.pushed ++ [m] }
  | .pop =>
      match miovqPop h.mq with
      | none => .error .waits
      | some (x, mq) => .ok { h with mq := mq, popped := h.popped ++ [x] }

/-- The same on the egress outq, which has no `trypop`. -/
theorem miovqStep_move {β : Type} (h : History β) (op : MiovqOp β) (h' : History β)
    (hst : miovqStep h op = .ok h') :
    History.Move h h' ∧ (op = .pop ↔ h'.popped ≠ h.popped) := by
  cases op with
  | push m =>
      simp only [miovqStep, miovqPush] at hst
      split at hst
      · cases hst
      · rename_i mq hpush
        cases hst
        exact ⟨.push _ _ m (Queue.push_eq_some.mp hpush).1 rfl rfl, by simp⟩
  | pop =>
      simp only [miovqStep, miovqPop] at hst
      split at hst
      · cases hst
      · rename_i x mq hpop
        cases hst
        exact ⟨.take _ _ x (Queue.pop_eq_some.mp hpop).1 rfl rfl, by simp⟩

/-! ### The order of the two outqs -/

/-- On the ingress outq and on the egress outq, over every interleaving of a producer and
a consumer: the elements come out in the order they were pushed, each once and none lost,
exactly when every operation that takes an element finds a depth of one. -/
theorem outq_inOrder_iff_alone (size size' : Nat) (is : List (MqueueOp Mbuf))
    (js : List (MiovqOp Miov)) (h : History Mbuf) (g : History Miov)
    (hrun : run (mqueueStep Mbuf.len) (History.init size) is = .ok h)
    (grun : run miovqStep (History.init size') js = .ok g) :
    ((h.InOrder ∧ h.Conserved) ↔ Along (mqueueStep Mbuf.len)
      (fun h i => mqueueTakes Mbuf.len h i → h.mq.depth = 1) (History.init size) is) ∧
    ((g.InOrder ∧ g.Conserved) ↔ Along miovqStep
      (fun h i => i = .pop → h.mq.depth = 1) (History.init size') js) := by
  constructor
  · exact inOrder_iff_alone (fun h i h' hst => (mqueueStep_move _ h i h' hst).1)
      (fun h i h' hst => (mqueueStep_move _ h i h' hst).2) hrun
  · exact inOrder_iff_alone (fun h i h' hst => (miovqStep_move h i h' hst).1)
      (fun h i h' hst => (miovqStep_move h i h' hst).2) grun

/-- Turns on the ingress outq. -/
def turnsOut : List (MqueueOp Mbuf) :=
  [.push ⟨0, [0x45], 0⟩, .trypop 0, .push ⟨1, [0x46], 0⟩, .pop]

/-- Turns on the egress outq. -/
def turnsBack : List (MiovqOp Miov) :=
  [.push ⟨[⟨0, 8, [0x45]⟩], 1, 0⟩, .pop, .push ⟨[⟨1, 8, [0x46]⟩], 1, 0⟩, .pop]

/-- Producer and consumer take turns on both queues, so each element that is taken is alone. -/
theorem outq_inOrder_turns : ∃ h g,
    run (mqueueStep Mbuf.len) (History.init INNERQSZ) turnsOut = .ok h ∧
    run miovqStep (History.init OUTERQSZ) turnsBack = .ok g ∧
    h.popped = [(⟨0, [0x45], 0⟩, 0), (⟨1, [0x46], 0⟩, 1)] ∧ h.InOrder ∧ h.Conserved ∧
    g.popped.map Prod.snd = [0, 1] ∧ g.InOrder ∧ g.Conserved := by
  obtain ⟨h, hrun, hpopped⟩ : ∃ h,
      run (mqueueStep Mbuf.len) (History.init INNERQSZ) turnsOut = .ok h ∧
        h.popped = [(⟨0, [0x45], 0⟩, 0), (⟨1, [0x46], 0⟩, 1)] := ⟨_, rfl, rfl⟩
  obtain ⟨g, grun, gpopped⟩ : ∃ g, run miovqStep (History.init OUTERQSZ) turnsBack = .ok g ∧
      g.popped.map Prod.snd = [0, 1] := ⟨_, rfl, rfl⟩
  obtain ⟨hiff, giff⟩ := outq_inOrder_iff_alone INNERQSZ OUTERQSZ _ _ h g hrun grun
  have halone := hiff.mpr (by simp [turnsOut, Along, mqueueStep, mqueueTakes, mqueuePush,
    mqueuePop, mqueueTrypop, Queue.push, Queue.pop, Queue.depth, Queue.empty, History.init,
    INNERQSZ])
  have galone := giff.mpr (by simp [turnsBack, Along, miovqStep, miovqPush, miovqPop, Queue.push,
    Queue.pop, Queue.depth, Queue.empty, History.init, OUTERQSZ])
  exact ⟨h, g, hrun, grun, hpopped, halone.1, halone.2, gpopped, galone.1, galone.2⟩

/-- Two elements pushed before the consumer runs come out in the other order, on either
queue. -/
theorem outq_not_inOrder :
    ¬ ((∀ (is : List (MqueueOp Mbuf)) (h : History Mbuf),
        run (mqueueStep Mbuf.len) (History.init INNERQSZ) is = .ok h →
        h.InOrder ∧ h.Conserved) ∧
      (∀ (is : List (MiovqOp Miov)) (h : History Miov),
        run miovqStep (History.init OUTERQSZ) is = .ok h → h.InOrder ∧ h.Conserved)) := by
  rintro ⟨hall, -⟩
  have h := (hall [.push ⟨0, [0x45], 0⟩, .push ⟨1, [0x46], 0⟩, .trypop 0]
    ⟨⟨256, [(⟨0, [0x45], 0⟩, 0)], by decide⟩, [⟨0, [0x45], 0⟩, ⟨1, [0x46], 0⟩],
      [(⟨1, [0x46], 0⟩, 1)]⟩ rfl).1
  revert h
  unfold History.InOrder
  decide

end Iptfs.Proofs
