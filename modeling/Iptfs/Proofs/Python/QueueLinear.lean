import Iptfs.Lib.Linear
import Iptfs.Model.Mbuf
import Iptfs.Proofs.Python.QueueWakeups

/-!
# `Iptfs.Proofs.Python.QueueLinear`: a method of an `MQueue` is one step

The models of the Python threads take each method of an `MQueue` as one step on a `Queue`. This
module connects them to the methods with their lock and conditions (`Iptfs.Python.QueueLock`), by
the rule that `Iptfs.Proofs.QueueLinear` uses for the C queues.

`trypop` misses a wake-up where the queue is not full. That delays a pusher, and it shows here
nowhere: what the calls return, and what is left in the queue, is right in every run.
-/

set_option autoImplicit false

namespace Iptfs.Py

open Iptfs.Lib Iptfs.Lib.Monitor

variable {ι β : Type}

/-- What a method of an `MQueue` does at once, on the queue without the lock. -/
inductive MQueueDoes : Queue β → MQueueCall β → Option β → Queue β → Prop
  | pop {q q' : Queue β} {m : β} (h : q.pop = some (m, q')) : MQueueDoes q .pop (some m) q'
  | trypop {q q' : Queue β} {m : β} (h : q.pop = some (m, q')) : MQueueDoes q .trypop (some m) q'
  | trypopNone {q : Queue β} (h : q.pop = none) : MQueueDoes q .trypop none q
  | push {q q' : Queue β} {m : β} (h : q.push m = some q') : MQueueDoes q (.push m) none q'

/-- The element that a call has put there. -/
def MQueueCall.gave : MQueueCall β → Option β
  | .push m => some m
  | .pop | .trypop => none

namespace Proofs

/-- The list and its bound are what the queue is. -/
structure Represents (mq : MQueue β) (q : Queue β) : Prop where
  size : q.size = mq.mcount
  queue : q.queue = mq.mbufs.reverse

/-- A new queue without buffers of its own is empty. -/
theorem represents_new (count : Nat) (mbuf : Nat → β) :
    Represents (MQueue.init count mbuf false) (Queue.empty count) := ⟨rfl, rfl⟩

/-- A queue that manages its buffers starts with all of them. -/
theorem represents_manage (count : Nat) (mbuf : Nat → β) :
    Represents (MQueue.init count mbuf true) (mqueueNewFreeq count mbuf) where
  size := rfl
  queue := List.map_reverse

section Does

variable {mq : MQueue β} {q : Queue β}

/-- The end of the list is the top. -/
theorem mbufs_eq_take (hne : ¬ mq.Empty) :
    ∃ m, mq.mbufs.getLast? = some m ∧ mq.mbufs.reverse = m :: mq.take.mbufs.reverse := by
  have hne' : mq.mbufs ≠ [] := hne
  refine ⟨mq.mbufs.getLast hne', List.getLast?_eq_some_getLast hne', ?_⟩
  have hsplit := List.dropLast_append_getLast hne'
  calc mq.mbufs.reverse = (mq.mbufs.dropLast ++ [mq.mbufs.getLast hne']).reverse := by rw [hsplit]
    _ = mq.mbufs.getLast hne' :: mq.mbufs.dropLast.reverse := by
        rw [List.reverse_append, List.reverse_singleton, List.singleton_append]

/-- A pop of the list takes its end, which is the top of the queue. -/
theorem Represents.pop (h : Represents mq q) (hne : ¬ mq.Empty) :
    ∃ m q', mq.mbufs.getLast? = some m ∧ q.pop = some (m, q') ∧ Represents mq.take q' := by
  obtain ⟨m, hlast, hrev⟩ := mbufs_eq_take hne
  obtain ⟨q', hpop, hrest, hsize⟩ := Queue.exists_pop (h.queue.trans hrev)
  exact ⟨m, q', hlast, hpop, hsize.trans h.size, hrest⟩

/-- Where the list is empty, the queue has nothing to pop. -/
theorem Represents.pop_none (h : Represents mq q) (hempty : mq.Empty) : q.pop = none := by
  have hnil : mq.mbufs = [] := hempty
  rw [Queue.pop_eq_none, h.queue, hnil]
  rfl

/-- A push puts the element at the end, which is the new top. -/
theorem Represents.push (h : Represents mq q) (hne : ¬ mq.Full) (m : β) :
    ∃ q', q.push m = some q' ∧ Represents (mq.put m) q' := by
  have hlt : mq.mbufs.length < mq.mcount := Nat.lt_of_not_le hne
  have hroom : q.queue.length < q.size := by
    rw [h.queue, h.size, List.length_reverse]
    exact hlt
  obtain ⟨q', hpush, hqueue, hsize⟩ := Queue.exists_push hroom m
  refine ⟨q', hpush, hsize.trans h.size, ?_⟩
  rw [hqueue, h.queue, MQueue.put, List.reverse_append, List.reverse_singleton,
    List.singleton_append]

end Does

/-- The method that a location is in. -/
def MQueueIn (f : MQueueCall β) : MQueueLoc β → Prop
  | .pop _ | .popTake _ => f = .pop
  | .trypop | .trypopTake => f = .trypop
  | .push m _ | .pushPut m _ => f = .push m

/-- The turn of `trypop` that looks, and takes where the queue is not full. -/
theorem trypop_leave {mq mq' : MQueue β} {q : Queue β} {r : Option β} (habs : Represents mq q)
    (hact : trypopAt mq = .leave mq' r) :
    ∃ q', MQueueDoes q .trypop r q' ∧ Represents mq' q' := by
  rw [trypopAt] at hact
  split at hact
  · rename_i hempty
    cases hact
    exact ⟨q, .trypopNone (habs.pop_none hempty), habs⟩
  · rename_i hne
    split at hact
    · cases hact
    · cases hact
      obtain ⟨m, q', hlast, hpop, hrep⟩ := habs.pop hne
      rw [hlast]
      exact ⟨q', .trypop hpop, hrep⟩

/-- Each call is one operation of the sequential queue, done where the thread leaves the lock. A
thread that waits or notifies has not changed the list, and it is still in the method that it
called. -/
theorem mqueueAtomic :
    Atomic (mqueueCode β) MQueueHolds MQueueIn Represents MQueueDoes where
  start := by
    intro f
    cases f <;> rfl
  wait := by
    intro f l mq k l' hown hact
    cases mqueue_moves_of_eq hact <;> exact hown
  signal := by
    intro f l mq k l' hown hholds hact
    cases mqueue_moves_of_eq hact <;> exact hown
  leave := by
    intro f l mq q mq' r hown hholds habs hact
    cases l with
    | pop waited => cases mqueue_moves_of_eq hact
    | push m waited => cases mqueue_moves_of_eq hact
    | popTake waited =>
        cases hact
        rw [show f = .pop from hown]
        obtain ⟨m, q', hlast, hpop, hrep⟩ := habs.pop hholds.2
        rw [hlast]
        exact ⟨q', .pop hpop, hrep⟩
    | trypop =>
        rw [show f = .trypop from hown]
        exact trypop_leave habs hact
    | trypopTake =>
        cases hact
        rw [show f = .trypop from hown]
        obtain ⟨m, q', hlast, hpop, hrep⟩ := habs.pop hholds.2
        rw [hlast]
        exact ⟨q', .trypop hpop, hrep⟩
    | pushPut m waited =>
        cases hact
        rw [show f = .push m from hown]
        obtain ⟨q', hpush, hrep⟩ := habs.push hholds.2 m
        exact ⟨q', .push hpush, hrep⟩

/-! ### Runs -/

/-- What one method does to the elements. -/
theorem mqueueDoes_queue {q q' : Queue β} {f : MQueueCall β} {r : Option β}
    (h : MQueueDoes q f r q') : (r.toList ++ q'.queue).Perm (f.gave.toList ++ q.queue) := by
  cases h with
  | pop hpop =>
      rw [(Queue.pop_eq_some.mp hpop).1]
      exact List.Perm.refl _
  | trypop hpop =>
      rw [(Queue.pop_eq_some.mp hpop).1]
      exact List.Perm.refl _
  | trypopNone hpop => exact List.Perm.refl _
  | push hpush =>
      rw [(Queue.push_eq_some.mp hpush).1]
      exact List.Perm.refl _

/-- An `MQueue` is linearizable, with its buffers in it or without. For any number of threads,
whatever their steps, the calls that have returned are operations of the queue without the lock, one
after the other, in the order in which they returned. Each element that was pushed has been returned
by one call, or it is in the queue once. -/
theorem mqueue_linearizable [DecidableEq ι] [Fintype ι] (count : Nat) (mbuf : Nat → β)
    (manage : Bool)
    (s : Recorded ι MQueueCond (MQueue β) (MQueueCall β) (MQueueLoc β) (Option β))
    (h : Reachable (recordedStep (mqueueCode β)) (.init (.init count mbuf manage)) s) :
    ∃ q, Sequential MQueueDoes (if manage then mqueueNewFreeq count mbuf else Queue.empty count)
        s.log q ∧
      q.queue = s.state.data.mbufs.reverse ∧
      ((s.log.filterMap fun op => op.ret) ++ s.state.data.mbufs.reverse).Perm
        ((s.log.filterMap fun op => op.call.gave) ++
          (MQueue.init count mbuf manage).mbufs.reverse) := by
  have habs : Represents (MQueue.init count mbuf manage)
      (if manage then mqueueNewFreeq count mbuf else Queue.empty count) := by
    cases manage with
    | true => exact represents_manage count mbuf
    | false => exact represents_new count mbuf
  have hok : RoomOk (MQueue.init count mbuf manage) := by
    cases manage with
    | true =>
        show ((List.range count).map mbuf).length ≤ count
        rw [List.length_map, List.length_range]
    | false => exact Nat.zero_le _
  obtain ⟨q, hseq, hrep⟩ := linear_of_reachable mqueueAtomic mqueueVerified hok habs h
  refine ⟨q, hseq, hrep.queue, ?_⟩
  rw [← hrep.queue, ← habs.queue]
  exact hseq.conserved fun _ _ _ _ hdoes => mqueueDoes_queue hdoes

/-- One thread sleeps in `pop`, and another one pushes. -/
def popSleeps : List (Event Bool (MQueueCall Nat)) :=
  [.call false .pop, .lock false, .turn false none,
    .call true (.push 7), .lock true, .turn true (some false), .turn true none,
    .lock false, .turn false none, .turn false none]

/-- Applied where a pop sleeps first and the push of another thread returns before it. -/
theorem mqueue_linearizable_two : ∃ s q,
    run (recordedStep (mqueueCode Nat)) (.init (.init 4 id false)) popSleeps = .ok s ∧
      s.log.map (fun op => op.thread) = [true, false] ∧
      Sequential MQueueDoes (Queue.empty 4) s.log q ∧ q.queue = [] := by
  have hends : (run (recordedStep (mqueueCode Nat)) (.init (.init 4 id false)) popSleeps).map
      (fun s => (s.log.map fun op => op.thread, s.state.data.mbufs)) = .ok ([true, false], []) := by
    decide +kernel
  cases hrun : run (recordedStep (mqueueCode Nat)) (.init (.init 4 id false)) popSleeps with
  | error e =>
      rw [hrun] at hends
      cases hends
  | ok s =>
      rw [hrun] at hends
      obtain ⟨hthreads, hmbufs⟩ := Prod.mk.inj (Except.ok.inj hends)
      obtain ⟨q, hseq, hqueue, -⟩ := mqueue_linearizable 4 (id : Nat → Nat) false s ⟨_, hrun⟩
      refine ⟨s, q, rfl, hthreads, hseq, ?_⟩
      rw [hqueue]
      exact congrArg List.reverse hmbufs

end Proofs

end Iptfs.Py
