import Iptfs.Lib.Linear
import Iptfs.Model.Mbuf
import Iptfs.Proofs.QueueWakeups

/-!
# `Iptfs.Proofs.QueueLinear`: a queue operation is one step

The models of the threads take each queue operation as one step on a `Queue`. The code takes
several, with a lock and two condition variables (`Iptfs.Model.QueueLock`), and it takes them on an
array and an `int`. This module connects the two: whatever the threads do, the calls that have
returned are operations on a `Queue`, one after the other, in the order in which they returned.

`mqueue_trypop` is the one to look at. It reads the mbuf on top, signals, and only then takes it
away, and what it read has to be the top still (`TopRead`).

`queue_linearizable` is the result.
-/

set_option autoImplicit false

namespace Iptfs

open Iptfs.Lib Iptfs.Lib.Monitor

variable {ι β : Type}

/-- What a function of a queue does at once, on the queue without the lock. `len` is `MBUF_LEN`. A
call that waits does nothing, until it can go on. -/
inductive QueueDoes (len : β → Nat) : Queue β → QueueCall β → QueueRet β → Queue β → Prop
  | pop {q q' : Queue β} {m : β} (h : mqueuePop q = some (m, q')) :
      QueueDoes len q .pop (.mbuf (some m)) q'
  | wait {q : Queue β} (h : q.queue ≠ []) : QueueDoes len q .wait .void q
  | trypop {q q' : Queue β} {maxsize : Nat} {m : Option β}
      (h : mqueueTrypop len q maxsize = (m, q')) :
      QueueDoes len q (.trypop maxsize) (.mbuf m) q'
  /-- No mbuf is that short. -/
  | trypopNeg {q : Queue β} {maxsize : Int} (h : maxsize < 0) :
      QueueDoes len q (.trypop maxsize) (.mbuf none) q
  | push {q q' : Queue β} {m : β} (h : mqueuePush q m = some q') :
      QueueDoes len q (.push m) (.depth q'.depth) q'

/-- The elements in the array, the top first. -/
def QueueData.contents (mq : QueueData β) : List β :=
  (List.range mq.depth.toNat).reverse.map fun n : Nat => mq.queue n

/-- The element that a call has taken from the queue. -/
def QueueRet.took : QueueRet β → Option β
  | .mbuf m => m
  | .depth _ | .void => none

/-- The element that a call has put there. -/
def QueueCall.gave : QueueCall β → Option β
  | .push m => some m
  | .pop | .wait | .trypop _ => none

namespace Proofs

/-- The array and the `int` are what the queue is. -/
structure Represents (mq : QueueData β) (q : Queue β) : Prop where
  size : q.size = mq.size
  queue : q.queue = mq.contents

/-- A new queue is empty, whatever is in the memory of its array. -/
theorem represents_new (size : Nat) (memory : Int → β) :
    Represents (QueueData.new size memory) (Queue.empty size) := ⟨rfl, rfl⟩

/-- A new free queue is full of the mbufs that the loop of the constructor puts there, the last
one on top. -/
theorem represents_newFreeq (size : Nat) (memory : Int → β) :
    Represents (QueueData.newFreeq size memory) (mqueueNewFreeq size fun n => memory n) where
  size := rfl
  queue := by
    show _ = (List.range ((size : Int).toNat)).reverse.map fun n : Nat => memory n
    rw [Int.toNat_natCast]
    rfl

/-- Without depth there are no elements. -/
theorem contents_eq_nil {mq : QueueData β} (h : mq.Empty) : mq.contents = [] := by
  have hzero : mq.depth = 0 := h
  rw [QueueData.contents, hzero]
  rfl

/-- The top of the array, and what is below it. -/
theorem contents_take {size : Nat} {mq : QueueData β} (hok : DepthOk size mq) (hne : ¬ mq.Empty) :
    mq.contents = mq.last :: mq.take.contents := by
  have hpos := hok.2.1
  have hzero : mq.depth ≠ 0 := hne
  have hdepth : mq.depth.toNat = (mq.depth - 1).toNat + 1 := by omega
  have htop : ((mq.depth - 1).toNat : Int) = mq.depth - 1 := Int.toNat_of_nonneg (by omega)
  have hlast : mq.queue ((mq.depth - 1).toNat : Int) = mq.last := by
    rw [htop]
    rfl
  rw [QueueData.contents, hdepth, List.range_succ, List.reverse_append, List.reverse_singleton,
    List.singleton_append, List.map_cons, hlast]
  rfl

/-- What is put on top hides nothing. -/
theorem contents_put {size : Nat} {mq : QueueData β} (hok : DepthOk size mq) (m : β) :
    (mq.put m).contents = m :: mq.contents := by
  have hpos := hok.2.1
  have htop : (mq.depth.toNat : Int) = mq.depth := Int.toNat_of_nonneg hpos
  have hdepth : (mq.put m).depth.toNat = mq.depth.toNat + 1 := by
    show (mq.depth + 1).toNat = _
    omega
  have hself : (mq.put m).queue (mq.depth.toNat : Int) = m := by
    rw [htop]
    exact Function.update_self _ _ _
  have hbelow : ∀ n ∈ (List.range mq.depth.toNat).reverse,
      (mq.put m).queue (n : Int) = mq.queue n := by
    intro n hn
    have hlt := List.mem_range.mp (List.mem_reverse.mp hn)
    have hother : (n : Int) ≠ mq.depth := by omega
    exact Function.update_of_ne hother _ _
  rw [QueueData.contents, hdepth, List.range_succ, List.reverse_append, List.reverse_singleton,
    List.singleton_append, List.map_cons, hself, List.map_congr_left hbelow]
  rfl

section Does

variable {len : β → Nat} {size : Nat} {mq : QueueData β} {q : Queue β}

/-- The queue without the lock can be popped when there is something in the array. -/
theorem Represents.pop (h : Represents mq q) (hok : DepthOk size mq) (hne : ¬ mq.Empty) :
    ∃ q', q.pop = some (mq.last, q') ∧ Represents mq.take q' := by
  have hqueue : q.queue = mq.last :: mq.take.contents := by rw [h.queue, contents_take hok hne]
  obtain ⟨q', hpop, hrest, hsize⟩ := Queue.exists_pop hqueue
  exact ⟨q', hpop, hsize.trans h.size, hrest⟩

/-- And it can be pushed on when the array has room. -/
theorem Represents.push (h : Represents mq q) (hok : DepthOk size mq) (hne : ¬ mq.Full) (m : β) :
    ∃ q', q.push m = some q' ∧ (q'.depth : Int) = mq.depth + 1 ∧ Represents (mq.put m) q' := by
  obtain ⟨hsize, hpos, hle⟩ := hok
  have hne' : mq.depth ≠ mq.size := hne
  have hlen : q.queue.length = mq.depth.toNat := by
    rw [h.queue, QueueData.contents, List.length_map, List.length_reverse, List.length_range]
  have hroom : q.queue.length < q.size := by
    rw [hlen, h.size]
    omega
  obtain ⟨q', hpush, hqueue, hsize'⟩ := Queue.exists_push hroom m
  refine ⟨q', hpush, ?_, hsize'.trans h.size, ?_⟩
  · rw [Queue.depth, hqueue, List.length_cons, hlen]
    omega
  · rw [hqueue, h.queue, contents_put ⟨hsize, hpos, hle⟩]

end Does

/-- The mbuf that `mqueue_trypop` has read is on top. -/
def TopRead : QueueLoc β → QueueData β → Prop
  | .trypopTake m, mq => m = mq.last
  | _, _ => True

/-- The function that a location is in. Past its tests `mqueue_trypop` has an mbuf that is short
enough. -/
def QueueIn (len : β → Int) (f : QueueCall β) : QueueLoc β → Prop
  | .pop _ | .popTake _ => f = .pop
  | .wait _ => f = .wait
  | .trypop maxsize => f = .trypop maxsize
  | .trypopTake m => ∃ maxsize, f = .trypop maxsize ∧ ¬ (maxsize ≠ 0 ∧ len m > maxsize)
  | .push m _ | .pushPut m _ => f = .push m

/-- What holds at each location, the mbuf on top included. -/
theorem queueVerified_top (len : β → Int) (size : Nat) :
    Verified (queueCode len) QueueEntry (DepthOk size)
      fun l mq => QueueHolds size l mq ∧ TopRead l mq := by
  apply (queueVerified len size).and
  · intro l mq hl
    cases l with
    | trypopTake m => cases hl
    | _ => trivial
  · intro l mq k l' hl hact
    cases l with
    | trypop maxsize =>
        replace hact : mqueueTrypopAt len maxsize mq = .signal k l' := hact
        rw [mqueueTrypopAt] at hact
        split at hact
        · cases hact
        · split at hact
          · cases hact
          · cases hact
            rfl
    | pop waited =>
        cases queue_moves_of_eq hact
        trivial
    | push m waited =>
        cases queue_moves_of_eq hact
        trivial
    | wait waited => cases queue_moves_of_eq hact
    | popTake waited => cases queue_moves_of_eq hact
    | trypopTake m => cases queue_moves_of_eq hact
    | pushPut m waited => cases queue_moves_of_eq hact

/-- The first turn of `mqueue_trypop` returns `NULL`. -/
theorem trypop_leave (len : β → Nat) {size : Nat} {maxsize : Int} {mq mq' : QueueData β}
    {q : Queue β} {r : QueueRet β} (hok : DepthOk size mq) (habs : Represents mq q)
    (hact : mqueueTrypopAt (fun m => (len m : Int)) maxsize mq = .leave mq' r) :
    mq' = mq ∧ QueueDoes len q (.trypop maxsize) r q := by
  rw [mqueueTrypopAt] at hact
  by_cases hneg : maxsize < 0
  · -- Any length is too long.
    split at hact
    · cases hact
      exact ⟨rfl, .trypopNeg hneg⟩
    · split at hact
      · cases hact
        exact ⟨rfl, .trypopNeg hneg⟩
      · rename_i hshort
        exact absurd ⟨by omega, by omega⟩ hshort
  · obtain ⟨n, rfl⟩ := Int.eq_ofNat_of_zero_le (by omega : 0 ≤ maxsize)
    split at hact
    · rename_i hempty
      cases hact
      have hpop : q.pop = none := by
        rw [Queue.pop_eq_none, habs.queue, contents_eq_nil hempty]
      refine ⟨rfl, .trypop ?_⟩
      rw [mqueueTrypop, hpop]
    · rename_i hne
      split at hact
      · rename_i hlong
        cases hact
        obtain ⟨q', hpop, -⟩ := habs.pop hok hne
        refine ⟨rfl, .trypop ?_⟩
        rw [mqueueTrypop, hpop]
        exact if_pos (by omega)
      · cases hact

/-- The second one takes the mbuf that it has read. -/
theorem trypopTake_leave (len : β → Nat) {size : Nat} {maxsize : Int} {mq : QueueData β}
    {q : Queue β} (hok : DepthOk size mq) (hne : ¬ mq.Empty) (habs : Represents mq q)
    (hshort : ¬ (maxsize ≠ 0 ∧ (len mq.last : Int) > maxsize)) :
    ∃ q', QueueDoes len q (.trypop maxsize) (.mbuf (some mq.last)) q' ∧
      Represents mq.take q' := by
  obtain ⟨n, rfl⟩ := Int.eq_ofNat_of_zero_le (by omega : 0 ≤ maxsize)
  obtain ⟨q', hpop, hrep⟩ := habs.pop hok hne
  refine ⟨q', .trypop ?_, hrep⟩
  rw [mqueueTrypop, hpop]
  exact if_neg (by omega)

/-- A call that returns does what the operation does. -/
theorem queue_leave (len : β → Nat) {size : Nat} {f : QueueCall β} {l : QueueLoc β}
    {mq mq' : QueueData β} {q : Queue β} {r : QueueRet β}
    (hown : QueueIn (fun m => (len m : Int)) f l)
    (hholds : QueueHolds size l mq ∧ TopRead l mq) (habs : Represents mq q)
    (hact : (queueCode fun m => (len m : Int)).action l mq = .leave mq' r) :
    ∃ q', QueueDoes len q f r q' ∧ Represents mq' q' := by
  obtain ⟨⟨hok, hat⟩, htop⟩ := hholds
  cases l with
  | pop waited => cases queue_moves_of_eq hact
  | push m waited => cases queue_moves_of_eq hact
  | popTake waited =>
      cases hact
      rw [show f = .pop from hown]
      obtain ⟨q', hpop, hrep⟩ := habs.pop hok hat
      exact ⟨q', .pop hpop, hrep⟩
  | wait waited =>
      rw [show f = .wait from hown]
      replace hact : mqueueWaitAt mq = .leave mq' r := hact
      rw [mqueueWaitAt] at hact
      split at hact
      · cases hact
      · rename_i hne
        cases hact
        refine ⟨q, .wait ?_, habs⟩
        rw [habs.queue, contents_take hok hne]
        exact List.cons_ne_nil _ _
  | trypop maxsize =>
      rw [show f = .trypop maxsize from hown]
      obtain ⟨rfl, hdoes⟩ := trypop_leave len hok habs hact
      exact ⟨q, hdoes, habs⟩
  | trypopTake m =>
      obtain ⟨maxsize, rfl, hshort⟩ := hown
      cases hact
      have hm : m = mq.last := htop
      subst hm
      exact trypopTake_leave len hok hat habs hshort
  | pushPut m waited =>
      cases hact
      rw [show f = .push m from hown]
      obtain ⟨q', hpush, hdepth, hrep⟩ := habs.push hok hat m
      rw [← hdepth]
      exact ⟨q', .push hpush, hrep⟩

/-- Each call is one operation of the sequential queue, done where the thread leaves the lock. A
thread that waits or signals has not changed the queue, and it is still in the function that it
called. -/
theorem queueAtomic (len : β → Nat) (size : Nat) :
    Atomic (queueCode fun m => (len m : Int))
      (fun l mq => QueueHolds size l mq ∧ TopRead l mq) (QueueIn fun m => (len m : Int))
      Represents (QueueDoes len) where
  start := by
    intro f
    cases f <;> rfl
  wait := by
    intro f l mq k l' hown hact
    cases queue_moves_of_eq hact <;> exact hown
  signal := by
    intro f l mq k l' hown hholds hact
    cases l with
    | trypop maxsize =>
        replace hact : mqueueTrypopAt (fun m => (len m : Int)) maxsize mq = .signal k l' := hact
        rw [mqueueTrypopAt] at hact
        split at hact
        · cases hact
        · split at hact
          · cases hact
          · rename_i hshort
            cases hact
            exact ⟨maxsize, hown, hshort⟩
    | pop waited =>
        cases queue_moves_of_eq hact
        exact hown
    | push m waited =>
        cases queue_moves_of_eq hact
        exact hown
    | wait waited => cases queue_moves_of_eq hact
    | popTake waited => cases queue_moves_of_eq hact
    | trypopTake m => cases queue_moves_of_eq hact
    | pushPut m waited => cases queue_moves_of_eq hact
  leave := fun _ _ _ _ _ _ hown hholds habs hact => queue_leave len hown hholds habs hact

/-! ### Runs -/

/-- What one operation does to the elements. -/
theorem queueDoes_queue {len : β → Nat} {q q' : Queue β} {f : QueueCall β} {r : QueueRet β}
    (h : QueueDoes len q f r q') :
    (r.took.toList ++ q'.queue).Perm (f.gave.toList ++ q.queue) := by
  cases h with
  | pop hpop =>
      rw [(Queue.pop_eq_some.mp hpop).1]
      exact List.Perm.refl _
  | wait hne => exact List.Perm.refl _
  | trypop hpop =>
      unfold mqueueTrypop at hpop
      split at hpop
      · cases hpop
        exact List.Perm.refl _
      · rename_i top rest hrest
        split at hpop
        · cases hpop
          exact List.Perm.refl _
        · cases hpop
          rw [(Queue.pop_eq_some.mp hrest).1]
          exact List.Perm.refl _
  | trypopNeg hneg => exact List.Perm.refl _
  | push hpush =>
      rw [(Queue.push_eq_some.mp hpush).1]
      exact List.Perm.refl _

variable [DecidableEq ι] [Fintype ι]

/-- A run from data that represent a queue. -/
theorem queue_sequential (len : β → Nat) {size : Nat} {mq : QueueData β} {q : Queue β}
    (hok : DepthOk size mq) (habs : Represents mq q)
    {s : Recorded ι QueueCond (QueueData β) (QueueCall β) (QueueLoc β) (QueueRet β)}
    (h : Reachable (recordedStep (queueCode fun m => (len m : Int))) (.init mq) s) :
    ∃ q', Sequential (QueueDoes len) q s.log q' ∧ q'.queue = s.state.data.contents ∧
      ((s.log.filterMap fun op => op.ret.took) ++ s.state.data.contents).Perm
        ((s.log.filterMap fun op => op.call.gave) ++ q.queue) := by
  obtain ⟨q', hseq, hrep⟩ :=
    linear_of_reachable (queueAtomic len size) (queueVerified_top _ size) hok habs h
  refine ⟨q', hseq, hrep.queue, ?_⟩
  rw [← hrep.queue]
  exact hseq.conserved fun _ _ _ _ hdoes => queueDoes_queue hdoes

/-- The queues are linearizable. For any number of threads on an `mqueue` or a `miovq`, whatever
their steps and wake-ups, the calls that have returned are operations of the queue without the lock,
one after the other, in the order in which they returned, and the array is what that queue has come
to. Each element that was pushed has been taken by one call, or it is in the array once. -/
theorem queue_linearizable (len : β → Nat) (size : Nat) (memory : Int → β)
    (s : Recorded ι QueueCond (QueueData β) (QueueCall β) (QueueLoc β) (QueueRet β)) :
    (Reachable (recordedStep (queueCode fun m => (len m : Int)))
        (.init (QueueData.new size memory)) s →
      ∃ q, Sequential (QueueDoes len) (Queue.empty size) s.log q ∧
        q.queue = s.state.data.contents ∧
        ((s.log.filterMap fun op => op.ret.took) ++ s.state.data.contents).Perm
          (s.log.filterMap fun op => op.call.gave)) ∧
      (Reachable (recordedStep (queueCode fun m => (len m : Int)))
          (.init (QueueData.newFreeq size memory)) s →
        ∃ q, Sequential (QueueDoes len) (mqueueNewFreeq size fun n => memory n) s.log q ∧
          q.queue = s.state.data.contents ∧
          ((s.log.filterMap fun op => op.ret.took) ++ s.state.data.contents).Perm
            ((s.log.filterMap fun op => op.call.gave) ++
              (mqueueNewFreeq size fun n => memory n).queue)) := by
  constructor
  · intro h
    have hok : DepthOk size (QueueData.new size memory) :=
      ⟨rfl, Int.le_refl 0, Int.natCast_nonneg size⟩
    obtain ⟨q, hseq, hqueue, hperm⟩ := queue_sequential len hok (represents_new size memory) h
    rw [show (Queue.empty size : Queue β).queue = [] from rfl, List.append_nil] at hperm
    exact ⟨q, hseq, hqueue, hperm⟩
  · intro h
    have hok : DepthOk size (QueueData.newFreeq size memory) :=
      ⟨rfl, Int.natCast_nonneg size, Int.le_refl _⟩
    exact queue_sequential len hok (represents_newFreeq size memory) h

/-- One thread sleeps in `mqueue_pop`, and another one pushes. -/
def popSleeps : List (QueueEvent (Fin 2) Nat) :=
  [.call 0 .pop, .lock 0, .turn 0 none,
    .call 1 (.push 7), .lock 1, .turn 1 (some 0), .turn 1 none,
    .lock 0, .turn 0 none, .turn 0 none]

/-- Applied where a pop sleeps first and the push of another thread returns before it. -/
theorem queue_linearizable_two : ∃ s q,
    run (recordedStep (queueCode fun m : Nat => (m : Int)))
      (.init (QueueData.new 4 fun _ => 0)) popSleeps = .ok s ∧
      s.log.map (fun op => op.thread) = [1, 0] ∧
      Sequential (QueueDoes id) (Queue.empty 4) s.log q ∧ q.queue = [] := by
  have hends : (run (recordedStep (queueCode fun m : Nat => (m : Int)))
      (.init (QueueData.new 4 fun _ => 0)) popSleeps).map
        (fun s => (s.log.map fun op => op.thread, s.state.data.contents)) =
          .ok ([1, 0], []) := by decide +kernel
  cases hrun : run (recordedStep (queueCode fun m : Nat => (m : Int)))
      (.init (QueueData.new 4 fun _ => 0)) popSleeps with
  | error e =>
      rw [hrun] at hends
      cases hends
  | ok s =>
      rw [hrun] at hends
      obtain ⟨hthreads, hcontents⟩ := Prod.mk.inj (Except.ok.inj hends)
      obtain ⟨q, hseq, hqueue, -⟩ :=
        (queue_linearizable (id : Nat → Nat) 4 (fun _ => 0) s).1 ⟨_, hrun⟩
      exact ⟨s, q, rfl, hthreads, hseq, hqueue.trans hcontents⟩

end Proofs

end Iptfs
