import Iptfs.Python.QueueLock

/-!
# `Iptfs.Proofs.Python.QueueWakeups`: when no wake-up is lost in an `MQueue`

The rules of `Iptfs.Lib.Monitor` for `MQueue`. `pop` and `push` keep them. `trypop` breaks the one
for `push_cv`: where it takes an element from a queue that is not full, it notifies nobody, and
the free slot it makes can be one more than the pushers on their way.

* `mqueue_awake_iff` says exactly in which runs no wake-up is lost: `TrypopCovered` at each step.
* `not_mqueueAwake` is a run of three threads in which one is lost, and at its end nobody is left
  to wake the pusher that sleeps.
-/

set_option autoImplicit false

namespace Iptfs.Py

open Iptfs.Lib Iptfs.Lib.Monitor

variable {ι β : Type}

/-- The free slots of the queue. -/
def MQueue.room (mq : MQueue β) : Nat := mq.mcount - mq.mbufs.length

/-- What should hold in every state. In `pushCv` and `popCv` the woken threads are those that wait
for the lock, and the one that has it and is past its wait, if it has not left yet. -/
structure MQueueAwake [DecidableEq ι] [Fintype ι] (s : MQueueState ι β) : Prop where
  pushCv : s.Sleeper .pushCv → s.data.room ≤ s.woken (mqueueCode β) .pushCv
  popCv : s.Sleeper .popCv → s.data.mbufs.length ≤ s.woken (mqueueCode β) .popCv
  /-- While nobody has the lock, all of them have to get it. -/
  pushCv_free : s.lock = none → s.Sleeper .pushCv → s.data.room ≤ s.signalled .pushCv
  popCv_free : s.lock = none → s.Sleeper .popCv → s.data.mbufs.length ≤ s.signalled .popCv
  /-- Where no thread can go on, no sleeper could. -/
  stuck_pushCv : Stuck (mqueueCode β) s → s.Sleeper .pushCv → s.data.room = 0
  stuck_popCv : Stuck (mqueueCode β) s → s.Sleeper .popCv → s.data.mbufs = []

/-- A `trypop` that takes from a queue that is not full does so while no pusher sleeps, or while
more pushers are notified than there are free slots. -/
def TrypopCovered [Fintype ι] (s : MQueueState ι β) : Event ι (MQueueCall β) → Prop
  | .turn i none => s.place i = .inside .trypop → ¬ s.data.Empty → ¬ s.data.Full →
      s.Sleeper .pushCv → s.data.room < s.woken (mqueueCode β) .pushCv
  | _ => True

namespace Proofs

/-! ### What holds at each location -/

/-- The queue holds no more than it should. -/
def RoomOk (mq : MQueue β) : Prop := mq.mbufs.length ≤ mq.mcount

/-- What holds of the queue while a thread is at a location. -/
def MQueueHolds (l : MQueueLoc β) (mq : MQueue β) : Prop :=
  RoomOk mq ∧
    match l with
    | .popTake _ | .trypopTake => ¬ mq.Empty
    | .pushPut _ _ => ¬ mq.Full
    | _ => True

/-- The locations where a thread gets the lock: the first test of each method. -/
def MQueueEntry : MQueueLoc β → Prop
  | .pop _ | .trypop | .push _ _ => True
  | _ => False

/-- All that the code of an `MQueue` does. -/
inductive MQueueMoves (mq : MQueue β) : MQueueLoc β → MQueueAction β → Prop
  | popWait {waited : Bool} (h : mq.Empty) :
      MQueueMoves mq (.pop waited) (.wait .popCv (.pop true))
  | popSignal {waited : Bool} (h : ¬ mq.Empty) :
      MQueueMoves mq (.pop waited) (.signal .pushCv (.popTake waited))
  | popTake {waited : Bool} (r : Option β) : MQueueMoves mq (.popTake waited) (.leave mq.take r)
  | trypopNone (h : mq.Empty) : MQueueMoves mq .trypop (.leave mq none)
  | trypopSignal (h : ¬ mq.Empty) (hfull : mq.Full) :
      MQueueMoves mq .trypop (.signal .pushCv .trypopTake)
  | trypopLeave (r : Option β) (h : ¬ mq.Empty) (hfull : ¬ mq.Full) :
      MQueueMoves mq .trypop (.leave mq.take r)
  | trypopTake (r : Option β) : MQueueMoves mq .trypopTake (.leave mq.take r)
  | pushWait {m : β} {waited : Bool} (h : mq.Full) :
      MQueueMoves mq (.push m waited) (.wait .pushCv (.push m true))
  | pushSignal {m : β} {waited : Bool} (h : ¬ mq.Full) :
      MQueueMoves mq (.push m waited) (.signal .popCv (.pushPut m waited))
  | pushPut {m : β} {waited : Bool} :
      MQueueMoves mq (.pushPut m waited) (.leave (mq.put m) none)

/-- The code of an `MQueue` does nothing else at any location. It is the one place where the
methods are unfolded. -/
theorem mqueue_moves (l : MQueueLoc β) (mq : MQueue β) :
    MQueueMoves mq l ((mqueueCode β).action l mq) := by
  cases l with
  | pop waited =>
      show MQueueMoves mq _ (popAt waited mq)
      by_cases h : mq.Empty
      · rw [popAt, if_pos h]
        exact .popWait h
      · rw [popAt, if_neg h]
        exact .popSignal h
  | popTake waited => exact .popTake _
  | trypop =>
      show MQueueMoves mq _ (trypopAt mq)
      by_cases h : mq.Empty
      · rw [trypopAt, if_pos h]
        exact .trypopNone h
      · rw [trypopAt, if_neg h]
        by_cases hfull : mq.Full
        · rw [if_pos hfull]
          exact .trypopSignal h hfull
        · rw [if_neg hfull]
          exact .trypopLeave _ h hfull
  | trypopTake => exact .trypopTake _
  | push m waited =>
      show MQueueMoves mq _ (pushAt m waited mq)
      by_cases h : mq.Full
      · rw [pushAt, if_pos h]
        exact .pushWait h
      · rw [pushAt, if_neg h]
        exact .pushSignal h
  | pushPut m waited => exact .pushPut

/-- The action at a location, taken apart. -/
theorem mqueue_moves_of_eq {l : MQueueLoc β} {mq : MQueue β} {a : MQueueAction β}
    (h : (mqueueCode β).action l mq = a) : MQueueMoves mq l a := by
  rw [← h]
  exact mqueue_moves l mq

/-- A pop takes one element. -/
theorem length_take {mq : MQueue β} (h : ¬ mq.Empty) :
    mq.take.mbufs.length + 1 = mq.mbufs.length := by
  have hpos : 0 < mq.mbufs.length := List.length_pos_iff.mpr h
  show mq.mbufs.dropLast.length + 1 = mq.mbufs.length
  rw [List.length_dropLast]
  omega

/-- A push adds one element. -/
theorem length_put (mq : MQueue β) (m : β) : (mq.put m).mbufs.length = mq.mbufs.length + 1 :=
  List.length_append

/-- A pop leaves one more free place. -/
theorem room_take {mq : MQueue β} (hok : RoomOk mq) (h : ¬ mq.Empty) :
    mq.take.room = mq.room + 1 := by
  have hlen := length_take h
  have hle : mq.mbufs.length ≤ mq.mcount := hok
  show mq.mcount - mq.take.mbufs.length = mq.mcount - mq.mbufs.length + 1
  omega

/-- A push takes one free place. -/
theorem room_put {mq : MQueue β} (h : ¬ mq.Full) (m : β) : (mq.put m).room + 1 = mq.room := by
  have hlen := length_put mq m
  have hlt : mq.mbufs.length < mq.mcount := Nat.lt_of_not_le h
  show mq.mcount - (mq.put m).mbufs.length + 1 = mq.mcount - mq.mbufs.length
  omega

/-- There are no more elements than the queue holds, after a pop. -/
theorem roomOk_take {mq : MQueue β} (hok : RoomOk mq) (h : ¬ mq.Empty) : RoomOk mq.take := by
  have hlen := length_take h
  have hle : mq.mbufs.length ≤ mq.mcount := hok
  show mq.take.mbufs.length ≤ mq.mcount
  omega

/-- Nor after a push on a queue that is not full. -/
theorem roomOk_put {mq : MQueue β} (h : ¬ mq.Full) (m : β) : RoomOk (mq.put m) := by
  have hlen := length_put mq m
  have hlt : mq.mbufs.length < mq.mcount := Nat.lt_of_not_le h
  show (mq.put m).mbufs.length ≤ mq.mcount
  omega

/-- The methods meet the local conditions of a monitor: the tests under the lock are what the
accesses to the list behind them need. The cases are the locations and what is done there. -/
theorem mqueueVerified : Verified (mqueueCode β) MQueueEntry RoomOk MQueueHolds where
  start := by
    intro f
    cases f <;> exact ⟨trivial, rfl⟩
  entry := by
    intro l mq hl hok
    cases l with
    | pop waited => exact ⟨hok, trivial⟩
    | trypop => exact ⟨hok, trivial⟩
    | push m waited => exact ⟨hok, trivial⟩
    | popTake waited => cases hl
    | trypopTake => cases hl
    | pushPut m waited => cases hl
  wait := by
    intro l mq k l' hl hact
    cases mqueue_moves_of_eq hact <;> exact ⟨hl.1, trivial, rfl⟩
  signal := by
    intro l mq k l' hl hact
    cases mqueue_moves_of_eq hact with
    | popSignal h => exact ⟨hl.1, h⟩
    | trypopSignal h => exact ⟨hl.1, h⟩
    | pushSignal h => exact ⟨hl.1, h⟩
  leave := by
    intro l mq mq' r hl hact
    cases mqueue_moves_of_eq hact with
    | popTake => exact roomOk_take hl.1 hl.2
    | trypopNone => exact hl.1
    | trypopLeave _ h => exact roomOk_take hl.1 h
    | trypopTake => exact roomOk_take hl.1 hl.2
    | pushPut => exact roomOk_put hl.2 _

/-! ### Notifications are paid for, but for one step of `trypop` -/

/-- A push that has notified owes an element. -/
def popCvDebt : MQueueLoc β → Nat
  | .pushPut _ _ => 1
  | _ => 0

/-- A pop that has notified owes a free slot. -/
def pushCvDebt : MQueueLoc β → Nat
  | .popTake _ | .trypopTake => 1
  | _ => 0

/-- The notifications of `pop_cv`: each push pays for the consumer that it wakes with the element
that it adds, and nobody who was woken there leaves without one. -/
theorem popCvRule :
    WakeRule (mqueueCode β) MQueueEntry MQueueHolds .popCv (fun mq => mq.mbufs.length) popCvDebt
      fun _ _ => False where
  entry := by
    intro l hl
    cases l with
    | pushPut m waited => cases hl
    | pop waited => rfl
    | popTake waited => rfl
    | trypop => rfl
    | trypopTake => rfl
    | push m waited => rfl
  wait := by
    intro l mq l' hl hact
    cases mqueue_moves_of_eq hact with
    | popWait h => exact List.length_eq_zero_iff.mpr h
  elsewhere := by
    intro l mq k' l' hl hact hk
    cases mqueue_moves_of_eq hact with
    | popWait => exact absurd rfl hk
    | @pushWait m waited => cases waited <;> exact nofun
  signal := by
    intro l mq k' l' hl hact
    cases mqueue_moves_of_eq hact with
    | @popSignal waited => cases waited <;> exact Nat.le_refl _
    | trypopSignal => exact Nat.le_refl _
    | @pushSignal m waited => cases waited <;> exact Nat.le_refl _
  leave := by
    intro l mq mq' r hl hact
    cases mqueue_moves_of_eq hact with
    | @popTake waited =>
        have htake := length_take hl.2
        exact .inr ((mqueueCode β).claims_paid .popCv (.popTake waited) htake)
    | trypopNone => exact .inr (Nat.le_refl _)
    | trypopLeave _ h =>
        have htake := length_take h
        exact .inr (Nat.le_trans (Nat.le_succ _) (Nat.le_of_eq htake))
    | trypopTake =>
        have htake := length_take hl.2
        exact .inr (Nat.le_trans (Nat.le_succ _) (Nat.le_of_eq htake))
    | @pushPut m waited =>
        have hput := length_put mq m
        cases waited <;> exact .inr (Nat.le_of_eq hput)

/-- The step that nobody is notified of. -/
def TrypopUnseen (l : MQueueLoc β) (mq : MQueue β) : Prop :=
  l = .trypop ∧ ¬ mq.Empty ∧ ¬ mq.Full

/-- The notifications of `push_cv`: a `pop` pays for the producer that it wakes with the place
that it frees. A `trypop` of a queue that is not full frees one without notifying, and for that
step a reason of its own is owed. -/
theorem pushCvRule :
    WakeRule (mqueueCode β) MQueueEntry MQueueHolds .pushCv MQueue.room pushCvDebt
      TrypopUnseen where
  entry := by
    intro l hl
    cases l with
    | popTake waited => cases hl
    | trypopTake => cases hl
    | pop waited => rfl
    | trypop => rfl
    | push m waited => rfl
    | pushPut m waited => rfl
  wait := by
    intro l mq l' hl hact
    cases mqueue_moves_of_eq hact with
    | pushWait h => exact Nat.sub_eq_zero_of_le h
  elsewhere := by
    intro l mq k' l' hl hact hk
    cases mqueue_moves_of_eq hact with
    | @popWait waited => cases waited <;> exact nofun
    | pushWait => exact absurd rfl hk
  signal := by
    intro l mq k' l' hl hact
    cases mqueue_moves_of_eq hact with
    | @popSignal waited => cases waited <;> exact Nat.le_refl _
    | trypopSignal => exact Nat.le_refl _
    | @pushSignal m waited => cases waited <;> exact Nat.le_refl _
  leave := by
    intro l mq mq' r hl hact
    cases mqueue_moves_of_eq hact with
    | @popTake waited =>
        have htake := room_take hl.1 hl.2
        cases waited <;> exact .inr (Nat.le_of_eq htake)
    | trypopNone => exact .inr (Nat.le_refl _)
    | trypopLeave _ h hfull => exact .inl ⟨rfl, h, hfull⟩
    | trypopTake => exact .inr (Nat.le_of_eq (room_take hl.1 hl.2))
    | @pushPut m waited =>
        have hput := room_put hl.2 m
        exact .inr ((mqueueCode β).claims_paid .pushCv (.pushPut m waited) hput)

/-! ### Every run -/

section Run

variable [Fintype ι]

/-- What every covered step keeps. -/
structure MQueueKept (s : MQueueState ι β) : Prop where
  consistent : Consistent (mqueueCode β) MQueueEntry RoomOk MQueueHolds s
  pushCv : Covered (mqueueCode β) .pushCv MQueue.room pushCvDebt s
  popCv : Covered (mqueueCode β) .popCv (fun mq => mq.mbufs.length) popCvDebt s

/-- Nobody is in a call, so that nobody sleeps. -/
theorem mqueueKept_init {mq : MQueue β} (hok : RoomOk mq) :
    MQueueKept (State.init mq : MQueueState ι β) where
  consistent := consistent_init _ _ _ hok
  pushCv := fun ⟨_, hi⟩ => absurd hi not_false
  popCv := fun ⟨_, hi⟩ => absurd hi not_false

variable [DecidableEq ι]

/-- The steps are those of the monitor, without the wake-ups that nobody caused. -/
theorem step_of_mqueueStep {s t : MQueueState ι β} {e : Event ι (MQueueCall β)}
    (h : mqueueStep s e = .ok t) : step (mqueueCode β) s e = .ok t := by
  cases e with
  | spurious i => cases h
  | call i f => exact h
  | lock i => exact h
  | turn i wakes => exact h

/-- The invariant in the terms of the source. -/
theorem MQueueKept.awake {s : MQueueState ι β} (h : MQueueKept s) : MQueueAwake s where
  pushCv := h.pushCv.served
  popCv := h.popCv.served
  pushCv_free := h.pushCv.served.free h.consistent
  popCv_free := h.popCv.served.free h.consistent
  stuck_pushCv := h.pushCv.served.stuck h.consistent
  stuck_popCv := by
    intro hstuck hsleeper
    exact List.length_eq_zero_iff.mp (h.popCv.served.stuck h.consistent hstuck hsleeper)

/-- The state after a `trypop` that notifies nobody. -/
def trypopLeft (s : MQueueState ι β) (i : ι) : MQueueState ι β :=
  { s.move i (.outside (some s.data.mbufs.getLast?)) with data := s.data.take, lock := none }

/-- A `trypop` that notifies nobody wakes nobody. -/
theorem woken_trypopLeft {s : MQueueState ι β} {i : ι} (hi : s.place i = .inside .trypop) :
    (trypopLeft s i).woken (mqueueCode β) .pushCv = s.woken (mqueueCode β) .pushCv :=
  State.woken_move (mqueueCode β) .pushCv hi (.outside (some s.data.mbufs.getLast?))

/-- Where the queue is neither empty nor full, `trypop` takes an element and leaves. -/
theorem trypopAt_unseen {mq : MQueue β} (hne : ¬ mq.Empty) (hfull : ¬ mq.Full) :
    (mqueueCode β).action .trypop mq = .leave mq.take mq.mbufs.getLast? := by
  show trypopAt mq = _
  rw [trypopAt, if_neg hne, if_neg hfull]

/-- A covered step of any thread keeps all three. Only the `trypop` that notifies nobody is not
paid for, and there the condition on the step is the reason that is owed. -/
theorem MQueueKept.step {s t : MQueueState ι β} {e : Event ι (MQueueCall β)} (h : MQueueKept s)
    (hcovered : TrypopCovered s e) (hst : mqueueStep s e = .ok t) : MQueueKept t := by
  have hstep := step_of_mqueueStep hst
  have ht := mqueueVerified.step h.consistent hstep
  refine ⟨ht, ?_, ?_⟩
  · refine pushCvRule.step mqueueVerified h.consistent h.pushCv hstep ?_
    rintro i l mq r rfl hi hact ⟨rfl, hne, hfull⟩ rfl hsleeper
    rw [trypopAt_unseen hne hfull] at hact
    cases hact
    have hbefore : s.Sleeper .pushCv := sleeper_of_move (.outside _) not_false hsleeper
    have hroom := hcovered hi hne hfull hbefore
    have hwoken : (trypopLeft s i).woken (mqueueCode β) .pushCv = _ := woken_trypopLeft hi
    have hholds : MQueueHolds .trypop s.data := h.consistent.placed hi
    rw [ht.owed_free rfl]
    show s.data.take.room + 0 ≤ (trypopLeft s i).woken (mqueueCode β) .pushCv
    rw [room_take hholds.1 hne, hwoken]
    exact hroom
  · refine popCvRule.step mqueueVerified h.consistent h.popCv hstep ?_
    intro i l mq r _ _ _ hfalse
    cases hfalse

/-- A step after which all is well is covered. -/
theorem trypopCovered_of_awake {s : MQueueState ι β} {e : Event ι (MQueueCall β)}
    (h : MQueueKept s) (hnext : ∀ t, mqueueStep s e = .ok t → MQueueAwake t) :
    TrypopCovered s e := by
  cases e with
  | call i f => trivial
  | lock i => trivial
  | spurious i => trivial
  | turn i wakes =>
      cases wakes with
      | some j => trivial
      | none =>
          rintro hi hne hfull ⟨j, hj⟩
          have hstep : mqueueStep s (.turn i none) = .ok (trypopLeft s i) :=
            step_of_moves (.leave hi (trypopAt_unseen hne hfull))
          have hsleeper : (trypopLeft s i).Sleeper .pushCv := by
            refine ⟨j, ?_⟩
            have hij : j ≠ i := by
              rintro rfl
              rw [hi] at hj
              cases hj
            have hplace : (trypopLeft s i).place j = s.place j := State.place_move_of_ne s _ hij
            rw [hplace]
            exact hj
          have hroom := (hnext _ hstep).pushCv hsleeper
          have hholds : MQueueHolds .trypop s.data := h.consistent.placed hi
          rw [woken_trypopLeft hi] at hroom
          have htake : (trypopLeft s i).data.room = s.data.room + 1 := room_take hholds.1 hne
          rw [htake] at hroom
          exact hroom

/-- No wake-up is lost in a run of any number of threads exactly when each `trypop` in it is
covered. -/
theorem mqueue_awake_iff {count : Nat} {mbuf : Nat → β} {manage : Bool}
    (es : List (Event ι (MQueueCall β))) :
    (∀ js s, js <+: es → run mqueueStep (State.init (MQueue.init count mbuf manage)) js = .ok s →
        MQueueAwake s) ↔
      Along mqueueStep TrypopCovered (State.init (MQueue.init count mbuf manage)) es := by
  have hok : RoomOk (MQueue.init count mbuf manage) := by
    unfold RoomOk MQueue.init
    cases manage with
    | true => simp
    | false => simp
  exact prefixes_iff_along_of (P := MQueueKept) (fun s h => h.awake)
    (fun s e h hnext => trypopCovered_of_awake h hnext) (fun s e t h hC hst => h.step hC hst)
    (mqueueKept_init hok)

end Run

/-- Two threads that push, and one that takes. -/
inductive Worker
  | first
  | second
  | taker
  deriving DecidableEq

instance Worker.fintype : Fintype Worker where
  elems := {.first, .second, .taker}
  complete := by
    intro w
    cases w <;> decide

/-- Two threads wait to push on a full queue, and a third takes both elements with `trypop`. -/
def pushPushTrypopTrypop : List (Event Worker (MQueueCall Nat)) :=
  [.call .first (.push 7), .lock .first, .turn .first none, .call .second (.push 8),
    .lock .second, .turn .second none, .call .taker .trypop, .lock .taker,
    .turn .taker (some .first), .turn .taker none, .call .taker .trypop, .lock .taker,
    .turn .taker none]

/-- The thread that was notified pushes. The other sleeps on, with a free slot, for ever. -/
def pushesOnce : List (Event Worker (MQueueCall Nat)) :=
  [.lock .first, .turn .first none, .turn .first none]

/-- A wake-up is lost: there are two free slots, one pusher is notified, and one sleeps. When the
one has pushed, the other sleeps on a queue with room, and no thread can go on. -/
theorem not_mqueueAwake :
    ∃ s t : MQueueState Worker Nat,
      run mqueueStep (State.init (MQueue.init 2 id true)) pushPushTrypopTrypop = .ok s ∧
        s.lock = none ∧ s.Sleeper .pushCv ∧ s.data.room = 2 ∧ s.signalled .pushCv = 1 ∧
        ¬ MQueueAwake s ∧
        run mqueueStep s pushesOnce = .ok t ∧ t.Sleeper .pushCv ∧ t.data.room = 1 ∧
        Stuck (mqueueCode Nat) t := by
  refine ⟨_, _, rfl, rfl, ⟨.second, rfl⟩, rfl, by decide, ?_, rfl, ⟨.second, rfl⟩, rfl, ?_⟩
  · intro h
    have hroom := h.pushCv_free rfl ⟨.second, rfl⟩
    revert hroom
    decide
  · apply stuck_of_idle
    intro i
    cases i with
    | first => exact .inl ⟨_, rfl⟩
    | second => exact .inr ⟨_, _, rfl⟩
    | taker => exact .inl ⟨_, rfl⟩

end Proofs

end Iptfs.Py
