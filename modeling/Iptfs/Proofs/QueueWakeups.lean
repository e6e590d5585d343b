import Iptfs.Model.QueueLock

/-!
# `Iptfs.Proofs.QueueWakeups`: no lost wake-up in the C queues

The rules of `Iptfs.Lib.Monitor` for the code of a queue. `queueVerified` says what holds at each
location, `popcvRule` and `pushcvRule` that a signal is paid for: a push owes one element when it
has signalled `popcv`, a pop one free slot when it has signalled `pushcv`.

`mqueue_wait` breaks the rule for `popcv`: a thread that it wakes takes nothing. `sole_waiter`
is where the sole consumer comes in, as then nobody else sleeps there.

`queue_awake` is the main result, over all runs of any number of threads.
-/

set_option autoImplicit false

namespace Iptfs

open Iptfs.Lib Iptfs.Lib.Monitor

variable {ι β : Type}

/-- What no schedule breaks. In `popcv` and `pushcv` the woken threads are those that wait for the
lock, and the one that has it and is past its wait, if it has not left yet. -/
structure QueueAwake [DecidableEq ι] [Fintype ι] (len : β → Int) (size : Nat)
    (s : QueueState ι β) : Prop where
  depth_nonneg : 0 ≤ s.data.depth
  depth_le : s.data.depth ≤ size
  popcv : s.Sleeper .popcv → s.data.depth ≤ s.woken (queueCode len) .popcv
  pushcv : s.Sleeper .pushcv → size - s.data.depth ≤ s.woken (queueCode len) .pushcv
  /-- While nobody has the lock, all of them have to get it. -/
  popcv_free : s.lock = none → s.Sleeper .popcv → s.data.depth ≤ s.signalled .popcv
  pushcv_free : s.lock = none → s.Sleeper .pushcv → size - s.data.depth ≤ s.signalled .pushcv
  /-- Where no thread can go on, no sleeper could. -/
  stuck_popcv : Stuck (queueCode len) s → s.Sleeper .popcv → s.data.depth = 0
  stuck_pushcv : Stuck (queueCode len) s → s.Sleeper .pushcv → s.data.depth = size

namespace Proofs

/-! ### What holds at each location -/

/-- The depth stays within the array. -/
def DepthOk (size : Nat) (mq : QueueData β) : Prop :=
  mq.size = size ∧ 0 ≤ mq.depth ∧ mq.depth ≤ size

/-- What holds of the queue while a thread is at a location. -/
def QueueHolds (size : Nat) (l : QueueLoc β) (mq : QueueData β) : Prop :=
  DepthOk size mq ∧
    match l with
    | .popTake _ | .trypopTake _ => ¬ mq.Empty
    | .pushPut _ _ => ¬ mq.Full
    | _ => True

/-- The locations where a thread gets the lock: the first test of each function. -/
def QueueEntry : QueueLoc β → Prop
  | .pop _ | .wait _ | .trypop _ | .push _ _ => True
  | _ => False

/-- A pop of a queue that is not empty leaves the depth within the array. -/
theorem depthOk_take {size : Nat} {mq : QueueData β} (h : DepthOk size mq) (hne : ¬ mq.Empty) :
    DepthOk size mq.take := by
  obtain ⟨hsize, hpos, hle⟩ := h
  have hne' : mq.depth ≠ 0 := hne
  exact ⟨hsize, show 0 ≤ mq.depth - 1 by omega, show mq.depth - 1 ≤ size by omega⟩

/-- So does a push on one that is not full. -/
theorem depthOk_put {size : Nat} {mq : QueueData β} (h : DepthOk size mq) (hne : ¬ mq.Full)
    (m : β) : DepthOk size (mq.put m) := by
  obtain ⟨hsize, hpos, hle⟩ := h
  have hne' : mq.depth ≠ mq.size := hne
  exact ⟨hsize, show 0 ≤ mq.depth + 1 by omega, show mq.depth + 1 ≤ size by omega⟩

/-- All that the code of a queue does. -/
inductive QueueMoves (mq : QueueData β) : QueueLoc β → QueueAction β → Prop
  | popWait {waited : Bool} (h : mq.Empty) :
      QueueMoves mq (.pop waited) (.wait .popcv (.pop true))
  | popSignal {waited : Bool} (h : ¬ mq.Empty) :
      QueueMoves mq (.pop waited) (.signal .pushcv (.popTake waited))
  | popTake {waited : Bool} (r : QueueRet β) : QueueMoves mq (.popTake waited) (.leave mq.take r)
  | waitWait {waited : Bool} (h : mq.Empty) :
      QueueMoves mq (.wait waited) (.wait .popcv (.wait true))
  | waitLeave {waited : Bool} (r : QueueRet β) : QueueMoves mq (.wait waited) (.leave mq r)
  | trypopLeave {maxsize : Int} (r : QueueRet β) : QueueMoves mq (.trypop maxsize) (.leave mq r)
  | trypopSignal {maxsize : Int} {m : β} (h : ¬ mq.Empty) :
      QueueMoves mq (.trypop maxsize) (.signal .pushcv (.trypopTake m))
  | trypopTake {m : β} (r : QueueRet β) : QueueMoves mq (.trypopTake m) (.leave mq.take r)
  | pushWait {m : β} {waited : Bool} (h : mq.Full) :
      QueueMoves mq (.push m waited) (.wait .pushcv (.push m true))
  | pushSignal {m : β} {waited : Bool} (h : ¬ mq.Full) :
      QueueMoves mq (.push m waited) (.signal .popcv (.pushPut m waited))
  | pushPut {m : β} {waited : Bool} (r : QueueRet β) :
      QueueMoves mq (.pushPut m waited) (.leave (mq.put m) r)

/-- The code of a queue does nothing else at any location. It is the one place where the four
functions are unfolded. -/
theorem queue_moves (len : β → Int) (l : QueueLoc β) (mq : QueueData β) :
    QueueMoves mq l ((queueCode len).action l mq) := by
  cases l with
  | pop waited =>
      show QueueMoves mq _ (mqueuePopAt waited mq)
      by_cases h : mq.Empty
      · rw [mqueuePopAt, if_pos h]
        exact .popWait h
      · rw [mqueuePopAt, if_neg h]
        exact .popSignal h
  | popTake waited => exact .popTake _
  | wait waited =>
      show QueueMoves mq _ (mqueueWaitAt mq)
      by_cases h : mq.Empty
      · rw [mqueueWaitAt, if_pos h]
        exact .waitWait h
      · rw [mqueueWaitAt, if_neg h]
        exact .waitLeave _
  | trypop maxsize =>
      show QueueMoves mq _ (mqueueTrypopAt len maxsize mq)
      by_cases h : mq.Empty
      · rw [mqueueTrypopAt, if_pos h]
        exact .trypopLeave _
      · rw [mqueueTrypopAt, if_neg h]
        split
        · exact .trypopLeave _
        · exact .trypopSignal h
  | trypopTake m => exact .trypopTake _
  | push m waited =>
      show QueueMoves mq _ (mqueuePushAt m waited mq)
      by_cases h : mq.Full
      · rw [mqueuePushAt, if_pos h]
        exact .pushWait h
      · rw [mqueuePushAt, if_neg h]
        exact .pushSignal h
  | pushPut m waited => exact .pushPut _

/-- The action at a location, taken apart. -/
theorem queue_moves_of_eq {len : β → Int} {l : QueueLoc β} {mq : QueueData β} {a : QueueAction β}
    (h : (queueCode len).action l mq = a) : QueueMoves mq l a := by
  rw [← h]
  exact queue_moves len l mq

/-- The code meets the local conditions of a monitor: the tests under the lock are what the array
accesses behind them need. The cases are the locations and what is done there. -/
theorem queueVerified (len : β → Int) (size : Nat) :
    Verified (queueCode len) QueueEntry (DepthOk size) (QueueHolds size) where
  start := by
    intro f
    cases f <;> exact ⟨trivial, rfl⟩
  entry := by
    intro l mq hl hok
    cases l with
    | pop waited => exact ⟨hok, trivial⟩
    | wait waited => exact ⟨hok, trivial⟩
    | trypop maxsize => exact ⟨hok, trivial⟩
    | push m waited => exact ⟨hok, trivial⟩
    | popTake waited => cases hl
    | trypopTake m => cases hl
    | pushPut m waited => cases hl
  wait := by
    intro l mq k l' hl hact
    cases queue_moves_of_eq hact <;> exact ⟨hl.1, trivial, rfl⟩
  signal := by
    intro l mq k l' hl hact
    cases queue_moves_of_eq hact with
    | popSignal h => exact ⟨hl.1, h⟩
    | trypopSignal h => exact ⟨hl.1, h⟩
    | pushSignal h => exact ⟨hl.1, h⟩
  leave := by
    intro l mq mq' r hl hact
    cases queue_moves_of_eq hact with
    | popTake => exact depthOk_take hl.1 hl.2
    | trypopTake => exact depthOk_take hl.1 hl.2
    | waitLeave => exact hl.1
    | trypopLeave => exact hl.1
    | pushPut => exact depthOk_put hl.1 hl.2 _

/-! ### Signals are paid for -/

/-- A push that has signalled owes an element. -/
def popcvDebt : QueueLoc β → Nat
  | .pushPut _ _ => 1
  | _ => 0

/-- A pop that has signalled owes a free slot. -/
def pushcvDebt : QueueLoc β → Nat
  | .popTake _ | .trypopTake _ => 1
  | _ => 0

/-- The elements. -/
def elements (mq : QueueData β) : Nat := mq.depth.toNat

/-- The free slots. -/
def freeSlots (mq : QueueData β) : Nat := (mq.size - mq.depth).toNat

/-- A pop takes one element. -/
theorem elements_take {size : Nat} {mq : QueueData β} (h : DepthOk size mq) (hne : ¬ mq.Empty) :
    elements mq.take + 1 = elements mq := by
  have hpos := h.2.1
  have hne' : mq.depth ≠ 0 := hne
  show (mq.depth - 1).toNat + 1 = mq.depth.toNat
  omega

/-- A push adds one element. -/
theorem elements_put {size : Nat} {mq : QueueData β} (h : DepthOk size mq) (m : β) :
    elements (mq.put m) = elements mq + 1 := by
  have hpos := h.2.1
  show (mq.depth + 1).toNat = mq.depth.toNat + 1
  omega

/-- A pop leaves one more free slot. -/
theorem freeSlots_take {size : Nat} {mq : QueueData β} (h : DepthOk size mq) :
    freeSlots mq.take = freeSlots mq + 1 := by
  obtain ⟨hsize, -, hle⟩ := h
  show (mq.size - (mq.depth - 1)).toNat = (mq.size - mq.depth).toNat + 1
  omega

/-- A push takes one free slot. -/
theorem freeSlots_put {size : Nat} {mq : QueueData β} (h : DepthOk size mq) (hne : ¬ mq.Full)
    (m : β) : freeSlots (mq.put m) + 1 = freeSlots mq := by
  obtain ⟨hsize, -, hle⟩ := h
  have hne' : mq.depth ≠ mq.size := hne
  show (mq.size - (mq.depth + 1)).toNat + 1 = (mq.size - mq.depth).toNat
  omega

/-- The signals on `popcv`: each push pays for the consumer that it wakes with the element that
it adds. Only `mqueue_wait` leaves without taking one, and for that step a reason of its own is
owed. -/
theorem popcvRule (len : β → Int) (size : Nat) :
    WakeRule (queueCode len) QueueEntry (QueueHolds size) .popcv elements popcvDebt
      fun l _ => ∃ waited, l = .wait waited where
  entry := by
    intro l hl
    cases l with
    | pushPut m waited => cases hl
    | pop waited => rfl
    | popTake waited => rfl
    | wait waited => rfl
    | trypop maxsize => rfl
    | trypopTake m => rfl
    | push m waited => rfl
  wait := by
    intro l mq l' hl hact
    -- A thread waits on `popcv` only when it finds the queue empty.
    have hempty : mq.Empty → elements mq = 0 := by
      intro h
      have hzero : mq.depth = 0 := h
      rw [elements, hzero]
      rfl
    cases queue_moves_of_eq hact with
    | popWait h => exact hempty h
    | waitWait h => exact hempty h
  elsewhere := by
    intro l mq k' l' hl hact hk
    cases queue_moves_of_eq hact with
    | popWait => exact absurd rfl hk
    | waitWait => exact absurd rfl hk
    | @pushWait m waited => cases waited <;> exact nofun
  signal := by
    intro l mq k' l' hl hact
    cases queue_moves_of_eq hact with
    | @popSignal waited => cases waited <;> exact Nat.le_refl _
    | trypopSignal => exact Nat.le_refl _
    | @pushSignal m waited => cases waited <;> exact Nat.le_refl _
  leave := by
    intro l mq mq' r hl hact
    cases queue_moves_of_eq hact with
    | @popTake waited =>
        have htake := elements_take hl.1 hl.2
        exact .inr ((queueCode len).claims_paid .popcv (.popTake waited) htake)
    | trypopTake =>
        have htake := elements_take hl.1 hl.2
        exact .inr (Nat.le_trans (Nat.le_succ _) (Nat.le_of_eq htake))
    -- `mqueue_wait` takes nothing, so it hands its wakeup on to nobody.
    | @waitLeave waited => exact .inl ⟨waited, rfl⟩
    | trypopLeave => exact .inr (Nat.le_refl _)
    | @pushPut m waited =>
        have hput := elements_put hl.1 m
        cases waited <;> exact .inr (Nat.le_of_eq hput)

/-- The signals on `pushcv`: each pop pays for the producer that it wakes with the slot that it
frees. Nobody who was woken there leaves without a push. -/
theorem pushcvRule (len : β → Int) (size : Nat) :
    WakeRule (queueCode len) QueueEntry (QueueHolds size) .pushcv freeSlots pushcvDebt
      fun _ _ => False where
  entry := by
    intro l hl
    cases l with
    | popTake waited => cases hl
    | trypopTake m => cases hl
    | pop waited => rfl
    | wait waited => rfl
    | trypop maxsize => rfl
    | push m waited => rfl
    | pushPut m waited => rfl
  wait := by
    intro l mq l' hl hact
    cases queue_moves_of_eq hact with
    | pushWait h =>
        -- A thread waits on `pushcv` only when it finds the queue full.
        have hfull : mq.depth = mq.size := h
        rw [freeSlots, hfull, Int.sub_self]
        rfl
  elsewhere := by
    intro l mq k' l' hl hact hk
    cases queue_moves_of_eq hact with
    | @popWait waited => cases waited <;> exact nofun
    | @waitWait waited => cases waited <;> exact nofun
    | pushWait => exact absurd rfl hk
  signal := by
    intro l mq k' l' hl hact
    cases queue_moves_of_eq hact with
    | @popSignal waited => cases waited <;> exact Nat.le_refl _
    | trypopSignal => exact Nat.le_refl _
    | @pushSignal m waited => cases waited <;> exact Nat.le_refl _
  leave := by
    intro l mq mq' r hl hact
    cases queue_moves_of_eq hact with
    | @popTake waited =>
        have htake := freeSlots_take hl.1
        cases waited <;> exact .inr (Nat.le_of_eq htake)
    | trypopTake => exact .inr (Nat.le_of_eq (freeSlots_take hl.1))
    | @waitLeave waited => cases waited <;> exact .inr (Nat.le_refl _)
    | trypopLeave => exact .inr (Nat.le_refl _)
    | @pushPut m waited =>
        -- Whoever was woken to push has used the slot it was woken for.
        have hput := freeSlots_put hl.1 hl.2 m
        exact .inr ((queueCode len).claims_paid .pushcv (.pushPut m waited) hput)

/-! ### The sole consumer -/

/-- The functions that take from the queue. -/
def QueueTaking : QueueLoc β → Prop
  | .push _ _ | .pushPut _ _ => False
  | _ => True

/-- The locations of a thread, by the calls that it makes in a run. -/
def QueueOwn (es : List (QueueEvent ι β)) (i : ι) (l : QueueLoc β) : Prop :=
  (QueueTaking l → ∃ f, .call i f ∈ es ∧ f.Consumes) ∧
    ((∃ waited, l = .wait waited) → .call i .wait ∈ es)

/-- A call begins at a location of its thread. -/
theorem queueOwn_start (len : β → Int) {es : List (QueueEvent ι β)} {i : ι}
    {f : QueueCall β} (h : .call i f ∈ es) : QueueOwn es i ((queueCode len).start f) := by
  cases f with
  | pop => exact ⟨fun _ => ⟨.pop, h, trivial⟩, nofun⟩
  | wait => exact ⟨fun _ => ⟨.wait, h, trivial⟩, fun _ => h⟩
  | trypop maxsize => exact ⟨fun _ => ⟨.trypop maxsize, h, trivial⟩, nofun⟩
  | push m => exact ⟨nofun, nofun⟩

/-- A thread sleeps at a location of the function that it called. -/
theorem queueOwn_wait {len : β → Int} {es : List (QueueEvent ι β)} {i : ι}
    {l l' : QueueLoc β} {mq : QueueData β} {k : QueueCond} (h : QueueOwn es i l)
    (hact : (queueCode len).action l mq = .wait k l') : QueueOwn es i l' := by
  cases queue_moves_of_eq hact with
  | popWait => exact ⟨h.1, nofun⟩
  | @waitWait waited => exact ⟨h.1, fun _ => h.2 ⟨waited, rfl⟩⟩
  | pushWait => exact ⟨nofun, nofun⟩

/-- A thread that signals goes on in the function that it called. -/
theorem queueOwn_signal {len : β → Int} {es : List (QueueEvent ι β)} {i : ι}
    {l l' : QueueLoc β} {mq : QueueData β} {k : QueueCond} (h : QueueOwn es i l)
    (hact : (queueCode len).action l mq = .signal k l') : QueueOwn es i l' := by
  cases queue_moves_of_eq hact with
  | popSignal => exact ⟨h.1, nofun⟩
  | trypopSignal => exact ⟨h.1, nofun⟩
  | pushSignal => exact ⟨nofun, nofun⟩

/-- The depth is within the array in every state of a run, the inside of a call included. -/
theorem depthOk_of_consistent {len : β → Int} {size : Nat} {s : QueueState ι β}
    (h : Consistent (queueCode len) QueueEntry (DepthOk size) (QueueHolds size) s) :
    DepthOk size s.data := by
  cases hlock : s.lock with
  | none => exact h.free hlock
  | some i =>
      obtain ⟨l, hl⟩ := ((h.owner i).mpr hlock).eq
      have hholds : QueueHolds size l s.data := h.placed hl
      exact hholds.1

section Run

variable {len : β → Int} {size : Nat} {es : List (QueueEvent ι β)}

/-- Where a thread is in `mqueue_wait`, nobody sleeps on `popcv` but itself. -/
theorem sole_waiter {s : QueueState ι β} (hes : SoleWaiter es)
    (h : Consistent (queueCode len) QueueEntry (DepthOk size) (QueueHolds size) s)
    (hown : Stays (QueueOwn es) s) {i : ι} {waited : Bool}
    (hi : s.place i = .inside (.wait waited)) : ¬ s.Sleeper .popcv := by
  rintro ⟨j, hj⟩
  obtain ⟨l, hl⟩ := hj.eq
  have hwait : .call i .wait ∈ es := (hown.all hi).2 ⟨waited, rfl⟩
  have htaking : QueueTaking l := by
    have hafter : (queueCode len).after l = some .popcv := (h.placed hl).2
    cases l with
    | push m waited => cases waited <;> cases hafter
    | pushPut m waited => cases waited <;> cases hafter
    | pop waited => trivial
    | popTake waited => trivial
    | wait waited => trivial
    | trypop maxsize => trivial
    | trypopTake m => trivial
  obtain ⟨f, hf, hconsumes⟩ := (hown.all hl).1 htaking
  rw [hes i j f hwait hf hconsumes, hi] at hl
  cases hl

/-! ### Every run -/

variable [Fintype ι]

/-- What every step keeps, in a run with the events `es`. -/
structure QueueKept (len : β → Int) (size : Nat) (es : List (QueueEvent ι β))
    (s : QueueState ι β) : Prop where
  consistent : Consistent (queueCode len) QueueEntry (DepthOk size) (QueueHolds size) s
  own : Stays (QueueOwn es) s
  popcv : Covered (queueCode len) .popcv elements popcvDebt s
  pushcv : Covered (queueCode len) .pushcv freeSlots pushcvDebt s

/-- Nobody is in a call, so that nobody sleeps. -/
theorem queueKept_init (len : β → Int) (es : List (QueueEvent ι β)) {mq : QueueData β}
    (hok : DepthOk size mq) : QueueKept len size es (State.init mq) where
  consistent := consistent_init _ _ _ hok
  own := stays_init _ _
  popcv := fun ⟨_, hi⟩ => absurd hi not_false
  pushcv := fun ⟨_, hi⟩ => absurd hi not_false

variable [DecidableEq ι]

/-- Each step of any thread keeps all four. Only the step out of `mqueue_wait` is not paid for,
and there no other consumer can be asleep, since the thread that calls it is the only one. -/
theorem QueueKept.step {s t : QueueState ι β} {e : QueueEvent ι β} (hes : SoleWaiter es)
    (h : QueueKept len size es s) (he : e ∈ es) (hst : step (queueCode len) s e = .ok t) :
    QueueKept len size es t := by
  have hcode := queueVerified len size
  refine ⟨hcode.step h.consistent hst, ?_, ?_, ?_⟩
  · refine h.own.step (fun _ _ _ _ _ => queueOwn_wait) (fun _ _ _ _ _ => queueOwn_signal) ?_ hst
    rintro i f rfl
    exact queueOwn_start len he
  · refine (popcvRule len size).step hcode h.consistent h.popcv hst ?_
    -- The thread leaves `mqueue_wait`.
    rintro i l mq' r rfl hi - ⟨waited, rfl⟩ rfl hsleeper
    have hbefore : s.Sleeper .popcv := sleeper_of_move (.outside (some r)) not_false hsleeper
    exact absurd hbefore (sole_waiter hes h.consistent h.own hi)
  · refine (pushcvRule len size).step hcode h.consistent h.pushcv hst ?_
    intro i l mq' r _ _ _ hfalse
    cases hfalse

/-- The invariant in the terms of the source: the counts of elements and free slots are the depth
and what is left of the array. -/
theorem QueueKept.awake {s : QueueState ι β} (h : QueueKept len size es s) :
    QueueAwake len size s := by
  obtain ⟨hsize, hpos, hle⟩ := depthOk_of_consistent h.consistent
  have helements : (elements s.data : Int) = s.data.depth := Int.toNat_of_nonneg hpos
  have hfree : (freeSlots s.data : Int) = size - s.data.depth := by
    unfold freeSlots
    rw [hsize]
    omega
  have hpop := h.popcv.served
  have hpush := h.pushcv.served
  constructor
  · exact hpos
  · exact hle
  · intro hsleeper
    rw [← helements]
    exact Int.ofNat_le.mpr (hpop hsleeper)
  · intro hsleeper
    rw [← hfree]
    exact Int.ofNat_le.mpr (hpush hsleeper)
  · intro hlock hsleeper
    rw [← helements]
    exact Int.ofNat_le.mpr (hpop.free h.consistent hlock hsleeper)
  · intro hlock hsleeper
    rw [← hfree]
    exact Int.ofNat_le.mpr (hpush.free h.consistent hlock hsleeper)
  · intro hstuck hsleeper
    rw [← helements, hpop.stuck h.consistent hstuck hsleeper]
    rfl
  · intro hstuck hsleeper
    have hnone := hpush.stuck h.consistent hstuck hsleeper
    omega

/-- No wake-up is lost in the queues. Any number of threads call the functions of a queue from the
state that a constructor leaves, and `mqueue_wait` is called by a sole consumer if at all. Then
every state that they reach is awake, whichever thread goes on and whom a signal wakes. -/
theorem queue_awake {queue : Int → β} {mq : QueueData β} {s : QueueState ι β}
    (hmq : mq = QueueData.new size queue ∨ mq = QueueData.newFreeq size queue)
    (hes : SoleWaiter es) (hrun : run (step (queueCode len)) (State.init mq) es = .ok s) :
    QueueAwake len size s := by
  have hok : DepthOk size mq := by
    cases hmq with
    | inl hnew =>
        subst hnew
        exact ⟨rfl, Int.le_refl 0, Int.natCast_nonneg size⟩
    | inr hfreeq =>
        subst hfreeq
        exact ⟨rfl, Int.natCast_nonneg size, Int.le_refl _⟩
  have hkept : QueueKept len size es s :=
    run_invariant_along (fun s e t h he hst => h.step hes he hst) (queueKept_init len es hok)
      (along_of_forall fun e he => he) hrun
  exact hkept.awake

end Run

/-- Two threads sleep in `mqueue_pop`, and a third pushes. -/
def popPopPush : List (QueueEvent (Fin 3) Int) :=
  [.call 0 .pop, .lock 0, .turn 0 none, .call 1 .pop, .lock 1, .turn 1 none,
    .call 2 (.push 5), .lock 2, .turn 2 (some 0), .turn 2 none]

/-- One of them sleeps on, and the other is woken for the one element. -/
theorem queue_awake_popPopPush :
    ∃ s : QueueState (Fin 3) Int,
      run (step (queueCode fun m => m)) (State.init (.new 4 fun _ => 0)) popPopPush = .ok s ∧
        s.lock = none ∧ s.Sleeper .popcv ∧ s.data.depth = 1 ∧ QueueAwake (fun m => m) 4 s := by
  have hes : SoleWaiter popPopPush := by
    intro i j f hwait
    simp [popPopPush] at hwait
  exact ⟨_, rfl, rfl, ⟨1, rfl⟩, rfl, queue_awake (.inl rfl) hes rfl⟩

end Proofs

end Iptfs
