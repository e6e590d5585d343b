import Iptfs.Lib.Monitor

/-!
# `Iptfs.Python.QueueLock`: the `MQueue` between threads

`MQueue.pop`, `MQueue.trypop` and `MQueue.push` of `src/iptfs/mbuf.py`, as the code of a monitor.
`push_cv` and `pop_cv` are conditions of the one lock. `pop` and `push` notify each time they take
or add an element, and `trypop` only when the queue was full.

A thread that waits on a `threading.Condition` wakes up when it is notified, and not by itself.
What `push` does with `reset` before it takes the lock is not part of it.
-/

set_option autoImplicit false

namespace Iptfs.Py

open Iptfs.Lib.Monitor

variable {β : Type}

/-- The conditions of an `MQueue`. -/
inductive MQueueCond
  | pushCv
  | popCv
  deriving DecidableEq, Repr

/-- What the lock of an `MQueue` protects. The end of `mbufs` is the top. -/
structure MQueue (β : Type) where
  mbufs : List β
  mcount : Nat

/-- `MQueue.__init__`. A queue that manages its buffers makes `count` of them. -/
def MQueue.init (count : Nat) (mbuf : Nat → β) (manage : Bool) : MQueue β :=
  ⟨if manage then (List.range count).map mbuf else [], count⟩

/-- `MQueue.empty`. -/
def MQueue.Empty (mq : MQueue β) : Prop := mq.mbufs = []

/-- `MQueue.full`. -/
def MQueue.Full (mq : MQueue β) : Prop := mq.mbufs.length ≥ mq.mcount

instance MQueue.decidableEmpty (mq : MQueue β) : Decidable mq.Empty :=
  decidable_of_iff (mq.mbufs.isEmpty = true) List.isEmpty_iff

instance MQueue.decidableFull (mq : MQueue β) : Decidable mq.Full :=
  inferInstanceAs (Decidable (_ ≥ _))

/-- `self.mbufs.pop()`, for what it leaves in the queue. -/
def MQueue.take (mq : MQueue β) : MQueue β := { mq with mbufs := mq.mbufs.dropLast }

/-- `self.mbufs.append(m)`. -/
def MQueue.put (mq : MQueue β) (m : β) : MQueue β := { mq with mbufs := mq.mbufs ++ [m] }

/-- A call of a method. -/
inductive MQueueCall (β : Type)
  | pop
  | trypop
  | push (m : β)

/-- Where a call can be: at its first test, or, past its `notify`, at the change of the queue.
`waited` says whether it has slept. -/
inductive MQueueLoc (β : Type)
  | pop (waited : Bool)
  | popTake (waited : Bool)
  | trypop
  | trypopTake
  | push (m : β) (waited : Bool)
  | pushPut (m : β) (waited : Bool)

/-- What a call does at a location. What it returns is an mbuf or `None`. -/
abbrev MQueueAction (β : Type) := Action MQueueCond (MQueue β) (MQueueLoc β) (Option β)

/-- `MQueue.pop`. -/
def popAt (waited : Bool) (mq : MQueue β) : MQueueAction β :=
  if mq.Empty then .wait .popCv (.pop true) else .signal .pushCv (.popTake waited)

/-- `MQueue.trypop`. -/
def trypopAt (mq : MQueue β) : MQueueAction β :=
  if mq.Empty then .leave mq none
  else if mq.Full then
    -- If we were full then notify there will be push space.
    .signal .pushCv .trypopTake
  else .leave mq.take mq.mbufs.getLast?

/-- `MQueue.push`. -/
def pushAt (m : β) (waited : Bool) (mq : MQueue β) : MQueueAction β :=
  if mq.Full then .wait .pushCv (.push m true) else .signal .popCv (.pushPut m waited)

/-- The methods of an `MQueue`. -/
def mqueueCode (β : Type) :
    Code MQueueCond (MQueue β) (MQueueCall β) (MQueueLoc β) (Option β) where
  start
    | .pop => .pop false
    | .trypop => .trypop
    | .push m => .push m false
  action
    | .pop waited, mq => popAt waited mq
    | .popTake _, mq => .leave mq.take mq.mbufs.getLast?
    | .trypop, mq => trypopAt mq
    | .trypopTake, mq => .leave mq.take mq.mbufs.getLast?
    | .push m waited, mq => pushAt m waited mq
    | .pushPut m _, mq => .leave (mq.put m) none
  after
    | .pop true | .popTake true => some .popCv
    | .push _ true | .pushPut _ true => some .pushCv
    | _ => none

/-- The threads around one `MQueue`. -/
abbrev MQueueState (ι β : Type) := State ι MQueueCond (MQueue β) (MQueueLoc β) (Option β)

/-- One step of one of them. None wakes up by itself. -/
def mqueueStep {ι : Type} [DecidableEq ι] [Fintype ι] (s : MQueueState ι β) :
    Event ι (MQueueCall β) → Except Unit (MQueueState ι β)
  | .spurious _ => .error ()
  | e => step (mqueueCode β) s e

end Iptfs.Py
