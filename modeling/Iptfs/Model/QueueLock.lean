import Iptfs.Lib.Monitor
import Mathlib.Data.Int.Order.Basic

/-!
# `Iptfs.Model.QueueLock`: the queues between threads

The functions of `src/src/mbuf.c` on one `struct mqueue`, as the code of a monitor: its lock is
`mq->lock`, and its conditions are `popcv` and `pushcv`. `miovq_pop` and `miovq_push` are
`mqueue_pop` and `mqueue_push` "except for the types", so a `struct miovq` is the same monitor
with calls of these two alone.

`Iptfs.Model.Mbuf` has the same queues without the lock. Here nothing keeps `depth` within the
array: it is a plain `int`, and what lies outside is memory that the array does not own.
What `mqueue_push` and `miovq_push` do before they take the lock, `mbuf_reset` and `miov_reset`,
is not part of it.
-/

set_option autoImplicit false

namespace Iptfs

open Iptfs.Lib.Monitor

variable {β : Type}

/-- The condition variables of a queue. -/
inductive QueueCond
  | popcv
  | pushcv
  deriving DecidableEq, Repr

/-- What the lock of a queue protects. `queue` is memory from the start of the array on. -/
structure QueueData (β : Type) where
  size : Nat
  depth : Int
  queue : Int → β

/-- The queue that `mqueue_new` and `miovq_new` make, with what `malloc` returns in the array. -/
def QueueData.new (size : Nat) (queue : Int → β) : QueueData β := ⟨size, 0, queue⟩

/-- The queue that `mqueue_new_freeq` and `miovq_new_freeq` make. -/
def QueueData.newFreeq (size : Nat) (queue : Int → β) : QueueData β := ⟨size, size, queue⟩

/-- `MQ_FULL(mq)`. -/
def QueueData.Full (mq : QueueData β) : Prop := mq.depth = mq.size

/-- `MQ_EMPTY(mq)`. -/
def QueueData.Empty (mq : QueueData β) : Prop := mq.depth = 0

instance QueueData.decidableFull (mq : QueueData β) : Decidable mq.Full :=
  inferInstanceAs (Decidable (_ = _))

instance QueueData.decidableEmpty (mq : QueueData β) : Decidable mq.Empty :=
  inferInstanceAs (Decidable (_ = _))

/-- `mq->queue[--mq->depth]`, for what it leaves in the queue. -/
def QueueData.take (mq : QueueData β) : QueueData β := { mq with depth := mq.depth - 1 }

/-- `mq->queue[mq->depth - 1]`. -/
def QueueData.last (mq : QueueData β) : β := mq.queue (mq.depth - 1)

/-- `mq->queue[mq->depth++] = m`. -/
def QueueData.put (mq : QueueData β) (m : β) : QueueData β :=
  { mq with depth := mq.depth + 1, queue := Function.update mq.queue mq.depth m }

/-- A call: `mqueue_pop`, `mqueue_wait`, `mqueue_trypop(mq, maxsize)` or `mqueue_push(mq, m)`. -/
inductive QueueCall (β : Type)
  | pop
  | wait
  | trypop (maxsize : Int)
  | push (m : β)

/-- Where a call can be: at its first test, or, past its signal, at the change of the queue.
`waited` says whether it has slept. -/
inductive QueueLoc (β : Type)
  | pop (waited : Bool)
  | popTake (waited : Bool)
  | wait (waited : Bool)
  | trypop (maxsize : Int)
  | trypopTake (m : β)
  | push (m : β) (waited : Bool)
  | pushPut (m : β) (waited : Bool)

/-- What a call returns: an mbuf or `NULL`, the depth, or nothing. -/
inductive QueueRet (β : Type)
  | mbuf (m : Option β)
  | depth (depth : Int)
  | void

/-- What a call does at a location. -/
abbrev QueueAction (β : Type) := Action QueueCond (QueueData β) (QueueLoc β) (QueueRet β)

/-- `mqueue_pop` and `miovq_pop`. -/
def mqueuePopAt (waited : Bool) (mq : QueueData β) : QueueAction β :=
  if mq.Empty then .wait .popcv (.pop true) else .signal .pushcv (.popTake waited)

/-- `mqueue_wait`. -/
def mqueueWaitAt (mq : QueueData β) : QueueAction β :=
  if mq.Empty then .wait .popcv (.wait true) else .leave mq .void

/-- `mqueue_trypop`, with `len` for `MBUF_LEN`. -/
def mqueueTrypopAt (len : β → Int) (maxsize : Int) (mq : QueueData β) : QueueAction β :=
  if mq.Empty then .leave mq (.mbuf none)
  else if maxsize ≠ 0 ∧ len mq.last > maxsize then .leave mq (.mbuf none)
  else .signal .pushcv (.trypopTake mq.last)

/-- `mqueue_push` and `miovq_push`. -/
def mqueuePushAt (m : β) (waited : Bool) (mq : QueueData β) : QueueAction β :=
  if mq.Full then .wait .pushcv (.push m true) else .signal .popcv (.pushPut m waited)

/-- The functions of a queue. -/
def queueCode (len : β → Int) :
    Code QueueCond (QueueData β) (QueueCall β) (QueueLoc β) (QueueRet β) where
  start
    | .pop => .pop false
    | .wait => .wait false
    | .trypop maxsize => .trypop maxsize
    | .push m => .push m false
  action
    | .pop waited, mq => mqueuePopAt waited mq
    | .popTake _, mq => .leave mq.take (.mbuf (some mq.last))
    | .wait _, mq => mqueueWaitAt mq
    | .trypop maxsize, mq => mqueueTrypopAt len maxsize mq
    | .trypopTake m, mq => .leave mq.take (.mbuf (some m))
    | .push m waited, mq => mqueuePushAt m waited mq
    | .pushPut m _, mq => .leave (mq.put m) (.depth (mq.depth + 1))
  after
    | .pop true | .popTake true | .wait true => some .popcv
    | .push _ true | .pushPut _ true => some .pushcv
    | _ => none

/-- The threads around one queue. -/
abbrev QueueState (ι β : Type) := State ι QueueCond (QueueData β) (QueueLoc β) (QueueRet β)

/-- A step of one of them. -/
abbrev QueueEvent (ι β : Type) := Event ι (QueueCall β)

/-- A call that takes from the queue, or waits to. -/
def QueueCall.Consumes : QueueCall β → Prop
  | .push _ => False
  | _ => True

/-- `mqueue_wait` is for a sole consumer: where a thread calls it, no other one takes anything. -/
def SoleWaiter {ι : Type} (es : List (QueueEvent ι β)) : Prop :=
  ∀ i j f, .call i .wait ∈ es → .call j f ∈ es → f.Consumes → j = i

end Iptfs
