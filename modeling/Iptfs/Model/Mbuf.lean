import Iptfs.Model.Basic

/-!
# `Iptfs.Model.Mbuf`: buffers, inner packets, and the queues

`src/src/mbuf.c` and the inline functions of `src/src/iptfs.h`.

* `Mbuf` is a buffer of the ingress with the packet it holds.
* `Tbuf` is a buffer of the egress that holds a received datagram. The C program moves
  `tbuf->start` over it, and `start` counts how far.
* `Miov` is an inner packet under reassembly: slices of received datagrams. An `Iovec`
  keeps the buffer and the place of a slice, and the bytes there. How many slices the
  arrays of a `struct miov` have room for is not part of it.
* `Queue` is the array stack that `struct mqueue` and `struct miovq` share. The list holds
  the elements from index `depth - 1` down to `0`. Its field says that the depth never
  passes the size, so a queue that has overrun its array cannot be built.
-/

set_option autoImplicit false

namespace Iptfs

/-- A `struct mbuf` of the ingress. `id` is its address, and `data` the bytes from `start`
to `end`. -/
structure Mbuf where
  id : Nat
  data : List UInt8
  refcnt : Nat
  deriving DecidableEq, Repr

/-- `MBUF_LEN(m)`. -/
def Mbuf.len (m : Mbuf) : Nat := m.data.length

/-- `mbuf_reset`. -/
def mbufReset (m : Mbuf) : Res Mbuf :=
  if m.refcnt = 0 then .ok { m with data := [] } else .error .assertRefcnt

/-- A `struct mbuf` of the egress with the datagram received into it. `id` is its address,
`data` the bytes received, and `start` the distance from the first of them to
`tbuf->start`. -/
structure Tbuf where
  id : Nat
  data : List UInt8
  start : Nat
  deriving DecidableEq, Repr

/-- A datagram as `read_tfs_pkts` hands it over: nothing of it is consumed. -/
def Tbuf.fresh (id : Nat) (data : List UInt8) : Tbuf := ⟨id, data, 0⟩

/-- `MBUF_LEN(tbuf)`. -/
def Tbuf.len (t : Tbuf) : Nat := t.data.length - t.start

/-- The bytes from `tbuf->start` to `tbuf->end`. -/
def Tbuf.rest (t : Tbuf) : List UInt8 := t.data.drop t.start

/-- One entry of the `iov` and `mbufs` arrays of a `struct miov`. -/
structure Iovec where
  mbuf : Nat
  base : Nat
  bytes : List UInt8
  deriving DecidableEq, Repr

/-- A `struct miov`. `niov` is the number of entries. -/
structure Miov where
  iov : List Iovec
  len : Nat
  left : Nat
  deriving DecidableEq, Repr

namespace Miov

/-- A miov as the zeroed pool has it, and as `miov_reset` leaves it. -/
def clean : Miov := ⟨[], 0, 0⟩

/-- `m->niov`. -/
def niov (m : Miov) : Nat := m.iov.length

/-- The bytes of the inner packet, as `writev` writes them. -/
def bytes (m : Miov) : List UInt8 := (m.iov.map Iovec.bytes).flatten

@[simp] theorem bytes_clean : clean.bytes = [] := rfl

@[simp] theorem len_clean : clean.len = 0 := rfl

@[simp] theorem left_clean : clean.left = 0 := rfl

end Miov

/-- `miov_reset`, for the fields of the miov. The references it drops are in
`Iptfs.Model.Egress`. -/
def miovReset (_ : Miov) : Miov := { iov := [], len := 0, left := 0 }

/-- `miov_addmbuf(mi, m, start, len)`, with `start` the distance of the slice from the
first byte received. A slice that passes the bytes received is a read outside them. -/
def miovAddmbuf (mi : Miov) (m : Tbuf) (start len : Nat) : Res Miov :=
  if start + len ≤ m.data.length then
    .ok { mi with
      iov := mi.iov ++ [⟨m.id, start, (m.data.drop start).take len⟩]
      len := mi.len + len }
  else .error .outOfBounds

/-- A `struct mqueue` or a `struct miovq`, with elements of type `β`. -/
structure Queue (β : Type) where
  size : Nat
  queue : List β
  depth_le : queue.length ≤ size

namespace Queue

variable {β : Type}

/-- `mq->depth`. -/
def depth (mq : Queue β) : Nat := mq.queue.length

/-- A queue without elements. -/
def empty (size : Nat) : Queue β := ⟨size, [], Nat.zero_le _⟩

/-- The pop of either queue: `mq->queue[--mq->depth]`. `none` is a caller that waits on
`popcv`. -/
def pop (mq : Queue β) : Option (β × Queue β) :=
  match h : mq.queue with
  | [] => none
  | m :: rest => some (m, { mq with
      queue := rest
      depth_le := Nat.le_of_succ_le (by have := mq.depth_le; rw [h] at this; exact this) })

/-- The push of either queue: `mq->queue[mq->depth++] = m`. `none` is a caller that waits
on `pushcv`. -/
def push (mq : Queue β) (m : β) : Option (Queue β) :=
  if h : mq.queue.length < mq.size then
    some { mq with queue := m :: mq.queue, depth_le := h }
  else none

/-- `mqueue_trypop` hands out the mbuf at the head of the list, and leaves the rest and the size. -/
theorem pop_eq_some {mq mq' : Queue β} {m : β} :
    mq.pop = some (m, mq') ↔ mq.queue = m :: mq'.queue ∧ mq'.size = mq.size := by
  obtain ⟨size, queue, hle⟩ := mq
  obtain ⟨size', queue', hle'⟩ := mq'
  cases queue with
  | nil => simp [pop]
  | cons a rest =>
      simp only [pop, Option.some.injEq, Prod.mk.injEq, mk.injEq, List.cons.injEq]
      grind

/-- It finds nothing exactly when the queue is empty. -/
theorem pop_eq_none {mq : Queue β} : mq.pop = none ↔ mq.queue = [] := by
  obtain ⟨size, queue, hle⟩ := mq
  cases queue <;> simp [pop]

/-- `mqueue_push` puts the mbuf at the head, where the next pop finds it. -/
theorem push_eq_some {mq mq' : Queue β} {m : β} :
    mq.push m = some mq' ↔ mq'.queue = m :: mq.queue ∧ mq'.size = mq.size := by
  obtain ⟨size, queue, hle⟩ := mq
  obtain ⟨size', queue', hle'⟩ := mq'
  simp only [push]
  split
  · simp only [Option.some.injEq, mk.injEq]
    grind
  · rename_i hfull
    simp only [reduceCtorEq, false_iff, not_and]
    intro hq hs
    subst hq hs
    exact hfull hle'

/-- It has to wait exactly when as many mbufs are there as the queue holds. -/
theorem push_eq_none {mq : Queue β} {m : β} : mq.push m = none ↔ mq.queue.length = mq.size := by
  have := mq.depth_le
  simp only [push]
  split <;> simp <;> omega

/-- A queue that is not empty can be popped. -/
theorem exists_pop {mq : Queue β} {m : β} {rest : List β} (h : mq.queue = m :: rest) :
    ∃ mq', mq.pop = some (m, mq') ∧ mq'.queue = rest ∧ mq'.size = mq.size := by
  cases hpop : mq.pop with
  | none =>
      rw [pop_eq_none.mp hpop] at h
      cases h
  | some p =>
      obtain ⟨m', mq'⟩ := p
      obtain ⟨hq, hsize⟩ := pop_eq_some.mp hpop
      rw [h] at hq
      cases hq
      exact ⟨mq', rfl, rfl, hsize⟩

/-- A queue that is not full can be pushed on. -/
theorem exists_push {mq : Queue β} (h : mq.queue.length < mq.size) (m : β) :
    ∃ mq', mq.push m = some mq' ∧ mq'.queue = m :: mq.queue ∧ mq'.size = mq.size := by
  cases hpush : mq.push m with
  | none =>
      have := push_eq_none.mp hpush
      omega
  | some mq' => exact ⟨mq', rfl, push_eq_some.mp hpush⟩

end Queue

/-- The queue that `mqueue_new_freeq` makes, from a zeroed pool of `size` elements. The last
of them is on top. -/
def mqueueNewFreeq {β : Type} (size : Nat) (elem : Nat → β) : Queue β where
  size := size
  queue := (List.range size).reverse.map elem
  depth_le := by simp

/-- `mqueue_pop`. -/
def mqueuePop {β : Type} (mq : Queue β) : Option (β × Queue β) := mq.pop

/-- `mqueue_push` on a packet whose fields are set. -/
def mqueuePush {β : Type} (mq : Queue β) (m : β) : Option (Queue β) := mq.push m

/-- `miovq_pop`, "an exact copy of mqueue_pop except for the types". -/
def miovqPop {β : Type} (mq : Queue β) : Option (β × Queue β) := mq.pop

/-- `miovq_push` on a miov whose fields are set. -/
def miovqPush {β : Type} (mq : Queue β) (m : β) : Option (Queue β) := mq.push m

/-- `mqueue_trypop(mq, maxsize)`, with `len` for `MBUF_LEN`. It never waits. -/
def mqueueTrypop {β : Type} (len : β → Nat) (mq : Queue β) (maxsize : Nat) :
    Option β × Queue β :=
  match mq.pop with
  | none => (none, mq)
  -- A packet that is too long stays on the queue.
  | some (m, rest) => if maxsize ≠ 0 ∧ len m > maxsize then (none, mq) else (some m, rest)

end Iptfs
