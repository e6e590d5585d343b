import Mathlib.Algebra.GroupWithZero.Nat
import Mathlib.Data.List.Basic

/-!
# `Iptfs.Lib.Ring`: a ring of the latest values

An array of `size` values and an index. Each new value is written at the index, and the
index moves on to the next place, from the last one back to zero. So the array always has
the latest `size` values, out of order.

* `recent` puts them in order, the oldest first. `recent_set` is the write: the oldest value
  goes, and the new one comes last.
* `Ring` ties an array to the history of everything written to it. `Ring.write` is the step,
  and `Ring.recent_of_full` reads the history back once the ring is full. `Ring.get_of_full`
  and `Ring.get_of_short` say what the next write takes the place of.
* `latest` is the window over the history: the last `size` values, or all of them while there
  are fewer. `latest_concat_of_short` and `latest_concat_of_full` are its step.
-/

set_option autoImplicit false

namespace Iptfs.Lib

variable {α : Type}

/-- The values of the ring, the oldest first. -/
def recent (values : List α) (index : Nat) : List α := values.drop index ++ values.take index

/-- The place after `index`. -/
def ringNext (size index : Nat) : Nat := if index + 1 = size then 0 else index + 1

/-- The values in the order in which they came are the values of the ring, each as often. -/
theorem recent_perm (values : List α) (index : Nat) : (recent values index).Perm values := by
  have hsplit : (values.take index ++ values.drop index).Perm values := by
    rw [List.take_append_drop]
  exact List.perm_append_comm.trans hsplit

/-- A write takes the place of the oldest value. -/
theorem recent_set {values : List α} {index : Nat} (h : index < values.length) (v : α) :
    recent (values.set index v) (ringNext values.length index) =
      (recent values index).tail ++ [v] := by
  have hset : values.set index v = values.take index ++ v :: values.drop (index + 1) := by
    rw [List.set_eq_take_append_cons_drop, if_pos h]
  have htail : (recent values index).tail = values.drop (index + 1) ++ values.take index := by
    rw [recent, List.drop_eq_getElem_cons h]
    rfl
  have hlen : (values.take index).length = index := List.length_take_of_le (Nat.le_of_lt h)
  rw [htail, hset, ringNext]
  by_cases hend : index + 1 = values.length
  · -- The index comes round to zero.
    have hnil : values.drop (index + 1) = [] := List.drop_eq_nil_of_le (by omega)
    rw [if_pos hend, hnil, recent, List.drop_zero, List.take_zero, List.append_nil,
      List.nil_append]
  · rw [if_neg hend, recent]
    have hdrop : (values.take index ++ v :: values.drop (index + 1)).drop (index + 1) =
        values.drop (index + 1) := by
      rw [List.drop_append, hlen, List.drop_eq_nil_of_le (by omega), Nat.add_sub_cancel_left]
      rfl
    have htake : (values.take index ++ v :: values.drop (index + 1)).take (index + 1) =
        values.take index ++ [v] := by
      rw [List.take_append, hlen, List.take_of_length_le (by omega), Nat.add_sub_cancel_left]
      rfl
    rw [hdrop, htake, List.append_assoc]

/-- The ring that began with `size` times `start`, after the values `history`. -/
structure Ring (start : α) (size : Nat) (values : List α) (index : Nat) (history : List α) :
    Prop where
  length_eq : values.length = size
  index_eq : index = history.length % size
  recent_eq : recent values index = (List.replicate size start ++ history).drop history.length

/-- A ring that is filled with one value holds the empty history. -/
theorem ring_replicate (start : α) (size : Nat) :
    Ring start size (List.replicate size start) 0 [] where
  length_eq := List.length_replicate
  index_eq := (Nat.zero_mod size).symm
  recent_eq := by
    show (List.replicate size start).drop 0 ++ (List.replicate size start).take 0 =
      (List.replicate size start ++ []).drop 0
    rw [List.drop_zero, List.take_zero, List.drop_zero]

/-- The index after one more value. -/
theorem ringNext_mod {size : Nat} (hsize : 0 < size) (n : Nat) :
    ringNext size (n % size) = (n + 1) % size := by
  have hlt : n % size < size := Nat.mod_lt n hsize
  have hnext : (n + 1) % size = (n % size + 1) % size := (Nat.mod_add_mod n size 1).symm
  rw [ringNext, hnext]
  by_cases hend : n % size + 1 = size
  · rw [if_pos hend, hend, Nat.mod_self]
  · have hstay : (n % size + 1) % size = n % size + 1 := Nat.mod_eq_of_lt (by omega)
    rw [if_neg hend, hstay]

/-- One more value is written. -/
theorem Ring.write {start : α} {size index : Nat} {values history : List α}
    (h : Ring start size values index history) (hsize : 0 < size) (v : α) :
    Ring start size (values.set index v) (ringNext size index) (history ++ [v]) where
  length_eq := by
    rw [List.length_set, h.length_eq]
  index_eq := by
    rw [h.index_eq, List.length_append]
    exact ringNext_mod hsize _
  recent_eq := by
    have hlt : index < values.length := by
      rw [h.length_eq, h.index_eq]
      exact Nat.mod_lt _ hsize
    have hset := recent_set hlt v
    rw [h.length_eq, h.recent_eq, List.tail_drop] at hset
    have hle : history.length + 1 ≤ (List.replicate size start ++ history).length := by
      rw [List.length_append, List.length_replicate]
      omega
    rw [hset, List.length_append, List.length_singleton, ← List.append_assoc,
      List.drop_append_of_le_length hle]

/-- The value at the index is the oldest one. -/
theorem head?_recent {values : List α} {index : Nat} (h : index < values.length) :
    (recent values index).head? = values[index]? := by
  rw [recent, List.drop_eq_getElem_cons h, List.getElem?_eq_getElem h]
  rfl

/-- A full ring has the last `size` values written. -/
theorem Ring.recent_of_full {start : α} {size index : Nat} {values history : List α}
    (h : Ring start size values index history) (hfull : size ≤ history.length) :
    recent values index = history.drop (history.length - size) := by
  have hle : (List.replicate size start).length ≤ history.length := by
    rw [List.length_replicate]
    exact hfull
  rw [h.recent_eq, List.drop_append, List.drop_eq_nil_of_le hle, List.nil_append,
    List.length_replicate]

/-- Where the index has come round to zero, the ring has the last `size` values written. -/
theorem Ring.recent_of_round {start : α} {size index k : Nat} {values history : List α}
    (h : Ring start size values index history) (hround : history.length = size * (k + 1)) :
    recent values index = history.drop (size * k) := by
  rw [Nat.mul_succ] at hround
  rw [h.recent_of_full (by omega), hround, Nat.add_sub_cancel]

/-- In a full ring the value at the index is the oldest of the last `size`. -/
theorem Ring.get_of_full {start : α} {size index : Nat} {values history : List α}
    (h : Ring start size values index history) (hsize : 0 < size)
    (hfull : size ≤ history.length) :
    values[index]? = (history.drop (history.length - size)).head? := by
  have hlt : index < values.length := by
    rw [h.length_eq, h.index_eq]
    exact Nat.mod_lt _ hsize
  rw [← head?_recent hlt, h.recent_of_full hfull]

/-- Before the ring is full the value at the index is still that of the start. -/
theorem Ring.get_of_short {start : α} {size index : Nat} {values history : List α}
    (h : Ring start size values index history) (hshort : history.length < size) :
    values[index]? = some start := by
  have hlt : index < values.length := by
    rw [h.length_eq, h.index_eq]
    exact Nat.mod_lt _ (by omega)
  rw [← head?_recent hlt, h.recent_eq, List.head?_drop,
    List.getElem?_append_left (by rwa [List.length_replicate]), List.getElem?_replicate,
    if_pos hshort]

/-- The sum of the values after one of them is replaced. -/
theorem sum_set_add {l : List Nat} {i old : Nat} (v : Nat) (h : l[i]? = some old) :
    (l.set i v).sum + old = l.sum + v := by
  induction l generalizing i with
  | nil => cases h
  | cons a l ih =>
      cases i with
      | zero =>
          cases h
          rw [List.set_cons_zero, List.sum_cons, List.sum_cons]
          omega
      | succ i =>
          have hrest : (l.set i v).sum + old = l.sum + v := ih h
          rw [List.set_cons_succ, List.sum_cons, List.sum_cons]
          omega

/-- The last `size` values of a history. -/
def latest (size : Nat) (history : List α) : List α := history.drop (history.length - size)

/-- Of a long history the ring has its size in values, and all of a short one. -/
@[simp] theorem length_latest (size : Nat) (history : List α) :
    (latest size history).length = min history.length size := by
  rw [latest, List.length_drop]
  omega

/-- The window is still filling: nothing goes. -/
theorem latest_concat_of_short {size : Nat} {history : List α} (h : history.length < size)
    (v : α) : latest size (history ++ [v]) = latest size history ++ [v] := by
  have hlen : (history ++ [v]).length - size = 0 := by
    rw [List.length_append, List.length_singleton]
    omega
  have hlen' : history.length - size = 0 := by omega
  rw [latest, latest, hlen, hlen', List.drop_zero, List.drop_zero]

/-- The window is full: the oldest value goes, and the new one comes last. -/
theorem latest_concat_of_full {size : Nat} {history : List α} (hsize : 0 < size)
    (h : size ≤ history.length) (v : α) :
    latest size (history ++ [v]) = (latest size history).tail ++ [v] := by
  have hlen : (history ++ [v]).length - size = history.length - size + 1 := by
    rw [List.length_append, List.length_singleton]
    omega
  rw [latest, latest, hlen, List.tail_drop, List.drop_append_of_le_length (by omega)]

/-- The sum over a full window, with one more value in. -/
theorem sum_latest_concat {size oldest : Nat} {history : List Nat} (hsize : 0 < size)
    (h : size ≤ history.length) (hold : (latest size history).head? = some oldest) (v : Nat) :
    (latest size (history ++ [v])).sum + oldest = (latest size history).sum + v := by
  obtain ⟨rest, hrest⟩ := List.head?_eq_some_iff.mp hold
  rw [latest_concat_of_full hsize h, hrest, List.tail_cons, List.sum_append, List.sum_singleton,
    List.sum_cons]
  omega

end Iptfs.Lib
