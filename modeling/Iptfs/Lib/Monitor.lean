import Iptfs.Lib.Run
import Mathlib.Algebra.BigOperators.Group.Finset.Basic
import Mathlib.Data.Fintype.Basic

/-!
# `Iptfs.Lib.Monitor`: threads, one lock and condition variables

Any number of threads call functions that share data under one lock. `Code` is the program of
these functions: at each location, a thread that has the lock looks at the data and waits on a
condition variable, signals one, or changes the data, unlocks and returns. `Place` says where a
thread is, and `step` is one step of one thread.

* A signal wakes one of the threads that sleep on the condition, if there is any. Which one it
  wakes is part of the event.
* A woken thread has to get the lock again. Before it does, other threads may get it, those that
  have just called included.
* A thread may also wake up without a signal.

`Moves` takes a step apart, with one constructor for each kind. `Verified` are the local
conditions on the code under which the data is as it should be (`Verified.step`), and
`WakeRule` those under which no wake-up is lost on a condition (`WakeRule.step`): while a thread
sleeps there, the woken ones are as many as can go on. Where no thread can go on, each is outside
or asleep (`Stuck.idle`), and nothing is there for the sleepers (`Served.stuck`).
-/

set_option autoImplicit false

namespace Iptfs.Lib.Monitor

variable {ι κ δ F L ρ : Type}

/-- What a thread does with the lock: sleep on `k` and go on at `l` when woken, signal `k` and go
on at `l`, or change the data to `d`, unlock and return `r`. -/
inductive Action (κ δ L ρ : Type)
  | wait (k : κ) (l : L)
  | signal (k : κ) (l : L)
  | leave (d : δ) (r : ρ)

/-- The functions `F` of a monitor: where each starts, what is done at a location, and for a
location in a call that has slept, on what it slept last. -/
structure Code (κ δ F L ρ : Type) where
  start : F → L
  action : L → δ → Action κ δ L ρ
  after : L → Option κ

/-- Where a thread is: outside, with what its last call returned, at the lock with the location
it enters, inside with the lock, asleep on a condition, or woken and not back inside. -/
inductive Place (κ L ρ : Type)
  | outside (r : Option ρ)
  | entering (l : L)
  | inside (l : L)
  | asleep (k : κ) (l : L)
  | woken (k : κ) (l : L)

/-- The data, the thread that has the lock, and where each thread is. -/
structure State (ι κ δ L ρ : Type) where
  data : δ
  lock : Option ι
  place : ι → Place κ L ρ

/-- A thread calls a function, gets the lock, takes its turn inside, or wakes up by itself.
`wakes` is the sleeper that a signal wakes. -/
inductive Event (ι F : Type)
  | call (i : ι) (f : F)
  | lock (i : ι)
  | turn (i : ι) (wakes : Option ι)
  | spurious (i : ι)
  deriving DecidableEq

/-- Nobody is inside, and no thread has called anything. -/
def State.init (d : δ) : State ι κ δ L ρ := ⟨d, none, fun _ => .outside none⟩

/-- The thread sleeps on `k`. -/
def Place.Sleeps (k : κ) : Place κ L ρ → Prop
  | .asleep k' _ => k' = k
  | _ => False

/-- A thread that sleeps on `k` is asleep there at some location. -/
theorem Place.Sleeps.eq {k : κ} {p : Place κ L ρ} (h : p.Sleeps k) : ∃ l, p = .asleep k l := by
  cases p with
  | asleep k' l =>
      have hk : k' = k := h
      exact ⟨l, by rw [hk]⟩
  | outside r => cases h
  | entering l => cases h
  | inside l => cases h
  | woken k' l => cases h

instance Place.decidableSleeps [DecidableEq κ] (k : κ) :
    (p : Place κ L ρ) → Decidable (p.Sleeps k)
  | .asleep k' _ => inferInstanceAs (Decidable (k' = k))
  | .outside _ | .entering _ | .inside _ | .woken _ _ => .isFalse not_false

section Step

variable [DecidableEq ι]

/-- Thread `i` goes to `p`. -/
def State.move (s : State ι κ δ L ρ) (i : ι) (p : Place κ L ρ) : State ι κ δ L ρ :=
  { s with place := Function.update s.place i p }

@[simp] theorem State.data_move (s : State ι κ δ L ρ) (i : ι) (p : Place κ L ρ) :
    (s.move i p).data = s.data := rfl

@[simp] theorem State.lock_move (s : State ι κ δ L ρ) (i : ι) (p : Place κ L ρ) :
    (s.move i p).lock = s.lock := rfl

@[simp] theorem State.place_move_self (s : State ι κ δ L ρ) (i : ι) (p : Place κ L ρ) :
    (s.move i p).place i = p := by
  unfold State.move
  exact Function.update_self i p s.place

/-- A move of one thread leaves every other thread where it is. -/
theorem State.place_move_of_ne (s : State ι κ δ L ρ) {i j : ι} (p : Place κ L ρ) (h : j ≠ i) :
    (s.move i p).place j = s.place j := by
  unfold State.move
  exact Function.update_of_ne h p s.place

variable [DecidableEq κ] [Fintype ι]

/-- One step. An event that cannot happen is an error. -/
def step (code : Code κ δ F L ρ) (s : State ι κ δ L ρ) :
    Event ι F → Except Unit (State ι κ δ L ρ)
  | .call i f =>
      match s.place i with
      | .outside _ => .ok (s.move i (.entering (code.start f)))
      | _ => .error ()
  | .lock i =>
      if s.lock.isSome then .error ()
      else
        match s.place i with
        | .entering l | .woken _ l => .ok { s.move i (.inside l) with lock := some i }
        | _ => .error ()
  | .turn i wakes =>
      match s.place i with
      | .inside l =>
          match code.action l s.data, wakes with
          | .wait k l', none => .ok { s.move i (.asleep k l') with lock := none }
          | .signal k l', none =>
              if ∃ j, (s.place j).Sleeps k then .error () else .ok (s.move i (.inside l'))
          | .signal k l', some j =>
              match s.place j with
              | .asleep k' lj =>
                  if k' = k then .ok ((s.move j (.woken k lj)).move i (.inside l')) else .error ()
              | _ => .error ()
          | .leave d r, none => .ok { s.move i (.outside (some r)) with data := d, lock := none }
          | _, _ => .error ()
      | _ => .error ()
  | .spurious i =>
      match s.place i with
      | .asleep k l => .ok (s.move i (.woken k l))
      | _ => .error ()

/-- All that a step can be. -/
inductive Moves (code : Code κ δ F L ρ) (s : State ι κ δ L ρ) :
    Event ι F → State ι κ δ L ρ → Prop
  | call {i : ι} {f : F} {r : Option ρ} (hi : s.place i = .outside r) :
      Moves code s (.call i f) (s.move i (.entering (code.start f)))
  | enter {i : ι} {l : L} (hfree : s.lock = none) (hi : s.place i = .entering l) :
      Moves code s (.lock i) { s.move i (.inside l) with lock := some i }
  | resume {i : ι} {k : κ} {l : L} (hfree : s.lock = none) (hi : s.place i = .woken k l) :
      Moves code s (.lock i) { s.move i (.inside l) with lock := some i }
  | wait {i : ι} {k : κ} {l l' : L} (hi : s.place i = .inside l)
      (hcode : code.action l s.data = .wait k l') :
      Moves code s (.turn i none) { s.move i (.asleep k l') with lock := none }
  | signalNone {i : ι} {k : κ} {l l' : L} (hi : s.place i = .inside l)
      (hcode : code.action l s.data = .signal k l') (hnone : ∀ j, ¬ (s.place j).Sleeps k) :
      Moves code s (.turn i none) (s.move i (.inside l'))
  | signalSome {i j : ι} {k : κ} {l l' lj : L} (hi : s.place i = .inside l)
      (hcode : code.action l s.data = .signal k l') (hj : s.place j = .asleep k lj) :
      Moves code s (.turn i (some j)) ((s.move j (.woken k lj)).move i (.inside l'))
  | leave {i : ι} {l : L} {d : δ} {r : ρ} (hi : s.place i = .inside l)
      (hcode : code.action l s.data = .leave d r) :
      Moves code s (.turn i none) { s.move i (.outside (some r)) with data := d, lock := none }
  | spurious {i : ι} {k : κ} {l : L} (hi : s.place i = .asleep k l) :
      Moves code s (.spurious i) (s.move i (.woken k l))

/-- A step is one of the moves. The cases are the events, and in a turn what the code does at the
location, so that no later proof has to unfold `step`. -/
theorem moves_of_step {code : Code κ δ F L ρ} {s t : State ι κ δ L ρ} {e : Event ι F}
    (h : step code s e = .ok t) : Moves code s e t := by
  cases e with
  | call i f =>
      rw [step] at h
      split at h
      · rename_i hi
        cases h
        exact .call hi
      · cases h
  | lock i =>
      rw [step] at h
      -- The lock is free: a thread enters with its call, or a woken one goes on.
      split at h
      · cases h
      · rename_i hlock
        have hfree : s.lock = none := Option.not_isSome_iff_eq_none.mp hlock
        split at h
        · rename_i hi
          cases h
          exact .enter hfree hi
        · rename_i hi
          cases h
          exact .resume hfree hi
        · cases h
  | turn i wakes =>
      rw [step] at h
      split at h
      · rename_i hi
        split at h
        · rename_i hcode
          cases h
          exact .wait hi hcode
        · rename_i hcode
          split at h
          · cases h
          · -- A signal without a thread on the condition is lost.
            rename_i hnone
            cases h
            exact .signalNone hi hcode (not_exists.mp hnone)
        · rename_i hcode
          split at h
          · rename_i hj
            split at h
            · rename_i hk
              subst hk
              cases h
              exact .signalSome hi hcode hj
            · cases h
          · cases h
        · rename_i hcode
          cases h
          exact .leave hi hcode
        · cases h
      · cases h
  | spurious i =>
      rw [step] at h
      split at h
      · rename_i hi
        cases h
        exact .spurious hi
      · cases h

/-- Each of the moves is a step, so that `Moves` says exactly what can happen. -/
theorem step_of_moves {code : Code κ δ F L ρ} {s t : State ι κ δ L ρ} {e : Event ι F}
    (h : Moves code s e t) : step code s e = .ok t := by
  cases h with
  | call hi => simp only [step, hi]
  | enter hfree hi =>
      simp only [step, hfree, hi]
      rfl
  | resume hfree hi =>
      simp only [step, hfree, hi]
      rfl
  | wait hi hcode => simp only [step, hi, hcode]
  | signalNone hi hcode hnone => simp only [step, hi, hcode, not_exists.mpr hnone, if_false]
  | signalSome hi hcode hj => simp only [step, hi, hcode, hj, if_true]
  | leave hi hcode => simp only [step, hi, hcode]
  | spurious hi => simp only [step, hi]

end Step

/-! ### Counting threads -/

section Count

variable [DecidableEq ι] [Fintype ι]

/-- The sum of `f` over the places of the threads. -/
def State.count (s : State ι κ δ L ρ) (f : Place κ L ρ → Nat) : Nat := ∑ i, f (s.place i)

/-- How a count changes when one thread moves. -/
theorem State.count_move (s : State ι κ δ L ρ) (f : Place κ L ρ → Nat) (i : ι)
    (p : Place κ L ρ) : (s.move i p).count f + f (s.place i) = s.count f + f p := by
  -- Both sums are the term of `i` and the rest, and the rest is the same.
  have hrest : ∑ j ∈ Finset.univ.erase i, f ((s.move i p).place j) =
      ∑ j ∈ Finset.univ.erase i, f (s.place j) := by
    apply Finset.sum_congr rfl
    intro j hj
    rw [State.place_move_of_ne s p (Finset.ne_of_mem_erase hj)]
  have hmoved := Finset.add_sum_erase Finset.univ (fun j => f ((s.move i p).place j))
    (Finset.mem_univ i)
  have hbefore := Finset.add_sum_erase Finset.univ (fun j => f (s.place j)) (Finset.mem_univ i)
  rw [hrest, State.place_move_self] at hmoved
  unfold State.count
  omega

end Count

/-! ### One thread inside, and the data as it should be -/

/-- The thread has the lock. -/
def Place.Inside : Place κ L ρ → Prop
  | .inside _ => True
  | _ => False

/-- A thread that is inside is there at some location. -/
theorem Place.Inside.eq {p : Place κ L ρ} (h : p.Inside) : ∃ l, p = .inside l := by
  cases p with
  | inside l => exact ⟨l, rfl⟩
  | outside r => cases h
  | entering l => cases h
  | asleep k l => cases h
  | woken k l => cases h

/-- The local conditions on the code of a monitor. `inv` holds of the data while the lock is
free, `holds l` while a thread is at `l`, and at the locations in `Entry` a thread gets the lock. -/
structure Verified (code : Code κ δ F L ρ) (Entry : L → Prop) (inv : δ → Prop)
    (holds : L → δ → Prop) : Prop where
  start : ∀ f, Entry (code.start f) ∧ code.after (code.start f) = none
  entry : ∀ l d, Entry l → inv d → holds l d
  wait : ∀ l d k l', holds l d → code.action l d = .wait k l' →
    inv d ∧ Entry l' ∧ code.after l' = some k
  signal : ∀ l d k l', holds l d → code.action l d = .signal k l' → holds l' d
  leave : ∀ l d d' r, holds l d → code.action l d = .leave d' r → inv d'

/-- What holds of the place of a thread. -/
def Place.Placed (code : Code κ δ F L ρ) (Entry : L → Prop) (holds : L → δ → Prop) (d : δ) :
    Place κ L ρ → Prop
  | .outside _ => True
  | .entering l => Entry l ∧ code.after l = none
  | .inside l => holds l d
  | .asleep k l => Entry l ∧ code.after l = some k
  | .woken k l => Entry l ∧ code.after l = some k

/-- What holds of a state: the thread inside is the one with the lock, the data is as it should be
while nobody has it, and each thread is where it can be. -/
structure Consistent (code : Code κ δ F L ρ) (Entry : L → Prop) (inv : δ → Prop)
    (holds : L → δ → Prop) (s : State ι κ δ L ρ) : Prop where
  owner : ∀ i, (s.place i).Inside ↔ s.lock = some i
  free : s.lock = none → inv s.data
  places : ∀ i, (s.place i).Placed code Entry holds s.data

section Consistent

variable {code : Code κ δ F L ρ} {Entry : L → Prop} {inv : δ → Prop} {holds : L → δ → Prop}

/-- In the initial state nobody has the lock and all threads are outside. Only the data has to be
as it should be. -/
theorem consistent_init (code : Code κ δ F L ρ) (Entry : L → Prop) (holds : L → δ → Prop) {d : δ}
    (h : inv d) : Consistent code Entry inv holds (State.init d : State ι κ δ L ρ) where
  owner := fun _ => iff_of_false not_false nofun
  free := fun _ => h
  places := fun _ => trivial

/-- What holds of a thread, from where it is known to be. -/
theorem Consistent.placed {s : State ι κ δ L ρ} (h : Consistent code Entry inv holds s) {i : ι}
    {p : Place κ L ρ} (hi : s.place i = p) : p.Placed code Entry holds s.data := by
  rw [← hi]
  exact h.places i

/-- No thread is inside while the lock is free. -/
theorem Consistent.not_inside {s : State ι κ δ L ρ} (h : Consistent code Entry inv holds s)
    (hfree : s.lock = none) (i : ι) (l : L) : s.place i ≠ .inside l := by
  intro hi
  have hlock : s.lock = some i := (h.owner i).mp (by rw [hi]; trivial)
  rw [hfree] at hlock
  cases hlock

/-- A thread that is not inside does not care about the data. -/
theorem Place.Placed.data {d d' : δ} {p : Place κ L ρ} (h : p.Placed code Entry holds d)
    (hout : ¬ p.Inside) : p.Placed code Entry holds d' := by
  cases p with
  | inside l => exact absurd trivial hout
  | outside r => exact trivial
  | entering l => exact h
  | asleep k l => exact h
  | woken k l => exact h

variable [DecidableEq ι]

/-- What holds of every place, after one thread has moved. -/
theorem forall_place_move {P : Place κ L ρ → Prop} {s : State ι κ δ L ρ} {i : ι}
    {p : Place κ L ρ} (h : ∀ j, j ≠ i → P (s.place j)) (hp : P p) :
    ∀ j, P ((s.move i p).place j) := by
  intro j
  by_cases hj : j = i
  · subst hj
    rw [State.place_move_self]
    exact hp
  · rw [State.place_move_of_ne s p hj]
    exact h j hj

/-- A thread moves that stays outside the lock, or inside. -/
theorem Consistent.move {s : State ι κ δ L ρ} (h : Consistent code Entry inv holds s) {i : ι}
    {p : Place κ L ρ} (hin : p.Inside ↔ (s.place i).Inside)
    (hp : p.Placed code Entry holds s.data) : Consistent code Entry inv holds (s.move i p) where
  owner := by
    intro j
    rw [State.lock_move, ← h.owner j]
    by_cases hj : j = i
    · subst hj
      rw [State.place_move_self]
      exact hin
    · rw [State.place_move_of_ne s p hj]
  free := h.free
  places := forall_place_move (fun j _ => h.places j) hp

/-- A thread gets the lock. -/
theorem Consistent.enter {s : State ι κ δ L ρ} (h : Consistent code Entry inv holds s)
    (hfree : s.lock = none) (i : ι) {l : L} (hl : holds l s.data) :
    Consistent code Entry inv holds { s.move i (.inside l) with lock := some i } where
  owner := by
    intro j
    by_cases hj : j = i
    · subst hj
      exact iff_of_true (by rw [State.place_move_self]; trivial) rfl
    · have hout : ¬ (s.place j).Inside := by
        rw [h.owner j, hfree]
        exact nofun
      have hother : some i ≠ some j := fun h => hj (Option.some.inj h).symm
      exact iff_of_false (by rwa [State.place_move_of_ne s _ hj]) hother
  free := nofun
  places := forall_place_move (fun j _ => h.places j) hl

/-- The thread inside gives up the lock. -/
theorem Consistent.release {s : State ι κ δ L ρ} (h : Consistent code Entry inv holds s) {i : ι}
    {p : Place κ L ρ} {d : δ} (hi : (s.place i).Inside) (hout : ¬ p.Inside) (hinv : inv d)
    (hp : p.Placed code Entry holds d) :
    Consistent code Entry inv holds { s.move i p with data := d, lock := none } := by
  -- The others are outside, so the new data is nothing to them.
  have hothers : ∀ j, j ≠ i → ¬ (s.place j).Inside := by
    intro j hj hin
    have hlock : some i = some j := by rw [← (h.owner i).mp hi, (h.owner j).mp hin]
    exact hj (Option.some.inj hlock).symm
  refine ⟨?_, fun _ => hinv, ?_⟩
  · intro j
    exact iff_of_false (forall_place_move (P := fun p => ¬ p.Inside) hothers hout j)
      nofun
  · exact forall_place_move (fun j hj => (h.places j).data (hothers j hj)) hp

variable [DecidableEq κ] [Fintype ι]

/-- A step. -/
theorem Verified.step (hcode : Verified code Entry inv holds) {s t : State ι κ δ L ρ}
    {e : Event ι F} (h : Consistent code Entry inv holds s) (hst : step code s e = .ok t) :
    Consistent code Entry inv holds t := by
  cases moves_of_step hst with
  | call hi =>
      apply h.move
      · rw [hi]
        exact Iff.rfl
      · exact hcode.start _
  | enter hfree hi =>
      exact h.enter hfree _ (hcode.entry _ _ (h.placed hi).1 (h.free hfree))
  | resume hfree hi =>
      exact h.enter hfree _ (hcode.entry _ _ (h.placed hi).1 (h.free hfree))
  | wait hi hact =>
      obtain ⟨hinv, hparked⟩ := hcode.wait _ _ _ _ (h.placed hi) hact
      exact h.release (by rw [hi]; trivial) not_false hinv hparked
  | signalNone hi hact hnone =>
      apply h.move
      · rw [hi]
        exact Iff.rfl
      · exact hcode.signal _ _ _ _ (h.placed hi) hact
  | @signalSome i j k l l' lj hi hact hj =>
      -- Two threads move: first the one that is woken, then the one that has signalled.
      have hne : i ≠ j := by
        intro hij
        rw [hij, hj] at hi
        cases hi
      have hwoken : Consistent code Entry inv holds (s.move j (.woken k lj)) := by
        apply h.move
        · rw [hj]
          exact Iff.rfl
        · have hparked : (Place.asleep k lj).Placed code Entry holds s.data := h.placed hj
          exact hparked
      apply hwoken.move
      · rw [State.place_move_of_ne s _ hne, hi]
        exact Iff.rfl
      · exact hcode.signal _ _ _ _ (h.placed hi) hact
  | leave hi hact =>
      have hinv := hcode.leave _ _ _ _ (h.placed hi) hact
      exact h.release (by rw [hi]; trivial) not_false hinv trivial
  | @spurious i k l hi =>
      apply h.move
      · rw [hi]
        exact Iff.rfl
      · have hparked : (Place.asleep k l).Placed code Entry holds s.data := h.placed hi
        exact hparked

end Consistent

/-! ### A thread stays in the function that it called -/

/-- The location of a thread meets `P`, if it is at one. -/
def Place.All (P : L → Prop) : Place κ L ρ → Prop
  | .outside _ => True
  | .entering l => P l
  | .inside l => P l
  | .asleep _ l => P l
  | .woken _ l => P l

/-- Every thread is at a location of its own. -/
def Stays (own : ι → L → Prop) (s : State ι κ δ L ρ) : Prop := ∀ i, (s.place i).All (own i)

/-- A thread that is outside is at no location. -/
theorem stays_init (own : ι → L → Prop) (d : δ) : Stays own (State.init d : State ι κ δ L ρ) :=
  fun _ => trivial

/-- The location of a thread is one of its own, from where it is known to be. -/
theorem Stays.all {own : ι → L → Prop} {s : State ι κ δ L ρ} (h : Stays own s) {i : ι}
    {p : Place κ L ρ} (hi : s.place i = p) : p.All (own i) := by
  rw [← hi]
  exact h i

/-- One thread goes to a location of its own, and the others stay where they are. -/
theorem Stays.move [DecidableEq ι] {own : ι → L → Prop} {s : State ι κ δ L ρ} (h : Stays own s)
    {i : ι} {p : Place κ L ρ} (hp : p.All (own i)) : Stays own (s.move i p) := by
  intro j
  by_cases hj : j = i
  · subst hj
    rw [State.place_move_self]
    exact hp
  · rw [State.place_move_of_ne s p hj]
    exact h j

/-- A step, when the locations of a thread are closed under the code and a call starts at one. -/
theorem Stays.step [DecidableEq ι] [DecidableEq κ] [Fintype ι] {code : Code κ δ F L ρ}
    {own : ι → L → Prop} (hwait : ∀ i l d k l', own i l → code.action l d = .wait k l' → own i l')
    (hsignal : ∀ i l d k l', own i l → code.action l d = .signal k l' → own i l')
    {s t : State ι κ δ L ρ} {e : Event ι F} (h : Stays own s)
    (hcall : ∀ i f, e = .call i f → own i (code.start f)) (hst : step code s e = .ok t) :
    Stays own t := by
  cases moves_of_step hst with
  | call hi => exact h.move (hcall _ _ rfl)
  | @enter i l hfree hi =>
      have hl : own i l := h.all hi
      exact h.move (p := .inside l) hl
  | @resume i k l hfree hi =>
      have hl : own i l := h.all hi
      exact h.move (p := .inside l) hl
  | @wait i k l l' hi hact =>
      have hl : own i l' := hwait _ _ _ _ _ (h.all hi) hact
      exact h.move (p := .asleep k l') hl
  | signalNone hi hact hnone => exact h.move (hsignal _ _ _ _ _ (h.all hi) hact)
  | @signalSome i j k l l' lj hi hact hj =>
      have hlj : own j lj := h.all hj
      have hwoken : Stays own (s.move j (.woken k lj)) := h.move hlj
      exact hwoken.move (hsignal _ _ _ _ _ (h.all hi) hact)
  | @leave i l d r hi hact => exact h.move (p := .outside (some r)) trivial
  | @spurious i k l hi =>
      have hl : own i l := h.all hi
      exact h.move hl

/-! ### Wake-ups -/

/-- Some thread sleeps on `k` and has not been woken. -/
def State.Sleeper (s : State ι κ δ L ρ) (k : κ) : Prop := ∃ i, (s.place i).Sleeps k

/-- What the thread at `l` has taken on with its signals, and not done yet. -/
def Place.owes (debt : L → Nat) : Place κ L ρ → Nat
  | .inside l => debt l
  | _ => 0

/-- A thread that goes anywhere but to sleep leaves the sleepers as they were, or fewer. -/
theorem sleeper_of_move [DecidableEq ι] {k : κ} {s : State ι κ δ L ρ} {i : ι} (p : Place κ L ρ)
    (hp : ¬ p.Sleeps k) (h : (s.move i p).Sleeper k) : s.Sleeper k := by
  obtain ⟨j, hj⟩ := h
  by_cases hij : j = i
  · subst hij
    rw [State.place_move_self] at hj
    exact absurd hj hp
  · rw [State.place_move_of_ne s p hij] at hj
    exact ⟨j, hj⟩

section Owed

variable [Fintype ι] {code : Code κ δ F L ρ} {Entry : L → Prop} {inv : δ → Prop}
  {holds : L → δ → Prop}

/-- Only the thread inside owes anything. -/
theorem Consistent.owed_inside {s : State ι κ δ L ρ} (h : Consistent code Entry inv holds s)
    {i : ι} {l : L} (hi : s.place i = .inside l) (debt : L → Nat) :
    s.count (Place.owes debt) = debt l := by
  have hothers : ∀ j ∈ Finset.univ, j ≠ i → Place.owes debt (s.place j) = 0 := by
    intro j _ hj
    cases hp : s.place j with
    | inside l' =>
        have hlock : s.lock = some j := (h.owner j).mp (by rw [hp]; trivial)
        rw [(h.owner i).mp (by rw [hi]; trivial)] at hlock
        exact absurd (Option.some.inj hlock).symm hj
    | outside r => rfl
    | entering l' => rfl
    | asleep k' l' => rfl
    | woken k' l' => rfl
  unfold State.count
  rw [Finset.sum_eq_single i hothers fun hi => absurd (Finset.mem_univ i) hi, hi]
  rfl

/-- Nobody owes anything while the lock is free, since only a thread inside can. -/
theorem Consistent.owed_free {s : State ι κ δ L ρ} (h : Consistent code Entry inv holds s)
    (hfree : s.lock = none) (debt : L → Nat) : s.count (Place.owes debt) = 0 := by
  apply Finset.sum_eq_zero
  intro j _
  cases hp : s.place j with
  | inside l => exact absurd hp (h.not_inside hfree j l)
  | outside r => rfl
  | entering l => rfl
  | asleep k' l => rfl
  | woken k' l => rfl

end Owed

section Wake

variable [DecidableEq κ]

/-- Whether a call at `l` was woken from `k`. -/
def Code.claims (code : Code κ δ F L ρ) (k : κ) (l : L) : Nat :=
  if code.after l = some k then 1 else 0

/-- A call claims one wake-up at most, the one that it was woken by. -/
theorem Code.claims_le_one (code : Code κ δ F L ρ) (k : κ) (l : L) : code.claims k l ≤ 1 := by
  unfold Code.claims
  split
  · exact Nat.le_refl 1
  · exact Nat.zero_le 1

/-- Whoever takes one thing with it pays for the wake-up it came with. -/
theorem Code.claims_paid (code : Code κ δ F L ρ) (k : κ) (l : L) {left had : Nat}
    (h : left + 1 = had) : left + code.claims k l ≤ had := by
  have hle := code.claims_le_one k l
  omega

/-- Whether a call claims a wake-up on `k`, from the condition on which it slept last. -/
theorem Code.claims_of_after (code : Code κ δ F L ρ) (k : κ) {k' : κ} {l : L}
    (h : code.after l = some k') : code.claims k l = if k' = k then 1 else 0 := by
  simp only [Code.claims, h, Option.some.injEq]

/-- A thread that was woken from `k`, and is not done with it: it has to get the lock, or it has
it and is at the locations after the wait. -/
def Place.wokenOn (code : Code κ δ F L ρ) (k : κ) : Place κ L ρ → Nat
  | .woken k' _ => if k' = k then 1 else 0
  | .inside l => code.claims k l
  | _ => 0

variable [Fintype ι]

/-- How many threads were woken from `k` and are not done with it. -/
def State.woken (s : State ι κ δ L ρ) (code : Code κ δ F L ρ) (k : κ) : Nat :=
  s.count (Place.wokenOn code k)

/-- How many threads were woken from `k` and have not got the lock since. -/
def State.signalled (s : State ι κ δ L ρ) (k : κ) : Nat :=
  s.count fun
    | .woken k' _ => if k' = k then 1 else 0
    | _ => 0

/-- No wake-up is lost on `k`: while a thread sleeps there, at least as many are woken as `avail`
says can go on. -/
def Served (code : Code κ δ F L ρ) (k : κ) (avail : δ → Nat) (s : State ι κ δ L ρ) : Prop :=
  s.Sleeper k → avail s.data ≤ s.woken code k

/-- The same with what the thread inside still owes. -/
def Covered (code : Code κ δ F L ρ) (k : κ) (avail : δ → Nat) (debt : L → Nat)
    (s : State ι κ δ L ρ) : Prop :=
  s.Sleeper k → avail s.data + s.count (Place.owes debt) ≤ s.woken code k

/-- While nobody has the lock, the woken threads are those that have to get it. -/
theorem Consistent.woken_free {code : Code κ δ F L ρ} {Entry : L → Prop} {inv : δ → Prop}
    {holds : L → δ → Prop} {s : State ι κ δ L ρ} (h : Consistent code Entry inv holds s)
    (hfree : s.lock = none) (k : κ) : s.woken code k = s.signalled k := by
  apply Finset.sum_congr rfl
  intro i _
  cases hp : s.place i with
  | inside l => exact absurd hp (h.not_inside hfree i l)
  | outside r => rfl
  | entering l => rfl
  | asleep k' l => rfl
  | woken k' l => rfl

/-- Between the steps of the thread inside, a condition that is covered is served. -/
theorem Covered.served {code : Code κ δ F L ρ} {k : κ} {avail : δ → Nat} {debt : L → Nat}
    {s : State ι κ δ L ρ} (h : Covered code k avail debt s) : Served code k avail s :=
  fun hsleeper => Nat.le_trans (Nat.le_add_right _ _) (h hsleeper)

/-- The local conditions on the code under which no wake-up is lost on `k`. A signal is paid for
by the thread it wakes, and a thread that was woken takes what it was woken for. A step out that
is `exempt` needs a reason of its own. -/
structure WakeRule (code : Code κ δ F L ρ) (Entry : L → Prop) (holds : L → δ → Prop) (k : κ)
    (avail : δ → Nat) (debt : L → Nat) (exempt : L → δ → Prop) : Prop where
  entry : ∀ l, Entry l → debt l = 0
  wait : ∀ l d l', holds l d → code.action l d = .wait k l' → avail d = 0
  elsewhere : ∀ l d k' l', holds l d → code.action l d = .wait k' l' → k' ≠ k →
    code.after l ≠ some k
  signal : ∀ l d k' l', holds l d → code.action l d = .signal k' l' →
    debt l' + code.claims k l ≤ debt l + code.claims k l' + if k' = k then 1 else 0
  leave : ∀ l d d' r, holds l d → code.action l d = .leave d' r →
    exempt l d ∨ avail d' + code.claims k l ≤ avail d + debt l

variable [DecidableEq ι] {code : Code κ δ F L ρ} {Entry : L → Prop} {inv : δ → Prop}
  {holds : L → δ → Prop} {k : κ} {avail : δ → Nat} {debt : L → Nat} {exempt : L → δ → Prop}

/-- How the woken threads change when one thread moves. -/
theorem State.woken_move (code : Code κ δ F L ρ) (k : κ) {s : State ι κ δ L ρ} {i : ι}
    {p₀ : Place κ L ρ} (hi : s.place i = p₀) (p : Place κ L ρ) :
    (s.move i p).woken code k + Place.wokenOn code k p₀ =
      s.woken code k + Place.wokenOn code k p := by
  have hcount := s.count_move (Place.wokenOn code k) i p
  rw [hi] at hcount
  exact hcount

/-- A thread that goes to sleep keeps the wake-ups covered: on `k` it has found that nothing is
there, and on another variable it claims no wake-up of `k`. -/
theorem WakeRule.keeps_wait (hrule : WakeRule code Entry holds k avail debt exempt)
    {s : State ι κ δ L ρ} (h : Consistent code Entry inv holds s)
    (hs : Covered code k avail debt s) {i : ι} {k' : κ} {l l' : L} (hi : s.place i = .inside l)
    (hact : code.action l s.data = .wait k' l')
    (ht : Consistent code Entry inv holds { s.move i (.asleep k' l') with lock := none }) :
    Covered code k avail debt { s.move i (.asleep k' l') with lock := none } := by
  intro hsleeper
  have hwoken : (s.move i (.asleep k' l')).woken code k + code.claims k l = s.woken code k :=
    State.woken_move code k hi (.asleep k' l')
  rw [ht.owed_free rfl]
  show avail s.data + 0 ≤ (s.move i (.asleep k' l')).woken code k
  by_cases hk : k' = k
  · subst hk
    rw [hrule.wait _ _ _ (h.placed hi) hact]
    exact Nat.zero_le _
  · have hbefore := hs (sleeper_of_move (.asleep k' l') hk hsleeper)
    have hclaims : code.claims k l = 0 :=
      if_neg (hrule.elsewhere _ _ _ _ (h.placed hi) hact hk)
    omega

/-- A signal that finds nobody asleep keeps the wake-ups covered: it is for another variable, as
long as a thread sleeps on `k`. -/
theorem WakeRule.keeps_signalNone (hrule : WakeRule code Entry holds k avail debt exempt)
    {s : State ι κ δ L ρ} (h : Consistent code Entry inv holds s)
    (hs : Covered code k avail debt s) {i : ι} {k' : κ} {l l' : L} (hi : s.place i = .inside l)
    (hact : code.action l s.data = .signal k' l') (hnone : ∀ j, ¬ (s.place j).Sleeps k')
    (ht : Consistent code Entry inv holds (s.move i (.inside l'))) :
    Covered code k avail debt (s.move i (.inside l')) := by
  intro hsleeper
  have hbefore := sleeper_of_move (.inside l') not_false hsleeper
  have hk : k' ≠ k := by
    rintro rfl
    obtain ⟨j, hj⟩ := hbefore
    exact hnone j hj
  have hwoken : (s.move i (.inside l')).woken code k + code.claims k l =
      s.woken code k + code.claims k l' := State.woken_move code k hi (.inside l')
  have hpaid := hrule.signal _ _ _ _ (h.placed hi) hact
  have hcovered := hs hbefore
  rw [if_neg hk] at hpaid
  rw [h.owed_inside hi debt] at hcovered
  rw [ht.owed_inside (State.place_move_self s i _) debt, State.data_move]
  omega

/-- A signal that wakes a thread keeps the wake-ups covered: what the signaller owes for it is
matched by the thread it wakes. -/
theorem WakeRule.keeps_signalSome (hrule : WakeRule code Entry holds k avail debt exempt)
    {s : State ι κ δ L ρ} (h : Consistent code Entry inv holds s)
    (hs : Covered code k avail debt s) {i j : ι} {k' : κ} {l l' lj : L}
    (hi : s.place i = .inside l) (hact : code.action l s.data = .signal k' l')
    (hj : s.place j = .asleep k' lj)
    (ht : Consistent code Entry inv holds ((s.move j (.woken k' lj)).move i (.inside l'))) :
    Covered code k avail debt ((s.move j (.woken k' lj)).move i (.inside l')) := by
  intro hsleeper
  have hne : i ≠ j := by
    rintro rfl
    rw [hj] at hi
    cases hi
  have hi' : (s.move j (.woken k' lj)).place i = .inside l := by
    rw [State.place_move_of_ne s _ hne, hi]
  have hwoken : (s.move j (.woken k' lj)).woken code k =
      s.woken code k + if k' = k then 1 else 0 := State.woken_move code k hj (.woken k' lj)
  have hwoken' : ((s.move j (.woken k' lj)).move i (.inside l')).woken code k +
      code.claims k l = (s.move j (.woken k' lj)).woken code k + code.claims k l' :=
    State.woken_move code k hi' (.inside l')
  have hpaid := hrule.signal _ _ _ _ (h.placed hi) hact
  have hcovered := hs (sleeper_of_move (.woken k' lj) not_false
    (sleeper_of_move (.inside l') not_false hsleeper))
  rw [h.owed_inside hi debt] at hcovered
  rw [ht.owed_inside (State.place_move_self _ i _) debt, State.data_move, State.data_move]
  omega

/-- A step keeps the wake-ups covered. -/
theorem WakeRule.step (hrule : WakeRule code Entry holds k avail debt exempt)
    (hcode : Verified code Entry inv holds) {s t : State ι κ δ L ρ} {e : Event ι F}
    (h : Consistent code Entry inv holds s) (hs : Covered code k avail debt s)
    (hst : step code s e = .ok t)
    (hexempt : ∀ i l d r, e = .turn i none → s.place i = .inside l →
      code.action l s.data = .leave d r → exempt l s.data →
      t = { s.move i (.outside (some r)) with data := d, lock := none } →
      Covered code k avail debt t) : Covered code k avail debt t := by
  have ht : Consistent code Entry inv holds t := hcode.step h hst
  intro hsleeper
  cases moves_of_step hst with
  | @call i f r hi =>
      have hbefore := hs (sleeper_of_move (.entering _) not_false hsleeper)
      have hwoken : (s.move i _).woken code k = s.woken code k :=
        State.woken_move code k hi (.entering (code.start f))
      have howed := s.count_move (Place.owes debt) i (.entering (code.start f))
      rw [hi] at howed
      rw [hwoken]
      exact Nat.le_trans (Nat.le_of_eq (congrArg _ howed)) hbefore
  | @enter i l hfree hi =>
      have hbefore := hs (sleeper_of_move (.inside l) not_false hsleeper)
      obtain ⟨hentry, hafter⟩ := h.placed hi
      have hwoken : (s.move i (.inside l)).woken code k = s.woken code k + code.claims k l :=
        State.woken_move code k hi (.inside l)
      -- It comes from outside, so no wake-up came with it.
      have hclaims : code.claims k l = 0 := by
        rw [Code.claims, hafter]
        rfl
      rw [ht.owed_inside (State.place_move_self s i _) debt, hrule.entry l hentry]
      rw [h.owed_free hfree] at hbefore
      show avail s.data + 0 ≤ (s.move i (.inside l)).woken code k
      rw [hwoken, hclaims]
      exact hbefore
  | @resume i k' l hfree hi =>
      have hbefore := hs (sleeper_of_move (.inside l) not_false hsleeper)
      obtain ⟨hentry, hafter⟩ := h.placed hi
      have hwoken : (s.move i (.inside l)).woken code k + (if k' = k then 1 else 0) =
          s.woken code k + code.claims k l := State.woken_move code k hi (.inside l)
      -- It was woken, and it still is, now that it has the lock.
      rw [code.claims_of_after k hafter] at hwoken
      rw [ht.owed_inside (State.place_move_self s i _) debt, hrule.entry l hentry]
      rw [h.owed_free hfree, ← Nat.add_right_cancel hwoken] at hbefore
      exact hbefore
  | @wait i k' l l' hi hact => exact hrule.keeps_wait h hs hi hact ht hsleeper
  | @signalNone i k' l l' hi hact hnone =>
      exact hrule.keeps_signalNone h hs hi hact hnone ht hsleeper
  | @signalSome i j k' l l' lj hi hact hj =>
      exact hrule.keeps_signalSome h hs hi hact hj ht hsleeper
  | @leave i l d r hi hact =>
      cases hrule.leave _ _ _ _ (h.placed hi) hact with
      | inl hex => exact hexempt i l d r rfl hi hact hex rfl hsleeper
      | inr hpaid =>
          have hcovered := hs (sleeper_of_move (.outside (some r)) not_false hsleeper)
          have hwoken : (s.move i (.outside (some r))).woken code k + code.claims k l =
              s.woken code k := State.woken_move code k hi (.outside (some r))
          rw [h.owed_inside hi debt] at hcovered
          rw [ht.owed_free rfl]
          show avail d + 0 ≤ (s.move i (.outside (some r))).woken code k
          omega
  | @spurious i k' l hi =>
      have hcovered := hs (sleeper_of_move (.woken k' l) not_false hsleeper)
      have hwoken : (s.move i (.woken k' l)).woken code k =
          s.woken code k + if k' = k then 1 else 0 := State.woken_move code k hi (.woken k' l)
      -- One more is woken, and nobody has taken on anything for it.
      have howed : (s.move i (.woken k' l)).count (Place.owes debt) =
          s.count (Place.owes debt) := by
        have hcount := s.count_move (Place.owes debt) i (.woken k' l)
        rw [hi] at hcount
        exact hcount
      rw [howed, hwoken, State.data_move]
      exact Nat.le_trans hcovered (Nat.le_add_right _ _)

/-! ### Where no thread can go on -/

/-- No thread can get the lock or take a turn. -/
def Stuck (code : Code κ δ F L ρ) (s : State ι κ δ L ρ) : Prop :=
  ∀ i, (∀ t, step code s (.lock i) ≠ .ok t) ∧ ∀ wakes t, step code s (.turn i wakes) ≠ .ok t

/-- A thread inside can always take its turn. -/
theorem exists_turn (code : Code κ δ F L ρ) {s : State ι κ δ L ρ} {i : ι} {l : L}
    (hi : s.place i = .inside l) : ∃ wakes t, step code s (.turn i wakes) = .ok t := by
  cases hact : code.action l s.data with
  | wait k l' => exact ⟨none, _, step_of_moves (.wait hi hact)⟩
  | leave d r => exact ⟨none, _, step_of_moves (.leave hi hact)⟩
  | signal k l' =>
      by_cases hsleeper : ∃ j, (s.place j).Sleeps k
      · obtain ⟨j, hj⟩ := hsleeper
        obtain ⟨lj, hlj⟩ := hj.eq
        exact ⟨some j, _, step_of_moves (.signalSome hi hact hlj)⟩
      · exact ⟨none, _, step_of_moves (.signalNone hi hact (not_exists.mp hsleeper))⟩

/-- Where no thread can go on, each is outside or asleep. -/
theorem Stuck.idle {s : State ι κ δ L ρ} (hstuck : Stuck code s)
    (h : Consistent code Entry inv holds s) (i : ι) :
    (∃ r, s.place i = .outside r) ∨ ∃ k l, s.place i = .asleep k l := by
  have hinside : ∀ j l, s.place j ≠ .inside l := by
    intro j l hj
    obtain ⟨wakes, t, ht⟩ := exists_turn code hj
    exact (hstuck j).2 wakes t ht
  -- Whoever had the lock could take a turn.
  have hfree : s.lock = none := by
    cases hlock : s.lock with
    | none => rfl
    | some j =>
        obtain ⟨l, hl⟩ := ((h.owner j).mpr hlock).eq
        exact absurd hl (hinside j l)
  cases hp : s.place i with
  | outside r => exact .inl ⟨r, rfl⟩
  | asleep k l => exact .inr ⟨k, l, rfl⟩
  | inside l => exact absurd hp (hinside i l)
  | entering l => exact absurd (step_of_moves (.enter hfree hp)) ((hstuck i).1 _)
  | woken k l => exact absurd (step_of_moves (.resume hfree hp)) ((hstuck i).1 _)

/-- A thread that is outside or asleep cannot go on. -/
theorem stuck_of_idle {s : State ι κ δ L ρ}
    (h : ∀ i, (∃ r, s.place i = .outside r) ∨ ∃ k l, s.place i = .asleep k l) : Stuck code s := by
  have hplace : ∀ i, ¬ (s.place i).Inside ∧ (∀ l, s.place i ≠ .entering l) ∧
      ∀ k l, s.place i ≠ .woken k l := by
    intro i
    obtain ⟨r, hr⟩ | ⟨k, l, hl⟩ := h i
    · rw [hr]
      exact ⟨not_false, nofun, nofun⟩
    · rw [hl]
      exact ⟨not_false, nofun, nofun⟩
  intro i
  obtain ⟨hinside, hentering, hwoken⟩ := hplace i
  constructor
  · intro t ht
    cases moves_of_step ht with
    | enter hfree hi => exact hentering _ hi
    | resume hfree hi => exact hwoken _ _ hi
  · intro wakes t ht
    apply hinside
    cases moves_of_step ht with
    | wait hi => exact hi ▸ trivial
    | signalNone hi => exact hi ▸ trivial
    | signalSome hi => exact hi ▸ trivial
    | leave hi => exact hi ▸ trivial

omit [DecidableEq ι] in
/-- While nobody has the lock, the woken threads all have to get it. -/
theorem Served.free {s : State ι κ δ L ρ} (hs : Served code k avail s)
    (h : Consistent code Entry inv holds s) (hlock : s.lock = none) (hsleeper : s.Sleeper k) :
    avail s.data ≤ s.signalled k := by
  rw [← h.woken_free hlock]
  exact hs hsleeper

/-- Where no thread can go on and one sleeps on `k`, nothing is there for it. -/
theorem Served.stuck {s : State ι κ δ L ρ} (hs : Served code k avail s)
    (h : Consistent code Entry inv holds s) (hstuck : Stuck code s) (hsleeper : s.Sleeper k) :
    avail s.data = 0 := by
  have hnone : s.woken code k = 0 := by
    apply Finset.sum_eq_zero
    intro i _
    obtain ⟨r, hr⟩ | ⟨k', l, hl⟩ := hstuck.idle h i
    · rw [hr]
      rfl
    · rw [hl]
      rfl
  have havail := hs hsleeper
  rw [hnone] at havail
  exact Nat.le_zero.mp havail

end Wake

end Iptfs.Lib.Monitor
