import Iptfs.Lib.Monitor
import Mathlib.Data.List.Basic

/-!
# `Iptfs.Lib.Linear`: a monitor is an atomic object

The functions of a monitor take several steps, and threads come between them. Here they are seen
from outside: as operations that each happen at once.

* `Recorded` runs along with the threads. It has the function that each thread has called, and the
  `log` of the calls that have returned, in the order in which they did.
* `Sequential does a ops b` is the atomic object: from `a` the operations `ops`, one after the
  other, may give what they returned, and they lead to `b`. `does a f r b` says what one operation
  may do.
  `Sequential.conserved` is about objects that elements are put into and taken from.
* `Atomic` are the local conditions on the code, and `Linear.step` is the rule: the log of every
  run is a sequential run of the object, and the data are what the object has come to.

A call returns in the step that gives up the lock. So an operation that has returned before another
one was called comes before it in the log.
-/

set_option autoImplicit false

namespace Iptfs.Lib.Monitor

variable {ι κ δ F L ρ σ : Type}

/-- A call that has returned. -/
structure Op (ι F ρ : Type) where
  thread : ι
  call : F
  ret : ρ
  deriving DecidableEq, Repr

/-- The threads, with what each has called last, and the calls that have returned. -/
structure Recorded (ι κ δ F L ρ : Type) where
  state : State ι κ δ L ρ
  calls : ι → Option F
  log : List (Op ι F ρ)

/-- No thread has called anything. -/
def Recorded.init (d : δ) : Recorded ι κ δ F L ρ := ⟨State.init d, fun _ => none, []⟩

/-- The calls after an event. -/
def Recorded.called [DecidableEq ι] (s : Recorded ι κ δ F L ρ) : Event ι F → ι → Option F
  | .call i f => Function.update s.calls i (some f)
  | _ => s.calls

/-- The call that returns with an event, where `t` is the state after it. -/
def Recorded.returned (s : Recorded ι κ δ F L ρ) (e : Event ι F) (t : State ι κ δ L ρ) :
    List (Op ι F ρ) :=
  match e with
  | .turn i _ =>
      match t.place i, s.calls i with
      | .outside (some r), some f => [⟨i, f, r⟩]
      | _, _ => []
  | _ => []

/-- One step, on the record. -/
def recordedStep [DecidableEq ι] [DecidableEq κ] [Fintype ι] (code : Code κ δ F L ρ)
    (s : Recorded ι κ δ F L ρ) (e : Event ι F) : Except Unit (Recorded ι κ δ F L ρ) :=
  match step code s.state e with
  | .error u => .error u
  | .ok t => .ok ⟨t, s.called e, s.log ++ s.returned e t⟩

/-- The operations of an atomic object, one after the other. -/
inductive Sequential (does : σ → F → ρ → σ → Prop) : σ → List (Op ι F ρ) → σ → Prop
  | nil (a : σ) : Sequential does a [] a
  | snoc {a b c : σ} {ops : List (Op ι F ρ)} {op : Op ι F ρ} (h : Sequential does a ops b)
      (hop : does b op.call op.ret c) : Sequential does a (ops ++ [op]) c

/-- What was taken from the object and what is left in it is what was put there and what was there
before, where each operation says so of itself. Induction on the operations. -/
theorem Sequential.conserved {β : Type} {does : σ → F → ρ → σ → Prop} {contents : σ → List β}
    {took : ρ → Option β} {gave : F → Option β}
    (hone : ∀ a f r b, does a f r b →
      ((took r).toList ++ contents b).Perm ((gave f).toList ++ contents a))
    {a b : σ} {ops : List (Op ι F ρ)} (h : Sequential does a ops b) :
    ((ops.filterMap fun op => took op.ret) ++ contents b).Perm
      ((ops.filterMap fun op => gave op.call) ++ contents a) := by
  induction h with
  | nil => exact List.Perm.refl _
  | @snoc c d ops op hseq hop ih =>
      have htook : ([op].filterMap fun op => took op.ret) = (took op.ret).toList := by
        cases hr : took op.ret <;> simp [hr]
      have hgave : ([op].filterMap fun op => gave op.call) = (gave op.call).toList := by
        cases hc : gave op.call <;> simp [hc]
      rw [List.filterMap_append, List.filterMap_append, htook, hgave, List.append_assoc,
        List.append_assoc]
      -- The last operation goes to the front, past what was taken before.
      have hfront := ((hone _ _ _ _ hop).append_left (ops.filterMap fun op => took op.ret)).trans
        (List.perm_append_comm_assoc _ (gave op.call).toList (contents c))
      have hback := List.perm_append_comm_assoc (gave op.call).toList
        (ops.filterMap fun op => gave op.call) (contents a)
      exact hfront.trans ((ih.append_left _).trans hback)

/-- The local conditions on the code. `own f l` says that `l` is a location of the function `f`, and
`holds l` is what holds of the data while a thread is there. `Abs d a` says that the data `d` are
what the object has in `a`. -/
structure Atomic (code : Code κ δ F L ρ) (holds : L → δ → Prop) (own : F → L → Prop)
    (Abs : δ → σ → Prop) (does : σ → F → ρ → σ → Prop) : Prop where
  start : ∀ f, own f (code.start f)
  wait : ∀ f l d k l', own f l → code.action l d = .wait k l' → own f l'
  signal : ∀ f l d k l', own f l → holds l d → code.action l d = .signal k l' → own f l'
  leave : ∀ f l d a d' r, own f l → holds l d → Abs d a → code.action l d = .leave d' r →
    ∃ b, does a f r b ∧ Abs d' b

/-- More holds of the data at a location, where the entries and the signals give it. -/
theorem Verified.and {code : Code κ δ F L ρ} {Entry : L → Prop} {inv : δ → Prop}
    {holds more : L → δ → Prop} (h : Verified code Entry inv holds)
    (hentry : ∀ l d, Entry l → more l d)
    (hsignal : ∀ l d k l', holds l d → code.action l d = .signal k l' → more l' d) :
    Verified code Entry inv fun l d => holds l d ∧ more l d where
  start := h.start
  entry := fun l d hl hinv => ⟨h.entry l d hl hinv, hentry l d hl⟩
  wait := fun l d k l' hl hact => h.wait l d k l' hl.1 hact
  signal := fun l d k l' hl hact => ⟨h.signal l d k l' hl.1 hact, hsignal l d k l' hl.1 hact⟩
  leave := fun l d d' r hl hact => h.leave l d d' r hl.1 hact

/-- A thread at a location is in the function that it has called. -/
def Place.Calls (own : F → L → Prop) (called : Option F) (p : Place κ L ρ) : Prop :=
  match p with
  | .outside _ => True
  | .entering l | .inside l | .asleep _ l | .woken _ l => ∃ f, called = some f ∧ own f l

section Linear

variable {code : Code κ δ F L ρ} {Entry : L → Prop} {inv : δ → Prop} {holds : L → δ → Prop}
  {own : F → L → Prop} {Abs : δ → σ → Prop} {does : σ → F → ρ → σ → Prop}

/-- The threads, with a record that is a run of the object from `a`. -/
structure Linear (code : Code κ δ F L ρ) (Entry : L → Prop) (inv : δ → Prop)
    (holds : L → δ → Prop) (own : F → L → Prop) (Abs : δ → σ → Prop)
    (does : σ → F → ρ → σ → Prop) (a : σ) (s : Recorded ι κ δ F L ρ) : Prop where
  consistent : Consistent code Entry inv holds s.state
  calls : ∀ i, (s.state.place i).Calls own (s.calls i)
  legal : ∃ b, Sequential does a s.log b ∧ Abs s.state.data b

/-- Nothing has been called and nothing has returned. The data of the monitor has to represent the
state `a` in which the sequential object starts. -/
theorem linear_init (code : Code κ δ F L ρ) (Entry : L → Prop) (holds : L → δ → Prop)
    (own : F → L → Prop) (does : σ → F → ρ → σ → Prop) {d : δ} {a : σ} (hinv : inv d)
    (habs : Abs d a) :
    Linear code Entry inv holds own Abs does a (Recorded.init d : Recorded ι κ δ F L ρ) where
  consistent := consistent_init code Entry holds hinv
  calls := fun _ => trivial
  legal := ⟨a, .nil a, habs⟩

/-- A thread moves within its function, and nothing returns. -/
theorem Linear.goto {a : σ} {s t : Recorded ι κ δ F L ρ}
    (h : Linear code Entry inv holds own Abs does a s)
    (hconsistent : Consistent code Entry inv holds t.state)
    (hdata : t.state.data = s.state.data) (hlog : t.log = s.log)
    (hcalls : ∀ i, (t.state.place i).Calls own (t.calls i)) :
    Linear code Entry inv holds own Abs does a t := by
  obtain ⟨b, hseq, habs⟩ := h.legal
  refine ⟨hconsistent, hcalls, b, ?_, ?_⟩
  · rw [hlog]
    exact hseq
  · rw [hdata]
    exact habs

/-- Nothing returns in a step that leaves the thread in its call. -/
theorem Recorded.returned_turn (s : Recorded ι κ δ F L ρ) {t : State ι κ δ L ρ} {i : ι}
    {p : Place κ L ρ} (wakes : Option ι) (hp : t.place i = p) (hin : ∀ r, p ≠ .outside r) :
    s.returned (.turn i wakes) t = [] := by
  rw [Recorded.returned, hp]
  cases p with
  | outside r => exact absurd rfl (hin r)
  | _ => rfl

variable [DecidableEq ι]

/-- Where the other threads are, after one has moved. -/
theorem calls_move {s : State ι κ δ L ρ} {called : ι → Option F} {i : ι} {p : Place κ L ρ}
    (h : ∀ j, j ≠ i → (s.place j).Calls own (called j)) (hp : p.Calls own (called i)) :
    ∀ j, ((s.move i p).place j).Calls own (called j) := by
  intro j
  by_cases hj : j = i
  · subst hj
    rw [State.place_move_self]
    exact hp
  · rw [State.place_move_of_ne _ _ hj]
    exact h j hj

variable [DecidableEq κ] [Fintype ι]

/-- What the step is, and what it adds to the record. -/
theorem recordedStep_ok {s t : Recorded ι κ δ F L ρ} {e : Event ι F}
    (h : recordedStep code s e = .ok t) : Monitor.step code s.state e = .ok t.state ∧
      t.calls = s.called e ∧ t.log = s.log ++ s.returned e t.state := by
  rw [recordedStep] at h
  split at h
  · cases h
  · rename_i u hu
    cases h
    exact ⟨hu, rfl, rfl⟩

/-- The rule. Only the step in which a call returns changes the data, and there the operation
happens. -/
theorem Linear.step (hatomic : Atomic code holds own Abs does)
    (hcode : Verified code Entry inv holds) {a : σ} {s t : Recorded ι κ δ F L ρ} {e : Event ι F}
    (h : Linear code Entry inv holds own Abs does a s) (hst : recordedStep code s e = .ok t) :
    Linear code Entry inv holds own Abs does a t := by
  obtain ⟨hstep, hcalls, hlog⟩ := recordedStep_ok hst
  have hconsistent := hcode.step h.consistent hstep
  obtain ⟨state, calls, log⟩ := t
  dsimp only at hstep hcalls hlog hconsistent
  -- What a thread inside has called, and what holds of the data there.
  have hinside : ∀ {i l}, s.state.place i = .inside l →
      (∃ f, s.calls i = some f ∧ own f l) ∧ holds l s.state.data := by
    intro i l hi
    have hplace := h.calls i
    rw [hi] at hplace
    exact ⟨hplace, h.consistent.placed hi⟩
  have hothers : ∀ i j, j ≠ i → (s.state.place j).Calls own (s.calls j) := fun _ j _ => h.calls j
  cases moves_of_step hstep with
  | @call i f r hi =>
      refine h.goto hconsistent rfl (hlog.trans (List.append_nil _)) ?_
      show ∀ j, ((s.state.move i _).place j).Calls own (calls j)
      rw [hcalls]
      apply calls_move
      · intro j hj
        show (s.state.place j).Calls own (Function.update s.calls i (some f) j)
        rw [Function.update_of_ne hj]
        exact h.calls j
      · exact ⟨f, Function.update_self _ _ _, hatomic.start f⟩
  | @enter i l hfree hi =>
      refine h.goto hconsistent rfl (hlog.trans (List.append_nil _)) ?_
      have hplace := h.calls i
      rw [hi] at hplace
      rw [hcalls]
      exact calls_move (hothers i) hplace
  | @resume i k l hfree hi =>
      refine h.goto hconsistent rfl (hlog.trans (List.append_nil _)) ?_
      have hplace := h.calls i
      rw [hi] at hplace
      rw [hcalls]
      exact calls_move (hothers i) hplace
  | @wait i k l l' hi hact =>
      obtain ⟨⟨f, hf, hl⟩, -⟩ := hinside hi
      have hnone := s.returned_turn (t := { s.state.move i (.asleep k l') with lock := none })
        none (State.place_move_self _ _ _) nofun
      rw [hnone] at hlog
      refine h.goto hconsistent rfl (hlog.trans (List.append_nil _)) ?_
      rw [hcalls]
      exact calls_move (hothers i) ⟨f, hf, hatomic.wait _ _ _ _ _ hl hact⟩
  | @signalNone i k l l' hi hact hsleeps =>
      obtain ⟨⟨f, hf, hl⟩, hholds⟩ := hinside hi
      have hnone := s.returned_turn (t := s.state.move i (.inside l'))
        none (State.place_move_self _ _ _) nofun
      rw [hnone] at hlog
      refine h.goto hconsistent rfl (hlog.trans (List.append_nil _)) ?_
      rw [hcalls]
      exact calls_move (hothers i) ⟨f, hf, hatomic.signal _ _ _ _ _ hl hholds hact⟩
  | @signalSome i j k l l' lj hi hact hj =>
      obtain ⟨⟨f, hf, hl⟩, hholds⟩ := hinside hi
      have hnone := s.returned_turn (t := (s.state.move j (.woken k lj)).move i (.inside l'))
        (some j) (State.place_move_self _ _ _) nofun
      rw [hnone] at hlog
      refine h.goto hconsistent rfl (hlog.trans (List.append_nil _)) ?_
      have hplace := h.calls j
      rw [hj] at hplace
      -- The woken thread stays in its function.
      have hwoken := calls_move (p := .woken k lj) (hothers j) hplace
      rw [hcalls]
      exact calls_move (fun n _ => hwoken n) ⟨f, hf, hatomic.signal _ _ _ _ _ hl hholds hact⟩
  | @leave i l d r hi hact =>
      obtain ⟨⟨f, hf, hl⟩, hholds⟩ := hinside hi
      obtain ⟨b, hseq, habs⟩ := h.legal
      obtain ⟨c, hdoes, habs'⟩ := hatomic.leave _ _ _ _ _ _ hl hholds habs hact
      have hout : (s.state.move i (.outside (some r))).place i = .outside (some r) :=
        State.place_move_self _ _ _
      have hreturned : s.returned (.turn i none)
          { s.state.move i (.outside (some r)) with data := d, lock := none } = [⟨i, f, r⟩] := by
        simp only [Recorded.returned, hout, hf]
      rw [hreturned] at hlog
      refine ⟨hconsistent, ?_, c, ?_, habs'⟩
      · rw [hcalls]
        exact calls_move (hothers i) trivial
      · rw [hlog]
        exact .snoc hseq hdoes
  | @spurious i k l hi =>
      refine h.goto hconsistent rfl (hlog.trans (List.append_nil _)) ?_
      have hplace := h.calls i
      rw [hi] at hplace
      rw [hcalls]
      exact calls_move (hothers i) hplace

/-- Every run of the threads is a run of the object. -/
theorem linear_of_reachable (hatomic : Atomic code holds own Abs does)
    (hcode : Verified code Entry inv holds) {d : δ} {a : σ} (hinv : inv d) (habs : Abs d a)
    {s : Recorded ι κ δ F L ρ} (h : Reachable (recordedStep code) (.init d) s) :
    ∃ b, Sequential does a s.log b ∧ Abs s.state.data b := by
  have hlinear : Linear code Entry inv holds own Abs does a s :=
    h.induct (linear_init code Entry holds own does hinv habs) fun _ _ _ hs hst =>
      hs.step hatomic hcode hst
  exact hlinear.legal

end Linear

end Iptfs.Lib.Monitor
