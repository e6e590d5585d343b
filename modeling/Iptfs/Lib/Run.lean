import Mathlib.Init

/-!
# `Iptfs.Lib.Run`: runs of a fallible step function

A component is a step function `step : σ → ι → Except ε σ`: in a state and on an
input it either moves on or stops with an error. `run` chains the steps over a list
of inputs and stops at the first error. Nothing here depends on what the states and
the inputs are.

* `run_append` and `run_concat` cut a run in two.
* `Reachable` is "some run ends here", and `Reachable.induct` is the invariant rule:
  a fact of the start that every step keeps holds of every reachable state.
* `outputs` are the outputs of a run, for a step that gives one each time.
* `run_map` changes the inputs of a run, and not its steps. `run_image` maps the states too, and
  `run_between` puts other steps in between.
* `map_eq_ok` takes a mapped result apart.
* `Along` says that every step of a run meets a condition on its state and input.
  `run_ok_of_along` is the rule for it: when each step that meets the condition
  succeeds and keeps the invariant, the whole run succeeds and keeps it.
  `run_ok_iff_along` is the same for a condition that is exact, and `prefixes_iff_along` and
  `prefixes_iff_along_of` for what holds at every point of a run.
* `run_guarded_iff` compares a step function with one that does the same behind a guard.
-/

set_option autoImplicit false

namespace Iptfs.Lib

variable {ε σ ι : Type}

/-- The run of `step` from `s` over a list of inputs. -/
def run (step : σ → ι → Except ε σ) : σ → List ι → Except ε σ
  | s, [] => .ok s
  | s, i :: is =>
      match step s i with
      | .error e => .error e
      | .ok t => run step t is

/-- A mapped result ends well when the result does. -/
theorem map_eq_ok {α β : Type} {f : α → β} {r : Except ε α} {b : β} :
    r.map f = .ok b ↔ ∃ a, r = .ok a ∧ f a = b := by
  cases r with
  | error e => simp [Except.map]
  | ok a => simp [Except.map]

/-- A result behind a check ends well when the check does. -/
theorem ite_error_eq_ok {α : Type} {c : Prop} [Decidable c] {e : ε} {a b : α} :
    (if c then .error e else .ok a : Except ε α) = .ok b ↔ ¬ c ∧ a = b := by
  by_cases hc : c
  · simp [hc]
  · simp [hc]

@[simp] theorem run_nil (step : σ → ι → Except ε σ) (s : σ) : run step s [] = .ok s := rfl

/-- A run whose first step succeeds continues from where that step ends. -/
theorem run_cons_ok {step : σ → ι → Except ε σ} {s t : σ} {i : ι} (is : List ι)
    (h : step s i = .ok t) : run step s (i :: is) = run step t is := by
  simp [run, h]

/-- A run whose first step fails stops with the same error. -/
theorem run_cons_error {step : σ → ι → Except ε σ} {s : σ} {i : ι} {e : ε} (is : List ι)
    (h : step s i = .error e) : run step s (i :: is) = .error e := by
  simp [run, h]

/-- A nonempty run that ends well has a first step that does. -/
theorem run_cons_eq_ok {step : σ → ι → Except ε σ} {s u : σ} {i : ι} {is : List ι} :
    run step s (i :: is) = .ok u ↔ ∃ t, step s i = .ok t ∧ run step t is = .ok u := by
  cases h : step s i with
  | error e => simp [run, h]
  | ok t => simp [run, h]

/-- A run over two lists of inputs is a run over the first and then one over the
second. -/
theorem run_append {step : σ → ι → Except ε σ} {s u : σ} {is js : List ι} :
    run step s (is ++ js) = .ok u ↔
      ∃ t, run step s is = .ok t ∧ run step t js = .ok u := by
  induction is generalizing s with
  | nil => simp
  | cons i is ih =>
      rw [List.cons_append, run_cons_eq_ok]
      simp only [run_cons_eq_ok, ih]
      constructor
      · rintro ⟨t, hst, v, htv, hvu⟩
        exact ⟨v, ⟨t, hst, htv⟩, hvu⟩
      · rintro ⟨v, ⟨t, hst, htv⟩, hvu⟩
        exact ⟨t, hst, v, htv, hvu⟩

/-- The last step of a run. -/
theorem run_concat {step : σ → ι → Except ε σ} {s u : σ} {is : List ι} {i : ι} :
    run step s (is ++ [i]) = .ok u ↔ ∃ t, run step s is = .ok t ∧ step t i = .ok u := by
  rw [run_append]
  refine exists_congr fun t => and_congr_right fun _ => ?_
  rw [run_cons_eq_ok]
  simp

/-- The same run, with other inputs for the same steps. -/
theorem run_map {κ : Type} {step : σ → ι → Except ε σ} {step' : σ → κ → Except ε σ} {f : κ → ι} :
    ∀ {is : List κ}, (∀ i ∈ is, ∀ s, step s (f i) = step' s i) → ∀ s : σ,
      run step s (is.map f) = run step' s is := by
  intro is
  induction is with
  | nil => exact fun _ _ => rfl
  | cons i is ih =>
      intro h s
      have hrest := ih fun j hj => h j (List.mem_cons_of_mem _ hj)
      rw [List.map_cons, run, run, h i List.mem_cons_self s]
      cases step' s i with
      | error e => rfl
      | ok t => exact hrest t

/-- A run is mapped to one of another step function, step by step, for an invariant `P`. Induction
on the run. -/
theorem run_image {τ κ δ : Type} {step : σ → ι → Except ε σ} {step' : τ → κ → Except δ τ}
    {f : κ → ι} {g : τ → σ} {P : τ → Prop}
    (h : ∀ t k t', P t → step' t k = .ok t' → step (g t) (f k) = .ok (g t') ∧ P t') :
    ∀ {ks : List κ} {t t' : τ}, P t → run step' t ks = .ok t' →
      run step (g t) (ks.map f) = .ok (g t') ∧ P t' := by
  intro ks
  induction ks with
  | nil =>
      intro t t' ht hrun
      cases hrun
      exact ⟨rfl, ht⟩
  | cons k ks ih =>
      intro t t' ht hrun
      obtain ⟨u, hu, hrest⟩ := run_cons_eq_ok.mp hrun
      obtain ⟨hst, hPu⟩ := h t k u ht hu
      obtain ⟨himage, hPt'⟩ := ih hPu hrest
      exact ⟨(run_cons_ok _ hst).trans himage, hPt'⟩

/-- A run with other steps in between, for a relation that the other steps keep. Induction on the
longer run. -/
theorem run_between {τ κ δ : Type} {step : σ → ι → Except ε σ} {step' : τ → κ → Except δ τ}
    {f : κ → Option ι} {R : σ → τ → Prop} {P : κ → Prop}
    (hskip : ∀ s t k, P k → f k = none → R s t → ∃ t', step' t k = .ok t' ∧ R s t')
    (hstep : ∀ s s' t k i, P k → f k = some i → R s t → step s i = .ok s' →
      ∃ t', step' t k = .ok t' ∧ R s' t') :
    ∀ {ks : List κ} {s s' : σ} {t : τ}, (∀ k ∈ ks, P k) → R s t →
      run step s (ks.filterMap f) = .ok s' → ∃ t', run step' t ks = .ok t' ∧ R s' t' := by
  intro ks
  induction ks with
  | nil =>
      intro s s' t _ hR h
      cases h
      exact ⟨t, rfl, hR⟩
  | cons k ks ih =>
      intro s s' t hP hR h
      have hk : P k := hP k List.mem_cons_self
      have hrest : ∀ j ∈ ks, P j := fun j hj => hP j (List.mem_cons_of_mem k hj)
      cases hf : f k with
      | none =>
          rw [List.filterMap_cons_none hf] at h
          obtain ⟨u, hu, hRu⟩ := hskip s t k hk hf hR
          obtain ⟨t', ht', hR'⟩ := ih hrest hRu h
          exact ⟨t', (run_cons_ok ks hu).trans ht', hR'⟩
      | some i =>
          rw [List.filterMap_cons_some hf] at h
          obtain ⟨v, hv, hvs⟩ := run_cons_eq_ok.mp h
          obtain ⟨u, hu, hRu⟩ := hstep s v t k i hk hf hR hv
          obtain ⟨t', ht', hR'⟩ := ih hrest hRu hvs
          exact ⟨t', (run_cons_ok ks hu).trans ht', hR'⟩

/-- A run that stops does not go on. -/
theorem run_append_error {step : σ → ι → Except ε σ} {s : σ} {is js : List ι} {e : ε}
    (h : run step s is = .error e) : run step s (is ++ js) = .error e := by
  induction is generalizing s with
  | nil => cases h
  | cons i is ih =>
      rw [List.cons_append]
      cases hst : step s i with
      | error e' =>
          rw [run_cons_error _ hst] at h
          rw [run_cons_error _ hst]
          exact h
      | ok t =>
          rw [run_cons_ok _ hst] at h
          rw [run_cons_ok _ hst]
          exact ih h

/-- A run stops where its last step fails. -/
theorem run_concat_error {step : σ → ι → Except ε σ} {s t : σ} {is : List ι} {i : ι} {e : ε}
    (h : run step s is = .ok t) (hst : step t i = .error e) :
    run step s (is ++ [i]) = .error e := by
  induction is generalizing s with
  | nil =>
      cases h
      exact run_cons_error [] hst
  | cons j is ih =>
      rcases run_cons_eq_ok.mp h with ⟨u, hu, hut⟩
      rw [List.cons_append, run_cons_ok _ hu]
      exact ih hut

/-- What every step keeps, a run keeps. -/
theorem run_invariant {step : σ → ι → Except ε σ} {P : σ → Prop}
    (hstep : ∀ s i t, P s → step s i = .ok t → P t) :
    ∀ {is : List ι} {s u : σ}, P s → run step s is = .ok u → P u := by
  intro is
  induction is with
  | nil =>
      intro s u hs h
      cases h
      exact hs
  | cons i is ih =>
      intro s u hs h
      obtain ⟨t, hst, htu⟩ := run_cons_eq_ok.mp h
      exact ih (hstep s i t hs hst) htu

/-- The states some run from `init` ends in. -/
def Reachable (step : σ → ι → Except ε σ) (init s : σ) : Prop :=
  ∃ is, run step init is = .ok s

/-- The start is reachable. -/
theorem Reachable.refl (step : σ → ι → Except ε σ) (init : σ) : Reachable step init init :=
  ⟨[], rfl⟩

/-- One more step from a reachable state ends in a reachable state. -/
theorem Reachable.tail {step : σ → ι → Except ε σ} {init s t : σ} {i : ι}
    (h : Reachable step init s) (hst : step s i = .ok t) : Reachable step init t := by
  obtain ⟨is, his⟩ := h
  exact ⟨is ++ [i], run_concat.mpr ⟨s, his, hst⟩⟩

/-- The invariant rule: a fact of the start that every step keeps holds of every
reachable state. -/
theorem Reachable.induct {step : σ → ι → Except ε σ} {init s : σ} {P : σ → Prop}
    (h : Reachable step init s) (hinit : P init)
    (hstep : ∀ s i t, P s → step s i = .ok t → P t) : P s := by
  obtain ⟨is, his⟩ := h
  exact run_invariant hstep hinit his

/-- The outputs of a run, for a step that gives one each time. -/
def outputs {ω : Type} (step : σ → ι → Except ε (σ × ω)) : σ → List ι → Except ε (List ω)
  | _, [] => .ok []
  | s, i :: is =>
      match step s i with
      | .error e => .error e
      | .ok (t, o) => (outputs step t is).map (o :: ·)

/-- The outputs of a run whose first step succeeds. -/
theorem outputs_cons_eq_ok {ω : Type} {step : σ → ι → Except ε (σ × ω)} {s t : σ} {i : ι} {o : ω}
    {is : List ι} {os : List ω} (h : step s i = .ok (t, o)) :
    outputs step s (i :: is) = .ok os ↔
      ∃ rest, outputs step t is = .ok rest ∧ os = o :: rest := by
  have hstep : outputs step s (i :: is) = (outputs step t is).map (o :: ·) := by
    rw [outputs, h]
  rw [hstep]
  cases outputs step t is with
  | error e => simp [Except.map]
  | ok rest => simp [Except.map, eq_comm]

/-- Every step of the run from `s` over the inputs meets the condition `C` on the
state before the step and the input. A run that stops early is asked for the steps it
took, the failing one included. -/
def Along (step : σ → ι → Except ε σ) (C : σ → ι → Prop) : σ → List ι → Prop
  | _, [] => True
  | s, i :: is => C s i ∧ ∀ t, step s i = .ok t → Along step C t is

/-- A condition that can be tested on each step can be tested along a run. -/
instance Along.decidable (step : σ → ι → Except ε σ) (C : σ → ι → Prop)
    [∀ s i, Decidable (C s i)] : ∀ (s : σ) (is : List ι), Decidable (Along step C s is)
  | _, [] => isTrue trivial
  | s, i :: is =>
      match h : step s i with
      | .error _ =>
          decidable_of_iff (C s i) ⟨fun hC => ⟨hC, fun t ht => by rw [h] at ht; cases ht⟩, And.left⟩
      | .ok t =>
          haveI := Along.decidable step C t is
          decidable_of_iff (C s i ∧ Along step C t is) (by
            constructor
            · rintro ⟨hC, hrest⟩
              refine ⟨hC, fun u hu => ?_⟩
              rw [h] at hu
              cases hu
              exact hrest
            · rintro ⟨hC, hrest⟩
              exact ⟨hC, hrest t h⟩)

/-- The condition on a run with one more step. -/
theorem along_concat {step : σ → ι → Except ε σ} {C : σ → ι → Prop} {s : σ} {is : List ι}
    {i : ι} : Along step C s (is ++ [i]) ↔
      Along step C s is ∧ ∀ t, run step s is = .ok t → C t i := by
  induction is generalizing s with
  | nil => simp [Along]
  | cons j is ih =>
      simp only [List.cons_append, Along, ih, run_cons_eq_ok]
      constructor
      · rintro ⟨hC, h⟩
        refine ⟨⟨hC, fun t ht => (h t ht).1⟩, ?_⟩
        rintro u ⟨t, hst, htu⟩
        exact (h t hst).2 u htu
      · rintro ⟨⟨hC, h⟩, hlast⟩
        exact ⟨hC, fun t ht => ⟨h t ht, fun u hu => hlast u ⟨t, ht, hu⟩⟩⟩

/-- The rule for runs under a condition: when each step that meets `C` succeeds and
keeps `P`, a run all of whose steps meet `C` succeeds and keeps `P`. -/
theorem run_ok_of_along {step : σ → ι → Except ε σ} {C : σ → ι → Prop} {P : σ → Prop}
    (hstep : ∀ s i, P s → C s i → ∃ t, step s i = .ok t ∧ P t) :
    ∀ {is : List ι} {s : σ}, P s → Along step C s is → ∃ u, run step s is = .ok u ∧ P u := by
  intro is
  induction is with
  | nil =>
      intro s hs _
      exact ⟨s, rfl, hs⟩
  | cons i is ih =>
      intro s hs hal
      obtain ⟨hC, hrest⟩ := hal
      obtain ⟨t, hst, ht⟩ := hstep s i hs hC
      obtain ⟨u, hu, hPu⟩ := ih ht (hrest t hst)
      exact ⟨u, run_cons_eq_ok.mpr ⟨t, hst, hu⟩, hPu⟩

/-- The rule for runs that end well: when the steps on inputs in `D` succeed exactly under `C`, and
keep `P`, a run on such inputs succeeds exactly when `C` holds along it. -/
theorem run_ok_iff_along {step : σ → ι → Except ε σ} {C : σ → ι → Prop} {D : ι → Prop}
    {P : σ → Prop} (hok : ∀ s i, P s → D i → ((∃ t, step s i = .ok t) ↔ C s i))
    (hkeep : ∀ s i t, P s → step s i = .ok t → P t) {is : List ι} {s : σ} (hs : P s)
    (hD : ∀ i ∈ is, D i) : (∃ u, run step s is = .ok u) ↔ Along step C s is := by
  induction is generalizing s with
  | nil => exact iff_of_true ⟨s, rfl⟩ trivial
  | cons i is ih =>
      have hi := hok s i hs (hD i (by simp))
      have hrest : ∀ t, step s i = .ok t →
          ((∃ u, run step t is = .ok u) ↔ Along step C t is) := fun t ht =>
        ih (hkeep s i t hs ht) fun j hj => hD j (List.mem_cons_of_mem _ hj)
      constructor
      · rintro ⟨u, hu⟩
        obtain ⟨t, ht, htu⟩ := run_cons_eq_ok.mp hu
        refine ⟨hi.mp ⟨t, ht⟩, fun t' ht' => ?_⟩
        rw [ht] at ht'
        cases ht'
        exact (hrest t ht).mp ⟨u, htu⟩
      · rintro ⟨hC, hal⟩
        obtain ⟨t, ht⟩ := hi.mpr hC
        obtain ⟨u, hu⟩ := (hrest t ht).mpr (hal t ht)
        exact ⟨u, run_cons_eq_ok.mpr ⟨t, ht, hu⟩⟩

/-- The rule for invariants under a condition: what each step that meets `C` keeps, a run all of
whose steps meet `C` keeps. -/
theorem run_invariant_along {step : σ → ι → Except ε σ} {C : σ → ι → Prop} {P : σ → Prop}
    (hstep : ∀ s i t, P s → C s i → step s i = .ok t → P t) :
    ∀ {is : List ι} {s t : σ}, P s → Along step C s is → run step s is = .ok t → P t := by
  intro is
  induction is with
  | nil =>
      intro s t hs _ hrun
      cases hrun
      exact hs
  | cons i is ih =>
      intro s t hs hal hrun
      obtain ⟨u, hu, hrest⟩ := run_cons_eq_ok.mp hrun
      exact ih (hstep s i u hs hal.1 hu) (hal.2 u hu) hrest

/-- The rule for what holds at every point of a run, with an invariant that says more: steps that
meet `C` keep `P`, which gives `Q`, and where `Q` holds after a step, the step meets `C`. -/
theorem prefixes_iff_along_of {step : σ → ι → Except ε σ} {C : σ → ι → Prop} {P Q : σ → Prop}
    (hgives : ∀ s, P s → Q s)
    (hneed : ∀ s i, P s → (∀ t, step s i = .ok t → Q t) → C s i)
    (hkeep : ∀ s i t, P s → C s i → step s i = .ok t → P t) {is : List ι} {s : σ} (hP : P s) :
    (∀ js t, js <+: is → run step s js = .ok t → Q t) ↔ Along step C s is := by
  induction is generalizing s with
  | nil =>
      refine iff_of_true ?_ trivial
      intro js t hjs hrun
      rw [List.prefix_nil.mp hjs] at hrun
      cases hrun
      exact hgives _ hP
  | cons i is ih =>
      constructor
      · intro h
        have hC : C s i := hneed s i hP fun t ht =>
          h [i] t ⟨is, rfl⟩ (run_cons_eq_ok.mpr ⟨t, ht, rfl⟩)
        refine ⟨hC, fun t ht => ?_⟩
        apply (ih (hkeep s i t hP hC ht)).mp
        intro js u hjs hu
        have hpre : i :: js <+: i :: is := List.cons_prefix_cons.mpr ⟨rfl, hjs⟩
        exact h (i :: js) u hpre (run_cons_eq_ok.mpr ⟨t, ht, hu⟩)
      · rintro ⟨hC, hrest⟩ js u hjs hu
        cases js with
        | nil =>
            cases hu
            exact hgives _ hP
        | cons j js =>
            obtain ⟨rfl, hjs'⟩ := List.cons_prefix_cons.mp hjs
            obtain ⟨t, ht, htu⟩ := run_cons_eq_ok.mp hu
            exact (ih (hkeep s j t hP hC ht)).mpr (hrest t ht) js u hjs' htu

/-- The rule for what holds at every point of a run: when `C` says of each step whether it keeps
`Q`, it says so of the whole run. `P` is what every step keeps. -/
theorem prefixes_iff_along {step : σ → ι → Except ε σ} {C : σ → ι → Prop} {P Q : σ → Prop}
    (hiff : ∀ s i, P s → Q s → (C s i ↔ ∀ t, step s i = .ok t → Q t))
    (hkeep : ∀ s i t, P s → step s i = .ok t → P t) {is : List ι} {s : σ} (hP : P s) (hQ : Q s) :
    (∀ js t, js <+: is → run step s js = .ok t → Q t) ↔ Along step C s is := by
  apply prefixes_iff_along_of (P := fun s => P s ∧ Q s) (fun s h => h.2)
  · intro s i h hnext
    exact (hiff s i h.1 h.2).mpr hnext
  · intro s i t h hC ht
    exact ⟨hkeep s i t h.1 ht, (hiff s i h.1 h.2).mp hC t ht⟩
  · exact ⟨hP, hQ⟩

/-- A step function that does what another one does, where a guard lets it: its runs are the runs
of the other along which the guard holds. `P` is what every guarded step keeps. Induction on
the inputs. -/
theorem run_guarded_iff {δ : Type} {step : σ → ι → Except ε σ} {step' : σ → ι → Except δ σ}
    {G : σ → ι → Prop} {P : σ → Prop}
    (hguard : ∀ s i t, P s → (step' s i = .ok t ↔ step s i = .ok t ∧ G s i))
    (hkeep : ∀ s i t, P s → G s i → step s i = .ok t → P t) {is : List ι} {s u : σ} (hs : P s) :
    run step' s is = .ok u ↔ run step s is = .ok u ∧ Along step G s is := by
  induction is generalizing s with
  | nil => exact ⟨fun h => ⟨by cases h; rfl, trivial⟩, fun h => by cases h.1; rfl⟩
  | cons i is ih =>
      rw [run_cons_eq_ok, run_cons_eq_ok]
      constructor
      · rintro ⟨t, ht, htu⟩
        obtain ⟨hst, hG⟩ := (hguard s i t hs).mp ht
        obtain ⟨hrest, hal⟩ := (ih (hkeep s i t hs hG hst)).mp htu
        refine ⟨⟨t, hst, hrest⟩, hG, fun t' ht' => ?_⟩
        rw [hst] at ht'
        cases ht'
        exact hal
      · rintro ⟨⟨t, hst, htu⟩, hG, hal⟩
        exact ⟨t, (hguard s i t hs).mpr ⟨hst, hG⟩,
          (ih (hkeep s i t hs hG hst)).mpr ⟨htu, hal t hst⟩⟩

/-- Two conditions that agree on each step agree on each run. -/
theorem along_congr {step : σ → ι → Except ε σ} {C D : σ → ι → Prop} {is : List ι} {s : σ}
    (h : ∀ s i, C s i ↔ D s i) : Along step C s is ↔ Along step D s is := by
  induction is generalizing s with
  | nil => exact Iff.rfl
  | cons i is ih =>
      unfold Along
      rw [h s i]
      exact and_congr_right fun _ => forall_congr' fun t => forall_congr' fun _ => ih

/-- A condition that each input meets in every state. -/
theorem along_of_always {step : σ → ι → Except ε σ} {C : σ → ι → Prop} {is : List ι} {s : σ}
    (h : ∀ i ∈ is, ∀ t, C t i) : Along step C s is := by
  induction is generalizing s with
  | nil => trivial
  | cons i is ih =>
      exact ⟨h i (by simp) s, fun t _ => ih fun j hj => h j (List.mem_cons_of_mem _ hj)⟩

/-- A condition on the inputs alone. -/
theorem along_of_forall {step : σ → ι → Except ε σ} {C : ι → Prop} {is : List ι} {s : σ}
    (h : ∀ i ∈ is, C i) : Along step (fun _ i => C i) s is :=
  along_of_always fun i hi _ => h i hi

/-- A condition on the run and one on the inputs alone. -/
theorem Along.and_forall {step : σ → ι → Except ε σ} {C : σ → ι → Prop} {D : ι → Prop}
    {is : List ι} {s : σ} (hC : Along step C s is) (hD : ∀ i ∈ is, D i) :
    Along step (fun t i => C t i ∧ D i) s is := by
  induction is generalizing s with
  | nil => trivial
  | cons i is ih =>
      obtain ⟨hCi, hrest⟩ := hC
      refine ⟨⟨hCi, hD i (by simp)⟩, fun t ht => ih (hrest t ht) ?_⟩
      intro j hj
      exact hD j (List.mem_cons_of_mem _ hj)

end Iptfs.Lib
