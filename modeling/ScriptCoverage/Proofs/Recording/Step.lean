import ScriptCoverage.Recording.Counters

/-!
Running steps. A sequence succeeds when each of its parts does, from the state that
the part before it left. An atomic step leaves the state as it was when it fails.
-/

namespace ScriptCoverage.Step

variable {σ τ α β : Type}

@[simp] theorem run_pure (value : α) (state : σ) :
    (pure value : Step σ α).run state = (.ok value, state) := rfl

@[simp] theorem run_throw (e : CoverageError) (state : σ) :
    (throw e : Step σ α).run state = (.error e, state) := rfl

@[simp] theorem run_get (state : σ) : (get : Step σ σ).run state = (.ok state, state) := rfl

@[simp] theorem run_set (replacement state : σ) :
    (set replacement : Step σ PUnit).run state = (.ok ⟨⟩, replacement) := rfl

@[simp] theorem run_lift (result : Except CoverageError α) (state : σ) :
    (liftM result : Step σ α).run state = (result, state) := rfl

@[simp] theorem run_inspect (look : σ → Except CoverageError α) (state : σ) :
    (inspect look).run state = (look state, state) := rfl

@[simp] theorem run_zoom (view : τ → σ) (update : τ → σ → τ) (step : Step σ α) (state : τ) :
    (zoom view update step).run state =
      ((step.run (view state)).1, update state (step.run (view state)).2) := rfl

theorem run_eq_of_fst {step : Step σ α} {state : σ} {result : Except CoverageError α}
    (h : (step.run state).1 = result) : step.run state = (result, (step.run state).2) := by
  rw [← h]

theorem run_bind (step : Step σ α) (next : α → Step σ β) (state : σ) :
    (step >>= next).run state =
      match step.run state with
      | (.ok value, after) => (next value).run after
      | (.error e, after) => (.error e, after) := by
  simp only [run, bind, ExceptT.bind, ExceptT.mk, StateT.bind, ExceptT.bindCont]
  rcases step state with ⟨_ | _, _⟩ <;> rfl

theorem run_bind_eq_ok {step : Step σ α} {next : α → Step σ β} {state after : σ}
    {result : β} :
    (step >>= next).run state = (.ok result, after) ↔
      ∃ value middle, step.run state = (.ok value, middle) ∧
        (next value).run middle = (.ok result, after) := by
  rw [run_bind]
  rcases step.run state with ⟨e | value, middle⟩
  · simp
  · simp [and_assoc]

theorem run_bind_eq_error {step : Step σ α} {next : α → Step σ β} {state after : σ}
    {e : CoverageError} :
    (step >>= next).run state = (.error e, after) ↔
      step.run state = (.error e, after) ∨
        ∃ value middle, step.run state = (.ok value, middle) ∧
          (next value).run middle = (.error e, after) := by
  rw [run_bind]
  rcases step.run state with ⟨e' | value, middle⟩
  · simp
  · simp [and_assoc]

@[simp] theorem run_forM_nil (f : α → Step σ PUnit) (state : σ) :
    (List.forM [] f).run state = (.ok ⟨⟩, state) := rfl

theorem run_forM_cons_eq_ok {f : α → Step σ PUnit} {x : α} {rest : List α}
    {state after : σ} :
    (List.forM (x :: rest) f).run state = (.ok ⟨⟩, after) ↔
      ∃ middle, (f x).run state = (.ok ⟨⟩, middle) ∧
        (List.forM rest f).run middle = (.ok ⟨⟩, after) := by
  have hcons : List.forM (x :: rest) f = f x >>= fun _ => List.forM rest f := rfl
  rw [hcons, run_bind_eq_ok]
  constructor
  · rintro ⟨⟨⟩, middle, hx, hrest⟩
    exact ⟨middle, hx, hrest⟩
  · rintro ⟨middle, hx, hrest⟩
    exact ⟨⟨⟩, middle, hx, hrest⟩

theorem run_forM_append_eq_ok {f : α → Step σ PUnit} {first second : List α}
    {state after : σ} :
    (List.forM (first ++ second) f).run state = (.ok ⟨⟩, after) ↔
      ∃ middle, (List.forM first f).run state = (.ok ⟨⟩, middle) ∧
        (List.forM second f).run middle = (.ok ⟨⟩, after) := by
  induction first generalizing state with
  | nil => simp
  | cons x rest ih =>
      rw [List.cons_append, run_forM_cons_eq_ok]
      simp only [ih, run_forM_cons_eq_ok]
      constructor
      · rintro ⟨_, hx, middle, hrest, hsecond⟩
        exact ⟨middle, ⟨_, hx, hrest⟩, hsecond⟩
      · rintro ⟨middle, ⟨_, hx, hrest⟩, hsecond⟩
        exact ⟨_, hx, middle, hrest, hsecond⟩

/-- Steps that never change the state do not change it one after the other. -/
theorem forM_keeps {f : α → Step σ PUnit} (hf : ∀ x state, ((f x).run state).2 = state)
    (items : List α) (state : σ) : ((List.forM items f).run state).2 = state := by
  induction items with
  | nil => rfl
  | cons x rest ih =>
      have hcons : List.forM (x :: rest) f = f x >>= fun _ => List.forM rest f := rfl
      rw [hcons, run_bind]
      cases hrun : (f x).run state with
      | mk result after =>
          have hafter : after = state := by rw [← hf x state, hrun]
          subst hafter
          cases result with
          | error e => rfl
          | ok value => exact ih

/-- Of steps that never change the state, one fails by itself if they fail together. -/
theorem exists_of_forM_error {f : α → Step σ PUnit}
    (hf : ∀ x state, ((f x).run state).2 = state) {items : List α} {state after : σ}
    {e : CoverageError} (failed : (List.forM items f).run state = (.error e, after)) :
    ∃ x ∈ items, ((f x).run state).1 = .error e := by
  induction items with
  | nil => cases failed
  | cons x rest ih =>
      have hcons : List.forM (x :: rest) f = f x >>= fun _ => List.forM rest f := rfl
      rw [hcons, run_bind_eq_error] at failed
      rcases failed with hhead | ⟨⟨⟩, middle, hhead, hrest⟩
      · exact ⟨x, List.mem_cons_self, by rw [hhead]⟩
      · have hmiddle : middle = state := by rw [← hf x state, hhead]
        subst hmiddle
        obtain ⟨y, hmem, hy⟩ := ih hrest
        exact ⟨y, List.mem_cons_of_mem _ hmem, hy⟩

/-- A step that fails has changed nothing. -/
def Atomic (step : Step σ α) : Prop :=
  ∀ state e after, step.run state = (.error e, after) → after = state

theorem atomic_zoom {view : τ → σ} {update : τ → σ → τ} {step : Step σ α}
    (hstep : Atomic step) (same : ∀ state, update state (view state) = state) :
    Atomic (zoom view update step) := by
  intro state e after hrun
  rw [run_zoom, Prod.mk.injEq] at hrun
  obtain ⟨herror, hafter⟩ := hrun
  have hkept : (step.run (view state)).2 = view state :=
    hstep (view state) e _ (run_eq_of_fst herror)
  rw [← hafter, hkept, same]

end ScriptCoverage.Step
