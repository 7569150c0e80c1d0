import Mathlib.Data.List.Forall2

/-!
Computations that may fail: when a sequence succeeds, how a traversal relates its elements to
its results, and which element made it fail.
-/

namespace ScriptCoverage.Forall₂

variable {α β : Type} {R : α → β → Prop} {xs : List α} {ys : List β}

theorem exists_of_mem_left (h : List.Forall₂ R xs ys) {x : α} (hx : x ∈ xs) :
    ∃ y ∈ ys, R x y := by
  induction h with
  | nil => cases hx
  | cons hhead _ ih =>
      rcases List.mem_cons.mp hx with rfl | htail
      · exact ⟨_, List.mem_cons_self, hhead⟩
      · obtain ⟨y, hy, hR⟩ := ih htail
        exact ⟨y, List.mem_cons_of_mem _ hy, hR⟩

theorem exists_of_mem_right (h : List.Forall₂ R xs ys) {y : β} (hy : y ∈ ys) :
    ∃ x ∈ xs, R x y :=
  exists_of_mem_left h.flip hy

theorem exists_of_forall_mem (h : ∀ x ∈ xs, ∃ y, R x y) : ∃ ys, List.Forall₂ R xs ys := by
  induction xs with
  | nil => exact ⟨[], .nil⟩
  | cons x rest ih =>
      obtain ⟨hx, hrest⟩ := List.forall_mem_cons.mp h
      obtain ⟨y, hy⟩ := hx
      obtain ⟨ys, hys⟩ := ih hrest
      exact ⟨y :: ys, .cons hy hys⟩

end ScriptCoverage.Forall₂

namespace ScriptCoverage.Except

variable {ε ε' α β : Type}

theorem ok_bind (value : α) (next : α → Except ε β) :
    (.ok value : Except ε α) >>= next = next value := rfl

theorem bind_eq_ok_iff {first : Except ε α} {next : α → Except ε β} {result : β} :
    (first >>= next) = .ok result ↔ ∃ value, first = .ok value ∧ next value = .ok result := by
  cases first with
  | error e => simp [bind, Except.bind]
  | ok value => simp [bind, Except.bind]

theorem bind_eq_error_iff {first : Except ε α} {next : α → Except ε β} {e : ε} :
    (first >>= next) = .error e ↔
      first = .error e ∨ ∃ value, first = .ok value ∧ next value = .error e := by
  cases first with
  | error e' => simp [bind, Except.bind]
  | ok value => simp [bind, Except.bind]

theorem map_eq_ok_iff {f : α → β} {first : Except ε α} {result : β} :
    first.map f = .ok result ↔ ∃ value, first = .ok value ∧ f value = result := by
  cases first with
  | error e => simp [Except.map]
  | ok value => simp [Except.map]

theorem mapError_eq_ok_iff {f : ε → ε'} {first : Except ε α} {value : α} :
    first.mapError f = .ok value ↔ first = .ok value := by
  cases first <;> simp [Except.mapError]

theorem toOption_eq_some_iff {first : Except ε α} {value : α} :
    first.toOption = some value ↔ first = .ok value := by
  cases first <;> simp [Except.toOption]

theorem mapM_eq_ok_iff {f : α → Except ε β} {items : List α} {results : List β} :
    items.mapM f = .ok results ↔ List.Forall₂ (fun x y => f x = .ok y) items results := by
  induction items generalizing results with
  | nil =>
      cases results with
      | nil => simp [pure, Except.pure]
      | cons y ys => simp [pure, Except.pure]
  | cons x rest ih =>
      rw [List.mapM_cons, bind_eq_ok_iff]
      constructor
      · rintro ⟨y, hy, htail⟩
        obtain ⟨ys, hys, hresult⟩ := bind_eq_ok_iff.mp htail
        cases hresult
        exact .cons hy (ih.mp hys)
      · rintro (_ | ⟨hy, hys⟩)
        exact ⟨_, hy, bind_eq_ok_iff.mpr ⟨_, ih.mpr hys, rfl⟩⟩

/-- Every result of a traversal is the result of an element. -/
theorem exists_of_mem_mapM {f : α → Except ε β} {items : List α} {results : List β}
    (h : items.mapM f = .ok results) {y : β} (hy : y ∈ results) :
    ∃ x ∈ items, f x = .ok y :=
  Forall₂.exists_of_mem_right (mapM_eq_ok_iff.mp h) hy

theorem exists_of_mapM_error {f : α → Except ε β} {items : List α} {e : ε}
    (failed : items.mapM f = .error e) : ∃ x ∈ items, f x = .error e := by
  induction items with
  | nil => simp [pure, Except.pure] at failed
  | cons x rest ih =>
      rw [List.mapM_cons, bind_eq_error_iff] at failed
      rcases failed with hhead | ⟨y, -, htail⟩
      · exact ⟨x, List.mem_cons_self, hhead⟩
      · rcases bind_eq_error_iff.mp htail with hrest | ⟨ys, -, hpure⟩
        · obtain ⟨x', hmem, herror⟩ := ih hrest
          exact ⟨x', List.mem_cons_of_mem _ hmem, herror⟩
        · cases hpure

end ScriptCoverage.Except

namespace ScriptCoverage.Option

variable {α β γ : Type}

theorem mapM_eq_some_iff {f : α → Option β} {items : List α} {results : List β} :
    items.mapM f = some results ↔ List.Forall₂ (fun x y => f x = some y) items results := by
  induction items generalizing results with
  | nil => cases results <;> simp
  | cons x rest ih =>
      rw [List.mapM_cons, Option.bind_eq_bind, Option.bind_eq_some_iff]
      constructor
      · rintro ⟨y, hy, htail⟩
        obtain ⟨ys, hys, hresult⟩ := Option.bind_eq_some_iff.mp htail
        cases hresult
        exact .cons hy (ih.mp hys)
      · rintro (_ | ⟨hy, hys⟩)
        exact ⟨_, hy, Option.bind_eq_some_iff.mpr ⟨_, ih.mpr hys, rfl⟩⟩

/-- Items that are read one by one are read together. -/
theorem mapM_map_eq_some {written : α → β} {read? : β → Option γ} {entry : α → γ}
    (h : ∀ x, read? (written x) = some (entry x)) (items : List α) :
    (items.map written).mapM read? = some (items.map entry) := by
  have hread : read? ∘ written = fun x => pure (entry x) := funext h
  rw [List.mapM_map, hread, List.mapM_pure]
  rfl

end ScriptCoverage.Option
