/-
What a sequence of steps did, read off its end.

Reading a text, analysing a program and writing code are all sequences of steps that carry a
state and may stop with an error.  A proof about one of them starts from the fact that it
finished, and needs to know which states it went through.  That is what the lemmas here say,
one for each way of putting steps together, so that no later proof has to look at how a step
is run.
-/

namespace StackCode.Sequencing

variable {ε σ α β : Type} {s t : σ} {e : ε}

/-! ### Steps with a state

A `do` block is a chain of `bind`.  `bind_eq_ok` takes it apart where it is known to have
finished, `bind_eq_error` where it has failed, and `bind_of_ok` runs it forward from a step
whose result is known.  The lemmas on single steps are tagged for `simp`, so a block without
branches is taken apart in one go.
-/

/-- A sequence finished just when its first part did and the rest finished after it. -/
@[simp] theorem bind_eq_ok {x : EStateM ε σ α} {f : α → EStateM ε σ β} {b : β} :
    (x >>= f) s = .ok b t ↔ ∃ a u, x s = .ok a u ∧ f a u = .ok b t := by
  show EStateM.bind x f s = .ok b t ↔ _
  unfold EStateM.bind
  cases x s with
  | ok a u =>
      constructor
      · intro h
        exact ⟨a, u, rfl, h⟩
      · rintro ⟨_, _, ⟨rfl, rfl⟩, h⟩
        exact h
  | error e u => simp

/-- A sequence whose first part finished goes on with the rest. -/
theorem bind_of_ok {x : EStateM ε σ α} {f : α → EStateM ε σ β} {a : α} (h : x s = .ok a t) :
    (x >>= f) s = f a t := by
  show EStateM.bind x f s = _
  rw [EStateM.bind, h]

/-- A sequence failed in its first part, or in the rest after it. -/
theorem bind_eq_error {x : EStateM ε σ α} {f : α → EStateM ε σ β} :
    (x >>= f) s = .error e t ↔
      x s = .error e t ∨ ∃ a u, x s = .ok a u ∧ f a u = .error e t := by
  show EStateM.bind x f s = .error e t ↔ _
  unfold EStateM.bind
  cases x s with
  | ok a u =>
      constructor
      · intro h
        exact Or.inr ⟨a, u, rfl, h⟩
      · rintro (h | ⟨_, _, ⟨rfl, rfl⟩, h⟩)
        · simp at h
        · exact h
  | error e u => simp

@[simp] theorem pure_eq_ok {a b : α} :
    (pure a : EStateM ε σ α) s = .ok b t ↔ a = b ∧ s = t := by
  show EStateM.Result.ok a s = .ok b t ↔ _
  simp

@[simp] theorem throw_eq_ok {b : α} : (throw e : EStateM ε σ α) s = .ok b t ↔ False := by
  show EStateM.Result.error e s = .ok b t ↔ _
  simp

/-- Asking for the state gives the state, as `bind_of_ok` wants it. -/
theorem get_eq (s : σ) : (get : EStateM ε σ σ) s = .ok s s := rfl

@[simp] theorem get_eq_ok {u : σ} : (get : EStateM ε σ σ) s = .ok u t ↔ s = u ∧ s = t := by
  show EStateM.Result.ok s s = .ok u t ↔ _
  simp

@[simp] theorem modify_eq_ok {f : σ → σ} {u : PUnit} :
    (modify f : EStateM ε σ PUnit) s = .ok u t ↔ f s = t := by
  show EStateM.Result.ok PUnit.unit (f s) = .ok u t ↔ _
  simp

@[simp] theorem map_eq_ok {x : EStateM ε σ α} {f : α → β} {b : β} :
    (f <$> x) s = .ok b t ↔ ∃ a, x s = .ok a t ∧ f a = b := by
  show EStateM.map f x s = .ok b t ↔ _
  unfold EStateM.map
  cases x s with
  | ok a u =>
      simp only [EStateM.Result.ok.injEq]
      constructor
      · rintro ⟨rfl, rfl⟩
        exact ⟨a, ⟨rfl, rfl⟩, rfl⟩
      · rintro ⟨_, ⟨rfl, rfl⟩, rfl⟩
        exact ⟨rfl, rfl⟩
  | error e u => simp

/-- What stands behind a test that stops the sequence is only reached if the test fails. -/
theorem unless_eq_ok {c : Prop} [Decidable c] {x : EStateM ε σ β} {k : PUnit → EStateM ε σ β}
    {b : β} :
    (if c then (throw e : EStateM ε σ PUnit) >>= k else x) s = .ok b t ↔ ¬c ∧ x s = .ok b t := by
  by_cases hc : c
  · simp [hc]
  · simp [hc]

/-! ### Answers without a state

The same for `Except`, where there are no states to go through.  `mapError` turns the errors
of one phase into those of the compiler and never makes one.
-/

@[simp] theorem except_bind_eq_ok {x : Except ε α} {f : α → Except ε β} {b : β} :
    (x >>= f) = .ok b ↔ ∃ a, x = .ok a ∧ f a = .ok b := by
  show Except.bind x f = .ok b ↔ _
  cases x with
  | ok a => simp [Except.bind]
  | error e => simp [Except.bind]

@[simp] theorem except_pure_eq_ok {a b : α} : (pure a : Except ε α) = .ok b ↔ a = b := by
  show Except.ok a = .ok b ↔ _
  simp

theorem except_mapError_eq_ok {δ : Type} {x : Except ε α} {g : ε → δ} {a : α} :
    x.mapError g = .ok a ↔ x = .ok a := by
  cases x with
  | ok b =>
      show Except.ok b = .ok a ↔ _
      simp
  | error e =>
      show Except.error (g e) = .ok a ↔ _
      simp

theorem except_bind_eq_error {x : Except ε α} {f : α → Except ε β} :
    (x >>= f) = .error e ↔ x = .error e ∨ ∃ a, x = .ok a ∧ f a = .error e := by
  show Except.bind x f = .error e ↔ _
  cases x with
  | ok a => simp [Except.bind]
  | error e' => simp [Except.bind]

theorem except_mapError_eq_error {δ : Type} {x : Except ε α} {g : ε → δ} {e : δ} :
    x.mapError g = .error e ↔ ∃ cause, x = .error cause ∧ e = g cause := by
  cases x with
  | ok b =>
      show Except.ok b = .error e ↔ _
      simp
  | error cause =>
      show Except.error (g cause) = .error e ↔ _
      simp [eq_comm]

end StackCode.Sequencing
