/-!
# Rows of steps

A row of steps succeeds if each of its steps does, and fails where the first of them fails. The
static pass over a tree is a computation that may fail; lowering, running and parsing also have a
state. What is said here holds for all of them.
-/

namespace Reckoner

variable {ε σ α β : Type}

/-! ### Steps that may fail -/

section Except

variable {x : Except ε α} {f : α → Except ε β}

/-- What succeeds behind a step comes after a step that succeeds. -/
theorem exists_ok_of_bind {b : β} (h : x >>= f = .ok b) : ∃ a, x = .ok a ∧ f a = .ok b := by
  rcases x with why | a
  · cases h
  · exact ⟨a, rfl, h⟩

/-- Where a row of two steps fails, the first fails, or the second after it. -/
theorem error_of_bind {why : ε} (h : x >>= f = .error why) :
    x = .error why ∨ ∃ a, x = .ok a ∧ f a = .error why := by
  rcases x with why' | a
  · exact .inl (by cases h; rfl)
  · exact .inr ⟨a, rfl, h⟩

end Except

/-! ### Steps with a state -/

section State

variable {x : EStateM ε σ α} {s s' : σ}

/-- What follows a step that succeeds goes on from where it ended. -/
theorem run_bind_ok {a : α} (h : x.run s = .ok a s') (f : α → EStateM ε σ β) :
    (x >>= f).run s = (f a).run s' := by
  rw [EStateM.run_bind, h]

/-- What follows a step that stops does not matter. -/
theorem run_bind_error {why : ε} (h : x.run s = .error why s') (f : α → EStateM ε σ β) :
    (x >>= f).run s = .error why s' := by
  rw [EStateM.run_bind, h]

/-- What follows a step is reached only if the step succeeds. -/
theorem run_bind_eq_ok_iff {f : α → EStateM ε σ β} {b : β} :
    (x >>= f).run s = .ok b s' ↔ ∃ a s₁, x.run s = .ok a s₁ ∧ (f a).run s₁ = .ok b s' := by
  rw [EStateM.run_bind]
  rcases x.run s with ⟨a, s₁⟩ | ⟨why, s₁⟩
  · constructor
    · intro h
      exact ⟨a, s₁, rfl, h⟩
    · rintro ⟨_, _, ha, h⟩
      cases ha
      exact h
  · constructor
    · exact nofun
    · rintro ⟨_, _, ha, -⟩
      cases ha

end State

end Reckoner
