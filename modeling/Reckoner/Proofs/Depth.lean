import Reckoner.Proofs.Positions

/-!
# The depth of the recursion

The recursion of the parser has a bound on its depth, so that it comes to an end. The bound has no
part in what is read: a step that goes deeper does the same, unless the other one was given up
(`Deepens`). A depth of twice the number of tokens is never exhausted (`sufficient`), so from there
on all depths come to the same (`run_expr_of_le`, `run_whole_of_le`).
-/

namespace Reckoner.Parser

variable {α β : Type} {ts : List Token} {d : Nat}

/-! ### Going deeper -/

/-- The second step does what the first one does, unless the first is given up. -/
def Deepens (step deeper : Step α) : Prop :=
  ∀ ts, (∃ rest, step.run ts = .error .exhausted rest) ∨ deeper.run ts = step.run ts

theorem Deepens.refl (step : Step α) : Deepens step step :=
  fun _ ↦ .inr rfl

theorem Deepens.trans {step deeper deepest : Step α} (h : Deepens step deeper)
    (h' : Deepens deeper deepest) : Deepens step deepest := by
  intro ts
  rcases h ts with hgiven | heq
  · exact .inl hgiven
  · have hnext := h' ts
    rwa [heq] at hnext

/-- A row of steps deepens with its parts. -/
theorem Deepens.bind {step deeper : Step α} {f g : α → Step β} (h : Deepens step deeper)
    (hf : ∀ a, Deepens (f a) (g a)) : Deepens (step >>= f) (deeper >>= g) := by
  intro ts
  rcases h ts with ⟨rest, hgiven⟩ | heq
  · exact .inl ⟨rest, run_bind_error hgiven f⟩
  rcases hrun : step.run ts with ⟨a, rest⟩ | ⟨failure, rest⟩
  · rw [hrun] at heq
    rw [run_bind_ok hrun, run_bind_ok heq]
    exact hf a rest
  · rw [hrun] at heq
    rw [run_bind_error hrun, run_bind_error heq]
    exact .inr rfl

/-- A group goes as deep as its body, which sees only what is inside. -/
theorem Deepens.group {body deeper : Step Expr} (h : Deepens body deeper) :
    Deepens (group .closed body) (group .closed deeper) := by
  refine (Deepens.refl (get : Step (List Token))).bind fun ts rest ↦ ?_
  rcases findClosing 0 ts with ⟨inner, after⟩ | left | - | -
  · rcases h inner with ⟨left, hgiven⟩ | heq
    · refine .inl ⟨rest, ?_⟩
      simp only [hgiven]
      rfl
    · right
      simp only [heq]
  all_goals exact .inr rfl

theorem Deepens.whole {body deeper : Step Expr} (h : Deepens body deeper) :
    Deepens (whole .closed body) (whole .closed deeper) :=
  h.bind fun _ ↦ .refl _

/-- A conditional deepens with what it reads in its four places. -/
theorem Deepens.conditional {body deeper : Step Expr} (h : Deepens body deeper) :
    Deepens (conditional .closed body) (conditional .closed deeper) := by
  refine h.bind fun left ↦ (Deepens.refl (advance .closed)).bind fun t ↦ ?_
  dsimp only
  split
  · refine h.bind fun right ↦ (Deepens.refl _).bind fun _ ↦ h.bind fun whenTrue ↦ ?_
    exact (Deepens.refl _).bind fun _ ↦ h.bind fun whenFalse ↦ .refl _
  · exact .refl _

/-! ### The recursion -/

/-- The three steps of the recursion, at a depth and at the next one. -/
structure DeepensAt (d : Nat) : Prop where
  primary : Deepens (primary d .closed) (primary (d + 1) .closed)
  expr : ∀ power, Deepens (expr d .closed power) (expr (d + 1) .closed power)
  climb : ∀ power left, Deepens (climb d .closed power left) (climb (d + 1) .closed power left)

/-- A primary expression deepens with the expressions inside. -/
theorem DeepensAt.primary_succ (h : DeepensAt d) :
    Deepens (Parser.primary (d + 1) .closed) (Parser.primary (d + 2) .closed) := by
  rw [Parser.primary, Parser.primary]
  refine (Deepens.refl (advance .closed)).bind fun t ↦ ?_
  cases t with
  | lparen => exact (h.expr 0).whole.group
  | ifWord => exact h.primary.conditional
  | _ => exact .refl _

/-- So does the row of operators behind an operand. -/
theorem DeepensAt.climb_succ (h : DeepensAt d) (power : Int) (left : Expr) :
    Deepens (Parser.climb (d + 1) .closed power left)
      (Parser.climb (d + 2) .closed power left) := by
  rw [Parser.climb, Parser.climb]
  refine (Deepens.refl (peek .closed)).bind fun next ↦ ?_
  split
  · exact .refl _
  · exact .refl _
  · split
    · exact .refl _
    · refine (Deepens.refl (advance .closed)).bind fun t ↦ ?_
      dsimp only
      split
      · exact (h.expr _).bind fun right ↦ h.climb power _
      · exact .refl _

/-- **One more level of recursion changes no answer that was there.** -/
theorem deepensAt (d : Nat) : DeepensAt d := by
  induction d with
  | zero =>
    exact ⟨fun ts ↦ .inl ⟨ts, rfl⟩, fun _ ts ↦ .inl ⟨ts, rfl⟩, fun _ _ ts ↦ .inl ⟨ts, rfl⟩⟩
  | succ d ih =>
    refine ⟨ih.primary_succ, fun power ↦ ?_, ih.climb_succ⟩
    rw [Parser.expr, Parser.expr]
    exact ih.primary.bind fun left ↦ ih.climb power left

theorem deepens_expr {d' : Nat} (h : d ≤ d') (power : Int) :
    Deepens (expr d .closed power) (expr d' .closed power) := by
  induction h with
  | refl => exact .refl _
  | step _ ih => exact ih.trans ((deepensAt _).expr power)

/-- What is not given up comes to the same with a deeper recursion. -/
theorem Deepens.run_eq {step deeper : Step α} (h : Deepens step deeper)
    (hbehaves : Behaved ts 0 (step.run ts)) : deeper.run ts = step.run ts := by
  rcases h ts with ⟨rest, hgiven⟩ | heq
  · rw [hgiven] at hbehaves
    cases hbehaves
  · exact heq

/-- **From the bound on, the depth does not matter** to an expression. -/
theorem run_expr_of_le (hd : depthBound ts.length ≤ d) (power : Int) :
    (expr d .closed power).run ts = (expr (depthBound ts.length) .closed power).run ts :=
  (deepens_expr hd power).run_eq
    ((sufficient _).expr ts.length power (Nat.le_refl _) ts (Nat.le_refl _))

/-- From the bound on, the depth does not matter to a whole window. -/
theorem run_whole_of_le (hd : depthBound ts.length ≤ d) :
    (whole .closed (expr d .closed 0)).run ts =
      (whole .closed (expr (depthBound ts.length) .closed 0)).run ts :=
  (deepens_expr hd 0).whole.run_eq (behaved_whole (Nat.le_refl _))

end Reckoner.Parser
