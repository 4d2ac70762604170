import Reckoner.Evaluation.Error
import Reckoner.Proofs.Steps
import Mathlib.Logic.Function.Basic

/-!
# The meaning of expressions

An expression is given a meaning in two passes, neither of which knows of code.

The first pass, `Expr.scope`, goes over the **whole** tree from left to right, both branches of a
conditional included. It threads the list of declared names, and refuses the first node that has no
meaning. Its graph on accepted trees is the relation `Expr.Scoped` (`scope_eq_ok_iff`), which is
what proofs about accepted trees go by induction on.

The second pass, `Expr.eval`, computes the value of an accepted tree and what it does to the values
kept under names. It evaluates only the chosen branch of a conditional. How values are kept is left
to a `Memory`; `eval_congr` compares the evaluations in two memories.
-/

namespace Reckoner

/-- What a binary operator computes. An assignment computes nothing, and neither does a kind that is
no operator. -/
def Kind.meaning? : Kind → Option (Float → Float → Float)
  | plus => some fun x y ↦ x + y
  | minus => some fun x y ↦ x - y
  | star => some fun x y ↦ x * y
  | slash => some fun x y ↦ x / y
  | less => some fun x y ↦ if x < y then 1.0 else 0.0
  | greater => some fun x y ↦ if x > y then 1.0 else 0.0
  | equal => some fun x y ↦ if x == y then 1.0 else 0.0
  | _ => none

@[simp]
theorem Kind.meaning?_assign : Kind.assign.meaning? = none :=
  rfl

/-- Whether an error is a fault in a tree. -/
def EvalError.isStatic : EvalError → Bool
  | undeclared _ | notSign _ | notAssignable | notOperator _ | notExpression _ => true
  | code _ | listing _ | unknownName _ => false

/-- Adds a name at the end, unless it is there. -/
def addName (names : List String) (x : String) : List String :=
  if x ∈ names then names else names ++ [x]

/-- Declaring a name keeps the others. -/
theorem subset_addName (names : List String) (x : String) : names ⊆ addName names x := by
  intro y hy
  unfold addName
  split
  · exact hy
  · exact List.mem_append_left _ hy

theorem mem_addName_self (names : List String) (x : String) : x ∈ addName names x := by
  unfold addName
  split
  · assumption
  · simp

namespace Expr

/-- The name that a tree consists of, if it is a name. -/
def asName? : Expr → Option String
  | name x => some x
  | _ => none

/-- Only a name can be assigned to. -/
@[simp]
theorem asName?_eq_some_iff {e : Expr} {x : String} : e.asName? = some x ↔ e = name x := by
  cases e <;> simp [asName?]

/-! ### The static pass -/

/-- The names that are declared after a tree, when `names` are declared before it; or the first
fault in the tree. The left side of an assignment is looked at before its right side is passed, and
its name is declared after. -/
def scope : Expr → List String → Except EvalError (List String)
  | number _, names => .ok names
  | name x, names => if x ∈ names then .ok names else .error (.undeclared x)
  | unary op e, names =>
    if op = .plus ∨ op = .minus then e.scope names else .error (.notSign op)
  | binary op left right, names =>
    match op.meaning? with
    | some _ => left.scope names >>= right.scope
    | none =>
      if op = .assign then
        match left.asName? with
        | some x => (addName · x) <$> right.scope names
        | none => .error .notAssignable
      else .error (.notOperator op)
  | group e, names => e.scope names
  | conditional c t e, names => c.scope names >>= t.scope >>= e.scope
  | foreign s, _ => .error (.notExpression s)

/-- The accepted trees, with the names declared before and after them. -/
inductive Scoped : Expr → List String → List String → Prop where
  | number {names} (x : Float) : Scoped (number x) names names
  | name {names x} (h : x ∈ names) : Scoped (name x) names names
  | plus {names names' e} : Scoped e names names' → Scoped (unary .plus e) names names'
  | minus {names names' e} : Scoped e names names' → Scoped (unary .minus e) names names'
  | operator {names names' names'' op f a b} (h : op.meaning? = some f) :
      Scoped a names names' → Scoped b names' names'' → Scoped (binary op a b) names names''
  | assign {names names' e} (x : String) :
      Scoped e names names' → Scoped (binary .assign (.name x) e) names (addName names' x)
  | group {names names' e} : Scoped e names names' → Scoped (group e) names names'
  | conditional {names names' names'' names''' c t e} :
      Scoped c names names' → Scoped t names' names'' → Scoped e names'' names''' →
      Scoped (conditional c t e) names names'''

/-- What the rules accept is accepted, with the names that they give. -/
theorem scope_of_scoped {e : Expr} {names names' : List String} (h : e.Scoped names names') :
    e.scope names = .ok names' := by
  induction h with
  | number x => rfl
  | name h => simp [scope, h]
  | plus _ ih => simpa [scope] using ih
  | minus _ ih => simpa [scope] using ih
  | operator h _ _ iha ihb =>
    rw [scope, h]
    simp only [iha]
    exact ihb
  | assign x _ ih =>
    rw [scope, Kind.meaning?_assign]
    simp only [ih, asName?]
    rfl
  | group _ ih => exact ih
  | conditional _ _ _ ihc iht ihe =>
    rw [scope, ihc, show Except.ok _ >>= _ = _ from iht]
    exact ihe

/-- And nothing else is accepted. -/
theorem scoped_of_scope {e : Expr} {names names' : List String} (h : e.scope names = .ok names') :
    e.Scoped names names' := by
  induction e generalizing names names' with
  | number x =>
    cases h
    exact .number x
  | name x =>
    by_cases hx : x ∈ names
    · simp only [scope, if_pos hx, Except.ok.injEq] at h
      exact h ▸ .name hx
    · simp [scope, hx] at h
  | unary op e ih =>
    by_cases hop : op = .plus ∨ op = .minus
    · rw [scope, if_pos hop] at h
      rcases hop with rfl | rfl
      · exact .plus (ih h)
      · exact .minus (ih h)
    · simp [scope, hop] at h
  | binary op a b iha ihb =>
    rw [scope] at h
    rcases hop : op.meaning? with - | f
    · simp only [hop] at h
      split at h
      · rename_i hassign
        subst hassign
        rcases ha : a.asName? with - | x
        · simp [ha] at h
        · obtain rfl := asName?_eq_some_iff.1 ha
          rcases hb : b.scope names with why | names₁
          · rw [hb] at h
            cases h
          · rw [hb] at h
            cases h
            exact .assign x (ihb hb)
      · cases h
    · simp only [hop] at h
      obtain ⟨names₁, ha, hb⟩ := exists_ok_of_bind h
      exact .operator hop (iha ha) (ihb hb)
  | group e ih => exact .group (ih h)
  | conditional c t e ihc iht ihe =>
    obtain ⟨names₂, hct, he⟩ := exists_ok_of_bind h
    obtain ⟨names₁, hc, ht⟩ := exists_ok_of_bind hct
    exact .conditional (ihc hc) (iht ht) (ihe he)
  | foreign s => cases h

/-- The static pass accepts exactly the scoped trees. -/
theorem scope_eq_ok_iff {e : Expr} {names names' : List String} :
    e.scope names = .ok names' ↔ e.Scoped names names' :=
  ⟨scoped_of_scope, scope_of_scoped⟩

/-- What the static pass finds is a fault in the tree. -/
theorem isStatic_of_scope_error {e : Expr} {names : List String} {why : EvalError}
    (h : e.scope names = .error why) : why.isStatic = true := by
  induction e generalizing names with
  | number => cases h
  | name x =>
    rw [scope] at h
    split at h <;> cases h
    rfl
  | unary op e ih =>
    rw [scope] at h
    split at h
    · exact ih h
    · cases h
      rfl
  | binary op a b iha ihb =>
    rw [scope] at h
    split at h
    · exact (error_of_bind h).elim iha fun ⟨_, _, hb⟩ ↦ ihb hb
    · split at h
      · split at h
        · rcases hb : b.scope names with why' | names₁
          · rw [hb] at h
            cases h
            exact ihb hb
          · rw [hb] at h
            cases h
        · cases h
          rfl
      · cases h
        rfl
  | group e ih => exact ih h
  | conditional c t e ihc iht ihe =>
    rcases error_of_bind h with h | ⟨_, _, he⟩
    · exact (error_of_bind h).elim ihc fun ⟨_, _, ht⟩ ↦ iht ht
    · exact ihe he
  | foreign s =>
    cases h
    rfl

/-- No name is lost on the way. -/
theorem Scoped.subset {e : Expr} {names names' : List String} (h : e.Scoped names names') :
    names ⊆ names' := by
  induction h with
  | number | name => exact List.Subset.refl _
  | plus _ ih | minus _ ih | group _ ih => exact ih
  | operator _ _ _ iha ihb => exact List.Subset.trans iha ihb
  | assign x _ ih => exact List.Subset.trans ih (subset_addName _ x)
  | conditional _ _ _ ihc iht ihe => exact List.Subset.trans ihc (List.Subset.trans iht ihe)

end Expr

/-! ### The dynamic pass -/

/-- A way to keep values under names. -/
structure Memory (σ : Type) where
  read : σ → String → Float
  write : σ → String → Float → σ

/-- Values kept under the names themselves. -/
def Memory.byName : Memory (String → Float) where
  read s x := s x
  write s x v := Function.update s x v

/-- The value of a tree, and what is kept after it. The left operand comes before the right one, a
minus sign multiplies by minus one, and of the branches of a conditional only the chosen one is
evaluated: the first, unless the condition lies strictly between minus one and one. -/
def Expr.eval {σ : Type} (M : Memory σ) : Expr → σ → Float × σ
  | number x, s => (x, s)
  | name x, s => (M.read s x, s)
  | unary op e, s =>
    let (x, s) := e.eval M s
    (if op = .minus then x * (-1.0) else x, s)
  | binary op left right, s =>
    match op.meaning? with
    | some f =>
      let (x, s) := left.eval M s
      let (y, s) := right.eval M s
      (f x y, s)
    | none =>
      let (y, s) := right.eval M s
      match left.asName? with
      | some x => let s := M.write s x y; (M.read s x, s)
      | none => (y, s)
  | group e, s => e.eval M s
  | conditional c t e, s =>
    let (x, s) := c.eval M s
    if x.abs < 1.0 then e.eval M s else t.eval M s
  | foreign _, s => (0.0, s)

/-- Two memories that agree on the names of a scoped tree evaluate it alike. The relation `R`
between what they keep has to tell that reading agrees, and to survive writing. -/
theorem Expr.Scoped.eval_congr {σ τ : Type} {M : Memory σ} {N : Memory τ} {R : σ → τ → Prop}
    {names : List String}
    (hread : ∀ s t, R s t → ∀ x ∈ names, M.read s x = N.read t x)
    (hwrite : ∀ s t, R s t → ∀ x ∈ names, ∀ v, R (M.write s x v) (N.write t x v))
    {e : Expr} {before after : List String} (h : e.Scoped before after) (hsub : after ⊆ names) :
    ∀ s t, R s t → (e.eval M s).1 = (e.eval N t).1 ∧ R (e.eval M s).2 (e.eval N t).2 := by
  induction h with
  | number x => exact fun s t hst ↦ ⟨rfl, hst⟩
  | name hx => exact fun s t hst ↦ ⟨hread s t hst _ (hsub hx), hst⟩
  | plus _ ih | group _ ih => exact ih hsub
  | minus _ ih =>
    intro s t hst
    obtain ⟨hval, hrel⟩ := ih hsub s t hst
    exact ⟨congrArg (· * (-1.0)) hval, hrel⟩
  | @operator _ _ _ op f a b hop _ hb iha ihb =>
    intro s t hst
    obtain ⟨hx, hst₁⟩ := iha (List.Subset.trans hb.subset hsub) s t hst
    obtain ⟨hy, hst₂⟩ := ihb hsub _ _ hst₁
    simp only [eval, hop]
    exact ⟨by rw [hx, hy], hst₂⟩
  | @assign _ names' e x _ ih =>
    intro s t hst
    obtain ⟨hy, hst₁⟩ := ih (List.Subset.trans (subset_addName names' x) hsub) s t hst
    have hx : x ∈ names := hsub (mem_addName_self names' x)
    have hst₂ := hwrite _ _ hst₁ x hx (e.eval M s).1
    simp only [eval, Kind.meaning?_assign]
    rw [← hy]
    exact ⟨hread _ _ hst₂ x hx, hst₂⟩
  | @conditional _ _ _ _ c t e _ ht he ihc iht ihe =>
    intro s u hsu
    have hsub' := List.Subset.trans he.subset hsub
    obtain ⟨hx, hsu₁⟩ := ihc (List.Subset.trans ht.subset hsub') s u hsu
    simp only [eval]
    rw [hx]
    split
    · exact ihe hsub _ _ hsu₁
    · exact iht hsub' _ _ hsu₁

end Reckoner
