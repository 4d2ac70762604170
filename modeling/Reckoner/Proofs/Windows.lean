import Reckoner.Expr.Parser
import Reckoner.Proofs.Grammar

/-!
# Steps on a window of tokens

A parser knows a whole list and walks along it by positions. What it can still read is a *window*
of the list: the tokens from its position up to its stop (`Parser.window`). The grammar speaks of
rows of tokens, not of positions in a list. So what a parser does is told here once more, by steps
that consume tokens off the front of a window and know nothing of positions: a token is given by the
number of tokens of the window from it on.

If the window reaches outside the list, its edge is ragged: running out of tokens is then a failure
of another sort.

The search for a closing parenthesis is a matter of counting: the row before it closes just as many
parentheses as are open (`Parser.split_of_findClosing`, `Parser.findClosing_append`).
-/

namespace Reckoner

namespace Position

variable {α : Type}

/-- What is read from a position on; nothing, if it lies outside the row. Reading on from a negative
position goes over the end of the row to its start, since the position after `-1` is `0`. -/
def onward (xs : List α) (i : Int) : List α :=
  if 0 ≤ i then xs.drop i.toNat
  else if 0 ≤ xs.length + i then xs.drop (xs.length + i).toNat ++ xs
  else []

/-- From a position that counts from the start on, the rest of the list is read. -/
@[simp]
theorem onward_natCast (xs : List α) (n : Nat) : onward xs n = xs.drop n := by
  simp [onward]

end Position

namespace Parser

/-! ### Steps on a window -/

/-- The end of a window onto a list of tokens. -/
inductive Edge where
  /-- Nothing belongs to the window beyond its tokens. -/
  | closed
  /-- The window reaches beyond the list, where there is nothing to read. -/
  | ragged
deriving DecidableEq

/-- Why a parsing step fails. -/
inductive Failure where
  /-- The tokens are refused for a fault, which lies `left` tokens before the window's end. -/
  | refused (fault : SyntaxFault) (left : Nat)
  /-- A token beyond the list was asked for. -/
  | beyond
  /-- The bound on the depth of the recursion was met. -/
  | exhausted
deriving DecidableEq

/-- A parsing step consumes tokens off the front of a window. -/
abbrev Step := EStateM Failure (List Token)

/-- Refuses the next token. -/
def refuseNext {α : Type} (fault : SyntaxFault) : Step α := do
  throw (.refused fault (← get).length)

/-- Refuses the token that has just been consumed. -/
def refuseLast {α : Type} (fault : SyntaxFault) : Step α := do
  throw (.refused fault ((← get).length + 1))

/-- The next token, if the window holds one. -/
def peek (edge : Edge) : Step (Option Token) := do
  match ← get, edge with
  | t :: _, _ => return some t
  | [], .closed => return none
  | [], .ragged => throw .beyond

/-- Consumes the next token. -/
def advance (edge : Edge) : Step Token := do
  match ← get, edge with
  | t :: rest, _ => set rest; return t
  | [], .closed => refuseNext .unexpectedEnd
  | [], .ragged => throw .beyond

/-- Where the search for a closing parenthesis ends. -/
inductive Closing where
  /-- At the matching parenthesis, between these tokens. -/
  | found (inner after : List Token)
  /-- At an illegal token, `left` tokens before the end. -/
  | illegal (left : Nat)
  /-- At the end of the line. -/
  | lineEnd
  /-- At the end of the window. -/
  | windowEnd

/-- Puts a token back in front of what was found to lie inside. -/
def Closing.cons (t : Token) : Closing → Closing
  | found inner after => found (t :: inner) after
  | other => other

/-- Looks for the parenthesis that closes the innermost of `depth + 1` open ones. -/
def findClosing (depth : Nat) : List Token → Closing
  | [] => .windowEnd
  | .lparen :: ts => (findClosing (depth + 1) ts).cons .lparen
  | .rparen :: ts =>
    match depth with
    | 0 => .found [] ts
    | depth + 1 => (findClosing depth ts).cons .rparen
  | .illegal :: ts => .illegal (ts.length + 1)
  | .eof :: _ => .lineEnd
  | t :: ts => (findClosing depth ts).cons t

/-- Counts the tokens before the end of the window around, which has `more` tokens behind. -/
def Failure.widen (more : Nat) : Failure → Failure
  | refused fault left => refused fault (left + more)
  | beyond => beyond
  | exhausted => exhausted

/-- Parses a group behind its opening parenthesis; `body` parses what is inside. -/
def group (edge : Edge) (body : Step Expr) : Step Expr := do
  match findClosing 0 (← get), edge with
  | .found inner after, _ =>
    match body.run inner with
    | .ok e _ => set after; return .group e
    | .error failure _ => throw (failure.widen (after.length + 1))
  | .illegal left, _ => throw (.refused .unsupported left)
  | .windowEnd, .ragged => throw .beyond
  | _, _ => refuseLast .unmatchedOpening

/-- Parses a whole window: what follows the longest expression is ignored, unless it is a stray
closing parenthesis. -/
def whole (edge : Edge) (body : Step Expr) : Step Expr := do
  let e ← body
  match ← peek edge with
  | some .rparen => refuseNext .unmatchedClosing
  | _ => return e

/-- Parses the number behind a sign. -/
def signed (edge : Edge) (sign : Token) : Step Expr := do
  match ← advance edge with
  | .number x => return .unary sign.kind (.number x)
  | _ => refuseLast (.signWithoutNumber sign)

/-- Consumes a word of the language. -/
def expect (edge : Edge) (wanted : Kind) : Step PUnit := do
  let found := (← advance edge).kind
  if found = wanted then return () else refuseLast (.expectedWord wanted found)

/-- Parses a conditional behind its first word; `body` parses each of its four places. -/
def conditional (edge : Edge) (body : Step Expr) : Step Expr := do
  let left ← body
  let comparison := (← advance edge).kind
  if comparison.isComparison then
    let right ← body
    expect edge .thenWord
    let whenTrue ← body
    expect edge .elseWord
    let whenFalse ← body
    return .conditional (.binary comparison left right) whenTrue whenFalse
  else refuseLast (.expectedComparison comparison)

mutual

/-- Parses a primary expression. -/
def primary : Nat → Edge → Step Expr
  | 0, _ => throw .exhausted
  | depth + 1, edge => do
    match ← advance edge with
    | .illegal => refuseLast .unsupported
    | .eof => refuseLast .unexpectedEnd
    | .identifier x => return .name x
    | .number x => return .number x
    | .plus => signed edge .plus
    | .minus => signed edge .minus
    | .lparen => group edge (whole .closed (expr depth .closed 0))
    | .rparen => refuseLast .unmatchedClosing
    | .ifWord => conditional edge (primary depth edge)
    | t => refuseLast (.unexpectedToken t.kind)

/-- Parses an expression whose operators bind tighter than `power`. -/
def expr : Nat → Edge → Int → Step Expr
  | 0, _, _ => throw .exhausted
  | depth + 1, edge, power => do
    let left ← primary depth edge
    climb depth edge power left

/-- Goes on behind the expression `left` with the operators that bind tighter than `power`. -/
def climb : Nat → Edge → Int → Expr → Step Expr
  | 0, _, _, _ => throw .exhausted
  | depth + 1, edge, power, left => do
    match ← peek edge with
    | none => return left
    | some .illegal => refuseNext .unsupported
    | some t =>
      if t.bindingPower ≤ power then return left
      else
        let operator := (← advance edge).kind
        if operator.isArithmetic || operator = .assign then
          let right ← expr depth edge operator.bindingPower
          climb depth edge power (.binary operator left right)
        else refuseLast (.unexpectedToken operator)

end

/-! ### The window of a parser -/

/-- The tokens still to be read. -/
def window (p : Parser) : List Token :=
  (Position.onward p.tokens p.position).take p.span

/-- Whether the window has positions outside the list. -/
def edge (p : Parser) : Edge :=
  if p.window.length < p.span then .ragged else .closed

/-- The position of the token that has `left` tokens of the window from it on. -/
def indexOf (p : Parser) (left : Nat) : Int :=
  p.position + p.window.length - left

section Closing

variable {ts inner after : List Token} {t : Token}

/-! ### Closing parentheses -/

/-- The list closes `depth` more parentheses than it opens, and this only at its end. -/
def Closes (depth : Nat) (ts : List Token) : Prop :=
  (∀ front, front <+: ts → front.count .rparen ≤ depth + front.count .lparen) ∧
    ts.count .rparen = depth + ts.count .lparen

/-- With no parenthesis open, closing is balance. -/
theorem closes_zero_iff : Closes 0 ts ↔ Balanced ts := by
  simp [Closes, Balanced]

theorem closes_nil_iff {depth : Nat} : Closes depth [] ↔ depth = 0 := by
  simp [Closes, eq_comm]

/-- What a row closes, seen from its first token on. -/
theorem closes_cons_iff {depth : Nat} :
    Closes depth (t :: ts) ↔
      (∀ front, front <+: ts →
        (t :: front).count .rparen ≤ depth + (t :: front).count .lparen) ∧
      (t :: ts).count .rparen = depth + (t :: ts).count .lparen := by
  simp only [Closes, List.prefix_cons_iff]
  refine and_congr_left fun _ ↦ ⟨fun h front hfront ↦ h _ (.inr ⟨front, rfl, hfront⟩), ?_⟩
  rintro h front (rfl | ⟨front, rfl, hfront⟩)
  · exact Nat.zero_le _
  · exact h front hfront

/-- An opening parenthesis is one more to close. -/
theorem closes_lparen_iff {depth : Nat} : Closes depth (.lparen :: ts) ↔ Closes (depth + 1) ts := by
  rw [closes_cons_iff]
  simp [Closes, Nat.add_assoc, Nat.add_comm 1]

/-- A closing one is one fewer. -/
theorem closes_rparen_iff {depth : Nat} :
    Closes (depth + 1) (.rparen :: ts) ↔ Closes depth ts := by
  rw [closes_cons_iff]
  simp [Closes, Nat.add_right_comm _ 1]

/-- A row that starts by closing what was never opened is not balanced. -/
theorem not_closes_zero_rparen : ¬Closes 0 (.rparen :: ts) := by
  intro h
  have := h.1 [.rparen] (by simp)
  simp at this

/-- All other tokens do not matter for balance. -/
theorem closes_other_iff {depth : Nat} (hl : t ≠ .lparen) (hr : t ≠ .rparen) :
    Closes depth (t :: ts) ↔ Closes depth ts := by
  rw [closes_cons_iff]
  simp [Closes, hl, hr]

/-- The search passes over them. -/
theorem findClosing_other {depth : Nat} (hl : t ≠ .lparen) (hr : t ≠ .rparen)
    (hlast : t.isLast = false) :
    findClosing depth (t :: ts) = (findClosing depth ts).cons t := by
  cases t with
  | lparen => exact absurd rfl hl
  | rparen => exact absurd rfl hr
  | eof | illegal => cases hlast
  | _ => rfl

/-- What was found behind a passed token was found without it. -/
theorem exists_of_cons_eq_found {c : Closing} (h : c.cons t = .found inner after) :
    ∃ inner', inner = t :: inner' ∧ c = .found inner' after := by
  cases c with
  | found inner' after' =>
    cases h
    exact ⟨inner', rfl, rfl⟩
  | _ => cases h

/-- What the search for a closing parenthesis finds: nothing before it ends the line. -/
theorem split_of_findClosing {depth : Nat} (h : findClosing depth ts = .found inner after) :
    ts = inner ++ .rparen :: after ∧ Closes depth inner ∧ ∀ t ∈ inner, t.isLast = false := by
  induction ts generalizing depth inner with
  | nil => cases h
  | cons t ts ih =>
    by_cases hl : t = .lparen
    · subst hl
      obtain ⟨inner, rfl, hfound⟩ := exists_of_cons_eq_found h
      obtain ⟨rfl, hcloses, hlast⟩ := ih hfound
      exact ⟨rfl, closes_lparen_iff.2 hcloses, List.forall_mem_cons.2 ⟨rfl, hlast⟩⟩
    by_cases hr : t = .rparen
    · subst hr
      cases depth with
      | zero =>
        cases h
        exact ⟨rfl, closes_nil_iff.2 rfl, by simp⟩
      | succ depth =>
        obtain ⟨inner, rfl, hfound⟩ := exists_of_cons_eq_found h
        obtain ⟨rfl, hcloses, hlast⟩ := ih hfound
        exact ⟨rfl, closes_rparen_iff.2 hcloses, List.forall_mem_cons.2 ⟨rfl, hlast⟩⟩
    by_cases ht : t.isLast = true
    · cases t with
      | eof | illegal => cases h
      | _ => cases ht
    · rw [Bool.not_eq_true] at ht
      rw [findClosing_other hl hr ht] at h
      obtain ⟨inner, rfl, hfound⟩ := exists_of_cons_eq_found h
      obtain ⟨rfl, hcloses, hlast⟩ := ih hfound
      exact ⟨rfl, (closes_other_iff hl hr).2 hcloses, List.forall_mem_cons.2 ⟨ht, hlast⟩⟩

/-- The search for a closing parenthesis finds the one that closes. -/
theorem findClosing_append {depth : Nat} (hcloses : Closes depth inner)
    (hlast : ∀ t ∈ inner, t.isLast = false) (after : List Token) :
    findClosing depth (inner ++ .rparen :: after) = .found inner after := by
  induction inner generalizing depth with
  | nil =>
    obtain rfl := closes_nil_iff.1 hcloses
    rfl
  | cons t inner ih =>
    obtain ⟨ht, hinner⟩ := List.forall_mem_cons.1 hlast
    by_cases hl : t = .lparen
    · subst hl
      rw [List.cons_append, findClosing, ih (closes_lparen_iff.1 hcloses) hinner, Closing.cons]
    by_cases hr : t = .rparen
    · subst hr
      cases depth with
      | zero => exact absurd hcloses not_closes_zero_rparen
      | succ depth =>
        rw [List.cons_append, findClosing, ih (closes_rparen_iff.1 hcloses) hinner, Closing.cons]
    · rw [List.cons_append, findClosing_other hl hr ht,
        ih ((closes_other_iff hl hr).1 hcloses) hinner, Closing.cons]

end Closing

end Parser

end Reckoner
