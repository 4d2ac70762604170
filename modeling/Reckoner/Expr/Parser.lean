import Reckoner.Expr.Basic
import Reckoner.Expr.SyntaxError

/-!
# Parsing

An expression is read by binding powers: a primary expression, and then operators as long as they
bind tighter than the power asked for, each with its right operand. A conditional takes a primary
expression in each of its four places. The inside of a group is read by a parser of its own, for the
positions between the parentheses: the closing one is found first.

A parser walks along its list by positions, from its own one up to its stop, which need not lie in
the list; positions before the start count from the end. Every fault has a position, which is one in
the whole list also inside of a group. A walk that fails leaves the parser where the fault was met;
what a group does inside leaves the parser around it behind the opening parenthesis.

The three mutually recursive walks take a bound on the depth of the recursion as their first
argument. Every call of depth two consumes a token, so twice the number of positions is enough
(`depthBound`). A walk that is given less may be given up (`Halt.exhausted`).
-/

namespace Reckoner

/-- A position in a list of tokens, and the end of what may be read. -/
structure Parser where
  tokens : List Token
  position : Int
  stop : Int

namespace Parser

/-- A parser for the whole of a list. -/
def ofTokens (ts : List Token) : Parser :=
  ⟨ts, 0, ts.length⟩

/-- The number of positions from here to the stop. -/
def span (p : Parser) : Nat :=
  (p.stop - p.position).toNat

/-- Why a parser halts. -/
inductive Halt where
  /-- What stands at a position is refused. -/
  | refused (error : SyntaxError)
  /-- A token outside the list was asked for. -/
  | beyond
  /-- The bound on the depth of the recursion was met. -/
  | exhausted
deriving DecidableEq

/-- What a parser does as it goes along its list. -/
abbrev Walk := EStateM Halt Parser

namespace Walk

/-- Refuses what stands at a position. -/
def refuse {α : Type} (fault : SyntaxFault) (index : Int) : Walk α :=
  throw (.refused ⟨fault, index⟩)

/-- Refuses the next token. -/
def refuseNext {α : Type} (fault : SyntaxFault) : Walk α := do
  refuse fault (← get).position

/-- Refuses the token that has just been consumed. -/
def refuseLast {α : Type} (fault : SyntaxFault) : Walk α := do
  refuse fault ((← get).position - 1)

/-- The token at a position. -/
def tokenAt (i : Int) : Walk Token := do
  match Position.get? (← get).tokens i with
  | some t => return t
  | none => throw .beyond

/-- The next token, unless the stop is reached. -/
def peek : Walk (Option Token) := do
  let p ← get
  if p.position < p.stop then return some (← tokenAt p.position) else return none

/-- Consumes the next token. -/
def advance : Walk Token := do
  let p ← get
  if p.position < p.stop then
    let t ← tokenAt p.position
    set { p with position := p.position + 1 }
    return t
  else refuse .unexpectedEnd p.position

/-- Looks for the parenthesis that closes the innermost of `depth + 1` open ones, from the position
`j` on, of which `n` are left. The parser itself stays behind the opening parenthesis. -/
def findClosing : (n : Nat) → (depth : Nat) → (j : Int) → Walk Int
  | 0, _, _ => refuseLast .unmatchedOpening
  | n + 1, depth, j => do
    match ← tokenAt j with
    | .lparen => findClosing n (depth + 1) (j + 1)
    | .rparen =>
      match depth with
      | 0 => return j
      | depth + 1 => findClosing n depth (j + 1)
    | .illegal => refuse .unsupported j
    | .eof => refuseLast .unmatchedOpening
    | _ => findClosing n depth (j + 1)

/-- Parses a group behind its opening parenthesis; `body` parses what is inside, on a parser for the
same list that stops at the closing parenthesis. -/
def group (body : Walk Expr) : Walk Expr := do
  let p ← get
  let j ← findClosing p.span 0 p.position
  match body.run { p with stop := j } with
  | .ok e _ => set { p with position := j + 1 }; return .group e
  | .error halt _ => throw halt

/-- Parses all up to the stop: what follows the longest expression is ignored, unless it is a stray
closing parenthesis. -/
def whole (body : Walk Expr) : Walk Expr := do
  let e ← body
  match ← peek with
  | some .rparen => refuseNext .unmatchedClosing
  | _ => return e

/-- Parses the number behind a sign. -/
def signed (sign : Token) : Walk Expr := do
  match ← advance with
  | .number x => return .unary sign.kind (.number x)
  | _ => refuseLast (.signWithoutNumber sign)

/-- Consumes a word of the language. -/
def expect (wanted : Kind) : Walk PUnit := do
  let found := (← advance).kind
  if found = wanted then return () else refuseLast (.expectedWord wanted found)

/-- Parses a conditional behind its first word; `body` parses each of its four places. -/
def conditional (body : Walk Expr) : Walk Expr := do
  let left ← body
  let comparison := (← advance).kind
  if comparison.isComparison then
    let right ← body
    expect .thenWord
    let whenTrue ← body
    expect .elseWord
    let whenFalse ← body
    return .conditional (.binary comparison left right) whenTrue whenFalse
  else refuseLast (.expectedComparison comparison)

mutual

/-- Parses a primary expression. -/
def primary : Nat → Walk Expr
  | 0 => throw .exhausted
  | depth + 1 => do
    match ← advance with
    | .illegal => refuseLast .unsupported
    | .eof => refuseLast .unexpectedEnd
    | .identifier x => return .name x
    | .number x => return .number x
    | .plus => signed .plus
    | .minus => signed .minus
    | .lparen => group (whole (expr depth 0))
    | .rparen => refuseLast .unmatchedClosing
    | .ifWord => conditional (primary depth)
    | t => refuseLast (.unexpectedToken t.kind)

/-- Parses an expression whose operators bind tighter than `power`. -/
def expr : Nat → Int → Walk Expr
  | 0, _ => throw .exhausted
  | depth + 1, power => do
    let left ← primary depth
    climb depth power left

/-- Goes on behind the expression `left` with the operators that bind tighter than `power`. -/
def climb : Nat → Int → Expr → Walk Expr
  | 0, _, _ => throw .exhausted
  | depth + 1, power, left => do
    match ← peek with
    | none => return left
    | some .illegal => refuseNext .unsupported
    | some t =>
      if t.bindingPower ≤ power then return left
      else
        let operator := (← advance).kind
        if operator.isArithmetic || operator = .assign then
          let right ← expr depth operator.bindingPower
          climb depth power (.binary operator left right)
        else refuseLast (.unexpectedToken operator)

end

end Walk

/-- A depth of recursion that is enough for `n` positions. -/
def depthBound (n : Nat) : Nat :=
  2 * n + 2

end Parser

/-- Why a parser stops. -/
inductive ParseError where
  | syntaxError (error : SyntaxError)
  /-- A token outside the list was asked for. -/
  | beyondTokens
deriving DecidableEq

namespace Parser

/-- The answer that a walk comes to, and where the parser is then. -/
def conclude : EStateM.Result Halt Parser Expr → Except ParseError Expr × Parser
  | .ok e p => (.ok e, p)
  | .error (.refused error) p => (.error (.syntaxError error), p)
  | .error .beyond p | .error .exhausted p => (.error .beyondTokens, p)

/-- Parses an expression whose operators bind tighter than `power`. -/
def parseExpr (p : Parser) (power : Int) : Except ParseError Expr × Parser :=
  conclude ((Walk.expr (depthBound p.span) power).run p)

/-- Parses all up to the stop as an expression. -/
def parse (p : Parser) : Except ParseError Expr × Parser :=
  conclude ((Walk.whole (Walk.expr (depthBound p.span) 0)).run p)

end Parser

/-- The expression that a list of tokens stands for. -/
def parse (ts : List Token) : Except ParseError Expr :=
  (Parser.ofTokens ts).parse.1

end Reckoner
