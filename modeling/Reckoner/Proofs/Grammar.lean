import Reckoner.Expr.Basic
import Mathlib.Data.List.Infix

/-!
# The grammar

The grammar of expressions has four levels. Each of them has operators of its own, which associate
to the left and take their right operand from the next tighter level (`Derives`). Assignment is the
tightest of all, so that its right operand is a single primitive.

A line need not end where its expression ends: a `Reading` splits a list of tokens into a body,
which derives the tree, and a rest that may follow it (`Trailing`). The same holds inside of a
group, where the body and what follows it are balanced in their parentheses (`Balanced`).

Levels are compared by binding powers. The power of a level lies below those of its operators, and
the powers of its operators are the power of the next tighter level (`Level.bindingPower_of_mem`).
-/

namespace Reckoner

/-! ### Levels of the grammar -/

/-- The levels of the grammar, from the tightest to the loosest. -/
inductive Level where
  | primitive | assignment | product | sum

namespace Level

/-- The level of the operands on the right, which is the next tighter one. -/
def tighter : Level → Level
  | sum => product
  | product => assignment
  | assignment | primitive => primitive

/-- The operators of a level. -/
def operators : Level → List Token
  | primitive => []
  | assignment => [.assign]
  | product => [.star, .slash]
  | sum => [.plus, .minus]

/-- The binding power above which the operators of a level, and of all tighter ones, lie. -/
def power : Level → Nat
  | primitive => 100
  | assignment => 20
  | product => 10
  | sum => 0

theorem power_le_tighter (level : Level) : level.power ≤ level.tighter.power := by
  cases level <;> decide

/-- The operators of a level bind tighter than the level asks for. -/
theorem power_lt_of_mem {level : Level} {op : Token} (h : op ∈ level.operators) :
    level.power < level.tighter.power := by
  cases level with
  | primitive => cases h
  | _ => decide

/-- There is no power between a level and the tighter one. -/
theorem power_le_of_lt_tighter {level level' : Level} (h : level.power < level'.tighter.power) :
    level.power ≤ level'.power := by
  revert h
  cases level' <;> cases level <;> decide

/-- An operator that binds no tighter than the operators of another level is of a level that is no
tighter either. -/
theorem power_le_of_tighter_le {level level' : Level} {op : Token} (hop : op ∈ level.operators)
    (h : level.tighter.power ≤ level'.tighter.power) : level.power ≤ level'.power :=
  power_le_of_lt_tighter (Nat.lt_of_lt_of_le (power_lt_of_mem hop) h)

/-- An operator has the power of its right operand. -/
theorem bindingPower_of_mem {level : Level} {op : Token} (h : op ∈ level.operators) :
    op.bindingPower = level.tighter.power := by
  revert op
  cases level <;> decide

end Level

/-- Whether a token joins two expressions. -/
def Token.isOperator (t : Token) : Bool :=
  t.kind.isArithmetic || t.kind = .assign

/-- Every operator belongs to a level. -/
theorem Token.isOperator_iff {t : Token} :
    t.isOperator = true ↔ ∃ level : Level, t ∈ level.operators := by
  constructor
  · intro h
    cases t with
    | assign => exact ⟨.assignment, by decide⟩
    | star | slash => exact ⟨.product, by decide⟩
    | plus | minus => exact ⟨.sum, by decide⟩
    | _ => cases h
  · rintro ⟨level, h⟩
    revert t
    cases level <;> decide

/-- The comparisons are `<`, `>` and `==`. -/
theorem Token.isComparison_kind_iff {t : Token} :
    t.kind.isComparison = true ↔ t ∈ [.less, .greater, .equal] := by
  cases t <;> simp [kind, Kind.isComparison]

/-- A token without a value is determined by its kind. -/
theorem Token.kind_eq_iff {wanted : Kind} {word t : Token} (hword : ofKind? wanted = some word) :
    t.kind = wanted ↔ t = word := by
  constructor
  · rintro rfl
    cases t with
    | number | identifier => cases hword
    | _ => exact Option.some.inj hword
  · rintro rfl
    cases wanted <;> cases hword <;> rfl

theorem Kind.bindingPower_le (k : Kind) : k.bindingPower ≤ 100 := by
  cases k <;> decide

/-! ### Derivations -/

/-- What may follow an expression: nothing, or a token that does not go on with it. An illegal token
and a stray closing parenthesis may not. -/
def Trailing (rest : List Token) : Prop :=
  ∀ t ∈ rest.head?, t.bindingPower = 0 ∧ t ≠ .illegal ∧ t ≠ .rparen

instance (rest : List Token) : Decidable (Trailing rest) :=
  inferInstanceAs (Decidable (∀ t ∈ rest.head?, _))

/-- No beginning of the list closes more parentheses than it opens, and all are closed. -/
def Balanced (ts : List Token) : Prop :=
  (∀ front, front <+: ts → front.count .rparen ≤ front.count .lparen) ∧
    ts.count .rparen = ts.count .lparen

instance (ts : List Token) : Decidable (Balanced ts) :=
  decidable_of_iff ((∀ front ∈ ts.inits, front.count .rparen ≤ front.count .lparen) ∧
    ts.count .rparen = ts.count .lparen) (by simp only [List.mem_inits, Balanced])

/-- The grammar, with the trees it gives:
```
primitive  ::= identifier | number | (+ | -) number | "(" sum junk ")"
             | if primitive (< | > | ==) primitive then primitive else primitive
assignment ::= primitive  | assignment = primitive
product    ::= assignment | product (* | /) assignment
sum        ::= product    | sum (+ | -) product
```
Junk is anything that may follow the expression in a group, whose parentheses are balanced. -/
inductive Derives : Level → List Token → Expr → Prop where
  | identifier (x : String) : Derives .primitive [.identifier x] (.name x)
  | number (x : Float) : Derives .primitive [.number x] (.number x)
  | signed {sign : Token} (hsign : sign ∈ [.plus, .minus]) (x : Float) :
    Derives .primitive [sign, .number x] (.unary sign.kind (.number x))
  | group {body junk : List Token} {e : Expr} (h : Derives .sum body e) (hjunk : Trailing junk)
    (hbalanced : Balanced (body ++ junk)) (hlast : ∀ t ∈ body ++ junk, t.isLast = false) :
    Derives .primitive (.lparen :: (body ++ junk) ++ [.rparen]) (.group e)
  | conditional {left right whenTrue whenFalse : List Token} {comparison : Token}
    {a b t e : Expr} (hcomparison : comparison ∈ [.less, .greater, .equal])
    (ha : Derives .primitive left a) (hb : Derives .primitive right b)
    (ht : Derives .primitive whenTrue t) (he : Derives .primitive whenFalse e) :
    Derives .primitive
      (.ifWord :: left ++ comparison :: right ++ .thenWord :: whenTrue ++ .elseWord :: whenFalse)
      (.conditional (.binary comparison.kind a b) t e)
  | lift (level : Level) {ts : List Token} {e : Expr} (h : Derives level.tighter ts e) :
    Derives level ts e
  | operator {level : Level} {op : Token} {left right : List Token} {a b : Expr}
    (hop : op ∈ level.operators) (ha : Derives level left a) (hb : Derives level.tighter right b) :
    Derives level (left ++ op :: right) (.binary op.kind a b)

/-- A reading of a list of tokens: the body derives the tree, and the rest may follow it. -/
structure Reading (ts body : List Token) (e : Expr) (rest : List Token) : Prop where
  split : ts = body ++ rest
  derives : Derives .sum body e
  trailing : Trailing rest

/-- What derives at a level derives at all looser ones. -/
theorem Derives.loosen {level level' : Level} {ts : List Token} {e : Expr} (h : Derives level ts e)
    (hle : level'.power ≤ level.power) : Derives level' ts e := by
  cases level' with
  | sum =>
    cases level with
    | sum => exact h
    | product => exact .lift _ h
    | assignment => exact .lift _ (.lift _ h)
    | primitive => exact .lift _ (.lift _ (.lift _ h))
  | product =>
    cases level with
    | sum => exact absurd hle (by decide)
    | product => exact h
    | assignment => exact .lift _ h
    | primitive => exact .lift _ (.lift _ h)
  | assignment =>
    cases level with
    | assignment => exact h
    | primitive => exact .lift _ h
    | _ => exact absurd hle (by decide)
  | primitive =>
    cases level with
    | primitive => exact h
    | _ => exact absurd hle (by decide)

end Reckoner
