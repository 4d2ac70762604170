import Reckoner.Text.Quoted
import Reckoner.Token.Basic

/-!
# Expressions

The tree of a line: numbers, names, signs, binary operations (assignment and comparison among
them), groups in parentheses, and conditionals. Operators are kept as token kinds, so that a tree
may hold an operator that has no meaning; evaluation refuses it. `foreign` stands for something
put into a tree that is no expression at all.
-/

namespace Reckoner

/-- An expression tree. -/
inductive Expr where
  | number (value : Float)
  | name (name : String)
  | unary (operator : Kind) (operand : Expr)
  | binary (operator : Kind) (left right : Expr)
  | group (inner : Expr)
  | conditional (condition whenTrue whenFalse : Expr)
  | foreign (text : String)
deriving DecidableEq

namespace Expr

/-- The tree written out in full. -/
def describe : Expr → String
  | number x => "Number(value=" ++ Decimal.text x ++ ")"
  | name x => "Variable(name=" ++ Text.quoted x ++ ")"
  | unary op e => "UnaryOperation(operator=" ++ operatorText op ++ ", operand=" ++ e.describe ++ ")"
  | binary op l r =>
    "BinaryOperation(operator=" ++ operatorText op ++ ", left=" ++ l.describe ++
      ", right=" ++ r.describe ++ ")"
  | group e => "Parenthesized(inner=" ++ e.describe ++ ")"
  | conditional c t e =>
    "Conditional(condition=" ++ c.describe ++ ", then_branch=" ++ t.describe ++
      ", else_branch=" ++ e.describe ++ ")"
  | foreign s => s
where
  /-- An operator in a written tree. -/
  operatorText (op : Kind) : String :=
    "Token(type=" ++ op.label ++ ", value=None)"

/-- Whether two trees are built alike, numbers compared as numbers. -/
def agrees : Expr → Expr → Bool
  | number x, number y => x == y
  | name x, name y => x == y
  | unary p d, unary q e => p == q && d.agrees e
  | binary p a b, binary q c d => p == q && a.agrees c && b.agrees d
  | group d, group e => d.agrees e
  | conditional a b c, conditional d e f => a.agrees d && b.agrees e && c.agrees f
  | foreign s, foreign t => s == t
  | _, _ => false

end Expr

end Reckoner
