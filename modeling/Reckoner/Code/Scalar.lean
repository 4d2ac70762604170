import Reckoner.Decimal.Binary
import Reckoner.Decimal.Nearest

/-!
# Scalars

What a register holds: a double, or a whole number. A truth value is the whole number one or zero.
Sums, differences and products of whole numbers are exact; where a whole number meets a double it
is converted to the nearest one, which fails if it is too large. Comparisons are always exact.

Native code computes with doubles by instructions of its own. It has two ways to compare: by an
*ordered* predicate, which fails on what is not a number, and by an *unordered* one, which holds.
-/

namespace Reckoner

/-- The operations of arithmetic. -/
inductive Arithmetic where
  | add | sub | mul | div
deriving DecidableEq

/-- The comparisons. -/
inductive Comparison where
  | lt | gt | eq
deriving DecidableEq

/-- The name of an operation in a listing. -/
def Arithmetic.mnemonic : Arithmetic → String
  | add => "add"
  | sub => "sub"
  | mul => "mul"
  | div => "div"

/-- The name of a comparison in a listing. -/
def Comparison.mnemonic : Comparison → String
  | lt => "lt"
  | gt => "gt"
  | eq => "eq"

/-- The magnitude of a double with the sign of another one. -/
def copySign (magnitude x : Float) : Float :=
  if Decimal.isNegative x then -magnitude.abs else magnitude.abs

/-- The quotient of two doubles, where quotients by zero are told apart by hand. -/
def divide (x y : Float) : Float :=
  if y == 0.0 then
    if x == 0.0 || x.isNaN then Decimal.notANumber
    else copySign Decimal.infinity x * copySign 1.0 y
  else x / y

/-- The operation on doubles. -/
def Arithmetic.onFloats : Arithmetic → Float → Float → Float
  | add, x, y => x + y
  | sub, x, y => x - y
  | mul, x, y => x * y
  | div, x, y => divide x y

/-- The comparison on doubles. No comparison holds of what is not a number. -/
def Comparison.onFloats : Comparison → Float → Float → Bool
  | lt, x, y => x < y
  | gt, x, y => x > y
  | eq, x, y => x == y

/-- The content of a register. -/
inductive Scalar where
  | real (x : Float)
  | whole (n : Int)
deriving DecidableEq

/-- Where a whole number is too large for a double. -/
inductive RangeFault where
  | conversion
  | quotient
deriving DecidableEq

namespace Scalar

/-- A truth value as a number. -/
def ofBool (b : Bool) : Scalar :=
  whole (if b then 1 else 0)

/-- The nearest double. -/
def toFloat : Scalar → Except RangeFault Float
  | real x => .ok x
  | whole n =>
    let x := Decimal.ofInt n
    if x.isInf then .error .conversion else .ok x

/-- Whether the number, truncated, is not zero; what is not a number counts as true. -/
def truth : Scalar → Bool
  | real x => !(x.abs < 1.0)
  | whole n => n ≠ 0

/-- Whether the number is not zero; what is not a number is not. -/
def isNonzero : Scalar → Bool
  | real x => !(x == 0.0)
  | whole n => n ≠ 0

/-- The double nearest to the quotient of two whole numbers. -/
def divideWholes (m n : Int) : Except RangeFault Float :=
  if n = 0 then do return divide (← (whole m).toFloat) 0.0
  else
    let x := Decimal.ofQuotient m.natAbs n.natAbs
    if x.isInf then .error .quotient
    else .ok (if (m < 0) ≠ (n < 0) then -x else x)

/-- How a whole number compares with a double; not at all if that is not a number. -/
def compareWhole (n : Int) (x : Float) : Option Ordering :=
  if x.isNaN then none
  else
    match Decimal.binaryValue? x with
    | none => some (if Decimal.isNegative x then .gt else .lt)
    | some (m, e) =>
      let scale (k : Int) : Int := (Nat.pow 2 k.toNat : Nat)
      some (compare (n * scale (-e)) (m * scale e))

end Scalar

/-- The operation on scalars. -/
def Arithmetic.apply : Arithmetic → Scalar → Scalar → Except RangeFault Scalar
  | add, .whole m, .whole n => .ok (.whole (m + n))
  | sub, .whole m, .whole n => .ok (.whole (m - n))
  | mul, .whole m, .whole n => .ok (.whole (m * n))
  | div, .whole m, .whole n => (Scalar.divideWholes m n).map .real
  | op, a, b => do return .real (op.onFloats (← a.toFloat) (← b.toFloat))

/-- Whether an order is the one a comparison asks for. -/
def Comparison.accepts : Comparison → Ordering → Bool
  | lt, o => o = .lt
  | gt, o => o = .gt
  | eq, o => o = .eq

/-- The comparison on scalars. -/
def Comparison.holds (op : Comparison) : Scalar → Scalar → Bool
  | .real x, .real y => op.onFloats x y
  | .whole m, .whole n => op.accepts (compare m n)
  | .whole n, .real x => (Scalar.compareWhole n x).any op.accepts
  | .real x, .whole n => ((Scalar.compareWhole n x).map Ordering.swap).any op.accepts

/-! ### Native instructions -/

/-- The instructions of native code that compute a double. -/
inductive FloatInstr where
  | fadd | fsub | fmul | fdiv
deriving DecidableEq

/-- What an instruction computes. -/
def FloatInstr.run : FloatInstr → Float → Float → Float
  | fadd, x, y => x + y
  | fsub, x, y => x - y
  | fmul, x, y => x * y
  | fdiv, x, y => x / y

/-- The instruction for an operation. -/
def Arithmetic.instruction : Arithmetic → FloatInstr
  | add => .fadd
  | sub => .fsub
  | mul => .fmul
  | div => .fdiv

/-- The predicates of native code. -/
inductive Predicate where
  | lt | gt | eq | ge
deriving DecidableEq

namespace Predicate

/-- How a predicate compares. -/
def holds : Predicate → Float → Float → Bool
  | lt, x, y => x < y
  | gt, x, y => x > y
  | eq, x, y => x == y
  | ge, x, y => x ≥ y

/-- Both are numbers and compare as the predicate says. -/
def ordered (p : Predicate) (x y : Float) : Bool :=
  !(x.isNaN || y.isNaN) && p.holds x y

/-- One is not a number, or they compare as the predicate says. -/
def unordered (p : Predicate) (x y : Float) : Bool :=
  (x.isNaN || y.isNaN) || p.holds x y

end Predicate

/-- The predicate for a comparison. -/
def Comparison.predicate : Comparison → Predicate
  | lt => .lt
  | gt => .gt
  | eq => .eq

end Reckoner
