import Reckoner.Decimal.Nearest
import Reckoner.Text.Digit

/-!
# Reading numerals

A numeral is a run of decimal digits of any script with at most one point in it. `numeral?` gives
the nearest double. `read?` accepts what `text` produces as well: a sign, an exponent, `inf` and
`nan`.
-/

namespace Reckoner.Decimal

/-- The value of a row of decimal digits, continuing from `start`. -/
def digitsValue? (start : Nat) : List Char → Option Nat
  | [] => some start
  | c :: cs =>
    match Text.decimalDigit? c with
    | some d => digitsValue? (10 * start + d) cs
    | none => none

/-- The double nearest to a numeral times `10 ^ shift`. -/
def numeralTimes? (cs : List Char) (shift : Int) : Option Float :=
  let whole := cs.takeWhile (· ≠ '.')
  let fraction := (cs.dropWhile (· ≠ '.')).drop 1
  if whole.isEmpty && fraction.isEmpty then none
  else
    (digitsValue? 0 (whole ++ fraction)).map fun m ↦ ofDecimal m (shift - fraction.length)

/-- The double nearest to a numeral. -/
def numeral? (cs : List Char) : Option Float :=
  numeralTimes? cs 0

/-- The value of a signed whole number. -/
def signedValue? : List Char → Option Int
  | '-' :: cs => if cs.isEmpty then none else (digitsValue? 0 cs).map fun n ↦ -(n : Int)
  | '+' :: cs => if cs.isEmpty then none else (digitsValue? 0 cs).map fun n ↦ (n : Int)
  | cs => if cs.isEmpty then none else (digitsValue? 0 cs).map fun n ↦ (n : Int)

/-- The magnitude of a written double: `inf`, `nan`, or a numeral with an exponent at its end. -/
def magnitude? (cs : List Char) : Option Float :=
  if cs = ['i', 'n', 'f'] then some (1.0 / 0.0)
  else if cs = ['n', 'a', 'n'] then some (0.0 / 0.0)
  else
    let isMark (c : Char) : Bool := c = 'e' || c = 'E'
    let mantissa := cs.takeWhile fun c ↦ !isMark c
    match cs.dropWhile fun c ↦ !isMark c with
    | [] => numeral? mantissa
    | _ :: e => (signedValue? e).bind (numeralTimes? mantissa)

/-- Reads a written double. -/
def read? (s : String) : Option Float :=
  match s.toList with
  | '-' :: cs => (magnitude? cs).map fun x ↦ -x
  | '+' :: cs => magnitude? cs
  | cs => magnitude? cs

end Reckoner.Decimal
