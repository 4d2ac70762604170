import Reckoner.Session

/-!
# Random programs

Programs made by throwing dice: rows of characters, and expressions of a given depth. An expression
is made in two forms at once, the calculator's own and one in which a conditional names its value
first. The depth bounds the nesting: at depth zero only numbers and names are made.
-/

namespace Reckoner

/-- An endless row of numbers, and how many of them have been used. -/
structure Dice where
  numbers : Nat → Int
  used : Nat

/-- Something made by throwing dice. -/
abbrev Throw := StateM Dice

namespace Dice

/-- Dice that show the numbers of a list, over and over. -/
def ofList (numbers : List Int) : Dice :=
  ⟨fun i ↦ numbers[i % numbers.length]?.getD 0, 0⟩

/-- A number below `n`. -/
def below (n : Nat) : Throw Nat := do
  let d ← get
  set { d with used := d.used + 1 }
  return (d.numbers d.used % n).toNat

/-- An element of a list. -/
def choose (l : List String) : Throw String := do
  return l[← below l.length]?.getD ""

end Dice

/-- A program in its two forms. -/
structure Sample where
  /-- The calculator's own form. -/
  code : String
  /-- The form in which a conditional names its value first. -/
  valueFirst : String

namespace Sample

/-- A program that is the same in both forms. -/
def same (s : String) : Sample := ⟨s, s⟩

/-- The names that samples use, with their values. -/
def names : List (String × String) :=
  [("x", "3.0"), ("y", "-2.0"), ("z", "0.5")]

/-- A number of at most two digits. -/
def number : Throw Sample := do
  return same (String.ofList (Decimal.digitsOf (← Dice.below 100)))

/-- One of the names. -/
def name : Throw Sample := do
  return same (← Dice.choose (names.map (·.1)))

/-- A conditional with a primary expression in each of its places. -/
def conditionalOf (primary : Throw Sample) : Throw Sample := do
  let left ← primary
  let right ← primary
  let whenTrue ← primary
  let whenFalse ← primary
  let comparison ← Dice.choose ["<", ">", "=="]
  return {
    code := "if " ++ left.code ++ " " ++ comparison ++ " " ++ right.code ++
      " then " ++ whenTrue.code ++ " else " ++ whenFalse.code
    valueFirst := "(" ++ whenTrue.valueFirst ++ " if " ++ left.valueFirst ++ " " ++ comparison ++
      " " ++ right.valueFirst ++ " else " ++ whenFalse.valueFirst ++ ")" }

/-- Goes on with `n` more operators and terms. -/
def continueWith (primary : Throw Sample) : Nat → Sample → Throw Sample
  | 0, s => return s
  | n + 1, s => do
    let operator ← Dice.choose ["+", "-", "*", "/"]
    let term ← primary
    continueWith primary n {
      code := s.code ++ " " ++ operator ++ " " ++ term.code
      valueFirst := s.valueFirst ++ " " ++ operator ++ " " ++ term.valueFirst }

/-- One to four primary expressions joined by operators. -/
def expressionOf (primary : Throw Sample) : Throw Sample := do
  let first ← primary
  continueWith primary (← Dice.below 4) first

/-- A program in parentheses. -/
def grouped (s : Sample) : Sample :=
  ⟨"(" ++ s.code ++ ")", "(" ++ s.valueFirst ++ ")"⟩

/-- A primary expression of bounded depth. -/
def primaryOf : Nat → Throw Sample
  | 0 => do
    match ← Dice.below 2 with
    | 0 => number
    | _ => name
  | depth + 1 => do
    match ← Dice.below 4 with
    | 0 => number
    | 1 => name
    | 2 => return (← expressionOf (primaryOf depth)).grouped
    | _ => conditionalOf (primaryOf depth)

/-- A primary expression; a depth below zero is that of zero. -/
def primary (depth : Int) : Throw Sample :=
  primaryOf depth.toNat

/-- A conditional. -/
def conditional (depth : Int) : Throw Sample :=
  conditionalOf (primary depth)

/-- An expression. -/
def expression (depth : Int) : Throw Sample :=
  expressionOf (primary depth)

/-- The characters that random texts consist of. -/
def alphabet : List String :=
  ["0", "1", "2", "3", "4", "5", "6", "7", "8", "9", ".", "(", ")", "+", "-", "*", "/", " "]

/-- A text of `n` characters. -/
def textOf : Nat → Throw String
  | 0 => return ""
  | n + 1 => do
    let c ← Dice.choose alphabet
    return c ++ (← textOf n)

/-- A text of a given length; a length below zero is that of zero. -/
def characters (length : Int) : Throw Sample := do
  return same (← textOf length.toNat)

/-- A session in which the names of samples have their values. -/
def session (target : Target) : Session :=
  names.foldl (fun s e ↦ (s.run 0 (e.1 ++ " = " ++ e.2)).2.2) (Session.single target .nowhere false)

/-- The value of a program in such a session, or what is wrong with it. -/
def outcome (target : Target) (code : String) : String :=
  match ((session target).run 0 code).1 with
  | .result x => Decimal.text x
  | .failed e => e.message
  | _ => ""

end Sample

end Reckoner
