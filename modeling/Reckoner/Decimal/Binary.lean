/-!
# Doubles as binary fractions

A finite double is a whole number, its significand, times a power of two. `Binary.ofMagnitude`
reads both off the bits below the sign; `binaryValue?` adds the sign.
-/

namespace Reckoner.Decimal

/-- A non-negative finite double `significand * 2 ^ exponent`. The gap to its lower neighbour is
half the gap to the upper one exactly if it is `narrow`. -/
structure Binary where
  significand : Nat
  exponent : Int
  narrow : Bool

/-- The bits of a double below its sign. -/
def magnitudeBits (x : Float) : Nat :=
  x.toBits.toNat % Nat.pow 2 63

/-- Whether the sign bit is set; a zero may carry it. -/
def isNegative (x : Float) : Bool :=
  Nat.pow 2 63 ≤ x.toBits.toNat

/-- The finite double whose bits below the sign are `bits`. -/
def Binary.ofMagnitude (bits : Nat) : Binary :=
  let field : Nat := bits / Nat.pow 2 52
  let fraction : Nat := bits % Nat.pow 2 52
  if field = 0 then ⟨fraction, -1074, false⟩
  else ⟨fraction + Nat.pow 2 52, (field : Int) - 1075, fraction = 0 && 1 < field⟩

/-- A finite double as the exact product of a whole number and a power of two. -/
def binaryValue? (x : Float) : Option (Int × Int) :=
  if x.isFinite then
    let b := Binary.ofMagnitude (magnitudeBits x)
    some (if isNegative x then -(b.significand : Int) else b.significand, b.exponent)
  else none

end Reckoner.Decimal
