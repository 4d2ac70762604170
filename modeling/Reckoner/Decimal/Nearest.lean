/-!
# The double nearest to a quotient

`nearestBits n d` is the bit pattern of the double nearest to `n / d`, a half going to the even
neighbour and a quotient beyond the largest double going to infinity. Everything is exact
arithmetic on natural numbers: the quotient is scaled by a power of two so that its rounding
`roundDiv` is the significand, and significand and exponent are laid side by side as bits.

Reading a decimal (`ofDecimal`) and converting a whole number (`ofInt`) are instances.
-/

namespace Reckoner.Decimal

/-- The whole number nearest to `n / d`; a half goes to the even neighbour. -/
def roundDiv (n d : Nat) : Nat :=
  let q := n / d
  let twice := 2 * (n % d)
  if twice < d then q else if d < twice then q + 1 else q + q % 2

/-- The exponent `e` with `2 ^ e ≤ n / d < 2 ^ (e + 1)`, for positive `n` and `d`. -/
def quotientLog (n d : Nat) : Int :=
  let k : Int := (Nat.log2 n : Int) - (Nat.log2 d : Int)
  if d * Nat.pow 2 k.toNat ≤ n * Nat.pow 2 (-k).toNat then k else k - 1

/-- The bits of the positive infinity. -/
def infinityBits : Nat := 2047 * Nat.pow 2 52

/-- The positive infinity. -/
def infinity : Float :=
  Float.ofBits (UInt64.ofNat infinityBits)

/-- What is not a number. -/
def notANumber : Float :=
  Float.ofBits (UInt64.ofNat (infinityBits + Nat.pow 2 51))

/-- The bits of the double nearest to `n / d`. The exponent is that of the last place: 52 places
below the leading one, and never below that of the smallest double. -/
def nearestBits (n d : Nat) : Nat :=
  if n = 0 then 0
  else
    let e := max (quotientLog n d - 52) (-1074)
    let significand := roundDiv (n * Nat.pow 2 (-e).toNat) (d * Nat.pow 2 e.toNat)
    -- A significand that rounds up to the next power of two carries into the exponent.
    min infinityBits ((e + 1074).toNat * Nat.pow 2 52 + significand)

/-- The double nearest to `n / d`. -/
def ofQuotient (n d : Nat) : Float :=
  Float.ofBits (UInt64.ofNat (nearestBits n d))

/-- The double nearest to `m * 10 ^ e`. -/
def ofDecimal (m : Nat) (e : Int) : Float :=
  ofQuotient (m * Nat.pow 10 e.toNat) (Nat.pow 10 (-e).toNat)

/-- The double nearest to a whole number. -/
def ofInt (n : Int) : Float :=
  if n < 0 then -ofQuotient n.natAbs 1 else ofQuotient n.natAbs 1

end Reckoner.Decimal
