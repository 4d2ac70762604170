import Reckoner.Decimal.Binary

/-!
# The fewest digits that read back

The reals that round to a double form an interval around it: it reaches half-way to each
neighbour, and its ends belong to it exactly if the significand is even. `Binary.shortest` looks
for the coarsest power of ten with a multiple in that interval. On each grid it is enough to test
the double's two neighbours (`Binary.onGrid?`); if both are in the interval the nearer one is
taken, and the even one if they are equally near. The result has the fewest digits of all decimals
that read back as the double, and is the nearest of those.
-/

namespace Reckoner.Decimal

/-- The decimal `digits * 10 ^ exponent`. -/
structure Digits where
  digits : Nat
  exponent : Int

/-- The multiple of `10 ^ p` that reads back as `b`, if there is one: the nearest of them, counted
in multiples. The interval of `b` is measured in quarters of its last place, each of which is
`step / unit` multiples of `10 ^ p`. -/
def Binary.onGrid? (b : Binary) (p : Int) : Option Nat :=
  let step := Nat.pow 2 (b.exponent - 2).toNat * Nat.pow 10 (-p).toNat
  let unit := Nat.pow 2 (2 - b.exponent).toNat * Nat.pow 10 p.toNat
  let quarters := 4 * b.significand
  let low := (quarters - if b.narrow then 1 else 2) * step
  let high := (quarters + 2) * step
  let readsBack (c : Nat) : Bool :=
    if b.significand % 2 = 0 then low ≤ c * unit && c * unit ≤ high
    else low < c * unit && c * unit < high
  let below := quarters * step / unit
  let twice := 2 * (quarters * step)
  let middle := (2 * below + 1) * unit
  match readsBack below, readsBack (below + 1) with
  | false, false => none
  | true, false => some below
  | false, true => some (below + 1)
  | true, true =>
    some (if twice < middle then below else if middle < twice then below + 1 else below + below % 2)

/-- A power of ten above the double, from the position of its leading bit. -/
def Binary.gridAbove (b : Binary) : Int :=
  ((Nat.log2 b.significand : Int) + b.exponent + 1) * 30103 / 100000 + 1

/-- Searches `n` grids, from `10 ^ p` downward. -/
def Binary.search (b : Binary) : Nat → Int → Digits
  | 0, p => ⟨0, p⟩
  | n + 1, p =>
    match b.onGrid? p with
    | some c => ⟨c, p⟩
    | none => b.search n (p - 1)

/-- The shortest decimal that reads back as the double. Seventeen digits always suffice, so twenty
grids below the power of ten above it do. -/
def Binary.shortest (b : Binary) : Digits :=
  b.search 20 b.gridAbove

end Reckoner.Decimal
