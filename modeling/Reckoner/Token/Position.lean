/-!
# Positions in a row

A position counts from the start of a row, or from its end if it is negative: `-1` is the last
place. For a position that counts from the start these are `List.take` and the access to a place of
a list (`before_natCast`, `get?_natCast`).
-/

namespace Reckoner.Position

variable {α : Type}

/-- What stands before a position; nothing, if it lies before the start. -/
def before (xs : List α) (i : Int) : List α :=
  xs.take (if 0 ≤ i then i else xs.length + i).toNat

/-- What stands at a position; nothing, if it lies outside the row. -/
def get? (xs : List α) (i : Int) : Option α :=
  if 0 ≤ i then xs[i.toNat]?
  else if 0 ≤ xs.length + i then xs[(xs.length + i).toNat]?
  else none

/-- Before a position that counts from the start lies what is taken from there. -/
@[simp]
theorem before_natCast (xs : List α) (n : Nat) : before xs n = xs.take n := by
  simp [before]

/-- A position that counts from the start is a place of the list. -/
@[simp]
theorem get?_natCast (xs : List α) (n : Nat) : get? xs n = xs[n]? := by
  simp [get?]

end Reckoner.Position
