/-!
# Character classes as ranges

A class of characters is given by the closed ranges of code points it consists of, in ascending
order. `inRanges` decides membership; the tables themselves stand in the modules named for the
class: `Letter`, `Digit`, `Blank` and `Printable`.
-/

namespace Reckoner.Text

/-- Whether a character's code point lies in one of the closed ranges. -/
def inRanges (table : List (Nat × Nat)) (c : Char) : Bool :=
  table.any fun r ↦ r.1 ≤ c.toNat && c.toNat ≤ r.2

end Reckoner.Text
