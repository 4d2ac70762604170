/-!
# Storage

Storage is a row of cells, each holding a double. A slot is the address of a cell; the cells of a
row are never moved and never given back, so a slot stays what it is.
-/

namespace Reckoner

/-- The address of a cell. -/
abbrev Slot := Nat

/-- A row of cells. -/
abbrev Storage := List Float

namespace Storage

/-- The content of a cell. -/
def read (s : Storage) (slot : Slot) : Float :=
  s[slot]?.getD 0.0

/-- Changes the content of a cell. -/
def write (s : Storage) (slot : Slot) (x : Float) : Storage :=
  s.set slot x

end Storage

end Reckoner
