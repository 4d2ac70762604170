import Reckoner.Text.Ranges

/-!
# Blanks

The whitespace characters of Unicode 14: those of bidirectional type WS, B or S, and those of
category Zs. A line of nothing but blanks is an empty line (`isBlankText`).
-/

namespace Reckoner.Text

/-- The ranges of code points that are blanks. -/
def blankRanges : List (Nat × Nat) := [
  (9, 13), (28, 32), (133, 133), (160, 160), (5760, 5760), (8192, 8202), (8232, 8233),
  (8239, 8239), (8287, 8287), (12288, 12288)]

/-- Whether a character is a blank. -/
def isBlank (c : Char) : Bool :=
  inRanges blankRanges c

/-- Whether a text consists of blanks only. -/
def isBlankText (s : String) : Bool :=
  s.toList.all isBlank

end Reckoner.Text
