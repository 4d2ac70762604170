import Reckoner.Decimal.Style
import Reckoner.Text.Printable

/-!
# Quoted texts

A text is quoted between single quotes, or between double quotes if it holds a single quote and no
double one. The quote in use and the backslash are escaped by a backslash, tab, newline and
carriage return have escapes of their own, and any other character that is not printable is given
by its code point: in two, four or eight hexadecimal digits, whichever is the shortest that fits.
-/

namespace Reckoner.Text

/-- The single quote. -/
def singleQuote : Char := '\x27'

/-- The double quote. -/
def doubleQuote : Char := '\x22'

/-- The backslash. -/
def backslash : Char := '\x5c'

/-- An escape that gives the code point in `width` hexadecimal digits. -/
def codePointEscape (mark : Char) (width : Nat) (c : Char) : List Char :=
  backslash :: mark :: Decimal.padZeros width (Nat.toDigits 16 c.toNat)

/-- A character as it stands between quotes of the given kind. -/
def escape (quote c : Char) : List Char :=
  if c = quote || c = backslash then [backslash, c]
  else if c = '\t' then [backslash, 't']
  else if c = '\n' then [backslash, 'n']
  else if c = '\r' then [backslash, 'r']
  else if isPrintable c then [c]
  else if c.toNat < 0x100 then codePointEscape 'x' 2 c
  else if c.toNat < 0x10000 then codePointEscape 'u' 4 c
  else codePointEscape 'U' 8 c

/-- The quote a text is put between. -/
def quoteFor (cs : List Char) : Char :=
  if cs.contains singleQuote && !cs.contains doubleQuote then doubleQuote else singleQuote

/-- A text between quotes. -/
def quoted (s : String) : String :=
  let cs := s.toList
  let quote := quoteFor cs
  String.ofList (quote :: cs.flatMap (escape quote) ++ [quote])

end Reckoner.Text
