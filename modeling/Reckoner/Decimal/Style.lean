import Reckoner.Decimal.Shortest

/-!
# Writing doubles

A `Style` says how the digits of a double are laid out: which decimal exponents are written
positionally and how wide an exponent is at least. `Style.write` lays out the shortest digits that
read back. `plain` is the style of every double the calculator shows.
-/

namespace Reckoner.Decimal

/-- The layout of a decimal. -/
structure Style where
  /-- The smallest exponent of the leading digit that is written positionally. -/
  positionalFrom : Int
  /-- The largest exponent of the leading digit that is written positionally. -/
  positionalTo : Int
  /-- The least number of digits in a written exponent. -/
  exponentWidth : Nat

/-- Positional from `0.0001` to below `10 ^ 16`, with a fraction part always; otherwise one digit
before the point and a signed exponent of two digits at least. -/
def plain : Style := ⟨-4, 15, 2⟩

/-- The decimal digits of a natural number. -/
def digitsOf (n : Nat) : List Char :=
  Nat.toDigits 10 n

/-- Fills up with zeros on the left to at least `width` characters. -/
def padZeros (width : Nat) (cs : List Char) : List Char :=
  List.replicate (width - cs.length) '0' ++ cs

/-- Digits with a point: `point` of them stand before it, and zeros fill up either side. -/
def positional (ds : List Char) (point : Int) : List Char :=
  if point ≤ 0 then ['0', '.'] ++ List.replicate (-point).toNat '0' ++ ds
  else if ds.length ≤ point.toNat then
    ds ++ List.replicate (point.toNat - ds.length) '0' ++ ['.', '0']
  else ds.take point.toNat ++ ['.'] ++ ds.drop point.toNat

/-- One digit, a point if more digits follow, and an exponent with its sign. -/
def Style.scientific (s : Style) (ds : List Char) (lead : Int) : List Char :=
  let mantissa := match ds with
    | d :: e :: rest => d :: '.' :: e :: rest
    | short => short
  mantissa ++ ['e', if lead < 0 then '-' else '+'] ++
    padZeros s.exponentWidth (digitsOf lead.natAbs)

/-- Lays out the decimal `digits * 10 ^ exponent`. -/
def Style.layOut (s : Style) (d : Digits) : List Char :=
  let ds := digitsOf d.digits
  let lead := d.exponent + ds.length - 1
  if s.positionalFrom ≤ lead && lead ≤ s.positionalTo then positional ds (lead + 1)
  else s.scientific ds lead

/-- The text of a double's magnitude. -/
def Style.magnitude (s : Style) (x : Float) : List Char :=
  let bits := magnitudeBits x
  if x.isInf then ['i', 'n', 'f']
  else if bits = 0 then ['0', '.', '0']
  else s.layOut (Binary.ofMagnitude bits).shortest

/-- The text of a double. A zero keeps its sign, and what is not a number has none. -/
def Style.write (s : Style) (x : Float) : String :=
  if x.isNaN then "nan"
  else String.ofList (if isNegative x then '-' :: s.magnitude x else s.magnitude x)

/-- The text of a double in the calculator's own style. -/
def text (x : Float) : String :=
  plain.write x

end Reckoner.Decimal
