import Reckoner.Decimal.Numeral
import Reckoner.Text.Letter
import Reckoner.Token.Basic

/-!
# Reading tokens

A `Cursor` is a place in a line, from which characters and tokens can be read one by one. To read a
token it passes over layout (spaces, tabs and newlines), and then takes the longest piece of text
that belongs together: a run of digits and points, a run of letters, `==`, or a single character.
`Cursor.lex` repeats this up to the first token that ends the list; it terminates because each step
but the last one leaves less text (`Cursor.length_rest_nextToken_lt`).
-/

namespace Reckoner

namespace Token

/-- The characters between tokens. -/
def isLayout (c : Char) : Bool :=
  c = ' ' || c = '\t' || c = '\n'

/-- The characters a numeral may continue with. -/
def inNumeral (c : Char) : Bool :=
  Text.isDigit c || c = '.'

/-- The token of a run of digits and points. -/
def ofNumeral (cs : List Char) : Token :=
  match Decimal.numeral? cs with
  | some x => number x
  | none => illegal

/-- The token of a run of letters: a word of the language, or a name. -/
def ofWord (cs : List Char) : Token :=
  if cs = ['i', 'f'] then ifWord
  else if cs = ['t', 'h', 'e', 'n'] then thenWord
  else if cs = ['e', 'l', 's', 'e'] then elseWord
  else identifier (String.ofList cs)

/-- The token of a character that stands for itself. -/
def ofSymbol : Char → Token
  | '+' => plus
  | '-' => minus
  | '*' => star
  | '/' => slash
  | '(' => lparen
  | ')' => rparen
  | '<' => less
  | '>' => greater
  | '=' => assign
  | _ => illegal

end Token

/-- A place in a line: the characters of the line, and how many of them lie before the place. -/
structure Cursor where
  line : Array Char
  position : Nat

namespace Cursor

/-- The start of a line. -/
def start (line : String) : Cursor :=
  ⟨line.toList.toArray, 0⟩

/-- The cursor, some characters further on. -/
def moved (c : Cursor) (n : Nat) : Cursor :=
  { c with position := c.position + n }

/-- The character at the cursor, if there is one. -/
def peek (c : Cursor) : Option Char :=
  c.line[c.position]?

/-- Reads one character; there is none at the end of the line. -/
def advance? (c : Cursor) : Option (Char × Cursor) :=
  match c.peek with
  | some x => some (x, c.moved 1)
  | none => none

/-- Passes over characters of a class, up to the first one that is not in it. -/
def passWhile (p : Char → Bool) (c : Cursor) : Cursor :=
  go (c.line.size - c.position) c
where
  /-- Goes on for at most `n` characters. -/
  go : (n : Nat) → Cursor → Cursor
  | 0, c => c
  | n + 1, c =>
    match c.peek with
    | some x => if p x then go n (c.moved 1) else c
    | none => c

/-- The characters from one place in a line to another. -/
def textTo (c d : Cursor) : List Char :=
  (c.line.extract c.position d.position).toList

/-- Reads one token. -/
def nextToken (c : Cursor) : Token × Cursor :=
  let c := c.passWhile Token.isLayout
  match c.peek with
  | none => (.eof, c)
  | some x =>
    if Text.isDigit x then
      let d := c.passWhile Token.inNumeral
      (.ofNumeral (c.textTo d), d)
    else if Text.isLetter x then
      let d := c.passWhile Text.isLetter
      (.ofWord (c.textTo d), d)
    else if x = '=' && (c.moved 1).peek = some '=' then (.equal, c.moved 2)
    else (.ofSymbol x, c.moved 1)

/-! ### Progress -/

/-- The text from the cursor on. -/
def rest (c : Cursor) : List Char :=
  c.line.toList.drop c.position

/-- Moving on drops characters from the text before the cursor. -/
@[simp]
theorem rest_moved (c : Cursor) (n : Nat) : (c.moved n).rest = c.rest.drop n :=
  (List.drop_drop ..).symm

theorem moved_moved (c : Cursor) (m n : Nat) : (c.moved m).moved n = c.moved (m + n) := by
  simp only [moved, Nat.add_assoc]

/-- The next character is the first of the text before the cursor. -/
theorem peek_eq_head? (c : Cursor) : c.peek = c.rest.head? := by
  rw [peek, rest, List.head?_drop, Array.getElem?_toList]

theorem length_rest (c : Cursor) : c.rest.length = c.line.size - c.position := by
  rw [rest, List.length_drop, Array.length_toList]

/-- The loop passes over the longest run, given enough steps. -/
theorem passWhile_go_eq (p : Char → Bool) (n : Nat) (c : Cursor) (h : c.rest.length ≤ n) :
    passWhile.go p n c = c.moved (c.rest.takeWhile p).length := by
  induction n generalizing c with
  | zero =>
    rw [List.length_eq_zero_iff.1 (Nat.le_zero.1 h)]
    rfl
  | succ n ih =>
    rw [passWhile.go, peek_eq_head?]
    rcases hrest : c.rest with - | ⟨x, cs⟩
    · rfl
    · have hnext : (c.moved 1).rest = cs := by rw [rest_moved, hrest, List.drop_one, List.tail_cons]
      rw [hrest, List.length_cons, Nat.add_le_add_iff_right, ← hnext] at h
      simp only [List.head?_cons, List.takeWhile_cons]
      split
      · rw [ih _ h, hnext, moved_moved, List.length_cons, Nat.add_comm]
      · rfl

/-- Passing over the characters of a class stops behind the longest run of them. -/
theorem passWhile_eq (p : Char → Bool) (c : Cursor) :
    c.passWhile p = c.moved (c.rest.takeWhile p).length :=
  passWhile_go_eq p _ c (Nat.le_of_eq c.length_rest)

/-- Unless it meets the end of the line, reading a token consumes some of it. -/
theorem length_rest_nextToken_lt {c : Cursor} (h : c.nextToken.1 ≠ .eof) :
    c.nextToken.2.rest.length < c.rest.length := by
  let d := c.moved (c.rest.takeWhile Token.isLayout).length
  have hd : c.passWhile Token.isLayout = d := passWhile_eq _ c
  unfold nextToken at h ⊢
  simp only [hd, peek_eq_head? d] at h ⊢
  rcases hrest : d.rest with - | ⟨x, cs⟩
  · rw [hrest] at h
    exact absurd rfl h
  · -- from here on the cursor moves by at least one character
    have hlt (n : Nat) (hn : 0 < n) : (d.moved n).rest.length < c.rest.length := by
      have hle : d.rest.length ≤ c.rest.length := by
        rw [rest_moved, List.length_drop]
        exact Nat.sub_le _ _
      rw [hrest, List.length_cons] at hle
      rw [rest_moved, List.length_drop, hrest, List.length_cons]
      omega
    have hrun {p : Char → Bool} (hx : p x = true) :
        (d.passWhile p).rest.length < c.rest.length := by
      rw [passWhile_eq, hrest, List.takeWhile_cons, if_pos hx]
      exact hlt _ (Nat.zero_lt_succ _)
    simp only [List.head?_cons]
    split
    · rename_i hdigit
      exact hrun (by rw [Token.inNumeral, hdigit, Bool.true_or])
    · split
      · rename_i hletter
        exact hrun hletter
      · split
        · exact hlt 2 (by decide)
        · exact hlt 1 (by decide)

/-- Reads all tokens up to the first that ends the list. -/
def lex (c : Cursor) : List Token × Cursor :=
  let step := c.nextToken
  if _h : step.1.isLast then ([step.1], step.2)
  else
    let later := lex step.2
    (step.1 :: later.1, later.2)
termination_by c.rest.length
decreasing_by
  refine length_rest_nextToken_lt fun he ↦ _h ?_
  rw [show step.1 = .eof from he]
  rfl

end Cursor

/-- The tokens of a line. -/
def tokenize (line : String) : List Token :=
  (Cursor.start line).lex.1

end Reckoner
