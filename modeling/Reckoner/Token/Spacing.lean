import Reckoner.Text.Blank
import Reckoner.Token.Basic

/-!
# Printing tokens as a line

The lexemes of a list of tokens are joined by single spaces, and then the blanks behind each `(`
and before each `)` are taken out of the text. The end of the line is not printed.
-/

namespace Reckoner

namespace Token

/-- Takes out the blanks that follow an opening parenthesis; `behind` says that nothing but blanks
has come since one. -/
def closeAfterOpening (behind : Bool) : List Char → List Char
  | [] => []
  | c :: cs =>
    if behind && Text.isBlank c then closeAfterOpening true cs
    else c :: closeAfterOpening (c = '(') cs

/-- Takes out the blanks that come before a closing parenthesis. -/
def closeBeforeClosing : List Char → List Char
  | [] => []
  | c :: cs =>
    let rest := closeBeforeClosing cs
    if Text.isBlank c && rest.head? = some ')' then rest else c :: rest

/-- The lexemes of the tokens, joined by single spaces. -/
def joinLexemes (ts : List Token) : String :=
  " ".intercalate ((ts.filter fun t ↦ t.kind ≠ .eof).map lexeme)

end Token

/-- The line that a list of tokens is printed as. -/
def untokenize (ts : List Token) : String :=
  String.ofList <|
    Token.closeBeforeClosing (Token.closeAfterOpening false (Token.joinLexemes ts).toList)

end Reckoner
