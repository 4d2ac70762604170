import Reckoner.Token.Position
import Reckoner.Token.Spacing

/-!
# Syntax errors

What can be wrong with a list of tokens, each fault with its wording, and the report that shows the
line with a caret below the offending token.
-/

namespace Reckoner

/-- Why tokens do not form an expression. -/
inductive SyntaxFault where
  /-- A piece of text that is no token stands in the way. -/
  | unsupported
  | unexpectedEnd
  | unmatchedOpening
  | unmatchedClosing
  | unexpectedToken (found : Kind)
  /-- A sign is followed by something other than a number. -/
  | signWithoutNumber (sign : Token)
  | expectedComparison (found : Kind)
  | expectedWord (wanted found : Kind)
deriving DecidableEq

/-- The wording of a fault. -/
def SyntaxFault.message : SyntaxFault → String
  | unsupported => "Input not supported"
  | unexpectedEnd => "Unexpected end of input"
  | unmatchedOpening => "Unmatched opening paren"
  | unmatchedClosing => "Unmatched closing paren"
  | unexpectedToken found => "Unexpected token " ++ found.label
  | signWithoutNumber sign => "Unary " ++ sign.lexeme ++ " must be followed by a number"
  | expectedComparison found => "Expected comparison operator, found " ++ found.label
  | expectedWord wanted found => "Expected " ++ wanted.label ++ ", found " ++ found.label

/-- A fault at a token, given by its position in the list. -/
structure SyntaxError where
  fault : SyntaxFault
  index : Int
deriving DecidableEq

/-- The column below which the caret for the token at `index` stands: behind the tokens before it
and the space that follows them. -/
def caretColumn (ts : List Token) (index : Int) : Nat :=
  let before := Position.before ts index
  (untokenize before).length + if before.isEmpty then 0 else 1

/-- Three lines: the message, the line, and a caret below the token at `index`. -/
def caretReport (message : String) (ts : List Token) (index : Int) : String :=
  "Parser error: " ++ message ++ "\n" ++ untokenize ts ++ "\n" ++
    String.ofList (List.replicate (caretColumn ts index) ' ') ++ "^"

/-- The report of an error in a list of tokens. -/
def SyntaxError.report (e : SyntaxError) (ts : List Token) : String :=
  caretReport e.fault.message ts e.index

end Reckoner
