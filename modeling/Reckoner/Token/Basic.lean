import Reckoner.Decimal.Style

/-!
# Tokens

A line of input is read as a list of tokens. Numbers and names carry a value; every other token is
determined by its `Kind`. Each token has a *lexeme*, the text it is printed as, and each kind a
*binding power*, which says how tightly it holds on to the expression on its left.
-/

namespace Reckoner

/-- The kinds of tokens. -/
inductive Kind where
  | lparen | rparen | plus | minus | star | slash | number | eof | illegal | assign | identifier
  | ifWord | thenWord | elseWord | equal | less | greater
deriving DecidableEq, Repr

namespace Kind

/-- The name of a kind, as messages give it. -/
def label : Kind → String
  | lparen => "LPAREN"
  | rparen => "RPAREN"
  | plus => "PLUS"
  | minus => "MINUS"
  | star => "STAR"
  | slash => "SLASH"
  | number => "NUMBER"
  | eof => "EOF"
  | illegal => "ILLEGAL"
  | assign => "ASSIGN"
  | identifier => "IDENTIFIER"
  | ifWord => "IF"
  | thenWord => "THEN"
  | elseWord => "ELSE"
  | equal => "EQUAL"
  | less => "LESS"
  | greater => "GREATER"

/-- All kinds. -/
def all : List Kind :=
  [lparen, rparen, plus, minus, star, slash, number, eof, illegal, assign, identifier,
    ifWord, thenWord, elseWord, equal, less, greater]

/-- The kind of a given name. -/
def ofLabel? (s : String) : Option Kind :=
  all.find? fun k ↦ k.label == s

/-- How tightly a token of this kind binds to its left. A kind of power zero never continues an
expression, and an assignment binds tighter than any arithmetic. -/
def bindingPower : Kind → Nat
  | plus | minus => 10
  | star | slash => 20
  | lparen => 99
  | assign => 100
  | _ => 0

/-- Whether the kind is one of the four operations of arithmetic. -/
def isArithmetic : Kind → Bool
  | plus | minus | star | slash => true
  | _ => false

/-- Whether the kind is one of the three comparisons. -/
def isComparison : Kind → Bool
  | less | greater | equal => true
  | _ => false

end Kind

/-- A token. -/
inductive Token where
  | lparen | rparen | plus | minus | star | slash | assign | equal | less | greater
  | ifWord | thenWord | elseWord
  | number (value : Float)
  | identifier (name : String)
  /-- The end of the line. -/
  | eof
  /-- A piece of text that is no token; it ends the list. -/
  | illegal
deriving DecidableEq

namespace Token

/-- The kind of a token. -/
def kind : Token → Kind
  | lparen => .lparen
  | rparen => .rparen
  | plus => .plus
  | minus => .minus
  | star => .star
  | slash => .slash
  | assign => .assign
  | equal => .equal
  | less => .less
  | greater => .greater
  | ifWord => .ifWord
  | thenWord => .thenWord
  | elseWord => .elseWord
  | number _ => .number
  | identifier _ => .identifier
  | eof => .eof
  | illegal => .illegal

/-- The token of a kind that carries no value. -/
def ofKind? : Kind → Option Token
  | .lparen => some lparen
  | .rparen => some rparen
  | .plus => some plus
  | .minus => some minus
  | .star => some star
  | .slash => some slash
  | .assign => some assign
  | .equal => some equal
  | .less => some less
  | .greater => some greater
  | .ifWord => some ifWord
  | .thenWord => some thenWord
  | .elseWord => some elseWord
  | .eof => some eof
  | .illegal => some illegal
  | .number | .identifier => none

/-- How tightly the token binds to its left. -/
def bindingPower (t : Token) : Nat :=
  t.kind.bindingPower

/-- Drops a final `.0`, which a numeral does not need. -/
def dropPointZero (cs : List Char) : List Char :=
  match cs.reverse with
  | '0' :: '.' :: rest => rest.reverse
  | _ => cs

/-- The text a token is printed as. -/
def lexeme : Token → String
  | lparen => "("
  | rparen => ")"
  | plus => "+"
  | minus => "-"
  | star => "*"
  | slash => "/"
  | assign => "="
  | equal => "=="
  | less => "<"
  | greater => ">"
  | ifWord => "if"
  | thenWord => "then"
  | elseWord => "else"
  | number x => String.ofList (dropPointZero (Decimal.text x).toList)
  | identifier name => name
  | eof => ""
  | illegal => "?"

/-- A token with its kind, as a trace shows it. -/
def describe (t : Token) : String :=
  "<" ++ t.kind.label ++ ">" ++ t.lexeme

/-- Whether a token ends the list of tokens. -/
def isLast : Token → Bool
  | eof | illegal => true
  | _ => false

/-- Whether two tokens are of one kind and carry the same value, numbers compared as numbers. -/
def agrees : Token → Token → Bool
  | number x, number y => x == y
  | s, t => s == t

/-- Whether two lists hold tokens that agree, one by one. -/
def listAgrees : List Token → List Token → Bool
  | [], [] => true
  | s :: ss, t :: ts => s.agrees t && listAgrees ss ts
  | _, _ => false

end Token

end Reckoner
