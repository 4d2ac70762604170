import Reckoner.Code.Basic
import Reckoner.Expr.Parser
import Reckoner.Text.Quoted

/-!
# Errors of a calculation

What can go wrong between a line of text and its value, each error with its wording.
-/

namespace Reckoner

/-- Why a listing cannot be written to its file. -/
inductive ListingFault where
  /-- A directory is in its place. -/
  | isDirectory
  /-- The file is asked for without a name. -/
  | unnamed
  /-- The directory that the file is to be in does not exist. -/
  | noDirectory (path : String)
deriving DecidableEq

/-- The wording of a fault. -/
def ListingFault.message : ListingFault → String
  | isDirectory => ""
  | unnamed => "'list' object has no attribute 'write_text'"
  | noDirectory path => "[Errno 2] No such file or directory: " ++ Text.quoted path

/-- Why an expression cannot be evaluated. -/
inductive EvalError where
  | undeclared (name : String)
  /-- A unary operator that is no sign. -/
  | notSign (operator : Kind)
  /-- An assignment to something other than a name. -/
  | notAssignable
  /-- A binary operator without a meaning. -/
  | notOperator (operator : Kind)
  /-- Something in the tree that is no expression. -/
  | notExpression (text : String)
  | code (fault : CodeFault)
  | listing (fault : ListingFault)
  /-- A name that is not in the table. -/
  | unknownName (name : String)
deriving DecidableEq

/-- The wording of an error. -/
def EvalError.message : EvalError → String
  | undeclared name => "[Runtime error] Variable not declared: " ++ name
  | notSign op => "[Runtime error] Unary operator must be + or -, found " ++ op.label
  | notAssignable => "[Runtime error] Assignment must be a variable"
  | notOperator op => "[Runtime error] Operator not supported: " ++ op.label
  | notExpression text => "[Runtime error] Unexpected expression type: " ++ text
  | code fault => fault.message
  | listing fault => fault.message
  | unknownName name => Text.quoted name

/-- Why a line of text has no value. -/
inductive CalcError where
  | parse (tokens : List Token) (error : ParseError)
  | eval (error : EvalError)
deriving DecidableEq

/-- The wording of an error; a syntax error is shown below its line. -/
def CalcError.message : CalcError → String
  | parse ts (.syntaxError e) => e.report ts
  | parse _ .beyondTokens => "list index out of range"
  | eval e => e.message

end Reckoner
