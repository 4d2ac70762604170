import Reckoner.Session

/-!
# A demonstration

A fixed series of lines, each shown with its tokens, its tree, its value and the variables after it.
-/

namespace Reckoner.Demonstration

/-- The lines that are shown. -/
def script : List String := [
  "5",
  "-1",
  "1 + 1",
  "-1 + 1",
  "1 + -1",
  "4 + 6 * 3",
  "(4 + 6)",
  "(4+6) * 3",
  "80225/+2",
  "7/6/2000",
  "a = 1",
  "b = (a + 2)",
  "a * b",
  "var = (1 + 14 * (54 * 2))",
  "10 / 5/ 2",
  "c = 1 + 2",
  "c",
  "c = d = 10",
  "3 4",
  "if a < b then a else b",
  "if (a + b) > 100 then 1 else -1",
  "1 / 0",
  "(3 + 2",
  "undefined + 1",
  "2 $ 3"]

/-- What is shown of a line, line by line, and the session after it. -/
def showLine (s : Session) (line : String) : List String × Session :=
  let ts := tokenize line
  let head := ["==========", "code: " ++ Text.quoted line,
    "tokens: " ++ " ".intercalate (ts.map Token.describe)]
  match parse ts with
  | .error e => (head ++ [(CalcError.parse ts e).message], s)
  | .ok e =>
    let (reply, _, s) := s.evaluate 0 e
    let tree := "ast: " ++ e.describe
    match reply with
    | .result x =>
      (head ++ [tree, "result: " ++ Decimal.text x,
        "variables: " ++ (s.table 0).listText], s)
    | .failed error => (head ++ [tree, error.message], s)
    | _ => (head ++ [tree], s)

/-- What is shown of a series of lines. -/
def showLines (s : Session) : List String → List String
  | [] => []
  | line :: rest =>
    let (shown, s) := showLine s line
    shown ++ showLines s rest

/-- The whole demonstration. -/
def text : String :=
  String.join <|
    (showLines (Session.single .interpreter .nowhere false) script).map fun l ↦ l ++ "\n"

end Reckoner.Demonstration
