import Reckoner.Prompt.Options
import Reckoner.Session
import Reckoner.Text.Blank

/-!
# The prompt

The calculator asks for a line, prints its value or what is wrong with it, and asks again, until the
input ends. Blank lines are passed over. An error in a line is printed; an error of another sort
ends the program (`CalcError.isReported` tells them apart).

`transcript` is everything that is written for a given input.
-/

namespace Reckoner

/-- Whether a fault is one that the compiler of units reports. -/
def CodeFault.isReported : CodeFault → Bool
  | alreadyTerminated _ | notTerminated _ | malformed _ | refused | noIncoming _ => true
  | secondExit | phiAhead | unknownRegister _ | noBlocks | outOfRange _ | exhausted => false

/-- Whether an error is printed in answer to a line. -/
def CalcError.isReported : CalcError → Bool
  | parse _ (.syntaxError _) => true
  | parse _ .beyondTokens => false
  | eval (.code fault) => fault.isReported
  | eval (.listing _) => false
  | eval (.unknownName _) => false
  | eval _ => true

namespace Prompt

/-- What is written before each line is read. -/
def mark : String := "> "

/-- What a line is answered with: texts for the two outputs, and an error that ends the program. -/
structure Response where
  output : String
  errors : String
  escaped : Option CalcError
  session : Session

/-- Answers a line. -/
def respond (s : Session) (line : String) : Response :=
  if Text.isBlankText line then ⟨"", "", none, s⟩
  else
    let (reply, log, s) := s.run 0 line
    let errors := String.join (log.map fun e ↦ e.text ++ "\n")
    match reply with
    | .result x => ⟨Decimal.text x ++ "\n", errors, none, s⟩
    | .failed e =>
      if e.isReported then ⟨e.message ++ "\n", errors, none, s⟩ else ⟨"", errors, some e, s⟩
    | _ => ⟨"", errors, none, s⟩

/-- What has been written, and how it ended. -/
structure Transcript where
  output : String
  errors : String
  escaped : Option CalcError
  /-- The listing file, if it was written. -/
  file : Option String

/-- Puts texts in front of a transcript. -/
def Transcript.after (t : Transcript) (output errors : String) : Transcript :=
  { t with output := output ++ t.output, errors := errors ++ t.errors }

/-- The transcript for the lines of an input. -/
def converse (s : Session) : List String → Transcript
  | [] => ⟨mark, "", none, s.file⟩
  | line :: lines =>
    let r := respond s line
    match r.escaped with
    | some e => ⟨mark ++ r.output, r.errors, some e, r.session.file⟩
    | none => (converse r.session lines).after (mark ++ r.output) r.errors

/-- Cuts a text into rows, each with the newline that ends it. What is left at the end is a row too,
unless it is empty. -/
def rows (text : List Char) : List (List Char) :=
  go [] text
where
  /-- Goes on with a row of which the characters `read` have been read, the last one first. -/
  go (read : List Char) : List Char → List (List Char)
  | [] => if read.isEmpty then [] else [read.reverse]
  | c :: cs => if c = '\n' then (c :: read).reverse :: go [] cs else go (c :: read) cs

/-- The line that stands in a row: the newline at its end is left out. -/
def lineOf (row : List Char) : String :=
  String.ofList (if row.getLast? = some '\n' then row.dropLast else row)

/-- What becomes of carriage returns in an input. -/
inductive Newlines where
  /-- They are characters of their lines. -/
  | kept
  /-- They are newlines, each of them alone or together with a newline behind it. -/
  | translated

/-- The text as it is read. -/
def Newlines.decode : Newlines → List Char → List Char
  | kept, text => text
  | translated, text => go text
where
  /-- Puts newlines for carriage returns. -/
  go : List Char → List Char
  | [] => []
  | '\r' :: '\n' :: cs => '\n' :: go cs
  | '\r' :: cs => '\n' :: go cs
  | c :: cs => c :: go cs

/-- The lines of an input. -/
def Newlines.lines (newlines : Newlines) (input : String) : List String :=
  (rows (newlines.decode input.toList)).map lineOf

/-- The session that the options ask for. -/
def Options.session (o : Options) (listings : Destination) : Session :=
  Session.single o.target listings o.debug

/-- Everything that is written for an input. -/
def transcript (newlines : Newlines) (o : Options) (listings : Destination) (input : String) :
    Transcript :=
  converse (o.session listings) (newlines.lines input)

end Prompt

end Reckoner
