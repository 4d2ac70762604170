import Reckoner.Code.Basic
import Reckoner.Text.Digit
import Reckoner.Text.Quoted

/-!
# Command-line options

There are four options. An option is given by its full spelling, or by the start of a long one
if only one option starts so; a value follows in the next argument or behind `=`. The value `--` is
none: the option is then given, but without a name. The arguments are sorted into options and plain
ones first, and then the options are taken one after the other, from left to right. The first that
fails is reported, and asking for help ends the matter at once. There is no use for plain arguments;
they are reported at the end, together with unknown options.
-/

namespace Reckoner.Prompt

/-- The options. -/
inductive Flag where
  | help | backend | debug | irFile
deriving DecidableEq

namespace Flag

/-- The long spelling of an option. -/
def long : Flag → String
  | help => "--help"
  | backend => "--backend"
  | debug => "--debug"
  | irFile => "--ir-file"

/-- An option as messages name it. -/
def name : Flag → String
  | help => "-h/--help"
  | f => f.long

/-- Whether a value belongs to the option. -/
def takesValue : Flag → Bool
  | backend | irFile => true
  | help | debug => false

/-- All options, in the order in which they are listed. -/
def all : List Flag :=
  [help, backend, debug, irFile]

end Flag

/-- An argument, as it is sorted. -/
inductive Argument where
  /-- A long option. -/
  | long (flag : Flag) (attached : Option (List Char))
  /-- The short option for help, with what is attached to it. -/
  | short (attached : Option (List Char))
  /-- What looks like an option and is none. -/
  | unknown (text : String)
  /-- No option, or behind a `--`. -/
  | plain (text : String)
  /-- The mark behind which no option comes. -/
  | endOfOptions

/-- Why a command line is refused. -/
inductive UsageError where
  | ambiguous (argument : String) (matching : List Flag)
  | missingValue (flag : Flag)
  | unusedValue (flag : Flag) (value : List Char)
  | unknownBackend (value : String)
  | unrecognized (arguments : List String)

/-- The wording of a refusal. -/
def UsageError.message : UsageError → String
  | ambiguous argument matching =>
    "ambiguous option: " ++ argument ++ " could match " ++ ", ".intercalate (matching.map Flag.long)
  | missingValue f => "argument " ++ f.name ++ ": expected one argument"
  | unusedValue f value =>
    "argument " ++ f.name ++ ": ignored explicit argument " ++ Text.quoted (String.ofList value)
  | unknownBackend value =>
    "argument --backend: invalid choice: " ++ Text.quoted value ++
      " (choose from " ++ Text.quoted "interpreter" ++ ", " ++ Text.quoted "jit" ++ ")"
  | unrecognized arguments => "unrecognized arguments: " ++ " ".intercalate arguments

/-- Whether a text, but for a newline at its end, is a minus sign and a decimal numeral. -/
def looksNegative (cs : List Char) : Bool :=
  let body := if cs.getLast? = some '\n' then cs.dropLast else cs
  let isDecimal (c : Char) : Bool := (Text.decimalDigit? c).isSome
  match body with
  | '-' :: number =>
    match number.dropWhile isDecimal with
    | [] => !number.isEmpty
    | '.' :: fraction => !fraction.isEmpty && fraction.all isDecimal
    | _ => false
  | _ => false

/-- Sorts an argument that starts with two dashes and goes on. -/
def sortLong (cs : List Char) : Except UsageError (Option Argument) :=
  let spelling := cs.takeWhile (· ≠ '=')
  let attached := match cs.dropWhile (· ≠ '=') with
    | [] => none
    | _ :: value => some value
  match Flag.all.filter fun f ↦ f.long.toList = spelling with
  | f :: _ => .ok (some (.long f attached))
  | [] =>
    match Flag.all.filter fun f ↦ spelling.isPrefixOf f.long.toList with
    | [] => .ok none
    | [f] => .ok (some (.long f attached))
    | matching => .error (.ambiguous (String.ofList cs) matching)

/-- Sorts an argument that starts with one dash and goes on. -/
def sortShort : List Char → Option Argument
  | '-' :: 'h' :: [] => some (.short none)
  | '-' :: 'h' :: '=' :: value => some (.short (some value))
  | '-' :: 'h' :: value => some (.short (some value))
  | _ => none

/-- Sorts an argument. -/
def sort (s : String) : Except UsageError Argument := do
  let cs := s.toList
  let option ← match cs with
    | '-' :: '-' :: _ => sortLong cs
    | _ => pure (sortShort cs)
  match option, cs with
  | some a, _ => return a
  | none, '-' :: _ :: _ =>
    if looksNegative cs || cs.contains ' ' then return .plain s else return .unknown s
  | none, _ => return .plain s

/-- Sorts arguments; behind a `--` all are plain. -/
def sortAll : List String → Except UsageError (List Argument)
  | [] => return []
  | s :: rest =>
    if s = "--" then return .endOfOptions :: rest.map .plain
    else do
      let a ← sort s
      return a :: (← sortAll rest)

/-- What an option that takes a value has chosen. -/
inductive Choice (α : Type) where
  /-- The option is not given. -/
  | unset
  /-- The option is given without a name. -/
  | unnamed
  | named (a : α)

/-- The options that have been taken. -/
structure Choices where
  backend : Choice Target
  debug : Bool
  irFile : Choice String

/-- No options. -/
def Choices.start : Choices := ⟨.unset, false, .unset⟩

/-- What the command line asks for. -/
structure Options where
  target : Target
  debug : Bool
  irFile : Choice String

/-- The target of a given name. -/
def backend? : String → Option Target
  | "interpreter" => some .interpreter
  | "jit" => some .native
  | _ => none

/-- Where reading the options leads. -/
inductive Reading where
  | options (options : Options)
  | help
  | refused (error : UsageError)
  /-- The command line is in order, but asks for a backend without a name. -/
  | noBackend

/-- What the short option for help leads to with a text attached: that is a row of short options
joined in one argument, and there is no other. -/
def readShort : List Char → Reading
  | ['h'] => .help
  | 'h' :: rest => readShort rest
  | value => .refused (.unusedValue .help value)

/-- Takes a value for an option. -/
def Choices.take (o : Choices) (f : Flag) (value : String) : Except UsageError Choices :=
  match f with
  | .backend =>
    if value = "--" then .ok { o with backend := .unnamed }
    else
      match backend? value with
      | some target => .ok { o with backend := .named target }
      | none => .error (.unknownBackend value)
  | .irFile => .ok { o with irFile := if value = "--" then .unnamed else .named value }
  | .help | .debug => .ok o

/-- What the options ask for, once all have been taken: native code, unless a backend is chosen. -/
def Choices.conclude (o : Choices) : Reading :=
  match o.backend with
  | .unset => .options ⟨.native, o.debug, o.irFile⟩
  | .named target => .options ⟨target, o.debug, o.irFile⟩
  | .unnamed => .noBackend

/-- Takes the options one after the other; `extras` are the arguments there is no use for. -/
def readSorted (o : Choices) (extras : List String) : List Argument → Reading
  | [] => if extras.isEmpty then o.conclude else .refused (.unrecognized extras)
  | .plain s :: rest => readSorted o (extras ++ [s]) rest
  | .unknown s :: rest => readSorted o (extras ++ [s]) rest
  | .endOfOptions :: rest => readSorted o (extras ++ ["--"]) rest
  | .short none :: _ => .help
  | .short (some value) :: _ => readShort value
  | .long f attached :: rest =>
    match f.takesValue, attached, rest with
    | true, some value, rest =>
      match o.take f (String.ofList value) with
      | .ok o => readSorted o extras rest
      | .error e => .refused e
    | true, none, .plain value :: rest =>
      match o.take f value with
      | .ok o => readSorted o extras rest
      | .error e => .refused e
    | true, none, _ => .refused (.missingValue f)
    | false, some value, _ => .refused (.unusedValue f value)
    | false, none, rest =>
      if f = .help then .help else readSorted { o with debug := true } extras rest

/-- Reads a command line. -/
def read (arguments : List String) : Reading :=
  match sortAll arguments with
  | .ok sorted => readSorted .start [] sorted
  | .error e => .refused e

/-- The wording of the failure to start without a backend. -/
def noBackendMessage : String := "unhashable type: 'list'"

/-- How the program is called. -/
def usage : String :=
  "usage: repl.py [-h] [--backend \x7binterpreter,jit\x7d] [--debug]\n" ++
  "               [--ir-file IR_FILE]\n"

/-- What the options mean. -/
def helpText : String :=
  usage ++
  "\nInteractive calculator compiling every line to native code\n" ++
  "\noptions:\n" ++
  "  -h, --help            show this help message and exit\n" ++
  "  --backend \x7binterpreter,jit\x7d\n" ++
  "                        code generation backend\n" ++
  "  --debug               log the generated IR to stderr\n" ++
  "  --ir-file IR_FILE     write the IR of the last line to this file\n"

/-- The report of a refused command line. -/
def UsageError.report (e : UsageError) : String :=
  usage ++ "repl.py: error: " ++ e.message ++ "\n"

end Reckoner.Prompt
