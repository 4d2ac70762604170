import Reckoner.Prompt.Path
import Reckoner.Prompt.Transcript

/-!
# The command line

Reads the options, and then answers line by line what comes in.
-/

namespace Reckoner.Prompt

/-- Writes the listing to its file, if it has changed. -/
def writeListing (path : Option String) (before after : Session) : IO Unit := do
  match path, after.file with
  | some path, some text => if before.file ≠ after.file then IO.FS.writeFile path text
  | _, _ => return ()

/-- Answers a line; an error that is not one of the line ends the program. -/
def answerLine (path : Option String) (s : Session) (line : String) : IO Session := do
  let r := respond s line
  IO.eprint r.errors
  writeListing path s r.session
  IO.print r.output
  match r.escaped with
  | some e => throw (IO.userError e.message)
  | none => return r.session

/-- Answers lines until the input ends. -/
partial def serve (path : Option String) (s : Session) : IO Unit := do
  IO.print mark
  (← IO.getStdout).flush
  match rows (← (← IO.getStdin).getLine).toList with
  | [] => return ()
  | row :: _ => serve path (← answerLine path s (lineOf row))

end Reckoner.Prompt

open Reckoner.Prompt in
/-- Runs the calculator. -/
def main (arguments : List String) : IO UInt32 := do
  match read arguments with
  | .help => IO.print helpText; return 0
  | .refused e => IO.eprint e.report; return 2
  | .noBackend => throw (IO.userError noBackendMessage)
  | .options o =>
    serve o.path? (o.session (o.listings fun _ ↦ none))
    return 0
