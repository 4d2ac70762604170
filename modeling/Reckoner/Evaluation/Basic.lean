import Reckoner.Code.Listing
import Reckoner.Code.Machine
import Reckoner.Evaluation.Lowering

/-!
# Evaluating expressions

Each expression is lowered into a unit of its own, which is traced, checked, run once and given up.
Until the unit runs nothing has been stored, so an evaluation that fails before takes back the names
it has declared: the variables are what they were.

Tracing writes the listing of the unit to the log, and to a file if one is asked for.
-/

namespace Reckoner

/-- Where the listings of units are written, each in place of the one before. -/
inductive Destination where
  | nowhere
  | file
  /-- A file that cannot be written. -/
  | blocked (fault : ListingFault)
deriving DecidableEq, Inhabited

/-- How expressions are evaluated. -/
structure Settings where
  target : Target
  listings : Destination
  logging : Bool

/-- An event that is logged. -/
inductive LogEntry where
  | generated (target : Target) (listing : String)
  | compiled (unit : String)
  | released (unit : String)

/-- An event as a line of the log. The listing of a native unit is not shown. -/
def LogEntry.text : LogEntry → String
  | generated .native _ => "DEBUG jitcalc.runtime: Generated IR:"
  | generated _ listing => "DEBUG jitcalc.runtime: Generated IR:\n" ++ listing
  | compiled unit => "DEBUG jitcalc.jit: Compiled " ++ unit
  | released unit => "DEBUG jitcalc.jit: Released " ++ unit

/-- The events of tracing a unit. -/
def Settings.traceLog (s : Settings) (u : CodeUnit) : List LogEntry :=
  if s.logging then [.generated s.target u.listing] else []

/-- The events of checking, running and giving up a unit; the interpreter logs none. -/
def Settings.runLog (s : Settings) (unit : String) : List LogEntry :=
  if s.logging && s.target = .native then [.compiled unit, .released unit] else []

/-- What an evaluation yields. -/
structure Evaluation where
  result : Except EvalError Float
  /-- The variables afterwards. -/
  table : Variables
  log : List LogEntry
  /-- The listing, if it was written to a file. -/
  listing : Option String

/-- Takes back the names that a lowering has declared. -/
def Lowering.undo (st : Lowering) (why : EvalError) (log : List LogEntry)
    (listing : Option String) : Evaluation :=
  match st.table.forgetAll st.declared with
  | (none, v) => ⟨.error why, v, log, listing⟩
  | (some name, v) => ⟨.error (.unknownName name), v, log, listing⟩

/-- Evaluates an expression in a unit of the given name. The blocks of a lowered expression form no
loop, so that a run enters each of them at most once. -/
def evaluate (s : Settings) (unit : String) (e : Expr) (v : Variables) : Evaluation :=
  match e.lowerAll.run ⟨CodeUnit.new s.target unit, v, []⟩ with
  | .error why st => st.undo why [] none
  | .ok _ st =>
    let log := s.traceLog st.unit
    match s.listings with
    | .blocked fault => st.undo (.listing fault) log none
    | place =>
      let listing := if place = .file then some st.unit.listing else none
      match st.unit.compile with
      | .error fault => st.undo (.code fault) log listing
      | .ok u =>
        let ran := u.run u.blocks.length st.table.storage
        { result := ran.result.mapError .code
          table := { st.table with storage := ran.storage }
          log := log ++ s.runLog unit
          listing }

end Reckoner
