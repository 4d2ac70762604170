import Reckoner.Evaluation.Basic
import Reckoner.Token.Lexer

/-!
# Sessions

A session holds backends, tables of variables, and evaluators, each of which joins a backend and a
table; both may be shared. The cells of all tables lie in one storage. A backend names its units one
after the other. A request is addressed to an evaluator: it evaluates a line or a tree, or looks at
or changes the evaluator's table. Listings that go to a file all go to the same one.
-/

namespace Reckoner

/-- A source of code units: what they are built for, and how many have been made. -/
structure Backend where
  target : Target
  made : Nat
deriving Inhabited

/-- An evaluator, given by the places of its backend and its table in the session. -/
structure Evaluator where
  backend : Nat
  table : Nat
  listings : Destination
deriving Inhabited

/-- A session. -/
structure Session where
  backends : List Backend
  /-- The cells of all tables. -/
  storage : Storage
  /-- The names of each table with their slots, in order. -/
  tables : List (List (String × Slot))
  evaluators : List Evaluator
  logging : Bool
  /-- The content of the file for listings, once it has been written. -/
  file : Option String

/-- What can be asked of an evaluator. -/
inductive Request where
  | run (line : String)
  | eval (e : Expr)
  | get (name : String)
  | contains (name : String)
  | lookup (name : String)
  | declare (name : String)
  | assign (name : String) (x : Float)
  | forget (name : String)
  | table

/-- What is answered. -/
inductive Reply where
  | result (x : Float)
  | value (x : Float)
  | known (b : Bool)
  | slot (slot : Option Slot)
  | table (v : Variables)
  | done
  | failed (error : CalcError)
deriving DecidableEq

namespace Session

/-- A session in which no unit has been made and no name declared. -/
def start (targets : List Target) (evaluators : List Evaluator) (logging : Bool) : Session where
  backends := targets.map fun t ↦ ⟨t, 0⟩
  storage := []
  tables := List.replicate (evaluators.foldl (fun n e ↦ max n (e.table + 1)) 0) []
  evaluators
  logging
  file := none

/-- A session with a single evaluator. -/
def single (target : Target) (listings : Destination) (logging : Bool) : Session :=
  start [target] [⟨0, 0, listings⟩] logging

/-- The evaluator at a place. -/
def evaluator (s : Session) (ev : Nat) : Evaluator :=
  s.evaluators[ev]?.getD default

/-- The table of an evaluator. -/
def table (s : Session) (ev : Nat) : Variables :=
  ⟨s.tables[(s.evaluator ev).table]?.getD [], s.storage⟩

/-- Puts a table in the place of an evaluator's table. -/
def setTable (s : Session) (ev : Nat) (v : Variables) : Session :=
  { s with storage := v.storage, tables := s.tables.set (s.evaluator ev).table v.entries }

/-- The name of a backend's next unit. -/
def unitName (b : Backend) : String :=
  "calc_" ++ String.ofList (Decimal.digitsOf b.made)

/-- Evaluates a tree. -/
def evaluate (s : Session) (ev : Nat) (e : Expr) : Reply × List LogEntry × Session :=
  let { backend, listings, .. } := s.evaluator ev
  let b := s.backends[backend]?.getD default
  let settings : Settings := ⟨b.target, listings, s.logging⟩
  let done := Reckoner.evaluate settings (unitName b) e (s.table ev)
  let s := { s.setTable ev done.table with
    backends := s.backends.set backend { b with made := b.made + 1 }
    file := done.listing.or s.file }
  match done.result with
  | .ok x => (.result x, done.log, s)
  | .error e => (.failed (.eval e), done.log, s)

/-- Evaluates a line. A line that is no expression needs no unit. -/
def run (s : Session) (ev : Nat) (line : String) : Reply × List LogEntry × Session :=
  let ts := tokenize line
  match parse ts with
  | .ok e => s.evaluate ev e
  | .error e => (.failed (.parse ts e), [], s)

/-- Answers a request to an evaluator. -/
def answer (s : Session) (ev : Nat) : Request → Reply × List LogEntry × Session
  | .run line => s.run ev line
  | .eval e => s.evaluate ev e
  | .get name =>
    match (s.table ev).get? name with
    | some x => (.value x, [], s)
    | none => (.failed (.eval (.unknownName name)), [], s)
  | .contains name => (.known ((s.table ev).contains name), [], s)
  | .lookup name => (.slot ((s.table ev).lookup name), [], s)
  | .declare name =>
    let (slot, v) := (s.table ev).declare name
    (.slot (some slot), [], s.setTable ev v)
  | .assign name x => (.done, [], s.setTable ev ((s.table ev).assign name x))
  | .forget name =>
    match (s.table ev).forget? name with
    | some v => (.done, [], s.setTable ev v)
    | none => (.failed (.eval (.unknownName name)), [], s)
  | .table => (.table (s.table ev), [], s)

end Session

end Reckoner
