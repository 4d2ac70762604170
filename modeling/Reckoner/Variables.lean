import Reckoner.Storage
import Reckoner.Text.Quoted

/-!
# Variables

A table of variables gives each name a slot of the storage, in the order in which the names were
declared. Declaring a known name changes nothing. Forgetting a name leaves its cell behind, so a
name that is declared again gets a new slot. The storage may hold cells of other tables as well.
-/

namespace Reckoner

/-- The names that are declared, in order, and the cells behind them and others. -/
structure Variables where
  entries : List (String × Slot)
  storage : Storage
deriving DecidableEq

namespace Variables

/-- No variables. -/
def empty : Variables := ⟨[], []⟩

/-- The slot of a name. -/
def lookup (v : Variables) (name : String) : Option Slot :=
  v.entries.lookup name

/-- Whether a name is declared. -/
def contains (v : Variables) (name : String) : Bool :=
  (v.lookup name).isSome

/-- The value of a name. -/
def get? (v : Variables) (name : String) : Option Float :=
  (v.lookup name).map v.storage.read

/-- The slot of a name, which is declared with the value zero unless it is known. -/
def declare (v : Variables) (name : String) : Slot × Variables :=
  match v.lookup name with
  | some slot => (slot, v)
  | none => (v.storage.length, ⟨v.entries ++ [(name, v.storage.length)], v.storage ++ [0.0]⟩)

/-- Declares a name and gives it a value. -/
def assign (v : Variables) (name : String) (x : Float) : Variables :=
  let (slot, v) := v.declare name
  { v with storage := v.storage.write slot x }

/-- Forgets a name, if it is known. -/
def forget? (v : Variables) (name : String) : Option Variables :=
  if v.contains name then some { v with entries := v.entries.filter fun e ↦ e.1 != name }
  else none

/-- Forgets names one by one, up to the first that is not known; that one is returned. -/
def forgetAll : List String → Variables → Option String × Variables
  | [], v => (none, v)
  | name :: names, v =>
    match v.forget? name with
    | some v => forgetAll names v
    | none => (some name, v)

/-- The declared names, in order. -/
def names (v : Variables) : List String :=
  v.entries.map (·.1)

/-- The declared names with their values, in order. -/
def contents (v : Variables) : List (String × Float) :=
  v.entries.map fun e ↦ (e.1, v.storage.read e.2)

/-- The names with their values, written out. -/
def listText (v : Variables) : String :=
  let items := v.contents.map fun e ↦ Text.quoted e.1 ++ ": " ++ Decimal.text e.2
  "\x7b" ++ ", ".intercalate items ++ "\x7d"

/-- The table, written out. -/
def describe (v : Variables) : String :=
  "Variables(" ++ v.listText ++ ")"

end Variables

end Reckoner
