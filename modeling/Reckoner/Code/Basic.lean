import Reckoner.Code.Scalar
import Reckoner.Decimal.Style
import Reckoner.Storage

/-!
# Code units

A code unit is a function without arguments that returns a double. It consists of blocks of
instructions. An instruction computes a value into a register of its own, stores a register into a
slot, or leaves the block: by a branch, a jump, or a return. A phi takes the value that belongs to
the block control came from.

Units are built for a target. The interpreter's units take instructions into a block until it is
left, and keep constants as instructions. Native units keep constants apart; they refuse a second
exit in a block, but no other instruction.
-/

namespace Reckoner

/-- A place for an intermediate value. -/
abbrev Register := Nat

/-- The number of a block in its unit; blocks are numbered as they are made. -/
abbrev Label := Nat

/-- What a register is computed from. -/
inductive Computation where
  | const (value : Float)
  | load (slot : Slot) (name : String)
  | arith (op : Arithmetic) (lhs rhs : Register)
  | compare (op : Comparison) (lhs rhs : Register)
  | truth (value : Register)
  /-- The value that belongs to the block control came from. -/
  | phi (incoming : List (Register × Label))
deriving DecidableEq

/-- The ways to leave a block. -/
inductive Exit where
  | branch (condition : Register) (whenTrue whenFalse : Label)
  | jump (target : Label)
  | ret (value : Register)
deriving DecidableEq

/-- An instruction. -/
inductive Instr where
  | compute (result : Register) (computation : Computation)
  | store (slot : Slot) (name : String) (value : Register)
  | exit (exit : Exit)
deriving DecidableEq

/-- Whether control leaves the block at the instruction. -/
def Instr.isExit : Instr → Bool
  | exit _ => true
  | _ => false

/-- The blocks an exit may lead to. -/
def Exit.targets : Exit → List Label
  | branch _ t e => [t, e]
  | jump b => [b]
  | ret _ => []

/-- A named row of instructions. -/
structure Block where
  name : String
  code : List Instr
deriving Inhabited

namespace Block

/-- Whether the last instruction leaves the block. -/
def isTerminated (b : Block) : Bool :=
  b.code.getLast?.any Instr.isExit

/-- Whether some instruction leaves the block. -/
def hasExit (b : Block) : Bool :=
  b.code.any Instr.isExit

/-- The blocks that control may go to from here. -/
def successors (b : Block) : List Label :=
  b.code.flatMap fun
    | .exit e => e.targets
    | _ => []

end Block

/-- What a unit is built for. -/
inductive Target where
  | interpreter
  | native
  /-- An interpreter that accepts no unit. -/
  | refusing
deriving DecidableEq, Inhabited

/-- What can go wrong with a code unit. -/
inductive CodeFault where
  /-- An instruction for a block that has been left. -/
  | alreadyTerminated (block : String)
  /-- A second exit for a block of a native unit. -/
  | secondExit
  /-- A block that control cannot leave. -/
  | notTerminated (block : String)
  /-- A native unit that is not well formed. -/
  | malformed (unit : String)
  /-- A phi of a native unit that names a register computed after it. -/
  | phiAhead
  /-- The target accepts no unit. -/
  | refused
  /-- A phi that has no value for the block control came from. -/
  | noIncoming (source : Option String)
  | unknownRegister (register : Register)
  /-- A unit without blocks has no place to start. -/
  | noBlocks
  | outOfRange (fault : RangeFault)
  /-- The run was given up. -/
  | exhausted
deriving DecidableEq

/-- The wording of a fault. -/
def CodeFault.message : CodeFault → String
  | alreadyTerminated block => "[Backend error] Block " ++ block ++ " is already terminated"
  | secondExit => ""
  | notTerminated block => "[Backend error] Block " ++ block ++ " has no terminator"
  | malformed unit => "[Backend error] Invalid IR for " ++ unit
  | phiAhead => "'int' object has no attribute 'get_reference'"
  | refused => "[Backend error] Refusing to compile"
  | noIncoming source =>
    "[Backend error] Phi has no incoming value for block " ++ source.getD "None"
  | unknownRegister r => String.ofList (Decimal.digitsOf r)
  | noBlocks => "list index out of range"
  | outOfRange .conversion => "int too large to convert to float"
  | outOfRange .quotient => "integer division result too large for a float"
  | exhausted => ""

/-- A code unit. -/
structure CodeUnit where
  name : String
  target : Target
  /-- All blocks that were ever made. -/
  blocks : List Block
  /-- The blocks that belong to the unit, the one to start with first. -/
  listed : List Label
  /-- The block that is being written. -/
  current : Label
  /-- The number of registers given out. -/
  registers : Nat
  /-- The constants of a native unit. -/
  constants : List (Register × Float)
  /-- Whether the unit has been checked and may be run. -/
  compiled : Bool

namespace CodeUnit

/-- A unit with an empty first block. -/
def new (target : Target) (name : String) : CodeUnit where
  name
  target
  blocks := [⟨"entry", []⟩]
  listed := [0]
  current := 0
  registers := 0
  constants := []
  compiled := false

/-- The block of a given number. -/
def block (u : CodeUnit) (l : Label) : Block :=
  u.blocks[l]?.getD default

/-- The name of a block. -/
def blockName (u : CodeUnit) (l : Label) : String :=
  (u.block l).name

end CodeUnit

end Reckoner
