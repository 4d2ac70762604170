import Reckoner.Code.Basic

/-!
# Building code units

Instructions are put at the end of the current block. A unit for the interpreter takes none for a
block that has been left; a native unit refuses only a second exit. What fails leaves the unit as
it was and gives out no register.
-/

namespace Reckoner.CodeUnit

/-- The fault, if any, in putting an instruction at the end of the current block. -/
def objection? (u : CodeUnit) (i : Instr) : Option CodeFault :=
  let b := u.block u.current
  match u.target with
  | .native => if i.isExit && b.hasExit then some .secondExit else none
  | .interpreter | .refusing =>
    if b.isTerminated then some (.alreadyTerminated b.name) else none

/-- Puts an instruction at the end of the current block. -/
def emit (u : CodeUnit) (i : Instr) : Except CodeFault CodeUnit :=
  match u.objection? i with
  | some fault => .error fault
  | none =>
    .ok { u with
      blocks := u.blocks.modify u.current fun b ↦ { b with code := b.code ++ [i] } }

/-- Computes a value into a new register. -/
def emitValue (u : CodeUnit) (c : Computation) : Except CodeFault (Register × CodeUnit) :=
  match u.target, c with
  | .native, .const x =>
    .ok (u.registers,
      { u with constants := u.constants ++ [(u.registers, x)], registers := u.registers + 1 })
  | _, c => do
    let u ← u.emit (.compute u.registers c)
    return (u.registers, { u with registers := u.registers + 1 })

/-- Stores a register into a slot. -/
def emitStore (u : CodeUnit) (slot : Slot) (name : String) (value : Register) :
    Except CodeFault CodeUnit :=
  u.emit (.store slot name value)

/-- Leaves the current block. -/
def emitExit (u : CodeUnit) (e : Exit) : Except CodeFault CodeUnit :=
  u.emit (.exit e)

/-- Makes a new block. Its name ends in the number of blocks that the unit has. -/
def appendBlock (u : CodeUnit) (name : String) : Label × CodeUnit :=
  let label := u.blocks.length
  let suffix := String.ofList (Decimal.digitsOf u.listed.length)
  (label, { u with blocks := u.blocks ++ [⟨name ++ suffix, []⟩], listed := u.listed ++ [label] })

/-- Goes on with writing at the end of a block. -/
def moveTo (u : CodeUnit) (l : Label) : CodeUnit :=
  { u with current := l }

/-- Gives the unit up. An interpreted unit loses its blocks, a native one only its checked code. -/
def close (u : CodeUnit) : CodeUnit :=
  match u.target with
  | .native => { u with compiled := false }
  | .interpreter | .refusing => { u with listed := [], compiled := false }

end Reckoner.CodeUnit
