import Reckoner.Code.Basic

/-!
# Checking code units

A unit is checked before it is run. The interpreter asks that every block be left by its last
instruction. Native code asks more (`isWellFormed`): nothing follows an exit, and a phi names only
blocks from which control may come. Before all that, a phi may name only registers that were
computed when it was made; since registers are given out in order, those are the ones before its own
(`looksAhead`). A check that fails changes nothing; in particular a unit that was accepted before
stays so.
-/

namespace Reckoner.CodeUnit

/-- Whether control may go from the block `p` to the block `l`. -/
def leadsTo (u : CodeUnit) (p l : Label) : Bool :=
  (u.block p).successors.contains l

/-- Whether a block is left by its last instruction and by no other. -/
def endsOnce (b : Block) : Bool :=
  b.isTerminated && !b.code.dropLast.any Instr.isExit

/-- Whether each phi of a block names only blocks from which control may come. -/
def phisFit (u : CodeUnit) (l : Label) : Bool :=
  (u.block l).code.all fun
    | .compute _ (.phi incoming) => incoming.all fun i ↦ u.leadsTo i.2 l
    | _ => true

/-- Whether an instruction is a phi that names a register not given out before its own. -/
def looksAhead : Instr → Bool
  | .compute r (.phi incoming) => incoming.any fun i ↦ r ≤ i.1
  | _ => false

/-- Whether a native unit is well formed. -/
def isWellFormed (u : CodeUnit) : Bool :=
  (List.range u.blocks.length).all fun l ↦ endsOnce (u.block l) && u.phisFit l

/-- The first of the unit's blocks that control cannot leave. -/
def openBlock? (u : CodeUnit) : Option Label :=
  u.listed.find? fun l ↦ !(u.block l).isTerminated

/-- Checks the unit, so that it may be run. -/
def compile (u : CodeUnit) : Except CodeFault CodeUnit :=
  match u.target with
  | .interpreter =>
    match u.openBlock? with
    | some l => .error (.notTerminated (u.blockName l))
    | none => .ok { u with compiled := true }
  | .native =>
    if u.blocks.any fun b ↦ b.code.any looksAhead then .error .phiAhead
    else if u.isWellFormed then .ok { u with compiled := true } else .error (.malformed u.name)
  | .refusing => .error .refused

end Reckoner.CodeUnit
