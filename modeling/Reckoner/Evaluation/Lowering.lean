import Reckoner.Code.Build
import Reckoner.Evaluation.Error
import Reckoner.Variables

/-!
# Lowering expressions to code

An expression is lowered into the current block of a unit, from left to right, and yields the
register that holds its value. A conditional makes three blocks: one for each of its branches and
one where they meet again, with a phi for the value. Since a branch may itself end in another block
than it began with, the phi names the blocks in which the branches end.

Names are declared as assignments to them are met, in either branch of a conditional, and the
names declared on the way are kept so that they can be forgotten again if the lowering fails.
-/

namespace Reckoner

/-- The state of a lowering: the unit being written, the variables, and the names declared by the
lowering so far. -/
structure Lowering where
  unit : CodeUnit
  table : Variables
  declared : List String

/-- A part of a lowering. -/
abbrev Lower := EStateM EvalError Lowering

namespace Lowering

/-- Computes a value into a new register. -/
def emit (c : Computation) : Lower Register := do
  let st ← get
  match st.unit.emitValue c with
  | .ok (r, u) => set { st with unit := u }; return r
  | .error fault => throw (.code fault)

/-- Stores a register into a slot. -/
def store (slot : Slot) (name : String) (r : Register) : Lower PUnit := do
  let st ← get
  match st.unit.emitStore slot name r with
  | .ok u => set { st with unit := u }
  | .error fault => throw (.code fault)

/-- Leaves the current block. -/
def leave (e : Exit) : Lower PUnit := do
  let st ← get
  match st.unit.emitExit e with
  | .ok u => set { st with unit := u }
  | .error fault => throw (.code fault)

/-- Makes a new block. -/
def appendBlock (name : String) : Lower Label := do
  let st ← get
  let (l, u) := st.unit.appendBlock name
  set { st with unit := u }
  return l

/-- Goes on with writing at the end of a block. -/
def moveTo (l : Label) : Lower PUnit :=
  modify fun st ↦ { st with unit := st.unit.moveTo l }

/-- The block being written. -/
def currentBlock : Lower Label := do
  return (← get).unit.current

/-- The slot of a name, which is declared unless it is known. -/
def declare (name : String) : Lower Slot := do
  let st ← get
  let (slot, v) := st.table.declare name
  let declared := if st.table.contains name then st.declared else st.declared ++ [name]
  set { st with table := v, declared }
  return slot

/-- Lowers an assignment; what is not a name is refused before the value is lowered. -/
def assign (left : Expr) (value : Lower Register) : Lower Register :=
  match left with
  | .name x => do
    let r ← value
    let slot ← declare x
    store slot x r
    emit (.load slot x)
  | _ => throw .notAssignable

/-- Lowers a conditional. -/
def branch (condition whenTrue whenFalse : Lower Register) : Lower Register := do
  let selector ← emit (.truth (← condition))
  let thenBlock ← appendBlock "then"
  let elseBlock ← appendBlock "else"
  let mergeBlock ← appendBlock "merge"
  leave (.branch selector thenBlock elseBlock)
  moveTo thenBlock
  let thenValue ← whenTrue
  leave (.jump mergeBlock)
  let thenExit ← currentBlock
  moveTo elseBlock
  let elseValue ← whenFalse
  leave (.jump mergeBlock)
  let elseExit ← currentBlock
  moveTo mergeBlock
  emit (.phi [(thenValue, thenExit), (elseValue, elseExit)])

end Lowering

/-- The comparison that an operator stands for. -/
def Kind.comparison? : Kind → Option Comparison
  | less => some .lt
  | greater => some .gt
  | equal => some .eq
  | _ => none

/-- The operation of arithmetic that an operator stands for. -/
def Kind.arithmetic? : Kind → Option Arithmetic
  | plus => some .add
  | minus => some .sub
  | star => some .mul
  | slash => some .div
  | _ => none

open Lowering in
/-- Lowers an expression and yields the register of its value. -/
def Expr.lower : Expr → Lower Register
  | number x => emit (.const x)
  | name x => do
    match (← get).table.lookup x with
    | some slot => emit (.load slot x)
    | none => throw (.undeclared x)
  | unary op e =>
    match op with
    | .plus => e.lower
    | .minus => do
      let r ← e.lower
      let minusOne ← emit (.const (-1.0))
      emit (.arith .mul r minusOne)
    | op => throw (.notSign op)
  | binary op left right =>
    match op.comparison?, op.arithmetic? with
    | some c, _ => do
      let a ← left.lower
      let b ← right.lower
      emit (.compare c a b)
    | none, some o => do
      let a ← left.lower
      let b ← right.lower
      emit (.arith o a b)
    | none, none => if op = .assign then assign left right.lower else throw (.notOperator op)
  | group e => e.lower
  | conditional c t e => branch c.lower t.lower e.lower
  | foreign s => throw (.notExpression s)

/-- Lowers an expression into a unit that returns its value. -/
def Expr.lowerAll (e : Expr) : Lower PUnit := do
  Lowering.leave (.ret (← e.lower))

end Reckoner
