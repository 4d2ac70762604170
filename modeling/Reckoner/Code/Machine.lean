import Reckoner.Code.Compile

/-!
# Running code units

A run starts in the unit's first block with empty registers and walks from block to block until a
return. In the interpreter a phi is an instruction like any other: it reads its register at its
turn. In native code the phis at the head of a block take their values together, on the edge by
which control enters the block. A block without an exit is run again. Native code also has its own
instructions for doubles.

A walk is given a budget of blocks to enter; a run that takes more is given up.
-/

namespace Reckoner

/-- The contents of the registers that have been computed. -/
abbrev Registers := List (Register × Scalar)

/-- Changes the content of a register. -/
def Registers.set (rs : Registers) (r : Register) (v : Scalar) : Registers :=
  if (rs.lookup r).isSome then rs.map fun e ↦ if e.1 = r then (r, v) else e else (r, v) :: rs

/-- The state of a run. -/
structure Machine where
  registers : Registers
  storage : Storage

/-- A part of a run. What fails leaves the effects it has had. -/
abbrev Run := EStateM CodeFault Machine

/-- Where control goes. -/
inductive Flow where
  | enter (block : Label)
  | done (result : Float)

namespace Target

/-- Arithmetic in units for a target. The instructions of native code take doubles; where a truth
value is computed with, it makes no difference. -/
def apply : Target → Arithmetic → Scalar → Scalar → Except RangeFault Scalar
  | native, op, .real x, .real y => .ok (.real (op.instruction.run x y))
  | _, op, a, b => op.apply a b

/-- A comparison in units for a target: one or zero. -/
def compare : Target → Comparison → Scalar → Scalar → Float
  | native, op, .real x, .real y => if op.predicate.ordered x y then 1.0 else 0.0
  | _, op, a, b => if op.holds a b then 1.0 else 0.0

/-- The test for truth in units for a target. -/
def truth : Target → Scalar → Bool
  | native, .real x => Predicate.ge.unordered x.abs 1.0
  | _, a => a.truth

end Target

namespace Machine

/-- The content of a register. -/
def read (r : Register) : Run Scalar := do
  match (← get).registers.lookup r with
  | some v => return v
  | none => throw (.unknownRegister r)

/-- Carries a range fault over into the run. -/
def inRange {α : Type} : Except RangeFault α → Run α
  | .ok a => return a
  | .error fault => throw (.outOfRange fault)

/-- The content of a register, as a double. -/
def readFloat (r : Register) : Run Float := do
  inRange (← read r).toFloat

/-- Changes the content of a register. -/
def write (r : Register) (v : Scalar) : Run PUnit :=
  modify fun m ↦ { m with registers := m.registers.set r v }

/-- The register a phi takes, when control comes from the given block. -/
def choose (u : CodeUnit) (source : Option Label) (incoming : List (Register × Label)) :
    Run Register :=
  match incoming.find? fun i ↦ some i.2 = source with
  | some i => return i.1
  | none => throw (.noIncoming (source.map u.blockName))

/-- The value of a computation, when control has come from the given block. -/
def compute (u : CodeUnit) (source : Option Label) : Computation → Run Scalar
  | .const x => return .real x
  | .load slot _ => return .real ((← get).storage.read slot)
  | .arith op a b => do
    let x ← read a
    let y ← read b
    inRange (u.target.apply op x y)
  | .compare op a b => do
    let x ← read a
    let y ← read b
    return .real (u.target.compare op x y)
  | .truth a => return .ofBool (u.target.truth (← read a))
  | .phi incoming => do read (← choose u source incoming)

/-- Where an exit leads. -/
def leave : Exit → Run Flow
  | .branch c t e => return .enter (if (← read c).isNonzero then t else e)
  | .jump b => return .enter b
  | .ret r => return .done (← readFloat r)

/-- Runs instructions up to the first exit, if there is one. -/
def exec (u : CodeUnit) (source : Option Label) : List Instr → Run (Option Flow)
  | [] => return none
  | .compute r c :: rest => do
    write r (← compute u source c)
    exec u source rest
  | .store slot _ r :: rest => do
    let x ← readFloat r
    modify fun m ↦ { m with storage := m.storage.write slot x }
    exec u source rest
  | .exit e :: _ => return some (← leave e)

/-- The phis at the head of a block, with what is behind them. -/
def splitPhis : List Instr → List (Register × List (Register × Label)) × List Instr
  | .compute r (.phi incoming) :: rest =>
    let (phis, code) := splitPhis rest
    ((r, incoming) :: phis, code)
  | code => ([], code)

/-- The values that phis take on the edge from the given block. -/
def edgeValues (u : CodeUnit) (source : Option Label) :
    List (Register × List (Register × Label)) → Run Registers
  | [] => return []
  | (r, incoming) :: phis => do
    let v ← read (← choose u source incoming)
    return (r, v) :: (← edgeValues u source phis)

/-- Runs a block whose phis take their values on the edge from the given block. -/
def execOnEdge (u : CodeUnit) (source : Option Label) (code : List Instr) : Run (Option Flow) := do
  let (phis, code) := splitPhis code
  let values ← edgeValues u source phis
  modify fun m ↦ { m with registers := values.foldl (fun rs v ↦ rs.set v.1 v.2) m.registers }
  exec u source code

/-- Runs a block by the rules of the unit's target. -/
def execBlock (u : CodeUnit) (source : Option Label) (l : Label) : Run (Option Flow) :=
  match u.target with
  | .native => execOnEdge u source (u.block l).code
  | .interpreter | .refusing => exec u source (u.block l).code

/-- Walks from block to block, entering at most as many as the budget says. -/
def walk (u : CodeUnit) : Nat → Option Label → Label → Run Float
  | 0, _, _ => throw .exhausted
  | budget + 1, source, l => do
    match ← execBlock u source l with
    | some (.done x) => return x
    | some (.enter next) => walk u budget (some l) next
    | none => walk u budget source l

end Machine

/-- What a run leaves behind. -/
structure Ran where
  result : Except CodeFault Float
  unit : CodeUnit
  storage : Storage

namespace CodeUnit

/-- The registers at the start of a run: the constants of a native unit, and nothing else. -/
def initialRegisters (u : CodeUnit) : Registers :=
  u.constants.map fun c ↦ (c.1, .real c.2)

/-- Runs a unit that has been checked. -/
def execute (u : CodeUnit) (budget : Nat) (s : Storage) : Except CodeFault Float × Storage :=
  match u.listed with
  | [] => (.error .noBlocks, s)
  | first :: _ =>
    match (Machine.walk u budget none first).run ⟨u.initialRegisters, s⟩ with
    | .ok x m => (.ok x, m.storage)
    | .error fault m => (.error fault, m.storage)

/-- Runs a unit, after checking it unless that has been done. -/
def run (u : CodeUnit) (budget : Nat) (s : Storage) : Ran :=
  match if u.compiled then .ok u else u.compile with
  | .error fault => ⟨.error fault, u, s⟩
  | .ok u =>
    let (result, s) := u.execute budget s
    ⟨result, u, s⟩

end CodeUnit

end Reckoner
