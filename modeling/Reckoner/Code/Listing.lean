import Reckoner.Code.Basic

/-!
# Listings

The text of a code unit: a line for each block's name and, below it, one for each instruction.
-/

namespace Reckoner

/-- A register in a listing. -/
def registerText (r : Register) : String :=
  "%" ++ String.ofList (Decimal.digitsOf r)

namespace CodeUnit

/-- A computation in a listing. -/
def computationText (u : CodeUnit) : Computation → String
  | .const x => "const " ++ Decimal.text x
  | .load _ name => "load @" ++ name
  | .arith op a b => op.mnemonic ++ " " ++ registerText a ++ ", " ++ registerText b
  | .compare op a b => op.mnemonic ++ " " ++ registerText a ++ ", " ++ registerText b
  | .truth a => "truth " ++ registerText a
  | .phi incoming =>
    "phi " ++ ", ".intercalate
      (incoming.map fun i ↦ "[" ++ registerText i.1 ++ ", " ++ u.blockName i.2 ++ "]")

/-- An exit in a listing. -/
def exitText (u : CodeUnit) : Exit → String
  | .branch c t e =>
    "branch " ++ registerText c ++ ", " ++ u.blockName t ++ ", " ++ u.blockName e
  | .jump b => "jump " ++ u.blockName b
  | .ret r => "ret " ++ registerText r

/-- An instruction in a listing. -/
def instrText (u : CodeUnit) : Instr → String
  | .compute r c => registerText r ++ " = " ++ u.computationText c
  | .store _ name r => "store @" ++ name ++ ", " ++ registerText r
  | .exit e => u.exitText e

/-- The lines of a block. -/
def blockLines (u : CodeUnit) (l : Label) : List String :=
  let b := u.block l
  (b.name ++ ":") :: b.code.map fun i ↦ "  " ++ u.instrText i

/-- The text of the unit. -/
def listing (u : CodeUnit) : String :=
  "\n".intercalate
    (("define double @" ++ u.name ++ "() \x7b") :: u.listed.flatMap u.blockLines ++ ["\x7d"])

end CodeUnit

end Reckoner
