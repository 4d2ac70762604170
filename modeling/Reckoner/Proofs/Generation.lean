import Reckoner.Evaluation.Lowering
import Reckoner.Proofs.Meaning
import Mathlib.Data.List.Basic

/-!
# The code of an expression

Lowering writes instructions one after the other, each into the block that is current at that time.
A `Log` is the row of instructions in the order in which they are written, each with its block; the
code of a block is the part of the log that goes into it (`Log.code`).

The log of an accepted tree is a plain function of the tree, `Expr.code`, once it is known where the
variables are and which register, which block and which number for new blocks come next. It is put
together by concatenation alone. New registers and blocks are numbered on from the given ones, so
that the code of a tree stays within its own region: it writes only into the block it starts in and
into blocks of its own (`Scoped.mem_region`).
-/

namespace Reckoner

/-- Instructions in the order in which they are written, each with the block it goes into. -/
abbrev Log := List (Label × Instr)

namespace Log

/-- The instructions that go into a block. -/
def code (log : Log) (l : Label) : List Instr :=
  log.filterMap fun i ↦ if i.1 = l then some i.2 else none

@[simp]
theorem code_nil (l : Label) : code [] l = [] :=
  rfl

/-- A block gets what either part of the log says, in order. -/
@[simp]
theorem code_append (log log' : Log) (l : Label) :
    code (log ++ log') l = code log l ++ code log' l :=
  List.filterMap_append

/-- An entry at the front of the log comes first in its own block, and in no other. -/
@[simp]
theorem code_cons (l' : Label) (i : Instr) (log : Log) (l : Label) :
    code ((l', i) :: log) l = if l' = l then i :: code log l else code log l := by
  simp only [code, List.filterMap_cons]
  by_cases h : l' = l <;> simp [h]

/-- A block that no instruction goes into has no code. -/
theorem code_eq_nil {log : Log} {l : Label} (h : ∀ i ∈ log, i.1 ≠ l) : code log l = [] := by
  rw [code, List.filterMap_eq_nil_iff]
  intro i hi
  rw [if_neg (h i hi)]

/-- The entries of the log for a block are its code. -/
theorem mem_code {log : Log} {l : Label} {i : Instr} : i ∈ code log l ↔ (l, i) ∈ log := by
  simp only [code, List.mem_filterMap, Option.ite_none_right_eq_some, Option.some.injEq]
  constructor
  · rintro ⟨⟨l', i'⟩, hmem, rfl, rfl⟩
    exact hmem
  · exact fun h ↦ ⟨(l, i), h, rfl, rfl⟩

/-- The constants that are written, with their registers. -/
def constants (log : Log) : List (Register × Float) :=
  log.filterMap fun i ↦
    match i.2 with
    | .compute r (.const x) => some (r, x)
    | _ => none

@[simp]
theorem constants_append (log log' : Log) :
    constants (log ++ log') = constants log ++ constants log' :=
  List.filterMap_append

end Log

/-- The register that an instruction computes. -/
def Instr.result? : Instr → Option Register
  | compute r _ => some r
  | _ => none

/-- What a binary operator is computed by. -/
def Kind.computation : Kind → Register → Register → Computation
  | less, a, b => .compare .lt a b
  | greater, a, b => .compare .gt a b
  | equal, a, b => .compare .eq a b
  | plus, a, b => .arith .add a b
  | minus, a, b => .arith .sub a b
  | star, a, b => .arith .mul a b
  | _, a, b => .arith .div a b

namespace Expr

/-! ### The extent of the code -/

/-- The number of registers that the code of a tree computes. -/
def registerCount : Expr → Nat
  | number _ | name _ => 1
  | unary op e => if op = .minus then e.registerCount + 2 else e.registerCount
  | binary op a b =>
    if op.meaning?.isSome then a.registerCount + b.registerCount + 1 else b.registerCount + 1
  | group e => e.registerCount
  | conditional c t e => c.registerCount + t.registerCount + e.registerCount + 2
  | foreign _ => 0

/-- The number of blocks that the code of a tree makes. -/
def blockCount : Expr → Nat
  | number _ | name _ | foreign _ => 0
  | unary _ e | group e => e.blockCount
  | binary op a b => if op.meaning?.isSome then a.blockCount + b.blockCount else b.blockCount
  | conditional c t e => c.blockCount + t.blockCount + e.blockCount + 3

/-- The block in which the code of a tree ends that starts in the block `l`, when new blocks are
numbered from `n` on. -/
def endBlock : Expr → Label → Label → Label
  | number _, l, _ | name _, l, _ | foreign _, l, _ => l
  | unary _ e, l, n | group e, l, n => e.endBlock l n
  | binary op a b, l, n =>
    if op.meaning?.isSome then b.endBlock (a.endBlock l n) (n + a.blockCount) else b.endBlock l n
  | conditional c _ _, _, n => n + c.blockCount + 2

/-- The names of the blocks that the code of a tree makes, numbered from `n` on. -/
def blockNames : Expr → Label → List String
  | number _, _ | name _, _ | foreign _, _ => []
  | unary _ e, n | group e, n => e.blockNames n
  | binary op a b, n =>
    if op.meaning?.isSome then a.blockNames n ++ b.blockNames (n + a.blockCount)
    else b.blockNames n
  | conditional c t e, n =>
    let m := n + c.blockCount
    c.blockNames n ++ [numbered "then" m, numbered "else" (m + 1), numbered "merge" (m + 2)] ++
      t.blockNames (m + 3) ++ e.blockNames (m + 3 + t.blockCount)
where
  /-- A name with a number behind it. -/
  numbered (name : String) (n : Nat) : String :=
    name ++ String.ofList (Decimal.digitsOf n)

/-- The register of a tree's value, when its registers are numbered from `r` on: the last one. -/
def result (e : Expr) (r : Register) : Register :=
  r + e.registerCount - 1

/-! ### The code -/

/-- The code of a tree, when variables are kept in the given slots, registers are numbered from `r`
on, writing starts in the block `l`, and new blocks are numbered from `n` on. -/
def code (slots : String → Slot) : Expr → Register → Label → Label → Log
  | number x, r, l, _ => [(l, .compute r (.const x))]
  | name x, r, l, _ => [(l, .compute r (.load (slots x) x))]
  | unary op e, r, l, n =>
    let body := e.code slots r l n
    if op = .minus then
      let l' := e.endBlock l n
      let r' := r + e.registerCount
      body ++ [(l', .compute r' (.const (-1.0))),
        (l', .compute (r' + 1) (.arith .mul (e.result r) r'))]
    else body
  | binary op a b, r, l, n =>
    if op.meaning?.isSome then
      let l' := a.endBlock l n
      let n' := n + a.blockCount
      let r' := r + a.registerCount
      a.code slots r l n ++ b.code slots r' l' n' ++
        [(b.endBlock l' n',
          .compute (r' + b.registerCount) (op.computation (a.result r) (b.result r')))]
    else
      match a.asName? with
      | some x =>
        let l' := b.endBlock l n
        b.code slots r l n ++ [(l', .store (slots x) x (b.result r)),
          (l', .compute (r + b.registerCount) (.load (slots x) x))]
      | none => []
  | group e, r, l, n => e.code slots r l n
  | conditional c t e, r, l, n =>
    let l' := c.endBlock l n
    let m := n + c.blockCount
    let selector := r + c.registerCount
    let rt := selector + 1
    let re := rt + t.registerCount
    let lt := t.endBlock m (m + 3)
    let le := e.endBlock (m + 1) (m + 3 + t.blockCount)
    c.code slots r l n ++
      [(l', .compute selector (.truth (c.result r))), (l', .exit (.branch selector m (m + 1)))] ++
      t.code slots rt m (m + 3) ++ [(lt, .exit (.jump (m + 2)))] ++
      e.code slots re (m + 1) (m + 3 + t.blockCount) ++ [(le, .exit (.jump (m + 2)))] ++
      [(m + 2, .compute (re + e.registerCount) (.phi [(t.result rt, lt), (e.result re, le)]))]
  | foreign _, _, _, _ => []

/-! ### Supported operators -/

section Operator

variable {op : Kind} {f : Float → Float → Float} (h : op.meaning? = some f) (a b : Expr)

include h

/-- An operator takes one register besides those of its operands. -/
theorem registerCount_operator :
    (binary op a b).registerCount = a.registerCount + b.registerCount + 1 := by
  simp [registerCount, h]

/-- Its value is in the last of them. -/
theorem result_operator (r : Register) :
    (binary op a b).result r = r + a.registerCount + b.registerCount := by
  rw [result, registerCount_operator h, ← Nat.add_assoc, ← Nat.add_assoc, Nat.add_sub_cancel]

theorem blockCount_operator : (binary op a b).blockCount = a.blockCount + b.blockCount := by
  simp [blockCount, h]

/-- The code of an operator ends where that of its right operand does. -/
theorem endBlock_operator (l n : Label) :
    (binary op a b).endBlock l n = b.endBlock (a.endBlock l n) (n + a.blockCount) := by
  simp [endBlock, h]

/-- The blocks of the left operand come first. -/
theorem blockNames_operator (n : Label) :
    (binary op a b).blockNames n = a.blockNames n ++ b.blockNames (n + a.blockCount) := by
  simp [blockNames, h]

/-- The code of an operator: that of the left operand, of the right one, and the computation. -/
theorem code_operator (slots : String → Slot) (r : Register) (l n : Label) :
    (binary op a b).code slots r l n =
      a.code slots r l n ++
        b.code slots (r + a.registerCount) (a.endBlock l n) (n + a.blockCount) ++
        [((binary op a b).endBlock l n, .compute (r + a.registerCount + b.registerCount)
          (op.computation (a.result r) (b.result (r + a.registerCount))))] := by
  simp [code, endBlock, h]

end Operator

/-! ### Conditionals -/

theorem result_conditional (c t e : Expr) (r : Nat) :
    (conditional c t e).result r =
      r + c.registerCount + 1 + t.registerCount + e.registerCount := by
  show r + (c.registerCount + t.registerCount + e.registerCount + 2) - 1 = (_ : Nat)
  omega

/-- The code of a condition: its value, the test of the value, and the branch. -/
def testCode (slots : String → Slot) (c : Expr) (r : Register) (l n : Label) : Log :=
  c.code slots r l n ++
    [(c.endBlock l n, .compute (r + c.registerCount) (.truth (c.result r))),
      (c.endBlock l n,
        .exit (.branch (r + c.registerCount) (n + c.blockCount) (n + c.blockCount + 1)))]

/-- The code of an arm, which is left for the block `m`. -/
def armCode (slots : String → Slot) (e : Expr) (r : Register) (l n m : Label) : Log :=
  e.code slots r l n ++ [(e.endBlock l n, .exit (.jump m))]

/-- The code of a conditional: the test, both arms, and the phi that joins them. -/
theorem code_conditional (slots : String → Slot) (c t e : Expr) (r : Register) (l n m : Label)
    (hm : n + c.blockCount = m) :
    (conditional c t e).code slots r l n =
      c.testCode slots r l n ++
        t.armCode slots (r + c.registerCount + 1) m (m + 3) (m + 2) ++
        e.armCode slots (r + c.registerCount + 1 + t.registerCount) (m + 1) (m + 3 + t.blockCount)
          (m + 2) ++
        [(m + 2, .compute ((conditional c t e).result r)
          (.phi [(t.result (r + c.registerCount + 1), t.endBlock m (m + 3)),
            (e.result (r + c.registerCount + 1 + t.registerCount),
              e.endBlock (m + 1) (m + 3 + t.blockCount))]))] := by
  subst hm
  rw [result_conditional]
  simp only [code, testCode, armCode, List.append_assoc]

/-- The code of a unit that returns the value of a tree. -/
def program (slots : String → Slot) (e : Expr) : Log :=
  e.code slots 0 0 1 ++ [(e.endBlock 0 1, .exit (.ret (e.result 0)))]

/-! ### Extent and region -/

variable {e : Expr} {names names' : List String}

/-- There is a name for each of the blocks. -/
@[simp]
theorem length_blockNames (e : Expr) (n : Label) : (e.blockNames n).length = e.blockCount := by
  induction e generalizing n with
  | number | name | foreign => rfl
  | unary _ e ih | group e ih => exact ih n
  | binary op a b iha ihb =>
    rw [blockNames, blockCount]
    split
    · rw [List.length_append, iha, ihb]
    · exact ihb n
  | conditional c t e ihc iht ihe =>
    simp only [blockNames, blockCount, List.length_append, ihc, iht, ihe, List.length_cons,
      List.length_nil]
    omega

/-- The value of an accepted tree has a register. -/
theorem Scoped.registerCount_pos (h : e.Scoped names names') : 0 < e.registerCount := by
  induction h with
  | number | name => exact Nat.zero_lt_one
  | plus _ ih | group _ ih => exact ih
  | minus _ ih => exact Nat.succ_pos _
  | operator hop =>
    rw [registerCount_operator hop]
    exact Nat.succ_pos _
  | assign => exact Nat.succ_pos _
  | conditional => exact Nat.succ_pos _

/-- The result of an accepted tree is in one of its registers. -/
theorem Scoped.result_lt (h : e.Scoped names names') (r : Register) :
    e.result r < r + e.registerCount :=
  Nat.sub_one_lt_of_lt (Nat.lt_add_of_pos_right h.registerCount_pos)

theorem Scoped.le_result (h : e.Scoped names names') (r : Register) : r ≤ e.result r :=
  Nat.le_sub_one_of_lt (Nat.lt_add_of_pos_right h.registerCount_pos)

/-- The blocks that a piece of code writes into: the one it starts in, and `k` new ones from `n`
on. -/
def InRegion (l n k q : Nat) : Prop :=
  q = l ∨ n ≤ q ∧ q < n + k

/-- One of `k` new blocks from `n` on. -/
def IsNew (n k q : Nat) : Prop :=
  n ≤ q ∧ q < n + k

/-- The code ends where it began, or in one of the blocks that it makes. -/
theorem Scoped.endBlock_inRegion (h : e.Scoped names names') (l n : Label) :
    InRegion l n e.blockCount (e.endBlock l n) := by
  induction h generalizing l n with
  | number | name => exact .inl rfl
  | plus _ ih | minus _ ih | group _ ih => exact ih l n
  | @operator _ _ _ op f a b hop _ _ iha ihb =>
    have ha := iha l n
    have hb := ihb (a.endBlock l n) (n + a.blockCount)
    rw [endBlock_operator hop, blockCount_operator hop]
    simp only [InRegion] at *
    omega
  | assign x _ ih => exact ih l n
  | conditional _ _ _ _ _ _ =>
    simp only [InRegion, endBlock, blockCount]
    omega

/-- The code of a tree writes only into its region. -/
theorem Scoped.mem_region (h : e.Scoped names names') (slots : String → Slot) (r : Register)
    (l n : Label) : ∀ i ∈ e.code slots r l n, InRegion l n e.blockCount i.1 := by
  induction h generalizing r l n with
  | number | name =>
    intro i hi
    obtain rfl := List.mem_singleton.1 hi
    exact .inl rfl
  | plus _ ih | group _ ih => exact ih r l n
  | @minus _ _ e he ih =>
    intro i hi
    rcases List.mem_append.1 hi with hi | hi
    · exact ih r l n i hi
    · have hend := he.endBlock_inRegion l n
      simp only [List.mem_cons, List.not_mem_nil, or_false] at hi
      rcases hi with rfl | rfl <;> exact hend
  | @operator _ _ _ op f a b hop ha hb iha ihb =>
    have hla := ha.endBlock_inRegion l n
    intro i hi
    rw [code_operator hop, List.mem_append, List.mem_append, List.mem_singleton] at hi
    rcases hi with (hi | hi) | rfl
    · have := iha r l n i hi
      simp only [InRegion, blockCount_operator hop] at *
      omega
    · have := ihb _ _ _ i hi
      simp only [InRegion, blockCount_operator hop] at *
      omega
    · exact (Scoped.operator hop ha hb).endBlock_inRegion l n
  | @assign _ _ e x he ih =>
    intro i hi
    rcases List.mem_append.1 hi with hi | hi
    · exact ih r l n i hi
    · have hend := he.endBlock_inRegion l n
      simp only [List.mem_cons, List.not_mem_nil, or_false] at hi
      rcases hi with rfl | rfl <;> exact hend
  | @conditional _ _ _ _ c t e hc ht he ihc iht ihe =>
    have hlc := hc.endBlock_inRegion l n
    have hlt := ht.endBlock_inRegion (n + c.blockCount) (n + c.blockCount + 3)
    have hle := he.endBlock_inRegion (n + c.blockCount + 1) (n + c.blockCount + 3 + t.blockCount)
    intro i hi
    simp only [code, List.mem_append, List.mem_cons, List.not_mem_nil, or_false] at hi
    simp only [InRegion, blockCount] at *
    rcases hi with (((((hi | rfl | rfl) | hi) | rfl) | hi) | rfl) | rfl
    · have := ihc r l n i hi
      omega
    · omega
    · omega
    · have := iht _ _ _ i hi
      omega
    · omega
    · have := ihe _ _ _ i hi
      omega
    · omega
    · omega

/-- A block outside the region gets no code. -/
theorem Scoped.code_eq_nil (h : e.Scoped names names') (slots : String → Slot) (r : Register)
    {l n q : Label} (hq : ¬InRegion l n e.blockCount q) : (e.code slots r l n).code q = [] :=
  Log.code_eq_nil fun i hi heq ↦ hq (heq ▸ h.mem_region slots r l n i hi)

/-- A test writes only into the region of its condition. -/
theorem Scoped.testCode_eq_nil (h : e.Scoped names names') (slots : String → Slot) (r : Register)
    {l n q : Label} (hq : ¬InRegion l n e.blockCount q) : (e.testCode slots r l n).code q = [] := by
  have hend : e.endBlock l n ≠ q := fun heq ↦ hq (heq ▸ h.endBlock_inRegion l n)
  simp [testCode, h.code_eq_nil slots r hq, hend]

/-- An arm writes only into its region. -/
theorem Scoped.armCode_eq_nil (h : e.Scoped names names') (slots : String → Slot) (r : Register)
    {l n m q : Label} (hq : ¬InRegion l n e.blockCount q) :
    (e.armCode slots r l n m).code q = [] := by
  have hend : e.endBlock l n ≠ q := fun heq ↦ hq (heq ▸ h.endBlock_inRegion l n)
  simp [armCode, h.code_eq_nil slots r hq, hend]

end Expr

end Reckoner
