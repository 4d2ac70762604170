import Reckoner.Proofs.Emission
import Reckoner.Proofs.Flow

/-!
# Rows of operations on a code unit

A unit may be asked for a value, a store, an exit, a new block, another current block, the check
that lets it run, or to be given up, in any order. An operation that fails leaves the unit as it was
(`CodeUnit.next`). What one operation can do to a unit that is not native is said once
(`next_cases`): it writes an instruction into a current block that has not been left, makes a block,
moves to one, marks the unit as checked, or does nothing.

A unit that is only asked for its own blocks and is not given up stays *orderly*: it lists all of
its blocks, an exit is only ever the last instruction of a block, and no exit leads out of the unit
(`Orderly.after`).
-/

namespace Reckoner

/-- What can be asked of a unit. -/
inductive Operation where
  | value (c : Computation)
  | store (slot : Slot) (name : String) (value : Register)
  | exit (x : Exit)
  | appendBlock (name : String)
  | moveTo (l : Label)
  | compile
  | close
deriving DecidableEq

namespace Operation

/-- The instruction that is asked for, when `r` is the next register to be given out. -/
def instr? (r : Register) : Operation → Option Instr
  | value c => some (.compute r c)
  | store slot x v => some (.store slot x v)
  | exit x => some (.exit x)
  | _ => none

/-- The blocks that the operation leads or moves to. -/
def targets : Operation → List Label
  | exit x => x.targets
  | moveTo l => [l]
  | _ => []

/-- An instruction leads only where its operation does. -/
theorem targets_subset_of_instr? {op : Operation} {r : Register} {i : Instr}
    (h : op.instr? r = some i) : i.targets ⊆ op.targets := by
  cases op with
  | exit x =>
    cases h
    exact fun _ hq ↦ hq
  | value | store =>
    cases h
    exact List.nil_subset _
  | _ => cases h

end Operation

namespace CodeUnit

variable {u u' : CodeUnit} {op : Operation} {ops : List Operation} {i : Instr} {l p q : Label}

/-- Does what is asked of the unit. -/
def perform (u : CodeUnit) : Operation → Except CodeFault CodeUnit
  | .value c => Prod.snd <$> u.emitValue c
  | .store slot x r => u.emitStore slot x r
  | .exit x => u.emitExit x
  | .appendBlock name => .ok (u.appendBlock name).2
  | .moveTo l => .ok (u.moveTo l)
  | .compile => u.compile
  | .close => .ok u.close

/-- The unit after an operation. One that fails leaves it as it was. -/
def next (u : CodeUnit) (op : Operation) : CodeUnit :=
  (u.perform op).toOption.getD u

/-- The unit after a row of operations, of which some may fail. -/
def after (u : CodeUnit) (ops : List Operation) : CodeUnit :=
  ops.foldl next u

/-- Every operation of the row leads or moves only to blocks that the unit has by then. -/
def Owns : CodeUnit → List Operation → Prop
  | _, [] => True
  | u, op :: ops => (∀ l ∈ op.targets, l < u.blocks.length) ∧ Owns (u.next op) ops

instance decidableOwns : (u : CodeUnit) → (ops : List Operation) → Decidable (u.Owns ops)
  | _, [] => inferInstanceAs (Decidable True)
  | u, op :: ops =>
    have := decidableOwns (u.next op) ops
    inferInstanceAs (Decidable (_ ∧ _))

/-- Does a row of operations, up to the first that fails. -/
def build (u : CodeUnit) (ops : List Operation) : Except CodeFault CodeUnit :=
  ops.foldlM perform u

theorem next_of_perform (h : u.perform op = .ok u') : u.next op = u' := by
  rw [next, h]
  rfl

/-! ### One operation -/

/-- The unit with an instruction written into its current block. A computation takes a register. -/
def put (u : CodeUnit) (i : Instr) : CodeUnit :=
  { u.push i with registers := u.registers + i.result?.toList.length }

/-- Outside of native code only a second exit is objected to. -/
theorem objection?_of_ne_native (htarget : u.target ≠ .native) (i : Instr) :
    u.objection? i = if (u.block u.current).isTerminated then
      some (.alreadyTerminated (u.block u.current).name) else none := by
  rw [objection?]
  split
  · exact absurd ‹_› htarget
  all_goals rfl

/-- Unless a unit is native, an instruction is taken exactly if the current block has not been
left. -/
theorem emit_eq_ok_iff (htarget : u.target ≠ .native) :
    u.emit i = .ok u' ↔ (u.block u.current).isTerminated = false ∧ u' = u.push i := by
  rw [emit, objection?_of_ne_native htarget]
  cases (u.block u.current).isTerminated <;> simp [push, eq_comm]

/-- A value takes the next register, constant or not. -/
theorem emitValue_of_ne_native (htarget : u.target ≠ .native) (c : Computation) :
    u.emitValue c = do
      let u ← u.emit (.compute u.registers c)
      return (u.registers, { u with registers := u.registers + 1 }) := by
  rw [emitValue]
  rintro x hnative -
  exact htarget hnative

/-- An instruction that is asked for is taken only into a current block that has not been left. -/
theorem perform_of_instr? (htarget : u.target ≠ .native) (hi : op.instr? u.registers = some i)
    (h : u.perform op = .ok u') : (u.block u.current).isTerminated = false ∧ u' = u.put i := by
  cases op with
  | value c =>
    cases hi
    rw [perform, emitValue_of_ne_native htarget] at h
    rcases hemit : u.emit (.compute u.registers c) with fault | v
    · rw [hemit] at h
      cases h
    · rw [hemit] at h
      cases h
      obtain ⟨hopen, rfl⟩ := (emit_eq_ok_iff htarget).1 hemit
      exact ⟨hopen, rfl⟩
  | store | exit =>
    cases hi
    exact (emit_eq_ok_iff htarget).1 h
  | _ => cases hi

/-- All that an operation can do to a unit that is not native, giving it up apart. -/
theorem next_cases (htarget : u.target ≠ .native) (hclose : op ≠ .close) :
    (∃ i, op.instr? u.registers = some i ∧ (u.block u.current).isTerminated = false ∧
      u.next op = u.put i) ∨
    (∃ name, op = .appendBlock name ∧ u.next op = (u.appendBlock name).2) ∨
    (∃ l, op = .moveTo l ∧ u.next op = u.moveTo l) ∨
    (op = .compile ∧ u.next op = { u with compiled := true }) ∨
    u.next op = u := by
  rcases hi : op.instr? u.registers with - | i
  · cases op with
    | value | store | exit => cases hi
    | appendBlock name => exact .inr (.inl ⟨name, rfl, rfl⟩)
    | moveTo l => exact .inr (.inr (.inl ⟨l, rfl, rfl⟩))
    | compile =>
      refine .inr (.inr (.inr ?_))
      rw [next, perform]
      rcases hcompile : u.compile with fault | u'
      · exact .inr rfl
      · exact .inl ⟨rfl, eq_of_compile_eq_ok hcompile⟩
    | close => exact absurd rfl hclose
  · rcases hperform : u.perform op with fault | u'
    · refine .inr (.inr (.inr (.inr ?_)))
      rw [next, hperform]
      rfl
    · obtain ⟨hopen, rfl⟩ := perform_of_instr? htarget hi hperform
      exact .inl ⟨i, rfl, hopen, next_of_perform hperform⟩

/-- Operations do not change the target. -/
theorem target_next (htarget : u.target ≠ .native) (hclose : op ≠ .close) :
    (u.next op).target = u.target := by
  obtain ⟨i, -, -, h⟩ | ⟨name, -, h⟩ | ⟨l, -, h⟩ | ⟨-, h⟩ | h := next_cases htarget hclose <;>
    rw [h] <;> rfl

/-! ### Blocks that are left at their end -/

/-- A block that takes instructions has no exit. -/
theorem open_of_ended {b : Block} (h : Open b.code ∨ Closed b.code)
    (hopen : b.isTerminated = false) : Open b.code := by
  refine h.resolve_right fun hclosed ↦ ?_
  rw [hclosed.isTerminated] at hopen
  cases hopen

/-- An instruction goes to the end of the current block only. -/
theorem block_put (h : u.current < u.blocks.length) (i : Instr) (l : Label) :
    ((u.put i).block l).code = (u.block l).code ++ if u.current = l then [i] else [] :=
  block_push h i l

theorem length_put (u : CodeUnit) (i : Instr) : (u.put i).blocks.length = u.blocks.length := by
  simp [put, push]

/-- An instruction for a block that has not been left keeps exits last. -/
theorem ended_put (h : u.current < u.blocks.length)
    (hended : ∀ l, Open (u.block l).code ∨ Closed (u.block l).code)
    (hopen : (u.block u.current).isTerminated = false) (i : Instr) (l : Label) :
    Open ((u.put i).block l).code ∨ Closed ((u.put i).block l).code := by
  rw [block_put h]
  by_cases hl : u.current = l
  · subst hl
    have hcode := open_of_ended (hended u.current) hopen
    rw [if_pos rfl]
    cases i with
    | exit x => exact .inr (hcode.closed x)
    | _ => exact .inl (hcode.append (by simp [Open, Instr.isExit]))
  · rw [if_neg hl, List.append_nil]
    exact hended l

/-! ### Orderly units -/

/-- The unit lists all of its blocks and writes into one of them, an exit is only ever the last
instruction of a block, and no exit leads out of the unit. -/
structure Orderly (u : CodeUnit) : Prop where
  current_lt : u.current < u.blocks.length
  listed_eq : u.listed = List.range u.blocks.length
  ended : ∀ l, Open (u.block l).code ∨ Closed (u.block l).code
  target_lt : ∀ p q, u.Edge p q → q < u.blocks.length

theorem orderly_new (target : Target) (name : String) : (new target name).Orderly := by
  refine ⟨Nat.zero_lt_one, rfl, fun l ↦ .inl ?_, fun p q h ↦ ?_⟩
  · rw [code_block_new]
    exact open_nil
  · obtain ⟨x, hx, -⟩ := edge_iff.1 h
    rw [code_block_new] at hx
    cases hx

namespace Orderly

theorem length_pos (h : u.Orderly) : 0 < u.blocks.length :=
  Nat.zero_lt_of_lt h.current_lt

/-- Runs start in the first block. -/
theorem head?_listed (h : u.Orderly) : u.listed.head? = some 0 := by
  rw [h.listed_eq, List.head?_range, if_neg h.length_pos.ne']

/-- An orderly unit takes any instruction into a block that has not been left. -/
theorem ready (h : u.Orderly) (hopen : (u.block u.current).isTerminated = false) : u.Ready where
  current_lt := h.current_lt
  listed_eq := h.listed_eq
  exitless := open_of_ended (h.ended u.current) hopen

/-- A block that is left by its last instruction is left by no other. -/
theorem closed (h : u.Orderly) (hl : (u.block l).isTerminated = true) :
    Closed (u.block l).code := by
  refine (h.ended l).resolve_left fun hcode ↦ ?_
  obtain ⟨i, hi, hexit⟩ := (Option.any_eq_true _ _).1 hl
  rw [hcode i (List.mem_of_getLast? hi)] at hexit
  cases hexit

/-- Writing into an open block keeps the unit in order. -/
theorem put (h : u.Orderly) (hopen : (u.block u.current).isTerminated = false)
    (hi : ∀ q ∈ i.targets, q < u.blocks.length) : (u.put i).Orderly := by
  have hlength := u.length_put i
  refine ⟨hlength ▸ h.current_lt, ?_, ended_put h.current_lt h.ended hopen i, fun p q hedge ↦ ?_⟩
  · rw [hlength]
    exact h.listed_eq
  · obtain ⟨x, hx, hq⟩ := edge_iff.1 hedge
    rw [hlength]
    rw [block_put h.current_lt, List.mem_append] at hx
    rcases hx with hx | hx
    · exact h.target_lt p q (edge_iff.2 ⟨x, hx, hq⟩)
    · split at hx
      · cases List.mem_singleton.1 hx
        exact hi q hq
      · cases hx

/-- So does a new block. -/
theorem appendBlock (h : u.Orderly) (name : String) : (u.appendBlock name).2.Orderly := by
  have hcode := u.block_appendBlock name
  have hlength : (u.appendBlock name).2.blocks.length = u.blocks.length + 1 := by
    simp [CodeUnit.appendBlock]
  refine ⟨?_, ?_, fun l ↦ ?_, fun p q hedge ↦ ?_⟩
  · rw [hlength]
    exact Nat.lt_succ_of_lt h.current_lt
  · rw [hlength, appendBlock_eq h.listed_eq]
  · rw [hcode]
    exact h.ended l
  · obtain ⟨x, hx, hq⟩ := edge_iff.1 hedge
    rw [hcode] at hx
    rw [hlength]
    exact Nat.lt_succ_of_lt (h.target_lt p q (edge_iff.2 ⟨x, hx, hq⟩))

/-- What an operation preserves: a unit that is asked for its own blocks stays orderly. -/
theorem next (h : u.Orderly) (htarget : u.target ≠ .native) (hclose : op ≠ .close)
    (howned : ∀ l ∈ op.targets, l < u.blocks.length) : (u.next op).Orderly := by
  obtain ⟨i, hi, hopen, heq⟩ | ⟨name, -, heq⟩ | ⟨l, rfl, heq⟩ | ⟨-, heq⟩ | heq :=
    next_cases htarget hclose <;> rw [heq]
  · exact h.put hopen fun q hq ↦ howned q (Operation.targets_subset_of_instr? hi hq)
  · exact h.appendBlock name
  · exact ⟨howned l (List.mem_singleton_self l), h.listed_eq, h.ended, h.target_lt⟩
  · exact ⟨h.current_lt, h.listed_eq, h.ended, h.target_lt⟩
  · exact h

/-- What a row of operations preserves. -/
theorem after (h : u.Orderly) (htarget : u.target ≠ .native) (hclose : .close ∉ ops)
    (howned : u.Owns ops) : (u.after ops).Orderly ∧ (u.after ops).target = u.target := by
  induction ops generalizing u with
  | nil => exact ⟨h, rfl⟩
  | cons op ops ih =>
    obtain ⟨hop, hops⟩ := howned
    have hne : op ≠ .close := fun heq ↦ hclose (heq ▸ List.mem_cons_self)
    have htarget' := target_next htarget hne
    have hrest := ih (h.next htarget hne hop) (htarget' ▸ htarget)
      (fun hmem ↦ hclose (List.mem_cons_of_mem op hmem)) hops
    exact ⟨hrest.1, hrest.2.trans htarget'⟩

end Orderly

end CodeUnit

end Reckoner
