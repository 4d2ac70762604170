import Reckoner.Proofs.Generation

/-!
# Writing into a code unit

A unit is *ready* while its current block has not been left; then it takes any instruction. What
writing does to a unit is said by `CodeUnit.Grown u u' names log`: the unit `u'` has, beyond what
`u` has, the blocks of the given names and the instructions of the log. The relation composes by
concatenation (`Grown.trans`), so that the effect of a long row of writing steps is read off from
its log. It is the same relation for every target, up to the constants, which native units keep
apart from their blocks (`Target.keeps`).
-/

namespace Reckoner

/-- Whether units for the target keep an instruction in their blocks. -/
def Target.keeps : Target → Instr → Bool
  | native, .compute _ (.const _) => false
  | _, _ => true

/-- Only native code leaves out instructions. -/
theorem Target.keeps_of_ne_native {t : Target} (h : t ≠ .native) (i : Instr) :
    t.keeps i = true := by
  cases t with
  | native => exact absurd rfl h
  | _ => rfl

namespace CodeUnit

variable {u u' u'' : CodeUnit} {names names' : List String} {log log' : Log} {i : Instr}

/-- A block that the unit does not have holds nothing. -/
theorem block_of_length_le {l : Label} (h : u.blocks.length ≤ l) : (u.block l).code = [] := by
  rw [block, List.getElem?_eq_none h]
  rfl

theorem code_block_new (target : Target) (name : String) (l : Label) :
    ((new target name).block l).code = [] := by
  rcases l with - | l <;> rfl

/-! ### Growth -/

/-- The unit `u'` is the unit `u` with more blocks and more instructions. -/
structure Grown (u u' : CodeUnit) (names : List String) (log : Log) : Prop where
  name_eq : u'.name = u.name
  target_eq : u'.target = u.target
  compiled_eq : u'.compiled = u.compiled
  blockNames_eq : u'.blocks.map Block.name = u.blocks.map Block.name ++ names
  code_eq : ∀ l, (u'.block l).code = (u.block l).code ++ (log.code l).filter u.target.keeps
  constants_eq : u'.constants = u.constants ++ if u.target = .native then log.constants else []

namespace Grown

theorem refl (u : CodeUnit) : u.Grown u [] [] where
  name_eq := rfl
  target_eq := rfl
  compiled_eq := rfl
  blockNames_eq := (List.append_nil _).symm
  code_eq := fun l ↦ by simp
  constants_eq := by simp [Log.constants]

/-- Growing twice is growing by both logs, one behind the other. -/
theorem trans (h : u.Grown u' names log) (h' : u'.Grown u'' names' log') :
    u.Grown u'' (names ++ names') (log ++ log') where
  name_eq := h'.name_eq.trans h.name_eq
  target_eq := h'.target_eq.trans h.target_eq
  compiled_eq := h'.compiled_eq.trans h.compiled_eq
  blockNames_eq := by rw [h'.blockNames_eq, h.blockNames_eq, List.append_assoc]
  code_eq := fun l ↦ by
    rw [h'.code_eq, h.code_eq, h.target_eq, Log.code_append, List.filter_append,
      List.append_assoc]
  constants_eq := by
    rw [h'.constants_eq, h.constants_eq, h.target_eq, Log.constants_append, List.append_assoc]
    split
    · rfl
    · simp

/-- A unit grows by as many blocks as there are new names. -/
theorem length_blocks (h : u.Grown u' names log) :
    u'.blocks.length = u.blocks.length + names.length := by
  have := congrArg List.length h.blockNames_eq
  simpa using this

/-- A block is as it was, if nothing has been written into it. -/
theorem code_eq_of_nil (h : u.Grown u' names log) {l : Label} (hl : log.code l = []) :
    (u'.block l).code = (u.block l).code := by
  rw [h.code_eq, hl]
  exact List.append_nil _

end Grown

/-! ### Readiness -/

/-- The unit takes instructions: the current block is one of its blocks and has not been left. No
block has been given up. -/
structure Ready (u : CodeUnit) : Prop where
  current_lt : u.current < u.blocks.length
  listed_eq : u.listed = List.range u.blocks.length
  exitless : ∀ i ∈ (u.block u.current).code, i.isExit = false

/-- A new unit is ready. -/
theorem ready_new (target : Target) (name : String) : (new target name).Ready where
  current_lt := Nat.zero_lt_one
  listed_eq := rfl
  exitless := fun _ hi ↦ absurd hi List.not_mem_nil

/-- Going to an empty block makes the unit ready. -/
theorem ready_moveTo (hlisted : u.listed = List.range u.blocks.length) {l : Label}
    (hl : l < u.blocks.length) (hcode : (u.block l).code = []) : (u.moveTo l).Ready where
  current_lt := hl
  listed_eq := hlisted
  exitless := fun i hi ↦ by
    rw [show ((u.moveTo l).block (u.moveTo l).current).code = [] from hcode] at hi
    exact absurd hi List.not_mem_nil

/-- Nothing speaks against an instruction for a unit that is ready. -/
theorem Ready.objection?_eq_none (h : u.Ready) (i : Instr) : u.objection? i = none := by
  have hall : (u.block u.current).code.any Instr.isExit = false :=
    List.any_eq_false.2 fun j hj ↦ by simp [h.exitless j hj]
  have hlast : (u.block u.current).isTerminated = false := by
    rw [Block.isTerminated]
    rcases hl : (u.block u.current).code.getLast? with - | j
    · rfl
    · exact h.exitless j (List.mem_of_getLast? hl)
  rw [objection?]
  cases u.target <;> simp [Block.hasExit, hall, hlast]

/-! ### One instruction -/

/-- The unit with an instruction at the end of its current block. -/
def push (u : CodeUnit) (i : Instr) : CodeUnit :=
  { u with blocks := u.blocks.modify u.current fun b ↦ { b with code := b.code ++ [i] } }

/-- So it is written. -/
theorem Ready.emit_eq (h : u.Ready) (i : Instr) : u.emit i = .ok (u.push i) := by
  rw [emit, h.objection?_eq_none i]
  rfl

/-- An instruction goes to the end of the current block, and the others stay as they are. -/
theorem block_push (h : u.current < u.blocks.length) (i : Instr) (l : Label) :
    ((u.push i).block l).code =
      (u.block l).code ++ if u.current = l then [i] else [] := by
  simp only [block, push, List.getElem?_modify]
  by_cases hl : u.current = l
  · subst hl
    rw [List.getElem?_eq_getElem h]
    simp
  · simp [hl]

/-- Writing an instruction is an entry of the log. -/
theorem grown_push (h : u.Ready) (hi : u.target.keeps i = true) :
    u.Grown (u.push i) [] [(u.current, i)] where
  name_eq := rfl
  target_eq := rfl
  compiled_eq := rfl
  blockNames_eq := by
    rw [List.append_nil]
    refine List.ext_getElem? fun l ↦ ?_
    simp only [push, List.getElem?_map, List.getElem?_modify]
    by_cases hl : u.current = l
    · simp [hl, Function.comp_def]
    · simp [hl]
  code_eq := fun l ↦ by
    rw [block_push h.current_lt, Log.code_cons, Log.code_nil]
    split
    · rw [List.filter_cons_of_pos hi, List.filter_nil]
    · rfl
  constants_eq := by
    -- a native unit that keeps an instruction is not given a constant
    have hnil : u.target = .native → Log.constants [(u.current, i)] = [] := by
      intro hnative
      rw [hnative] at hi
      cases i with
      | compute r c =>
        cases c with
        | const x => cases hi
        | _ => rfl
      | _ => rfl
    split
    · rename_i hnative
      rw [hnil hnative, List.append_nil]
      rfl
    · exact (List.append_nil _).symm

/-- A unit stays ready until an exit is written. -/
theorem ready_push (h : u.Ready) (hi : i.isExit = false) : (u.push i).Ready where
  current_lt := by simpa [push] using h.current_lt
  listed_eq := by simpa [push] using h.listed_eq
  exitless := fun j hj ↦ by
    rw [show (u.push i).current = u.current from rfl, block_push h.current_lt, if_pos rfl] at hj
    rcases List.mem_append.1 hj with hj | hj
    · exact h.exitless j hj
    · exact List.mem_singleton.1 hj ▸ hi

/-- A value can always be computed in a ready unit. -/
theorem Ready.emitValue_eq (h : u.Ready) (c : Computation) :
    ∃ u', u.emitValue c = .ok (u.registers, u') ∧ u'.Ready ∧
      u'.registers = u.registers + 1 ∧ u'.current = u.current ∧
      u.Grown u' [] [(u.current, .compute u.registers c)] := by
  by_cases hk : u.target.keeps (.compute u.registers c) = true
  · refine ⟨{ u.push (.compute u.registers c) with registers := u.registers + 1 }, ?_, ?_, rfl, rfl,
      ?_⟩
    · have hvalue : u.emitValue c = do
          let u ← u.emit (.compute u.registers c)
          return (u.registers, { u with registers := u.registers + 1 }) := by
        rw [emitValue]
        rintro x hnative rfl
        rw [hnative] at hk
        cases hk
      rw [hvalue, h.emit_eq]
      rfl
    · have hr := ready_push h (i := .compute u.registers c) rfl
      exact ⟨hr.current_lt, hr.listed_eq, hr.exitless⟩
    · have hg := grown_push h hk
      exact ⟨hg.name_eq, hg.target_eq, hg.compiled_eq, hg.blockNames_eq, hg.code_eq,
        hg.constants_eq⟩
  · -- a constant of a native unit: nothing is written into a block
    have hnative : u.target = .native := by
      by_contra hne
      exact hk (Target.keeps_of_ne_native hne _)
    obtain ⟨x, rfl⟩ : ∃ x, c = .const x := by
      rw [hnative] at hk
      cases c with
      | const x => exact ⟨x, rfl⟩
      | _ => exact absurd rfl hk
    refine ⟨{ u with
      constants := u.constants ++ [(u.registers, x)], registers := u.registers + 1 }, ?_, ?_, rfl,
      rfl, ?_⟩
    · rw [emitValue]
      exact hnative
    · exact ⟨h.current_lt, h.listed_eq, h.exitless⟩
    · refine ⟨rfl, rfl, rfl, (List.append_nil _).symm, fun l ↦ ?_, ?_⟩
      · rw [Log.code_cons, Log.code_nil]
        split
        · rw [List.filter_cons_of_neg hk, List.filter_nil, List.append_nil]
          rfl
        · exact (List.append_nil _).symm
      · rw [if_pos hnative]
        rfl

/-! ### A new block -/

/-- Nothing is written into a new block, nor into any other one. -/
theorem block_appendBlock (u : CodeUnit) (name : String) (l : Label) :
    ((u.appendBlock name).2.block l).code = (u.block l).code := by
  simp only [block, appendBlock]
  rcases Nat.lt_or_ge l u.blocks.length with hl | hl
  · rw [List.getElem?_append_left hl]
  · rw [List.getElem?_append_right hl, List.getElem?_eq_none hl]
    rcases l - u.blocks.length with - | k <;> rfl

/-- A new block of a ready unit has the next number, and its name ends in it. -/
theorem appendBlock_eq (hlisted : u.listed = List.range u.blocks.length) (name : String) :
    u.appendBlock name = (u.blocks.length,
      { u with
        blocks := u.blocks ++ [⟨Expr.blockNames.numbered name u.blocks.length, []⟩]
        listed := List.range (u.blocks.length + 1) }) := by
  rw [appendBlock, hlisted, List.length_range, List.range_succ]
  rfl

/-- A new block adds a name and no code. -/
theorem grown_appendBlock (hlisted : u.listed = List.range u.blocks.length) (name : String) :
    u.Grown (u.appendBlock name).2 [Expr.blockNames.numbered name u.blocks.length] [] where
  name_eq := rfl
  target_eq := rfl
  compiled_eq := rfl
  blockNames_eq := by simp [appendBlock_eq hlisted]
  code_eq := fun l ↦ by
    rw [block_appendBlock, Log.code_nil, List.filter_nil, List.append_nil]
  constants_eq := by
    split
    · exact (List.append_nil _).symm
    · exact (List.append_nil _).symm

/-- Making a block leaves the current one as it is. -/
theorem ready_appendBlock (h : u.Ready) (name : String) : (u.appendBlock name).2.Ready where
  current_lt := by
    rw [appendBlock_eq h.listed_eq, List.length_append]
    exact Nat.lt_add_right 1 h.current_lt
  listed_eq := by simp [appendBlock_eq h.listed_eq]
  exitless := fun i hi ↦ h.exitless i <| by
    rw [block_appendBlock] at hi
    exact hi

theorem grown_moveTo (u : CodeUnit) (l : Label) : u.Grown (u.moveTo l) [] [] :=
  ⟨rfl, rfl, rfl, (List.append_nil _).symm, fun l ↦ (Grown.refl u).code_eq l,
    (Grown.refl u).constants_eq⟩

end CodeUnit

end Reckoner
