import Reckoner.Proofs.Operations

/-!
# Writing into a unit, whatever is asked of it

Instructions for a unit may be asked for in any order, also for blocks that have been left, in
blocks that a unit that was given up no longer lists, and between checks that fail. Whatever is
asked, a block is left by its last instruction only, and registers are given out one by one: along
the time, over all blocks, they are `0`, `1`, `2` and so on (`CodeUnit.Emitted.after`).

What is written is read off from the blocks before and after an operation (`CodeUnit.added`), so
that the order in time (`CodeUnit.written`) does not rest on how the unit counts.

An operation that fails changes nothing. This is clear for an operation that yields a unit or a
fault, but the unit may as well be changed in place, step by step: first the current block is looked
at, then a register is taken, and then the instruction is put down (`Operation.act`). Since all that
can fail comes first, both are the same (`Operation.run_act`).
-/

namespace Reckoner

/-! ### Operations done in place -/

/-- Something done to a unit. What it has changed stays so, also if it fails. -/
abbrev Deed := EStateM CodeFault CodeUnit

namespace Deed

/-- Fails if the current block has been left. -/
def refuseLeft : Deed Unit := do
  let u ← get
  if (u.block u.current).isTerminated then
    throw (.alreadyTerminated (u.block u.current).name)

/-- Takes the next register. -/
def takeRegister : Deed Register :=
  modifyGet fun u ↦ (u.registers, { u with registers := u.registers + 1 })

/-- Puts an instruction at the end of the current block. -/
def write (i : Instr) : Deed Unit :=
  modify (·.push i)

/-- Fails at the first of the blocks that control cannot leave. -/
def checkAll : List Label → Deed Unit
  | [] => return
  | l :: labels => do
    let u ← get
    if (u.block l).isTerminated then checkAll labels else throw (.notTerminated (u.block l).name)

end Deed

open Deed in
/-- Does an operation on a unit of the interpreter in place. -/
def Operation.act : Operation → Deed Unit
  | value c => do
    refuseLeft
    let r ← takeRegister
    write (.compute r c)
  | store slot x r => do
    refuseLeft
    write (.store slot x r)
  | exit x => do
    refuseLeft
    write (.exit x)
  | appendBlock name => modify fun u ↦ (u.appendBlock name).2
  | moveTo l => modify (·.moveTo l)
  | compile => do
    checkAll (← get).listed
    modify fun u ↦ { u with compiled := true }
  | close => modify CodeUnit.close

namespace CodeUnit

variable {u : CodeUnit}

/-- What an operation in place comes to if it yields the given unit or fault: on a fault the unit is
as it was. -/
def settled (u : CodeUnit) : Except CodeFault CodeUnit → EStateM.Result CodeFault CodeUnit Unit
  | .ok u' => .ok ⟨⟩ u'
  | .error fault => .error fault u

/-- Outside of native code an instruction is refused just behind an exit. -/
theorem emit_of_ne_native (htarget : u.target ≠ .native) (i : Instr) :
    u.emit i = if (u.block u.current).isTerminated then
      .error (.alreadyTerminated (u.block u.current).name) else .ok (u.push i) := by
  rw [emit, objection?_of_ne_native htarget]
  cases (u.block u.current).isTerminated <;> rfl

/-- In place, the same is checked before anything is written. -/
theorem run_refuseLeft (u : CodeUnit) :
    Deed.refuseLeft.run u = if (u.block u.current).isTerminated then
      .error (.alreadyTerminated (u.block u.current).name) u else .ok ⟨⟩ u := by
  simp only [Deed.refuseLeft, EStateM.run_bind, EStateM.run_get]
  cases (u.block u.current).isTerminated <;> rfl

/-- An instruction is written in place after the look at the current block. -/
theorem run_refuseLeft_write (htarget : u.target ≠ .native) (i : Instr) :
    (do Deed.refuseLeft; Deed.write i : Deed Unit).run u = u.settled (u.emit i) := by
  rw [EStateM.run_bind, run_refuseLeft, emit_of_ne_native htarget]
  cases (u.block u.current).isTerminated <;> rfl

theorem run_checkAll (u : CodeUnit) (labels : List Label) :
    (Deed.checkAll labels).run u =
      (labels.find? fun l ↦ !(u.block l).isTerminated).elim (.ok ⟨⟩ u)
        fun l ↦ .error (.notTerminated (u.block l).name) u := by
  induction labels with
  | nil => rfl
  | cons l labels ih =>
    simp only [Deed.checkAll, EStateM.run_bind, EStateM.run_get, List.find?_cons]
    cases (u.block l).isTerminated with
    | true => exact ih
    | false => rfl

/-- The check of a unit finds the first block that is open. -/
theorem compile_of_interpreter (htarget : u.target = .interpreter) :
    u.compile = u.openBlock?.elim (.ok { u with compiled := true })
      fun l ↦ .error (.notTerminated (u.block l).name) := by
  rw [compile, htarget]
  cases u.openBlock? <;> rfl

end CodeUnit

/-- **An operation that fails in place changes nothing**, and one that does not fail does what it
yields. -/
theorem Operation.run_act {u : CodeUnit} (htarget : u.target = .interpreter) (op : Operation) :
    op.act.run u = u.settled (u.perform op) := by
  have hne : u.target ≠ .native := fun h ↦ Target.noConfusion (htarget.symm.trans h)
  cases op with
  | value c =>
    rw [act, EStateM.run_bind, CodeUnit.run_refuseLeft, CodeUnit.perform,
      CodeUnit.emitValue_of_ne_native hne, CodeUnit.emit_of_ne_native hne]
    cases (u.block u.current).isTerminated <;> rfl
  | store slot x r => exact CodeUnit.run_refuseLeft_write hne _
  | exit x => exact CodeUnit.run_refuseLeft_write hne _
  | compile =>
    rw [CodeUnit.perform, CodeUnit.compile_of_interpreter htarget]
    simp only [act, EStateM.run_bind, EStateM.run_get, CodeUnit.run_checkAll, CodeUnit.openBlock?]
    cases u.listed.find? fun l ↦ !(u.block l).isTerminated <;> rfl
  | appendBlock | moveTo | close => rfl

/-- The blocks that the operation moves to. -/
def Operation.moves : Operation → List Label
  | moveTo l => [l]
  | _ => []

/-- The instruction that is asked for computes the next register, or none. -/
theorem Operation.result?_of_instr? {op : Operation} {r : Register} {i : Instr}
    (h : op.instr? r = some i) : i.result? = none ∨ i.result? = some r := by
  cases op with
  | value =>
    cases h
    exact .inr rfl
  | store | exit =>
    cases h
    exact .inl rfl
  | _ => cases h

namespace CodeUnit

variable {u u' : CodeUnit} {op : Operation} {ops : List Operation} {i : Instr} {log : Log}

/-! ### What is written, in the order of time -/

/-- The instructions that the blocks of the second unit have behind those of the first. -/
def added (u u' : CodeUnit) : Log :=
  (List.range u'.blocks.length).flatMap fun l ↦
    ((u'.block l).code.drop (u.block l).code.length).map (l, ·)

/-- The instructions that a row of operations writes, in the order of time, with their blocks. -/
def written : CodeUnit → List Operation → Log
  | _, [] => []
  | u, op :: ops => added u (u.next op) ++ written (u.next op) ops

theorem added_eq_nil (h : ∀ l, (u'.block l).code = (u.block l).code) : added u u' = [] := by
  rw [added, List.flatMap_eq_nil_iff]
  intro l _
  rw [h, List.drop_length, List.map_nil]

/-- An instruction that is written is all that is added. -/
theorem added_put (h : u.current < u.blocks.length) (i : Instr) :
    added u (u.put i) = [(u.current, i)] := by
  have hpart (l : Label) : (((u.put i).block l).code.drop (u.block l).code.length).map (l, ·) =
      if u.current = l then [(u.current, i)] else [] := by
    rw [block_put h, List.drop_left]
    split
    · rename_i hl
      rw [hl]
      rfl
    · rfl
  simp only [added, hpart, length_put]
  exact Log.flatMap_range_ite _ h

/-! ### The invariant -/

/-- Every move of the row goes to a block that the unit has made by then, listed or not. -/
def MovesWithin : CodeUnit → List Operation → Prop
  | _, [] => True
  | u, op :: ops => (∀ l ∈ op.moves, l < u.blocks.length) ∧ MovesWithin (u.next op) ops

instance decidableMovesWithin :
    (u : CodeUnit) → (ops : List Operation) → Decidable (u.MovesWithin ops)
  | _, [] => inferInstanceAs (Decidable True)
  | u, op :: ops =>
    have := decidableMovesWithin (u.next op) ops
    inferInstanceAs (Decidable (_ ∧ _))

/-- The blocks of the unit hold what the log says, exits only at their ends, and the registers of
the log are those that have been given out, in their order. -/
structure Emitted (u : CodeUnit) (log : Log) : Prop where
  target_eq : u.target = .interpreter
  current_lt : u.current < u.blocks.length
  ended : ∀ l, Open (u.block l).code ∨ Closed (u.block l).code
  code_eq : ∀ l, (u.block l).code = log.code l
  results_eq : log.results = List.range u.registers

theorem emitted_new (name : String) : Emitted (new .interpreter name) [] where
  target_eq := rfl
  current_lt := Nat.zero_lt_one
  ended := fun l ↦ .inl (code_block_new _ _ l ▸ open_nil)
  code_eq := code_block_new _ _
  results_eq := rfl

namespace Emitted

theorem target_ne (h : Emitted u log) : u.target ≠ .native := by
  rw [h.target_eq]
  exact Target.noConfusion

/-- What writes nothing keeps the log as it is. -/
theorem of_code_eq (h : Emitted u log) (htarget : u'.target = u.target)
    (hcurrent : u'.current < u'.blocks.length) (hregisters : u'.registers = u.registers)
    (hcode : ∀ l, (u'.block l).code = (u.block l).code) : Emitted u' (log ++ added u u') := by
  rw [added_eq_nil hcode, List.append_nil]
  refine ⟨htarget.trans h.target_eq, hcurrent, fun l ↦ ?_, fun l ↦ ?_, ?_⟩
  · rw [hcode]
    exact h.ended l
  · rw [hcode, h.code_eq]
  · rw [hregisters, h.results_eq]

/-- An instruction takes the next register or none. -/
theorem put (h : Emitted u log) (hi : op.instr? u.registers = some i)
    (hopen : (u.block u.current).isTerminated = false) :
    Emitted (u.put i) (log ++ added u (u.put i)) := by
  rw [added_put h.current_lt]
  refine ⟨h.target_eq, ?_, ended_put h.current_lt h.ended hopen i, fun l ↦ ?_, ?_⟩
  · rw [length_put]
    exact h.current_lt
  · rw [block_put h.current_lt, h.code_eq, Log.code_append, Log.code_cons, Log.code_nil]
  · rw [Log.results_append, h.results_eq]
    rcases Operation.result?_of_instr? hi with hresult | hresult
    · simp [Log.results, CodeUnit.put, push, hresult]
    · simp [Log.results, CodeUnit.put, push, hresult, List.range_succ]

/-- **What an operation preserves**, whether it fails or not. -/
theorem next (h : Emitted u log) (hmoves : ∀ l ∈ op.moves, l < u.blocks.length) :
    Emitted (u.next op) (log ++ added u (u.next op)) := by
  by_cases hclose : op = .close
  · subst hclose
    have hnext : u.next .close = { u with listed := [], compiled := false } := by
      rw [CodeUnit.next, perform, close, h.target_eq]
      rfl
    rw [hnext]
    exact h.of_code_eq rfl h.current_lt rfl fun _ ↦ rfl
  · obtain ⟨i, hi, hopen, heq⟩ | ⟨name, -, heq⟩ | ⟨l, rfl, heq⟩ | ⟨-, heq⟩ | heq :=
      next_cases h.target_ne hclose <;> rw [heq]
    · exact h.put hi hopen
    · refine h.of_code_eq rfl ?_ rfl (u.block_appendBlock name)
      simp only [appendBlock, List.length_append]
      exact Nat.lt_add_right _ h.current_lt
    · exact h.of_code_eq rfl (hmoves l (List.mem_singleton_self l)) rfl fun _ ↦ rfl
    · exact h.of_code_eq rfl h.current_lt rfl fun _ ↦ rfl
    · exact h.of_code_eq rfl h.current_lt rfl fun _ ↦ rfl

/-- What a row of operations preserves. -/
theorem after (h : Emitted u log) (hmoves : u.MovesWithin ops) :
    Emitted (u.after ops) (log ++ u.written ops) := by
  induction ops generalizing u log with
  | nil =>
    rw [written, List.append_nil]
    exact h
  | cons op ops ih =>
    rw [written, ← List.append_assoc]
    exact ih (h.next hmoves.1) hmoves.2

end Emitted

/-! ### Exits and checks -/

/-- A block that has exits only at its end has at most one. -/
theorem exit_last {code : List Instr} (h : Open code ∨ Closed code) :
    code.countP Instr.isExit ≤ 1 ∧
      ∀ front i back, code = front ++ i :: back → i.isExit = true → back = [] := by
  rcases h with hopen | ⟨body, x, rfl, hbody⟩
  · have hexitless : ∀ i ∈ code, ¬i.isExit = true := fun i hi ↦ by simp [hopen i hi]
    rw [List.countP_eq_zero.2 hexitless]
    refine ⟨Nat.zero_le 1, ?_⟩
    rintro front i back rfl hi
    exact absurd hi (hexitless i (by simp))
  · have hexitless : ∀ i ∈ body, ¬i.isExit = true := fun i hi ↦ by simp [hbody i hi]
    rw [List.countP_append, List.countP_eq_zero.2 hexitless, List.countP_singleton]
    refine ⟨by simp [Instr.isExit], fun front i back hcode hi ↦ ?_⟩
    rcases List.eq_nil_or_concat back with hnil | ⟨back, j, rfl⟩
    · exact hnil
    · -- an exit with something behind it would stand before the last one
      rw [List.concat_eq_append, ← List.cons_append, ← List.append_assoc] at hcode
      obtain ⟨hsplit, -⟩ := List.append_inj' hcode rfl
      exact absurd hi (hexitless i (by simp [hsplit]))

/-- **A check fails just if some listed block is not left**, and names the first one. -/
theorem compile_eq_error_iff (htarget : u.target = .interpreter) {fault : CodeFault} :
    u.compile = .error fault ↔ ∃ front l back, u.listed = front ++ l :: back ∧
      (∀ p ∈ front, (u.block p).isTerminated = true) ∧ (u.block l).isTerminated = false ∧
      fault = .notTerminated (u.block l).name := by
  rw [compile_of_interpreter htarget]
  constructor
  · rcases hfind : u.openBlock? with - | l
    · intro h
      cases h
    · intro h
      obtain ⟨hl, front, back, hlisted, hfront⟩ := List.find?_eq_some_iff_append.1 hfind
      exact ⟨front, l, back, hlisted, by simpa using hfront, by simpa using hl,
        (Except.error.inj h).symm⟩
  · rintro ⟨front, l, back, hlisted, hfront, hl, rfl⟩
    have hfind : u.openBlock? = some l :=
      List.find?_eq_some_iff_append.2 ⟨by simp [hl], front, back, hlisted, by simpa using hfront⟩
    rw [hfind]
    rfl

/-- A unit is refused just if one of its listed blocks is open. -/
theorem exists_compile_eq_error_iff (htarget : u.target = .interpreter) :
    (∃ fault, u.compile = .error fault) ↔ ∃ l ∈ u.listed, (u.block l).isTerminated = false := by
  rw [compile_of_interpreter htarget]
  rcases hfind : u.openBlock? with - | l
  · have hall : ∀ l ∈ u.listed, (u.block l).isTerminated = true := by
      simpa using List.find?_eq_none.1 hfind
    constructor
    · rintro ⟨fault, hfault⟩
      cases hfault
    · rintro ⟨l, hl, hopen⟩
      exact absurd ((hall l hl).symm.trans hopen) (by decide)
  · have hopen : (u.block l).isTerminated = false := by simpa using List.find?_some hfind
    exact ⟨fun _ ↦ ⟨l, List.mem_of_find?_eq_some hfind, hopen⟩, fun _ ↦ ⟨_, rfl⟩⟩

/-- An operation that fails in place leaves the unit as it was. -/
theorem eq_of_act_eq_error (htarget : u.target = .interpreter) {fault : CodeFault}
    (hrun : op.act.run u = .error fault u') : u' = u ∧ u.next op = u := by
  rw [Operation.run_act htarget] at hrun
  rcases hperform : u.perform op with why | v
  · rw [hperform] at hrun
    cases hrun
    refine ⟨rfl, ?_⟩
    rw [next, hperform]
    rfl
  · rw [hperform] at hrun
    cases hrun

/-- **Whatever is asked of a unit of the interpreter**, fulfilled or not, and also after it has been
given up, as long as it only moves to blocks of its own: no block has more than one exit, nor one
that is not its last instruction. The blocks hold what has been written into them, in the order of
time, and the registers computed by it are `0`, `1`, `2` and so on. An operation that fails leaves
the unit as it was, even if it is done in place. Checking fails just if some listed block has not
been left, and names the first one. -/
theorem emission_invariant (name : String) (ops : List Operation)
    (hmoves : (new .interpreter name).MovesWithin ops) :
    let u := (new .interpreter name).after ops
    let log := (new .interpreter name).written ops
    (∀ b ∈ u.blocks, b.code.countP Instr.isExit ≤ 1 ∧
      ∀ front i back, b.code = front ++ i :: back → i.isExit = true → back = []) ∧
    (∀ l, (u.block l).code = log.code l) ∧ log.results = List.range u.registers ∧
    (∀ op, op.act.run u = u.settled (u.perform op)) ∧
    (∀ op fault u', op.act.run u = .error fault u' → u' = u ∧ u.next op = u) ∧
    ((∃ fault, u.compile = .error fault) ↔ ∃ l ∈ u.listed, (u.block l).isTerminated = false) ∧
    ∀ fault, u.compile = .error fault ↔ ∃ front l back, u.listed = front ++ l :: back ∧
      (∀ p ∈ front, (u.block p).isTerminated = true) ∧ (u.block l).isTerminated = false ∧
      fault = .notTerminated (u.block l).name := by
  intro u log
  have h : Emitted u log := (emitted_new name).after hmoves
  refine ⟨fun b hb ↦ ?_, h.code_eq, h.results_eq, Operation.run_act h.target_eq,
    fun op fault u' ↦ eq_of_act_eq_error h.target_eq, exists_compile_eq_error_iff h.target_eq,
    fun fault ↦ compile_eq_error_iff h.target_eq⟩
  obtain ⟨l, hl⟩ := List.mem_iff_getElem?.1 hb
  have hblock : u.block l = b := by
    rw [block, hl]
    rfl
  exact exit_last (hblock ▸ h.ended l)

/-- Writes into a block that has been left, gives the unit up, goes back to that block, and begins
another one, which is not left. -/
def reopening : List Operation :=
  [.value (.const 1.0), .exit (.ret 0), .value (.const 2.0), .compile, .close, .store 0 "x" 0,
    .appendBlock "then", .moveTo 1, .value (.truth 0), .compile, .moveTo 0, .exit (.jump 1),
    .moveTo 1, .value (.phi [(0, 0)])]

theorem emission_invariant_reopening :
    (new .interpreter "calc_0").MovesWithin reopening ∧
      ((new .interpreter "calc_0").written reopening).results = [0, 1, 2] ∧
      ((new .interpreter "calc_0").after reopening).compile = .error (.notTerminated "then0") ∧
      ((new .interpreter "calc_0").after (reopening ++ [.moveTo 0])).next (.exit (.jump 1)) =
        (new .interpreter "calc_0").after (reopening ++ [.moveTo 0]) := by
  have hmoves : (new .interpreter "calc_0").MovesWithin reopening := by decide
  have hmoves' : (new .interpreter "calc_0").MovesWithin (reopening ++ [.moveTo 0]) := by decide
  obtain ⟨-, -, hresults, -, -, -, hcompile⟩ := emission_invariant "calc_0" reopening hmoves
  obtain ⟨-, -, -, -, hfails, -, -⟩ := emission_invariant "calc_0" _ hmoves'
  exact ⟨hmoves, hresults, (hcompile _).2 ⟨[], 1, [], rfl, by simp, rfl, rfl⟩,
    (hfails _ _ _ rfl).2⟩

end CodeUnit

end Reckoner
