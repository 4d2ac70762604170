import Reckoner.Proofs.Emission
import Reckoner.Proofs.Table

/-!
# Lowering writes the code

Lowering succeeds exactly on the trees that the static pass accepts, with the names that the pass
gives, and then it has written exactly the code of the tree (`Scoped.lowers`). On every other tree
it stops with the fault of the pass (`stops_of_scope_error`). Nothing else can go wrong: writing
itself never fails, since an instruction is only ever written into a block that has not been left.

Either way, what has happened to the table is that new names were put at its end, and the names kept
for taking back are just these (`Lowering.Declares`).
-/

namespace Reckoner

/-- Slots for names that agree with a table on the names it knows. -/
def Variables.Resolves (v : Variables) (slots : String → Slot) : Prop :=
  ∀ x slot, v.lookup x = some slot → slots x = slot

/-- The slots that a table gives to names. -/
def Variables.slotOf (v : Variables) (x : String) : Slot :=
  (v.lookup x).getD 0

theorem Variables.resolves_slotOf (v : Variables) : v.Resolves v.slotOf := by
  intro x slot h
  rw [slotOf, h]
  rfl

namespace Lowering

/-! ### Names declared on the way -/

/-- Between two states of a lowering some new names have been declared, each of them once, and they
are the ones that were noted down. -/
def Declares (st st' : Lowering) : Prop :=
  ∃ fresh : List String, st'.table = st.table.extend fresh ∧
    st'.declared = st.declared ++ fresh ∧ fresh.Nodup ∧ ∀ x ∈ fresh, x ∉ st.table.names

theorem Declares.of_eq {st st' : Lowering} (htable : st'.table = st.table)
    (hdeclared : st'.declared = st.declared) : Declares st st' :=
  ⟨[], by simp [htable], by simp [hdeclared], List.nodup_nil, by simp⟩

/-- Names that are declared one after the other are all new, and no two are the same. -/
theorem Declares.trans {st st' st'' : Lowering} (h : Declares st st') (h' : Declares st' st'') :
    Declares st st'' := by
  obtain ⟨fresh, htable, hdeclared, hnodup, hfresh⟩ := h
  obtain ⟨fresh', htable', hdeclared', hnodup', hfresh'⟩ := h'
  have hnew : ∀ x ∈ fresh', x ∉ st.table.names ∧ x ∉ fresh := by
    intro x hx
    have := hfresh' x hx
    rw [htable, Variables.names_extend, List.mem_append, not_or] at this
    exact this
  refine ⟨fresh ++ fresh', ?_, ?_, ?_, ?_⟩
  · rw [htable', htable, Variables.extend_append]
  · rw [hdeclared', hdeclared, List.append_assoc]
  · exact List.nodup_append.2 ⟨hnodup, hnodup', fun x hx y hy hxy ↦ (hnew y hy).2 (hxy ▸ hx)⟩
  · intro x hx
    rcases List.mem_append.1 hx with hx | hx
    · exact hfresh x hx
    · exact (hnew x hx).1

/-- What was found in the table is found where it was. -/
theorem Declares.lookup {st st' : Lowering} (h : Declares st st') {x : String} {slot : Slot}
    (hx : st.table.lookup x = some slot) : st'.table.lookup x = some slot := by
  obtain ⟨fresh, htable, -⟩ := h
  rw [htable]
  exact Variables.lookup_extend hx

/-- Slots that agree with a later table agree with an earlier one. -/
theorem Declares.resolves {st st' : Lowering} (h : Declares st st') {slots : String → Slot}
    (hslots : st'.table.Resolves slots) : st.table.Resolves slots :=
  fun x slot hx ↦ hslots x slot (h.lookup hx)

/-! ### The steps of a lowering -/

/-- What a part of a lowering has done that has come from the state `st` to the state `st'`: the
names declared then, how many registers it took, and what it wrote, given the slots of the
variables. -/
structure Advanced (st st' : Lowering) (names' : List String) (count : Nat) (blocks : List String)
    (log : (String → Slot) → Log) : Prop where
  names_eq : st'.table.names = names'
  declares : Declares st st'
  listed_eq : st'.unit.listed = List.range st'.unit.blocks.length
  registers_eq : st'.unit.registers = st.unit.registers + count
  grown : ∀ slots, st'.table.Resolves slots → st.unit.Grown st'.unit blocks (log slots)

namespace Advanced

variable {st st' st'' : Lowering} {names' names'' : List String} {k k' : Nat}
  {blocks blocks' : List String} {log log' : (String → Slot) → Log}

/-- Advancing twice is advancing by both logs, one behind the other. -/
theorem trans (h : Advanced st st' names' k blocks log)
    (h' : Advanced st' st'' names'' k' blocks' log') :
    Advanced st st'' names'' (k + k') (blocks ++ blocks') fun slots ↦ log slots ++ log' slots where
  names_eq := h'.names_eq
  declares := h.declares.trans h'.declares
  listed_eq := h'.listed_eq
  registers_eq := by rw [h'.registers_eq, h.registers_eq, Nat.add_assoc]
  grown := fun slots hslots ↦
    (h.grown slots (h'.declares.resolves hslots)).trans (h'.grown slots hslots)

/-- The same part of a lowering, described otherwise. -/
theorem congr (h : Advanced st st' names' k blocks log) (hk : k = k') (hblocks : blocks = blocks')
    (hlog : ∀ slots, st'.table.Resolves slots → log slots = log' slots) :
    Advanced st st' names' k' blocks' log' where
  names_eq := h.names_eq
  declares := h.declares
  listed_eq := h.listed_eq
  registers_eq := hk ▸ h.registers_eq
  grown := fun slots hslots ↦ hblocks ▸ hlog slots hslots ▸ h.grown slots hslots

/-- The unit has as many more blocks as were named. -/
theorem length_blocks (h : Advanced st st' names' k blocks log) :
    st'.unit.blocks.length = st.unit.blocks.length + blocks.length :=
  (h.grown _ st'.table.resolves_slotOf).length_blocks

/-- A block that nothing is written into is as it was. -/
theorem code_eq (h : Advanced st st' names' k blocks log) {l : Label}
    (hl : ∀ slots, (log slots).code l = []) : (st'.unit.block l).code = (st.unit.block l).code :=
  (h.grown _ st'.table.resolves_slotOf).code_eq_of_nil (hl _)

end Advanced

/-- A computation is written into the current block, with the next register for its value. -/
theorem run_emit (st : Lowering) (h : st.unit.Ready) (c : Computation) :
    ∃ st', (emit c).run st = .ok st.unit.registers st' ∧ st'.unit.Ready ∧
      st'.unit.current = st.unit.current ∧ st'.table = st.table ∧
      Advanced st st' st.table.names 1 []
        fun _ ↦ [(st.unit.current, .compute st.unit.registers c)] := by
  obtain ⟨u', hemit, hready, hreg, hcur, hgrown⟩ := h.emitValue_eq c
  refine ⟨{ st with unit := u' }, ?_, hready, hcur, rfl, rfl, .of_eq rfl rfl, hready.listed_eq,
    hreg, fun _ _ ↦ hgrown⟩
  simp only [emit, EStateM.run_bind, EStateM.run_get, hemit, EStateM.run_set, EStateM.run_pure]

/-- Putting down an instruction that every target keeps. -/
theorem advanced_push (st : Lowering) (h : st.unit.Ready) {i : Instr}
    (hi : st.unit.target.keeps i = true) :
    Advanced st { st with unit := st.unit.push i } st.table.names 0 []
      fun _ ↦ [(st.unit.current, i)] where
  names_eq := rfl
  declares := .of_eq rfl rfl
  listed_eq := by
    rw [(CodeUnit.grown_push h hi).length_blocks]
    exact h.listed_eq
  registers_eq := rfl
  grown := fun _ _ ↦ CodeUnit.grown_push h hi

/-- A store takes no register. -/
theorem run_store (st : Lowering) (h : st.unit.Ready) (slot : Slot) (x : String) (r : Register) :
    ∃ st', (store slot x r).run st = .ok ⟨⟩ st' ∧ st'.unit.Ready ∧
      st'.unit.current = st.unit.current ∧ st'.unit.registers = st.unit.registers ∧
      st'.table = st.table ∧
      Advanced st st' st.table.names 0 [] fun _ ↦ [(st.unit.current, .store slot x r)] := by
  refine ⟨{ st with unit := st.unit.push (.store slot x r) }, ?_, CodeUnit.ready_push h rfl, rfl,
    rfl, rfl, advanced_push st h (by cases st.unit.target <;> rfl)⟩
  simp only [store, CodeUnit.emitStore, EStateM.run_bind, EStateM.run_get, h.emit_eq,
    EStateM.run_set]

/-- An exit is the last that is written into the block. -/
theorem run_leave (st : Lowering) (h : st.unit.Ready) (e : Exit) :
    ∃ st', (leave e).run st = .ok ⟨⟩ st' ∧ st'.unit.current = st.unit.current ∧
      Advanced st st' st.table.names 0 [] fun _ ↦ [(st.unit.current, .exit e)] := by
  refine ⟨{ st with unit := st.unit.push (.exit e) }, ?_, rfl,
    advanced_push st h (by cases st.unit.target <;> rfl)⟩
  simp only [leave, CodeUnit.emitExit, EStateM.run_bind, EStateM.run_get, h.emit_eq,
    EStateM.run_set]

/-- A new block is numbered behind all others. -/
theorem run_appendBlock (st : Lowering) (h : st.unit.Ready) (name : String) :
    ∃ st', (appendBlock name).run st = .ok st.unit.blocks.length st' ∧ st'.unit.Ready ∧
      st'.unit.current = st.unit.current ∧
      Advanced st st' st.table.names 0 [Expr.blockNames.numbered name st.unit.blocks.length]
        fun _ ↦ [] :=
  ⟨{ st with unit := (st.unit.appendBlock name).2 }, rfl, CodeUnit.ready_appendBlock h name, rfl,
    rfl, .of_eq rfl rfl, (CodeUnit.ready_appendBlock h name).listed_eq, rfl,
    fun _ _ ↦ CodeUnit.grown_appendBlock h.listed_eq name⟩

/-- Going to an empty block makes the unit ready. -/
theorem run_moveTo (st : Lowering) (hlisted : st.unit.listed = List.range st.unit.blocks.length)
    {l : Label} (hl : l < st.unit.blocks.length) (hempty : (st.unit.block l).code = []) :
    ∃ st', (moveTo l).run st = .ok ⟨⟩ st' ∧ st'.unit.Ready ∧ st'.unit.current = l ∧
      Advanced st st' st.table.names 0 [] fun _ ↦ [] :=
  ⟨{ st with unit := st.unit.moveTo l }, rfl, CodeUnit.ready_moveTo hlisted hl hempty, rfl, rfl,
    .of_eq rfl rfl, hlisted, rfl, fun _ _ ↦ CodeUnit.grown_moveTo st.unit l⟩

theorem run_currentBlock (st : Lowering) : currentBlock.run st = .ok st.unit.current st :=
  rfl

/-- Declaring a name adds it to the table unless it is there, and notes it down just then. -/
theorem run_declare (st : Lowering) (h : st.unit.Ready) (x : String) :
    ∃ slot st', (declare x).run st = .ok slot st' ∧ st'.unit = st.unit ∧
      st'.table.lookup x = some slot ∧
      Advanced st st' (addName st.table.names x) 0 [] fun _ ↦ [] := by
  by_cases hx : x ∈ st.table.names
  · obtain ⟨slot, hslot⟩ := Variables.exists_lookup hx
    have hcontains : st.table.contains x = true := Variables.contains_iff_mem_names.2 hx
    refine ⟨slot, st, ?_, rfl, hslot, by simp [addName, hx], .of_eq rfl rfl, h.listed_eq, rfl,
      fun _ _ ↦ .refl _⟩
    simp only [declare, EStateM.run_bind, EStateM.run_get, Variables.declare_of_mem hslot,
      hcontains, if_true, EStateM.run_set, EStateM.run_pure]
  · have hcontains : ¬st.table.contains x = true :=
      fun h ↦ hx (Variables.contains_iff_mem_names.1 h)
    refine ⟨st.table.storage.length, ⟨st.unit, st.table.extend [x], st.declared ++ [x]⟩, ?_, rfl,
      Variables.lookup_extend_singleton hx, by simp [addName, hx],
      ⟨[x], rfl, rfl, List.nodup_singleton x, by simpa using hx⟩, h.listed_eq, rfl,
      fun _ _ ↦ .refl _⟩
    simp only [declare, EStateM.run_bind, EStateM.run_get, Variables.declare_of_notMem hx,
      hcontains, EStateM.run_set, EStateM.run_pure]
    rfl

end Lowering

namespace Expr

open Lowering

/-! ### Accepted trees -/

/-- What lowering a tree has done that has come from the state `st` to the state `st'`. -/
structure Lowered (e : Expr) (names' : List String) (st st' : Lowering) : Prop extends
    Advanced st st' names' e.registerCount (e.blockNames st.unit.blocks.length) fun slots ↦
      e.code slots st.unit.registers st.unit.current st.unit.blocks.length where
  ready : st'.unit.Ready
  current_eq : st'.unit.current = e.endBlock st.unit.current st.unit.blocks.length

/-- Lowering a tree succeeds wherever just the given names are declared, and writes its code. -/
def Lowers (e : Expr) (names names' : List String) : Prop :=
  ∀ st : Lowering, st.table.names = names → st.unit.Ready →
    ∃ st', e.lower.run st = .ok (e.result st.unit.registers) st' ∧ e.Lowered names' st st'

variable {e a b c t : Expr} {names names₁ names₂ names₃ : List String}

/-- Lowering makes the blocks that were counted. -/
theorem Lowered.length_blocks {names' : List String} {st st' : Lowering}
    (h : e.Lowered names' st st') :
    st'.unit.blocks.length = st.unit.blocks.length + e.blockCount := by
  rw [h.toAdvanced.length_blocks, length_blockNames]

theorem lowers_number (x : Float) : (number x).Lowers names names := by
  rintro st rfl hready
  obtain ⟨st', hrun, hready', hcur, -, hadv⟩ := run_emit st hready (.const x)
  exact ⟨st', hrun, hadv, hready', hcur⟩

theorem lowers_name {x : String} (hx : x ∈ names) : (name x).Lowers names names := by
  rintro st rfl hready
  obtain ⟨slot, hslot⟩ := Variables.exists_lookup hx
  obtain ⟨st', hrun, hready', hcur, htable, hadv⟩ := run_emit st hready (.load slot x)
  refine ⟨st', ?_, hadv.congr rfl rfl fun slots hslots ↦ ?_, hready', hcur⟩
  · simp only [lower, EStateM.run_bind, EStateM.run_get, hslot]
    exact hrun
  · rw [code, hslots x slot (htable ▸ hslot)]

/-- The sign is a multiplication by minus one, which takes two more registers. -/
theorem Lowers.minus (h : e.Lowers names names₁) : (unary .minus e).Lowers names names₁ := by
  intro st hnames hready
  obtain ⟨st₁, hrun₁, he⟩ := h st hnames hready
  obtain ⟨st₂, hrun₂, hready₂, hcur₂, htable₂, hadv₂⟩ := run_emit st₁ he.ready (.const (-1.0))
  obtain ⟨st₃, hrun₃, hready₃, hcur₃, -, hadv₃⟩ := run_emit st₂ hready₂
    (.arith .mul (e.result st.unit.registers) st₁.unit.registers)
  rw [he.names_eq] at hadv₂
  rw [htable₂, he.names_eq] at hadv₃
  have hreg₁ := he.registers_eq
  have hreg₂ : st₂.unit.registers = st.unit.registers + e.registerCount + 1 := by
    rw [hadv₂.registers_eq, hreg₁]
  refine ⟨st₃, ?_, ((he.toAdvanced.trans hadv₂).trans hadv₃).congr rfl ?_ fun slots _ ↦ ?_, hready₃,
    ?_⟩
  · refine (run_bind_ok hrun₁ _).trans ((run_bind_ok hrun₂ _).trans (hrun₃.trans ?_))
    rw [hreg₂]
    rfl
  · simp [blockNames]
  · rw [hcur₂, hreg₂, he.current_eq, hreg₁, List.append_assoc]
    rfl
  · rw [hcur₃, hcur₂, he.current_eq]
    rfl

/-- A supported operator is lowered after both of its operands. -/
theorem lower_operator {op : Kind} {f : Float → Float → Float} (h : op.meaning? = some f)
    (a b : Expr) :
    (binary op a b).lower = (do
      let x ← a.lower
      let y ← b.lower
      emit (op.computation x y)) := by
  cases op with
  | plus | minus | star | slash | less | greater | equal => rfl
  | _ => cases h

/-- The right operand is lowered behind the left one, with the names that this has declared. -/
theorem Lowers.operator {op : Kind} {f : Float → Float → Float} (hop : op.meaning? = some f)
    (ha : a.Lowers names names₁) (hb : b.Lowers names₁ names₂) :
    (binary op a b).Lowers names names₂ := by
  intro st hnames hready
  obtain ⟨st₁, hrun₁, ha⟩ := ha st hnames hready
  obtain ⟨st₂, hrun₂, hb⟩ := hb st₁ ha.names_eq ha.ready
  obtain ⟨st₃, hrun₃, hready₃, hcur₃, -, hadv₃⟩ := run_emit st₂ hb.ready
    (op.computation (a.result st.unit.registers) (b.result st₁.unit.registers))
  rw [hb.names_eq] at hadv₃
  have hreg₂ : st₂.unit.registers =
      st.unit.registers + a.registerCount + b.registerCount := by
    rw [hb.registers_eq, ha.registers_eq]
  have hcur₂ : st₂.unit.current =
      (binary op a b).endBlock st.unit.current st.unit.blocks.length := by
    rw [hb.current_eq, ha.current_eq, ha.length_blocks, endBlock_operator hop]
  refine ⟨st₃, ?_, ((ha.toAdvanced.trans hb.toAdvanced).trans hadv₃).congr ?_ ?_ fun slots _ ↦ ?_,
    hready₃, hcur₃.trans hcur₂⟩
  · rw [lower_operator hop, run_bind_ok hrun₁, run_bind_ok hrun₂, hrun₃, result_operator hop, hreg₂]
  · rw [registerCount_operator hop]
  · rw [List.append_nil, blockNames_operator hop, ha.length_blocks]
  · rw [code_operator hop, hcur₂, hreg₂, ha.registers_eq, ha.current_eq, ha.length_blocks]

/-- The name is declared behind the value, so that the value cannot use it. -/
theorem Lowers.assign (x : String) (h : e.Lowers names names₁) :
    (binary .assign (name x) e).Lowers names (addName names₁ x) := by
  intro st hnames hready
  obtain ⟨st₁, hrun₁, he⟩ := h st hnames hready
  obtain ⟨slot, st₂, hrun₂, hunit₂, hslot₂, hadv₂⟩ := run_declare st₁ he.ready x
  obtain ⟨st₃, hrun₃, hready₃, hcur₃, hreg₃, htable₃, hadv₃⟩ :=
    run_store st₂ (hunit₂ ▸ he.ready) slot x (e.result st.unit.registers)
  obtain ⟨st₄, hrun₄, hready₄, hcur₄, htable₄, hadv₄⟩ := run_emit st₃ hready₃ (.load slot x)
  rw [he.names_eq] at hadv₂
  rw [hadv₂.names_eq] at hadv₃
  rw [hadv₃.names_eq] at hadv₄
  rw [hunit₂] at hcur₃ hreg₃ hadv₃
  refine ⟨st₄, ?_, (((he.toAdvanced.trans hadv₂).trans hadv₃).trans hadv₄).congr rfl ?_
    fun slots hslots ↦ ?_, hready₄, ?_⟩
  · refine (run_bind_ok hrun₁ _).trans ((run_bind_ok hrun₂ _).trans ((run_bind_ok hrun₃ _).trans
      (hrun₄.trans ?_)))
    rw [hreg₃, he.registers_eq]
    rfl
  · simp [blockNames]
  · have hx : slots x = slot := hslots x slot (by rw [htable₄, htable₃, hslot₂])
    rw [hcur₃, hreg₃, he.registers_eq, he.current_eq, List.append_nil, List.append_assoc, ← hx]
    rfl
  · rw [hcur₄, hcur₃, he.current_eq]
    rfl

/-! ### Conditionals

A conditional is lowered in parts, each of them stated here with the rest of the lowering behind it:
the condition with its branch to two of three new blocks, and then each arm, which is written into
an empty block and left by a jump. -/

/-- Writing an arm of a conditional into an empty block `l`, and leaving it for the block `m`. -/
theorem run_arm (st : Lowering) (hlisted : st.unit.listed = List.range st.unit.blocks.length)
    {l : Label} (hl : l < st.unit.blocks.length) (hempty : (st.unit.block l).code = [])
    (hnames : st.table.names = names) (h : e.Lowers names names₁) (m : Label) :
    ∃ st', (∀ rest : Register → Label → Lower Register, (do
        moveTo l
        let value ← e.lower
        leave (.jump m)
        let exit ← currentBlock
        rest value exit).run st =
      (rest (e.result st.unit.registers) (e.endBlock l st.unit.blocks.length)).run st') ∧
      Advanced st st' names₁ e.registerCount (e.blockNames st.unit.blocks.length) fun slots ↦
        e.armCode slots st.unit.registers l st.unit.blocks.length m := by
  obtain ⟨st₁, hrun₁, hready₁, hcur₁, hadv₁⟩ := run_moveTo st hlisted hl hempty
  obtain ⟨st₂, hrun₂, he⟩ := h st₁ (hadv₁.names_eq.trans hnames) hready₁
  obtain ⟨st₃, hrun₃, hcur₃, hadv₃⟩ := run_leave st₂ he.ready (.jump m)
  have hlen₁ : st₁.unit.blocks.length = st.unit.blocks.length := hadv₁.length_blocks
  have hreg₁ : st₁.unit.registers = st.unit.registers := hadv₁.registers_eq
  have hcur₂ : st₂.unit.current = e.endBlock l st.unit.blocks.length := by
    rw [he.current_eq, hcur₁, hlen₁]
  rw [he.names_eq] at hadv₃
  refine ⟨st₃, fun rest ↦ ?_, ((hadv₁.trans he.toAdvanced).trans hadv₃).congr ?_ ?_
    fun slots _ ↦ ?_⟩
  · rw [run_bind_ok hrun₁, run_bind_ok hrun₂, run_bind_ok hrun₃, run_bind_ok (run_currentBlock st₃),
      hcur₃, hcur₂, hreg₁]
  · exact Nat.zero_add _
  · rw [List.nil_append, List.append_nil, hlen₁]
  · rw [hcur₂, hreg₁, hcur₁, hlen₁]
    rfl

/-- Lowering a condition makes three new blocks and branches to the first two of them. -/
theorem Lowers.run_condition (h : c.Lowers names names₁) (st : Lowering)
    (hnames : st.table.names = names) (hready : st.unit.Ready) {m : Label}
    (hm : st.unit.blocks.length + c.blockCount = m) :
    ∃ st', (∀ rest : Label → Label → Label → Lower Register, (do
        let selector ← emit (.truth (← c.lower))
        let thenBlock ← appendBlock "then"
        let elseBlock ← appendBlock "else"
        let mergeBlock ← appendBlock "merge"
        leave (.branch selector thenBlock elseBlock)
        rest thenBlock elseBlock mergeBlock).run st = (rest m (m + 1) (m + 2)).run st') ∧
      Advanced st st' names₁ (c.registerCount + 1)
        (c.blockNames st.unit.blocks.length ++ [blockNames.numbered "then" m,
          blockNames.numbered "else" (m + 1), blockNames.numbered "merge" (m + 2)])
        (fun slots ↦ c.testCode slots st.unit.registers st.unit.current st.unit.blocks.length) ∧
      ∀ k : Nat, (st'.unit.block (m + k)).code = [] := by
  obtain ⟨st₁, hrun₁, hc⟩ := h st hnames hready
  have hlen₁ : st₁.unit.blocks.length = m := hc.length_blocks.trans hm
  obtain ⟨st₂, hrun₂, hready₂, hcur₂, -, hadv₂⟩ :=
    run_emit st₁ hc.ready (.truth (c.result st.unit.registers))
  obtain ⟨st₃, hrun₃, hready₃, hcur₃, hadv₃⟩ := run_appendBlock st₂ hready₂ "then"
  obtain ⟨st₄, hrun₄, hready₄, hcur₄, hadv₄⟩ := run_appendBlock st₃ hready₃ "else"
  obtain ⟨st₅, hrun₅, hready₅, hcur₅, hadv₅⟩ := run_appendBlock st₄ hready₄ "merge"
  have hlen₂ : st₂.unit.blocks.length = m := hadv₂.length_blocks.trans hlen₁
  have hlen₃ : st₃.unit.blocks.length = m + 1 := by rw [hadv₃.length_blocks, hlen₂]; rfl
  have hlen₄ : st₄.unit.blocks.length = m + 2 := by rw [hadv₄.length_blocks, hlen₃]; rfl
  rw [hlen₂] at hrun₃ hadv₃
  rw [hlen₃] at hrun₄ hadv₄
  rw [hlen₄] at hrun₅ hadv₅
  obtain ⟨st₆, hrun₆, -, hadv₆⟩ :=
    run_leave st₅ hready₅ (.branch st₁.unit.registers m (m + 1))
  have hcur : st₅.unit.current = c.endBlock st.unit.current st.unit.blocks.length := by
    rw [hcur₅, hcur₄, hcur₃, hcur₂, hc.current_eq]
  rw [hadv₅.names_eq, hadv₄.names_eq, hadv₃.names_eq, hadv₂.names_eq, hc.names_eq] at hadv₆
  -- from the new blocks on, what has been written is the test and the branch
  have hadv := ((((hadv₂.trans hadv₃).trans hadv₄).trans hadv₅).trans hadv₆)
  refine ⟨st₆, fun rest ↦ ?_, (hc.toAdvanced.trans hadv).congr rfl ?_ fun slots _ ↦ ?_,
    fun k ↦ ?_⟩
  · rw [run_bind_ok hrun₁, run_bind_ok hrun₂, run_bind_ok hrun₃, run_bind_ok hrun₄,
      run_bind_ok hrun₅, run_bind_ok hrun₆]
  · simp
  · simp only [testCode, hcur, hc.current_eq, hc.registers_eq, hm, List.append_nil]
    rfl
  · have hlt : c.endBlock st.unit.current st.unit.blocks.length < m + k := by
      rw [← hc.current_eq]
      exact Nat.lt_of_lt_of_le (hlen₁ ▸ hc.ready.current_lt) (Nat.le_add_right m k)
    rw [hadv.code_eq fun slots ↦ ?_,
      CodeUnit.block_of_length_le (hlen₁ ▸ Nat.le_add_right m k)]
    simp only [hcur, hc.current_eq, List.append_nil, List.singleton_append, Log.code_cons,
      Log.code_nil, if_neg (Nat.ne_of_lt hlt)]

/-- A conditional up to its second arm. The blocks for that arm and for the end are still empty. -/
theorem Lowers.run_whenTrue (hc : c.Lowers names names₁) (ht : t.Lowers names₁ names₂)
    (hst : t.Scoped names₁ names₂) (st : Lowering) (hnames : st.table.names = names)
    (hready : st.unit.Ready) {m : Nat} (hm : st.unit.blocks.length + c.blockCount = m) :
    ∃ st', (∀ rest : Label → Label → Register → Label → Lower Register, (do
        let selector ← emit (.truth (← c.lower))
        let thenBlock ← appendBlock "then"
        let elseBlock ← appendBlock "else"
        let mergeBlock ← appendBlock "merge"
        leave (.branch selector thenBlock elseBlock)
        moveTo thenBlock
        let thenValue ← t.lower
        leave (.jump mergeBlock)
        let thenExit ← currentBlock
        rest elseBlock mergeBlock thenValue thenExit).run st =
      (rest (m + 1) (m + 2) (t.result (st.unit.registers + c.registerCount + 1))
        (t.endBlock m (m + 3))).run st') ∧
      Advanced st st' names₂ (c.registerCount + 1 + t.registerCount)
        (c.blockNames st.unit.blocks.length ++ [blockNames.numbered "then" m,
          blockNames.numbered "else" (m + 1), blockNames.numbered "merge" (m + 2)] ++
          t.blockNames (m + 3))
        (fun slots ↦ c.testCode slots st.unit.registers st.unit.current st.unit.blocks.length ++
          t.armCode slots (st.unit.registers + c.registerCount + 1) m (m + 3) (m + 2)) ∧
      st'.unit.blocks.length = m + 3 + t.blockCount ∧
      ∀ k : Nat, k = 1 ∨ k = 2 → (st'.unit.block (m + k)).code = [] := by
  obtain ⟨st₁, hrun₁, hadv₁, hempty₁⟩ := hc.run_condition st hnames hready hm
  have hlen₁ : st₁.unit.blocks.length = m + 3 := by
    rw [hadv₁.length_blocks, List.length_append, length_blockNames, ← Nat.add_assoc, hm]
    rfl
  have hthen : (st₁.unit.block m).code = [] := hempty₁ 0
  obtain ⟨st₂, hrun₂, hadv₂⟩ := run_arm st₁ hadv₁.listed_eq
    (hlen₁ ▸ Nat.lt_add_of_pos_right (by decide)) hthen hadv₁.names_eq ht (m + 2)
  rw [hlen₁] at hadv₂
  refine ⟨st₂, fun rest ↦ ?_, (hadv₁.trans hadv₂).congr rfl rfl fun slots _ ↦ ?_, ?_,
    fun k hk ↦ ?_⟩
  · refine (hrun₁ _).trans ((hrun₂ _).trans ?_)
    rw [hlen₁, hadv₁.registers_eq, Nat.add_assoc]
  · rw [hadv₁.registers_eq, Nat.add_assoc]
  · rw [hadv₂.length_blocks, hlen₁, length_blockNames]
  · rw [hadv₂.code_eq fun slots ↦ hst.armCode_eq_nil _ _ ?_, hempty₁]
    simp only [InRegion]
    omega

/-- **A conditional is lowered part by part**: the test, the first arm, the second arm and the phi
that joins them. -/
theorem Lowers.conditional (hc : c.Lowers names names₁) (ht : t.Lowers names₁ names₂)
    (he : e.Lowers names₂ names₃) (hst : t.Scoped names₁ names₂) (hse : e.Scoped names₂ names₃) :
    (conditional c t e).Lowers names names₃ := by
  intro st hnames hready
  obtain ⟨m, hm⟩ : ∃ m : Nat, st.unit.blocks.length + c.blockCount = m := ⟨_, rfl⟩
  obtain ⟨st₁, hrun₁, hadv₁, hlen₁, hempty₁⟩ := hc.run_whenTrue ht hst st hnames hready hm
  obtain ⟨st₂, hrun₂, hadv₂⟩ := run_arm st₁ hadv₁.listed_eq
    (hlen₁ ▸ (by omega : m + 1 < m + 3 + t.blockCount)) (hempty₁ 1 (.inl rfl)) hadv₁.names_eq he
    (m + 2)
  rw [hlen₁] at hadv₂
  have hreg₁ : st₁.unit.registers =
      st.unit.registers + c.registerCount + 1 + t.registerCount := by
    rw [hadv₁.registers_eq, Nat.add_assoc, Nat.add_assoc, Nat.add_assoc]
  have hmerge : m + 2 < st₂.unit.blocks.length := by
    rw [hadv₂.length_blocks, hlen₁]
    omega
  have hempty₂ : (st₂.unit.block (m + 2)).code = [] := by
    rw [hadv₂.code_eq fun slots ↦ hse.armCode_eq_nil _ _ ?_, hempty₁ 2 (.inr rfl)]
    simp only [InRegion]
    omega
  obtain ⟨st₃, hrun₃, hready₃, hcur₃, hadv₃⟩ := run_moveTo st₂ hadv₂.listed_eq hmerge hempty₂
  obtain ⟨st₄, hrun₄, hready₄, hcur₄, -, hadv₄⟩ := run_emit st₃ hready₃
    (.phi [(t.result (st.unit.registers + c.registerCount + 1), t.endBlock m (m + 3)),
      (e.result st₁.unit.registers, e.endBlock (m + 1) (m + 3 + t.blockCount))])
  rw [hadv₂.names_eq] at hadv₃
  rw [hadv₃.names_eq] at hadv₄
  have hreg₃ : st₃.unit.registers = (Expr.conditional c t e).result st.unit.registers := by
    rw [hadv₃.registers_eq, hadv₂.registers_eq, hreg₁, result_conditional]
    rfl
  refine ⟨st₄, ?_, (((hadv₁.trans hadv₂).trans hadv₃).trans hadv₄).congr ?_ ?_ fun slots _ ↦ ?_,
    hready₄, ?_⟩
  · refine (hrun₁ _).trans ((hrun₂ _).trans ((run_bind_ok hrun₃ _).trans ?_))
    rw [hlen₁, hrun₄, hreg₃]
  · rw [registerCount]
    omega
  · subst hm
    simp only [blockNames, List.append_nil]
  · rw [code_conditional slots c t e _ _ _ m hm, hcur₃, hreg₃, hreg₁, List.append_nil]
  · rw [hcur₄, hcur₃, ← hm]
    rfl

/-- **Lowering an accepted tree succeeds, and writes the code of the tree.** -/
theorem Scoped.lowers {names' : List String} (h : e.Scoped names names') :
    e.Lowers names names' := by
  induction h with
  | number x => exact lowers_number x
  | name hx => exact lowers_name hx
  | plus _ ih | group _ ih =>
    intro st hnames hready
    obtain ⟨st', hrun, he⟩ := ih st hnames hready
    exact ⟨st', hrun, he.toAdvanced, he.ready, he.current_eq⟩
  | minus _ ih => exact ih.minus
  | operator hop _ _ iha ihb => exact .operator hop iha ihb
  | assign x _ ih => exact ih.assign x
  | conditional _ ht he ihc iht ihe => exact ihc.conditional iht ihe ht he

/-! ### Refused trees -/

/-- Lowering a tree stops with a fault wherever just the given names are declared, having declared
some more. -/
def Stops (e : Expr) (names : List String) (why : EvalError) (names' : List String) : Prop :=
  ∀ st : Lowering, st.table.names = names → st.unit.Ready →
    ∃ st', e.lower.run st = .error why st' ∧ Declares st st' ∧ st'.table.names = names'

variable {why : EvalError}

theorem stops_of_throw (h : e.lower = throw why) : e.Stops names why names :=
  fun st hnames _ ↦ ⟨st, by rw [h]; rfl, .of_eq rfl rfl, hnames⟩

/-- A name that is not declared stops the lowering. -/
theorem stops_undeclared {x : String} (hx : x ∉ names) :
    (name x).Stops names (.undeclared x) names := by
  rintro st rfl -
  refine ⟨st, ?_, .of_eq rfl rfl, rfl⟩
  simp only [lower, EStateM.run_bind, EStateM.run_get, Variables.lookup_eq_none_iff.2 hx]
  rfl

/-- A tree stops where its first part does. -/
theorem Stops.of_bind (h : a.Stops names why names₁) {f : Register → Lower Register}
    (he : e.lower = a.lower >>= f) : e.Stops names why names₁ := by
  intro st hnames hready
  obtain ⟨st', hrun, hdeclares, hnames'⟩ := h st hnames hready
  exact ⟨st', by rw [he, run_bind_error hrun], hdeclares, hnames'⟩

/-- What stops the right operand stops the operator, with the names of the left one declared. -/
theorem Stops.operator_right {op : Kind} {f : Float → Float → Float} (hop : op.meaning? = some f)
    (ha : a.Lowers names names₁) (h : b.Stops names₁ why names₂) :
    (binary op a b).Stops names why names₂ := by
  intro st hnames hready
  obtain ⟨st₁, hrun₁, ha⟩ := ha st hnames hready
  obtain ⟨st₂, hrun₂, hdeclares, hnames₂⟩ := h st₁ ha.names_eq ha.ready
  exact ⟨st₂, by rw [lower_operator hop, run_bind_ok hrun₁, run_bind_error hrun₂],
    ha.declares.trans hdeclares, hnames₂⟩

/-- What stops the first arm stops the conditional. -/
theorem Stops.whenTrue (hc : c.Lowers names names₁) (h : t.Stops names₁ why names₂) (e : Expr) :
    (conditional c t e).Stops names why names₂ := by
  intro st hnames hready
  obtain ⟨st₁, hrun₁, hadv₁, hempty₁⟩ := hc.run_condition st hnames hready rfl
  have hlt : st.unit.blocks.length + c.blockCount < st₁.unit.blocks.length := by
    rw [hadv₁.length_blocks, List.length_append, length_blockNames, ← Nat.add_assoc]
    exact Nat.lt_add_of_pos_right (Nat.succ_pos _)
  obtain ⟨st₂, hrun₂, hready₂, -, hadv₂⟩ := run_moveTo st₁ hadv₁.listed_eq hlt (hempty₁ 0)
  obtain ⟨st₃, hrun₃, hdeclares₃, hnames₃⟩ := h st₂ (hadv₂.names_eq.trans hadv₁.names_eq) hready₂
  refine ⟨st₃, (hrun₁ _).trans ?_, (hadv₁.declares.trans hadv₂.declares).trans hdeclares₃, hnames₃⟩
  rw [run_bind_ok hrun₂, run_bind_error hrun₃]

/-- And so does what stops the second one. -/
theorem Stops.whenFalse (hc : c.Lowers names names₁) (ht : t.Lowers names₁ names₂)
    (hst : t.Scoped names₁ names₂) (h : e.Stops names₂ why names₃) :
    (conditional c t e).Stops names why names₃ := by
  intro st hnames hready
  obtain ⟨m, hm⟩ : ∃ m : Nat, st.unit.blocks.length + c.blockCount = m := ⟨_, rfl⟩
  obtain ⟨st₁, hrun₁, hadv₁, hlen₁, hempty₁⟩ := hc.run_whenTrue ht hst st hnames hready hm
  obtain ⟨st₂, hrun₂, hready₂, -, hadv₂⟩ := run_moveTo st₁ hadv₁.listed_eq
    (hlen₁ ▸ (by omega : m + 1 < m + 3 + t.blockCount)) (hempty₁ 1 (.inl rfl))
  obtain ⟨st₃, hrun₃, hdeclares₃, hnames₃⟩ := h st₂ (hadv₂.names_eq.trans hadv₁.names_eq) hready₂
  refine ⟨st₃, (hrun₁ _).trans ?_, (hadv₁.declares.trans hadv₂.declares).trans hdeclares₃, hnames₃⟩
  rw [run_bind_ok hrun₂, run_bind_error hrun₃]

/-- A sign that is no sign is refused before its operand is looked at. -/
theorem lower_unary {op : Kind} (h : ¬(op = .plus ∨ op = .minus)) (e : Expr) :
    (unary op e).lower = throw (.notSign op) := by
  cases op with
  | plus => exact absurd (.inl rfl) h
  | minus => exact absurd (.inr rfl) h
  | _ => rfl

/-- An operator without a meaning is refused before its operands are looked at. -/
theorem lower_binary {op : Kind} (h : op.meaning? = none) (hop : op ≠ .assign) (a b : Expr) :
    (binary op a b).lower = throw (.notOperator op) := by
  cases op with
  | assign => exact absurd rfl hop
  | plus | minus | star | slash | less | greater | equal => cases h
  | _ => rfl

/-- An assignment to what is no name is refused before its value is looked at. -/
theorem lower_assign (h : a.asName? = none) (b : Expr) :
    (binary .assign a b).lower = throw .notAssignable := by
  cases a with
  | name => cases h
  | _ => rfl

/-- **Lowering a refused tree stops with the fault that the static pass finds.** -/
theorem stops_of_scope_error (h : e.scope names = .error why) :
    ∃ names', e.Stops names why names' := by
  induction e generalizing names with
  | number => cases h
  | name x =>
    by_cases hx : x ∈ names
    · simp [scope, hx] at h
    · simp only [scope, if_neg hx, Except.error.injEq] at h
      exact ⟨names, h ▸ stops_undeclared hx⟩
  | unary op e ih =>
    by_cases hop : op = .plus ∨ op = .minus
    · rw [scope, if_pos hop] at h
      obtain ⟨names', he⟩ := ih h
      rcases hop with rfl | rfl
      · exact ⟨names', he⟩
      · exact ⟨names', he.of_bind rfl⟩
    · simp only [scope, if_neg hop, Except.error.injEq] at h
      exact ⟨names, h ▸ stops_of_throw (lower_unary hop e)⟩
  | binary op a b iha ihb =>
    rw [scope] at h
    rcases hop : op.meaning? with - | f
    · simp only [hop] at h
      by_cases hassign : op = .assign
      · subst hassign
        rw [if_pos rfl] at h
        rcases ha : a.asName? with - | x
        · simp only [ha, Except.error.injEq] at h
          exact ⟨names, h ▸ stops_of_throw (lower_assign ha b)⟩
        · obtain rfl := asName?_eq_some_iff.1 ha
          rcases hb : b.scope names with why' | names₁
          · rw [hb] at h
            cases h
            obtain ⟨names', hb⟩ := ihb hb
            exact ⟨names', hb.of_bind rfl⟩
          · rw [hb] at h
            cases h
      · simp only [if_neg hassign, Except.error.injEq] at h
        exact ⟨names, h ▸ stops_of_throw (lower_binary hop hassign a b)⟩
    · simp only [hop] at h
      rcases error_of_bind h with ha | ⟨names₁, ha, hb⟩
      · obtain ⟨names', ha⟩ := iha ha
        exact ⟨names', ha.of_bind (lower_operator hop a b)⟩
      · obtain ⟨names', hb⟩ := ihb hb
        exact ⟨names', .operator_right hop (scoped_of_scope ha).lowers hb⟩
  | group e ih => exact ih h
  | conditional c t e ihc iht ihe =>
    rcases error_of_bind h with h | ⟨names₂, hct, he⟩
    · rcases error_of_bind h with hc | ⟨names₁, hc, ht⟩
      · obtain ⟨names', hc⟩ := ihc hc
        exact ⟨names', hc.of_bind rfl⟩
      · obtain ⟨names', ht⟩ := iht ht
        exact ⟨names', .whenTrue (scoped_of_scope hc).lowers ht e⟩
    · obtain ⟨names₁, hc, ht⟩ := exists_ok_of_bind hct
      obtain ⟨names', he⟩ := ihe he
      exact ⟨names', .whenFalse (scoped_of_scope hc).lowers (scoped_of_scope ht).lowers
        (scoped_of_scope ht) he⟩
  | foreign s =>
    cases h
    exact ⟨names, stops_of_throw rfl⟩

/-! ### Whole units -/

/-- What lowering a tree into a new unit, so that the unit returns its value, has done. -/
abbrev LoweredAll (e : Expr) (target : Target) (unit : String) (v : Variables)
    (names : List String) (st : Lowering) : Prop :=
  Advanced ⟨.new target unit, v, []⟩ st names e.registerCount (e.blockNames 1) fun slots ↦
    e.program slots

/-- Lowering an accepted tree into a new unit writes its program. -/
theorem Scoped.run_lowerAll {v : Variables} (h : e.Scoped v.names names) (target : Target)
    (unit : String) :
    ∃ st, e.lowerAll.run ⟨.new target unit, v, []⟩ = .ok ⟨⟩ st ∧
      e.LoweredAll target unit v names st := by
  obtain ⟨st₁, hrun₁, he⟩ := h.lowers ⟨.new target unit, v, []⟩ rfl (CodeUnit.ready_new target unit)
  obtain ⟨st₂, hrun₂, -, hadv₂⟩ := run_leave st₁ he.ready (.ret (e.result 0))
  rw [he.names_eq] at hadv₂
  refine ⟨st₂, (run_bind_ok hrun₁ _).trans hrun₂, (he.toAdvanced.trans hadv₂).congr rfl
    (List.append_nil _) fun slots _ ↦ ?_⟩
  rw [he.current_eq]
  rfl

/-- Lowering a refused tree into a new unit stops with the fault of the static pass. The names that
are declared then do not depend on the unit. -/
theorem run_lowerAll_of_error {v : Variables} (h : e.scope v.names = .error why) :
    ∃ names, ∀ target unit, ∃ st, e.lowerAll.run ⟨.new target unit, v, []⟩ = .error why st ∧
      Declares ⟨.new target unit, v, []⟩ st ∧ st.table.names = names := by
  obtain ⟨names, hstops⟩ := stops_of_scope_error h
  refine ⟨names, fun target unit ↦ ?_⟩
  obtain ⟨st, hrun, hdeclares, hnames⟩ := hstops ⟨.new target unit, v, []⟩ rfl
    (CodeUnit.ready_new target unit)
  exact ⟨st, run_bind_error hrun _, hdeclares, hnames⟩

/-- What lowering a tree into a new unit comes to. -/
theorem lowerAll_cases (e : Expr) (v : Variables) (target : Target) (unit : String) :
    (∃ names st, e.Scoped v.names names ∧
      e.lowerAll.run ⟨.new target unit, v, []⟩ = .ok ⟨⟩ st ∧ e.LoweredAll target unit v names st) ∨
    ∃ why st, e.scope v.names = .error why ∧
      e.lowerAll.run ⟨.new target unit, v, []⟩ = .error why st ∧
      Declares ⟨.new target unit, v, []⟩ st := by
  rcases hscope : e.scope v.names with why | names
  · obtain ⟨names, hstops⟩ := run_lowerAll_of_error hscope
    obtain ⟨st, hrun, hdeclares, -⟩ := hstops target unit
    exact .inr ⟨why, st, rfl, hrun, hdeclares⟩
  · have hs := scoped_of_scope hscope
    obtain ⟨st, hrun, hst⟩ := hs.run_lowerAll target unit
    exact .inl ⟨names, st, hs, hrun, hst⟩

end Expr

end Reckoner
