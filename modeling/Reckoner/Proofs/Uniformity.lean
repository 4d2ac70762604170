import Reckoner.Proofs.Outcome

/-!
# What the code of an expression depends on

Lowering asks a table two things: whether a name is declared, and where its cell is. The first one
decides whether a tree is accepted, and with which fault it is refused. So two tables that declare
the same names accept the same trees (`Expr.scope_congr`), and a table that declares more names
accepts more of them (`Expr.Scoped.mono`).

The second one is written into the code, but not into its listing. Moving the variables of a tree to
other cells moves the slots in its code and changes nothing else (`Expr.map_relocate_code`), and a
listing shows names, not slots.
-/

namespace Reckoner

/-! ### Declared names -/

theorem mem_addName {names : List String} {x y : String} :
    y ∈ addName names x ↔ y ∈ names ∨ y = x := by
  unfold addName
  split
  · rename_i hx
    exact ⟨.inl, fun h ↦ h.elim id fun hy ↦ hy ▸ hx⟩
  · simp

/-- Two rows of the same names, in whatever order. -/
def SameNames (names names' : List String) : Prop :=
  ∀ x, x ∈ names ↔ x ∈ names'

/-- Two passes that came to the same fault, or both to an end with the same names. -/
inductive SameScope : Except EvalError (List String) → Except EvalError (List String) → Prop where
  | error (why : EvalError) : SameScope (.error why) (.error why)
  | ok {names names'} (h : SameNames names names') : SameScope (.ok names) (.ok names')

namespace SameScope

variable {r r' : Except EvalError (List String)}

theorem addName (h : SameScope r r') (x : String) :
    SameScope ((Reckoner.addName · x) <$> r) ((Reckoner.addName · x) <$> r') := by
  match h with
  | .error why => exact .error why
  | .ok hnames => exact .ok fun y ↦ by rw [mem_addName, mem_addName, hnames y]

/-- Scopes stay the same from one part of a tree to the next. -/
theorem bind (h : SameScope r r') {f : List String → Except EvalError (List String)}
    (hf : ∀ {names names'}, SameNames names names' → SameScope (f names) (f names')) :
    SameScope (r >>= f) (r' >>= f) := by
  match h with
  | .error why => exact .error why
  | .ok hnames => exact hf hnames

end SameScope

namespace Expr

variable {e : Expr} {names names' names₁ : List String}

/-- **Where the same names are declared, a tree is accepted or refused for the same fault.** -/
theorem scope_congr (hnames : SameNames names names') :
    SameScope (e.scope names) (e.scope names') := by
  induction e generalizing names names' with
  | number => exact .ok hnames
  | name x =>
    simp only [scope, hnames x]
    split
    · exact .ok hnames
    · exact .error _
  | unary op e ih =>
    rw [scope, scope]
    split
    · exact ih hnames
    · exact .error _
  | binary op a b iha ihb =>
    rw [scope, scope]
    split
    · exact (iha hnames).bind ihb
    · split
      · split
        · exact (ihb hnames).addName _
        · exact .error _
      · exact .error _
  | group e ih => exact ih hnames
  | conditional c t e ihc iht ihe => exact ((ihc hnames).bind iht).bind ihe
  | foreign => exact .error _

/-- **Where more names are declared, more trees are accepted.** -/
theorem Scoped.mono (h : e.Scoped names names₁) (hnames : names ⊆ names') :
    ∃ names₁', e.Scoped names' names₁' ∧ names₁ ⊆ names₁' := by
  induction h generalizing names' with
  | number x => exact ⟨names', .number x, hnames⟩
  | name hx => exact ⟨names', .name (hnames hx), hnames⟩
  | plus _ ih =>
    obtain ⟨names₁', he, hsub⟩ := ih hnames
    exact ⟨names₁', .plus he, hsub⟩
  | minus _ ih =>
    obtain ⟨names₁', he, hsub⟩ := ih hnames
    exact ⟨names₁', .minus he, hsub⟩
  | operator hop _ _ iha ihb =>
    obtain ⟨names₁', ha, hsub₁⟩ := iha hnames
    obtain ⟨names₂', hb, hsub₂⟩ := ihb hsub₁
    exact ⟨names₂', .operator hop ha hb, hsub₂⟩
  | assign x _ ih =>
    obtain ⟨names₁', he, hsub⟩ := ih hnames
    -- the name may be new on one side and old on the other
    exact ⟨addName names₁' x, .assign x he, fun _ hy ↦
      mem_addName.2 ((mem_addName.1 hy).imp_left fun hy ↦ hsub hy)⟩
  | group _ ih =>
    obtain ⟨names₁', he, hsub⟩ := ih hnames
    exact ⟨names₁', .group he, hsub⟩
  | conditional _ _ _ ihc iht ihe =>
    obtain ⟨names₁', hc, hsub₁⟩ := ihc hnames
    obtain ⟨names₂', ht, hsub₂⟩ := iht hsub₁
    obtain ⟨names₃', he, hsub₃⟩ := ihe hsub₂
    exact ⟨names₃', .conditional hc ht he, hsub₃⟩

end Expr

/-! ### Moving variables to other cells -/

/-- An instruction that looks for its variable in the cell that is given to the name. -/
def Instr.relocate (slots : String → Slot) : Instr → Instr
  | compute r (.load _ x) => compute r (.load (slots x) x)
  | store _ x r => store (slots x) x r
  | i => i

/-- Each instruction of a log, with its variable moved. -/
def Log.relocate (slots : String → Slot) (log : Log) : Log :=
  log.map fun i ↦ (i.1, i.2.relocate slots)

@[simp]
theorem Log.relocate_append (slots : String → Slot) (log log' : Log) :
    relocate slots (log ++ log') = relocate slots log ++ relocate slots log' :=
  List.map_append

/-- Relocating the log relocates the code of each block. -/
theorem Log.code_relocate (slots : String → Slot) (log : Log) (l : Label) :
    (log.relocate slots).code l = (log.code l).map (Instr.relocate slots) := by
  rw [relocate, code, code, List.filterMap_map, List.map_filterMap]
  refine List.filterMap_congr fun i _ ↦ ?_
  rw [Function.comp_apply]
  split <;> rfl

theorem Target.keeps_relocate (t : Target) (slots : String → Slot) (i : Instr) :
    t.keeps (i.relocate slots) = t.keeps i := by
  match i with
  | .compute _ (.load ..) | .store .. => rcases t with - | - | - <;> rfl
  | .compute _ (.const _) | .compute _ (.arith ..) | .compute _ (.compare ..)
  | .compute _ (.truth _) | .compute _ (.phi _) | .exit _ => rfl

theorem Instr.relocate_computation (slots : String → Slot) (r a b : Register) (op : Kind) :
    (compute r (op.computation a b)).relocate slots = compute r (op.computation a b) := by
  unfold Kind.computation
  split <;> rfl

namespace Expr

/-- **Moving the variables moves the slots in the code**, and changes nothing else. -/
theorem map_relocate_code (slots slots' : String → Slot) (e : Expr) (r : Register) (l n : Label) :
    (e.code slots r l n).relocate slots' = e.code slots' r l n := by
  induction e generalizing r l n with
  | number | name | foreign => rfl
  | unary op e ih =>
    simp only [code]
    split
    · rw [Log.relocate_append, ih]
      rfl
    · exact ih r l n
  | binary op a b iha ihb =>
    simp only [code]
    split
    · rw [Log.relocate_append, Log.relocate_append, iha, ihb]
      show _ ++ [(_, Instr.relocate slots' _)] = _
      rw [Instr.relocate_computation]
    · rcases a.asName? with - | x
      · rfl
      · show Log.relocate slots' (_ ++ _) = _
        rw [Log.relocate_append, ihb]
        rfl
  | group e ih => exact ih r l n
  | conditional c t e ihc iht ihe =>
    simp only [code, Log.relocate_append, ihc, iht, ihe]
    rfl

/-- Programs with other slots differ in their slots only. -/
theorem relocate_program (slots slots' : String → Slot) (e : Expr) :
    (e.program slots).relocate slots' = e.program slots' := by
  rw [program, Log.relocate_append, map_relocate_code]
  rfl

end Expr

/-! ### Listings -/

namespace CodeUnit

variable {u u' : CodeUnit}

theorem blockName_eq (u : CodeUnit) (l : Label) :
    u.blockName l = ((u.blocks.map Block.name)[l]?).getD "" := by
  rw [blockName, block, List.getElem?_map]
  rcases u.blocks[l]? with - | b <;> rfl

/-- A listing shows where a variable is by its name alone. -/
theorem instrText_relocate (u : CodeUnit) (slots : String → Slot) (i : Instr) :
    u.instrText (i.relocate slots) = u.instrText i := by
  match i with
  | .compute _ (.const _) | .compute _ (.load ..) | .compute _ (.arith ..)
  | .compute _ (.compare ..) | .compute _ (.truth _) | .compute _ (.phi _) | .store ..
  | .exit _ => rfl

/-- Of its unit the text of an instruction needs the names of blocks only. -/
theorem instrText_congr (h : u.blockName = u'.blockName) : u.instrText = u'.instrText := by
  funext i
  match i with
  | .compute _ (.const _) | .compute _ (.load ..) | .compute _ (.arith ..)
  | .compute _ (.compare ..) | .compute _ (.truth _) => rfl
  | .compute _ (.phi _) => simp only [instrText, computationText, h]
  | .store .. => rfl
  | .exit (.branch ..) | .exit (.jump _) => simp only [instrText, exitText, h]
  | .exit (.ret _) => rfl

/-- A block is listed under its name, an instruction a line. -/
theorem blockLines_eq (u : CodeUnit) (l : Label) :
    u.blockLines l =
      (u.blockName l ++ ":") :: (u.block l).code.map fun i ↦ "  " ++ u.instrText i :=
  rfl

/-- Units whose blocks have the same names and, but for the slots, the same code, are listed by the
same lines. -/
theorem blockLines_congr (hname : u.blockName = u'.blockName) (slots : String → Slot)
    (hcode : ∀ l, (u.block l).code.map (Instr.relocate slots) =
      (u'.block l).code.map (Instr.relocate slots)) : u.blockLines = u'.blockLines := by
  funext l
  have hlines (w : CodeUnit) : (w.block l).code.map (fun i ↦ "  " ++ w.instrText i) =
      ((w.block l).code.map (Instr.relocate slots)).map fun i ↦ "  " ++ w.instrText i := by
    rw [List.map_map]
    exact List.map_congr_left fun i _ ↦ by rw [Function.comp_apply, instrText_relocate]
  rw [blockLines_eq, blockLines_eq, hlines u, hlines u', hcode, hname, instrText_congr hname]

end CodeUnit

namespace Expr.LoweredAll

variable {e : Expr} {target : Target} {unit unit' : String} {v w : Variables}
  {names names' : List String} {st st' : Lowering}

theorem name_eq (h : e.LoweredAll target unit v names st) : st.unit.name = unit :=
  (h.grown _ st.table.resolves_slotOf).name_eq

/-- The names of blocks follow from the tree. -/
theorem map_name_blocks (h : e.LoweredAll target unit v names st) :
    st.unit.blocks.map Block.name = "entry" :: e.blockNames 1 :=
  (h.grown _ st.table.resolves_slotOf).blockNames_eq

/-- The code of a block, once its variables are moved to given slots. -/
theorem map_relocate_block (h : e.LoweredAll target unit v names st) (hs : e.Scoped v.names names)
    (slots : String → Slot) (l : Label) :
    (st.unit.block l).code.map (Instr.relocate slots) =
      ((e.program slots).code l).filter target.keeps := by
  have hkeeps : target.keeps ∘ Instr.relocate slots = target.keeps :=
    funext fun i ↦ target.keeps_relocate slots i
  rw [(h.holds hs).code_eq, h.target_eq, ← relocate_program st.table.slotOf slots e,
    Log.code_relocate, List.filter_map, hkeeps]

/-- **The lines of a lowered unit depend on the tree alone.** -/
theorem lines_congr (h : e.LoweredAll target unit v names st) (hs : e.Scoped v.names names)
    (h' : e.LoweredAll target unit' w names' st') (hs' : e.Scoped w.names names') :
    st.unit.listed.flatMap st.unit.blockLines = st'.unit.listed.flatMap st'.unit.blockLines := by
  have hname : st.unit.blockName = st'.unit.blockName := by
    funext l
    rw [CodeUnit.blockName_eq, CodeUnit.blockName_eq, h.map_name_blocks, h'.map_name_blocks]
  have hlines : st.unit.blockLines = st'.unit.blockLines := by
    refine CodeUnit.blockLines_congr hname (fun _ ↦ 0) fun l ↦ ?_
    rw [h.map_relocate_block hs, h'.map_relocate_block hs']
  rw [h.listed_eq, h.length_blocks, h'.listed_eq, h'.length_blocks, hlines]

end Expr.LoweredAll

/-! ### Evaluation -/

/-- Where units may be run, an evaluation succeeds exactly on accepted trees. -/
theorem result_of_refusal_eq_none {c : Settings} (hc : c.refusal? = none) (unit : String) (e : Expr)
    (v : Variables) :
    (∃ names x, e.scope v.names = .ok names ∧ (evaluate c unit e v).result = .ok x) ∨
      ∃ why, e.scope v.names = .error why ∧ (evaluate c unit e v).result = .error why := by
  rcases evaluate_cases e v with ⟨why, k, hscope, houtcome⟩ | ⟨fresh, hs, -, -, houtcome⟩
  · exact .inr ⟨why, hscope, congrArg Prod.fst (houtcome c unit)⟩
  · have hrun := houtcome c unit
    rw [hc] at hrun
    exact .inl ⟨_, _, Expr.scope_of_scoped hs, congrArg Prod.fst hrun⟩

/-- Whether a tree can be evaluated, and why not, depends on which names are declared. -/
theorem result_congr {c c' : Settings} (hc : c.refusal? = none) (hc' : c'.refusal? = none)
    (unit unit' : String) (e : Expr) {v w : Variables} (hnames : SameNames v.names w.names) :
    (∃ x y, (evaluate c unit e v).result = .ok x ∧ (evaluate c' unit' e w).result = .ok y) ∨
      ∃ why, (evaluate c unit e v).result = .error why ∧
        (evaluate c' unit' e w).result = .error why := by
  have hsame := Expr.scope_congr (e := e) hnames
  rcases result_of_refusal_eq_none hc unit e v with ⟨names, x, hscope, hx⟩ | ⟨why, hscope, hwhy⟩
  all_goals rcases result_of_refusal_eq_none hc' unit' e w with
    ⟨names', y, hscope', hy⟩ | ⟨why', hscope', hwhy'⟩
  all_goals rw [hscope, hscope'] at hsame
  · exact .inl ⟨x, y, hx, hy⟩
  · cases hsame
  · cases hsame
  · cases hsame
    exact .inr ⟨why, hwhy, hwhy'⟩

/-- What is lowered was accepted. -/
theorem Expr.loweredAll_of_run {e : Expr} {target : Target} {unit : String} {v : Variables}
    {st : Lowering} (h : e.lowerAll.run ⟨.new target unit, v, []⟩ = .ok ⟨⟩ st) :
    ∃ names, e.Scoped v.names names ∧ e.LoweredAll target unit v names st := by
  rcases e.lowerAll_cases v target unit with ⟨names, st', hs, hrun, hst⟩ | ⟨why, st', -, hrun, -⟩
  · obtain ⟨-, rfl⟩ := EStateM.Result.ok.inj (hrun.symm.trans h)
    exact ⟨names, hs, hst⟩
  · exact nomatch hrun.symm.trans h

/-- The lines of a tree's listing, for every table and every name of the unit. -/
theorem Expr.exists_lines (e : Expr) (target : Target) :
    ∃ lines : List String, ∀ v unit st,
      e.lowerAll.run ⟨.new target unit, v, []⟩ = .ok ⟨⟩ st →
        st.unit.listing = "\n".intercalate
          (("define double @" ++ unit ++ "() \x7b") :: lines ++ ["\x7d"]) := by
  by_cases h : ∃ v unit st, e.lowerAll.run ⟨.new target unit, v, []⟩ = .ok ⟨⟩ st
  · obtain ⟨v, unit, st, hrun⟩ := h
    obtain ⟨names, hs, hst⟩ := loweredAll_of_run hrun
    refine ⟨st.unit.listed.flatMap st.unit.blockLines, fun w unit' st' hrun' ↦ ?_⟩
    obtain ⟨names', hs', hst'⟩ := loweredAll_of_run hrun'
    rw [hst.lines_congr hs hst' hs', CodeUnit.listing, hst'.name_eq]
  · exact ⟨[], fun v unit st hrun ↦ absurd ⟨v, unit, st, hrun⟩ h⟩

/-- **Code generation sees only which names are declared.** Two tables with the same names, whatever
their order and their values, evaluate a tree both or refuse it for the same fault; a table with
more names lowers every tree that one with fewer names does; and, for every target, there is but one
listing of a tree, up to the name of the unit. -/
theorem lowerAll_uniform (e : Expr) :
    (∀ v w : Variables, (∀ x, x ∈ v.names ↔ x ∈ w.names) → ∀ unit unit' logging logging',
      let left := evaluate ⟨.interpreter, .nowhere, logging⟩ unit e v
      let right := evaluate ⟨.interpreter, .nowhere, logging'⟩ unit' e w
      (∃ x y, left.result = .ok x ∧ right.result = .ok y) ∨
        ∃ why, left.result = .error why ∧ right.result = .error why) ∧
    (∀ v w : Variables, v.names ⊆ w.names → ∀ target unit unit',
      (∃ st, e.lowerAll.run ⟨.new target unit, v, []⟩ = .ok ⟨⟩ st) →
        ∃ st, e.lowerAll.run ⟨.new target unit', w, []⟩ = .ok ⟨⟩ st) ∧
    ∀ target, ∃ lines : List String, ∀ v unit st,
      e.lowerAll.run ⟨.new target unit, v, []⟩ = .ok ⟨⟩ st →
        st.unit.listing = "\n".intercalate
          (("define double @" ++ unit ++ "() \x7b") :: lines ++ ["\x7d"]) := by
  refine ⟨fun v w hnames unit unit' logging logging' ↦ ?_, fun v w hsub target unit unit' h ↦ ?_,
    e.exists_lines⟩
  · exact result_congr rfl rfl unit unit' e hnames
  · obtain ⟨st, hrun⟩ := h
    obtain ⟨names, hs, -⟩ := Expr.loweredAll_of_run hrun
    obtain ⟨names', hs', -⟩ := hs.mono hsub
    obtain ⟨st', hrun', -⟩ := hs'.run_lowerAll target unit'
    exact ⟨st', hrun'⟩

/-- The name that is assigned to is new in one table and known in the other, where the names have
other cells, too. A table with the same names in another order refuses what this one refuses. -/
theorem lowerAll_uniform_shadowed :
    let e : Expr :=
      .conditional (.name "b") (.binary .assign (.name "c") (.name "a")) (.name "c")
    let v : Variables := ⟨[("a", 0), ("b", 1)], [1.0, 2.0]⟩
    let w : Variables := ⟨[("b", 0), ("c", 1), ("a", 2)], [0.0, 6.0, 7.0]⟩
    let w' : Variables := ⟨[("b", 0), ("a", 1)], [0.0, 7.0]⟩
    let d : Expr := .binary .plus e (.name "d")
    (v.names ⊆ w.names ∧ ∃ st st',
      e.lowerAll.run ⟨.new .interpreter "calc_0", v, []⟩ = .ok ⟨⟩ st ∧
      e.lowerAll.run ⟨.new .interpreter "calc_0", w, []⟩ = .ok ⟨⟩ st' ∧
      st.unit.listing = st'.unit.listing) ∧
    (∀ x, x ∈ v.names ↔ x ∈ w'.names) ∧
      (evaluate ⟨.interpreter, .nowhere, true⟩ "calc_0" d v).result = .error (.undeclared "d") ∧
      (evaluate ⟨.interpreter, .nowhere, true⟩ "calc_0" d w').result =
        .error (.undeclared "d") := by
  intro e v w w' d
  have hsub : v.names ⊆ w.names := by decide
  have hnames : ∀ x, x ∈ v.names ↔ x ∈ w'.names := by
    simp [v, w', Variables.names, or_comm]
  have hfault : (evaluate ⟨.interpreter, .nowhere, true⟩ "calc_0" d v).result =
      .error (.undeclared "d") := by decide +kernel
  obtain ⟨-, hmono, hlines⟩ := lowerAll_uniform e
  obtain ⟨lines, hlines⟩ := hlines .interpreter
  have hs : e.Scoped v.names (addName v.names "c") :=
    .conditional (.name (by decide)) (.assign "c" (.name (by decide))) (.name (by decide))
  obtain ⟨st, hrun, -⟩ := hs.run_lowerAll .interpreter "calc_0"
  obtain ⟨st', hrun'⟩ := hmono v w hsub .interpreter "calc_0" "calc_0" ⟨st, hrun⟩
  refine ⟨⟨hsub, st, st', hrun, hrun', ?_⟩, hnames, hfault, ?_⟩
  · rw [hlines v "calc_0" st hrun, hlines w "calc_0" st' hrun']
  · rcases (lowerAll_uniform d).1 v w' hnames "calc_0" "calc_0" true true with
      ⟨x, y, hx, -⟩ | ⟨why, hwhy, hwhy'⟩
    · cases hfault.symm.trans hx
    · rw [hwhy', ← hwhy, hfault]

end Reckoner
