import Reckoner.Evaluation.Basic
import Reckoner.Proofs.Lowering
import Reckoner.Proofs.Simulation

/-!
# Evaluating an expression

Evaluation lowers a tree into a unit, checks the unit and runs it. What comes out is what the two
passes over the tree say: a tree that the static pass refuses fails with the fault of the pass, and
an accepted one has the value that the dynamic pass computes from the values of the names.

The run works on slots, while the dynamic pass works on names. In a sound table every name has a
slot of its own, so that the two agree (`eval_bySlot`).
-/

namespace Reckoner

/-- The meaning of a tree where the variables of a table are declared: its value or the first fault
in it, and the names with their values afterwards. -/
def Expr.meaning (e : Expr) (v : Variables) : Except EvalError Float × List (String × Float) :=
  match e.scope v.names with
  | .error why => (.error why, v.contents)
  | .ok names =>
    let (x, store) := e.eval .byName v.store
    (.ok x, names.map fun y ↦ (y, store y))

/-! ### Slots and names -/

namespace Storage

theorem length_write (s : Storage) (slot : Slot) (x : Float) : (s.write slot x).length = s.length :=
  List.length_set

/-- Writing changes one cell. -/
theorem read_write (s : Storage) {slot : Slot} (h : slot < s.length) (slot' : Slot) (x : Float) :
    (s.write slot x).read slot' = if slot' = slot then x else s.read slot' := by
  rw [read, write, List.getElem?_set]
  by_cases heq : slot = slot'
  · subst heq
    simp [h]
  · simp [heq, Ne.symm heq, read]

/-- Writing to a cell leaves the others. -/
theorem read_write_of_ne (s : Storage) {slot slot' : Slot} (h : slot' ≠ slot) (x : Float) :
    (s.write slot x).read slot' = s.read slot' := by
  rw [read, write, List.getElem?_set_ne h.symm, read]

end Storage

namespace Variables

variable {v : Variables} {names : List String} {e : Expr}

/-- The storage holds the values of names in the slots of a table. -/
structure Keeps (v : Variables) (s : Storage) (store : String → Float) : Prop where
  length_eq : s.length = v.storage.length
  read_eq : ∀ x ∈ v.names, s.read (v.slotOf x) = store x

theorem lookup_slotOf {x : String} (hx : x ∈ v.names) : v.lookup x = some (v.slotOf x) := by
  obtain ⟨slot, hslot⟩ := exists_lookup hx
  rw [slotOf, hslot]
  rfl

/-- A table keeps its own values. -/
theorem keeps_store (v : Variables) : v.Keeps v.storage v.store where
  length_eq := rfl
  read_eq := fun _ hx ↦ (store_of_lookup (lookup_slotOf hx)).symm

/-- Writing into the slot of a name changes the value of that name only. -/
theorem Keeps.write {s : Storage} {store : String → Float} (hv : v.Sound) (h : v.Keeps s store)
    {x : String} (hx : x ∈ v.names) (y : Float) :
    v.Keeps (s.write (v.slotOf x) y) (Function.update store x y) where
  length_eq := (s.length_write _ _).trans h.length_eq
  read_eq := fun z hz ↦ by
    have hlt : v.slotOf x < s.length :=
      h.length_eq ▸ hv.slots_lt _ (mem_entries_of_lookup (lookup_slotOf hx))
    rw [s.read_write hlt]
    by_cases hzx : z = x
    · subst hzx
      simp
    · have hne : v.slotOf z ≠ v.slotOf x := fun heq ↦
        hzx (hv.eq_of_lookup (lookup_slotOf hz) (heq ▸ lookup_slotOf hx))
      rw [if_neg hne, Function.update_of_ne hzx, h.read_eq z hz]

/-- In a sound table evaluation by slots is evaluation by names. -/
theorem eval_bySlot (hv : v.Sound) (he : e.Scoped names v.names) :
    (e.eval (.bySlot v.slotOf) v.storage).1 = (e.eval .byName v.store).1 ∧
      v.Keeps (e.eval (.bySlot v.slotOf) v.storage).2 (e.eval .byName v.store).2 :=
  he.eval_congr (fun _ _ h x hx ↦ h.read_eq x hx) (fun _ _ h _ hx y ↦ h.write hv hx y)
    (List.Subset.refl _) _ _ v.keeps_store

/-- The contents of a sound table, read name by name. -/
theorem Keeps.contents_eq {s : Storage} {store : String → Float} (hv : v.Sound)
    (h : v.Keeps s store) :
    ({ v with storage := s } : Variables).contents = v.names.map fun x ↦ (x, store x) := by
  simp only [contents, names, List.map_map]
  refine List.map_congr_left fun p hp ↦ ?_
  have hslot : v.slotOf p.1 = p.2 := v.resolves_slotOf p.1 p.2 (hv.lookup_of_mem hp)
  have hread := h.read_eq p.1 (List.mem_map_of_mem hp)
  rw [hslot] at hread
  simp [hread]

end Variables

/-! ### Lowered units -/

namespace Expr

open Lowering

variable {e : Expr} {v : Variables} {names : List String} {target : Target} {unit : String}
  {st : Lowering}

namespace LoweredAll

theorem target_eq (h : e.LoweredAll target unit v names st) : st.unit.target = target :=
  (h.grown _ st.table.resolves_slotOf).target_eq

theorem length_blocks (h : e.LoweredAll target unit v names st) :
    st.unit.blocks.length = 1 + e.blockCount := by
  rw [Advanced.length_blocks h, length_blockNames]
  rfl

/-- The lowered unit holds the program of the tree. -/
theorem holds (h : e.LoweredAll target unit v names st) (hs : e.Scoped v.names names) :
    st.unit.Holds (e.program st.table.slotOf) where
  code_eq := fun l ↦ by
    rw [(h.grown _ st.table.resolves_slotOf).code_eq, CodeUnit.code_block_new, h.target_eq]
    rfl
  constants_eq := by
    rw [(h.grown _ st.table.resolves_slotOf).constants_eq, h.target_eq]
    rfl
  results_nodup := by
    rw [hs.results_program]
    exact List.nodup_range
  headed := hs.headed_program _

/-- Every block of a lowered unit is left by its last instruction, and by no other. -/
theorem closed_block (h : e.LoweredAll target unit v names st) (hs : e.Scoped v.names names)
    {l : Label} (hl : l < st.unit.blocks.length) : Closed (st.unit.block l).code := by
  rw [(h.holds hs).code_eq]
  exact (hs.closed_program _ (h.length_blocks ▸ hl)).filter _

/-- The interpreter accepts every lowered unit. -/
theorem compile_eq (h : e.LoweredAll .interpreter unit v names st) (hs : e.Scoped v.names names) :
    st.unit.compile = .ok { st.unit with compiled := true } := by
  have hopen : st.unit.openBlock? = none := by
    rw [CodeUnit.openBlock?, List.find?_eq_none]
    intro l hl
    rw [h.listed_eq, List.mem_range] at hl
    simp [(h.closed_block hs hl).isTerminated]
  have htarget : st.unit.target = .interpreter := h.target_eq
  simp only [CodeUnit.compile, htarget, hopen]

/-- **No lowered unit fails once it has been checked.** -/
theorem run_eq (h : e.LoweredAll target unit v names st) (hs : e.Scoped v.names names)
    {u : CodeUnit} (hu : st.unit.compile = .ok u) {budget : Nat}
    (hbudget : u.blocks.length ≤ budget) (s : Storage) :
    u.run budget s = ⟨.ok (e.eval (.bySlot st.table.slotOf) s).1, u,
      (e.eval (.bySlot st.table.slotOf) s).2⟩ := by
  have hunit := CodeUnit.eq_of_compile_eq_ok hu
  have hholds : u.Holds (e.program st.table.slotOf) := by
    rw [hunit]
    exact ⟨(h.holds hs).code_eq, (h.holds hs).constants_eq, (h.holds hs).results_nodup,
      (h.holds hs).headed⟩
  have hexecute := hs.execute_eq hholds (hunit ▸ h.listed_eq) (hunit ▸ h.length_blocks) hbudget s
  have hcompiled : u.compiled = true := by rw [hunit]
  simp only [CodeUnit.run, hcompiled, if_true, hexecute]

end LoweredAll

end Expr

/-! ### Taking declarations back -/

/-- The table `w` is the table `v`, but that it may have further cells, which no name has. -/
structure Variables.Restored (v w : Variables) : Prop where
  entries_eq : w.entries = v.entries
  isPrefix : v.storage <+: w.storage
  read_eq : ∀ slot, w.storage.read slot = v.storage.read slot

namespace Variables.Restored

variable {v w : Variables}

/-- Restoring restores the contents. -/
theorem contents_eq (h : v.Restored w) : w.contents = v.contents := by
  simp only [contents, h.entries_eq, h.read_eq]

theorem sound (h : v.Restored w) (hv : v.Sound) : w.Sound := by
  obtain ⟨entries, storage⟩ := w
  obtain rfl : entries = v.entries := h.entries_eq
  exact hv.withStorage h.isPrefix.length_le

end Variables.Restored

theorem Variables.restored_spare (v : Variables) (k : Nat) : v.Restored (v.spare k) where
  entries_eq := rfl
  isPrefix := List.prefix_append _ _
  read_eq := v.read_spare k

/-- Taking back what a lowering has declared leaves the table with the cells that were made, and
never fails itself. -/
theorem Lowering.Declares.undo_eq_spare {u : CodeUnit} {v : Variables} {st : Lowering}
    (h : Declares ⟨u, v, []⟩ st) (why : EvalError) (log : List LogEntry) (listing : Option String) :
    st.undo why log listing = ⟨.error why, v.spare st.declared.length, log, listing⟩ := by
  obtain ⟨fresh, htable, hdeclared, hnodup, hfresh⟩ := h
  obtain rfl : st.declared = fresh := hdeclared
  have hforget : st.table.forgetAll st.declared = (none, v.spare st.declared.length) := by
    rw [htable]
    exact Variables.forgetAll_extend hnodup hfresh
  simp only [undo, hforget]

/-- Taking back what a lowering has declared gives back the table from before. -/
theorem Lowering.Declares.undo_eq {u : CodeUnit} {v : Variables} {st : Lowering}
    (h : Declares ⟨u, v, []⟩ st) (why : EvalError) (log : List LogEntry) (listing : Option String) :
    ∃ w, v.Restored w ∧ st.undo why log listing = ⟨.error why, w, log, listing⟩ :=
  ⟨_, v.restored_spare _, h.undo_eq_spare why log listing⟩

/-! ### Evaluation -/

section

variable {s : Settings} {unit : String} {e : Expr} {v : Variables} {st : Lowering}

/-- A unit that has been checked is run, and then the table has the storage that the run leaves. -/
theorem evaluate_of_compile {names : List String} (hs : e.Scoped v.names names)
    (hrun : e.lowerAll.run ⟨.new s.target unit, v, []⟩ = .ok ⟨⟩ st)
    (hst : e.LoweredAll s.target unit v names st) (hlistings : ∀ fault, s.listings ≠ .blocked fault)
    {u : CodeUnit} (hu : st.unit.compile = .ok u) :
    (evaluate s unit e v).result = .ok (e.eval (.bySlot st.table.slotOf) st.table.storage).1 ∧
      (evaluate s unit e v).table =
        { st.table with storage := (e.eval (.bySlot st.table.slotOf) st.table.storage).2 } := by
  have hran := hst.run_eq hs hu (Nat.le_refl _) st.table.storage
  rcases hl : s.listings with - | - | fault
  · simp [evaluate, hrun, hl, hu, hran, Except.mapError]
  · simp [evaluate, hrun, hl, hu, hran, Except.mapError]
  · exact absurd hl (hlistings fault)

/-- **Evaluation in the interpreter is the meaning of the tree**, for every tree: its value or the
first fault in it, and the names with their values afterwards. -/
theorem evaluate_interpreter (htarget : s.target = .interpreter)
    (hlistings : ∀ fault, s.listings ≠ .blocked fault) (hv : v.Sound) (unit : String) (e : Expr) :
    ((evaluate s unit e v).result, (evaluate s unit e v).table.contents) = e.meaning v ∧
      (evaluate s unit e v).table.Sound := by
  rcases e.lowerAll_cases v s.target unit with
    ⟨names, st, hs, hrun, hst⟩ | ⟨why, st, hscope, hrun, hdeclares⟩
  · rw [Expr.meaning, Expr.scope_of_scoped hs]
    have hst' := hst
    rw [htarget] at hst'
    obtain ⟨hresult, htable⟩ := evaluate_of_compile hs hrun hst hlistings (hst'.compile_eq hs)
    -- the table after lowering is a sound one in which the names have the values they had
    obtain ⟨fresh, hextend, -, hnodup, hfresh⟩ := hst.declares
    have hsound : st.table.Sound := hextend ▸ hv.extend hnodup hfresh
    have hstore : st.table.store = v.store := hextend ▸ v.store_extend fresh
    rw [← hst.names_eq] at hs
    obtain ⟨hvalue, hkeeps⟩ := Variables.eval_bySlot hsound hs
    rw [hstore] at hvalue hkeeps
    rw [hresult, htable, hvalue, hkeeps.contents_eq hsound, hst.names_eq]
    exact ⟨rfl, hsound.withStorage (Nat.le_of_eq hkeeps.length_eq.symm)⟩
  · obtain ⟨w, hw, hundo⟩ := hdeclares.undo_eq why [] none
    rw [Expr.meaning, hscope, evaluate, hrun]
    simp only [hundo]
    exact ⟨by rw [hw.contents_eq], hw.sound hv⟩

/-- A name that is assigned in the branch not taken is declared, and zero. -/
theorem evaluate_interpreter_conditional :
    let e : Expr :=
      .conditional (.binary .less (.name "a") (.group (.binary .assign (.name "b") (.number 3.0))))
        (.group (.binary .assign (.name "c") (.binary .star (.name "a") (.name "b"))))
        (.group (.binary .assign (.name "d") (.unary .minus (.number 1.0))))
    let done := evaluate ⟨.interpreter, .nowhere, false⟩ "calc_0" e ⟨[("a", 0)], [2.0]⟩
    done.result = .ok 6.0 ∧
      done.table.contents = [("a", 2.0), ("b", 3.0), ("c", 6.0), ("d", 0.0)] := by
  intro e done
  have hv : Variables.Sound ⟨[("a", 0)], [2.0]⟩ := ⟨by decide, by decide, by decide⟩
  have h := (evaluate_interpreter (s := ⟨.interpreter, .nowhere, false⟩) rfl (by simp) hv "calc_0"
    e).1
  exact Prod.mk.inj (h.trans (by decide +kernel))

end

end Reckoner
