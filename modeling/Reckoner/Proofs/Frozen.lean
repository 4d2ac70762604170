import Reckoner.Proofs.Operations

/-!
# Units that have been checked

Once the interpreter has accepted a unit, nothing that is asked of the unit changes what its runs
do. Running does not check the unit again, and blocks that control cannot leave may be added later;
but they cannot be come to. For all blocks of an accepted unit have been left, so that they take no
more instructions, and their exits lead only to blocks among them.

What is kept is `Frozen u u'`: the unit `u'` begins with the blocks of the unit `u`. Every operation
keeps it (`Frozen.next`), and a run sees no more of a unit than that (`run_walk_congr`).
-/

namespace Reckoner

/-! ### Runs within a part of a unit -/

namespace Machine

variable {u u' : CodeUnit} {source : Option Label} {l : Label}

/-- A run that starts among the first `n` blocks of a unit, which control does not leave, is the
same in all units that begin with these blocks. -/
theorem run_walk_congr {n : Nat} (htarget : u.target ≠ .native) (htarget' : u'.target ≠ .native)
    (hblock : ∀ l < n, u'.block l = u.block l) (hinside : ∀ p q, p < n → u.Edge p q → q < n)
    (budget : Nat) (hsource : ∀ p ∈ source, p < n) (hl : l < n) (m : Machine) :
    (walk u' budget source l).run m = (walk u budget source l).run m := by
  induction budget generalizing source l m with
  | zero => rfl
  | succ budget ih =>
    have hexec : execBlock u' source l = execBlock u source l := by
      rw [execBlock_of_ne_native htarget, execBlock_of_ne_native htarget', hblock l hl]
      exact exec_congr (fun p hp ↦ congrArg Block.name (hblock p (hsource p hp))) _
    simp only [walk, hexec, EStateM.run_bind]
    rcases hrun : (execBlock u source l).run m with ⟨- | next | y, m'⟩ | ⟨fault, m'⟩
    · exact ih hsource hl m'
    · have hnext := hinside l next hl (edge_of_execBlock htarget hrun)
      exact ih (fun p hp ↦ Option.mem_some_iff.1 hp ▸ hl) hnext m'
    · rfl
    · rfl

end Machine

namespace CodeUnit

variable {u u' : CodeUnit} {op : Operation} {ops : List Operation} {l q : Label}

theorem block_eq_of_isPrefix (h : u.blocks <+: u'.blocks) (hl : l < u.blocks.length) :
    u'.block l = u.block l := by
  obtain ⟨blocks, hblocks⟩ := h
  rw [block, block, ← hblocks, List.getElem?_append_left hl]

/-- An instruction for a block behind the first ones leaves those as they are. -/
theorem isPrefix_push (h : u.blocks <+: u'.blocks) (hcurrent : u.blocks.length ≤ u'.current)
    (i : Instr) : u.blocks <+: (u'.push i).blocks := by
  refine List.prefix_iff_getElem?.2 fun l hl ↦ ?_
  have hne : u'.current ≠ l := Nat.ne_of_gt (Nat.lt_of_lt_of_le hl hcurrent)
  simpa [push, List.getElem?_modify, hne] using List.prefix_iff_getElem?.1 h l hl

/-! ### Frozen units -/

/-- The unit `u'` has been checked and begins with all blocks of the unit `u`. -/
structure Frozen (u u' : CodeUnit) : Prop where
  target_eq : u'.target = u.target
  constants_eq : u'.constants = u.constants
  compiled_eq : u'.compiled = true
  blocks_isPrefix : u.blocks <+: u'.blocks
  listed_isPrefix : u.listed <+: u'.listed

/-- All blocks of an orderly unit that the interpreter accepts have been left. -/
theorem isTerminated_of_compile (h : u.Orderly) (hcompile : u.compile = .ok u')
    (htarget : u.target = .interpreter) (hl : l < u.blocks.length) :
    (u.block l).isTerminated = true := by
  rw [compile, htarget] at hcompile
  rcases hopen : u.openBlock? with - | q
  · rw [openBlock?, List.find?_eq_none] at hopen
    simpa using hopen l (h.listed_eq ▸ List.mem_range.2 hl)
  · simp only [hopen] at hcompile
    cases hcompile

namespace Frozen

/-- Checking a unit freezes it. -/
theorem of_compile (h : u.compile = .ok u') : Frozen u u' := by
  obtain rfl := eq_of_compile_eq_ok h
  exact ⟨rfl, rfl, rfl, List.prefix_rfl, List.prefix_rfl⟩

/-- What an operation preserves: a block that has been left takes no instruction, so what is written
goes into blocks that are not of the first ones. -/
theorem next (h : Frozen u u') (htarget : u.target ≠ .native)
    (hleft : ∀ l < u.blocks.length, (u.block l).isTerminated = true) (hclose : op ≠ .close) :
    Frozen u (u'.next op) := by
  obtain ⟨i, -, hopen, heq⟩ | ⟨name, -, heq⟩ | ⟨l, -, heq⟩ | ⟨-, heq⟩ | heq :=
    next_cases (h.target_eq ▸ htarget) hclose <;> rw [heq]
  · have hcurrent : u.blocks.length ≤ u'.current := by
      by_contra hlt
      have hlt := Nat.lt_of_not_le hlt
      rw [block_eq_of_isPrefix h.blocks_isPrefix hlt, hleft _ hlt] at hopen
      cases hopen
    exact ⟨h.target_eq, h.constants_eq, h.compiled_eq, isPrefix_push h.blocks_isPrefix hcurrent i,
      h.listed_isPrefix⟩
  · exact ⟨h.target_eq, h.constants_eq, h.compiled_eq,
      h.blocks_isPrefix.trans (List.prefix_append _ _),
      h.listed_isPrefix.trans (List.prefix_append _ _)⟩
  · exact ⟨h.target_eq, h.constants_eq, h.compiled_eq, h.blocks_isPrefix, h.listed_isPrefix⟩
  · exact ⟨h.target_eq, h.constants_eq, rfl, h.blocks_isPrefix, h.listed_isPrefix⟩
  · exact h

/-- What a row of operations preserves. -/
theorem after (h : Frozen u u') (htarget : u.target ≠ .native)
    (hleft : ∀ l < u.blocks.length, (u.block l).isTerminated = true) (hclose : .close ∉ ops) :
    Frozen u (u'.after ops) := by
  induction ops generalizing u' with
  | nil => exact h
  | cons op ops ih =>
    have hne : op ≠ .close := fun heq ↦ hclose (heq ▸ List.mem_cons_self)
    exact ih (h.next htarget hleft hne) fun hmem ↦ hclose (List.mem_cons_of_mem op hmem)

/-- A run starts at the same block. -/
theorem head?_listed (h : Frozen u u') (hu : u.Orderly) : u'.listed.head? = some 0 := by
  obtain ⟨labels, hlabels⟩ := h.listed_isPrefix
  rw [← hlabels, List.head?_append, hu.head?_listed, Option.some_or]

/-- Control keeps to the blocks that were there when the unit was checked. -/
theorem lt_of_path (h : Frozen u u') (hu : u.Orderly) {path : List Label} (hpath : u'.Path path l) :
    l < u.blocks.length := by
  induction hpath with
  | entry hhead =>
    rw [h.head?_listed hu] at hhead
    cases hhead
    exact hu.length_pos
  | step _ hedge ih =>
    rw [Edge, block_eq_of_isPrefix h.blocks_isPrefix ih] at hedge
    exact hu.target_lt _ _ hedge

/-- Runs of a frozen unit are runs of the unit that was checked. -/
theorem execute_eq (h : Frozen u u') (hu : u.Orderly) (htarget : u.target ≠ .native) (budget : Nat)
    (s : Storage) : u'.execute budget s = u.execute budget s := by
  rw [execute_of_head? (h.head?_listed hu), execute_of_head? hu.head?_listed,
    Machine.run_walk_congr htarget (h.target_eq ▸ htarget)
      (fun l hl ↦ block_eq_of_isPrefix h.blocks_isPrefix hl)
      (fun p q _ hedge ↦ hu.target_lt p q hedge) budget (by simp) hu.length_pos,
    initialRegisters, h.constants_eq]
  rfl

theorem run_eq (h : Frozen u u') (hu : u.Orderly) (htarget : u.target ≠ .native) (budget : Nat)
    (s : Storage) :
    ((u'.run budget s).result, (u'.run budget s).storage) = u.execute budget s := by
  rw [run_of_compiled h.compiled_eq, ← h.execute_eq hu htarget]

end Frozen

/-- A unit that the interpreter has accepted is frozen. Whatever is asked of it then, giving it up
apart, a run has the same result, or the same fault, and the same effects on the storage as it would
have had at once. Every block that control can come to is as it was; it has been left, so that no
run goes over its end. -/
theorem run_after_compile (name : String) (before later : List Operation)
    (howned : (new .interpreter name).Owns before) (hclose : .close ∉ before ++ later)
    {u : CodeUnit} (hcompile : ((new .interpreter name).after before).compile = .ok u) :
    (∀ budget s, ((u.after later).run budget s).result = (u.run budget s).result ∧
      ((u.after later).run budget s).storage = (u.run budget s).storage) ∧
    ∀ path l, (u.after later).Path path l →
      (u.after later).block l = u.block l ∧ ((u.after later).block l).isTerminated = true ∧
      ∀ source m m', (Machine.execBlock (u.after later) source l).run m ≠ .ok none m' := by
  obtain ⟨hbefore, hlater⟩ := not_or.1 (mt List.mem_append.2 hclose)
  obtain ⟨horderly, htarget⟩ :=
    (orderly_new .interpreter name).after Target.noConfusion hbefore howned
  have hne : ((new .interpreter name).after before).target ≠ .native :=
    fun h ↦ Target.noConfusion (htarget.symm.trans h)
  have hleft := fun l ↦ isTerminated_of_compile (l := l) horderly hcompile htarget
  have hnow := Frozen.of_compile hcompile
  have hthen := hnow.after hne hleft hlater
  refine ⟨fun budget s ↦ Prod.mk.inj ?_, fun path l hpath ↦ ?_⟩
  · rw [hthen.run_eq horderly hne, hnow.run_eq horderly hne]
  · have hl := hthen.lt_of_path horderly hpath
    have hblock := block_eq_of_isPrefix hthen.blocks_isPrefix hl
    have hclosed : Closed ((u.after later).block l).code := hblock ▸ horderly.closed (hleft l hl)
    refine ⟨hblock.trans (block_eq_of_isPrefix hnow.blocks_isPrefix hl).symm, hclosed.isTerminated,
      fun source m m' hrun ↦ ?_⟩
    exact hclosed.not_open (Machine.open_of_execBlock (hthen.target_eq ▸ hne) hrun)

/-- Empties a slot, unless it is empty, and returns what is in it then. -/
def emptying : List Operation :=
  [.value (.load 0 "x"), .appendBlock "full", .appendBlock "empty", .exit (.branch 0 1 2),
    .moveTo 1, .value (.const 0.0), .store 0 "x" 1, .exit (.jump 0), .moveTo 2, .exit (.ret 0)]

/-- Writes into a new block, which is not left, and tries to lead there from the first one. -/
def straying : List Operation :=
  [.store 0 "x" 1, .appendBlock "late", .moveTo 3, .value (.const 7.0), .compile, .moveTo 0,
    .exit (.jump 3)]

theorem run_after_compile_emptying :
    (new .interpreter "calc_0").Owns emptying ∧ .close ∉ emptying ++ straying ∧
      ∃ u, ((new .interpreter "calc_0").after emptying).compile = .ok u ∧
        (u.after straying).compile = .error (.notTerminated "late3") ∧
        ((u.after straying).run 9 [5.0]).result = .ok 0.0 ∧
        ((u.after straying).run 9 [5.0]).storage = [0.0] ∧
        (u.after straying).Path [0, 1] 0 ∧ ((u.after straying).block 0).isTerminated = true := by
  have howned : (new .interpreter "calc_0").Owns emptying := by decide
  have hclose : Operation.close ∉ emptying ++ straying := by decide
  have hpath : (CodeUnit.after { (new .interpreter "calc_0").after emptying with compiled := true }
      straying).Path [0, 1] 0 := ((Path.entry rfl).step (by decide)).step (by decide)
  obtain ⟨hrun, hblocks⟩ := run_after_compile "calc_0" emptying straying howned hclose rfl
  obtain ⟨hresult, hstorage⟩ := hrun 9 [5.0]
  exact ⟨howned, hclose, _, rfl, rfl, hresult.trans (by decide), hstorage.trans (by decide), hpath,
    (hblocks _ _ hpath).2.1⟩

end CodeUnit

end Reckoner
