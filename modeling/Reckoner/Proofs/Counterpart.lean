import Reckoner.Proofs.Edges
import Reckoner.Proofs.Frozen

/-!
# Native counterparts of interpreted units

Operations that build a unit for the interpreter also build a native unit. The two have the same
blocks, but for the constants, which the native unit has in its registers from the start
(`Paired.build`).

Where the interpreter's run comes to a result, the run of the native unit comes to the same, if no
phi takes the register of a phi before it in its block: its machine *covers* the other, that is, has
all registers that the other one has, with the same contents. Parts of a run that only read are
carried over (`Carries`); what is written keeps the one machine covering the other, since no
register is computed twice.
-/

namespace Reckoner

namespace Machine

variable {u w : CodeUnit} {source : Option Label} {code : List Instr} {m m' m₁ : Machine}
  {r : Register} {v : Scalar} {x : Float} {l : Label} {α β : Type}

/-! ### Machines that hold more -/

/-- The state `m'` has the constants of the unit and all that the state `m` has. -/
structure Covers (w : CodeUnit) (m m' : Machine) : Prop where
  storage_eq : m'.storage = m.storage
  lookup_eq : ∀ r v, m.registers.lookup r = some v → m'.registers.lookup r = some v
  loaded : m'.Loaded w

/-- A result may be written to both, if its register holds no constant of the unit. -/
theorem Covers.set (h : Covers w m m') (hr : ∀ k ∈ w.constants, k.1 ≠ r) (v : Scalar) :
    Covers w { m with registers := m.registers.set r v }
      { m' with registers := m'.registers.set r v } where
  storage_eq := h.storage_eq
  lookup_eq := fun q y hq ↦ by
    rw [Registers.lookup_set] at hq ⊢
    split at hq
    · rename_i heq
      rw [if_pos heq, hq]
    · rename_i hne
      rw [if_neg hne]
      exact h.lookup_eq q y hq
  loaded := fun k hk ↦ by
    rw [Registers.lookup_set, if_neg (hr k hk)]
    exact h.loaded k hk

/-- A constant need not be written where it has been from the start. -/
theorem Covers.set_constant (h : Covers w m m') (hx : (r, x) ∈ w.constants) :
    Covers w { m with registers := m.registers.set r (.real x) } m' where
  storage_eq := h.storage_eq
  lookup_eq := fun q y hq ↦ by
    rw [Registers.lookup_set] at hq
    split at hq
    · rename_i heq
      rw [heq, ← hq]
      exact h.loaded _ hx
    · exact h.lookup_eq q y hq
  loaded := h.loaded

/-! ### Reading -/

/-- The second part of a run reads in a covering state what the first one reads. -/
def Carries (w : CodeUnit) (a b : Run α) : Prop :=
  ∀ m m' x m₁, Covers w m m' → a.run m = .ok x m₁ → m₁ = m ∧ b.run m' = .ok x m'

theorem carries_pure (a : α) : Carries w (pure a) (pure a) := by
  intro m m' x m₁ _ h
  cases h
  exact ⟨rfl, rfl⟩

/-- Reading goes on with the value that both have read. -/
theorem Carries.bind {a b : Run α} {f g : α → Run β} (h : Carries w a b)
    (hf : ∀ x, Carries w (f x) (g x)) : Carries w (a >>= f) (b >>= g) := by
  intro m m' y m₁ hm hrun
  obtain ⟨x, m₂, ha, hrest⟩ := run_bind_eq_ok_iff.1 hrun
  obtain ⟨rfl, hb⟩ := h m m' x m₂ hm ha
  obtain ⟨rfl, hg⟩ := hf x m₂ m' y m₁ hm hrest
  exact ⟨rfl, (run_bind_ok hb g).trans hg⟩

/-- A register that the first state has, the second has as well. -/
theorem carries_read (r : Register) : Carries w (Machine.read r) (Machine.read r) := by
  intro m m' v m₁ hm h
  rcases hr : m.registers.lookup r with - | y
  · simp only [Machine.read, EStateM.run_bind, EStateM.run_get, hr] at h
    cases h
  · rw [run_read hr] at h
    cases h
    exact ⟨rfl, run_read (hm.lookup_eq r v hr)⟩

theorem carries_inRange (a : Except RangeFault α) : Carries w (inRange a) (inRange a) := by
  rcases a with fault | a
  · intro m m' x m₁ _ h
    cases h
  · exact carries_pure a

theorem carries_readFloat (r : Register) : Carries w (readFloat r) (readFloat r) :=
  (carries_read r).bind fun v ↦ carries_inRange v.toFloat

/-- The value of a phi depends only on where control came from, and on registers. -/
theorem carries_choose (u w : CodeUnit) (source : Option Label)
    (incoming : List (Register × Label)) :
    Carries w (choose u source incoming) (choose w source incoming) := by
  rw [choose, choose]
  split
  · exact carries_pure _
  · intro m m' x m₁ _ h
    cases h

/-- A computation comes to the same in the native unit, which has its own instructions for it. -/
theorem carries_compute (u w : CodeUnit) (source : Option Label) (c : Computation) :
    Carries w (compute u source c) (compute w source c) := by
  cases c with
  | const x => exact carries_pure _
  | load slot x =>
    intro m m' y m₁ hm h
    cases h
    refine ⟨rfl, ?_⟩
    rw [← hm.storage_eq]
    rfl
  | arith op a b =>
    simp only [compute, Target.apply_eq]
    exact (carries_read a).bind fun x ↦ (carries_read b).bind fun y ↦ carries_inRange _
  | compare op a b =>
    simp only [compute, Target.compare_eq]
    exact (carries_read a).bind fun x ↦ (carries_read b).bind fun y ↦ carries_pure _
  | truth a =>
    simp only [compute, Target.truth_eq]
    exact (carries_read a).bind fun x ↦ carries_pure _
  | phi incoming => exact (carries_choose u w source incoming).bind fun r ↦ carries_read r

/-- What an exit decides on is read alike. -/
theorem carries_leave (x : Exit) : Carries w (leave x) (leave x) := by
  cases x with
  | branch c t e => exact (carries_read c).bind fun v ↦ carries_pure _
  | jump l => exact carries_pure _
  | ret r => exact (carries_readFloat r).bind fun y ↦ carries_pure _

/-! ### Running -/

/-- The code keeps to the constants of the unit: it computes them as they are, and no others into
their registers. -/
structure Respects (w : CodeUnit) (code : List Instr) : Prop where
  constant_mem : ∀ r x, .compute r (.const x) ∈ code → (r, x) ∈ w.constants
  fresh : ∀ r c, .compute r c ∈ code → Target.native.keeps (.compute r c) = true →
    ∀ k ∈ w.constants, k.1 ≠ r

/-- The rest of the code respects the constants as well. -/
theorem Respects.tail {i : Instr} (h : Respects w (i :: code)) : Respects w code where
  constant_mem := fun r x hmem ↦ h.constant_mem r x (List.mem_cons_of_mem i hmem)
  fresh := fun r c hmem ↦ h.fresh r c (List.mem_cons_of_mem i hmem)

/-- Without its constants the code does the same, in a state that has them. -/
theorem Covers.run_exec (h : Covers w m m') (hcode : Respects w code) {flow : Option Flow}
    (hrun : (exec u source code).run m = .ok flow m₁) :
    ∃ m₁', (exec w source (code.filter Target.native.keeps)).run m' = .ok flow m₁' ∧
      Covers w m₁ m₁' := by
  induction code generalizing m m' with
  | nil =>
    cases hrun
    exact ⟨m', rfl, h⟩
  | cons i code ih =>
    cases i with
    | compute r c =>
      obtain ⟨v, m₂, hc, hexec⟩ := run_bind_eq_ok_iff.1 hrun
      obtain ⟨rfl, hc'⟩ := carries_compute u w source c m m' v m₂ h hc
      by_cases hk : Target.native.keeps (.compute r c) = true
      · have hset := h.set (hcode.fresh r c List.mem_cons_self hk) v
        obtain ⟨m₁', hrest, hm₁⟩ := ih hset hcode.tail hexec
        rw [List.filter_cons_of_pos hk]
        exact ⟨m₁', (run_bind_ok hc' _).trans hrest, hm₁⟩
      · obtain ⟨x, rfl⟩ : ∃ x, c = .const x := by
          cases c with
          | const x => exact ⟨x, rfl⟩
          | _ => exact absurd rfl hk
        cases hc
        rw [List.filter_cons_of_neg hk]
        exact ih (h.set_constant (hcode.constant_mem r x List.mem_cons_self)) hcode.tail hexec
    | store slot x r =>
      obtain ⟨y, m₂, hr, hexec⟩ := run_bind_eq_ok_iff.1 hrun
      obtain ⟨rfl, hr'⟩ := carries_readFloat r m m' y m₂ h hr
      have hstore : Covers w { m₂ with storage := m₂.storage.write slot y }
          { m' with storage := m'.storage.write slot y } :=
        ⟨congrArg (fun s : Storage ↦ s.write slot y) h.storage_eq, h.lookup_eq, h.loaded⟩
      obtain ⟨m₁', hrest, hm₁⟩ := ih hstore hcode.tail hexec
      exact ⟨m₁', (run_bind_ok hr' _).trans hrest, hm₁⟩
    | exit x =>
      obtain ⟨flow', m₂, hleave, hdone⟩ := run_bind_eq_ok_iff.1 hrun
      cases hdone
      obtain ⟨rfl, hleave'⟩ := carries_leave x m m' flow' m₁ h hleave
      exact ⟨m', run_bind_ok hleave' _, h⟩

/-- A walk through blocks without their constants comes to the same result. -/
theorem Covers.run_walk (hu : u.target ≠ .native) (hw : w.target ≠ .native)
    (hcode : ∀ l, (w.block l).code = (u.block l).code.filter Target.native.keeps)
    (hrespects : ∀ l, Respects w (u.block l).code) (h : Covers w m m') {budget : Nat}
    (hrun : (walk u budget source l).run m = .ok x m₁) :
    ∃ m₁', (walk w budget source l).run m' = .ok x m₁' ∧ m₁'.storage = m₁.storage := by
  induction budget generalizing source l m m' with
  | zero => cases hrun
  | succ budget ih =>
    obtain ⟨flow, m₂, hexec, hrun⟩ := run_bind_eq_ok_iff.1 hrun
    rw [execBlock_of_ne_native hu] at hexec
    obtain ⟨m₂', hexec', hm₂⟩ := h.run_exec (hrespects l) hexec
    rw [← hcode, ← execBlock_of_ne_native hw] at hexec'
    match flow with
    | some (.done y) =>
      cases hrun
      exact ⟨m₂', run_bind_ok hexec' _, hm₂.storage_eq⟩
    | some (.enter next) =>
      obtain ⟨m₁', hrest, hstorage⟩ := ih hm₂ hrun
      exact ⟨m₁', (run_bind_ok hexec' _).trans hrest, hstorage⟩
    | none =>
      obtain ⟨m₁', hrest, hstorage⟩ := ih hm₂ hrun
      exact ⟨m₁', (run_bind_ok hexec' _).trans hrest, hstorage⟩

end Machine

namespace CodeUnit

open Machine

/-! ### Building for both targets -/

/-- The unit as if it had not been checked. -/
def unchecked (u : CodeUnit) : CodeUnit :=
  { u with compiled := false }

/-- Checking a unit does not matter for how it grows. -/
theorem Grown.unchecked {u u' : CodeUnit} {names : List String} {log : Log}
    (h : u.Grown u' names log) : u.unchecked.Grown u'.unchecked names log :=
  ⟨h.name_eq, h.target_eq, rfl, h.blockNames_eq, h.code_eq, h.constants_eq⟩

/-- A unit for the interpreter and a native one into which the same instructions have been written.
Registers are given out in order. -/
structure Paired (name : String) (u n : CodeUnit) (names : List String) (log : Log) : Prop where
  orderly : u.Orderly
  grown : (new .interpreter name).Grown u.unchecked names log
  grown_native : (new .native name).Grown n names log
  current_eq : n.current = u.current
  registers_eq : n.registers = u.registers
  listed_eq : n.listed = List.range n.blocks.length
  results_eq : log.results = List.range u.registers

/-- Two new units are paired. -/
theorem paired_new (name : String) :
    Paired name (new .interpreter name) (new .native name) [] [] where
  orderly := orderly_new .interpreter name
  grown := .refl _
  grown_native := .refl _
  current_eq := rfl
  registers_eq := rfl
  listed_eq := rfl
  results_eq := rfl

/-- The unit with its phis run in turn. -/
def inTurn (u : CodeUnit) : CodeUnit :=
  { u with target := .interpreter }

/-- A native unit runs its phis on edges. -/
theorem onEdges_inTurn {n : CodeUnit} (h : n.target = .native) : n.inTurn.onEdges = n := by
  rw [onEdges, inTurn, ← h]

variable {name : String} {u u' n : CodeUnit} {names : List String} {log : Log} {op : Operation}
  {ops : List Operation} {i : Instr} {l p : Label}

namespace Paired

theorem target_ne (h : Paired name u n names log) : u.target ≠ .native := by
  rw [show u.target = .interpreter from h.grown.target_eq]
  exact Target.noConfusion

theorem length_eq (h : Paired name u n names log) : n.blocks.length = u.blocks.length :=
  h.grown_native.length_blocks.trans h.grown.length_blocks.symm

/-- The interpreter keeps every instruction that was written. -/
theorem code_eq (h : Paired name u n names log) (l : Label) : (u.block l).code = log.code l := by
  have hcode := h.grown.code_eq l
  rw [code_block_new] at hcode
  exact hcode.trans <|
    List.filter_eq_self.2 fun i _ ↦ Target.keeps_of_ne_native Target.noConfusion i

/-- The native unit has the same code but for the constants. -/
theorem code_native (h : Paired name u n names log) (l : Label) :
    (n.block l).code = (u.block l).code.filter Target.native.keeps := by
  rw [h.grown_native.code_eq, code_block_new, h.code_eq]
  rfl

theorem constants_eq (h : Paired name u n names log) : n.constants = log.constants :=
  h.grown_native.constants_eq

/-- If one of them is ready, so is the other. -/
theorem ready_native (h : Paired name u n names log) (hready : u.Ready) : n.Ready where
  current_lt := by
    rw [h.current_eq, h.length_eq]
    exact hready.current_lt
  listed_eq := h.listed_eq
  exitless := fun i hi ↦ by
    rw [h.current_eq, h.code_native] at hi
    exact hready.exitless i (List.mem_of_mem_filter hi)

/-- An instruction that computes nothing is written into both units. -/
theorem push (h : Paired name u n names log) (hready : u.Ready) (hpush : (u.push i).Orderly)
    (hi : i.result? = none) :
    n.emit i = .ok (n.push i) ∧ Paired name (u.push i) (n.push i) (names ++ [])
      (log ++ [(u.current, i)]) := by
  have hkeeps : ∀ t : Target, t.keeps i = true := by
    intro t
    cases i with
    | compute => cases hi
    | _ => cases t <;> rfl
  have hready_native := h.ready_native hready
  refine ⟨hready_native.emit_eq i, hpush, h.grown.trans (grown_push hready (hkeeps _)).unchecked,
    h.grown_native.trans ?_, h.current_eq, h.registers_eq, ?_, ?_⟩
  · rw [← h.current_eq]
    exact grown_push hready_native (hkeeps _)
  · simpa [CodeUnit.push] using h.listed_eq
  · rw [Log.results_append, h.results_eq]
    simp [Log.results, hi, CodeUnit.push]

/-- A value is computed into the same register in both units. -/
theorem value {c : Computation} (h : Paired name u n names log)
    (hopen : (u.block u.current).isTerminated = false) (horderly : u'.Orderly)
    (hu : u.perform (.value c) = .ok u') :
    ∃ n', n.perform (.value c) = .ok n' ∧
      Paired name u' n' (names ++ []) (log ++ [(u.current, .compute u.registers c)]) := by
  have hready := h.orderly.ready hopen
  obtain ⟨u₁, hvalue, -, hregisters, hcurrent, hgrown⟩ := hready.emitValue_eq c
  obtain ⟨n₁, hvalue', hready', hregisters', hcurrent', hgrown'⟩ :=
    (h.ready_native hready).emitValue_eq c
  rw [CodeUnit.perform, hvalue] at hu
  cases hu
  rw [h.current_eq, h.registers_eq] at hgrown'
  refine ⟨n₁, ?_, horderly, h.grown.trans hgrown.unchecked, h.grown_native.trans hgrown', ?_, ?_,
    hready'.listed_eq, ?_⟩
  · rw [CodeUnit.perform, hvalue']
    rfl
  · rw [hcurrent', hcurrent, h.current_eq]
  · rw [hregisters', hregisters, h.registers_eq]
  · rw [Log.results_append, h.results_eq, hregisters, List.range_succ]
    rfl

/-- What can be written into the one unit can be written into the other. -/
theorem perform (h : Paired name u n names log) (howned : ∀ l ∈ op.targets, l < u.blocks.length)
    (hcompile : op ≠ .compile) (hclose : op ≠ .close) (hu : u.perform op = .ok u') :
    ∃ n' names' log', n.perform op = .ok n' ∧ Paired name u' n' names' log' := by
  have horderly : u'.Orderly := next_of_perform hu ▸ h.orderly.next h.target_ne hclose howned
  cases op with
  | value c =>
    obtain ⟨hopen, -⟩ := perform_of_instr? h.target_ne (i := .compute u.registers c) rfl hu
    obtain ⟨n', hperform, hpaired⟩ := h.value hopen horderly hu
    exact ⟨n', _, _, hperform, hpaired⟩
  | store slot x r =>
    obtain ⟨hopen, rfl⟩ := perform_of_instr? h.target_ne (i := .store slot x r) rfl hu
    obtain ⟨hemit, hpaired⟩ := h.push (h.orderly.ready hopen) horderly rfl
    exact ⟨_, _, _, hemit, hpaired⟩
  | exit x =>
    obtain ⟨hopen, rfl⟩ := perform_of_instr? h.target_ne (i := .exit x) rfl hu
    obtain ⟨hemit, hpaired⟩ := h.push (h.orderly.ready hopen) horderly rfl
    exact ⟨_, _, _, hemit, hpaired⟩
  | appendBlock block =>
    cases hu
    have hgrown := grown_appendBlock h.listed_eq block
    rw [h.length_eq] at hgrown
    refine ⟨_, _, _, rfl, horderly,
      h.grown.trans (grown_appendBlock h.orderly.listed_eq block).unchecked,
      h.grown_native.trans hgrown, h.current_eq, h.registers_eq, ?_, ?_⟩
    · simp [appendBlock_eq h.listed_eq]
    · rw [List.append_nil]
      exact h.results_eq
  | moveTo l =>
    cases hu
    refine ⟨_, _, _, rfl, horderly, h.grown.trans (grown_moveTo u l).unchecked,
      h.grown_native.trans (grown_moveTo n l), rfl, h.registers_eq, h.listed_eq, ?_⟩
    rw [List.append_nil]
    exact h.results_eq
  | compile => exact absurd rfl hcompile
  | close => exact absurd rfl hclose

/-- Checking the one unit leaves the pair as it is. -/
theorem compile (h : Paired name u n names log) (hu : u.compile = .ok u') :
    Paired name u' n names log := by
  obtain rfl := eq_of_compile_eq_ok hu
  exact ⟨⟨h.orderly.current_lt, h.orderly.listed_eq, h.orderly.ended, h.orderly.target_lt⟩, h.grown,
    h.grown_native, h.current_eq, h.registers_eq, h.listed_eq, h.results_eq⟩

/-- **What builds a unit for the interpreter builds a native unit.** Checks on the way are left
out, since native units are asked for more. -/
theorem build (h : Paired name u n names log) (howned : u.Owns ops) (hclose : .close ∉ ops)
    (hu : u.build ops = .ok u') :
    ∃ n' names' log', n.build (ops.filter (· ≠ .compile)) = .ok n' ∧
      Paired name u' n' names' log' := by
  induction ops generalizing u n names log with
  | nil =>
    cases hu
    exact ⟨n, names, log, rfl, h⟩
  | cons op ops ih =>
    obtain ⟨hop, hrest⟩ := howned
    obtain ⟨u₁, hperform, hbuild⟩ := exists_ok_of_bind hu
    rw [next_of_perform hperform] at hrest
    have hclose' : .close ∉ ops := fun hmem ↦ hclose (List.mem_cons_of_mem op hmem)
    by_cases hcompile : op = .compile
    · subst hcompile
      rw [List.filter_cons_of_neg (by simp)]
      exact ih (h.compile hperform) hrest hclose' hbuild
    · have hne : op ≠ .close := fun heq ↦ hclose (heq ▸ List.mem_cons_self)
      obtain ⟨n₁, names₁, log₁, hperform', hpaired⟩ := h.perform hop hcompile hne hperform
      obtain ⟨n', names', log', hbuild', hpaired'⟩ := ih hpaired hrest hclose' hbuild
      refine ⟨n', names', log', ?_, hpaired'⟩
      rw [List.filter_cons_of_pos (by simpa using hcompile), CodeUnit.build, List.foldlM_cons,
        hperform']
      exact hbuild'

/-- No register is computed twice. -/
theorem results_nodup (h : Paired name u n names log) : log.results.Nodup :=
  h.results_eq ▸ List.nodup_range

/-! ### Running both -/

/-- Every register is computed once, so the constants stay what they are. -/
theorem respects (h : Paired name u n names log) (l : Label) :
    Respects n.inTurn (u.block l).code where
  constant_mem := fun r x hmem ↦ by
    rw [h.code_eq, Log.mem_code] at hmem
    rw [show n.inTurn.constants = log.constants from h.constants_eq]
    exact Log.mem_constants.2 ⟨l, hmem⟩
  fresh := fun r c hmem hkeeps k hk ↦ by
    rw [h.code_eq, Log.mem_code] at hmem
    rw [show n.inTurn.constants = log.constants from h.constants_eq] at hk
    obtain ⟨l', hl'⟩ := Log.mem_constants.1 hk
    rintro rfl
    rw [Log.computation_unique h.results_nodup hmem hl'] at hkeeps
    cases hkeeps

/-- The phis of the native unit are apart if those of the other one are. -/
theorem phisApart (h : Paired name u n names log) (hlead : u.PhisLead) (hapart : u.PhisApart) :
    n.inTurn.PhisApart := by
  intro p _ l _ hedge
  have hcode : ∀ q, (n.inTurn.block q).code = _ := h.code_native
  rw [hcode, splitPhis_filter (hlead.isPhi_eq_false l)]
  refine hapart.apart fun q hq ↦ ?_
  obtain ⟨x, hx, hl⟩ := edge_iff.1 hedge
  rw [hcode] at hx
  rw [← Option.mem_some_iff.1 hq]
  exact edge_iff.2 ⟨x, List.mem_of_mem_filter hx, hl⟩

/-- A native run starts with the constants that the other run has yet to compute. -/
theorem covers (h : Paired name u n names log) (s : Storage) :
    Covers n.inTurn ⟨u.initialRegisters, s⟩ ⟨n.inTurn.initialRegisters, s⟩ where
  storage_eq := rfl
  lookup_eq := fun r v hr ↦ by
    have hconstants : u.constants = [] := h.grown.constants_eq
    rw [initialRegisters, hconstants] at hr
    cases hr
  loaded := loaded_of_unique (fun r x y hx hy ↦ by
    rw [show n.inTurn.constants = log.constants from h.constants_eq] at hx hy
    exact Log.constant_unique h.results_nodup hx hy) s

/-- The native unit comes to the result of the interpreter. -/
theorem execute (h : Paired name u n names log) (hlead : u.PhisLead) (hapart : u.PhisApart)
    {budget : Nat} {s s' : Storage} {x : Float} (hrun : u.execute budget s = (.ok x, s')) :
    n.execute budget s = (.ok x, s') := by
  have hhead : n.inTurn.listed.head? = some 0 := by
    rw [show n.inTurn.listed = u.listed by
      rw [h.orderly.listed_eq, ← h.length_eq]; exact h.listed_eq]
    exact h.orderly.head?_listed
  rw [execute_of_head? h.orderly.head?_listed] at hrun
  rcases hwalk : (walk u budget none 0).run ⟨u.initialRegisters, s⟩ with ⟨y, m⟩ | ⟨fault, m⟩
  · rw [hwalk] at hrun
    cases hrun
    obtain ⟨m', hwalk', hstorage⟩ := Covers.run_walk (w := n.inTurn) h.target_ne
      Target.noConfusion h.code_native h.respects (h.covers s) hwalk
    rw [← onEdges_inTurn h.grown_native.target_eq,
      execute_onEdges Target.noConfusion (h.phisApart hlead hapart), execute_of_head? hhead, hwalk']
    exact congrArg (Prod.mk _) hstorage
  · rw [hwalk] at hrun
    cases hrun

end Paired

/-- **Phis in turn do what phis on the edge do**, if they stand at the head of their blocks and none
takes, on an edge, the register of a phi before it. A unit that is built for the interpreter and
accepted by it then has the same runs under both rules, faults included. The native unit that is
built by the same operations comes to the same results. -/
theorem run_eq_onEdges (name : String) (ops : List Operation)
    (howned : (new .interpreter name).Owns ops) (hclose : .close ∉ ops)
    {u v : CodeUnit} (hbuild : (new .interpreter name).build ops = .ok u)
    (hcompile : u.compile = .ok v) (hlead : u.PhisLead) (hapart : u.PhisApart) :
    (∀ budget s,
      u.onEdges.execute budget s = ((u.run budget s).result, (u.run budget s).storage)) ∧
    ∃ n, (new .native name).build (ops.filter (· ≠ .compile)) = .ok n ∧
      ∀ budget s x, (u.run budget s).result = .ok x →
        n.execute budget s = (.ok x, (u.run budget s).storage) := by
  obtain ⟨n, names, log, hnative, hpaired⟩ := (paired_new name).build howned hclose hbuild
  have hrun : ∀ budget s, ((u.run budget s).result, (u.run budget s).storage) =
      u.execute budget s := by
    intro budget s
    have hfrozen := Frozen.of_compile hcompile
    rcases hcompiled : u.compiled with - | -
    · rw [← hfrozen.execute_eq hpaired.orderly hpaired.target_ne]
      simp [run, hcompiled, hcompile]
    · rw [run_of_compiled hcompiled]
  refine ⟨fun budget s ↦ ?_, n, hnative, fun budget s x hx ↦ ?_⟩
  · rw [hrun]
    exact execute_onEdges hpaired.target_ne hapart budget s
  · refine hpaired.execute hlead hapart ?_
    rw [← hrun, hx]

/-- Counts a slot down to zero, and returns what it was before the last step. -/
def countdown : List Operation :=
  [.value (.load 0 "x"), .appendBlock "body", .appendBlock "head", .appendBlock "exit",
    .exit (.jump 2), .moveTo 1, .value (.load 0 "x"), .value (.const 1.0),
    .value (.arith .sub 1 2), .store 0 "x" 3, .exit (.jump 2), .moveTo 2,
    .value (.phi [(0, 0), (3, 1)]), .value (.phi [(0, 0), (1, 1)]), .value (.truth 4),
    .exit (.branch 6 1 3), .moveTo 3, .exit (.ret 5)]

/-- A loop that is run twice, with two phis at its head of which neither takes the register of the
other. -/
theorem run_eq_onEdges_countdown :
    (new .interpreter "calc_0").Owns countdown ∧ .close ∉ countdown ∧
      ∃ u v n w, (new .interpreter "calc_0").build countdown = .ok u ∧ u.compile = .ok v ∧
        u.PhisLead ∧ u.PhisApart ∧ u.onEdges.execute 9 [2.0] = (.ok 1.0, [0.0]) ∧
        (new .native "calc_0").build (countdown.filter (· ≠ .compile)) = .ok n ∧ n.compile = .ok w ∧
        n.execute 9 [2.0] = (.ok 1.0, [0.0]) := by
  have howned : (new .interpreter "calc_0").Owns countdown := by decide
  have hclose : Operation.close ∉ countdown := by decide
  have hbuild : (new .interpreter "calc_0").build countdown =
      .ok ((new .interpreter "calc_0").after countdown) := rfl
  have hcompile : ((new .interpreter "calc_0").after countdown).compile =
      .ok { (new .interpreter "calc_0").after countdown with compiled := true } := rfl
  have hlead : ((new .interpreter "calc_0").after countdown).PhisLead := by decide +kernel
  have hapart : ((new .interpreter "calc_0").after countdown).PhisApart := by decide +kernel
  have hrun : (((new .interpreter "calc_0").after countdown).run 9 [2.0]).result = .ok 1.0 := by
    decide +kernel
  have hstorage : (((new .interpreter "calc_0").after countdown).run 9 [2.0]).storage = [0.0] := by
    decide +kernel
  have hnative : (new .native "calc_0").build (countdown.filter (· ≠ .compile)) =
      .ok ((new .native "calc_0").after countdown) := rfl
  have hcompile_native : ((new .native "calc_0").after countdown).compile =
      .ok { (new .native "calc_0").after countdown with compiled := true } := rfl
  obtain ⟨hedges, n, hn, hruns⟩ :=
    run_eq_onEdges "calc_0" countdown howned hclose hbuild hcompile hlead hapart
  obtain rfl := Except.ok.inj (hn.symm.trans hnative)
  refine ⟨howned, hclose, _, _, _, _, hbuild, hcompile, hlead, hapart, ?_, hnative,
    hcompile_native, ?_⟩
  · rw [hedges, hrun, hstorage]
  · rw [hruns 9 [2.0] 1.0 hrun, hstorage]

/-- Returns the old value of a phi through a second one, in a loop that is run twice. -/
def delay : List Operation :=
  [.value (.const 0.0), .value (.const 1.0), .value (.const 2.0), .appendBlock "loop",
    .appendBlock "exit", .exit (.jump 1), .moveTo 1, .value (.phi [(0, 0), (1, 1)]),
    .value (.phi [(2, 0), (3, 1)]), .value (.truth 3), .exit (.branch 5 2 1), .moveTo 2,
    .exit (.ret 4)]

/-- The second phi takes the register of the first. In turn it sees the new value, on the edge the
old one. -/
theorem phis_in_turn :
    (new .interpreter "calc_0").Owns delay ∧ .close ∉ delay ∧
      ∃ u v n w, (new .interpreter "calc_0").build delay = .ok u ∧ u.compile = .ok v ∧
        u.PhisLead ∧ ¬u.PhisApart ∧
        (u.run 9 []).result = .ok 1.0 ∧ u.onEdges.execute 9 [] = (.ok 0.0, []) ∧
        (new .native "calc_0").build (delay.filter (· ≠ .compile)) = .ok n ∧ n.compile = .ok w ∧
        n.execute 9 [] = (.ok 0.0, []) := by
  refine ⟨by decide, by decide, (new .interpreter "calc_0").after delay,
    { (new .interpreter "calc_0").after delay with compiled := true },
    (new .native "calc_0").after delay,
    { (new .native "calc_0").after delay with compiled := true },
    rfl, rfl, ?_, ?_, ?_, ?_, rfl, rfl, ?_⟩
  · decide +kernel
  · decide +kernel
  · decide +kernel
  · decide +kernel
  · decide +kernel

end CodeUnit

end Reckoner
