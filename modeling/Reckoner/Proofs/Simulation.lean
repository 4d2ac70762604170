import Reckoner.Proofs.Blocks
import Reckoner.Proofs.Emission
import Reckoner.Proofs.Instructions
import Mathlib.Data.List.Pairwise

/-!
# Running the code of an expression

A run of a unit that holds the code of an accepted tree computes the value of the tree, and changes
the storage as the evaluation of the tree does (`Scoped.simulated`).

A *point* of a run is a place in the unit's code, together with the contents of the registers and of
the storage. The place is given by what is still ahead in the log of the unit: the rest of the
current block is the part of that which goes into the block. One point reaches another if running on
from the one is running on from the other, but for a number of blocks that are entered between them.
The code of a tree leads from the point before it to the point behind it, whatever comes then; the
proof is by induction on the tree, and the points of subtrees follow each other.

The code of native units is the same but for the constants, which are in their registers from the
start. Since every register is computed once, they stay there.
-/

namespace Reckoner

/-- Values kept in the slots of names. -/
def Memory.bySlot (slots : String → Slot) : Memory Storage where
  read s x := s.read (slots x)
  write s x v := s.write (slots x) v

/-! ### Registers -/

theorem Registers.lookup_cons (rs : Registers) (r q : Register) (v : Scalar) :
    List.lookup q ((r, v) :: rs) = if q = r then some v else rs.lookup q := by
  rw [List.lookup_cons]
  by_cases hq : q = r
  · rw [if_pos hq, beq_iff_eq.2 hq]
  · rw [if_neg hq, beq_eq_false_iff_ne.2 hq]

theorem Registers.lookup_map_set (rs : Registers) (r q : Register) (v : Scalar) :
    (rs.map fun e ↦ if e.1 = r then (r, v) else e).lookup q =
      if q = r then (rs.lookup q).map fun _ ↦ v else rs.lookup q := by
  induction rs with
  | nil => simp
  | cons e rs ih =>
    obtain ⟨r', w⟩ := e
    rw [List.map_cons, lookup_cons]
    by_cases hr : r' = r
    · subst hr
      rw [if_pos rfl, lookup_cons, ih]
      by_cases hq : q = r' <;> simp [hq]
    · rw [if_neg hr, lookup_cons, ih]
      by_cases hq : q = r
      · subst hq
        simp [Ne.symm hr]
      · simp [hq]

/-- A register that has been changed holds the new value, and all others hold what they did. -/
theorem Registers.lookup_set (rs : Registers) (r q : Register) (v : Scalar) :
    List.lookup q (rs.set r v) = if q = r then some v else rs.lookup q := by
  rw [Registers.set]
  by_cases hr : (rs.lookup r).isSome = true
  · rw [if_pos hr, lookup_map_set]
    by_cases hq : q = r
    · obtain ⟨w, hw⟩ := Option.isSome_iff_exists.1 hr
      simp [hq, hw]
    · simp [hq]
  · rw [if_neg hr, lookup_cons]

/-! ### What is ahead -/

/-- The rest of a log, when the blocks from `n` on have not been written into before. -/
structure Ahead (log rest : Log) (n : Nat) : Prop where
  suffix : rest <:+ log
  fresh : ∀ q : Nat, n ≤ q → log.code q = rest.code q

namespace Ahead

variable {log log' rest : Log} {n n' : Nat} {l : Label} {i : Instr}

/-- What is next stands in the log. -/
theorem mem (h : Ahead log ((l, i) :: rest) n) : (l, i) ∈ log :=
  h.suffix.mem List.mem_cons_self

theorem mono (h : Ahead log rest n) (hn : n ≤ n') : Ahead log rest n' :=
  ⟨h.suffix, fun q hq ↦ h.fresh q (Nat.le_trans hn hq)⟩

/-- A part of the log is passed that goes only into blocks before `n'`. -/
theorem skip (h : Ahead log (log' ++ rest) n) (hn : n ≤ n')
    (hlog : ∀ q : Nat, n' ≤ q → log'.code q = []) : Ahead log rest n' where
  suffix := (List.suffix_append log' rest).trans h.suffix
  fresh := fun q hq ↦ by
    rw [h.fresh q (Nat.le_trans hn hq), Log.code_append, hlog q hq, List.nil_append]

/-- One instruction is passed. -/
theorem tail (h : Ahead log ((l, i) :: rest) n) (hl : l < n) : Ahead log rest n := by
  have h' : Ahead log ([(l, i)] ++ rest) n := h
  refine h'.skip (Nat.le_refl n) fun q hq ↦ ?_
  rw [Log.code_cons, if_neg (Nat.ne_of_lt (Nat.lt_of_lt_of_le hl hq)), Log.code_nil]

end Ahead

/-! ### Units that hold a log -/

/-- In a log that computes every register once, a register is computed in one way. -/
theorem Log.computation_unique {log : Log} (h : log.results.Nodup) {l l' : Label} {r : Register}
    {c c' : Computation} (hc : (l, .compute r c) ∈ log) (hc' : (l', .compute r c') ∈ log) :
    c = c' := by
  have hpair := List.pairwise_filterMap.1 h
  have : Std.Symm fun i i' : Label × Instr ↦
      ∀ b, i.2.result? = some b → ∀ b', i'.2.result? = some b' → b ≠ b' :=
    ⟨fun _ _ hne b hb b' hb' ↦ (hne b' hb' b hb).symm⟩
  by_contra hne
  have hdistinct := hpair.forall hc hc' fun heq ↦ hne (by cases heq; rfl)
  exact hdistinct r rfl r rfl rfl

/-- The constants of a log are its computations of constants. -/
theorem Log.mem_constants {log : Log} {r : Register} {x : Float} :
    (r, x) ∈ log.constants ↔ ∃ l, (l, .compute r (.const x)) ∈ log := by
  simp only [constants, List.mem_filterMap]
  constructor
  · rintro ⟨⟨l, i⟩, hmem, hi⟩
    cases i with
    | compute r' c =>
      cases c with
      | const y =>
        cases hi
        exact ⟨l, hmem⟩
      | _ => cases hi
    | _ => cases hi
  · rintro ⟨l, hmem⟩
    exact ⟨_, hmem, rfl⟩

/-- A register that is written once holds one constant. -/
theorem Log.constant_unique {log : Log} (h : log.results.Nodup) {r : Register} {x y : Float}
    (hx : (r, x) ∈ log.constants) (hy : (r, y) ∈ log.constants) : x = y := by
  obtain ⟨l, hl⟩ := mem_constants.1 hx
  obtain ⟨l', hl'⟩ := mem_constants.1 hy
  cases computation_unique h hl hl'
  rfl

/-- The unit holds the code of a log, in which every register is computed once and every phi is at
the head of its block. -/
structure CodeUnit.Holds (u : CodeUnit) (log : Log) : Prop where
  code_eq : ∀ l, (u.block l).code = (log.code l).filter u.target.keeps
  constants_eq : u.constants = if u.target = .native then log.constants else []
  results_nodup : log.results.Nodup
  headed : ∀ l, Headed (log.code l)

namespace Machine

variable {u : CodeUnit} {log rest rest' : Log} {source : Option Label} {l l' : Label}
  {r : Register} {c : Computation} {m : Machine} {budget : Nat}

/-- The constants of a native unit are in their registers. -/
def Loaded (u : CodeUnit) (m : Machine) : Prop :=
  ∀ k ∈ u.constants, m.registers.lookup k.1 = some (.real k.2)

/-- A unit that has one constant for a register starts with it there. -/
theorem loaded_of_unique (h : ∀ r x y, (r, x) ∈ u.constants → (r, y) ∈ u.constants → x = y)
    (s : Storage) : Loaded u ⟨u.initialRegisters, s⟩ := by
  rintro ⟨r, x⟩ hx
  have hsome : (u.initialRegisters.lookup r).isSome = true := by
    rw [List.lookup_isSome_iff]
    exact ⟨_, List.mem_map_of_mem hx, beq_self_eq_true r⟩
  obtain ⟨v, hv⟩ := Option.isSome_iff_exists.1 hsome
  obtain ⟨l₁, l₂, hl, -⟩ := List.lookup_eq_some_iff.1 hv
  obtain ⟨⟨r', y⟩, hy, heq⟩ : ∃ k ∈ u.constants, (k.1, Scalar.real k.2) = (r, v) :=
    List.mem_map.1 (show (r, v) ∈ u.initialRegisters by simp [hl])
  cases heq
  -- what is found under the number of the register is the only constant of that number
  obtain rfl : x = y := h r' x y hx hy
  exact hv

/-- The state `m'` is the state `m` with a value put into a register. -/
structure Assigned (u : CodeUnit) (r : Register) (v : Scalar) (m m' : Machine) : Prop where
  loaded : m'.Loaded u
  storage_eq : m'.storage = m.storage
  lookup_self : m'.registers.lookup r = some v
  lookup_of_ne : ∀ q ≠ r, m'.registers.lookup q = m.registers.lookup q

theorem run_read {v : Scalar} (h : m.registers.lookup r = some v) :
    (Machine.read r).run m = .ok v m := by
  simp [Machine.read, h]

theorem run_readFloat {x : Float} (h : m.registers.lookup r = some (.real x)) :
    (readFloat r).run m = .ok x m := by
  simp [readFloat, run_read h, inRange, Scalar.toFloat]

/-! ### Phis on the edge -/

/-- Code without phis has none to split off. -/
theorem splitPhis_of_forall {code : List Instr} (h : ∀ i ∈ code, i.isPhi = false) :
    splitPhis code = ([], code) := by
  rcases code with - | ⟨i, code⟩
  · rfl
  · have hi := h i List.mem_cons_self
    cases i with
    | compute r c =>
      cases c with
      | phi => cases hi
      | _ => rfl
    | store => rfl
    | exit => rfl

/-- At the head of a block it does not matter when a phi takes its value. -/
theorem execOnEdge_eq {code : List Instr} (h : Headed code) :
    execOnEdge u source code = exec u source code := by
  by_cases hphi : ∃ r incoming rest, code = .compute r (.phi incoming) :: rest
  · obtain ⟨r, incoming, rest, rfl⟩ := hphi
    have hrest : ∀ i ∈ rest, i.isPhi = false := h
    have hsplit : splitPhis (.compute r (.phi incoming) :: rest) = ([(r, incoming)], rest) := by
      rw [splitPhis, splitPhis_of_forall hrest]
    rw [execOnEdge, hsplit]
    simp only [edgeValues, exec, compute, write, bind_assoc, pure_bind, List.foldl_cons,
      List.foldl_nil]
  · have hsplit : splitPhis code = ([], code) := by
      refine splitPhis_of_forall fun i hi ↦ ?_
      rcases code with - | ⟨j, code⟩
      · cases hi
      · rcases List.mem_cons.1 hi with rfl | hi
        · by_contra hj
          cases i with
          | compute r c =>
            cases c with
            | phi incoming => exact hphi ⟨r, incoming, code, rfl⟩
            | _ => exact hj rfl
          | _ => exact hj rfl
        · exact h i hi
    rw [execOnEdge, hsplit]
    rfl

/-- Leaving out instructions that are no phis leaves a phi at the head of its block. -/
theorem headed_filter {code : List Instr} (h : Headed code) (t : Target) :
    Headed (code.filter t.keeps) := by
  rcases code with - | ⟨i, code⟩
  · exact h
  · have hrest : ∀ j ∈ code.filter t.keeps, j.isPhi = false :=
      fun j hj ↦ h j (List.mem_of_mem_filter hj)
    rw [List.filter_cons]
    split
    · exact hrest
    · exact headed_of_forall hrest

/-- With at most one phi, at its head, a block is run instruction by instruction on every target. -/
theorem execBlock_eq (hu : u.Holds log) (source : Option Label) (l : Label) :
    execBlock u source l = exec u source ((log.code l).filter u.target.keeps) := by
  have hcode := hu.code_eq l
  rw [execBlock, hcode]
  split
  · exact execOnEdge_eq (headed_filter (hu.headed l) _)
  all_goals rfl

/-! ### Points -/

/-- Goes on with a run in the middle of a block, of which some code is left. -/
def resume (u : CodeUnit) (budget : Nat) (source : Option Label) (l : Label) (code : List Instr) :
    Run Float := do
  match ← exec u source code with
  | some (.done x) => return x
  | some (.enter next) => walk u budget (some l) next
  | none => walk u budget source l

end Machine

/-- A point of a run: where control came from, the current block, what is ahead in the log, and the
state of the machine. -/
structure Point where
  source : Option Label
  block : Label
  rest : Log
  machine : Machine

namespace Point

open Machine

variable {u : CodeUnit} {log rest rest' : Log} {source : Option Label} {l l' : Label}
  {r : Register} {c : Computation} {m : Machine} {p p' p'' : Point} {k k' n : Nat}

/-- Goes on with a run from a point. -/
def run (u : CodeUnit) (budget : Nat) (p : Point) : EStateM.Result CodeFault Machine Float :=
  (resume u budget p.source p.block ((p.rest.code p.block).filter u.target.keeps)).run p.machine

/-- Going on from a point leads to another point, and `k` blocks are entered on the way. -/
def Reaches (u : CodeUnit) (k : Nat) (p p' : Point) : Prop :=
  ∀ budget, p.run u (budget + k) = p'.run u budget

/-- Blocks that are entered on the way add up. -/
theorem Reaches.trans (h : Reaches u k p p') (h' : Reaches u k' p' p'') :
    Reaches u (k + k') p p'' := by
  intro budget
  rw [Nat.add_comm k, ← Nat.add_assoc, h, h']

/-- A value that is computed is in its register from then on. A constant of a native unit has been
there from the start. -/
theorem reaches_compute (source : Option Label) (hu : u.Holds log)
    (hahead : Ahead log ((l, .compute r c) :: rest) n) (hm : m.Loaded u) {v : Scalar}
    (hc : (compute u source c).run m = .ok v m) :
    ∃ m', Reaches u 0 ⟨source, l, (l, .compute r c) :: rest, m⟩ ⟨source, l, rest, m'⟩ ∧
      Assigned u r v m m' := by
  by_cases hk : u.target.keeps (.compute r c) = true
  · refine ⟨{ m with registers := m.registers.set r v }, fun budget ↦ ?_, ?_, rfl, ?_,
      fun q hq ↦ ?_⟩
    · simp only [run, Log.code_cons, if_pos, List.filter_cons_of_pos hk, resume, exec, write,
        EStateM.run_bind, hc, EStateM.run_modify, Nat.add_zero]
    · rintro ⟨r', x⟩ hx
      rw [Registers.lookup_set, if_neg]
      · exact hm _ hx
      · -- the only computation of this register is none of a constant
        rintro rfl
        rw [hu.constants_eq] at hx
        split at hx
        · rename_i hnative
          obtain ⟨l', hl'⟩ := Log.mem_constants.1 hx
          rw [Log.computation_unique hu.results_nodup hahead.mem hl', hnative] at hk
          cases hk
        · cases hx
    · rw [Registers.lookup_set, if_pos rfl]
    · rw [Registers.lookup_set, if_neg hq]
  · have hnative : u.target = .native := by
      by_contra hne
      exact hk (Target.keeps_of_ne_native hne _)
    obtain ⟨x, rfl⟩ : ∃ x, c = .const x := by
      rw [hnative] at hk
      cases c with
      | const x => exact ⟨x, rfl⟩
      | _ => exact absurd rfl hk
    cases hc
    have hx : (r, x) ∈ u.constants := by
      rw [hu.constants_eq, if_pos hnative]
      exact Log.mem_constants.2 ⟨l, hahead.mem⟩
    refine ⟨m, fun budget ↦ ?_, hm, rfl, hm _ hx, fun q _ ↦ rfl⟩
    simp only [run, Log.code_cons, if_pos, List.filter_cons_of_neg hk, Nat.add_zero]

theorem keeps_exit (t : Target) (x : Exit) : t.keeps (.exit x) = true := by
  cases t <;> rfl

/-- A store goes on behind it, with the storage changed. -/
theorem reaches_store (u : CodeUnit) (source : Option Label) (l : Label) (slot : Slot) (x : String)
    (rest : Log) {v : Float} (hr : m.registers.lookup r = some (.real v)) :
    Reaches u 0 ⟨source, l, (l, .store slot x r) :: rest, m⟩
      ⟨source, l, rest, { m with storage := m.storage.write slot v }⟩ := by
  intro budget
  have hk : u.target.keeps (.store slot x r) = true := by cases u.target <;> rfl
  simp only [run, Log.code_cons, if_pos, List.filter_cons_of_pos hk, resume, exec, EStateM.run_bind,
    run_readFloat hr, EStateM.run_modify, Nat.add_zero]

/-- Entering a block of which everything is still ahead. -/
theorem run_walk (hu : u.Holds log) (h : log.code l = rest.code l) (budget : Nat)
    (source : Option Label) (m : Machine) :
    (walk u (budget + 1) source l).run m = run u budget ⟨source, l, rest, m⟩ := by
  rw [walk, execBlock_eq hu, h]
  rfl

/-- A jump enters its block. -/
theorem reaches_jump (hu : u.Holds log) (h : log.code l' = rest'.code l') :
    Reaches u 1 ⟨source, l, (l, .exit (.jump l')) :: rest, m⟩ ⟨some l, l', rest', m⟩ := by
  intro budget
  rw [← run_walk hu h]
  simp only [run, Log.code_cons, if_pos, List.filter_cons_of_pos (keeps_exit _ _), resume, exec,
    leave, pure_bind]

/-- A branch enters the block that its register decides on. -/
theorem reaches_branch (hu : u.Holds log) {t e : Label} {b : Bool}
    (hr : m.registers.lookup r = some (.ofBool b))
    (h : log.code (if b then t else e) = rest'.code (if b then t else e)) :
    Reaches u 1 ⟨source, l, (l, .exit (.branch r t e)) :: rest, m⟩
      ⟨some l, if b then t else e, rest', m⟩ := by
  intro budget
  rw [← run_walk hu h]
  have hb : (Scalar.ofBool b).isNonzero = b := by cases b <;> rfl
  simp only [run, Log.code_cons, if_pos, List.filter_cons_of_pos (keeps_exit _ _), resume, exec,
    leave, EStateM.run_bind, run_read hr, EStateM.run_pure, hb]

/-- A return ends the run with the value of its register. -/
theorem run_ret {v : Float} (hr : m.registers.lookup r = some (.real v)) (budget : Nat) :
    run u budget ⟨source, l, (l, .exit (.ret r)) :: rest, m⟩ = .ok v m := by
  simp only [run, Log.code_cons, if_pos, List.filter_cons_of_pos (keeps_exit _ _), resume, exec,
    leave, EStateM.run_bind, run_readFloat hr, EStateM.run_pure]

end Point

/-! ### Values of single instructions -/

theorem Arithmetic.apply_real (op : Arithmetic) (x y : Float) :
    op.apply (.real x) (.real y) = .ok (.real (op.onFloats x y)) := by
  cases op <;> rfl

namespace Machine

variable {u : CodeUnit} {source : Option Label} {r₁ r₂ : Register} {m : Machine} {x y : Float}

/-- An operation on two registers computes what it does on doubles. -/
theorem run_arith (op : Arithmetic) (hx : m.registers.lookup r₁ = some (.real x))
    (hy : m.registers.lookup r₂ = some (.real y)) :
    (compute u source (.arith op r₁ r₂)).run m = .ok (.real (op.onFloats x y)) m := by
  simp only [compute, EStateM.run_bind, run_read hx, run_read hy, Target.apply_eq,
    Arithmetic.apply_real]
  rfl

/-- A comparison computes one or zero. -/
theorem run_compare (op : Comparison) (hx : m.registers.lookup r₁ = some (.real x))
    (hy : m.registers.lookup r₂ = some (.real y)) :
    (compute u source (.compare op r₁ r₂)).run m =
      .ok (.real (if op.onFloats x y then 1.0 else 0.0)) m := by
  simp only [compute, EStateM.run_bind, run_read hx, run_read hy, Target.compare_eq]
  rfl

/-- A supported operator computes what it means. -/
theorem run_computation {op : Kind} {f : Float → Float → Float} (hop : op.meaning? = some f)
    (hx : m.registers.lookup r₁ = some (.real x)) (hy : m.registers.lookup r₂ = some (.real y)) :
    (compute u source (op.computation r₁ r₂)).run m = .ok (.real (f x y)) m := by
  cases op <;> cases hop
  case plus => exact run_arith .add hx hy
  case minus => exact run_arith .sub hx hy
  case star => exact run_arith .mul hx hy
  case slash =>
    refine (run_arith .div hx hy).trans ?_
    rw [Arithmetic.onFloats, divide_eq_div]
  case less =>
    refine (run_compare .lt hx hy).trans ?_
    simp [Comparison.onFloats]
  case greater =>
    refine (run_compare .gt hx hy).trans ?_
    simp [Comparison.onFloats]
  case equal => exact run_compare .eq hx hy

/-- The truth of a value, as it is tested. -/
theorem run_truth (hx : m.registers.lookup r₁ = some (.real x)) :
    (compute u source (.truth r₁)).run m = .ok (.ofBool !(x.abs < 1.0)) m := by
  simp only [compute, EStateM.run_bind, run_read hx, Target.truth_eq]
  rfl

/-- A phi for two blocks takes the register that belongs to the block control has come from. -/
theorem run_phi {l₁ l₂ : Label} (hne : l₁ ≠ l₂) {first : Bool} {v : Scalar}
    (hv : m.registers.lookup (if first then r₁ else r₂) = some v) :
    (compute u (some (if first then l₁ else l₂)) (.phi [(r₁, l₁), (r₂, l₂)])).run m = .ok v m := by
  cases first
  · simp only [compute, choose, List.find?_cons, Bool.false_eq_true, if_false, Option.some.injEq,
      hne, decide_false, decide_true, pure_bind]
    exact run_read hv
  · simp only [compute, choose, List.find?_cons, if_true, decide_true, pure_bind]
    exact run_read hv

end Machine

namespace Expr

open Machine Point

variable {a b c t e : Expr} {names names₁ names₂ names₃ : List String} {slots : String → Slot}
  {u : CodeUnit} {log rest : Log} {r : Register} {l n : Nat} {m m' m'' : Machine}

theorem Scoped.ahead (h : e.Scoped names names₁) (hl : l < n)
    (hahead : Ahead log (e.code slots r l n ++ rest) n) : Ahead log rest (n + e.blockCount) := by
  refine hahead.skip (Nat.le_add_right _ _) fun q hq ↦ h.code_eq_nil slots r ?_
  simp only [InRegion]
  omega

/-! ### Values of trees -/

/-- The state `m'` of the machine is the state `m` with the value of a tree computed, into the last
of its registers, which are numbered from `r` on. -/
structure Computed (u : CodeUnit) (slots : String → Slot) (e : Expr) (r : Register)
    (m m' : Machine) : Prop where
  loaded : m'.Loaded u
  lookup_eq : ∀ q < r, m'.registers.lookup q = m.registers.lookup q
  result_eq : m'.registers.lookup (e.result r) =
    some (.real (e.eval (.bySlot slots) m.storage).1)
  storage_eq : m'.storage = (e.eval (.bySlot slots) m.storage).2

/-- The code of a tree computes its value, wherever it stands in the log of a unit. -/
def Simulated (u : CodeUnit) (log : Log) (slots : String → Slot) (e : Expr) : Prop :=
  ∀ (rest : Log) (r : Register) (l n : Nat) (source : Option Label) (m : Machine),
    Ahead log (e.code slots r l n ++ rest) n → l < n → m.Loaded u →
    ∃ k source' m', k ≤ e.blockCount ∧
      Reaches u k ⟨source, l, e.code slots r l n ++ rest, m⟩
        ⟨source', e.endBlock l n, rest, m'⟩ ∧
      e.Computed u slots r m m'

/-- The sign of a number: what is computed is multiplied by minus one. -/
theorem Simulated.minus (hu : u.Holds log) (hs : e.Scoped names names₁)
    (h : e.Simulated u log slots) : (unary .minus e).Simulated u log slots := by
  intro rest r l n source m hahead hl hm
  have hlog : (unary .minus e).code slots r l n ++ rest = e.code slots r l n ++
      ((e.endBlock l n, .compute (r + e.registerCount) (.const (-1.0))) ::
        (e.endBlock l n, .compute (r + e.registerCount + 1)
          (.arith .mul (e.result r) (r + e.registerCount))) :: rest) :=
    List.append_assoc ..
  rw [hlog] at hahead ⊢
  obtain ⟨k, source', m₁, hk, hreach₁, he⟩ := h _ r l n source m hahead hl hm
  have hahead₁ := hs.ahead hl hahead
  have hc₁ : (compute u source' (.const (-1.0))).run m₁ = .ok (.real (-1.0)) m₁ := rfl
  obtain ⟨m₂, hreach₂, hm₂⟩ := reaches_compute source' hu hahead₁ he.loaded hc₁
  have hahead₂ := hahead₁.tail (hs.endBlock_lt hl)
  have hvalue := (hm₂.lookup_of_ne _ (Nat.ne_of_lt (hs.result_lt r))).trans he.result_eq
  obtain ⟨m₃, hreach₃, hm₃⟩ := reaches_compute source' hu hahead₂ hm₂.loaded
    (run_arith .mul hvalue hm₂.lookup_self)
  refine ⟨k, source', m₃, hk, (hreach₁.trans hreach₂).trans hreach₃, hm₃.loaded, fun q hq ↦ ?_,
    hm₃.lookup_self, ?_⟩
  · have hlt : q < r + e.registerCount := Nat.lt_add_right _ hq
    rw [hm₃.lookup_of_ne q (Nat.ne_of_lt (Nat.lt_succ_of_lt hlt)),
      hm₂.lookup_of_ne q (Nat.ne_of_lt hlt), he.lookup_eq q hq]
  · rw [hm₃.storage_eq, hm₂.storage_eq, he.storage_eq]
    rfl

/-- The left operand of an operator is computed first, and its register is left alone by the right
one. -/
theorem Simulated.operator (hu : u.Holds log) {op : Kind} {f : Float → Float → Float}
    (hop : op.meaning? = some f) (hsa : a.Scoped names names₁) (hsb : b.Scoped names₁ names₂)
    (ha : a.Simulated u log slots) (hb : b.Simulated u log slots) :
    (binary op a b).Simulated u log slots := by
  intro rest r l n source m hahead hl hm
  rw [code_operator hop, endBlock_operator hop, List.append_assoc, List.append_assoc] at hahead ⊢
  obtain ⟨k₁, source₁, m₁, hk₁, hreach₁, ha⟩ := ha _ r l n source m hahead hl hm
  have hahead₁ := hsa.ahead hl hahead
  have hl₁ : a.endBlock l n < n + a.blockCount := hsa.endBlock_lt hl
  obtain ⟨k₂, source₂, m₂, hk₂, hreach₂, hb⟩ :=
    hb _ (r + a.registerCount) _ _ source₁ m₁ hahead₁ hl₁ ha.loaded
  have hahead₂ := hsb.ahead hl₁ hahead₁
  -- the value of the first operand is still in its register
  have hx := (hb.lookup_eq _ (hsa.result_lt r)).trans ha.result_eq
  obtain ⟨m₃, hreach₃, hm₃⟩ := reaches_compute source₂ hu hahead₂ hb.loaded
    (run_computation hop hx hb.result_eq)
  refine ⟨k₁ + k₂, source₂, m₃, ?_, (hreach₁.trans hreach₂).trans hreach₃, hm₃.loaded,
    fun q hq ↦ ?_, ?_, ?_⟩
  · rw [blockCount_operator hop]
    exact Nat.add_le_add hk₁ hk₂
  · have hlt : q < r + a.registerCount := Nat.lt_add_right _ hq
    rw [hm₃.lookup_of_ne q (Nat.ne_of_lt (Nat.lt_add_right _ hlt)), hb.lookup_eq q hlt,
      ha.lookup_eq q hq]
  · rw [result_operator hop, hm₃.lookup_self]
    simp only [eval, hop, ha.storage_eq]
  · rw [hm₃.storage_eq, hb.storage_eq, ha.storage_eq]
    simp only [eval, hop]

/-- An assignment computes its value and then stores it. -/
theorem Simulated.assign (hu : u.Holds log) (x : String) (hs : e.Scoped names names₁)
    (h : e.Simulated u log slots) : (binary .assign (name x) e).Simulated u log slots := by
  intro rest r l n source m hahead hl hm
  have hlog : (binary .assign (name x) e).code slots r l n ++ rest = e.code slots r l n ++
      ((e.endBlock l n, .store (slots x) x (e.result r)) ::
        (e.endBlock l n, .compute (r + e.registerCount) (.load (slots x) x)) :: rest) :=
    List.append_assoc ..
  rw [hlog] at hahead ⊢
  obtain ⟨k, source', m₁, hk, hreach₁, he⟩ := h _ r l n source m hahead hl hm
  have hahead₁ := (hs.ahead hl hahead).tail (hs.endBlock_lt hl)
  have hreach₂ := reaches_store u source' (e.endBlock l n) (slots x) x
    ((e.endBlock l n, .compute (r + e.registerCount) (.load (slots x) x)) :: rest) he.result_eq
  obtain ⟨m₃, hreach₃, hm₃⟩ := reaches_compute source' hu hahead₁
    (show Loaded u { m₁ with storage := m₁.storage.write (slots x) _ } from he.loaded) rfl
  refine ⟨k, source', m₃, hk, (hreach₁.trans hreach₂).trans hreach₃, hm₃.loaded, fun q hq ↦ ?_, ?_,
    ?_⟩
  · rw [hm₃.lookup_of_ne q (Nat.ne_of_lt (Nat.lt_add_right _ hq))]
    exact he.lookup_eq q hq
  · rw [he.storage_eq] at hm₃
    exact hm₃.lookup_self
  · rw [hm₃.storage_eq, he.storage_eq]
    rfl

/-! ### Conditionals -/

/-- The code of an arm computes its value and goes on to the block `j`. -/
theorem Simulated.arm (hu : u.Holds log) (h : e.Simulated u log slots) {j : Label} {rest' : Log}
    (hahead : Ahead log (e.armCode slots r l n j ++ rest) n) (hl : l < n)
    (hj : log.code j = rest'.code j) (source : Option Label) (hm : m.Loaded u) :
    ∃ k m', k ≤ e.blockCount ∧
      Reaches u (k + 1) ⟨source, l, e.armCode slots r l n j ++ rest, m⟩
        ⟨some (e.endBlock l n), j, rest', m'⟩ ∧
      e.Computed u slots r m m' := by
  rw [armCode, List.append_assoc] at hahead ⊢
  obtain ⟨k, source', m', hk, hreach, he⟩ := h _ r l n source m hahead hl hm
  exact ⟨k, m', hk, hreach.trans (reaches_jump hu hj), he⟩

/-- The code of a test goes on to one of two blocks, as the value of the condition says. -/
theorem Simulated.test (hu : u.Holds log) (hs : c.Scoped names names₁) (h : c.Simulated u log slots)
    (hahead : Ahead log (c.testCode slots r l n ++ rest) n) (hl : l < n) (source : Option Label)
    (hm : m.Loaded u) {rest' : Log} {j : Label}
    (htarget : (if !((c.eval (.bySlot slots) m.storage).1.abs < 1.0) then n + c.blockCount
      else n + c.blockCount + 1) = j) (hj : log.code j = rest'.code j) :
    ∃ k m', k ≤ c.blockCount ∧
      Reaches u (k + 1) ⟨source, l, c.testCode slots r l n ++ rest, m⟩
        ⟨some (c.endBlock l n), j, rest', m'⟩ ∧
      m'.Loaded u ∧ (∀ q < r, m'.registers.lookup q = m.registers.lookup q) ∧
      m'.storage = (c.eval (.bySlot slots) m.storage).2 := by
  rw [testCode, List.append_assoc] at hahead ⊢
  obtain ⟨k, source', m₁, hk, hreach₁, hc⟩ := h _ r l n source m hahead hl hm
  obtain ⟨m₂, hreach₂, hm₂⟩ := reaches_compute source' hu (hs.ahead hl hahead) hc.loaded
    (run_truth hc.result_eq)
  subst htarget
  refine ⟨k, m₂, hk, (hreach₁.trans hreach₂).trans (reaches_branch hu hm₂.lookup_self hj),
    hm₂.loaded, fun q hq ↦ ?_, hm₂.storage_eq.trans hc.storage_eq⟩
  rw [hm₂.lookup_of_ne q (Nat.ne_of_lt (Nat.lt_add_right _ hq)), hc.lookup_eq q hq]

/-- The code of a conditional goes through its test and one of its arms to the block where the arms
meet. There the value is in the register of the arm that control has come from. -/
theorem Simulated.branch (hu : u.Holds log) (hsc : c.Scoped names names₁)
    (hst : t.Scoped names₁ names₂) (hc : c.Simulated u log slots) (ht : t.Simulated u log slots)
    (he : e.Simulated u log slots) {p : Nat} (hp : n + c.blockCount = p) (hl : l < n)
    (hahead : Ahead log (c.testCode slots r l n ++
      (t.armCode slots (r + c.registerCount + 1) p (p + 3) (p + 2) ++
      (e.armCode slots (r + c.registerCount + 1 + t.registerCount) (p + 1) (p + 3 + t.blockCount)
        (p + 2) ++ rest))) n)
    (hj : log.code (p + 2) = rest.code (p + 2)) (source : Option Label) (hm : m.Loaded u) :
    ∃ (first : Bool) (k : Nat) (m' : Machine),
      k ≤ c.blockCount + t.blockCount + e.blockCount + 2 ∧
      Reaches u k ⟨source, l, c.testCode slots r l n ++
        (t.armCode slots (r + c.registerCount + 1) p (p + 3) (p + 2) ++
        (e.armCode slots (r + c.registerCount + 1 + t.registerCount) (p + 1) (p + 3 + t.blockCount)
          (p + 2) ++ rest)), m⟩
        ⟨some (if first then t.endBlock p (p + 3) else e.endBlock (p + 1) (p + 3 + t.blockCount)),
          p + 2, rest, m'⟩ ∧
      m'.Loaded u ∧ (∀ q < r, m'.registers.lookup q = m.registers.lookup q) ∧
      m'.registers.lookup (if first then t.result (r + c.registerCount + 1)
        else e.result (r + c.registerCount + 1 + t.registerCount)) =
        some (.real ((conditional c t e).eval (.bySlot slots) m.storage).1) ∧
      m'.storage = ((conditional c t e).eval (.bySlot slots) m.storage).2 := by
  -- both arms are still ahead when the test is done
  have hahead₁ := hahead.skip (show n ≤ p by omega) fun q hq ↦
    hsc.testCode_eq_nil slots r (by simp only [InRegion]; omega)
  have hahead₂ := hahead₁.skip (show p ≤ p + 3 + t.blockCount by omega) fun q hq ↦
    hst.armCode_eq_nil slots _ (by simp only [InRegion]; omega)
  by_cases hx : (c.eval (.bySlot slots) m.storage).1.abs < 1.0
  · have hblock := hahead₁.fresh (p + 1) (Nat.le_succ p)
    rw [Log.code_append, hst.armCode_eq_nil slots _ (by simp only [InRegion]; omega),
      List.nil_append] at hblock
    obtain ⟨k₁, m₁, hk₁, hreach₁, hm₁, hlookup₁, hstorage₁⟩ :=
      hc.test hu hsc hahead hl source hm (by simp [hx, hp]) hblock
    obtain ⟨k₂, m₂, hk₂, hreach₂, he⟩ :=
      he.arm hu hahead₂ (show p + 1 < p + 3 + t.blockCount by omega) hj _ hm₁
    refine ⟨false, _, m₂, ?_, hreach₁.trans hreach₂, he.loaded, fun q hq ↦ ?_, ?_, ?_⟩
    · omega
    · have hlt : q < r + c.registerCount + 1 := Nat.lt_succ_of_lt (Nat.lt_add_right _ hq)
      rw [he.lookup_eq q (Nat.lt_add_right _ hlt), hlookup₁ q hq]
    · simpa [eval, hx, hstorage₁] using he.result_eq
    · simpa [eval, hx, hstorage₁] using he.storage_eq
  · have hblock := hahead₁.fresh p (Nat.le_refl p)
    obtain ⟨k₁, m₁, hk₁, hreach₁, hm₁, hlookup₁, hstorage₁⟩ :=
      hc.test hu hsc hahead hl source hm (by simp [hx, hp]) hblock
    obtain ⟨k₂, m₂, hk₂, hreach₂, ht⟩ :=
      ht.arm hu (hahead₁.mono (Nat.le_add_right p 3)) (show p < p + 3 by omega) hj _ hm₁
    refine ⟨true, _, m₂, ?_, hreach₁.trans hreach₂, ht.loaded, fun q hq ↦ ?_, ?_, ?_⟩
    · omega
    · have hlt : q < r + c.registerCount + 1 := Nat.lt_succ_of_lt (Nat.lt_add_right _ hq)
      rw [ht.lookup_eq q hlt, hlookup₁ q hq]
    · simpa [eval, hx, hstorage₁] using ht.result_eq
    · simpa [eval, hx, hstorage₁] using ht.storage_eq

/-- A conditional enters one of its arms, and takes the value that this arm has computed. -/
theorem Simulated.conditional (hu : u.Holds log) (hsc : c.Scoped names names₁)
    (hst : t.Scoped names₁ names₂) (hse : e.Scoped names₂ names₃) (hc : c.Simulated u log slots)
    (ht : t.Simulated u log slots) (he : e.Simulated u log slots) :
    (conditional c t e).Simulated u log slots := by
  intro rest r l n source m hahead hl hm
  obtain ⟨p, hp⟩ : ∃ p : Nat, n + c.blockCount = p := ⟨_, rfl⟩
  have hend : (Expr.conditional c t e).endBlock l n = p + 2 := hp ▸ rfl
  rw [code_conditional slots c t e r l n p hp, hend] at *
  simp only [List.append_assoc] at hahead ⊢
  -- nothing is written into the last block before the phi
  have hj := hahead.fresh (p + 2) (by omega)
  rw [Log.code_append, hsc.testCode_eq_nil slots r (by simp only [InRegion]; omega),
    Log.code_append, hst.armCode_eq_nil slots _ (by simp only [InRegion]; omega), Log.code_append,
    hse.armCode_eq_nil slots _ (by simp only [InRegion]; omega)] at hj
  obtain ⟨first, k, m₁, hk, hreach₁, hm₁, hlookup₁, hvalue₁, hstorage₁⟩ :=
    hc.branch hu hsc hst ht he hp hl hahead hj source hm
  have hahead₁ : Ahead log _ (p + 3 + t.blockCount + e.blockCount) :=
    ((hahead.skip (show n ≤ p by omega) fun q hq ↦
      hsc.testCode_eq_nil slots r (by simp only [InRegion]; omega)).skip
      (show p ≤ p + 3 + t.blockCount by omega) fun q hq ↦
      hst.armCode_eq_nil slots _ (by simp only [InRegion]; omega)).skip
      (show p + 3 + t.blockCount ≤ p + 3 + t.blockCount + e.blockCount by omega) fun q hq ↦
      hse.armCode_eq_nil slots _ (by simp only [InRegion]; omega)
  obtain ⟨m₂, hreach₂, hm₂⟩ :=
    reaches_compute _ hu hahead₁ hm₁ (run_phi (endBlock_ne hst hse p) hvalue₁)
  refine ⟨k, _, m₂, Nat.le_succ_of_le hk, hreach₁.trans hreach₂, hm₂.loaded, fun q hq ↦ ?_,
    hm₂.lookup_self, hm₂.storage_eq.trans hstorage₁⟩
  have hlt := Nat.lt_of_lt_of_le hq ((Scoped.conditional hsc hst hse).le_result r)
  rw [hm₂.lookup_of_ne q (Nat.ne_of_lt hlt), hlookup₁ q hq]

/-- **Running the code of an accepted tree computes its value.** -/
theorem Scoped.simulated (hu : u.Holds log) (slots : String → Slot) (h : e.Scoped names names₁) :
    e.Simulated u log slots := by
  induction h with
  | number | name =>
    intro rest r l n source m hahead hl hm
    obtain ⟨m', hreach, hm'⟩ := reaches_compute source hu hahead hm rfl
    exact ⟨0, source, m', Nat.le_refl 0, hreach, hm'.loaded,
      fun q hq ↦ hm'.lookup_of_ne q (Nat.ne_of_lt hq), hm'.lookup_self, hm'.storage_eq⟩
  | plus _ ih | group _ ih =>
    intro rest r l n source m hahead hl hm
    obtain ⟨k, source', m', hk, hreach, he⟩ := ih rest r l n source m hahead hl hm
    exact ⟨k, source', m', hk, hreach, he.loaded, he.lookup_eq, he.result_eq, he.storage_eq⟩
  | minus he ih => exact .minus hu he ih
  | operator hop ha hb iha ihb => exact .operator hu hop ha hb iha ihb
  | assign x he ih => exact .assign hu x he ih
  | conditional hc ht he ihc iht ihe => exact .conditional hu hc ht he ihc iht ihe

/-! ### Programs -/

/-- A run starts with the constants in their registers. -/
theorem loaded_initialRegisters (hu : u.Holds log) (s : Storage) :
    Loaded u ⟨u.initialRegisters, s⟩ := by
  refine loaded_of_unique (fun r x y hx hy ↦ ?_) s
  rw [hu.constants_eq] at hx hy
  split at hx
  · rename_i hnative
    rw [if_pos hnative] at hy
    exact Log.constant_unique hu.results_nodup hx hy
  · cases hx

/-- **Running a unit that holds the program of an accepted tree** returns the value of the tree. One
entry for each block is budget enough. -/
theorem Scoped.execute_eq (h : e.Scoped names names₁) (hu : u.Holds (e.program slots))
    (hlisted : u.listed = List.range u.blocks.length) (hlen : u.blocks.length = 1 + e.blockCount)
    {budget : Nat} (hbudget : u.blocks.length ≤ budget) (s : Storage) :
    u.execute budget s = (.ok (e.eval (.bySlot slots) s).1, (e.eval (.bySlot slots) s).2) := by
  have hahead : Ahead (e.program slots) (e.program slots) 1 :=
    ⟨List.suffix_refl _, fun _ _ ↦ rfl⟩
  obtain ⟨k, source, m, hk, hreach, he⟩ := h.simulated hu slots
    [(e.endBlock 0 1, .exit (.ret (e.result 0)))] 0 0 1 none ⟨u.initialRegisters, s⟩ hahead
    Nat.zero_lt_one (loaded_initialRegisters hu s)
  have hrun : (walk u budget none 0).run ⟨u.initialRegisters, s⟩ =
      .ok (e.eval (.bySlot slots) s).1 m := by
    obtain ⟨spare, rfl⟩ : ∃ spare, budget = spare + k + 1 := ⟨budget - 1 - k, by omega⟩
    rw [run_walk hu rfl]
    exact (hreach spare).trans (run_ret he.result_eq _)
  have hfirst : u.listed = 0 :: List.range' 1 e.blockCount := by
    rw [hlisted, hlen, List.range_eq_range', Nat.add_comm, List.range'_succ]
  simp only [CodeUnit.execute, hfirst, hrun, he.storage_eq]

end Expr

end Reckoner
