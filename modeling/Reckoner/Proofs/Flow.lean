import Reckoner.Proofs.Blocks
import Reckoner.Proofs.Instructions
import Reckoner.Proofs.Steps
import Mathlib.Data.List.Chain
import Mathlib.Logic.Relation

/-!
# The flow of control

Control goes from block to block along the edges that the exits give. Of the registers that an
instruction reads it is asked that they have been computed on **every** path from the first block;
of the registers that a phi reads, on every path through the block they belong to.

That is shown without looking at paths. Say for every block which registers are *live* at its start.
A log *supplies* its instructions if everything read is live at the start of the block or computed
before in the block, and whatever is live at the target of an exit is so at the exit
(`Log.Supplies`). Then what is live in a block has been computed on every path to it, by induction
on the path (`Log.Supplies.mem_produced`).

The order in which the blocks of a log are begun shows that there are no cycles: if nothing has been
written into the target of an exit by the time the exit is written, then an edge leads from a block
to one that is begun later (`Log.Supplies.first_lt`).
-/

namespace Reckoner

/-! ### What instructions read -/

/-- The registers a computation reads, those of a phi apart. -/
def Computation.operands : Computation → List Register
  | arith _ a b | compare _ a b => [a, b]
  | truth a => [a]
  | const _ | load _ _ | phi _ => []

/-- The registers an instruction reads, those of a phi apart. -/
def Instr.operands : Instr → List Register
  | compute _ c => c.operands
  | store _ _ r | exit (.branch r _ _) | exit (.ret r) => [r]
  | exit (.jump _) => []

/-- The registers a phi reads, each with the block it belongs to. -/
def Instr.incoming : Instr → List (Register × Label)
  | compute _ (.phi incoming) => incoming
  | _ => []

/-- The blocks an instruction may lead to. -/
def Instr.targets : Instr → List Label
  | exit x => x.targets
  | _ => []

/-! ### Paths in a unit -/

namespace CodeUnit

/-- Control may go from the block `p` to the block `q`. -/
def Edge (u : CodeUnit) (p q : Label) : Prop :=
  q ∈ (u.block p).successors

instance (u : CodeUnit) (p q : Label) : Decidable (u.Edge p q) :=
  inferInstanceAs (Decidable (q ∈ (u.block p).successors))

/-- Control may come to the beginning of a block from the first block of the unit, through the
blocks of the path. -/
inductive Path (u : CodeUnit) : List Label → Label → Prop where
  | entry {l} (h : u.listed.head? = some l) : Path u [] l
  | step {path p q} (h : Path u path p) (hedge : u.Edge p q) : Path u (path ++ [p]) q

/-- The registers that are computed on a path. -/
def produced (u : CodeUnit) (path : List Label) : List Register :=
  path.flatMap fun p ↦ (u.block p).code.filterMap Instr.result?

theorem edge_iff {u : CodeUnit} {p q : Label} :
    u.Edge p q ↔ ∃ x, .exit x ∈ (u.block p).code ∧ q ∈ x.targets := by
  simp only [Edge, Block.successors, List.mem_flatMap]
  constructor
  · rintro ⟨i, hi, hq⟩
    cases i with
    | exit x => exact ⟨x, hi, hq⟩
    | _ => cases hq
  · rintro ⟨x, hx, hq⟩
    exact ⟨_, hx, hq⟩

/-- What can be reached from the first block is reached on a path. -/
theorem exists_path {u : CodeUnit} {l q : Label} (hl : u.listed.head? = some l)
    (h : Relation.ReflTransGen u.Edge l q) : ∃ path, u.Path path q := by
  induction h with
  | refl => exact ⟨[], .entry hl⟩
  | tail _ hedge ih =>
    obtain ⟨path, hpath⟩ := ih
    exact ⟨_, hpath.step hedge⟩

end CodeUnit

/-! ### Edges of a log -/

namespace Log

/-- The log holds an exit of the block `p` that may lead to the block `q`. -/
def Leads (log : Log) (p q : Label) : Prop :=
  ∃ x, (p, .exit x) ∈ log ∧ q ∈ x.targets

/-- A log has the edges of its parts. -/
theorem leads_append {log log' : Log} {p q : Label} :
    Leads (log ++ log') p q ↔ Leads log p q ∨ Leads log' p q := by
  simp only [Leads, List.mem_append]
  constructor
  · rintro ⟨x, hx | hx, hq⟩
    · exact .inl ⟨x, hx, hq⟩
    · exact .inr ⟨x, hx, hq⟩
  · rintro (⟨x, hx, hq⟩ | ⟨x, hx, hq⟩)
    · exact ⟨x, .inl hx, hq⟩
    · exact ⟨x, .inr hx, hq⟩

/-- Entries without exits add no edges. -/
theorem leads_append_of_not {log log' : Log} {p q : Label} (h : ¬Leads log' p q) :
    Leads (log ++ log') p q ↔ Leads log p q := by
  rw [leads_append, or_iff_left h]

/-- A unit with the code of the log has its edges. -/
theorem edge_iff_leads {u : CodeUnit} {log : Log} (h : ∀ l, (u.block l).code = log.code l)
    {p q : Label} : u.Edge p q ↔ log.Leads p q := by
  rw [CodeUnit.edge_iff, h]
  simp only [Leads, mem_code]

/-- An instruction of a block stands somewhere in the log. -/
theorem exists_split {log : Log} {l : Label} {before after : List Instr} {i : Instr}
    (h : log.code l = before ++ i :: after) :
    ∃ pre post, log = pre ++ (l, i) :: post ∧ pre.code l = before := by
  obtain ⟨log₁, log₂, rfl, hbefore, hrest⟩ := List.filterMap_eq_append_iff.1 h
  obtain ⟨log₃, ⟨l', i'⟩, log₄, rfl, hnone, hi, -⟩ := List.filterMap_eq_cons_iff.1 hrest
  obtain ⟨rfl, rfl⟩ : l' = l ∧ i' = i := by simpa using hi
  refine ⟨log₁ ++ log₃, log₄, (List.append_assoc ..).symm, ?_⟩
  have hnil : code log₃ l' = [] := List.filterMap_eq_nil_iff.2 hnone
  rw [code_append, hnil, List.append_nil]
  exact hbefore

/-! ### Supply -/

/-- A register is live at the start of the block, or has been computed in the block by then. -/
def Available (live : Label → List Register) (pre : Log) (l : Label) (r : Register) : Prop :=
  r ∈ live l ∨ r ∈ (pre.code l).filterMap Instr.result?

variable {live : Label → List Register} {pre log log' : Log} {l p q : Label} {r : Register}
  {i : Instr}

theorem Available.append (h : Available live pre l r) (log : Log) :
    Available live (pre ++ log) l r := by
  refine h.imp_right fun hr ↦ ?_
  rw [code_append, List.filterMap_append]
  exact List.mem_append_left _ hr

theorem available_result (h : i.result? = some r) : Available live (pre ++ [(l, i)]) l r := by
  refine .inr ?_
  rw [code_append, List.filterMap_append]
  refine List.mem_append_right _ ?_
  simp [h]

/-- What an instruction of the block `l` asks of the log before it. -/
structure SuppliedBy (live : Label → List Register) (pre : Log) (l : Label) (i : Instr) : Prop where
  operands : ∀ r ∈ i.operands, Available live pre l r
  incoming : ∀ s ∈ i.incoming, Available live pre s.2 s.1
  live_target : ∀ q ∈ i.targets, ∀ r ∈ live q, Available live pre l r
  fresh_target : ∀ q ∈ i.targets, pre.code q = [] ∧ q ≠ l

/-- Every instruction of the second log is supplied by what is before it. -/
def Supplies (live : Label → List Register) : Log → Log → Prop
  | _, [] => True
  | pre, (l, i) :: log => SuppliedBy live pre l i ∧ Supplies live (pre ++ [(l, i)]) log

/-- Code is supplied part by part, each by what stands before it. -/
theorem supplies_append :
    Supplies live pre (log ++ log') ↔ Supplies live pre log ∧ Supplies live (pre ++ log) log' := by
  induction log generalizing pre with
  | nil => simp [Supplies]
  | cons i log ih =>
    obtain ⟨l, i⟩ := i
    simp only [List.cons_append, Supplies, ih, and_assoc, List.append_assoc, List.nil_append]

theorem supplies_singleton : Supplies live pre [(l, i)] ↔ SuppliedBy live pre l i := by
  simp [Supplies]

theorem Supplies.suppliedBy {post : Log} (h : Supplies live [] (pre ++ (l, i) :: post)) :
    SuppliedBy live pre l i :=
  (supplies_append.1 h).2.1

section Extend

variable {known : List Register}

/-- A computation may be written that reads what is known, and then its result is known, too. -/
theorem Supplies.compute (h : Supplies live pre log)
    (hknown : ∀ x ∈ known, Available live (pre ++ log) l x) {c : Computation}
    (hphi : (Instr.compute r c).isPhi = false) (hops : c.operands ⊆ known) :
    Supplies live pre (log ++ [(l, .compute r c)]) ∧
      ∀ x ∈ r :: known, Available live (pre ++ (log ++ [(l, .compute r c)])) l x := by
  refine ⟨supplies_append.2 ⟨h, supplies_singleton.2 ⟨fun x hx ↦ hknown x (hops hx), fun s hs ↦ ?_,
    fun q hq ↦ (by cases hq), fun q hq ↦ (by cases hq)⟩⟩, fun x hx ↦ ?_⟩
  · cases c with
    | phi => cases hphi
    | _ => cases hs
  · rw [← List.append_assoc]
    rcases List.mem_cons.1 hx with rfl | hx
    · exact available_result rfl
    · exact (hknown x hx).append _

/-- A phi may be written that reads what is available in the ends of its blocks. -/
theorem Supplies.phi (h : Supplies live pre log) {incoming : List (Register × Label)}
    (hincoming : ∀ s ∈ incoming, Available live (pre ++ log) s.2 s.1) :
    Supplies live pre (log ++ [(l, .compute r (.phi incoming))]) :=
  supplies_append.2 ⟨h, supplies_singleton.2 ⟨fun x hx ↦ (by cases hx), hincoming,
    fun q hq ↦ (by cases hq), fun q hq ↦ (by cases hq)⟩⟩

/-- What is known may be stored. -/
theorem Supplies.store (h : Supplies live pre log) (hr : Available live (pre ++ log) l r)
    (slot : Slot) (x : String) : Supplies live pre (log ++ [(l, .store slot x r)]) :=
  supplies_append.2 ⟨h, supplies_singleton.2 ⟨fun y hy ↦ List.mem_singleton.1 hy ▸ hr,
    fun s hs ↦ (by cases hs), fun q hq ↦ (by cases hq), fun q hq ↦ (by cases hq)⟩⟩

/-- A block may be left for blocks that have not been begun, in which no more than the known
registers is live. -/
theorem Supplies.exit (h : Supplies live pre log)
    (hknown : ∀ x ∈ known, Available live (pre ++ log) l x) {x : Exit}
    (hops : (Instr.exit x).operands ⊆ known)
    (htargets : ∀ q ∈ x.targets, live q ⊆ known ∧ (pre ++ log).code q = [] ∧ q ≠ l) :
    Supplies live pre (log ++ [(l, .exit x)]) :=
  supplies_append.2 ⟨h, supplies_singleton.2 ⟨fun y hy ↦ hknown y (hops hy),
    fun s hs ↦ (by cases hs), fun q hq y hy ↦ hknown y ((htargets q hq).1 hy),
    fun q hq ↦ (htargets q hq).2⟩⟩

end Extend

/-- Along an edge, what is live at the target is available in the end of the source. -/
theorem Supplies.live_of_leads (h : Supplies live [] log) (hlead : log.Leads p q)
    (hr : r ∈ live q) : Available live log p r := by
  obtain ⟨x, hx, hq⟩ := hlead
  obtain ⟨pre, post, rfl⟩ := List.append_of_mem hx
  exact (h.suppliedBy.live_target q hq r hr).append _

section Unit

variable {u : CodeUnit} {path : List Label}

/-- **What is live in a block has been computed on every path to it.** -/
theorem Supplies.mem_produced (h : Supplies live [] log) (hu : ∀ l, (u.block l).code = log.code l)
    (hentry : ∀ l, u.listed.head? = some l → live l = []) (hpath : u.Path path q) :
    ∀ r ∈ live q, r ∈ u.produced path := by
  induction hpath with
  | entry hl => simp [hentry _ hl]
  | @step path p q hpath hedge ih =>
    intro r hr
    rw [CodeUnit.produced, List.flatMap_append, List.mem_append]
    rcases h.live_of_leads ((edge_iff_leads hu).1 hedge) hr with hr | hr
    · exact .inl (ih r hr)
    · right
      simpa [hu] using hr

/-- What an instruction reads has been computed before it on every path. -/
theorem Supplies.operands_produced (h : Supplies live [] log)
    (hu : ∀ l, (u.block l).code = log.code l) (hentry : ∀ l, u.listed.head? = some l → live l = [])
    (hpath : u.Path path q) {before after : List Instr}
    (hcode : (u.block q).code = before ++ i :: after) :
    ∀ r ∈ i.operands, r ∈ u.produced path ++ before.filterMap Instr.result? := by
  intro r hr
  rw [hu] at hcode
  obtain ⟨pre, post, rfl, rfl⟩ := exists_split hcode
  rw [List.mem_append]
  exact (h.suppliedBy.operands r hr).imp_left (h.mem_produced hu hentry hpath r)

/-- What a phi reads for a block has been computed on every path through that block. -/
theorem Supplies.incoming_produced (h : Supplies live [] log)
    (hu : ∀ l, (u.block l).code = log.code l) (hentry : ∀ l, u.listed.head? = some l → live l = [])
    (hi : i ∈ (u.block q).code) {s : Register × Label} (hs : s ∈ i.incoming)
    (hpath : u.Path path s.2) : s.1 ∈ u.produced (path ++ [s.2]) := by
  rw [hu, mem_code] at hi
  obtain ⟨pre, post, rfl⟩ := List.append_of_mem hi
  rw [CodeUnit.produced, List.flatMap_append, List.mem_append]
  rcases (h.suppliedBy.incoming s hs).append ((q, i) :: post) with hr | hr
  · exact .inl (h.mem_produced hu hentry hpath _ hr)
  · right
    simpa [hu] using hr

end Unit

/-! ### Cycles -/

/-- The place in the log where a block is begun. -/
def first (log : Log) (l : Label) : Nat :=
  log.findIdx fun i ↦ i.1 = l

/-- An edge leads to a block that is begun later. -/
theorem Supplies.first_lt (h : Supplies live [] log) (hlead : log.Leads p q) :
    log.first p < log.first q := by
  obtain ⟨x, hx, hq⟩ := hlead
  obtain ⟨pre, post, rfl⟩ := List.append_of_mem hx
  obtain ⟨hnil, hne⟩ := h.suppliedBy.fresh_target q hq
  have hpre : ¬(pre.findIdx fun i ↦ decide (i.1 = q)) < pre.length := by
    rw [List.findIdx_lt_length]
    rintro ⟨⟨l, i⟩, hi, hl⟩
    obtain rfl : l = q := of_decide_eq_true hl
    have := mem_code.2 hi
    rw [hnil] at this
    cases this
  have hp : first (pre ++ (p, .exit x) :: post) p ≤ pre.length := by
    rw [first, List.findIdx_append]
    split
    · omega
    · simp [List.findIdx_cons]
  have hq : pre.length < first (pre ++ (p, .exit x) :: post) q := by
    rw [first, List.findIdx_append, if_neg hpre]
    simp [List.findIdx_cons, Ne.symm hne]
  exact Nat.lt_of_le_of_lt hp hq

/-- No block can be come back to. -/
theorem Supplies.acyclic (h : Supplies live [] log) (l : Label) :
    ¬Relation.TransGen log.Leads l l := by
  have hlt : ∀ p q, Relation.TransGen log.Leads p q → log.first p < log.first q := by
    intro p q hpq
    induction hpq with
    | single hlead => exact h.first_lt hlead
    | tail _ hlead ih => exact Nat.lt_trans ih (h.first_lt hlead)
  exact fun hl ↦ Nat.lt_irrefl _ (hlt l l hl)

end Log

/-! ### Runs -/

namespace Machine

variable {u : CodeUnit} {source : Option Label} {code : List Instr} {m m' : Machine} {next : Label}

/-- The blocks that a run enters, in order. -/
def visits (u : CodeUnit) : Nat → Option Label → Label → Machine → List Label
  | 0, _, _, _ => []
  | budget + 1, source, l, m =>
    l :: match (execBlock u source l).run m with
      | .ok (some (.enter next)) m => visits u budget (some l) next m
      | .ok (some (.done _)) _ => []
      | .ok none m => visits u budget source l m
      | .error _ _ => []

/-- Control goes only where the exit leads. -/
theorem mem_targets_of_leave {x : Exit} (h : (leave x).run m = .ok (.enter next) m') :
    next ∈ x.targets := by
  cases x with
  | branch r t e =>
    obtain ⟨v, m₁, -, h⟩ := run_bind_eq_ok_iff.1 h
    cases h
    split <;> simp [Exit.targets]
  | jump b =>
    cases h
    simp [Exit.targets]
  | ret r =>
    obtain ⟨v, m₁, -, h⟩ := run_bind_eq_ok_iff.1 h
    cases h

/-- Where control may be after running through code: where an exit leads, or at the end of code
without an exit. -/
def MayEnd (code : List Instr) : Option Flow → Prop
  | some (.enter next) => ∃ x, .exit x ∈ code ∧ next ∈ x.targets
  | some (.done _) => True
  | none => Open code

theorem MayEnd.cons {flow : Option Flow} {i : Instr} (h : MayEnd code flow)
    (hi : i.isExit = false) : MayEnd (i :: code) flow := by
  match flow, h with
  | some (.enter _), ⟨x, hx, hnext⟩ => exact ⟨x, List.mem_cons_of_mem i hx, hnext⟩
  | some (.done _), _ => trivial
  | none, hopen => exact List.forall_mem_cons.2 ⟨hi, hopen⟩

/-- A run of code ends in the way that its last instruction says. -/
theorem mayEnd_of_exec {flow : Option Flow} (h : (exec u source code).run m = .ok flow m') :
    MayEnd code flow := by
  induction code generalizing m with
  | nil =>
    cases h
    exact open_nil
  | cons i code ih =>
    cases i with
    | exit x =>
      obtain ⟨flow', m₁, hleave, h⟩ := run_bind_eq_ok_iff.1 h
      cases h
      cases flow' with
      | enter next => exact ⟨x, List.mem_cons_self, mem_targets_of_leave hleave⟩
      | done y => trivial
    | compute r c =>
      obtain ⟨v, m₁, -, h⟩ := run_bind_eq_ok_iff.1 h
      obtain ⟨⟨⟩, m₂, -, h⟩ := run_bind_eq_ok_iff.1 h
      exact (ih h).cons rfl
    | store slot x r =>
      obtain ⟨v, m₁, -, h⟩ := run_bind_eq_ok_iff.1 h
      obtain ⟨⟨⟩, m₂, -, h⟩ := run_bind_eq_ok_iff.1 h
      exact (ih h).cons rfl

/-- Where phis are instructions like any other, a block is run from its first instruction on. -/
theorem execBlock_of_ne_native (htarget : u.target ≠ .native) (source : Option Label) (l : Label) :
    execBlock u source l = exec u source (u.block l).code := by
  rw [execBlock]
  split
  · exact absurd ‹_› htarget
  all_goals rfl

/-- A block is left along an edge of the unit. -/
theorem edge_of_execBlock (htarget : u.target ≠ .native) {l : Label}
    (h : (execBlock u source l).run m = .ok (some (.enter next)) m') : u.Edge l next := by
  rw [execBlock_of_ne_native htarget] at h
  exact CodeUnit.edge_iff.2 (mayEnd_of_exec h)

/-- Control comes to the end of a block only if there is no exit in it. -/
theorem open_of_execBlock (htarget : u.target ≠ .native) {l : Label}
    (h : (execBlock u source l).run m = .ok none m') : Open (u.block l).code := by
  rw [execBlock_of_ne_native htarget] at h
  exact mayEnd_of_exec h

theorem head?_visits (budget : Nat) (source : Option Label) (l : Label) (m : Machine) :
    ∀ q ∈ (visits u budget source l m).head?, q = l := by
  cases budget <;> simp [visits]

/-- A run that only comes to blocks with an exit goes along the edges of the unit. -/
theorem isChain_visits (htarget : u.target ≠ .native)
    (hclosed : ∀ p q, u.Edge p q → Closed (u.block q).code) (budget : Nat) (source : Option Label)
    {l : Label} (hl : Closed (u.block l).code) (m : Machine) :
    List.IsChain u.Edge (visits u budget source l m) := by
  induction budget generalizing source l m with
  | zero => exact .nil
  | succ budget ih =>
    rw [visits, List.isChain_cons]
    rcases hrun : (execBlock u source l).run m with ⟨- | next | y, m'⟩ | ⟨fault, m'⟩
    · exact absurd (open_of_execBlock htarget hrun) hl.not_open
    · have hedge := edge_of_execBlock htarget hrun
      refine ⟨fun q hq ↦ ?_, ih (some l) (hclosed l next hedge) m'⟩
      rw [head?_visits _ _ _ _ q hq]
      exact hedge
    · exact ⟨by simp, .nil⟩
    · exact ⟨by simp, .nil⟩

/-- Where no block can be come back to, a run enters every block at most once. -/
theorem nodup_visits (htarget : u.target ≠ .native)
    (hclosed : ∀ p q, u.Edge p q → Closed (u.block q).code)
    (hacyclic : ∀ l, ¬Relation.TransGen u.Edge l l) (budget : Nat) (source : Option Label)
    {l : Label} (hl : Closed (u.block l).code) (m : Machine) :
    (visits u budget source l m).Nodup := by
  have hchain := (isChain_visits htarget hclosed budget source hl m).imp
    fun p q h ↦ Relation.TransGen.single h
  refine (List.isChain_iff_pairwise.1 hchain).imp ?_
  rintro p q h rfl
  exact hacyclic p h

/-- A computation sees no more of the unit than the name of the block control came from; what the
unit is built for makes no difference. -/
theorem compute_congr {u' : CodeUnit} (h : ∀ p ∈ source, u'.blockName p = u.blockName p)
    (c : Computation) : compute u' source c = compute u source c := by
  cases c with
  | phi incoming =>
    have hname : source.map u'.blockName = source.map u.blockName := Option.map_congr h
    simp only [compute, choose, hname]
  | arith | compare | truth =>
    simp only [compute, Target.apply_eq, Target.compare_eq, Target.truth_eq]
  | const | load => rfl

/-- What code does depends on the unit only for the name of the block that control comes from. -/
theorem exec_congr {u' : CodeUnit} (h : ∀ p ∈ source, u'.blockName p = u.blockName p)
    (code : List Instr) : exec u' source code = exec u source code := by
  induction code with
  | nil => rfl
  | cons i code ih =>
    cases i with
    | compute r c => simp only [exec, compute_congr h, ih]
    | store slot x r => simp only [exec, ih]
    | exit x => rfl

/-- The result of a run, with the storage it leaves behind. -/
def outcome : EStateM.Result CodeFault Machine Float → Except CodeFault Float × Storage
  | .ok x m => (.ok x, m.storage)
  | .error fault m => (.error fault, m.storage)

end Machine

namespace CodeUnit

variable {u : CodeUnit}

theorem execute_of_head? {l : Label} (h : u.listed.head? = some l) (budget : Nat) (s : Storage) :
    u.execute budget s =
      Machine.outcome ((Machine.walk u budget none l).run ⟨u.initialRegisters, s⟩) := by
  obtain ⟨labels, hlisted⟩ := List.head?_eq_some_iff.1 h
  simp only [execute, hlisted]
  rcases (Machine.walk u budget none l).run ⟨u.initialRegisters, s⟩ with ⟨x, m⟩ | ⟨fault, m⟩ <;> rfl

/-- A unit that has been checked is not checked again. -/
theorem run_of_compiled (h : u.compiled = true) (budget : Nat) (s : Storage) :
    u.run budget s = ⟨(u.execute budget s).1, u, (u.execute budget s).2⟩ := by
  simp only [run, h, if_true]

end CodeUnit

end Reckoner
