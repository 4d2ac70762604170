import Reckoner.Proofs.Operations
import Reckoner.Proofs.Simulation

/-!
# Phis in turn and phis on the edge

The interpreter runs the phis of a block one after the other, so that a phi sees what the phis
before it have computed. Native code takes the values of all phis at once, on the edge by which
control enters the block, so that every phi sees the registers as they were when the block before it
was left. The two differ where a phi takes the register of an earlier phi of its block.

They agree if no phi does so on any edge (`CodeUnit.PhisApart`). For a single block that is an
induction on the row of its phis: what a phi writes is not read by those behind it
(`run_execOnEdge`). Along a walk the two machines then go through the same states, up to the first
fault (`CodeUnit.execute_onEdges`).
-/

namespace Reckoner

namespace Machine

variable {u : CodeUnit} {source : Option Label} {code rest : List Instr} {m m' : Machine}
  {phis : List (Register × List (Register × Label))} {incoming : List (Register × Label)}
  {rs rs' vs : Registers} {r : Register} {v : Scalar} {fault : CodeFault}

/-! ### The values of phis -/

/-- The register that a phi takes, when control comes from the given block. -/
def taken (source : Option Label) (incoming : List (Register × Label)) : Option Register :=
  (incoming.find? fun i ↦ some i.2 = source).map Prod.fst

/-- The value of a phi. -/
def phiValue (u : CodeUnit) (source : Option Label) (rs : Registers)
    (incoming : List (Register × Label)) : Except CodeFault Scalar :=
  match taken source incoming with
  | none => .error (.noIncoming (source.map u.blockName))
  | some r =>
    match rs.lookup r with
    | none => .error (.unknownRegister r)
    | some v => .ok v

/-- The values of phis, all taken from the same registers. -/
def phiValues (u : CodeUnit) (source : Option Label) (rs : Registers) :
    List (Register × List (Register × Label)) → Except CodeFault Registers
  | [] => .ok []
  | (r, incoming) :: phis => do
    let v ← phiValue u source rs incoming
    let vs ← phiValues u source rs phis
    return (r, v) :: vs

/-- What has no effect on the machine, as a part of a run. -/
def settle {α : Type} (m : Machine) : Except CodeFault α → EStateM.Result CodeFault Machine α
  | .ok a => .ok a m
  | .error fault => .error fault m

/-- A phi has the value of the register that it takes, or fails, and changes nothing. -/
theorem run_compute_phi (u : CodeUnit) (source : Option Label)
    (incoming : List (Register × Label)) (m : Machine) :
    (compute u source (.phi incoming)).run m =
      m.settle (phiValue u source m.registers incoming) := by
  simp only [compute, choose, phiValue, taken]
  split
  · rename_i i hi
    rw [hi, pure_bind]
    rcases hr : m.registers.lookup i.1 with - | v
    · simp only [Machine.read, EStateM.run_bind, EStateM.run_get, Option.map_some, hr]
      rfl
    · simp only [run_read hr, Option.map_some, hr]
      rfl
  · rename_i hnone
    rw [hnone]
    rfl

/-- Taking values on the edge has no effect on the machine. -/
theorem run_edgeValues (u : CodeUnit) (source : Option Label)
    (phis : List (Register × List (Register × Label))) (m : Machine) :
    (edgeValues u source phis).run m = m.settle (phiValues u source m.registers phis) := by
  induction phis with
  | nil => rfl
  | cons φ phis ih =>
    obtain ⟨r, incoming⟩ := φ
    have hcons : edgeValues u source ((r, incoming) :: phis) = do
        let v ← compute u source (.phi incoming)
        let vs ← edgeValues u source phis
        return (r, v) :: vs := by
      simp only [edgeValues, compute, bind_assoc]
    rw [hcons, EStateM.run_bind, run_compute_phi, phiValues]
    rcases phiValue u source m.registers incoming with fault | v
    · rfl
    · simp only [settle, EStateM.run_bind, ih]
      rcases phiValues u source m.registers phis with fault | vs
      · rfl
      · rfl

/-! ### Phis in turn -/

/-- The phis, as instructions. -/
def phiCode (phis : List (Register × List (Register × Label))) : List Instr :=
  phis.map fun φ ↦ .compute φ.1 (.phi φ.2)

/-- Splitting phis off loses nothing. -/
theorem phiCode_splitPhis (code : List Instr) :
    phiCode (splitPhis code).1 ++ (splitPhis code).2 = code := by
  fun_induction splitPhis code with
  | case1 r incoming rest phis code hsplit ih =>
    rw [hsplit] at ih
    exact congrArg (Instr.compute r (.phi incoming) :: ·) ih
  | case2 => rfl

/-- And it takes just the phis. -/
theorem splitPhis_phiCode_append (phis : List (Register × List (Register × Label)))
    (h : ∀ i ∈ rest, i.isPhi = false) : splitPhis (phiCode phis ++ rest) = (phis, rest) := by
  induction phis with
  | nil => exact splitPhis_of_forall h
  | cons φ phis ih =>
    rw [phiCode, List.map_cons, List.cons_append, splitPhis]
    rw [phiCode] at ih
    rw [ih]

/-- Leaving out constants leaves the phis as they are, if all of them are at the head of the
block. -/
theorem splitPhis_filter (h : ∀ i ∈ (splitPhis code).2, i.isPhi = false) :
    (splitPhis (code.filter Target.native.keeps)).1 = (splitPhis code).1 := by
  have hphis : (phiCode (splitPhis code).1).filter Target.native.keeps =
      phiCode (splitPhis code).1 := by
    refine List.filter_eq_self.2 fun i hi ↦ ?_
    obtain ⟨φ, -, rfl⟩ := List.mem_map.1 hi
    rfl
  have hfilter : code.filter Target.native.keeps =
      phiCode (splitPhis code).1 ++ (splitPhis code).2.filter Target.native.keeps := by
    conv_lhs => rw [← phiCode_splitPhis code, List.filter_append, hphis]
  rw [hfilter, splitPhis_phiCode_append _ fun i hi ↦ h i (List.mem_of_mem_filter hi)]

/-- No phi takes the register of a phi before it, when control comes from the given block. -/
def Apart (source : Option Label) (phis : List (Register × List (Register × Label))) : Prop :=
  phis.Pairwise fun φ ψ ↦ taken source ψ.2 ≠ some φ.1

instance (source : Option Label) (phis : List (Register × List (Register × Label))) :
    Decidable (Apart source phis) :=
  inferInstanceAs (Decidable (phis.Pairwise _))

/-- A phi that does not take a register does not see it written. -/
theorem phiValue_set (h : taken source incoming ≠ some r) :
    phiValue u source (rs.set r v) incoming = phiValue u source rs incoming := by
  rw [phiValue, phiValue]
  split
  · rfl
  · rename_i q hq
    rw [Registers.lookup_set, if_neg fun heq ↦ h (hq.trans (congrArg some heq))]

/-- What a phi writes is not read by phis that do not take its register. -/
theorem phiValues_set (h : ∀ ψ ∈ phis, taken source ψ.2 ≠ some r) :
    phiValues u source (rs.set r v) phis = phiValues u source rs phis := by
  induction phis with
  | nil => rfl
  | cons ψ phis ih =>
    rw [phiValues, phiValues, phiValue_set (h ψ List.mem_cons_self),
      ih fun χ hχ ↦ h χ (List.mem_cons_of_mem ψ hχ)]

/-- Phis that are run in turn write what they would take on the edge. -/
theorem run_exec_phiCode (h : Apart source phis)
    (hvs : phiValues u source m.registers phis = .ok vs) (rest : List Instr) :
    (exec u source (phiCode phis ++ rest)).run m = (exec u source rest).run
      { m with registers := vs.foldl (fun rs v ↦ rs.set v.1 v.2) m.registers } := by
  induction phis generalizing m vs with
  | nil =>
    cases hvs
    rfl
  | cons φ phis ih =>
    obtain ⟨r, incoming⟩ := φ
    obtain ⟨hφ, hphis⟩ := List.pairwise_cons.1 h
    obtain ⟨v, hv, hvs⟩ := exists_ok_of_bind hvs
    obtain ⟨ws, hws, hvs⟩ := exists_ok_of_bind hvs
    cases hvs
    have hrun : (compute u source (.phi incoming)).run m = .ok v m := by
      rw [run_compute_phi, hv]
      rfl
    have hrest := ih (m := { m with registers := m.registers.set r v }) hphis
      ((phiValues_set hφ).trans hws)
    exact (run_bind_ok hrun _).trans hrest

/-- If a phi fails on the edge, it fails in its turn. -/
theorem run_exec_phiCode_error (h : Apart source phis)
    (hvs : phiValues u source m.registers phis = .error fault) (rest : List Instr) :
    ∃ m', (exec u source (phiCode phis ++ rest)).run m = .error fault m' ∧
      m'.storage = m.storage := by
  induction phis generalizing m with
  | nil => cases hvs
  | cons φ phis ih =>
    obtain ⟨r, incoming⟩ := φ
    obtain ⟨hφ, hphis⟩ := List.pairwise_cons.1 h
    rcases error_of_bind hvs with hv | ⟨v, hv, hvs⟩
    · have hrun : (compute u source (.phi incoming)).run m = .error fault m := by
        rw [run_compute_phi, hv]
        rfl
      exact ⟨m, run_bind_error hrun _, rfl⟩
    · have hrun : (compute u source (.phi incoming)).run m = .ok v m := by
        rw [run_compute_phi, hv]
        rfl
      have hws : phiValues u source m.registers phis = .error fault := by
        rcases error_of_bind hvs with hws | ⟨ws, -, hws⟩
        · exact hws
        · cases hws
      obtain ⟨m', hm', hstorage⟩ := ih (m := { m with registers := m.registers.set r v }) hphis
        ((phiValues_set hφ).trans hws)
      exact ⟨m', (run_bind_ok hrun _).trans hm', hstorage⟩

/-- A block whose phis are apart does the same in both ways, unless it fails; and then it fails with
the same fault and the same storage. -/
theorem run_execOnEdge (h : Apart source (splitPhis code).1) (m : Machine) :
    (execOnEdge u source code).run m = (exec u source code).run m ∨
      ∃ fault m₁ m₂, (execOnEdge u source code).run m = .error fault m₁ ∧
        (exec u source code).run m = .error fault m₂ ∧ m₁.storage = m₂.storage := by
  rcases hvs : phiValues u source m.registers (splitPhis code).1 with fault | vs
  · obtain ⟨m', hm', hstorage⟩ := run_exec_phiCode_error h hvs (splitPhis code).2
    rw [phiCode_splitPhis] at hm'
    refine .inr ⟨fault, m, m', ?_, hm', hstorage.symm⟩
    rw [execOnEdge, EStateM.run_bind, run_edgeValues, hvs]
    rfl
  · have hturn := run_exec_phiCode h hvs (splitPhis code).2
    rw [phiCode_splitPhis] at hturn
    refine .inl ?_
    rw [hturn, execOnEdge, EStateM.run_bind, run_edgeValues, hvs]
    rfl

theorem apart_none (phis : List (Register × List (Register × Label))) : Apart none phis := by
  have htaken : ∀ incoming, taken none incoming = none := fun incoming ↦ by
    simp [taken]
  exact List.pairwise_of_forall fun φ ψ ↦ by simp [htaken]

end Machine

namespace CodeUnit

open Machine

variable {u : CodeUnit} {source : Option Label} {l p : Label}

/-- The unit with its phis taking their values on the edge, as those of native units do. -/
def onEdges (u : CodeUnit) : CodeUnit :=
  { u with target := .native }

/-- Every phi stands before all other instructions of its block. -/
def PhisLead (u : CodeUnit) : Prop :=
  ∀ b ∈ u.blocks, ∀ i ∈ (splitPhis b.code).2, i.isPhi = false

instance (u : CodeUnit) : Decidable u.PhisLead :=
  inferInstanceAs (Decidable (∀ b ∈ u.blocks, _))

/-- On no edge does a phi take the register of a phi before it. -/
def PhisApart (u : CodeUnit) : Prop :=
  ∀ p < u.blocks.length, ∀ l < u.blocks.length, u.Edge p l →
    Apart (some p) (splitPhis (u.block l).code).1

instance (u : CodeUnit) : Decidable u.PhisApart :=
  inferInstanceAs (Decidable (∀ p < u.blocks.length, ∀ l < u.blocks.length, _))

/-- No phi is left behind where all of them lead. -/
theorem PhisLead.isPhi_eq_false (h : u.PhisLead) (l : Label) :
    ∀ i ∈ (splitPhis (u.block l).code).2, i.isPhi = false := by
  rcases Nat.lt_or_ge l u.blocks.length with hl | hl
  · refine h (u.block l) ?_
    rw [block, List.getElem?_eq_getElem hl]
    exact List.getElem_mem hl
  · rw [block_of_length_le hl]
    exact fun i hi ↦ (by cases hi)

/-- The phis of a block are apart for whatever control comes from. -/
theorem PhisApart.apart (h : u.PhisApart) (hsource : ∀ p ∈ source, u.Edge p l) :
    Apart source (splitPhis (u.block l).code).1 := by
  rcases source with - | p
  · exact apart_none _
  · have hedge := hsource p rfl
    rcases Nat.lt_or_ge l u.blocks.length with hl | hl
    · rcases Nat.lt_or_ge p u.blocks.length with hp | hp
      · exact h p hp l hl hedge
      · obtain ⟨x, hx, -⟩ := edge_iff.1 hedge
        rw [block_of_length_le hp] at hx
        cases hx
    · rw [block_of_length_le hl]
      exact .nil

/-- On edges a block is run with its phis all at once. -/
theorem execBlock_onEdges (u : CodeUnit) (source : Option Label) (l : Label) :
    execBlock u.onEdges source l = execOnEdge u source (u.block l).code := by
  have hvalues : ∀ phis, edgeValues u.onEdges source phis = edgeValues u source phis := by
    intro phis
    induction phis with
    | nil => rfl
    | cons φ phis ih =>
      simp only [edgeValues, ih]
      rfl
  have hexec : ∀ code, exec u.onEdges source code = exec u source code := exec_congr fun p _ ↦ rfl
  show execOnEdge u.onEdges source (u.block l).code = _
  simp only [execOnEdge, hvalues, hexec]

/-- A walk through blocks whose phis are apart comes to the same in both ways. -/
theorem outcome_walk_onEdges (htarget : u.target ≠ .native) (hapart : u.PhisApart) (budget : Nat)
    (hsource : ∀ p ∈ source, u.Edge p l) (m : Machine) :
    outcome ((walk u.onEdges budget source l).run m) =
      outcome ((walk u budget source l).run m) := by
  induction budget generalizing source l m with
  | zero => rfl
  | succ budget ih =>
    simp only [walk, EStateM.run_bind, execBlock_onEdges]
    have hblock := run_execOnEdge (u := u) (hapart.apart hsource) m
    rw [← execBlock_of_ne_native htarget] at hblock
    rcases hblock with heq | ⟨fault, m₁, m₂, h₁, h₂, hs⟩
    · rw [heq]
      rcases hrun : (execBlock u source l).run m with ⟨- | next | y, m'⟩ | ⟨fault, m'⟩
      · exact ih hsource m'
      · refine ih (fun p hp ↦ ?_) m'
        rw [← Option.mem_some_iff.1 hp]
        exact edge_of_execBlock htarget hrun
      · rfl
      · rfl
    · rw [h₁, h₂]
      exact congrArg (Prod.mk _) hs

theorem execute_onEdges (htarget : u.target ≠ .native) (hapart : u.PhisApart) (budget : Nat)
    (s : Storage) : u.onEdges.execute budget s = u.execute budget s := by
  rcases hlisted : u.listed.head? with - | l
  · have hnil := List.head?_eq_none_iff.1 hlisted
    simp only [execute, hnil, onEdges]
  · rw [execute_of_head? hlisted, execute_of_head? (u := u.onEdges) hlisted]
    exact outcome_walk_onEdges htarget hapart budget (by simp) _

end CodeUnit

end Reckoner
