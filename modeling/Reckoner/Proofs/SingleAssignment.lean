import Reckoner.Proofs.Evaluation
import Reckoner.Proofs.Flow

/-!
# Lowered code is in single assignment form

`CodeUnit.SingleAssignment` collects what is expected of a unit: blocks that are left once and at
their end, names and registers that are given once, phis that stand first and name the blocks
control may come from, operands that are computed before they are read, a graph of blocks in which
everything is reached and nothing is come back to. The main result is that every accepted tree is
lowered to such a unit (`lowerAll_singleAssignment`).

The edges of the code are read off along the tree (`Expr.leads_conditional` and the lemmas beside
it); reachability and the predecessors of a phi follow from them. For the operands, `Expr.live` says
which registers are live at the start of each new block: those that were known where the expression
starts, and, while the right operand of an operator is computed, the left one. The induction goes
over `Expr.Supplied`, which speaks of the code in any place, behind any log
(`Expr.Scoped.supplied`).
-/

namespace Reckoner

namespace Expr

variable {a b c t e : Expr} {names names₁ names₂ names₃ : List String} {slots : String → Slot}
  {r : Register} {l n m p q : Nat}

/-! ### Where the exits lead -/

/-- A test leads on to both arms. -/
theorem leads_testCode :
    (c.testCode slots r l n).Leads p q ↔ (c.code slots r l n).Leads p q ∨
      p = c.endBlock l n ∧ (q = n + c.blockCount ∨ q = n + c.blockCount + 1) := by
  rw [testCode, Log.leads_append]
  simp [Log.Leads, Exit.targets]

/-- An arm leads on to where both meet. -/
theorem leads_armCode :
    (e.armCode slots r l n m).Leads p q ↔ (e.code slots r l n).Leads p q ∨
      p = e.endBlock l n ∧ q = m := by
  rw [armCode, Log.leads_append]
  simp [Log.Leads, Exit.targets]

/-- The edges of a conditional. -/
theorem leads_conditional (hm : n + c.blockCount = m) :
    ((conditional c t e).code slots r l n).Leads p q ↔
      (c.testCode slots r l n).Leads p q ∨
      (t.armCode slots (r + c.registerCount + 1) m (m + 3) (m + 2)).Leads p q ∨
      (e.armCode slots (r + c.registerCount + 1 + t.registerCount) (m + 1) (m + 3 + t.blockCount)
        (m + 2)).Leads p q := by
  rw [code_conditional slots c t e r l n m hm, Log.leads_append, Log.leads_append, Log.leads_append]
  simp [Log.Leads, or_assoc]

/-- An operator has the edges of its operands. -/
theorem leads_operator {op : Kind} {f : Float → Float → Float} (hop : op.meaning? = some f) :
    ((binary op a b).code slots r l n).Leads p q ↔ (a.code slots r l n).Leads p q ∨
      (b.code slots (r + a.registerCount) (a.endBlock l n) (n + a.blockCount)).Leads p q := by
  rw [code_operator hop, Log.leads_append, Log.leads_append]
  simp [Log.Leads]

theorem leads_minus :
    ((unary .minus e).code slots r l n).Leads p q ↔ (e.code slots r l n).Leads p q :=
  Log.leads_append_of_not (by simp [Log.Leads])

theorem leads_assign {x : String} :
    ((binary .assign (name x) e).code slots r l n).Leads p q ↔ (e.code slots r l n).Leads p q :=
  Log.leads_append_of_not (by simp [Log.Leads])

/-- The exits of the code lead to new blocks. -/
theorem Scoped.isNew_of_leads (h : e.Scoped names names₁)
    (hlead : (e.code slots r l n).Leads p q) : IsNew n e.blockCount q := by
  induction h generalizing r l n with
  | number | name =>
    obtain ⟨x, hx, -⟩ := hlead
    cases List.mem_singleton.1 hx
  | plus _ ih | group _ ih => exact ih hlead
  | minus _ ih => exact ih (leads_minus.1 hlead)
  | assign _ _ ih => exact ih (leads_assign.1 hlead)
  | operator hop _ _ iha ihb =>
    simp only [IsNew, blockCount_operator hop] at *
    rcases (leads_operator hop).1 hlead with hlead | hlead
    · have := iha hlead
      omega
    · have := ihb hlead
      omega
  | conditional _ _ _ ihc iht ihe =>
    simp only [IsNew, blockCount] at *
    rw [leads_conditional rfl, leads_testCode, leads_armCode, leads_armCode] at hlead
    rcases hlead with (hlead | ⟨-, hq⟩) | (hlead | ⟨-, hq⟩) | (hlead | ⟨-, hq⟩)
    · have := ihc hlead
      omega
    · omega
    · have := iht hlead
      omega
    · omega
    · have := ihe hlead
      omega
    · omega

/-- Every block of the code can be reached from the one in which it starts, by any relation that
contains the edges. -/
theorem Scoped.reachable (h : e.Scoped names names₁) {R : Label → Label → Prop}
    (hR : ∀ p q, (e.code slots r l n).Leads p q → R p q) (hq : InRegion l n e.blockCount q) :
    Relation.ReflTransGen R l q := by
  induction h generalizing r l n q with
  | number | name =>
    obtain rfl : q = l := by
      simp only [InRegion, blockCount] at hq
      omega
    exact .refl
  | plus _ ih | group _ ih => exact ih hR hq
  | minus _ ih => exact ih (fun p q hlead ↦ hR p q (leads_minus.2 hlead)) hq
  | assign _ _ ih => exact ih (fun p q hlead ↦ hR p q (leads_assign.2 hlead)) hq
  | @operator _ _ _ op f a b hop ha _ iha ihb =>
    have hreach_a {q} := iha (q := q) fun p q hlead ↦ hR p q ((leads_operator hop).2 (.inl hlead))
    have hreach_b {q} := ihb (q := q) fun p q hlead ↦ hR p q ((leads_operator hop).2 (.inr hlead))
    by_cases hqa : InRegion l n a.blockCount q
    · exact hreach_a hqa
    · refine (hreach_a (ha.endBlock_inRegion l n)).trans (hreach_b ?_)
      simp only [InRegion, blockCount_operator hop] at *
      omega
  | @conditional _ _ _ _ c t e hc ht _ ihc iht ihe =>
    obtain ⟨m, hm⟩ : ∃ m : Nat, n + c.blockCount = m := ⟨_, rfl⟩
    simp only [leads_conditional hm, leads_testCode, leads_armCode, hm] at hR
    have hreach_c {q} := ihc (q := q) fun p q hlead ↦ hR p q (.inl (.inl hlead))
    have hreach_t {q} := iht (q := q) fun p q hlead ↦ hR p q (.inr (.inl (.inl hlead)))
    have hreach_e {q} := ihe (q := q) fun p q hlead ↦ hR p q (.inr (.inr (.inl hlead)))
    have hthen := (hreach_c (hc.endBlock_inRegion l n)).tail (hR _ m (.inl (.inr ⟨rfl, .inl rfl⟩)))
    have helse := (hreach_c (hc.endBlock_inRegion l n)).tail
      (hR _ (m + 1) (.inl (.inr ⟨rfl, .inr rfl⟩)))
    have hcases : InRegion l n c.blockCount q ∨ InRegion m (m + 3) t.blockCount q ∨
        InRegion (m + 1) (m + 3 + t.blockCount) e.blockCount q ∨ q = m + 2 := by
      simp only [InRegion, blockCount] at *
      omega
    rcases hcases with hq | hq | hq | rfl
    · exact hreach_c hq
    · exact hthen.trans (hreach_t hq)
    · exact helse.trans (hreach_e hq)
    · exact (hthen.trans (hreach_t (ht.endBlock_inRegion m (m + 3)))).tail
        (hR _ _ (.inr (.inl (.inr ⟨rfl, rfl⟩))))

/-- An old block is not led to. -/
theorem Scoped.not_leads (h : e.Scoped names names₁) (slots : String → Slot) (r : Register)
    (l p : Nat) (hq : ¬IsNew n e.blockCount q) : ¬(e.code slots r l n).Leads p q :=
  fun hlead ↦ hq (h.isNew_of_leads hlead)

/-! ### Phis -/

/-- The blocks from which a block of a conditional is reached: for a block of a part, they are those
of the part; for the block where the arms meet, the ones in which they end. -/
theorem leads_conditional_iff (hc : c.Scoped names names₁) (ht : t.Scoped names₁ names₂)
    (he : e.Scoped names₂ names₃) (slots : String → Slot) (r : Register) (l q : Nat)
    (hm : n + c.blockCount = m) (p : Nat) :
    (IsNew n c.blockCount q → (((conditional c t e).code slots r l n).Leads p q ↔
      (c.code slots r l n).Leads p q)) ∧
    (IsNew (m + 3) t.blockCount q → (((conditional c t e).code slots r l n).Leads p q ↔
      (t.code slots (r + c.registerCount + 1) m (m + 3)).Leads p q)) ∧
    (IsNew (m + 3 + t.blockCount) e.blockCount q →
      (((conditional c t e).code slots r l n).Leads p q ↔
        (e.code slots (r + c.registerCount + 1 + t.registerCount) (m + 1)
          (m + 3 + t.blockCount)).Leads p q)) ∧
    (q = m + 2 → (((conditional c t e).code slots r l n).Leads p q ↔
      p = t.endBlock m (m + 3) ∨ p = e.endBlock (m + 1) (m + 3 + t.blockCount))) := by
  have hc' := hc.not_leads (q := q) (n := n) slots r l p
  have ht' := ht.not_leads (q := q) (n := m + 3) slots (r + c.registerCount + 1) m p
  have he' := he.not_leads (q := q) (n := m + 3 + t.blockCount) slots
    (r + c.registerCount + 1 + t.registerCount) (m + 1) p
  simp only [leads_conditional hm, leads_testCode, leads_armCode, hm]
  simp only [IsNew] at *
  refine ⟨fun hq ↦ ?_, fun hq ↦ ?_, fun hq ↦ ?_, fun hq ↦ ?_⟩
  · simp only [ht' (by omega), he' (by omega), show q ≠ m by omega, show q ≠ m + 1 by omega,
      show q ≠ m + 2 by omega, or_false, and_false]
  · simp only [hc' (by omega), he' (by omega), show q ≠ m by omega, show q ≠ m + 1 by omega,
      show q ≠ m + 2 by omega, or_false, false_or, and_false]
  · simp only [hc' (by omega), ht' (by omega), show q ≠ m by omega, show q ≠ m + 1 by omega,
      show q ≠ m + 2 by omega, or_false, false_or, and_false]
  · simp only [hc' (by omega), ht' (by omega), he' (by omega), show q ≠ m by omega,
      show q ≠ m + 1 by omega, or_false, false_or, and_false]
    simp only [hq, and_true]

/-- **A phi names exactly the blocks that control may come from**, each of them once. -/
theorem Scoped.incoming_iff (h : e.Scoped names names₁) {r' : Register}
    {incoming : List (Register × Label)}
    (hphi : (q, .compute r' (.phi incoming)) ∈ e.code slots r l n) :
    (incoming.map (·.2)).Nodup ∧
      ∀ p : Nat, p ∈ incoming.map (·.2) ↔ (e.code slots r l n).Leads p q := by
  induction h generalizing r l n with
  | number | name => cases List.mem_singleton.1 hphi
  | plus _ ih | group _ ih => exact ih hphi
  | minus _ ih =>
    simp only [leads_minus]
    refine ih ((List.mem_append.1 hphi).resolve_right ?_)
    simp
  | assign _ _ ih =>
    simp only [leads_assign]
    refine ih ((List.mem_append.1 hphi).resolve_right ?_)
    simp
  | @operator _ _ _ op f a b hop ha hb iha ihb =>
    rw [code_operator hop, List.mem_append, List.mem_append] at hphi
    simp only [leads_operator hop]
    rcases hphi with (hphi | hphi) | hphi
    · have hnew := ha.isNew_of_isPhi slots r l n _ hphi rfl
      have hother (p : Nat) := hb.not_leads (q := q) (n := n + a.blockCount) slots
        (r + a.registerCount) (a.endBlock l n) p (by simp only [IsNew] at *; omega)
      simpa only [hother, or_false] using iha hphi
    · have hnew := hb.isNew_of_isPhi slots _ _ _ _ hphi rfl
      have hother (p : Nat) := ha.not_leads (q := q) (n := n) slots r l p
        (by simp only [IsNew] at *; omega)
      simpa only [hother, false_or] using ihb hphi
    · have hcompute := congrArg (fun i ↦ i.2.isPhi) (List.mem_singleton.1 hphi)
      rw [isPhi_computation] at hcompute
      cases hcompute
  | @conditional _ _ _ _ c t e hc ht he ihc iht ihe =>
    obtain ⟨m, hm⟩ : ∃ m : Nat, n + c.blockCount = m := ⟨_, rfl⟩
    have hleads := leads_conditional_iff hc ht he slots r l q hm
    rw [code_conditional slots c t e r l n m hm] at hphi
    simp only [testCode, armCode, List.mem_append] at hphi
    rcases hphi with ((((hphi | hphi) | (hphi | hphi)) | (hphi | hphi)) | hphi)
    · have hnew := hc.isNew_of_isPhi slots _ _ _ _ hphi rfl
      simpa only [(hleads _).1 hnew] using ihc hphi
    · simp at hphi
    · have hnew := ht.isNew_of_isPhi slots _ _ _ _ hphi rfl
      simpa only [(hleads _).2.1 hnew] using iht hphi
    · simp at hphi
    · have hnew := he.isNew_of_isPhi slots _ _ _ _ hphi rfl
      simpa only [(hleads _).2.2.1 hnew] using ihe hphi
    · simp at hphi
    · cases List.mem_singleton.1 hphi
      refine ⟨?_, fun p ↦ ?_⟩
      · simpa using endBlock_ne ht he m
      · rw [(hleads p).2.2.2 rfl]
        simp

/-! ### Supply -/

/-- The registers that are live at the start of the block `q`, one of the blocks that the code of
the tree makes, when the registers `known` are when the code begins: these, and the values of the
left operands that are being waited for. -/
def live : Expr → List Register → Register → Nat → Nat → List Register
  | unary _ e, known, r, n, q | group e, known, r, n, q => e.live known r n q
  | binary op a b, known, r, n, q =>
    if op.meaning?.isSome then
      if q < n + a.blockCount then a.live known r n q
      else b.live (a.result r :: known) (r + a.registerCount) (n + a.blockCount) q
    else b.live known r n q
  | conditional c t e, known, r, n, q =>
    let m := n + c.blockCount
    let rt := r + c.registerCount + 1
    if q < m then c.live known r n q
    else if q < m + 3 then known
    else if q < m + 3 + t.blockCount then t.live known rt (m + 3) q
    else e.live known (rt + t.registerCount) (m + 3 + t.blockCount) q
  | number _, known, _, _, _ | name _, known, _, _, _ | foreign _, known, _, _, _ => known

open Log

/-- The code of a tree is supplied, if the registers `known` are available where it begins; behind
it, these and the value of the tree are. -/
def Supplied (live : Label → List Register) (slots : String → Slot) (e : Expr) : Prop :=
  ∀ (pre : Log) (known : List Register) (r : Register) (l n : Nat), l < n →
    (∀ q : Nat, n ≤ q → pre.code q = []) →
    (∀ q, IsNew n e.blockCount q → live q = e.live known r n q) →
    (∀ x ∈ known, Available live pre l x) →
    Supplies live pre (e.code slots r l n) ∧
      ∀ x ∈ e.result r :: known, Available live (pre ++ e.code slots r l n) (e.endBlock l n) x

variable {live : Label → List Register}

/-- A sign reads the value that it turns, and the constant before it. -/
theorem Supplied.minus (h : e.Supplied live slots) : (unary .minus e).Supplied live slots := by
  intro pre known r l n hl hfresh hlive hknown
  obtain ⟨hs₁, hknown₁⟩ := h pre known r l n hl hfresh hlive hknown
  obtain ⟨hs₂, hknown₂⟩ := hs₁.compute (r := r + e.registerCount) (c := .const (-1.0)) hknown₁ rfl
    (List.nil_subset _)
  obtain ⟨hs₃, hknown₃⟩ := hs₂.compute (r := r + e.registerCount + 1)
    (c := .arith .mul (e.result r) (r + e.registerCount)) hknown₂ rfl
    (by simp [Computation.operands])
  rw [List.append_assoc] at hs₃ hknown₃
  refine ⟨hs₃, fun x hx ↦ hknown₃ x ?_⟩
  rcases List.mem_cons.1 hx with rfl | hx
  · exact List.mem_cons_self
  · simp [hx]

theorem operands_computation (op : Kind) (r₁ r₂ : Register) :
    (op.computation r₁ r₂).operands = [r₁, r₂] := by
  cases op <;> rfl

/-- An operator reads the values of both operands: the left one stays available while the right one
is computed. -/
theorem Supplied.operator {op : Kind} {f : Float → Float → Float} (hop : op.meaning? = some f)
    (hsa : a.Scoped names names₁) (ha : a.Supplied live slots) (hb : b.Supplied live slots) :
    (binary op a b).Supplied live slots := by
  intro pre known r l n hl hfresh hlive hknown
  have hlive_a (q : Nat) (hq : IsNew n a.blockCount q) : live q = a.live known r n q := by
    rw [hlive q (by simp only [IsNew, blockCount_operator hop] at *; omega), Expr.live, hop]
    exact (if_pos rfl).trans (if_pos hq.2)
  have hlive_b (q : Nat) (hq : IsNew (n + a.blockCount) b.blockCount q) :
      live q = b.live (a.result r :: known) (r + a.registerCount) (n + a.blockCount) q := by
    rw [hlive q (by simp only [IsNew, blockCount_operator hop] at *; omega), Expr.live, hop]
    exact (if_pos rfl).trans (if_neg (Nat.not_lt.2 hq.1))
  obtain ⟨hs₁, hknown₁⟩ := ha pre known r l n hl hfresh hlive_a hknown
  have hfresh₁ (q : Nat) (hq : n + a.blockCount ≤ q) : (pre ++ a.code slots r l n).code q = [] := by
    rw [Log.code_append, hfresh q (by omega),
      hsa.code_eq_nil slots r (by simp only [InRegion]; omega)]
    rfl
  obtain ⟨hs₂, hknown₂⟩ := hb (pre ++ a.code slots r l n) (a.result r :: known)
    (r + a.registerCount) (a.endBlock l n) (n + a.blockCount) (hsa.endBlock_lt hl) hfresh₁ hlive_b
    hknown₁
  rw [List.append_assoc] at hknown₂
  obtain ⟨hs₃, hknown₃⟩ := (supplies_append.2 ⟨hs₁, hs₂⟩).compute
    (r := r + a.registerCount + b.registerCount) hknown₂
    (isPhi_computation op _ (a.result r) (b.result (r + a.registerCount)))
    (by simp [operands_computation])
  rw [code_operator hop, endBlock_operator hop, result_operator hop]
  refine ⟨hs₃, fun x hx ↦ hknown₃ x ?_⟩
  rcases List.mem_cons.1 hx with rfl | hx
  · exact List.mem_cons_self
  · simp [hx]

/-- An assignment stores a value that has just been computed. -/
theorem Supplied.assign (x : String) (h : e.Supplied live slots) :
    (binary .assign (name x) e).Supplied live slots := by
  intro pre known r l n hl hfresh hlive hknown
  obtain ⟨hs₁, hknown₁⟩ := h pre known r l n hl hfresh hlive hknown
  have hs₂ := hs₁.store (hknown₁ _ List.mem_cons_self) (slots x) x
  have hknown₂ (y : Register) (hy : y ∈ e.result r :: known) :
      Available live (pre ++ (e.code slots r l n ++
        [(e.endBlock l n, .store (slots x) x (e.result r))])) (e.endBlock l n) y := by
    rw [← List.append_assoc]
    exact (hknown₁ y hy).append _
  obtain ⟨hs₃, hknown₃⟩ := hs₂.compute (r := r + e.registerCount) (c := .load (slots x) x) hknown₂
    rfl (List.nil_subset _)
  rw [List.append_assoc] at hs₃ hknown₃
  refine ⟨hs₃, fun y hy ↦ hknown₃ y ?_⟩
  rcases List.mem_cons.1 hy with rfl | hy
  · exact List.mem_cons_self
  · simp [hy]

/-- The code of a test is supplied, if no more than the known registers is live in the two blocks it
leads to. -/
theorem Supplied.test (hs : c.Scoped names names₁) (h : c.Supplied live slots) {pre : Log}
    {known : List Register} (hl : l < n) (hfresh : ∀ q : Nat, n ≤ q → pre.code q = [])
    (hlive : ∀ q, IsNew n c.blockCount q → live q = c.live known r n q)
    (hknown : ∀ x ∈ known, Available live pre l x)
    (htargets : ∀ q, q = n + c.blockCount ∨ q = n + c.blockCount + 1 → live q = known) :
    Supplies live pre (c.testCode slots r l n) := by
  obtain ⟨hs₁, hknown₁⟩ := h pre known r l n hl hfresh hlive hknown
  obtain ⟨hs₂, hknown₂⟩ := hs₁.compute (r := r + c.registerCount) (c := .truth (c.result r)) hknown₁
    rfl (by simp [Computation.operands])
  have hs₃ := hs₂.exit
    (x := .branch (r + c.registerCount) (n + c.blockCount) (n + c.blockCount + 1)) hknown₂
    (by simp [Instr.operands]) fun q hq ↦ ?_
  · rw [List.append_assoc] at hs₃
    exact hs₃
  · have hq : q = n + c.blockCount ∨ q = n + c.blockCount + 1 := by simpa [Exit.targets] using hq
    have hle : n ≤ q := by
      rcases hq with rfl | rfl <;> omega
    have hregion : ¬InRegion l n c.blockCount q := by
      rcases hq with rfl | rfl <;> simp only [InRegion] <;> omega
    have hend : c.endBlock l n ≠ q := fun heq ↦ hregion (heq ▸ hs.endBlock_inRegion l n)
    refine ⟨fun x hx ↦ ?_, ?_, Ne.symm hend⟩
    · rw [htargets q hq] at hx
      simp [hx]
    · simp [hfresh q hle, hs.code_eq_nil slots r hregion, hend]

/-- The code of an arm is supplied, if no more is live in the block it leads to than is known. -/
theorem Supplied.arm (hs : e.Scoped names names₁) (h : e.Supplied live slots) {pre : Log}
    {known : List Register} (hl : l < n) (hfresh : ∀ q : Nat, n ≤ q → pre.code q = [])
    (hlive : ∀ q, IsNew n e.blockCount q → live q = e.live known r n q)
    (hknown : ∀ x ∈ known, Available live pre l x) {j : Nat} (hj : live j = known)
    (hpre : pre.code j = []) (hregion : ¬InRegion l n e.blockCount j) :
    Supplies live pre (e.armCode slots r l n j) ∧
      Available live (pre ++ e.armCode slots r l n j) (e.endBlock l n) (e.result r) := by
  obtain ⟨hs₁, hknown₁⟩ := h pre known r l n hl hfresh hlive hknown
  have hend : j ≠ e.endBlock l n := fun heq ↦ hregion (heq ▸ hs.endBlock_inRegion l n)
  refine ⟨hs₁.exit (x := .jump j) hknown₁ (List.nil_subset _) fun q hq ↦ ?_, ?_⟩
  · obtain rfl : q = j := List.mem_singleton.1 hq
    refine ⟨fun x hx ↦ ?_, ?_, hend⟩
    · rw [hj] at hx
      exact List.mem_cons_of_mem _ hx
    · rw [Log.code_append, hpre, hs.code_eq_nil slots r hregion]
      rfl
  · rw [armCode, ← List.append_assoc]
    exact (hknown₁ _ List.mem_cons_self).append _

/-- What is live in the blocks of a conditional is what is live in those of its parts. -/
theorem live_conditional {known : List Register} (hm : n + c.blockCount = m)
    (h : ∀ q, IsNew n (conditional c t e).blockCount q →
      live q = (conditional c t e).live known r n q) :
    (∀ q, IsNew n c.blockCount q → live q = c.live known r n q) ∧
    (∀ q, IsNew m 3 q → live q = known) ∧
    (∀ q, IsNew (m + 3) t.blockCount q →
      live q = t.live known (r + c.registerCount + 1) (m + 3) q) ∧
    (∀ q, IsNew (m + 3 + t.blockCount) e.blockCount q →
      live q =
        e.live known (r + c.registerCount + 1 + t.registerCount) (m + 3 + t.blockCount) q) := by
  subst hm
  simp only [IsNew, blockCount, Expr.live] at *
  refine ⟨fun q hq ↦ ?_, fun q hq ↦ ?_, fun q hq ↦ ?_, fun q hq ↦ ?_⟩
  · rw [h q (by omega), if_pos hq.2]
  · rw [h q (by omega), if_neg (by omega), if_pos hq.2]
  · rw [h q (by omega), if_neg (by omega), if_neg (by omega), if_pos hq.2]
  · rw [h q (by omega), if_neg (by omega), if_neg (by omega), if_neg (by omega)]

/-- A conditional is supplied: its arms start from what was known before the test, and the phi takes
on each edge what the arm has left there. -/
theorem Supplied.conditional (hsc : c.Scoped names names₁) (hst : t.Scoped names₁ names₂)
    (hse : e.Scoped names₂ names₃) (hc : c.Supplied live slots) (ht : t.Supplied live slots)
    (he : e.Supplied live slots) : (conditional c t e).Supplied live slots := by
  intro pre known r l n hl hfresh hlive hknown
  obtain ⟨m, hm⟩ : ∃ m : Nat, n + c.blockCount = m := ⟨_, rfl⟩
  obtain ⟨hlive_c, hlive_m, hlive_t, hlive_e⟩ := live_conditional hm hlive
  simp only [IsNew] at hlive_m
  have hs₁ := hc.test hsc hl hfresh hlive_c hknown fun q hq ↦ hlive_m q (by omega)
  -- the blocks of the arms are still empty after the test
  have hnil₁ (q : Nat) (hq : m ≤ q) : (pre ++ c.testCode slots r l n).code q = [] := by
    rw [Log.code_append, hfresh q (by omega),
      hsc.testCode_eq_nil slots r (by simp only [InRegion]; omega)]
    rfl
  obtain ⟨hs₂, hvalue₂⟩ := ht.arm hst (show m < m + 3 by omega) (fun q hq ↦ hnil₁ q (by omega))
    hlive_t (fun x hx ↦ .inl (by rwa [hlive_m m (by omega)])) (hlive_m (m + 2) (by omega))
    (hnil₁ (m + 2) (by omega)) (by simp only [InRegion]; omega)
  have hnil₂ (q : Nat) (hq : q = m + 2 ∨ m + 3 + t.blockCount ≤ q) :
      (pre ++ c.testCode slots r l n ++
        t.armCode slots (r + c.registerCount + 1) m (m + 3) (m + 2)).code q = [] := by
    rw [Log.code_append, hnil₁ q (by omega),
      hst.armCode_eq_nil slots _ (by simp only [InRegion]; omega)]
    rfl
  obtain ⟨hs₃, hvalue₃⟩ := he.arm hse (show m + 1 < m + 3 + t.blockCount by omega)
    (fun q hq ↦ hnil₂ q (.inr hq)) hlive_e (fun x hx ↦ .inl (by rwa [hlive_m (m + 1) (by omega)]))
    (hlive_m (m + 2) (by omega)) (hnil₂ (m + 2) (.inl rfl)) (by simp only [InRegion]; omega)
  rw [List.append_assoc] at hs₃
  have hs := supplies_append.2 ⟨supplies_append.2 ⟨hs₁, hs₂⟩, hs₃⟩
  rw [code_conditional slots c t e r l n m hm]
  refine ⟨hs.phi fun s hmem ↦ ?_, fun x hx ↦ ?_⟩
  · simp only [← List.append_assoc]
    simp only [List.mem_cons, List.not_mem_nil, or_false] at hmem
    rcases hmem with rfl | rfl
    · exact hvalue₂.append _
    · exact hvalue₃
  · rcases List.mem_cons.1 hx with rfl | hx
    · rw [← List.append_assoc, show (Expr.conditional c t e).endBlock l n = m + 2 from hm ▸ rfl]
      exact available_result rfl
    · refine .inl ?_
      rw [show (Expr.conditional c t e).endBlock l n = m + 2 from hm ▸ rfl,
        hlive_m (m + 2) (by omega)]
      exact hx

/-- **Every operand in the code of an accepted tree is supplied.** -/
theorem Scoped.supplied (h : e.Scoped names names₁) (live : Label → List Register)
    (slots : String → Slot) : e.Supplied live slots := by
  induction h with
  | number | name =>
    intro pre known r l n hl hfresh hlive hknown
    have hs : Supplies live pre [] := trivial
    exact hs.compute (by simpa using hknown) rfl (List.nil_subset _)
  | plus _ ih | group _ ih => exact ih
  | minus _ ih => exact ih.minus
  | operator hop ha _ iha ihb => exact .operator hop ha iha ihb
  | assign x _ ih => exact .assign x ih
  | conditional hc ht he ihc iht ihe => exact .conditional hc ht he ihc iht ihe

/-! ### Names of blocks -/

/-- The number that is written in a name. -/
def numberIn (name : String) : Nat :=
  Nat.ofDigitChars 10 (name.toList.filter Char.isDigit) 0

/-- The number can be read off the name again. -/
theorem numberIn_numbered (base : String) (h : base.toList.filter Char.isDigit = []) (n : Nat) :
    numberIn (blockNames.numbered base n) = n := by
  have hdigits : (Decimal.digitsOf n).filter Char.isDigit = Decimal.digitsOf n :=
    List.filter_eq_self.2 fun c hc ↦ Nat.isDigit_of_mem_toDigits (by decide) (by decide) hc
  rw [numberIn, blockNames.numbered, String.toList_append, List.filter_append, h,
    String.toList_ofList, hdigits, List.nil_append]
  exact Nat.ofDigitChars_toDigits (by decide) (by decide)

/-- The blocks of the code are numbered in their names. -/
theorem map_numberIn_blockNames (e : Expr) (n : Label) :
    (e.blockNames n).map numberIn = List.range' n e.blockCount := by
  induction e generalizing n with
  | number | name | foreign => rfl
  | unary _ e ih | group e ih => exact ih n
  | binary op a b iha ihb =>
    rw [blockNames, blockCount]
    split
    · rw [List.map_append, iha, ihb, List.range'_append_1]
    · exact ihb n
  | conditional c t e ihc iht ihe =>
    have hcount : (conditional c t e).blockCount =
        c.blockCount + 3 + t.blockCount + e.blockCount := by
      rw [blockCount]
      omega
    rw [hcount, ← List.range'_append_1, ← List.range'_append_1, ← List.range'_append_1]
    simp only [blockNames, List.map_append, ihc, iht, ihe, List.map_cons, List.map_nil,
      numberIn_numbered "then" (by decide), numberIn_numbered "else" (by decide),
      numberIn_numbered "merge" (by decide), ← Nat.add_assoc]
    rfl

end Expr

/-! ### Single assignment -/

/-- A unit in single assignment form. -/
structure CodeUnit.SingleAssignment (u : CodeUnit) : Prop where
  /-- Every block is left by its last instruction, and by no other. -/
  endsOnce : ∀ b ∈ u.blocks, CodeUnit.endsOnce b = true
  names_nodup : (u.blocks.map Block.name).Nodup
  /-- Every register that was given out is computed by one instruction. -/
  results_perm : (u.blocks.flatMap fun b ↦ b.code.filterMap Instr.result?).Perm
    (List.range u.registers)
  /-- What an instruction reads has been computed before it, on every path to it. -/
  operands_produced : ∀ path q before i after, u.Path path q →
    (u.block q).code = before ++ i :: after →
    ∀ r ∈ i.operands, r ∈ u.produced path ++ before.filterMap Instr.result?
  /-- What a phi reads has been computed on every path through the block it belongs to. -/
  incoming_produced : ∀ q, ∀ i ∈ (u.block q).code, ∀ s ∈ i.incoming, ∀ path, u.Path path s.2 →
    s.1 ∈ u.produced (path ++ [s.2])
  /-- A phi is the first instruction of its block. -/
  headed : ∀ q, ∀ i ∈ (u.block q).code.tail, i.isPhi = false
  /-- A phi names the blocks that control may come from, each of them once. -/
  incoming_iff : ∀ q r incoming, .compute r (.phi incoming) ∈ (u.block q).code →
    (incoming.map (·.2)).Nodup ∧ ∀ p, p ∈ incoming.map (·.2) ↔ u.Edge p q
  reachable : ∀ q < u.blocks.length, ∃ path, u.Path path q
  acyclic : ∀ q, ¬Relation.TransGen u.Edge q q

theorem CodeUnit.blocks_eq_map (u : CodeUnit) :
    u.blocks = (List.range u.blocks.length).map u.block := by
  refine List.ext_getElem (by simp) fun l hl _ ↦ ?_
  simp [CodeUnit.block, hl]

namespace Expr

open Log

variable {e : Expr} {v : Variables} {names names' : List String} {unit : String} {st : Lowering}
  {slots : String → Slot}

theorem leads_program {p q : Label} :
    (e.program slots).Leads p q ↔ (e.code slots 0 0 1).Leads p q := by
  rw [program, Log.leads_append]
  simp [Log.Leads, Exit.targets]

/-- The registers that are live at the start of a block of a program. -/
def liveIn (e : Expr) (q : Label) : List Register :=
  if q = 0 then [] else e.live [] 0 1 q

/-- A whole program is supplied from nothing. -/
theorem Scoped.supplies_program (h : e.Scoped names names') (slots : String → Slot) :
    Supplies e.liveIn [] (e.program slots) := by
  obtain ⟨hs, hknown⟩ := h.supplied e.liveIn slots [] [] 0 0 1 Nat.zero_lt_one (fun _ _ ↦ rfl)
    (fun q hq ↦ if_neg (Nat.ne_of_gt hq.1)) (by simp)
  exact hs.exit hknown (by simp [Instr.operands]) (by simp [Exit.targets])

namespace LoweredAll

/-- The blocks of the lowered unit hold the program. -/
theorem code_eq (h : e.LoweredAll .interpreter unit v names st) (hs : e.Scoped v.names names)
    (l : Label) : (st.unit.block l).code = (e.program st.table.slotOf).code l := by
  rw [(h.holds hs).code_eq, h.target_eq]
  exact List.filter_eq_self.2 fun i _ ↦ Target.keeps_of_ne_native (by decide) i

/-- The edges of the lowered unit are those of the code. -/
theorem edge_iff (h : e.LoweredAll .interpreter unit v names st) (hs : e.Scoped v.names names)
    {p q : Label} : st.unit.Edge p q ↔ (e.code st.table.slotOf 0 0 1).Leads p q :=
  (edge_iff_leads (h.code_eq hs)).trans leads_program

theorem head?_listed {target : Target} (h : e.LoweredAll target unit v names st) :
    st.unit.listed.head? = some 0 := by
  rw [h.listed_eq, h.length_blocks, Nat.add_comm, List.range_succ_eq_map]
  rfl

/-- Nothing is live where a run starts. -/
theorem liveIn_of_head? {target : Target} (h : e.LoweredAll target unit v names st) (l : Label)
    (hl : st.unit.listed.head? = some l) : e.liveIn l = [] := by
  rw [h.head?_listed] at hl
  cases hl
  rfl

/-- No two blocks have the same name. -/
theorem names_nodup {target : Target} (h : e.LoweredAll target unit v names st) :
    (st.unit.blocks.map Block.name).Nodup := by
  refine List.Nodup.of_map numberIn ?_
  rw [(h.grown _ st.table.resolves_slotOf).blockNames_eq, List.map_append, map_numberIn_blockNames]
  have hentry : [numberIn "entry"] = List.range' 0 1 := by decide
  show ([numberIn "entry"] ++ _).Nodup
  rw [hentry, List.range'_append_1]
  exact List.nodup_range'

/-- **Each register is computed once.** -/
theorem results_perm (h : e.LoweredAll .interpreter unit v names st) (hs : e.Scoped v.names names) :
    (st.unit.blocks.flatMap fun b ↦ b.code.filterMap Instr.result?).Perm
      (List.range st.unit.registers) := by
  have hlt : ∀ i ∈ e.program st.table.slotOf, i.1 < st.unit.blocks.length := by
    intro i hi
    rw [h.length_blocks]
    have hregion : InRegion 0 1 e.blockCount i.1 := by
      rcases List.mem_append.1 hi with hi | hi
      · exact hs.mem_region _ 0 0 1 i hi
      · rw [List.mem_singleton.1 hi]
        exact hs.endBlock_inRegion 0 1
    rcases hregion with heq | ⟨-, hlt⟩
    · rw [heq]
      exact Nat.lt_add_right _ Nat.zero_lt_one
    · exact hlt
  have hregisters : st.unit.registers = e.registerCount := h.registers_eq.trans (Nat.zero_add _)
  rw [st.unit.blocks_eq_map, List.flatMap_map, hregisters, ← hs.results_program st.table.slotOf]
  simp only [h.code_eq hs]
  exact perm_results hlt

/-- Lowered code is in single assignment form. -/
theorem singleAssignment (h : e.LoweredAll .interpreter unit v names st)
    (hs : e.Scoped v.names names) : st.unit.SingleAssignment where
  endsOnce := fun b hb ↦ by
    rw [st.unit.blocks_eq_map] at hb
    obtain ⟨l, hl, rfl⟩ := List.mem_map.1 hb
    exact (h.closed_block hs (List.mem_range.1 hl)).endsOnce
  names_nodup := h.names_nodup
  results_perm := h.results_perm hs
  operands_produced := fun path q before i after hpath hcode ↦
    (hs.supplies_program _).operands_produced (h.code_eq hs) h.liveIn_of_head? hpath hcode
  incoming_produced := fun q i hi s hmem path hpath ↦
    (hs.supplies_program _).incoming_produced (h.code_eq hs) h.liveIn_of_head? hi hmem hpath
  headed := fun q ↦ by
    rw [h.code_eq hs]
    exact hs.headed_program _ q
  incoming_iff := fun q r incoming hphi ↦ by
    simp only [h.edge_iff hs]
    rw [h.code_eq hs, mem_code] at hphi
    refine hs.incoming_iff ((List.mem_append.1 hphi).resolve_right ?_)
    simp
  reachable := fun q hq ↦ by
    refine CodeUnit.exists_path h.head?_listed
      (hs.reachable (fun p q hlead ↦ (h.edge_iff hs).2 hlead) ?_)
    rw [h.length_blocks] at hq
    simp only [InRegion]
    omega
  acyclic := fun q ↦ by
    have hedge : st.unit.Edge = (e.program st.table.slotOf).Leads := by
      funext p q
      exact propext (edge_iff_leads (h.code_eq hs))
    rw [hedge]
    exact (hs.supplies_program _).acyclic q

/-- A run of a lowered unit enters every block at most once. -/
theorem nodup_visits (h : e.LoweredAll .interpreter unit v names st) (hs : e.Scoped v.names names)
    {u : CodeUnit} (hu : st.unit.compile = .ok u) {l : Label} (hl : u.listed.head? = some l)
    (budget : Nat) (m : Machine) : (Machine.visits u budget none l m).Nodup := by
  obtain rfl := CodeUnit.eq_of_compile_eq_ok hu
  obtain rfl : 0 = l := Option.some.inj (h.head?_listed.symm.trans hl)
  have hentry : 0 < st.unit.blocks.length := by
    rw [h.length_blocks]
    exact Nat.lt_add_right _ Nat.zero_lt_one
  have hclosed (p q : Label) (hedge : st.unit.Edge p q) : Closed (st.unit.block q).code := by
    refine h.closed_block hs ?_
    rw [h.length_blocks]
    exact (hs.isNew_of_leads ((h.edge_iff hs).1 hedge)).2
  have htarget : st.unit.target ≠ .native := by
    rw [h.target_eq]
    decide
  -- compiling has changed no block, so that the edges are those of the unit from before
  exact Machine.nodup_visits (u := { st.unit with compiled := true }) htarget hclosed
    (h.singleAssignment hs).acyclic budget none (h.closed_block hs hentry) m

end LoweredAll

end Expr

/-- **Lowered code is in single assignment form**, for every tree and every table. Building it never
fails, the interpreter accepts it, and a run enters every block at most once and returns a value. -/
theorem lowerAll_singleAssignment (e : Expr) (v : Variables) (unit : String) :
    (∀ fault st, e.lowerAll.run ⟨.new .interpreter unit, v, []⟩ ≠ .error (.code fault) st) ∧
    ∀ st, e.lowerAll.run ⟨.new .interpreter unit, v, []⟩ = .ok ⟨⟩ st →
      st.unit.SingleAssignment ∧
      ∃ u, st.unit.compile = .ok u ∧
        (∀ l ∈ u.listed.head?, ∀ budget storage,
          (Machine.visits u budget none l ⟨u.initialRegisters, storage⟩).Nodup) ∧
        ∀ storage, ∃ x storage', ∀ budget, u.blocks.length ≤ budget →
          u.run budget storage = ⟨.ok x, u, storage'⟩ := by
  rcases e.lowerAll_cases v .interpreter unit with
    ⟨names, st, hs, hrun, hst⟩ | ⟨why, st, hscope, hrun, -⟩
  · rw [hrun]
    refine ⟨fun _ _ ↦ nofun, fun st' hst' ↦ ?_⟩
    cases hst'
    have hcompile := hst.compile_eq hs
    exact ⟨hst.singleAssignment hs, _, hcompile,
      fun l hl budget storage ↦ hst.nodup_visits hs hcompile hl budget _,
      fun storage ↦ ⟨_, _, fun budget hbudget ↦ hst.run_eq hs hcompile hbudget storage⟩⟩
  · rw [hrun]
    refine ⟨fun fault st' heq ↦ ?_, fun _ ↦ nofun⟩
    cases heq
    cases Expr.isStatic_of_scope_error hscope

/-- A conditional in a branch of another one: its last block leads back to a block that was made
before it. -/
theorem lowerAll_singleAssignment_nested :
    let e : Expr :=
      .conditional (.number 1.0)
        (.conditional (.number 0.0) (.number 2.0) (.binary .assign (.name "a") (.number 3.0)))
        (.binary .plus (.number 4.0) (.number 5.0))
    ∃ st, e.lowerAll.run ⟨.new .interpreter "calc_0", .empty, []⟩ = .ok ⟨⟩ st ∧
      (st.unit.block 6).successors = [3] ∧ st.unit.SingleAssignment := by
  intro e
  have hlast : (match e.lowerAll.run ⟨.new .interpreter "calc_0", .empty, []⟩ with
      | .ok _ st => (st.unit.block 6).successors
      | .error _ _ => []) = [3] := by
    decide +kernel
  rcases hrun : e.lowerAll.run ⟨.new .interpreter "calc_0", .empty, []⟩ with ⟨⟨⟩, st⟩ | ⟨why, st⟩
  · rw [hrun] at hlast
    exact ⟨st, rfl, hlast, ((lowerAll_singleAssignment e .empty "calc_0").2 st hrun).1⟩
  · rw [hrun] at hlast
    cases hlast

end Reckoner
