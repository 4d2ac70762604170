import Reckoner.Code.Compile
import Reckoner.Proofs.Emission
import Mathlib.Data.List.Perm.Basic

/-!
# The blocks of the code

What the code of an accepted tree puts into a single block. Subtrees write into different blocks,
except that a tree goes on in the block in which the one before it has ended. So every block that
the code makes is left by its last instruction and by no other, the one in which the code ends
apart, which is still open (`Scoped.closed_code`, `Scoped.open_code`); a phi is only ever the first
instruction of a block (`Scoped.headed_code`). Every register is computed once, in the order of the
numbers (`Scoped.results_code`).
-/

namespace Reckoner

/-- Whether an instruction is a phi. -/
def Instr.isPhi : Instr → Bool
  | compute _ (.phi _) => true
  | _ => false

/-- A part of a block without exits. -/
def Open (code : List Instr) : Prop :=
  ∀ i ∈ code, i.isExit = false

/-- A part of a block that ends in an exit and has no other. -/
def Closed (code : List Instr) : Prop :=
  ∃ body x, code = body ++ [.exit x] ∧ Open body

/-- A part of a block with no phi behind its first instruction. -/
def Headed (code : List Instr) : Prop :=
  ∀ i ∈ code.tail, i.isPhi = false

theorem open_nil : Open [] := by
  simp [Open]

theorem Open.append {code code' : List Instr} (h : Open code) (h' : Open code') :
    Open (code ++ code') :=
  fun i hi ↦ (List.mem_append.1 hi).elim (h i) (h' i)

/-- An exit closes what is open. -/
theorem Open.closed {code : List Instr} (h : Open code) (x : Exit) : Closed (code ++ [.exit x]) :=
  ⟨code, x, rfl, h⟩

/-- What is open may stand before what is closed. -/
theorem Open.append_closed {code code' : List Instr} (h : Open code) (h' : Closed code') :
    Closed (code ++ code') := by
  obtain ⟨body, x, rfl, hbody⟩ := h'
  exact ⟨code ++ body, x, (List.append_assoc ..).symm, h.append hbody⟩

/-- Nothing is both. -/
theorem Closed.not_open {code : List Instr} (h : Closed code) : ¬Open code := by
  obtain ⟨body, x, rfl, -⟩ := h
  intro hopen
  have hexit := hopen (.exit x) (by simp)
  cases hexit

theorem Closed.isTerminated {b : Block} (h : Closed b.code) : b.isTerminated = true := by
  obtain ⟨body, x, hcode, -⟩ := h
  simp [Block.isTerminated, hcode, Instr.isExit]

/-- A closed block ends once. -/
theorem Closed.endsOnce {b : Block} (h : Closed b.code) : CodeUnit.endsOnce b = true := by
  obtain ⟨body, x, hcode, hbody⟩ := h
  have hany : body.any Instr.isExit = false := List.any_eq_false.2 fun i hi ↦ by simp [hbody i hi]
  simp [CodeUnit.endsOnce, Block.isTerminated, hcode, hany, Instr.isExit]

/-- Exits are kept by every target. -/
theorem Closed.filter {code : List Instr} (h : Closed code) (t : Target) :
    Closed (code.filter t.keeps) := by
  obtain ⟨body, x, rfl, hbody⟩ := h
  have hx : t.keeps (.exit x) = true := by cases t <;> rfl
  refine ⟨body.filter t.keeps, x, ?_, fun i hi ↦ hbody i (List.mem_of_mem_filter hi)⟩
  rw [List.filter_append, List.filter_cons_of_pos hx, List.filter_nil]

theorem headed_of_forall {code : List Instr} (h : ∀ i ∈ code, i.isPhi = false) : Headed code :=
  fun i hi ↦ h i (List.mem_of_mem_tail hi)

/-- What follows the head must not be a phi. -/
theorem Headed.append {code code' : List Instr} (h : Headed code)
    (h' : ∀ i ∈ code', i.isPhi = false) : Headed (code ++ code') := by
  rcases code with - | ⟨i, code⟩
  · exact headed_of_forall h'
  · intro j hj
    rcases List.mem_append.1 hj with hj | hj
    · exact h j hj
    · exact h' j hj

/-- The part of a log that goes into the block may follow, if there is no phi in the log. -/
theorem Headed.append_code {code : List Instr} {log : Log} (h : Headed code)
    (hlog : ∀ i ∈ log, i.2.isPhi = false) (q : Label) : Headed (code ++ log.code q) :=
  h.append fun i hi ↦ hlog (q, i) (Log.mem_code.1 hi)

/-- Checking a unit changes nothing but that it may be run. -/
theorem CodeUnit.eq_of_compile_eq_ok {u u' : CodeUnit} (h : u.compile = .ok u') :
    u' = { u with compiled := true } := by
  unfold compile at h
  split at h
  · split at h
    · cases h
    · exact (Except.ok.inj h).symm
  · split at h
    · cases h
    · split at h
      · exact (Except.ok.inj h).symm
      · cases h
  · cases h

namespace Log

/-- The registers that are computed, in order. -/
def results (log : Log) : List Register :=
  log.filterMap fun i ↦ i.2.result?

@[simp]
theorem results_append (log log' : Log) : results (log ++ log') = results log ++ results log' :=
  List.filterMap_append

/-- Of all blocks just one adds something. -/
theorem flatMap_range_ite {α : Type} (as : List α) {l k : Nat} (h : l < k) :
    (List.range k).flatMap (fun q ↦ if l = q then as else []) = as := by
  induction k with
  | zero => cases h
  | succ k ih =>
    rw [List.range_succ, List.flatMap_append]
    by_cases hk : l = k
    · have hnil : (List.range k).flatMap (fun q ↦ if l = q then as else []) = [] := by
        rw [List.flatMap_eq_nil_iff]
        intro q hq
        exact if_neg (hk ▸ Nat.ne_of_gt (List.mem_range.1 hq))
      rw [hnil, List.flatMap_singleton, if_pos hk]
      rfl
    · rw [ih (Nat.lt_of_le_of_ne (Nat.le_of_lt_succ h) hk)]
      simp [hk]

/-- Block by block the same registers are computed as in the log. -/
theorem perm_results {log : Log} {k : Nat} (h : ∀ i ∈ log, i.1 < k) :
    ((List.range k).flatMap fun l ↦ (log.code l).filterMap Instr.result?).Perm log.results := by
  induction log with
  | nil => simp [results]
  | cons i log ih =>
    obtain ⟨l, i⟩ := i
    obtain ⟨hl, hlog⟩ := List.forall_mem_cons.1 h
    have hcode (q : Label) : (code ((l, i) :: log) q).filterMap Instr.result? =
        (if l = q then i.result?.toList else []) ++ (code log q).filterMap Instr.result? := by
      rw [code_cons]
      split
      · rcases hi : i.result? with - | r <;> simp [hi]
      · rfl
    have hresults : results ((l, i) :: log) = i.result?.toList ++ results log := by
      rcases hi : i.result? with - | r <;> simp [results, hi]
    simp only [hcode, hresults]
    refine (List.flatMap_append_perm _ _ _).symm.trans ?_
    rw [flatMap_range_ite _ hl]
    exact (ih hlog).append_left _

end Log

namespace Expr

variable {a b c t e : Expr} {names names₁ names₂ names₃ : List String} {slots : String → Slot}
  {r : Register} {l n m q : Nat}

/-! ### Registers -/

/-- Every register of the code is computed once. -/
theorem Scoped.results_code (h : e.Scoped names names₁) (slots : String → Slot) (r : Register)
    (l n : Label) : (e.code slots r l n).results = List.range' r e.registerCount := by
  induction h generalizing r l n with
  | number | name => rfl
  | plus _ ih | group _ ih => exact ih r l n
  | @minus _ _ e _ ih =>
    show Log.results (e.code slots r l n ++ _) = List.range' r (e.registerCount + 2)
    rw [Log.results_append, ih, ← List.range'_append_1]
    rfl
  | @operator _ _ _ op f a b hop _ _ iha ihb =>
    rw [code_operator hop, registerCount_operator hop, Log.results_append, Log.results_append, iha,
      ihb, List.range'_append_1, ← List.range'_append_1 (m := a.registerCount + b.registerCount),
      Nat.add_assoc r]
    rfl
  | @assign _ _ e x _ ih =>
    show Log.results (e.code slots r l n ++ _) = List.range' r (e.registerCount + 1)
    rw [Log.results_append, ih, ← List.range'_append_1]
    rfl
  | @conditional _ _ _ _ c t e _ _ _ ihc iht ihe =>
    rw [code_conditional slots c t e r l n _ rfl, result_conditional]
    simp only [testCode, armCode, Log.results_append, ihc, iht, ihe]
    have hcount : (Expr.conditional c t e).registerCount =
        c.registerCount + 1 + t.registerCount + e.registerCount + 1 := by
      rw [registerCount]
      omega
    rw [hcount, ← List.range'_append_1, ← List.range'_append_1, ← List.range'_append_1,
      ← List.range'_append_1]
    simp only [← Nat.add_assoc]
    simp [Log.results, Instr.result?]

/-! ### Subtrees write into different blocks -/

/-- Code ends in a block that is there. -/
theorem Scoped.endBlock_lt (h : e.Scoped names names₁) (hl : l < n) :
    e.endBlock l n < n + e.blockCount := by
  rcases h.endBlock_inRegion l n with heq | ⟨-, hlt⟩
  · rw [heq]
    exact Nat.lt_add_right _ hl
  · exact hlt

/-- The arms of a conditional end in different blocks. -/
theorem endBlock_ne (ht : t.Scoped names names₁) (he : e.Scoped names₁ names₂) (m : Nat) :
    t.endBlock m (m + 3) ≠ e.endBlock (m + 1) (m + 3 + t.blockCount) := by
  intro heq
  have hlt := ht.endBlock_inRegion m (m + 3)
  have hle := he.endBlock_inRegion (m + 1) (m + 3 + t.blockCount)
  rw [← heq] at hle
  simp only [InRegion] at hlt hle
  omega

/-- A block of a conditional belongs to its test, to one of its arms, or joins them. -/
theorem code_conditional_cases (hc : c.Scoped names names₁) (ht : t.Scoped names₁ names₂)
    (he : e.Scoped names₂ names₃) (slots : String → Slot) (r : Register) (hl : l < n)
    (hm : n + c.blockCount = m) (hq : InRegion l n (conditional c t e).blockCount q) :
    (InRegion l n c.blockCount q ∧ ((conditional c t e).code slots r l n).code q =
      (c.testCode slots r l n).code q) ∨
    (InRegion m (m + 3) t.blockCount q ∧ ((conditional c t e).code slots r l n).code q =
      (t.armCode slots (r + c.registerCount + 1) m (m + 3) (m + 2)).code q) ∨
    (InRegion (m + 1) (m + 3 + t.blockCount) e.blockCount q ∧
      ((conditional c t e).code slots r l n).code q =
        (e.armCode slots (r + c.registerCount + 1 + t.registerCount) (m + 1)
          (m + 3 + t.blockCount) (m + 2)).code q) ∨
    (q = m + 2 ∧ ∃ incoming, ((conditional c t e).code slots r l n).code q =
      [.compute ((conditional c t e).result r) (.phi incoming)]) := by
  have hcases : InRegion l n c.blockCount q ∨ InRegion m (m + 3) t.blockCount q ∨
      InRegion (m + 1) (m + 3 + t.blockCount) e.blockCount q ∨ q = m + 2 := by
    simp only [InRegion, blockCount] at *
    omega
  rw [code_conditional slots c t e r l n m hm]
  simp only [Log.code_append, Log.code_cons, Log.code_nil]
  have hother : q ≠ m + 2 → ¬m + 2 = q := Ne.symm
  rcases hcases with hq | hq | hq | rfl
  · refine .inl ⟨hq, ?_⟩
    rw [ht.armCode_eq_nil, he.armCode_eq_nil, if_neg (hother ?_), List.append_nil, List.append_nil,
      List.append_nil] <;> simp only [InRegion] at * <;> omega
  · refine .inr (.inl ⟨hq, ?_⟩)
    rw [hc.testCode_eq_nil, he.armCode_eq_nil, if_neg (hother ?_), List.append_nil, List.append_nil,
      List.nil_append] <;> simp only [InRegion] at * <;> omega
  · refine .inr (.inr (.inl ⟨hq, ?_⟩))
    rw [hc.testCode_eq_nil, ht.armCode_eq_nil, if_neg (hother ?_), List.append_nil, List.nil_append,
      List.nil_append] <;> simp only [InRegion] at * <;> omega
  · refine .inr (.inr (.inr ⟨rfl, [(t.result (r + c.registerCount + 1), t.endBlock m (m + 3)),
      (e.result (r + c.registerCount + 1 + t.registerCount),
        e.endBlock (m + 1) (m + 3 + t.blockCount))], ?_⟩))
    rw [hc.testCode_eq_nil, ht.armCode_eq_nil, he.armCode_eq_nil, if_pos rfl]
    · rfl
    all_goals
      simp only [InRegion] at *
      omega

/-! ### Exits -/

/-- The code leaves the block open in which it ends. -/
theorem Scoped.open_code (h : e.Scoped names names₁) (slots : String → Slot) (r : Register)
    (hl : l < n) : Open ((e.code slots r l n).code (e.endBlock l n)) := by
  induction h generalizing r l n with
  | number | name => simp [Open, code, endBlock, Instr.isExit]
  | plus _ ih | group _ ih => exact ih r hl
  | @minus _ _ e _ ih =>
    show Open (Log.code (e.code slots r l n ++ _) (e.endBlock l n))
    rw [Log.code_append]
    exact (ih r hl).append (by simp [Open, Instr.isExit])
  | @operator _ _ _ op f a b hop ha hb iha ihb =>
    rw [code_operator hop, Log.code_append, Log.code_append, endBlock_operator hop]
    refine .append (.append ?_ (ihb _ (ha.endBlock_lt hl))) (by simp [Open, Instr.isExit])
    -- either the second operand ends where the first one did, or the first one has not been there
    rcases hb.endBlock_inRegion (a.endBlock l n) (n + a.blockCount) with heq | ⟨hle, -⟩
    · rw [heq]
      exact iha r hl
    · rw [ha.code_eq_nil slots r (by simp only [InRegion]; omega)]
      exact open_nil
  | @assign _ _ e x _ ih =>
    show Open (Log.code (e.code slots r l n ++ _) (e.endBlock l n))
    rw [Log.code_append]
    exact (ih r hl).append (by simp [Open, Instr.isExit])
  | @conditional _ _ _ _ c t e hc ht he =>
    have hend : (Expr.conditional c t e).endBlock l n = n + c.blockCount + 2 := rfl
    have hregion := (Scoped.conditional hc ht he).endBlock_inRegion l n
    rcases code_conditional_cases hc ht he slots r hl rfl hregion with
      ⟨hq, -⟩ | ⟨hq, -⟩ | ⟨hq, -⟩ | ⟨-, incoming, heq⟩
    · simp only [InRegion, hend] at hq
      omega
    · simp only [InRegion, hend] at hq
      omega
    · simp only [InRegion, hend] at hq
      omega
    · rw [heq]
      simp [Open, Instr.isExit]

/-- With an exit behind the code every block is left by its last instruction, if that is so for the
blocks in which the code does not end. -/
theorem Scoped.closed_append_exit (h : e.Scoped names names₁) (hl : l < n)
    (hclosed : ∀ q, InRegion l n e.blockCount q → q ≠ e.endBlock l n →
      Closed ((e.code slots r l n).code q)) (hq : InRegion l n e.blockCount q) (x : Exit) :
    Closed (Log.code (e.code slots r l n ++ [(e.endBlock l n, .exit x)]) q) := by
  rw [Log.code_append, Log.code_cons]
  by_cases heq : e.endBlock l n = q
  · subst heq
    rw [if_pos rfl]
    exact (h.open_code slots r hl).closed _
  · rw [if_neg heq, Log.code_nil, List.append_nil]
    exact hclosed q hq (Ne.symm heq)

/-- Every other block of the code is left by its last instruction, and by no other. -/
theorem Scoped.closed_code (h : e.Scoped names names₁) (slots : String → Slot) (r : Register)
    (hl : l < n) (hq : InRegion l n e.blockCount q) (hend : q ≠ e.endBlock l n) :
    Closed ((e.code slots r l n).code q) := by
  induction h generalizing r l n q with
  | number | name =>
    simp only [InRegion, blockCount, endBlock] at hq hend
    omega
  | plus _ ih | group _ ih => exact ih r hl hq hend
  | @minus _ _ e _ ih =>
    have hne : e.endBlock l n ≠ q := Ne.symm hend
    show Closed (Log.code (e.code slots r l n ++ _) q)
    rw [Log.code_append, Log.code_cons, Log.code_cons, if_neg hne, if_neg hne, Log.code_nil,
      List.append_nil]
    exact ih r hl hq hend
  | @operator _ _ _ op f a b hop ha hb iha ihb =>
    rw [code_operator hop, Log.code_append, Log.code_cons, if_neg (Ne.symm hend), Log.code_nil,
      List.append_nil, Log.code_append]
    rw [endBlock_operator hop] at hend
    by_cases hqb : InRegion (a.endBlock l n) (n + a.blockCount) b.blockCount q
    · refine Open.append_closed ?_ (ihb _ (ha.endBlock_lt hl) hqb hend)
      rcases hqb with heq | ⟨hle, -⟩
      · rw [heq]
        exact ha.open_code slots r hl
      · rw [ha.code_eq_nil slots r (by simp only [InRegion]; omega)]
        exact open_nil
    · rw [hb.code_eq_nil slots _ hqb, List.append_nil]
      refine iha r hl ?_ fun heq ↦ hqb (.inl heq)
      simp only [InRegion, blockCount_operator hop] at *
      omega
  | @assign _ _ e x _ ih =>
    have hne : e.endBlock l n ≠ q := Ne.symm hend
    show Closed (Log.code (e.code slots r l n ++ _) q)
    rw [Log.code_append, Log.code_cons, Log.code_cons, if_neg hne, if_neg hne, Log.code_nil,
      List.append_nil]
    exact ih r hl hq hend
  | @conditional _ _ _ _ c t e hc ht he ihc iht ihe =>
    rcases code_conditional_cases hc ht he slots r hl rfl hq with
      ⟨hq, heq⟩ | ⟨hq, heq⟩ | ⟨hq, heq⟩ | ⟨hq, -⟩
    · by_cases hlast : c.endBlock l n = q
      · subst hlast
        have hopen : Open ((c.code slots r l n).code (c.endBlock l n) ++
            [.compute (r + c.registerCount) (.truth (c.result r))]) :=
          (hc.open_code slots r hl).append (by simp [Open, Instr.isExit])
        rw [heq]
        simpa [testCode] using hopen.closed _
      · rw [heq]
        simpa [testCode, hlast] using ihc r hl hq (Ne.symm hlast)
    · rw [heq]
      exact ht.closed_append_exit (by omega) (fun q hq ↦ iht _ (by omega) hq) hq _
    · rw [heq]
      exact he.closed_append_exit (by omega) (fun q hq ↦ ihe _ (by omega) hq) hq _
    · exact absurd hq hend

/-! ### Phis -/

theorem isPhi_computation (op : Kind) (r r₁ r₂ : Register) :
    (Instr.compute r (op.computation r₁ r₂)).isPhi = false := by
  cases op <;> rfl

/-- Phis are only written into new blocks. -/
theorem Scoped.isNew_of_isPhi (h : e.Scoped names names₁) (slots : String → Slot) (r : Register)
    (l n : Label) : ∀ i ∈ e.code slots r l n, i.2.isPhi = true → IsNew n e.blockCount i.1 := by
  induction h generalizing r l n with
  | number | name => simp [code, Instr.isPhi]
  | plus _ ih | group _ ih => exact ih r l n
  | minus _ ih | assign _ _ ih =>
    intro i hi hphi
    rcases List.mem_append.1 hi with hi | hi
    · exact ih r l n i hi hphi
    · simp only [List.mem_cons, List.not_mem_nil, or_false] at hi
      rcases hi with rfl | rfl <;> cases hphi
  | @operator _ _ _ op f a b hop ha hb iha ihb =>
    intro i hi hphi
    rw [code_operator hop, List.mem_append, List.mem_append, List.mem_singleton] at hi
    simp only [IsNew, blockCount_operator hop] at *
    rcases hi with (hi | hi) | rfl
    · have := iha _ _ _ i hi hphi
      omega
    · have := ihb _ _ _ i hi hphi
      omega
    · rw [isPhi_computation] at hphi
      cases hphi
  | @conditional _ _ _ _ c t e hc ht he ihc iht ihe =>
    intro i hi hphi
    simp only [code, List.mem_append, List.mem_cons, List.not_mem_nil, or_false] at hi
    simp only [IsNew, blockCount] at *
    rcases hi with (((((hi | rfl | rfl) | hi) | rfl) | hi) | rfl) | rfl
    · have := ihc _ _ _ i hi hphi
      omega
    · cases hphi
    · cases hphi
    · have := iht _ _ _ i hi hphi
      omega
    · cases hphi
    · have := ihe _ _ _ i hi hphi
      omega
    · cases hphi
    · omega

/-- A block that was there before the code gets no phi from it. -/
theorem Scoped.philess_code (h : e.Scoped names names₁) (slots : String → Slot) (r : Register)
    (l : Label) (hq : q < n) : ∀ i ∈ (e.code slots r l n).code q, i.isPhi = false := by
  intro i hi
  by_contra hphi
  have hnew := h.isNew_of_isPhi slots r l n (q, i) (Log.mem_code.1 hi) (Bool.not_eq_false _ ▸ hphi)
  exact Nat.not_le_of_lt hq hnew.1

/-- **A phi is the first instruction of its block.** -/
theorem Scoped.headed_code (h : e.Scoped names names₁) (slots : String → Slot) (r : Register)
    (hl : l < n) (q : Label) : Headed ((e.code slots r l n).code q) := by
  induction h generalizing r l n q with
  | number | name =>
    exact headed_of_forall fun i hi ↦ by
      obtain ⟨-, rfl⟩ := Prod.mk.inj (List.mem_singleton.1 (Log.mem_code.1 hi))
      rfl
  | plus _ ih | group _ ih => exact ih r hl q
  | @minus _ _ e _ ih =>
    show Headed (Log.code (e.code slots r l n ++ _) q)
    rw [Log.code_append]
    exact (ih r hl q).append_code (by simp [Instr.isPhi]) q
  | @operator _ _ _ op f a b hop ha hb iha ihb =>
    rw [code_operator hop, Log.code_append, Log.code_append]
    refine Headed.append_code ?_ (by simp [isPhi_computation]) q
    -- a block of the first operand is an old one for the second
    by_cases hq : InRegion l n a.blockCount q
    · refine (iha r hl q).append (hb.philess_code slots _ _ ?_)
      simp only [InRegion] at hq
      omega
    · rw [ha.code_eq_nil slots r hq]
      exact ihb _ (ha.endBlock_lt hl) q
  | @assign _ _ e x _ ih =>
    show Headed (Log.code (e.code slots r l n ++ _) q)
    rw [Log.code_append]
    exact (ih r hl q).append_code (by simp [Instr.isPhi]) q
  | @conditional _ _ _ _ c t e hc ht he ihc iht ihe =>
    by_cases hq : InRegion l n (Expr.conditional c t e).blockCount q
    · rcases code_conditional_cases hc ht he slots r hl rfl hq with
        ⟨-, heq⟩ | ⟨-, heq⟩ | ⟨-, heq⟩ | ⟨-, incoming, heq⟩
      · rw [heq, testCode, Log.code_append]
        exact (ihc r hl q).append_code (by simp [Instr.isPhi]) q
      · rw [heq, armCode, Log.code_append]
        exact (iht _ (by omega) q).append_code (by simp [Instr.isPhi]) q
      · rw [heq, armCode, Log.code_append]
        exact (ihe _ (by omega) q).append_code (by simp [Instr.isPhi]) q
      · rw [heq]
        simp [Headed]
    · rw [(Scoped.conditional hc ht he).code_eq_nil slots r hq]
      simp [Headed]

/-! ### Programs -/

/-- **The registers of a program are numbered in the order in which they are computed.** -/
theorem Scoped.results_program (h : e.Scoped names names₁) (slots : String → Slot) :
    (e.program slots).results = List.range e.registerCount := by
  rw [program, Log.results_append, h.results_code, List.range_eq_range']
  exact List.append_nil _

/-- Every block of a program is left by its last instruction, and by no other. -/
theorem Scoped.closed_program (h : e.Scoped names names₁) (slots : String → Slot)
    (hq : q < 1 + e.blockCount) : Closed ((e.program slots).code q) := by
  refine h.closed_append_exit Nat.zero_lt_one
    (fun q hq hend ↦ h.closed_code slots 0 Nat.zero_lt_one hq hend) ?_ _
  simp only [InRegion]
  omega

/-- In a program a phi comes first in its block. -/
theorem Scoped.headed_program (h : e.Scoped names names₁) (slots : String → Slot) (q : Label) :
    Headed ((e.program slots).code q) := by
  rw [program, Log.code_append]
  exact (h.headed_code slots 0 Nat.zero_lt_one q).append_code (by simp [Instr.isPhi]) q

end Expr

end Reckoner
