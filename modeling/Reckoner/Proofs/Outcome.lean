import Reckoner.Proofs.Rollback
import Reckoner.Proofs.SingleAssignment

/-!
# What an evaluation comes to

The interpreter and native code take the same lowered units: a native unit of a lowered tree is well
formed, and its phis read what was computed before them (`Expr.LoweredAll.compile_native`). So what
an evaluation gives and what it does to the table depend on the settings only in so far as these
keep every unit from being run (`Settings.refusal?`).

All that an evaluation can do is in `evaluate_cases`. A tree that the static pass refuses, or that
may not be run, leaves the table with cells to spare; every other one declares its new names and
changes the storage.
-/

namespace Reckoner

/-! ### Native units -/

namespace Expr

open Lowering

variable {a b c t e : Expr} {names names₁ : List String} {slots : String → Slot} {r l n q : Nat}

/-- **A phi reads registers from before its own.** -/
theorem Scoped.incoming_lt (h : e.Scoped names names₁) {r' : Nat}
    {incoming : List (Register × Label)}
    (hphi : (q, .compute r' (.phi incoming)) ∈ e.code slots r l n) :
    ∀ s ∈ incoming, s.1 < r' := by
  induction h generalizing r l n with
  | number | name => cases List.mem_singleton.1 hphi
  | plus _ ih | group _ ih => exact ih hphi
  | minus _ ih | assign _ _ ih =>
    refine ih ((List.mem_append.1 hphi).resolve_right ?_)
    simp
  | @operator _ _ _ op f a b hop ha hb iha ihb =>
    rw [code_operator hop, List.mem_append, List.mem_append] at hphi
    rcases hphi with (hphi | hphi) | hphi
    · exact iha hphi
    · exact ihb hphi
    · have hcompute := congrArg (fun i ↦ i.2.isPhi) (List.mem_singleton.1 hphi)
      rw [isPhi_computation] at hcompute
      cases hcompute
  | @conditional _ _ _ _ c t e hc ht he ihc iht ihe =>
    rw [code_conditional slots c t e r l n _ rfl] at hphi
    simp only [testCode, armCode, List.mem_append] at hphi
    rcases hphi with ((((hphi | hphi) | (hphi | hphi)) | (hphi | hphi)) | hphi)
    · exact ihc hphi
    · simp at hphi
    · exact iht hphi
    · simp at hphi
    · exact ihe hphi
    · simp at hphi
    -- registers are given out in order, and the arms come before the phi
    · cases List.mem_singleton.1 hphi
      have htrue := ht.result_lt (r + c.registerCount + 1)
      have hfalse := he.result_lt (r + c.registerCount + 1 + t.registerCount)
      rw [result_conditional]
      simp only [List.mem_cons, List.not_mem_nil, or_false]
      rintro s (rfl | rfl)
      · exact Nat.lt_of_lt_of_le htrue (Nat.le_add_right _ _)
      · exact hfalse

namespace LoweredAll

variable {v : Variables} {target : Target} {unit : String} {st : Lowering}

/-- A phi of a unit stands in the code of the tree. -/
theorem mem_code_of_isPhi (h : e.LoweredAll target unit v names st) (hs : e.Scoped v.names names)
    {q : Label} {i : Instr} (hi : i ∈ (st.unit.block q).code) (hphi : i.isPhi = true) :
    (q, i) ∈ e.code st.table.slotOf 0 0 1 := by
  rw [(h.holds hs).code_eq] at hi
  refine (List.mem_append.1 (Log.mem_code.1 (List.mem_of_mem_filter hi))).resolve_right ?_
  rintro hret
  cases List.mem_singleton.1 hret
  cases hphi

/-- Whatever the target, control goes in a unit where it goes in the code of the tree. -/
theorem edge_of_leads (h : e.LoweredAll target unit v names st) (hs : e.Scoped v.names names)
    {p q : Label} (hlead : (e.code st.table.slotOf 0 0 1).Leads p q) : st.unit.Edge p q := by
  obtain ⟨x, hx, hq⟩ := hlead
  refine CodeUnit.edge_iff.2 ⟨x, ?_, hq⟩
  rw [(h.holds hs).code_eq]
  exact List.mem_filter.2 ⟨Log.mem_code.2 (List.mem_append_left _ hx), Point.keeps_exit _ x⟩

/-- No phi of a lowered unit reads a register that was given out after its own. -/
theorem not_looksAhead (h : e.LoweredAll target unit v names st) (hs : e.Scoped v.names names) :
    ∀ b ∈ st.unit.blocks, ∀ i ∈ b.code, CodeUnit.looksAhead i = false := by
  intro b hb i hi
  rw [st.unit.blocks_eq_map] at hb
  obtain ⟨l, -, rfl⟩ := List.mem_map.1 hb
  rcases i with ⟨r, c⟩ | - | -
  · cases c with
    | phi incoming =>
      have hlt := hs.incoming_lt (h.mem_code_of_isPhi hs hi rfl)
      exact List.any_eq_false.2 fun s hmem ↦ by simpa using hlt s hmem
    | _ => rfl
  · rfl
  · rfl

theorem isWellFormed (h : e.LoweredAll target unit v names st) (hs : e.Scoped v.names names) :
    st.unit.isWellFormed = true := by
  refine List.all_eq_true.2 fun l hl ↦ Bool.and_eq_true_iff.2 ⟨?_, ?_⟩
  · exact (h.closed_block hs (List.mem_range.1 hl)).endsOnce
  · refine List.all_eq_true.2 fun i hi ↦ ?_
    rcases i with ⟨r, c⟩ | - | -
    · cases c with
      | phi incoming =>
        have hincoming := (hs.incoming_iff (h.mem_code_of_isPhi hs hi rfl)).2
        refine List.all_eq_true.2 fun s hmem ↦ ?_
        exact List.contains_iff_mem.2
          (h.edge_of_leads hs ((hincoming s.2).1 (List.mem_map_of_mem hmem)))
      | _ => rfl
    · rfl
    · rfl

/-- **Native code accepts every lowered unit.** -/
theorem compile_native (h : e.LoweredAll .native unit v names st) (hs : e.Scoped v.names names) :
    st.unit.compile = .ok { st.unit with compiled := true } := by
  have hahead : (st.unit.blocks.any fun b ↦ b.code.any CodeUnit.looksAhead) = false := by
    simp only [List.any_eq_false, Bool.not_eq_true]
    exact h.not_looksAhead hs
  have htarget : st.unit.target = .native := h.target_eq
  simp [CodeUnit.compile, htarget, hahead, h.isWellFormed hs]

end LoweredAll

end Expr

/-! ### Outcomes -/

/-- Why no lowered unit may be run under the settings, if that is so. -/
def Settings.refusal? (s : Settings) : Option EvalError :=
  match s.listings with
  | .blocked fault => some (.listing fault)
  | _ => if s.target = .refusing then some (.code .refused) else none

theorem Settings.refusal?_of_blocked {s : Settings} {fault : ListingFault}
    (h : s.listings = .blocked fault) : s.refusal? = some (.listing fault) := by
  rw [refusal?, h]

theorem Settings.refusal?_of_ne_blocked {s : Settings} (h : ∀ fault, s.listings ≠ .blocked fault) :
    s.refusal? = if s.target = .refusing then some (.code .refused) else none := by
  rcases hl : s.listings with - | - | fault
  · rw [refusal?, hl]
  · rw [refusal?, hl]
  · exact absurd hl (h fault)

/-- The result of an evaluation and the table afterwards. -/
def Evaluation.outcome (done : Evaluation) : Except EvalError Float × Variables :=
  (done.result, done.table)

/-- The value of a tree whose names are all declared, and the table with the storage that its
evaluation leaves. -/
def Expr.effect (e : Expr) (v : Variables) : Except EvalError Float × Variables :=
  let (x, storage) := e.eval (.bySlot v.slotOf) v.storage
  (.ok x, { v with storage })

section

open Lowering

variable {s : Settings} {unit : String} {e : Expr} {v : Variables} {st : Lowering}
  {names fresh : List String}

/-- The names that were declared are those that the table has in addition. -/
theorem Lowering.Declares.declared_eq {u : CodeUnit} (h : Declares ⟨u, v, []⟩ st)
    (hnames : st.table.names = v.names ++ fresh) : st.declared = fresh := by
  have heq := h.forgettable.2.2.1
  rw [hnames] at heq
  exact (List.append_cancel_left heq).symm

theorem Lowering.Declares.table_eq {u : CodeUnit} (h : Declares ⟨u, v, []⟩ st)
    (hnames : st.table.names = v.names ++ fresh) : st.table = v.extend fresh := by
  obtain ⟨fresh', htable, hdeclared, -⟩ := id h
  rw [htable, ← h.declared_eq hnames, hdeclared]
  rfl

/-- A unit that may not be run is given up. -/
theorem outcome_of_refusal (hs : e.Scoped v.names (v.names ++ fresh)) {why : EvalError}
    (hwhy : s.refusal? = some why) (unit : String) :
    (evaluate s unit e v).outcome = (.error why, v.spare fresh.length) := by
  obtain ⟨st, hrun, hst⟩ := hs.run_lowerAll s.target unit
  have hundo := hst.declares.undo_eq_spare why
  rw [hst.declares.declared_eq hst.names_eq] at hundo
  by_cases hlistings : ∃ fault, s.listings = .blocked fault
  · obtain ⟨fault, hfault⟩ := hlistings
    obtain rfl : .listing fault = why :=
      Option.some.inj ((Settings.refusal?_of_blocked hfault).symm.trans hwhy)
    rw [evaluate_of_blocked hrun hfault, hundo, Evaluation.outcome]
  · rw [not_exists] at hlistings
    rw [Settings.refusal?_of_ne_blocked hlistings, Option.ite_none_right_eq_some] at hwhy
    obtain ⟨htarget, rfl⟩ : s.target = .refusing ∧ .code .refused = why :=
      hwhy.imp_right Option.some.inj
    have hu : st.unit.compile = .error .refused := by
      rw [CodeUnit.compile, hst.target_eq, htarget]
    rw [evaluate_of_rejected hrun hlistings hu, hundo, Evaluation.outcome]

/-- A unit that may be run gives the value of the tree and has its effect. -/
theorem outcome_of_scoped (hs : e.Scoped v.names (v.names ++ fresh)) (hwhy : s.refusal? = none)
    (unit : String) : (evaluate s unit e v).outcome = e.effect (v.extend fresh) := by
  obtain ⟨st, hrun, hst⟩ := hs.run_lowerAll s.target unit
  have hlistings : ∀ fault, s.listings ≠ .blocked fault := by
    intro fault hfault
    rw [Settings.refusal?_of_blocked hfault] at hwhy
    cases hwhy
  have hu : st.unit.compile = .ok { st.unit with compiled := true } := by
    rw [Settings.refusal?_of_ne_blocked hlistings] at hwhy
    rcases htarget : s.target with - | - | -
    · rw [htarget] at hst
      exact hst.compile_eq hs
    · rw [htarget] at hst
      exact hst.compile_native hs
    · rw [if_pos htarget] at hwhy
      cases hwhy
  obtain ⟨hresult, htable⟩ := evaluate_of_compile hs hrun hst hlistings hu
  rw [Evaluation.outcome, hresult, htable, hst.declares.table_eq hst.names_eq]
  rfl

/-- A tree that the static pass refuses fails with the fault of the pass. How many cells have been
made by then does not depend on the settings. -/
theorem outcome_of_scope_error {why : EvalError} (h : e.scope v.names = .error why) :
    ∃ k, ∀ s unit, (evaluate s unit e v).outcome = (.error why, v.spare k) := by
  -- what is declared when lowering stops is the same for all settings
  obtain ⟨names, hstops⟩ := Expr.run_lowerAll_of_error h
  refine ⟨names.length - v.names.length, fun s unit ↦ ?_⟩
  obtain ⟨st, hrun, hdeclares, hnames⟩ := hstops s.target unit
  have hlength : names.length - v.names.length = st.declared.length := by
    rw [← hnames, hdeclares.forgettable.2.2.1, List.length_append, Nat.add_sub_cancel_left]
  rw [evaluate_of_stopped hrun, hdeclares.undo_eq_spare, hlength, Evaluation.outcome]

/-- An accepted tree declares new names, each of them once. -/
theorem Expr.Scoped.exists_fresh (h : e.Scoped v.names names) :
    ∃ fresh, names = v.names ++ fresh ∧ fresh.Nodup ∧ ∀ x ∈ fresh, x ∉ v.names := by
  obtain ⟨st, -, hst⟩ := h.run_lowerAll .interpreter ""
  obtain ⟨hnodup, hfresh, hnames, -⟩ := hst.declares.forgettable
  exact ⟨st.declared, hst.names_eq.symm.trans hnames, hnodup, hfresh⟩

/-- **What an evaluation comes to**, whatever the settings and the name of the unit. -/
theorem evaluate_cases (e : Expr) (v : Variables) :
    (∃ why k, e.scope v.names = .error why ∧
      ∀ s unit, (evaluate s unit e v).outcome = (.error why, v.spare k)) ∨
    ∃ fresh, e.Scoped v.names (v.names ++ fresh) ∧ fresh.Nodup ∧ (∀ x ∈ fresh, x ∉ v.names) ∧
      ∀ s unit, (evaluate s unit e v).outcome =
        match s.refusal? with
        | some why => (.error why, v.spare fresh.length)
        | none => e.effect (v.extend fresh) := by
  rcases hscope : e.scope v.names with why | names
  · obtain ⟨k, hk⟩ := outcome_of_scope_error hscope
    exact .inl ⟨why, k, rfl, hk⟩
  · have hs := Expr.scoped_of_scope hscope
    obtain ⟨fresh, rfl, hnodup, hfresh⟩ := hs.exists_fresh
    refine .inr ⟨fresh, hs, hnodup, hfresh, fun s unit ↦ ?_⟩
    rcases hwhy : s.refusal? with - | why
    · exact outcome_of_scoped hs hwhy unit
    · exact outcome_of_refusal hs hwhy unit

/-- The settings matter to what an evaluation comes to only if no unit may be run. -/
theorem outcome_congr {s s' : Settings} (h : s.refusal? = s'.refusal?) (unit unit' : String)
    (e : Expr) (v : Variables) :
    (evaluate s unit e v).outcome = (evaluate s' unit' e v).outcome := by
  rcases evaluate_cases e v with ⟨why, k, -, houtcome⟩ | ⟨fresh, -, -, -, houtcome⟩
  · rw [houtcome, houtcome]
  · rw [houtcome, houtcome, h]

end

end Reckoner
