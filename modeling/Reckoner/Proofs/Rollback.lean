import Reckoner.Proofs.Evaluation

/-!
# An evaluation that fails leaves the table as it was

Whatever goes wrong in an evaluation goes wrong before the unit runs: in lowering, in tracing, or in
checking. Each of these takes back the names that were declared, which restores the table
(`Lowering.Declares.undo_eq`). Once a unit has been checked it cannot fail any more
(`Expr.LoweredAll.run_eq`), for any target, so nothing has to be taken back after a run.
-/

namespace Reckoner

open Lowering

variable {s : Settings} {unit : String} {e : Expr} {v : Variables} {st : Lowering}

/-- The names that a lowering from a table has declared are new ones, each of them declared once,
and they can be forgotten. -/
theorem Lowering.Declares.forgettable {u : CodeUnit} (h : Declares ⟨u, v, []⟩ st) :
    st.declared.Nodup ∧ (∀ x ∈ st.declared, x ∉ v.names) ∧
      st.table.names = v.names ++ st.declared ∧ (st.table.forgetAll st.declared).1 = none := by
  obtain ⟨fresh, htable, hdeclared, hnodup, hfresh⟩ := h
  obtain rfl : st.declared = fresh := hdeclared
  refine ⟨hnodup, hfresh, ?_, ?_⟩
  · rw [htable, Variables.names_extend]
  · rw [htable, Variables.forgetAll_extend hnodup hfresh]

/-- A unit whose listing cannot be written is given up. -/
theorem evaluate_of_blocked (hrun : e.lowerAll.run ⟨.new s.target unit, v, []⟩ = .ok ⟨⟩ st)
    {fault : ListingFault} (hfault : s.listings = .blocked fault) :
    evaluate s unit e v = st.undo (.listing fault) (s.traceLog st.unit) none := by
  simp only [evaluate, hrun, hfault]

/-- A unit that does not pass the check is given up. -/
theorem evaluate_of_rejected (hrun : e.lowerAll.run ⟨.new s.target unit, v, []⟩ = .ok ⟨⟩ st)
    (hlistings : ∀ fault, s.listings ≠ .blocked fault) {fault : CodeFault}
    (hu : st.unit.compile = .error fault) :
    evaluate s unit e v = st.undo (.code fault) (s.traceLog st.unit)
      (if s.listings = .file then some st.unit.listing else none) := by
  rcases hl : s.listings with - | - | fault'
  · simp [evaluate, hrun, hl, hu]
  · simp [evaluate, hrun, hl, hu]
  · exact absurd hl (hlistings fault')

/-- Where lowering has succeeded, an evaluation fails in tracing or in checking, and takes back the
names that were declared. -/
theorem evaluate_of_lowered {names : List String} (hs : e.Scoped v.names names)
    (hrun : e.lowerAll.run ⟨.new s.target unit, v, []⟩ = .ok ⟨⟩ st)
    (hst : e.LoweredAll s.target unit v names st) :
    (∃ x, (evaluate s unit e v).result = .ok x) ∨
      ∃ why log listing, evaluate s unit e v = st.undo why log listing ∧
        ∀ x, why ≠ .unknownName x := by
  by_cases hlistings : ∃ fault, s.listings = .blocked fault
  · obtain ⟨fault, hfault⟩ := hlistings
    exact .inr ⟨_, _, _, evaluate_of_blocked hrun hfault, fun x h ↦ by cases h⟩
  · rw [not_exists] at hlistings
    rcases hu : st.unit.compile with fault | u
    · exact .inr ⟨_, _, _, evaluate_of_rejected hrun hlistings hu, fun x h ↦ by cases h⟩
    · exact .inl ⟨_, (evaluate_of_compile hs hrun hst hlistings hu).1⟩

/-- Where lowering has stopped, an evaluation fails with the fault, and takes back the names that
were declared. -/
theorem evaluate_of_stopped {why : EvalError}
    (hrun : e.lowerAll.run ⟨.new s.target unit, v, []⟩ = .error why st) :
    evaluate s unit e v = st.undo why [] none := by
  rw [evaluate, hrun]

/-- An evaluation that fails restores the table. -/
theorem restored_of_error {why : EvalError} (h : (evaluate s unit e v).result = .error why) :
    v.Restored (evaluate s unit e v).table ∧ ∀ x, why ≠ .unknownName x := by
  obtain ⟨st, why', log, listing, heq, hdeclares, hne⟩ : ∃ st why' log listing,
      evaluate s unit e v = Lowering.undo st why' log listing ∧
        Declares ⟨.new s.target unit, v, []⟩ st ∧ ∀ x, why' ≠ .unknownName x := by
    rcases e.lowerAll_cases v s.target unit with
      ⟨names, st, hs, hrun, hst⟩ | ⟨why', st, hscope, hrun, hdeclares⟩
    · rcases evaluate_of_lowered hs hrun hst with ⟨x, hx⟩ | ⟨why', log, listing, heq, hne⟩
      · rw [hx] at h
        cases h
      · exact ⟨st, why', log, listing, heq, hst.declares, hne⟩
    · refine ⟨st, why', [], none, evaluate_of_stopped hrun, hdeclares, fun x hx ↦ ?_⟩
      have hstatic := Expr.isStatic_of_scope_error hscope
      rw [hx] at hstatic
      cases hstatic
  obtain ⟨w, hw, hundo⟩ := hdeclares.undo_eq why' log listing
  rw [heq, hundo] at h ⊢
  cases h
  exact ⟨hw, hne⟩

/-- However lowering ends, it has declared new names and noted them down. -/
theorem declares_of_lowerAll {target : Target}
    (h : e.lowerAll.run ⟨.new target unit, v, []⟩ = .ok ⟨⟩ st ∨
      ∃ why, e.lowerAll.run ⟨.new target unit, v, []⟩ = .error why st) :
    Declares ⟨.new target unit, v, []⟩ st := by
  rcases e.lowerAll_cases v target unit with
    ⟨names, st', -, hrun, hst⟩ | ⟨why, st', -, hrun, hdeclares⟩
  · rw [hrun] at h
    rcases h with h | ⟨why, h⟩
    · cases h
      exact hst.declares
    · cases h
  · rw [hrun] at h
    rcases h with h | ⟨why', h⟩
    · cases h
    · cases h
      exact hdeclares

/-- A lowered unit that has been checked returns a value. -/
theorem run_of_compile {target : Target}
    (hrun : e.lowerAll.run ⟨.new target unit, v, []⟩ = .ok ⟨⟩ st) {u : CodeUnit}
    (hu : st.unit.compile = .ok u) {budget : Nat} (hbudget : u.blocks.length ≤ budget)
    (storage : Storage) : ∃ x storage', u.run budget storage = ⟨.ok x, u, storage'⟩ := by
  rcases e.lowerAll_cases v target unit with ⟨names, st', hs, hrun', hst⟩ | ⟨why, st', -, hrun', -⟩
  · rw [hrun'] at hrun
    cases hrun
    exact ⟨_, _, hst.run_eq hs hu hbudget storage⟩
  · rw [hrun'] at hrun
    cases hrun

/-- **Failed evaluations leave no trace in the table**, for every target and wherever listings go.
The names that lowering has declared when it ends can be forgotten, whether it succeeds or fails;
and a lowered unit that has been checked does not fail when it runs. -/
theorem evaluate_restores (s : Settings) (unit : String) (e : Expr) (v : Variables) :
    (∀ why, (evaluate s unit e v).result = .error why →
      v.Restored (evaluate s unit e v).table ∧ ∀ x, why ≠ .unknownName x) ∧
    (∀ st, (e.lowerAll.run ⟨.new s.target unit, v, []⟩ = .ok ⟨⟩ st ∨
        ∃ why, e.lowerAll.run ⟨.new s.target unit, v, []⟩ = .error why st) →
      st.declared.Nodup ∧ (∀ x ∈ st.declared, x ∉ v.names) ∧
        st.table.names = v.names ++ st.declared ∧ (st.table.forgetAll st.declared).1 = none) ∧
    ∀ st u budget storage, e.lowerAll.run ⟨.new s.target unit, v, []⟩ = .ok ⟨⟩ st →
      st.unit.compile = .ok u → u.blocks.length ≤ budget →
      ∃ x storage', u.run budget storage = ⟨.ok x, u, storage'⟩ :=
  ⟨fun _ h ↦ restored_of_error h, fun _ h ↦ (declares_of_lowerAll h).forgettable,
    fun _ _ _ storage hrun hu hbudget ↦ run_of_compile hrun hu hbudget storage⟩

/-- Two names are declared before the third one is found to be unknown. -/
theorem evaluate_restores_undeclared :
    let e : Expr :=
      .binary .plus (.binary .assign (.name "a") (.binary .assign (.name "b") (.name "x")))
        (.name "c")
    let done := evaluate ⟨.native, .file, true⟩ "calc_0" e ⟨[("x", 0)], [5.0]⟩
    done.result = .error (.undeclared "c") ∧
      Variables.Restored ⟨[("x", 0)], [5.0]⟩ done.table := by
  intro e done
  have h : done.result = .error (.undeclared "c") := by decide +kernel
  exact ⟨h, ((evaluate_restores ⟨.native, .file, true⟩ "calc_0" e ⟨[("x", 0)], [5.0]⟩).1 _ h).1⟩

end Reckoner
