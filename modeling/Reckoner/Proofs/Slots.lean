import Reckoner.Proofs.Isolation

/-!
# Slots are stable and never shared

A name keeps its slot until it is forgotten, whatever else is asked of the session, and a slot that
a request makes has never been there before: not in a table, and not on the way of an evaluation
that was taken back. All tables have their cells in one storage. Both follow from what a request can
do to a table and to the storage (`Request.Changes`), since new slots lie behind all cells, and
cells are never given back (`Session.lt_of_had`).

An evaluation that succeeds adds the names that its tree assigns to, in the order in which their
stores are written (`Expr.assigned`).
-/

namespace Reckoner

/-! ### Names that are assigned to -/

/-- The name that an instruction stores to. -/
def Instr.stored? : Instr → Option String
  | store _ x _ => some x
  | _ => none

/-- The names that are stored to, in order. -/
def Log.stored (log : Log) : List String :=
  log.filterMap fun i ↦ i.2.stored?

@[simp]
theorem Log.stored_append (log log' : Log) : stored (log ++ log') = stored log ++ stored log' :=
  List.filterMap_append

namespace Expr

variable {e : Expr} {names names' : List String}

/-- The names that a tree assigns to. The right side of an assignment comes before its name, and
both branches of a conditional count. -/
def assigned : Expr → List String
  | number _ | name _ | foreign _ => []
  | unary _ e | group e => e.assigned
  | binary op a b =>
    if op = .assign then b.assigned ++ a.asName?.toList else a.assigned ++ b.assigned
  | conditional c t e => c.assigned ++ t.assigned ++ e.assigned

theorem assigned_operator {op : Kind} {f : Float → Float → Float} (hop : op.meaning? = some f)
    (a b : Expr) : (binary op a b).assigned = a.assigned ++ b.assigned := by
  have hne : op ≠ .assign := by
    rintro rfl
    cases hop
  rw [assigned, if_neg hne]

/-- The names declared by an accepted tree are those that it assigns to. -/
theorem Scoped.eq_foldl (h : e.Scoped names names') : names' = e.assigned.foldl addName names := by
  induction h with
  | number | name => rfl
  | plus _ ih | minus _ ih | group _ ih => exact ih
  | operator hop _ _ iha ihb => rw [assigned_operator hop, List.foldl_append, ← iha, ← ihb]
  | assign x _ ih =>
    rw [assigned, if_pos rfl, List.foldl_append, ← ih]
    rfl
  | conditional _ _ _ ihc iht ihe =>
    rw [assigned, List.foldl_append, List.foldl_append, ← ihc, ← iht, ← ihe]

/-- The code of a tree stores to the names that it assigns to, in their order. -/
theorem Scoped.stored_code (h : e.Scoped names names') (slots : String → Slot) (r : Register)
    (l n : Label) : (e.code slots r l n).stored = e.assigned := by
  induction h generalizing r l n with
  | number | name => rfl
  | plus _ ih | group _ ih => exact ih r l n
  | @minus _ _ e _ ih =>
    show Log.stored (e.code slots r l n ++ _) = e.assigned
    rw [Log.stored_append, ih]
    exact List.append_nil _
  | operator hop _ _ iha ihb =>
    rw [code_operator hop, assigned_operator hop, Log.stored_append, Log.stored_append, iha, ihb]
    exact List.append_nil _
  | @assign _ _ e x _ ih =>
    show Log.stored (e.code slots r l n ++ _) = e.assigned ++ [x]
    rw [Log.stored_append, ih]
    rfl
  | @conditional _ _ _ _ c t e _ _ _ ihc iht ihe =>
    rw [code_conditional slots c t e r l n _ rfl, assigned]
    simp only [testCode, armCode, Log.stored_append, ihc, iht, ihe]
    simp [Log.stored, Instr.stored?]

/-- The stores of a program are those of its assignments, in order. -/
theorem Scoped.stored_program (h : e.Scoped names names') (slots : String → Slot) :
    (e.program slots).stored = e.assigned := by
  rw [program, Log.stored_append, h.stored_code]
  exact List.append_nil _

end Expr

/-- Adding names one after the other adds those that are not there, each of them once. -/
theorem foldl_addName (added names : List String) :
    added.foldl addName names = names ++ (added.filter (· ∉ names)).eraseDups := by
  induction added generalizing names with
  | nil => simp
  | cons x added ih =>
    rw [List.foldl_cons, ih, addName]
    by_cases hx : x ∈ names
    · rw [if_pos hx, List.filter_cons_of_neg (by simpa using hx)]
    -- from here on `x` is there, and is left out
    · have hfilter : added.filter (· ∉ names ++ [x]) =
          (added.filter (· ∉ names)).filter fun y ↦ !y == x := by
        rw [List.filter_filter]
        refine List.filter_congr fun y _ ↦ ?_
        simp [Bool.and_comm, beq_eq_decide]
      rw [if_neg hx, hfilter, List.filter_cons_of_pos (by simpa using hx), List.eraseDups_cons,
        List.append_assoc]
      rfl

/-- The new names of an accepted tree. -/
theorem Expr.Scoped.fresh_eq {e : Expr} {names fresh : List String}
    (h : e.Scoped names (names ++ fresh)) :
    fresh = (e.assigned.filter (· ∉ names)).eraseDups := by
  have heq := h.eq_foldl
  rw [foldl_addName] at heq
  exact List.append_cancel_left heq

/-! ### Slots of a table -/

namespace Variables

variable {v : Variables} {x : String} {slot : Slot}

/-- Assigning to a name leaves the values of the others. -/
theorem Sound.get?_assign (hv : v.Sound) {z : String} (hne : z ≠ x) (y : Float) :
    (v.assign x y).get? z = v.get? z := by
  have hself := v.lookup_declare_self x
  have hz : (v.declare x).2.lookup z = v.lookup z := lookup_declare_of_ne hne
  show ((v.declare x).2.lookup z).map ((v.declare x).2.storage.write (v.declare x).1 y).read = _
  rw [hz, get?]
  rcases hslot : v.lookup z with - | slot
  · rfl
  · have hlt := (hv.declare x).slots_lt _ (mem_entries_of_lookup hself)
    have hother : slot ≠ (v.declare x).1 := by
      rintro rfl
      exact hne ((hv.declare x).eq_of_lookup (hz.trans hslot) hself)
    rw [Option.map_some, Option.map_some, Storage.read_write _ hlt, if_neg hother, read_declare]

end Variables

/-- An evaluation leaves the cells that its lowering has made, whether it succeeds or fails. -/
theorem length_storage_outcome {c : Settings} {unit : String} {e : Expr} {v : Variables}
    {st : Lowering} (h : e.lowerAll.run ⟨.new c.target unit, v, []⟩ = .ok ⟨⟩ st ∨
      ∃ why, e.lowerAll.run ⟨.new c.target unit, v, []⟩ = .error why st) :
    (evaluate c unit e v).outcome.2.storage.length = st.table.storage.length := by
  obtain ⟨fresh, htable, hdeclared, -⟩ := declares_of_lowerAll h
  obtain rfl : st.declared = fresh := hdeclared
  have hspare : (v.spare st.declared.length).storage.length = st.table.storage.length := by
    rw [htable]
    rfl
  rcases h with hrun | ⟨why, hrun⟩
  · rcases e.lowerAll_cases v c.target unit with ⟨names, st', hs, hrun', hst⟩ | ⟨_, _, -, hrun', -⟩
    · rw [hrun] at hrun'
      cases hrun'
      rw [← hst.names_eq, htable, Variables.names_extend] at hs
      rcases hwhy : c.refusal? with - | why
      · rw [outcome_of_scoped hs hwhy, htable]
        exact (hs.eval_frame _ _).1
      · rw [outcome_of_refusal hs hwhy, hspare]
    · rw [hrun] at hrun'
      cases hrun'
  · rw [evaluate_of_stopped hrun, (declares_of_lowerAll (.inr ⟨why, hrun⟩)).undo_eq_spare]
    exact hspare

/-! ### Slots of a session -/

namespace Session

variable {s : Session} {ev t : Nat} {q : Request}

/-- The cell of a name in the table at a place. -/
def cell? (s : Session) (t : Nat) (x : String) : Option Slot :=
  (s.tableAt t).lookup x

/-- No cell belongs to two names or to two tables. -/
theorem Sound.cell_inj (h : s.Sound) {t t' : Nat} {x x' : String} {slot : Slot}
    (hx : s.cell? t x = some slot) (hx' : s.cell? t' x' = some slot) : t = t' ∧ x = x' := by
  obtain rfl : t = t' := h.apart hx hx'
  exact ⟨rfl, (h.table t).eq_of_lookup hx hx'⟩

/-- A request leaves the names of other tables, their slots and their values. -/
theorem Sound.tableAt_next_of_ne (h : s.Sound) (hne : (s.evaluator ev).table ≠ t) :
    ((s.next ev q).tableAt t).entries = (s.tableAt t).entries ∧
      ((s.next ev q).tableAt t).contents = (s.tableAt t).contents := by
  have hother : ¬((s.evaluator ev).table = t ∧ t < s.tables.length) := fun ht ↦ hne ht.1
  rw [h.contents_next, if_neg hother, tableAt_next, if_neg hother]
  exact ⟨rfl, rfl⟩

/-- Assigning to a name leaves the values of all other names, in all tables. -/
theorem Sound.get?_assign (h : s.Sound) {x x' : String} {t' : Nat}
    (hne : ((s.evaluator ev).table, x) ≠ (t', x')) (y : Float) :
    ((s.next ev (.assign x y)).tableAt t').get? x' = (s.tableAt t').get? x' := by
  by_cases ht : (s.evaluator ev).table = t' ∧ t' < s.tables.length
  · rw [tableAt_next, if_pos ht]
    obtain ⟨rfl, -⟩ := ht
    exact (h.table _).get?_assign (fun heq ↦ hne (by rw [heq])) y
  · rw [Variables.get?_eq_lookup_contents, Variables.get?_eq_lookup_contents, h.contents_next,
      if_neg ht]

/-! ### Cells are never given back -/

/-- Every evaluator has a table. -/
def Complete (s : Session) : Prop :=
  ∀ ev < s.evaluators.length, (s.evaluator ev).table < s.tables.length

theorem le_foldl_max (evaluators : List Evaluator) (n : Nat) :
    n ≤ evaluators.foldl (fun n e ↦ max n (e.table + 1)) n ∧
      ∀ e ∈ evaluators, e.table < evaluators.foldl (fun n e ↦ max n (e.table + 1)) n := by
  induction evaluators generalizing n with
  | nil => simp
  | cons e evaluators ih =>
    obtain ⟨hle, hlt⟩ := ih (max n (e.table + 1))
    simp only [List.foldl_cons, List.forall_mem_cons]
    exact ⟨by omega, by omega, hlt⟩

/-- In a new session every evaluator has a table. -/
theorem complete_start (targets : List Target) (evaluators : List Evaluator) (logging : Bool) :
    (start targets evaluators logging).Complete := by
  intro ev hev
  have hev : ev < evaluators.length := hev
  have hlt := (le_foldl_max evaluators 0).2 evaluators[ev] (List.getElem_mem hev)
  show (evaluators[ev]?.getD default).table < (List.replicate _ []).length
  rw [List.getElem?_eq_getElem hev, List.length_replicate]
  exact hlt

theorem evaluators_next (s : Session) (ev : Nat) (q : Request) :
    (s.next ev q).evaluators = s.evaluators :=
  (s.answers ev q).evaluators_eq

theorem Complete.next (h : s.Complete) (ev : Nat) (q : Request) : (s.next ev q).Complete := by
  intro ev' hev'
  rw [evaluators_next] at hev'
  rw [evaluator_next, length_tables_next]
  exact h ev' hev'

/-- And so it has after any row of requests. -/
theorem Complete.after (h : s.Complete) (requests : List (Nat × Request)) :
    (s.after requests).Complete :=
  after_of_next (fun _ ev q h ↦ h.next ev q) h requests

/-- A row of requests leaves all cells. -/
theorem length_storage_after (s : Session) (requests : List (Nat × Request)) :
    s.storage.length ≤ (s.after requests).storage.length := by
  induction requests generalizing s with
  | nil => exact Nat.le_refl _
  | cons r requests ih => exact Nat.le_trans (s.length_storage_next r.1 r.2) (ih _)

/-- A cell that a session has had: it belongs to a name of a table, or did so when the lowering of
some tree ended, whether the tree was accepted or not. -/
inductive Had : Session → List (Nat × Request) → Slot → Prop where
  | shown {s : Session} {requests : List (Nat × Request)} {t : Nat} {x : String} {slot : Slot}
    (h : s.cell? t x = some slot) : Had s requests slot
  | lowered {s : Session} {ev : Nat} {q : Request} {requests : List (Nat × Request)} {e : Expr}
    {st : Lowering} {x : String} {slot : Slot} (he : q.tree? = some e)
    (hst : e.lowerAll.run
        ⟨.new (s.settings ev).target (unitName (s.backendOf ev)), s.table ev, []⟩ = .ok ⟨⟩ st ∨
      ∃ why, e.lowerAll.run
        ⟨.new (s.settings ev).target (unitName (s.backendOf ev)), s.table ev, []⟩ = .error why st)
    (hx : st.table.lookup x = some slot) : Had s ((ev, q) :: requests) slot
  | later {s : Session} {ev : Nat} {q : Request} {requests : List (Nat × Request)} {slot : Slot}
    (h : Had (s.next ev q) requests slot) : Had s ((ev, q) :: requests) slot

/-- **The cells that a session has had are in the storage.** -/
theorem lt_of_had {requests : List (Nat × Request)} {slot : Slot} (hs : s.Sound)
    (h : s.Had requests slot) : slot < (s.after requests).storage.length := by
  induction h with
  | @shown s requests t x slot h =>
    exact Nat.lt_of_lt_of_le (hs.slot_lt h) (length_storage_after s requests)
  | @lowered s ev q requests e st x slot he hst hx =>
    refine Nat.lt_of_lt_of_le ?_ (length_storage_after (s.next ev q) requests)
    -- the names may have been taken back, but their cells are still there
    have hlength : (s.next ev q).storage.length = st.table.storage.length := by
      rw [storage_next, response, Request.respond_of_tree he]
      exact length_storage_outcome hst
    obtain ⟨fresh, htable, -, hnodup, hfresh⟩ := declares_of_lowerAll hst
    have hsound : st.table.Sound := htable ▸ Variables.Sound.extend (hs.table _) hnodup hfresh
    exact hlength ▸ hsound.slots_lt _ (Variables.mem_entries_of_lookup hx)
  | @later s ev q requests slot h ih => exact ih (hs.next ev q)

/-- A cell that a request gives to a name has never been there. -/
theorem not_had_of_next {requests : List (Nat × Request)} {x : String} {slot : Slot} (hs : s.Sound)
    (hx : ((s.after requests).next ev q).cell? t x = some slot)
    (hnew : (s.after requests).cell? t x ≠ some slot) : ¬s.Had requests slot := by
  intro hhad
  rcases lookup_of_next hx with hold | ⟨-, hle⟩
  · exact hnew hold
  · exact Nat.not_lt_of_le hle (lt_of_had hs hhad)

/-- An evaluation that succeeds adds the names that are assigned to and are not there yet. -/
theorem entries_of_result (hev : (s.evaluator ev).table < s.tables.length) {e : Expr} {x : Float}
    (he : q.tree? = some e) (hreply : (s.answer ev q).1 = .result x) :
    ((s.next ev q).table ev).entries = (s.table ev).entries ++
        ((e.assigned.filter (· ∉ (s.table ev).names)).eraseDups).zipIdx
          s.storage.length ∧
      ∀ slots, (e.program slots).stored = e.assigned := by
  have htable : (s.next ev q).table ev = (s.response ev q).2 := by
    show (s.next ev q).tableAt ((s.next ev q).evaluator ev).table = _
    rw [evaluator_next, tableAt_next, if_pos ⟨rfl, hev⟩]
  rw [(s.answers ev q).reply_eq] at hreply
  rw [htable]
  simp only [response, Request.respond_of_tree he] at hreply ⊢
  rcases evaluate_cases e (s.table ev) with ⟨why, k, -, houtcome⟩ | ⟨fresh, hs, -, -, houtcome⟩
  · rw [houtcome] at hreply
    cases hreply
  · rw [houtcome] at hreply ⊢
    rcases hwhy : (s.settings ev).refusal? with - | why
    · rw [← hs.fresh_eq]
      exact ⟨rfl, hs.stored_program⟩
    · rw [hwhy] at hreply
      cases hreply

/-- What holds of the slots in a state of a session, where `had` tells of the cells that were there
up to that state. -/
structure StableSlots (s : Session) (had : Slot → Prop) : Prop where
  names_nodup : ∀ t, (s.tableAt t).names.Nodup
  /-- No cell belongs to two names or to two tables. -/
  cell_inj : ∀ t t' x x' slot, s.cell? t x = some slot → s.cell? t' x' = some slot →
    t = t' ∧ x = x'
  /-- A request leaves the names of other tables, their slots and their values. -/
  tableAt_next : ∀ ev q t, (s.evaluator ev).table ≠ t →
    ((s.next ev q).tableAt t).entries = (s.tableAt t).entries ∧
      ((s.next ev q).tableAt t).contents = (s.tableAt t).contents
  /-- Assigning to a name leaves the values of all other names. -/
  get?_assign : ∀ ev x y t' x', ((s.evaluator ev).table, x) ≠ (t', x') →
    ((s.next ev (.assign x y)).tableAt t').get? x' = (s.tableAt t').get? x'
  /-- A name keeps its cell, whatever is asked, unless the name is forgotten in its table. -/
  cell?_next : ∀ ev q t x slot, s.cell? t x = some slot →
    ¬(q = .forget x ∧ (s.evaluator ev).table = t) → (s.next ev q).cell? t x = some slot
  /-- A cell that a request gives to a name has never been there. -/
  not_had : ∀ ev q t x slot, (s.next ev q).cell? t x = some slot → s.cell? t x ≠ some slot →
    ¬had slot
  /-- An evaluation that succeeds adds the names that are assigned to and are not there yet, each of
  them once, in the order of their stores. -/
  entries_of_result : ∀ ev < s.evaluators.length, ∀ q e x, q.tree? = some e →
    (s.answer ev q).1 = .result x →
    ((s.next ev q).table ev).entries = (s.table ev).entries ++
        ((e.assigned.filter (· ∉ (s.table ev).names)).eraseDups).zipIdx s.storage.length ∧
      ∀ slots, (e.program slots).stored = e.assigned

end Session

/-- **Slots are stable and never shared**, in every state that a session can get to. -/
theorem slots_stable (targets : List Target) (evaluators : List Evaluator) (logging : Bool)
    (requests : List (Nat × Request)) :
    let s := Session.start targets evaluators logging
    (s.after requests).StableSlots (s.Had requests) := by
  intro s
  have hsound : s.Sound := Session.sound_start targets evaluators logging
  have hcomplete : s.Complete := Session.complete_start targets evaluators logging
  have hafter := hsound.after requests
  exact {
    names_nodup := fun t ↦ (hafter.table t).names_nodup
    cell_inj := fun _ _ _ _ _ ↦ hafter.cell_inj
    tableAt_next := fun _ _ _ ↦ hafter.tableAt_next_of_ne
    get?_assign := fun _ _ y _ _ hne ↦ hafter.get?_assign hne y
    cell?_next := fun _ _ _ _ _ ↦ Session.lookup_next
    not_had := fun _ _ _ _ _ ↦ Session.not_had_of_next hsound
    entries_of_result := fun ev hev _ _ _ ↦
      Session.entries_of_result (hcomplete.after requests ev hev) }

/-- Two tables get cells in turn. A name is forgotten and declared again; in between, an evaluation
takes back the names that it has declared. -/
theorem slots_stable_forgotten :
    let s := Session.start [.interpreter, .native]
      [⟨0, 0, .nowhere⟩, ⟨1, 0, .nowhere⟩, ⟨1, 1, .nowhere⟩] false
    let requests : List (Nat × Request) :=
      [(0, .assign "x" 1.0), (2, .assign "x" 7.0), (1, .declare "a"), (0, .forget "a"),
        (1, .eval (.binary .plus (.binary .assign (.name "a") (.number 1.0)) (.name "c")))]
    let q := Request.eval
      (.binary .assign (.name "a") (.binary .plus (.binary .assign (.name "b") (.name "x"))
        (.binary .assign (.name "a") (.number 2.0))))
    ((s.after requests).next 0 q).cell? 0 "x" = some 0 ∧
      ((s.after requests).next 0 q).cell? 1 "x" = some 1 ∧
      ((s.after requests).next 0 q).cell? 0 "a" = some 5 ∧ ¬s.Had requests 5 ∧
      (((s.after requests).next 0 q).table 0).entries = [("x", 0), ("b", 4), ("a", 5)] := by
  intro s requests q
  have h := slots_stable [.interpreter, .native]
    [⟨0, 0, .nowhere⟩, ⟨1, 0, .nowhere⟩, ⟨1, 1, .nowhere⟩] false requests
  have ha : ((s.after requests).next 0 q).cell? 0 "a" = some 5 := by decide +kernel
  refine ⟨h.cell?_next 0 q 0 "x" _ (by decide +kernel) (by simp [q]),
    h.cell?_next 0 q 1 "x" _ (by decide +kernel) (by simp [q]), ha,
    h.not_had 0 q 0 "a" _ ha (by decide +kernel), ?_⟩
  rw [(h.entries_of_result 0 (by decide +kernel) q _ 3.0 rfl (by decide +kernel)).1]
  decide +kernel

end Reckoner
