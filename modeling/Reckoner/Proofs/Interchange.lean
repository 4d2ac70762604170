import Reckoner.Proofs.History

/-!
# Interpreted and native units are interchangeable

A session may mix backends, and evaluators with different backends may share a table. What is
replied and what is in the tables does not depend on which units are native: a session gives the
same history when all of them are interpreted. Where the two are told apart, in the checks that
native units have to pass, every lowered unit passes.
-/

namespace Reckoner

/-- The reply to a request, and the storage and the tables behind it. -/
def Event.seen (h : Event) : Reply × Storage × List (List (String × Slot)) :=
  (h.reply, h.session.storage, h.session.tables)

/-- Whether units may be run depends only on the listings, as long as no target refuses. -/
theorem Settings.refusal?_congr {c c' : Settings} (hlistings : c.listings = c'.listings)
    (htarget : c.target ≠ .refusing) (htarget' : c'.target ≠ .refusing) :
    c.refusal? = c'.refusal? := by
  rw [refusal?, refusal?, ← hlistings, if_neg htarget, if_neg htarget']

/-- What is then refused is refused for its listing. -/
theorem Settings.eq_listing_of_refusal? {c : Settings} (htarget : c.target ≠ .refusing)
    {why : EvalError} (h : c.refusal? = some why) : ∃ fault, why = .listing fault := by
  rw [refusal?, if_neg htarget] at h
  rcases hl : c.listings with - | - | fault <;> rw [hl] at h
  · cases h
  · cases h
  · exact ⟨fault, (Option.some.inj h).symm⟩

/-! ### Faults of units -/

/-- No evaluation fails because of its unit. -/
theorem result_ne_code {c : Settings} (htarget : c.target ≠ .refusing) (unit : String) (e : Expr)
    (v : Variables) (fault : CodeFault) :
    (evaluate c unit e v).outcome.1 ≠ .error (.code fault) := by
  rcases evaluate_cases e v with ⟨why, k, hscope, houtcome⟩ | ⟨fresh, -, -, -, houtcome⟩
  · rw [houtcome]
    rintro ⟨⟩
    -- what the static pass finds is a fault in the tree, not in a unit
    cases Expr.isStatic_of_scope_error hscope
  · rw [houtcome]
    rcases hwhy : c.refusal? with - | why
    · rintro ⟨⟩
    · obtain ⟨fault', rfl⟩ := Settings.eq_listing_of_refusal? htarget hwhy
      rintro ⟨⟩

theorem Reply.ofResult_ne_code {result : Except EvalError Float} {fault : CodeFault}
    (h : result ≠ .error (.code fault)) : ofResult result ≠ .failed (.eval (.code fault)) := by
  rcases result with why | x
  · rintro ⟨⟩
    exact h rfl
  · rintro ⟨⟩

/-- Unless the target refuses, no request is answered with a fault of the code. -/
theorem Request.respond_ne_code {c : Settings} (htarget : c.target ≠ .refusing) (unit : String)
    (v : Variables) (q : Request) (fault : CodeFault) :
    (q.respond c unit v).1 ≠ .failed (.eval (.code fault)) := by
  cases q with
  | run line =>
    rw [respond]
    rcases parse (tokenize line) with why | e
    · rintro ⟨⟩
    · exact Reply.ofResult_ne_code (result_ne_code htarget unit e v fault)
  | eval e => exact Reply.ofResult_ne_code (result_ne_code htarget unit e v fault)
  | get x =>
    rw [respond]
    rcases v.get? x with - | y <;> rintro ⟨⟩
  | forget x =>
    rw [respond]
    rcases v.forget? x with - | w <;> rintro ⟨⟩
  | _ => rintro ⟨⟩

/-- Lowering into a native unit never fails because of the unit, and native code accepts what is
lowered. -/
theorem lowerAll_native (e : Expr) (v : Variables) (unit : String) :
    (∀ fault st, e.lowerAll.run ⟨.new .native unit, v, []⟩ ≠ .error (.code fault) st) ∧
    ∀ st, e.lowerAll.run ⟨.new .native unit, v, []⟩ = .ok ⟨⟩ st →
      st.unit.isWellFormed = true ∧
      (∀ b ∈ st.unit.blocks, ∀ i ∈ b.code, CodeUnit.looksAhead i = false) ∧
      st.unit.compile = .ok { st.unit with compiled := true } := by
  rcases e.lowerAll_cases v .native unit with
    ⟨names, st, hs, hrun, hst⟩ | ⟨why, st, hscope, hrun, -⟩
  · rw [hrun]
    refine ⟨fun _ _ ↦ by rintro ⟨⟩, ?_⟩
    rintro st' ⟨⟩
    exact ⟨hst.isWellFormed hs, hst.not_looksAhead hs, hst.compile_native hs⟩
  · rw [hrun]
    refine ⟨?_, fun _ ↦ by rintro ⟨⟩⟩
    rintro fault st' ⟨⟩
    cases Expr.isStatic_of_scope_error hscope

/-! ### Sessions -/

namespace Session

/-- The session in which all units are interpreted. -/
def interpreted (s : Session) : Session :=
  { s with backends := s.backends.map fun b ↦ { b with target := .interpreter } }

/-- Two sessions that differ at most in which of their units are native. -/
structure Matches (s s' : Session) : Prop extends SameSettings s s' where
  storage_eq : s.storage = s'.storage
  tables_eq : s.tables = s'.tables

namespace Matches

variable {s s' : Session}

/-- Sessions that match give the same answers. -/
theorem response_eq (h : s.Matches s') (ev : Nat) (q : Request) :
    s.response ev q = s'.response ev q := by
  have htable : s.table ev = s'.table ev := by
    rw [table, table, h.storage_eq, h.tables_eq, h.evaluator_eq]
  rw [response, response, htable]
  exact q.respond_congr (h.refusal_eq ev) _ _ _

/-- And they match again afterwards. -/
theorem next (h : s.Matches s') (ev : Nat) (q : Request) :
    (s.next ev q).Matches (s'.next ev q) where
  toSameSettings := (h.next_left ev q).next_right ev q
  storage_eq := by rw [storage_next, storage_next, h.response_eq]
  tables_eq := by
    rw [Session.next, Session.next, (s.answers ev q).tables_eq, (s'.answers ev q).tables_eq,
      h.tables_eq, h.evaluator_eq, h.response_eq]

/-- Matching sessions have the same histories. -/
theorem history_eq (h : s.Matches s') (requests : List (Nat × Request)) :
    (s.history requests).map Event.seen = (s'.history requests).map Event.seen := by
  induction requests generalizing s s' with
  | nil => rfl
  | cons r requests ih =>
    obtain ⟨ev, q⟩ := r
    have hreply : (s.answer ev q).1 = (s'.answer ev q).1 := by
      rw [(s.answers ev q).reply_eq, (s'.answers ev q).reply_eq, h.response_eq]
    simp only [history, List.map_cons, ih (h.next ev q), Event.seen, hreply,
      (h.next ev q).storage_eq, (h.next ev q).tables_eq]

end Matches

variable {s : Session}

theorem target_settings_ne (hs : ∀ b ∈ s.backends, b.target ≠ .refusing) (ev : Nat) :
    (s.settings ev).target ≠ .refusing := by
  show (s.backends[(s.evaluator ev).backend]?.getD default).target ≠ .refusing
  rcases hb : s.backends[(s.evaluator ev).backend]? with - | b
  · decide
  · exact hs b (List.mem_of_getElem? hb)

/-- A session matches the one in which all units are interpreted. -/
theorem matches_interpreted (hs : ∀ b ∈ s.backends, b.target ≠ .refusing) :
    s.Matches s.interpreted where
  storage_eq := rfl
  tables_eq := rfl
  evaluator_eq := rfl
  refusal_eq := fun ev ↦ by
    refine Settings.refusal?_congr rfl (target_settings_ne hs ev) (target_settings_ne ?_ ev)
    intro b hb
    obtain ⟨b, -, rfl⟩ := List.mem_map.1 hb
    show Target.interpreter ≠ .refusing
    decide

/-- What no answer of a session is, no event of a history is. -/
theorem reply_ne_code (hs : ∀ ev, (s.settings ev).target ≠ .refusing)
    (requests : List (Nat × Request)) (fault : CodeFault) :
    ∀ h ∈ s.history requests, h.reply ≠ .failed (.eval (.code fault)) := by
  induction requests generalizing s with
  | nil => simp [history]
  | cons r requests ih =>
    obtain ⟨ev, q⟩ := r
    rw [history, List.forall_mem_cons]
    refine ⟨?_, ih (by rw [settings_next]; exact hs)⟩
    show (s.answer ev q).1 ≠ _
    rw [(s.answers ev q).reply_eq]
    exact q.respond_ne_code (hs ev) _ _ fault

end Session

/-- **It makes no difference which units are native.** In every session without a backend that
refuses units, every request has the reply, and leaves the tables, that it would if all units were
interpreted; no request fails because of a unit. Native code accepts every unit that a tree is
lowered to. -/
theorem history_interpreted {s : Session} (hs : ∀ b ∈ s.backends, b.target ≠ .refusing)
    (requests : List (Nat × Request)) :
    (s.history requests).map Event.seen = (s.interpreted.history requests).map Event.seen ∧
    (∀ h ∈ s.history requests, ∀ fault, h.reply ≠ .failed (.eval (.code fault))) ∧
    ∀ (e : Expr) (v : Variables) (unit : String),
      (∀ fault st, e.lowerAll.run ⟨.new .native unit, v, []⟩ ≠ .error (.code fault) st) ∧
      ∀ st, e.lowerAll.run ⟨.new .native unit, v, []⟩ = .ok ⟨⟩ st →
        st.unit.isWellFormed = true ∧
        (∀ b ∈ st.unit.blocks, ∀ i ∈ b.code, CodeUnit.looksAhead i = false) ∧
        st.unit.compile = .ok { st.unit with compiled := true } :=
  ⟨(Session.matches_interpreted hs).history_eq requests,
    fun h hh fault ↦ Session.reply_ne_code (Session.target_settings_ne hs) requests fault h hh,
    lowerAll_native⟩

/-- Two evaluators share a table; the one with native units reads what the other one has stored, and
the other way round. -/
theorem history_interpreted_shared :
    let s := Session.start [.interpreter, .native] [⟨0, 0, .nowhere⟩, ⟨1, 0, .file⟩] true
    let requests : List (Nat × Request) :=
      [(0, .eval (.binary .assign (.name "a") (.number 2.0))),
        (1, .eval (.conditional (.binary .less (.name "a") (.number 3.0))
          (.group (.binary .assign (.name "b") (.binary .star (.name "a") (.number 4.0))))
          (.name "a"))),
        (0, .eval (.binary .plus (.name "a") (.name "b"))),
        (1, .eval (.name "c"))]
    (∀ b ∈ s.backends, b.target ≠ .refusing) ∧
      (s.history requests).map Event.reply =
        [.result 2.0, .result 8.0, .result 10.0, .failed (.eval (.undeclared "c"))] ∧
      (s.history requests).map Event.seen = (s.interpreted.history requests).map Event.seen := by
  intro s requests
  have hs : ∀ b ∈ s.backends, b.target ≠ .refusing := by decide
  exact ⟨hs, by decide +kernel, (history_interpreted hs requests).1⟩

end Reckoner
