import Reckoner.Proofs.History

/-!
# Tables are isolated

What is replied from a table depends on its contents alone, the names with their values in order,
and so do the contents afterwards (`Request.respond_alike`). Where the values are kept does not
matter, and this is all that an evaluation leaves behind that fails. So of a history only the
requests matter to a table that are addressed to it and do not fail: the others may be left out.
-/

namespace Reckoner

/-! ### Contents -/

namespace Variables

variable {v w : Variables} {x : String}

theorem names_eq_map_contents (v : Variables) : v.names = v.contents.map (·.1) := by
  simp [names, contents, Function.comp_def]

/-- What a name has is in the contents. -/
theorem get?_eq_lookup_contents (v : Variables) (x : String) : v.get? x = v.contents.lookup x := by
  rw [get?, lookup, contents]
  induction v.entries with
  | nil => rfl
  | cons p entries ih =>
    obtain ⟨y, slot⟩ := p
    by_cases hx : (x == y) = true
    · simp [List.lookup_cons, hx]
    · simpa [List.lookup_cons, hx] using ih

theorem names_congr (h : v.contents = w.contents) : v.names = w.names := by
  rw [names_eq_map_contents, names_eq_map_contents, h]

/-- So tables with the same contents give names the same values. -/
theorem store_congr (h : v.contents = w.contents) : v.store = w.store := by
  funext x
  rw [store, store, get?_eq_lookup_contents, get?_eq_lookup_contents, h]

theorem contains_congr (h : v.contents = w.contents) (x : String) :
    v.contains x = w.contains x := by
  rw [Bool.eq_iff_iff, contains_iff_mem_names, contains_iff_mem_names, names_congr h]

/-- The contents of a sound table are its names with their values. -/
theorem Sound.contents_eq (hv : v.Sound) : v.contents = v.names.map fun x ↦ (x, v.store x) :=
  v.keeps_store.contents_eq hv

/-! ### Declaring, assigning and forgetting -/

/-- A declaration is the table itself or has one more name. -/
theorem declare_eq_extend (v : Variables) (x : String) :
    ∃ fresh, (v.declare x).2 = v.extend fresh ∧ v.names ++ fresh = addName v.names x ∧
      fresh.Nodup ∧ ∀ y ∈ fresh, y ∉ v.names := by
  by_cases hx : x ∈ v.names
  · obtain ⟨slot, hslot⟩ := exists_lookup hx
    rw [declare_of_mem hslot]
    exact ⟨[], by simp, by simp [addName, hx], List.nodup_nil, by simp⟩
  · rw [declare_of_notMem hx]
    exact ⟨[x], rfl, by simp [addName, hx], List.nodup_singleton x, by simpa using hx⟩

/-- Declaring a name keeps all values. A new name has the one that it counted for before. -/
theorem Sound.contents_declare (hv : v.Sound) (x : String) :
    (v.declare x).2.contents = (addName v.names x).map fun y ↦ (y, v.store y) := by
  obtain ⟨fresh, heq, hnames, hnodup, hfresh⟩ := v.declare_eq_extend x
  rw [heq, (hv.extend hnodup hfresh).contents_eq, names_extend, hnames, store_extend]

/-- An assignment changes one name, and adds it if it is new. -/
theorem Sound.contents_assign (hv : v.Sound) (x : String) (y : Float) :
    (v.assign x y).contents =
      (addName v.names x).map fun z ↦ (z, Function.update v.store x y z) := by
  obtain ⟨fresh, heq, hnames, hnodup, hfresh⟩ := v.declare_eq_extend x
  have hw := hv.extend hnodup hfresh
  have hmem : x ∈ (v.extend fresh).names := by
    rw [names_extend, hnames]
    exact mem_addName_self _ x
  have hslot : (v.extend fresh).slotOf x = (v.declare x).1 := by
    rw [slotOf, ← heq, lookup_declare_self]
    rfl
  have hkeeps := (v.extend fresh).keeps_store.write hw hmem y
  rw [hslot, store_extend] at hkeeps
  have hcontents := hkeeps.contents_eq hw
  rw [names_extend, hnames] at hcontents
  rw [← hcontents, ← heq]
  rfl

theorem contents_filter (v : Variables) (x : String) :
    ({ v with entries := v.entries.filter fun p ↦ p.1 != x } : Variables).contents =
      v.contents.filter fun p ↦ p.1 != x := by
  simp only [contents, List.filter_map]
  rfl

end Variables

/-! ### Responses -/

/-- Replies that tell the same, wherever names have their slots. -/
inductive Reply.Alike : Reply → Reply → Prop where
  | same (r : Reply) : Alike r r
  | slot (slot slot' : Slot) : Alike (.slot (some slot)) (.slot (some slot'))
  | table {v w : Variables} (h : v.contents = w.contents) : Alike (.table v) (.table w)

/-- An evaluation in a sound table that may be run comes to the meaning of the tree. -/
theorem effect_eq_meaning {e : Expr} {v : Variables} {fresh : List String} (hv : v.Sound)
    (hs : e.Scoped v.names (v.names ++ fresh)) (hnodup : fresh.Nodup)
    (hfresh : ∀ x ∈ fresh, x ∉ v.names) :
    (e.effect (v.extend fresh)).map id Variables.contents = e.meaning v := by
  have hw := hv.extend hnodup hfresh
  have hs' : e.Scoped v.names (v.extend fresh).names := by rwa [Variables.names_extend]
  obtain ⟨hvalue, hkeeps⟩ := Variables.eval_bySlot hw hs'
  rw [Variables.store_extend] at hvalue hkeeps
  have hcontents := hkeeps.contents_eq hw
  rw [Variables.names_extend] at hcontents
  rw [Expr.meaning, Expr.scope_of_scoped hs, Expr.effect]
  simp only [Prod.map, id, hvalue, hcontents]

/-- The meaning of a tree depends only on the contents. -/
theorem Expr.meaning_congr {v w : Variables} (h : v.contents = w.contents) (e : Expr) :
    e.meaning v = e.meaning w := by
  rw [meaning, meaning, Variables.names_congr h, Variables.store_congr h, h]

/-- The contents of a table tell what an evaluation comes to. -/
theorem outcome_alike {c c' : Settings} (hc : c.refusal? = c'.refusal?) {v w : Variables}
    (hv : v.Sound) (hw : w.Sound) (h : v.contents = w.contents) (unit unit' : String) (e : Expr) :
    (evaluate c unit e v).outcome.map id Variables.contents =
      (evaluate c' unit' e w).outcome.map id Variables.contents := by
  have hspare (v : Variables) (k : Nat) : (v.spare k).contents = v.contents :=
    (v.restored_spare k).contents_eq
  have hnames := Variables.names_congr h
  -- the static pass sees only the names, so that it accepts both or refuses both
  rcases evaluate_cases e v with ⟨why, k, hscope, hleft⟩ | ⟨fresh, hs, hnodup, hfresh, hleft⟩
  · rcases evaluate_cases e w with ⟨why', k', hscope', hright⟩ | ⟨fresh', hs', -⟩
    · rw [← hnames, hscope] at hscope'
      cases hscope'
      rw [hleft, hright, Prod.map, Prod.map, hspare, hspare, h]
    · rw [← hnames] at hs'
      rw [Expr.scope_of_scoped hs'] at hscope
      cases hscope
  · rcases evaluate_cases e w with ⟨why', k', hscope', -⟩ | ⟨fresh', hs', hnodup', hfresh', hright⟩
    · rw [← hnames, Expr.scope_of_scoped hs] at hscope'
      cases hscope'
    · rw [hleft, hright, ← hc]
      rcases c.refusal? with - | why
      · exact (effect_eq_meaning hv hs hnodup hfresh).trans ((e.meaning_congr h).trans
          (effect_eq_meaning hw hs' hnodup' hfresh').symm)
      · rw [Prod.map, Prod.map, hspare, hspare, h]

namespace Request

/-- **The contents of a table tell what is replied from it**, and what they are afterwards. -/
theorem respond_alike {c c' : Settings} (hc : c.refusal? = c'.refusal?) {v w : Variables}
    (hv : v.Sound) (hw : w.Sound) (h : v.contents = w.contents) (unit unit' : String)
    (q : Request) :
    (q.respond c unit v).1.Alike (q.respond c' unit' w).1 ∧
      (q.respond c unit v).2.contents = (q.respond c' unit' w).2.contents := by
  have hnames := Variables.names_congr h
  have hstore := Variables.store_congr h
  have hevaluate (e : Expr) : Reply.Alike (.ofResult (evaluate c unit e v).outcome.1)
      (.ofResult (evaluate c' unit' e w).outcome.1) ∧
      (evaluate c unit e v).outcome.2.contents = (evaluate c' unit' e w).outcome.2.contents := by
    obtain ⟨hresult, hcontents⟩ := Prod.mk.inj (outcome_alike hc hv hw h unit unit' e)
    refine ⟨?_, hcontents⟩
    rw [show (evaluate c unit e v).outcome.1 = (evaluate c' unit' e w).outcome.1 from hresult]
    exact .same _
  cases q with
  | run line =>
    rw [respond, respond]
    rcases parse (tokenize line) with why | e
    · exact ⟨.same _, h⟩
    · exact hevaluate e
  | eval e => exact hevaluate e
  | get x =>
    refine ⟨?_, h⟩
    rw [respond, respond, Variables.get?_eq_lookup_contents, Variables.get?_eq_lookup_contents, h]
    exact .same _
  | contains x =>
    refine ⟨?_, h⟩
    rw [respond, respond, Variables.contains_congr h]
    exact .same _
  | lookup x =>
    refine ⟨?_, h⟩
    have hcontains := Variables.contains_congr h x
    rw [Variables.contains, Variables.contains] at hcontains
    rw [respond, respond]
    -- the slots may differ, but either both tables have one or neither has
    rcases hx : v.lookup x with - | slot <;> rcases hx' : w.lookup x with - | slot'
    · exact .same _
    · rw [hx, hx'] at hcontains
      cases hcontains
    · rw [hx, hx'] at hcontains
      cases hcontains
    · exact .slot slot slot'
  | declare x =>
    refine ⟨.slot _ _, ?_⟩
    show (v.declare x).2.contents = (w.declare x).2.contents
    rw [hv.contents_declare, hw.contents_declare, hnames, hstore]
  | assign x y =>
    refine ⟨.same _, ?_⟩
    show (v.assign x y).contents = (w.assign x y).contents
    rw [hv.contents_assign, hw.contents_assign, hnames, hstore]
  | forget x =>
    rw [respond, respond, Variables.forget?, Variables.forget?, Variables.contains_congr h]
    by_cases hx : w.contains x = true
    · rw [if_pos hx, if_pos hx]
      refine ⟨.same _, ?_⟩
      simp only [Variables.contents_filter, h]
    · rw [if_neg hx, if_neg hx]
      exact ⟨.same _, h⟩
  | table => exact ⟨.table h, h⟩

/-- Whether a request is one to evaluate. -/
def isEvaluation : Request → Bool
  | run _ | eval _ => true
  | _ => false

end Request

/-- Whether a request has failed. -/
def Reply.isFailed : Reply → Bool
  | failed _ => true
  | _ => false

/-- An evaluation that fails leaves the contents of the table. -/
theorem contents_outcome_of_isFailed {c : Settings} {unit : String} {e : Expr} {v : Variables}
    (h : (Reply.ofResult (evaluate c unit e v).outcome.1).isFailed = true) :
    (evaluate c unit e v).outcome.2.contents = v.contents := by
  rcases hresult : (evaluate c unit e v).result with why | x
  · exact (restored_of_error hresult).1.contents_eq
  · rw [Evaluation.outcome, hresult] at h
    cases h

/-- An evaluation that fails leaves the contents as they were. -/
theorem Request.contents_respond_of_isFailed {c : Settings} {unit : String} {v : Variables}
    {q : Request} (hq : q.isEvaluation = true) (h : (q.respond c unit v).1.isFailed = true) :
    (q.respond c unit v).2.contents = v.contents := by
  cases q with
  | run line =>
    rw [respond] at h ⊢
    rcases hparse : parse (tokenize line) with why | e
    · rfl
    · rw [hparse] at h
      exact contents_outcome_of_isFailed h
  | eval e => exact contents_outcome_of_isFailed h
  | _ => cases hq

/-! ### Histories -/

namespace Event

/-- The evaluator and the request. -/
def asked (h : Event) : Nat × Request :=
  (h.evaluator, h.request)

/-- Whether a request was addressed to the table at a place, and was not an evaluation that has
failed. -/
def concerns (t : Nat) (h : Event) : Bool :=
  (h.session.evaluator h.evaluator).table = t && !(h.request.isEvaluation && h.reply.isFailed)

/-- Two events that are the same, seen from the table at a place. -/
structure Alike (t : Nat) (h h' : Event) : Prop where
  asked_eq : h.asked = h'.asked
  reply : h.reply.Alike h'.reply
  contents_eq : (h.session.tableAt t).contents = (h'.session.tableAt t).contents

end Event

namespace Session

/-- Two sessions with the same contents of the table at a place. -/
structure Twins (t : Nat) (s s' : Session) : Prop extends SameSettings s s' where
  length_eq : s.tables.length = s'.tables.length
  sound : s.Sound
  sound' : s'.Sound
  contents_eq : (s.tableAt t).contents = (s'.tableAt t).contents

namespace Twins

variable {t : Nat} {s s' : Session} {ev : Nat} {q : Request}

theorem refl (t : Nat) (h : s.Sound) : Twins t s s :=
  ⟨⟨rfl, fun _ ↦ rfl⟩, rfl, h, h, rfl⟩

/-- An evaluator of the table has the same contents in both sessions. -/
theorem contents_table (h : Twins t s s') (hev : (s.evaluator ev).table = t) :
    (s.table ev).contents = (s'.table ev).contents := by
  have htable : s.table ev = s.tableAt t := hev ▸ rfl
  have htable' : s'.table ev = s'.tableAt t := hev ▸ h.evaluator_eq ▸ rfl
  rw [htable, htable', h.contents_eq]

/-- A request to the table is answered alike. -/
theorem response_alike (h : Twins t s s') (hev : (s.evaluator ev).table = t) (q : Request) :
    (s.response ev q).1.Alike (s'.response ev q).1 ∧
      (s.response ev q).2.contents = (s'.response ev q).2.contents :=
  q.respond_alike (h.refusal_eq ev) (h.sound.table _) (h.sound'.table _) (h.contents_table hev) _ _

/-- Requests that leave the same contents in the table leave the same contents at its place. -/
theorem contents_next (h : Twins t s s') {q q' : Request}
    (hresponse : (s.response ev q).2.contents = (s'.response ev q').2.contents) :
    ((s.next ev q).tableAt t).contents = ((s'.next ev q').tableAt t).contents := by
  rw [h.sound.contents_next, h.sound'.contents_next, ← h.evaluator_eq, ← h.length_eq]
  split
  · exact hresponse
  · exact h.contents_eq

/-- Sessions stay twins if both are asked the same. -/
theorem both (h : Twins t s s') (hev : (s.evaluator ev).table = t) (q : Request) :
    Twins t (s.next ev q) (s'.next ev q) where
  toSameSettings := (h.next_left ev q).next_right ev q
  length_eq := by rw [length_tables_next, length_tables_next, h.length_eq]
  sound := h.sound.next ev q
  sound' := h.sound'.next ev q
  contents_eq := h.contents_next (h.response_alike hev q).2

/-- Sessions stay twins if one of them is asked something that does not concern the table. -/
theorem skip (h : Twins t s s')
    (hskip : Event.concerns t ⟨ev, q, (s.answer ev q).1, s.next ev q⟩ = false) :
    Twins t (s.next ev q) s' where
  toSameSettings := h.next_left ev q
  length_eq := by rw [length_tables_next, h.length_eq]
  sound := h.sound.next ev q
  sound' := h.sound'
  contents_eq := by
    rw [h.sound.contents_next, ← h.contents_eq]
    split
    · rename_i ht
      obtain ⟨rfl, -⟩ := ht
      -- the request was addressed to the table, so it is an evaluation that has failed
      simp only [Event.concerns, evaluator_next, decide_true, Bool.true_and, Bool.not_eq_false',
        Bool.and_eq_true] at hskip
      obtain ⟨hq, hfailed⟩ := hskip
      rw [(s.answers ev q).reply_eq] at hfailed
      exact Request.contents_respond_of_isFailed hq hfailed
    · rfl

/-- What concerns a table is answered alike, if all else is left out. -/
theorem history (h : Twins t s s') (requests : List (Nat × Request)) :
    List.Forall₂ (Event.Alike t) ((s.history requests).filter (Event.concerns t))
      (s'.history (((s.history requests).filter (Event.concerns t)).map Event.asked)) := by
  induction requests generalizing s s' with
  | nil => exact .nil
  | cons r requests ih =>
    obtain ⟨ev, q⟩ := r
    -- `s` takes every request, `s'` only those that concern the table
    rw [Session.history]
    rcases hconcerns : Event.concerns t ⟨ev, q, (s.answer ev q).1, s.next ev q⟩ with - | -
    · rw [List.filter_cons_of_neg (by rw [hconcerns]; decide)]
      exact ih (h.skip hconcerns)
    · rw [List.filter_cons_of_pos hconcerns]
      have hev : (s.evaluator ev).table = t := by
        simp only [Event.concerns, evaluator_next, Bool.and_eq_true, decide_eq_true_eq] at hconcerns
        exact hconcerns.1
      have htwins := h.both hev q
      refine .cons ⟨rfl, ?_, htwins.contents_eq⟩ (ih htwins)
      show (s.answer ev q).1.Alike (s'.answer ev q).1
      rw [(s.answers ev q).reply_eq, (s'.answers ev q).reply_eq]
      exact (h.response_alike hev q).1

end Twins

end Session

/-- **Tables are isolated, and evaluations that fail leave no trace.** From every state of a session
on, what is replied from a table and what its contents are after each request are the same if
everything is left out that is addressed to another table, or is an evaluation that fails. -/
theorem history_isolated (targets : List Target) (evaluators : List Evaluator) (logging : Bool)
    (before requests : List (Nat × Request)) (t : Nat) :
    let s := (Session.start targets evaluators logging).after before
    let kept := (s.history requests).filter (Event.concerns t)
    List.Forall₂ (Event.Alike t) kept (s.history (kept.map Event.asked)) := by
  intro s kept
  have hsound : s.Sound := (Session.sound_start targets evaluators logging).after before
  exact (Session.Twins.refl t hsound).history requests

end Reckoner
