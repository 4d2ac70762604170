import Reckoner.Session
import Reckoner.Proofs.Outcome

/-!
# Histories of sessions

A request is answered from the table of the evaluator it is addressed to (`Session.answers`):
`Request.respond` is the answer, seen from the table. The cells of all tables lie in one storage,
and every request may change it. But it changes only cells that are new or belong to names of the
table (`Request.Changes`), and in a *sound* session no cell belongs to two tables, so that the
contents of other tables stay as they are (`Session.Sound.contents_next`).

Evaluators never change, and neither does what the settings say about running units, so that a
session differs from the one before only in its storage, its tables, its unit numbers and its file.

A history is the row of requests that were answered one after the other, each with its reply and
with the session behind it.
-/

namespace Reckoner

/-! ### Requests, seen from a table -/

/-- What is answered to an evaluation. -/
def Reply.ofResult : Except EvalError Float → Reply
  | .ok x => .result x
  | .error why => .failed (.eval why)

namespace Request

/-- The tree that a request asks to evaluate. -/
def tree? : Request → Option Expr
  | run line => (parse (tokenize line)).toOption
  | eval e => some e
  | _ => none

/-- What is answered to a request from a table, and the table afterwards. -/
def respond (c : Settings) (unit : String) (v : Variables) : Request → Reply × Variables
  | run line =>
    match parse (tokenize line) with
    | .ok e => (evaluate c unit e v).outcome.map .ofResult id
    | .error why => (.failed (.parse (tokenize line) why), v)
  | eval e => (evaluate c unit e v).outcome.map .ofResult id
  | get x => (((v.get? x).map .value).getD (.failed (.eval (.unknownName x))), v)
  | contains x => (.known (v.contains x), v)
  | lookup x => (.slot (v.lookup x), v)
  | declare x => (.slot (some (v.declare x).1), (v.declare x).2)
  | assign x y => (.done, v.assign x y)
  | forget x =>
    match v.forget? x with
    | some w => (.done, w)
    | none => (.failed (.eval (.unknownName x)), v)
  | table => (.table v, v)

variable {c c' : Settings} {v : Variables} {q : Request} {e : Expr}

/-- A request for a tree is answered by evaluating it. -/
theorem respond_of_tree (h : q.tree? = some e) (unit : String) :
    q.respond c unit v = (evaluate c unit e v).outcome.map .ofResult id := by
  cases q with
  | eval e' =>
    cases h
    rfl
  | run line =>
    rw [tree?] at h
    rcases hparse : parse (tokenize line) with why | e'
    · rw [hparse] at h
      cases h
    · rw [hparse] at h
      cases h
      rw [respond, hparse]
  | _ => cases h

/-- The settings matter to a response only if no unit may be run. -/
theorem respond_congr (h : c.refusal? = c'.refusal?) (unit unit' : String) (v : Variables)
    (q : Request) : q.respond c unit v = q.respond c' unit' v := by
  cases q with
  | run line =>
    rw [respond, respond]
    rcases parse (tokenize line) with why | e
    · rfl
    · simp only [outcome_congr h unit unit']
  | eval e => rw [respond, respond, outcome_congr h unit unit']
  | _ => rfl

end Request

/-! ### What a request does to a table -/

/-- Evaluation makes no cells, and changes none but those of the names. -/
theorem Expr.Scoped.eval_frame {e : Expr} {names names' : List String} (h : e.Scoped names names')
    (slots : String → Slot) (s : Storage) :
    (e.eval (.bySlot slots) s).2.length = s.length ∧
      ∀ slot, (∀ x ∈ names', slots x ≠ slot) →
        (e.eval (.bySlot slots) s).2.read slot = s.read slot := by
  have hrel := h.eval_congr (M := .bySlot slots) (N := .bySlot slots)
    (R := fun s' s'' ↦ s' = s'' ∧ s'.length = s.length ∧
      ∀ slot, (∀ x ∈ names', slots x ≠ slot) → s'.read slot = s.read slot)
    (fun _ _ h _ _ ↦ by rw [h.1])
    (fun s' _ h x hx y ↦ ⟨by rw [h.1], (s'.length_write _ _).trans h.2.1, fun slot hslot ↦
      (s'.read_write_of_ne (hslot x hx).symm y).trans (h.2.2 slot hslot)⟩)
    (List.Subset.refl _) s s ⟨rfl, rfl, fun _ _ ↦ rfl⟩
  exact hrel.2.2

/-- What a request can do to a table. It declares new names and changes the contents of their cells
and of those of the other names; it makes cells that no name gets; or, if it asks for that, it
forgets a name. Cells that are no name's keep their contents. -/
inductive Request.Changes : Request → Variables → Variables → Prop where
  | written {q : Request} {v : Variables} (fresh : List String) {s : Storage}
    (hnodup : fresh.Nodup) (hfresh : ∀ x ∈ fresh, x ∉ v.names)
    (hlength : s.length = (v.extend fresh).storage.length)
    (hkept : ∀ slot < v.storage.length, (∀ x, v.lookup x ≠ some slot) →
      s.read slot = v.storage.read slot) :
    Changes q v { v.extend fresh with storage := s }
  | spared {q : Request} {v : Variables} (k : Nat) : Changes q v (v.spare k)
  | forgotten {v : Variables} (x : String) :
    Changes (.forget x) v { v with entries := v.entries.filter fun p ↦ p.1 != x }

namespace Request

variable {q : Request} {v w : Variables}

theorem changes_self (q : Request) (v : Variables) : q.Changes v v := by
  have h : q.Changes v { v.extend [] with storage := v.storage } :=
    .written [] List.nodup_nil (by simp) (by simp) fun _ _ _ ↦ rfl
  rwa [Variables.extend_nil] at h

/-- An evaluation changes a table only as a request may: the new cells lie behind the others. -/
theorem changes_outcome (q : Request) (c : Settings) (unit : String) (e : Expr) (v : Variables) :
    q.Changes v (evaluate c unit e v).outcome.2 := by
  rcases evaluate_cases e v with ⟨why, k, -, houtcome⟩ | ⟨fresh, hs, hnodup, hfresh, houtcome⟩
  · rw [houtcome]
    exact .spared k
  · rw [houtcome]
    rcases c.refusal? with - | why
    · obtain ⟨hlength, hframe⟩ := hs.eval_frame (v.extend fresh).slotOf (v.extend fresh).storage
      refine .written fresh hnodup hfresh hlength fun slot hlt hslot ↦ ?_
      -- an old cell that is no name's is none of the new names' either
      have hother : ∀ x ∈ v.names ++ fresh, (v.extend fresh).slotOf x ≠ slot := by
        rintro x hx rfl
        rw [← Variables.names_extend] at hx
        rcases Variables.lookup_of_extend (Variables.lookup_slotOf hx) with hold | hle
        · exact hslot x hold
        · exact Nat.not_lt_of_le hle hlt
      exact (hframe slot hother).trans (v.read_extend fresh slot)
    · exact .spared fresh.length

/-- So does an assignment. -/
theorem changes_assign (q : Request) (v : Variables) (x : String) (y : Float) :
    q.Changes v (v.assign x y) := by
  by_cases hx : x ∈ v.names
  · obtain ⟨slot, hslot⟩ := Variables.exists_lookup hx
    have h : q.Changes v { v.extend [] with storage := v.storage.write slot y } := by
      refine .written [] List.nodup_nil (by simp) (by simp [Storage.length_write])
        fun slot' _ hother ↦ Storage.read_write_of_ne _ ?_ y
      rintro rfl
      exact hother x hslot
    rw [Variables.extend_nil] at h
    rwa [Variables.assign, Variables.declare_of_mem hslot]
  · rw [Variables.assign, Variables.declare_of_notMem hx]
    refine .written [x] (List.nodup_singleton x) (by simpa using hx) (Storage.length_write _ _ _)
      fun slot hlt _ ↦ ?_
    exact (Storage.read_write_of_ne _ (Nat.ne_of_lt hlt) y).trans (v.read_extend [x] slot)

/-- **What a response does to the table.** -/
theorem changes_respond (q : Request) (c : Settings) (unit : String) (v : Variables) :
    q.Changes v (q.respond c unit v).2 := by
  cases q with
  | run line =>
    rw [respond]
    rcases parse (tokenize line) with why | e
    · exact changes_self _ v
    · exact changes_outcome _ c unit e v
  | eval e => exact changes_outcome _ c unit e v
  | get | contains | lookup | table => exact changes_self _ v
  | declare x =>
    rw [respond]
    by_cases hx : x ∈ v.names
    · obtain ⟨slot, hslot⟩ := Variables.exists_lookup hx
      rw [Variables.declare_of_mem hslot]
      exact changes_self _ v
    · rw [Variables.declare_of_notMem hx]
      exact .written [x] (List.nodup_singleton x) (by simpa using hx) rfl fun slot _ _ ↦
        v.read_extend [x] slot
  | assign x y => exact changes_assign _ v x y
  | forget x =>
    rw [respond, Variables.forget?]
    by_cases hx : v.contains x = true
    · rw [if_pos hx]
      exact .forgotten x
    · rw [if_neg hx]
      exact changes_self _ v

/-- Requests keep tables sound. -/
theorem Changes.sound (h : q.Changes v w) (hv : v.Sound) : w.Sound := by
  cases h with
  | written fresh hnodup hfresh hlength _ =>
    exact (hv.extend hnodup hfresh).withStorage (Nat.le_of_eq hlength.symm)
  | spared k => exact (v.restored_spare k).sound hv
  | forgotten x => exact hv.filter _

/-- Cells are never given back. -/
theorem Changes.length_le (h : q.Changes v w) : v.storage.length ≤ w.storage.length := by
  cases h with
  | written fresh hnodup hfresh hlength _ =>
    rw [hlength, Variables.extend, List.length_append]
    exact Nat.le_add_right _ _
  | spared k => exact (v.restored_spare k).isPrefix.length_le
  | forgotten x => exact Nat.le_refl _

/-- A cell that belongs to no name keeps its contents. -/
theorem Changes.read_eq (h : q.Changes v w) {slot : Slot} (hlt : slot < v.storage.length)
    (hslot : ∀ x, v.lookup x ≠ some slot) : w.storage.read slot = v.storage.read slot := by
  cases h with
  | written fresh hnodup hfresh hlength hkept => exact hkept slot hlt hslot
  | spared k => exact v.read_spare k slot
  | forgotten x => rfl

/-- A name keeps its slot, unless it is forgotten. -/
theorem Changes.lookup_eq (h : q.Changes v w) {x : String} {slot : Slot} (hq : q ≠ .forget x)
    (hx : v.lookup x = some slot) : w.lookup x = some slot := by
  cases h with
  | written fresh => exact Variables.lookup_extend hx
  | spared k => exact hx
  | forgotten y =>
    have hne : x ≠ y := by
      rintro rfl
      exact hq rfl
    rw [Variables.lookup_filter, if_neg hne]
    exact hx

/-- A name that has a slot had it before, or the slot has a new cell. -/
theorem Changes.lookup_or_le (h : q.Changes v w) {x : String} {slot : Slot}
    (hx : w.lookup x = some slot) : v.lookup x = some slot ∨ v.storage.length ≤ slot := by
  cases h with
  | written fresh => exact Variables.lookup_of_extend hx
  | spared k => exact .inl hx
  | forgotten y =>
    rw [Variables.lookup_filter, Option.ite_none_left_eq_some] at hx
    exact .inl hx.2

end Request

/-! ### Answers -/

namespace Session

/-- The backend of an evaluator. -/
def backendOf (s : Session) (ev : Nat) : Backend :=
  s.backends[(s.evaluator ev).backend]?.getD default

/-- The settings of an evaluator. -/
def settings (s : Session) (ev : Nat) : Settings :=
  ⟨(s.backendOf ev).target, (s.evaluator ev).listings, s.logging⟩

/-- The table at a place. -/
def tableAt (s : Session) (t : Nat) : Variables :=
  ⟨s.tables[t]?.getD [], s.storage⟩

/-- The response to a request from the table of an evaluator. -/
def response (s : Session) (ev : Nat) (q : Request) : Reply × Variables :=
  q.respond (s.settings ev) (unitName (s.backendOf ev)) (s.table ev)

/-- The session behind a request. -/
def next (s : Session) (ev : Nat) (q : Request) : Session :=
  (s.answer ev q).2.2

/-- An answer of an evaluator that goes back to a response from its table. -/
structure Answers (s : Session) (ev : Nat) (response : Reply × Variables)
    (answer : Reply × List LogEntry × Session) : Prop where
  reply_eq : answer.1 = response.1
  storage_eq : answer.2.2.storage = response.2.storage
  tables_eq : answer.2.2.tables = s.tables.set (s.evaluator ev).table response.2.entries
  evaluators_eq : answer.2.2.evaluators = s.evaluators
  targets_eq : answer.2.2.backends.map Backend.target = s.backends.map Backend.target
  logging_eq : answer.2.2.logging = s.logging

variable {s : Session} {ev : Nat} {q : Request} {t : Nat}

theorem answers_setTable (reply : Reply) (log : List LogEntry) (v : Variables) :
    s.Answers ev (reply, v) (reply, log, s.setTable ev v) :=
  ⟨rfl, rfl, rfl, rfl, rfl, rfl⟩

/-- Putting what is at a place back into the place changes nothing, even if there is no such
place. -/
theorem set_getD_self {α : Type} (as : List α) (i : Nat) (d : α) :
    as.set i (as[i]?.getD d) = as := by
  by_cases h : i < as.length
  · simp [h]
  · exact List.set_eq_of_length_le (Nat.le_of_not_lt h)

/-- An answer that leaves the session as it was leaves the table as it was. -/
theorem answers_self (reply : Reply) (log : List LogEntry) :
    s.Answers ev (reply, s.table ev) (reply, log, s) :=
  ⟨rfl, rfl, (set_getD_self ..).symm, rfl, rfl, rfl⟩

theorem target_backendOf (s : Session) (ev : Nat) : (s.backendOf ev).target =
    (s.backends.map Backend.target)[(s.evaluator ev).backend]?.getD default := by
  rw [List.getElem?_map]
  exact (Option.getD_map Backend.target default _).symm

/-- An evaluation in a session is one on the table of its evaluator. -/
theorem answers_evaluate (s : Session) (ev : Nat) (e : Expr) :
    s.Answers ev ((Reckoner.evaluate (s.settings ev) (unitName (s.backendOf ev)) e
      (s.table ev)).outcome.map .ofResult id) (s.evaluate ev e) := by
  -- the backend counts its units, but it stays what it is
  have htargets : (s.backends.set (s.evaluator ev).backend
      { s.backendOf ev with made := (s.backendOf ev).made + 1 }).map Backend.target =
        s.backends.map Backend.target := by
    rw [List.map_set, target_backendOf]
    exact set_getD_self ..
  show s.Answers ev _ (match (Reckoner.evaluate (s.settings ev) (unitName (s.backendOf ev)) e
      (s.table ev)).result with
    | .ok x => (.result x, _, _)
    | .error why => (.failed (.eval why), _, _))
  rw [Evaluation.outcome]
  rcases (Reckoner.evaluate (s.settings ev) (unitName (s.backendOf ev)) e
      (s.table ev)).result with why | x
  · exact ⟨rfl, rfl, rfl, rfl, htargets, rfl⟩
  · exact ⟨rfl, rfl, rfl, rfl, htargets, rfl⟩

/-- **Every answer goes back to a response from the evaluator's table.** -/
theorem answers (s : Session) (ev : Nat) (q : Request) :
    s.Answers ev (s.response ev q) (s.answer ev q) := by
  cases q with
  | run line =>
    show s.Answers ev _ (s.run ev line)
    rw [response, Request.respond, run]
    rcases parse (tokenize line) with why | e
    · exact answers_self _ _
    · exact answers_evaluate s ev e
  | eval e => exact answers_evaluate s ev e
  | get x =>
    rw [response, Request.respond, answer]
    rcases (s.table ev).get? x with - | y
    · exact answers_self _ _
    · exact answers_self _ _
  | contains | lookup | table => exact answers_self _ _
  | declare | assign => exact answers_setTable _ _ _
  | forget x =>
    rw [response, Request.respond, answer]
    rcases (s.table ev).forget? x with - | v
    · exact answers_self _ _
    · exact answers_setTable _ _ _

/-! ### The session behind a request -/

theorem evaluator_next (s : Session) (ev : Nat) (q : Request) :
    (s.next ev q).evaluator = s.evaluator := by
  funext ev'
  rw [evaluator, next, (s.answers ev q).evaluators_eq]
  rfl

theorem length_tables_next (s : Session) (ev : Nat) (q : Request) :
    (s.next ev q).tables.length = s.tables.length := by
  rw [next, (s.answers ev q).tables_eq, List.length_set]

/-- The storage of a session is that of the answer. -/
theorem storage_next (s : Session) (ev : Nat) (q : Request) :
    (s.next ev q).storage = (s.response ev q).2.storage :=
  (s.answers ev q).storage_eq

/-- Only the evaluator's own table is changed, and the storage behind the others. -/
theorem tableAt_next (s : Session) (ev : Nat) (q : Request) (t : Nat) :
    (s.next ev q).tableAt t =
      if (s.evaluator ev).table = t ∧ t < s.tables.length then (s.response ev q).2
      else { s.tableAt t with storage := (s.response ev q).2.storage } := by
  rw [tableAt, storage_next, next, (s.answers ev q).tables_eq, List.getElem?_set]
  by_cases ht : (s.evaluator ev).table = t
  · subst ht
    -- where there is no table, the names are lost
    by_cases hlt : (s.evaluator ev).table < s.tables.length
    · simp [hlt]
    · simp [hlt, tableAt]
  · simp [ht, tableAt]

/-- What a request can do to the evaluator's own table. -/
theorem changes_response (s : Session) (ev : Nat) (q : Request) :
    q.Changes (s.tableAt (s.evaluator ev).table) (s.response ev q).2 :=
  q.changes_respond ..

/-- Cells are never given back. -/
theorem length_storage_next (s : Session) (ev : Nat) (q : Request) :
    s.storage.length ≤ (s.next ev q).storage.length := by
  rw [storage_next]
  exact (s.changes_response ev q).length_le

/-- A name keeps its slot, unless it is forgotten in its table. -/
theorem lookup_next {x : String} {slot : Slot} (hx : (s.tableAt t).lookup x = some slot)
    (hq : ¬(q = .forget x ∧ (s.evaluator ev).table = t)) :
    ((s.next ev q).tableAt t).lookup x = some slot := by
  rw [tableAt_next]
  split
  · rename_i ht
    obtain ⟨rfl, -⟩ := ht
    exact (s.changes_response ev q).lookup_eq (fun heq ↦ hq ⟨heq, rfl⟩) hx
  · exact hx

/-- A name that has a slot had it before, or the slot has a new cell and the request was addressed
to the table of the name. -/
theorem lookup_of_next {x : String} {slot : Slot}
    (hx : ((s.next ev q).tableAt t).lookup x = some slot) :
    (s.tableAt t).lookup x = some slot ∨
      (s.evaluator ev).table = t ∧ s.storage.length ≤ slot := by
  rw [tableAt_next] at hx
  split at hx
  · rename_i ht
    obtain ⟨rfl, -⟩ := ht
    exact ((s.changes_response ev q).lookup_or_le hx).imp_right fun hle ↦ ⟨rfl, hle⟩
  · exact .inl hx

/-- The settings of evaluators stay what they are. -/
theorem settings_next (s : Session) (ev : Nat) (q : Request) :
    (s.next ev q).settings = s.settings := by
  funext ev'
  rw [settings, settings, target_backendOf, target_backendOf, evaluator_next, next,
    (s.answers ev q).targets_eq, (s.answers ev q).logging_eq]

/-- Two sessions with the same evaluators, of which the same ones may run units. -/
structure SameSettings (s s' : Session) : Prop where
  evaluator_eq : s.evaluator = s'.evaluator
  refusal_eq : ∀ ev, (s.settings ev).refusal? = (s'.settings ev).refusal?

theorem SameSettings.next_left {s' : Session} (h : s.SameSettings s') (ev : Nat) (q : Request) :
    (s.next ev q).SameSettings s' where
  evaluator_eq := (evaluator_next s ev q).trans h.evaluator_eq
  refusal_eq := by
    rw [settings_next]
    exact h.refusal_eq

theorem SameSettings.next_right {s' : Session} (h : s.SameSettings s') (ev : Nat) (q : Request) :
    s.SameSettings (s'.next ev q) where
  evaluator_eq := h.evaluator_eq.trans (evaluator_next s' ev q).symm
  refusal_eq := by
    rw [settings_next]
    exact h.refusal_eq

/-! ### Histories -/

/-- The session behind a row of requests, each of them addressed to an evaluator. -/
def after (s : Session) (requests : List (Nat × Request)) : Session :=
  requests.foldl (fun s r ↦ s.next r.1 r.2) s

/-- What every request preserves, a row of requests preserves. -/
theorem after_of_next {P : Session → Prop} (hnext : ∀ s ev q, P s → P (s.next ev q)) (h : P s)
    (requests : List (Nat × Request)) : P (s.after requests) := by
  induction requests generalizing s with
  | nil => exact h
  | cons r requests ih => exact ih (hnext s r.1 r.2 h)

end Session

/-- A request that was answered by an evaluator. -/
structure Event where
  evaluator : Nat
  request : Request
  reply : Reply
  /-- The session behind the request. -/
  session : Session

namespace Session

variable {s : Session}

/-- The history of a row of requests, each of them addressed to an evaluator. -/
def history (s : Session) : List (Nat × Request) → List Event
  | [] => []
  | (ev, q) :: requests =>
    ⟨ev, q, (s.answer ev q).1, s.next ev q⟩ :: (s.next ev q).history requests

/-- The tables of a session are sound, and no slot belongs to two of them. -/
structure Sound (s : Session) : Prop where
  table : ∀ t, (s.tableAt t).Sound
  apart : ∀ {t t' : Nat} {x x' : String} {slot : Slot}, (s.tableAt t).lookup x = some slot →
    (s.tableAt t').lookup x' = some slot → t = t'

/-- A new session is sound. -/
theorem sound_start (targets : List Target) (evaluators : List Evaluator) (logging : Bool) :
    (start targets evaluators logging).Sound := by
  have h (t : Nat) : (start targets evaluators logging).tableAt t = .empty := by
    rw [tableAt, start, List.getElem?_replicate]
    split <;> rfl
  refine ⟨fun t ↦ ?_, fun {t t' x x' slot} hx hx' ↦ ?_⟩
  · rw [h]
    exact Variables.sound_empty
  · rw [h] at hx
    cases hx

namespace Sound

variable {ev t : Nat} {q : Request}

/-- The slots of names lie in the storage. -/
theorem slot_lt (h : s.Sound) {x : String} {slot : Slot}
    (hx : (s.tableAt t).lookup x = some slot) : slot < s.storage.length :=
  (h.table t).slots_lt _ (Variables.mem_entries_of_lookup hx)

/-- **Requests keep a session sound.** Two tables come to share no slot, since a slot is either one
that a name of the table had before, or a new one. -/
theorem next (h : s.Sound) (ev : Nat) (q : Request) : (s.next ev q).Sound where
  table t := by
    rw [tableAt_next]
    split
    · rename_i ht
      obtain ⟨rfl, -⟩ := ht
      exact (s.changes_response ev q).sound (h.table _)
    · exact (h.table t).withStorage (s.changes_response ev q).length_le
  apart {t t' x x' slot} hx hx' := by
    rcases lookup_of_next hx with hold | ⟨rfl, hnew⟩ <;>
      rcases lookup_of_next hx' with hold' | ⟨rfl, hnew'⟩
    · exact h.apart hold hold'
    · exact absurd (h.slot_lt hold) (Nat.not_lt_of_le hnew')
    · exact absurd (h.slot_lt hold') (Nat.not_lt_of_le hnew)
    · rfl

theorem after (h : s.Sound) (requests : List (Nat × Request)) : (s.after requests).Sound :=
  after_of_next (fun _ ev q h ↦ h.next ev q) h requests

/-- **The contents of other tables stay as they are**, whatever becomes of the storage that they
share. -/
theorem contents_next (h : s.Sound) (ev : Nat) (q : Request) (t : Nat) :
    ((s.next ev q).tableAt t).contents =
      if (s.evaluator ev).table = t ∧ t < s.tables.length then (s.response ev q).2.contents
      else (s.tableAt t).contents := by
  rw [tableAt_next]
  split
  case isTrue => rfl
  case isFalse ht =>
    refine List.map_congr_left fun p hp ↦ ?_
    have hlookup : (s.tableAt t).lookup p.1 = some p.2 := (h.table t).lookup_of_mem hp
    -- the table has names, so it is there, and the request was addressed to another one
    have hne : (s.evaluator ev).table ≠ t := by
      rintro rfl
      refine ht ⟨rfl, Nat.lt_of_not_le fun hle ↦ ?_⟩
      rw [tableAt, List.getElem?_eq_none hle] at hp
      cases hp
    rw [(s.changes_response ev q).read_eq (h.slot_lt hlookup) fun x hx ↦
      hne (h.apart hx hlookup)]
    rfl

end Sound

end Session

end Reckoner
