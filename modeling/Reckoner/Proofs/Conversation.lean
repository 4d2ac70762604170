import Reckoner.Proofs.Isolation
import Reckoner.Proofs.Lines
import Reckoner.Prompt.Path
import Reckoner.Prompt.Transcript

/-!
# The conversation at the prompt

What is said at the prompt can be told without sessions, units and slots: from the values of the
names so far (`Bindings`), a line has a value or something is wrong with it, and the values for the
next line are known (`Bindings.answer`). The text of a conversation follows line by line
(`exchanges`). A line that is wrong leaves the values as they were.

The prompt takes this course for every input (`converse_eq`). What is wrong with a line never ends
it (`isReported_of_error`), and its session keeps waiting for the next line (`Waits`): it may run
its units, and it logs nothing and lists nothing.
-/

namespace Reckoner.Prompt

/-! ### Answers to lines -/

/-- Names with their values, in the order in which they were declared. -/
abbrev Bindings := List (String × Float)

namespace Bindings

/-- The meaning of a tree: its value or the first fault in it, and the values of names
afterwards. -/
def meaning (b : Bindings) (e : Expr) : Except EvalError Float × Bindings :=
  match e.scope (b.map (·.1)) with
  | .error why => (.error why, b)
  | .ok names =>
    let (x, store) := e.eval .byName fun x ↦ (b.lookup x).getD 0.0
    (.ok x, names.map fun y ↦ (y, store y))

/-- What a line is answered with, and the values of names afterwards. -/
def answer (b : Bindings) (line : String) : Except CalcError Float × Bindings :=
  match parse (tokenize line) with
  | .error why => (.error (.parse (tokenize line) why), b)
  | .ok e => (b.meaning e).map (·.mapError .eval) id

variable {b : Bindings} {line : String} {why : CalcError}

/-- **What can be answered.** The parser refuses the line, or the static pass refuses its tree, and
the values stay as they are; or there is a value. -/
theorem answer_cases (b : Bindings) (line : String) :
    (∃ why, parse (tokenize line) = .error why ∧
      b.answer line = (.error (.parse (tokenize line) why), b)) ∨
    (∃ e why, parse (tokenize line) = .ok e ∧ e.scope (b.map (·.1)) = .error why ∧
      b.answer line = (.error (.eval why), b)) ∨
    ∃ x, (b.answer line).1 = .ok x := by
  rw [answer]
  rcases parse (tokenize line) with why | e
  · exact .inl ⟨why, rfl, rfl⟩
  · refine .inr ?_
    rcases hscope : e.scope (b.map (·.1)) with why | names
    · refine .inl ⟨e, why, rfl, hscope, ?_⟩
      simp only [meaning, hscope]
      rfl
    · refine .inr ⟨(e.eval .byName fun x ↦ (b.lookup x).getD 0.0).1, ?_⟩
      simp only [meaning, hscope]
      rfl

/-- A line that is wrong changes nothing. -/
theorem answer_of_error (h : (b.answer line).1 = .error why) : (b.answer line).2 = b := by
  obtain ⟨_, -, heq⟩ | ⟨_, _, -, -, heq⟩ | ⟨_, heq⟩ := b.answer_cases line
  · rw [heq]
  · rw [heq]
  · exact nomatch heq.symm.trans h

/-- What is wrong with a line is printed, it does not end the program. -/
theorem isReported_of_error (h : (b.answer line).1 = .error why) : why.isReported = true := by
  obtain ⟨_, hparse, heq⟩ | ⟨e, fault, hparse, hscope, heq⟩ | ⟨_, heq⟩ := b.answer_cases line
  · obtain ⟨fault, index, rfl, -⟩ := exists_of_parse_eq_error (sealed_tokenize line) hparse
    rw [heq] at h
    obtain rfl := Except.error.inj h
    rfl
  · rw [heq] at h
    obtain rfl := Except.error.inj h
    match fault, fault_of_parse hparse hscope with
    | _, .notAssignable => rfl
    | _, .undeclared _ _ => rfl
  · exact nomatch heq.symm.trans h

theorem meaning_contents (v : Variables) (e : Expr) : meaning v.contents e = e.meaning v := by
  have hstore : (fun x ↦ (v.contents.lookup x).getD 0.0) = v.store := by
    funext x
    rw [Variables.store, Variables.get?_eq_lookup_contents]
  rewrite [meaning, Expr.meaning, ← Variables.names_eq_map_contents, hstore]
  rfl

end Bindings

/-- What is printed for an answer. -/
def told : Except CalcError Float → String
  | .ok x => Decimal.text x
  | .error why => why.message

/-- The prompt and what is printed for a line, and the values of names afterwards. A blank line is
passed over. -/
def exchange (b : Bindings) (line : String) : String × Bindings :=
  if Text.isBlankText line then (mark, b)
  else (mark ++ told (b.answer line).1 ++ "\n", (b.answer line).2)

/-- The text of a conversation. -/
def exchanges (b : Bindings) : List String → String
  | [] => ""
  | line :: lines => (exchange b line).1 ++ exchanges (exchange b line).2 lines

/-- The values of names after a conversation. -/
def Bindings.after (b : Bindings) (lines : List String) : Bindings :=
  lines.foldl (fun b line ↦ (exchange b line).2) b

theorem exchanges_append (b : Bindings) (lines lines' : List String) :
    exchanges b (lines ++ lines') = exchanges b lines ++ exchanges (b.after lines) lines' := by
  induction lines generalizing b with
  | nil => exact (String.empty_append).symm
  | cons line lines ih =>
    rw [List.cons_append, exchanges, exchanges, ih, String.append_assoc]
    rfl

/-- A line that is wrong adds its own prompt and message to the text, and nothing else changes. -/
theorem exchanges_of_error {b : Bindings} {lines lines' : List String} {line : String}
    {why : CalcError} (hblank : Text.isBlankText line = false)
    (h : ((b.after lines).answer line).1 = .error why) :
    exchanges b (lines ++ line :: lines') =
      exchanges b lines ++ (mark ++ why.message ++ "\n") ++ exchanges (b.after lines) lines' := by
  have hexchange :
      exchange (b.after lines) line = (mark ++ why.message ++ "\n", b.after lines) := by
    rw [exchange, if_neg (by simp [hblank]), Bindings.answer_of_error h, h]
    rfl
  rw [exchanges_append, exchanges, hexchange]
  exact (String.append_assoc ..).symm

/-! ### Sessions at the prompt -/

/-- A session that waits for the next line: it may run its units, logs nothing and lists nothing,
and its names have the given values. -/
structure Waits (s : Session) (b : Bindings) : Prop where
  target_ne : (s.settings 0).target ≠ .refusing
  listings_eq : (s.settings 0).listings = .nowhere
  logging_eq : (s.settings 0).logging = false
  file_eq : s.file = none
  table_lt : (s.evaluator 0).table < s.tables.length
  sound : s.Sound
  contents_eq : (s.table 0).contents = b

/-- An evaluation that is neither logged nor listed leaves no trace. -/
theorem evaluate_quiet {c : Settings} (hlistings : c.listings = .nowhere)
    (hlogging : c.logging = false) (unit : String) (e : Expr) (v : Variables) :
    (evaluate c unit e v).log = [] ∧ (evaluate c unit e v).listing = none := by
  have hundo (st : Lowering) (why : EvalError) :
      (st.undo why [] none).log = [] ∧ (st.undo why [] none).listing = none := by
    rw [Lowering.undo]
    split
    · exact ⟨rfl, rfl⟩
    · exact ⟨rfl, rfl⟩
  rw [evaluate]
  rcases e.lowerAll.run ⟨CodeUnit.new c.target unit, v, []⟩ with ⟨-, st⟩ | ⟨why, st⟩
  · simp only [hlistings, Settings.traceLog, Settings.runLog, hlogging]
    rcases st.unit.compile with fault | u
    · exact hundo st _
    · exact ⟨rfl, rfl⟩
  · exact hundo st why

/-- An evaluation that may be run comes to the meaning of the tree. -/
theorem outcome_eq_meaning {c : Settings} (hc : c.refusal? = none) {v : Variables} (hv : v.Sound)
    (unit : String) (e : Expr) :
    (evaluate c unit e v).outcome.map id Variables.contents = e.meaning v := by
  rcases evaluate_cases e v with ⟨why, k, hscope, houtcome⟩ | ⟨fresh, hs, hnodup, hfresh, houtcome⟩
  · rw [houtcome, Expr.meaning, hscope]
    exact congrArg (Prod.mk _) (v.restored_spare k).contents_eq
  · rw [houtcome, hc]
    exact effect_eq_meaning hv hs hnodup hfresh

/-- The reply that gives an answer to a line. -/
def replyOf : Except CalcError Float → Reply
  | .ok x => .result x
  | .error why => .failed why

/-- **A line is replied to with its answer**, and leaves the values that go with it. -/
theorem respond_run {c : Settings} (hc : c.refusal? = none) {v : Variables} (hv : v.Sound)
    (unit line : String) :
    ((Request.run line).respond c unit v).1 = replyOf (Bindings.answer v.contents line).1 ∧
      ((Request.run line).respond c unit v).2.contents = (Bindings.answer v.contents line).2 := by
  rw [Request.respond, Bindings.answer]
  rcases parse (tokenize line) with why | e
  · exact ⟨rfl, rfl⟩
  · have hmeaning := outcome_eq_meaning hc hv unit e
    rw [← Bindings.meaning_contents] at hmeaning
    have hresult : (evaluate c unit e v).outcome.1 = (Bindings.meaning v.contents e).1 :=
      congrArg Prod.fst hmeaning
    refine ⟨?_, congrArg Prod.snd hmeaning⟩
    show Reply.ofResult (evaluate c unit e v).outcome.1 =
      replyOf ((Bindings.meaning v.contents e).1.mapError .eval)
    rw [← hresult]
    rcases (evaluate c unit e v).outcome.1 with why | x
    · rfl
    · rfl

namespace Waits

variable {s : Session} {b : Bindings}

theorem refusal_eq (h : Waits s b) : (s.settings 0).refusal? = none := by
  rw [Settings.refusal?, h.listings_eq, if_neg h.target_ne]

theorem response_eq (h : Waits s b) (line : String) :
    (s.response 0 (.run line)).1 = replyOf (b.answer line).1 ∧
      (s.response 0 (.run line)).2.contents = (b.answer line).2 :=
  h.contents_eq ▸ respond_run h.refusal_eq (h.sound.table _) _ line

theorem quiet (h : Waits s b) (line : String) :
    (s.run 0 line).2.1 = [] ∧ (s.run 0 line).2.2.file = none := by
  rw [Session.run]
  rcases parse (tokenize line) with why | e
  · exact ⟨rfl, h.file_eq⟩
  · obtain ⟨hlog, hlisting⟩ := evaluate_quiet h.listings_eq h.logging_eq
      (Session.unitName (s.backendOf 0)) e (s.table 0)
    have hfile : (Reckoner.evaluate (s.settings 0) (Session.unitName (s.backendOf 0)) e
        (s.table 0)).listing.or s.file = none := by
      rw [hlisting, h.file_eq]
      rfl
    simp only [Session.evaluate]
    split
    · exact ⟨hlog, hfile⟩
    · exact ⟨hlog, hfile⟩

/-- The session waits again after it has answered. -/
theorem next (h : Waits s b) (line : String) :
    Waits (s.next 0 (.run line)) (b.answer line).2 where
  target_ne := by
    rw [Session.settings_next]
    exact h.target_ne
  listings_eq := by
    rw [Session.settings_next]
    exact h.listings_eq
  logging_eq := by
    rw [Session.settings_next]
    exact h.logging_eq
  file_eq := (h.quiet line).2
  table_lt := by
    rw [Session.evaluator_next, Session.length_tables_next]
    exact h.table_lt
  sound := h.sound.next 0 (.run line)
  contents_eq := by
    show ((s.next 0 (.run line)).tableAt ((s.next 0 (.run line)).evaluator 0).table).contents = _
    rw [Session.evaluator_next, h.sound.contents_next, if_pos ⟨rfl, h.table_lt⟩]
    exact (h.response_eq line).2

/-- **A line that comes in is answered**, and the session waits for the next one. -/
theorem respond_eq (h : Waits s b) (line : String) :
    (respond s line).escaped = none ∧ (respond s line).errors = "" ∧
      mark ++ (respond s line).output = (exchange b line).1 ∧
      Waits (respond s line).session (exchange b line).2 := by
  rw [respond, exchange]
  split
  case isTrue => exact ⟨rfl, rfl, String.append_empty, h⟩
  case isFalse =>
    have hnext := h.next line
    have hreply : (s.run 0 line).1 = replyOf (b.answer line).1 :=
      (s.answers 0 (.run line)).reply_eq.trans (h.response_eq line).1
    rw [Session.next, Session.answer] at hnext
    simp only [hreply, (h.quiet line).1]
    rcases hanswer : (b.answer line).1 with why | x
    · simp only [replyOf, if_pos (Bindings.isReported_of_error hanswer)]
      exact ⟨trivial, rfl, (String.append_assoc ..).symm, hnext⟩
    · exact ⟨rfl, rfl, (String.append_assoc ..).symm, hnext⟩

/-- **The prompt keeps up the conversation to the end of the input.** -/
theorem converse_eq (h : Waits s b) (lines : List String) :
    converse s lines = ⟨exchanges b lines ++ mark, "", none, none⟩ := by
  induction lines generalizing s b with
  | nil =>
    rw [converse, h.file_eq, exchanges, String.empty_append]
  | cons line lines ih =>
    obtain ⟨hescaped, herrors, houtput, hwaits⟩ := h.respond_eq line
    rw [converse]
    simp only [hescaped, herrors, houtput, ih hwaits, Transcript.after, exchanges]
    rw [String.append_assoc, String.empty_append]

end Waits

/-! ### The start -/

section Options

variable {choices choices' : Choices} {o : Options}

theorem readShort_ne_options (value : List Char) : readShort value ≠ .options o := by
  fun_induction readShort value with
  | case1 => exact nofun
  | case2 rest _ ih => exact ih
  | case3 => exact nofun

/-- No name stands for the target that refuses its units. -/
theorem backend_of_take {f : Flag} {value : String} (hchoices : choices.backend ≠ .named .refusing)
    (h : choices.take f value = .ok choices') : choices'.backend ≠ .named .refusing := by
  match f with
  | .help | .debug | .irFile =>
    obtain rfl := Except.ok.inj h
    exact hchoices
  | .backend =>
    rw [Choices.take] at h
    split at h
    case isTrue =>
      obtain rfl := Except.ok.inj h
      exact nofun
    case isFalse =>
      unfold backend? at h
      split at h
      case h_1 target htarget =>
        obtain rfl := Except.ok.inj h
        rintro ⟨⟩
        split at htarget <;> exact nomatch htarget
      case h_2 => exact nomatch h

theorem target_of_conclude (hchoices : choices.backend ≠ .named .refusing)
    (h : choices.conclude = .options o) : o.target ≠ .refusing := by
  rw [Choices.conclude] at h
  split at h
  case h_1 =>
    obtain rfl := Reading.options.inj h
    exact nofun
  case h_2 target hbackend =>
    obtain rfl := Reading.options.inj h
    rintro ⟨⟩
    exact hchoices hbackend
  case h_3 => exact nomatch h

theorem target_of_readSorted {extras : List String} {arguments : List Argument}
    (hchoices : choices.backend ≠ .named .refusing)
    (h : readSorted choices extras arguments = .options o) : o.target ≠ .refusing := by
  fun_induction readSorted choices extras arguments with
  | case1 => exact target_of_conclude hchoices h
  | case3 _ _ _ _ ih | case4 _ _ _ _ ih | case5 _ _ _ ih => exact ih hchoices h
  | case7 _ _ value => exact absurd h (readShort_ne_options value)
  | case8 _ _ _ _ _ _ _ htake ih | case10 _ _ _ _ _ _ _ htake ih =>
    exact ih (backend_of_take hchoices htake) h
  | case15 _ _ _ _ _ _ ih => exact ih hchoices h
  | _ => exact nomatch h

/-- A command line that is accepted chooses one of the two backends. -/
theorem target_of_read {arguments : List String} (h : read arguments = .options o) :
    o.target ≠ .refusing := by
  rw [read] at h
  split at h
  · exact target_of_readSorted (show Choice.unset ≠ .named Target.refusing from nofun) h
  · exact nomatch h

end Options

theorem waits_start {target : Target} (htarget : target ≠ .refusing) :
    Waits (Session.single target .nowhere false) [] where
  target_ne := htarget
  listings_eq := rfl
  logging_eq := rfl
  file_eq := rfl
  table_lt := Nat.zero_lt_one
  sound := Session.sound_start _ _ _
  contents_eq := rfl

/-! ### The rows of a text -/

/-- Rows as a text is cut into them: each of them ends with its only newline, or is the last one and
has none. -/
inductive IsRows : List (List Char) → Prop where
  | nil : IsRows []
  | last {row : List Char} (hne : row ≠ []) (hrow : '\n' ∉ row) : IsRows [row]
  | cons {body : List Char} {cut : List (List Char)} (hbody : '\n' ∉ body) (h : IsRows cut) :
    IsRows ((body ++ ['\n']) :: cut)

section Rows

variable {body : List Char} {cut cut' : List (List Char)}

theorem isRows_go (read text : List Char) (hread : '\n' ∉ read) :
    IsRows (rows.go read text) ∧ (rows.go read text).flatten = read.reverse ++ text := by
  induction text generalizing read with
  | nil =>
    rw [rows.go]
    by_cases hnil : read = []
    · subst hnil
      exact ⟨.nil, rfl⟩
    · rw [if_neg (by simpa using hnil)]
      exact ⟨.last (by simpa using hnil) (by simpa using hread), by simp⟩
  | cons c cs ih =>
    rw [rows.go]
    by_cases hc : c = '\n'
    · subst hc
      obtain ⟨hcut, hflatten⟩ := ih [] List.not_mem_nil
      rw [if_pos rfl, List.reverse_cons]
      exact ⟨.cons (by simpa using hread) hcut, by simp [hflatten]⟩
    · obtain ⟨hcut, hflatten⟩ := ih (c :: read) (by simp [hread, Ne.symm hc])
      rw [if_neg hc]
      exact ⟨hcut, by simp [hflatten]⟩

/-- A text is cut into rows. -/
theorem isRows_rows (text : List Char) : IsRows (rows text) :=
  (isRows_go [] text List.not_mem_nil).1

/-- Nothing of the text is lost. -/
theorem flatten_rows (text : List Char) : (rows text).flatten = text :=
  (isRows_go [] text List.not_mem_nil).2

/-- A row goes on up to a newline. -/
theorem go_append (hbody : '\n' ∉ body) (read text : List Char) :
    rows.go read (body ++ text) = rows.go (body.reverse ++ read) text := by
  induction body generalizing read with
  | nil => rfl
  | cons c body ih =>
    obtain ⟨hc, hbody⟩ := List.ne_and_not_mem_of_not_mem_cons hbody
    rw [List.cons_append, rows.go, if_neg (Ne.symm hc), ih hbody, List.reverse_cons,
      List.append_assoc]
    rfl

/-- Rows that are put together are cut in the same places. -/
theorem IsRows.rows_flatten (h : IsRows cut) : rows cut.flatten = cut := by
  induction h with
  | nil => rfl
  | @last row hne hrow =>
    have hgo := go_append hrow [] []
    rw [List.append_nil, List.append_nil, rows.go, if_neg (by simpa using hne),
      List.reverse_reverse] at hgo
    rwa [List.flatten_singleton, rows]
  | @cons body cut hbody _ ih =>
    have hgo := go_append hbody [] ('\n' :: cut.flatten)
    rw [rows.go, if_pos rfl, List.append_nil, List.reverse_cons, List.reverse_reverse] at hgo
    rw [List.flatten_cons, List.append_assoc]
    exact hgo.trans (congrArg _ ih)

/-- Rows may be left out. -/
theorem IsRows.sublist (h : IsRows cut) (hsub : cut'.Sublist cut) : IsRows cut' := by
  induction h generalizing cut' with
  | nil =>
    rw [List.sublist_nil.1 hsub]
    exact .nil
  | last hne hrow =>
    rcases List.sublist_singleton.1 hsub with rfl | rfl
    · exact .nil
    · exact .last hne hrow
  | cons hbody _ ih =>
    cases hsub with
    | cons _ hsub => exact ih hsub
    | cons_cons _ hsub => exact .cons hbody (ih hsub)

end Rows

namespace Newlines

/-- No carriage return is left where they are translated. -/
theorem return_notMem_go (text : List Char) : '\r' ∉ decode.go text := by
  induction text using decode.go.induct with
  | case1 => exact List.not_mem_nil
  | case2 cs ih =>
    rw [decode.go]
    simpa using ih
  | case3 cs hnewline ih =>
    rw [decode.go.eq_3 _ hnewline]
    simpa using ih
  | case4 c cs _ hreturn ih =>
    rw [decode.go.eq_4 _ _ ‹_› hreturn]
    simpa [ih] using Ne.symm hreturn

/-- A text without carriage returns is read as it is. -/
theorem go_eq_self {text : List Char} (h : '\r' ∉ text) : decode.go text = text := by
  induction text with
  | nil => rfl
  | cons c cs ih =>
    obtain ⟨hc, hcs⟩ := List.ne_and_not_mem_of_not_mem_cons h
    rw [decode.go.eq_4 _ _ (fun _ h _ ↦ hc h.symm) (Ne.symm hc), ih hcs]

/-- Parts of a text that has been read are read as they are. -/
theorem decode_of_subset (newlines : Newlines) {text part : List Char}
    (h : part ⊆ newlines.decode text) : newlines.decode part = part := by
  cases newlines with
  | kept => rfl
  | translated => exact go_eq_self fun hmem ↦ return_notMem_go text (h hmem)

/-- **A line can be taken out of the text** that has been read: what stands before it and behind it
is cut into the same lines as before. -/
theorem exists_row {newlines : Newlines} {input line : String} {before after : List String}
    (h : newlines.lines input = before ++ line :: after) :
    ∃ head row rest, newlines.decode input.toList = head ++ row ++ rest ∧ lineOf row = line ∧
      newlines.lines (String.ofList head) = before ∧
      newlines.lines (String.ofList (head ++ rest)) = before ++ after := by
  obtain ⟨cut, cut', hcut, rfl, hafter⟩ := List.map_eq_append_iff.1 h
  obtain ⟨row, cut', rfl, rfl, rfl⟩ := List.map_eq_cons_iff.1 hafter
  have hrows : IsRows (cut ++ row :: cut') := hcut ▸ isRows_rows _
  have htext : newlines.decode input.toList = cut.flatten ++ row ++ cut'.flatten := by
    rw [← flatten_rows (newlines.decode _), hcut]
    simp
  -- the rows that are left stand in the text as it was read, and so they are read again
  have hlines {part : List (List Char)} (hsub : part.Sublist (cut ++ row :: cut'))
      (hpart : part.flatten ⊆ newlines.decode input.toList) :
      newlines.lines (String.ofList part.flatten) = part.map lineOf := by
    rw [lines, String.toList_ofList, newlines.decode_of_subset hpart,
      (hrows.sublist hsub).rows_flatten]
  refine ⟨_, row, _, htext, rfl, hlines (List.sublist_append_left _ _) ?_, ?_⟩
  · rw [htext]
    simp
  · have hsub : (cut ++ cut').Sublist (cut ++ row :: cut') :=
      (List.sublist_cons_self row cut').append_left cut
    rw [← List.flatten_append, hlines hsub (by rw [htext, List.flatten_append]; grind),
      List.map_append]

end Newlines

/-- **The prompt survives every input and prints just the conversation**, if it is called without
the options for logging and for a listing file: nothing ends it before the input does, nothing is
written to the error output, and no file. A line that is wrong changes nothing for later lines: if
it is taken out of the input as it is read, with its end, then its prompt and message are gone from
the output, and all else stays. -/
theorem transcript_eq {arguments : List String} {o : Options} (hread : read arguments = .options o)
    (hdebug : o.debug = false) (hfile : o.irFile = .unset)
    (obstacle? : Path → Option ListingFault) (newlines : Newlines) :
    (∀ input : String, transcript newlines o (o.listings obstacle?) input =
      ⟨exchanges [] (newlines.lines input) ++ mark, "", none, none⟩) ∧
    ∀ (input : String) (before after : List String) (line : String) (why : CalcError),
      newlines.lines input = before ++ line :: after →
      Text.isBlankText line = false →
      ((Bindings.after [] before).answer line).1 = .error why →
      let front := exchanges [] before
      let back := exchanges (Bindings.after [] before) after ++ mark
      (transcript newlines o (o.listings obstacle?) input).output =
          front ++ (mark ++ why.message ++ "\n") ++ back ∧
        (∀ input' : String, newlines.lines input' = before ++ after →
          (transcript newlines o (o.listings obstacle?) input').output = front ++ back) ∧
        ∃ head row rest, newlines.decode input.toList = head ++ row ++ rest ∧ lineOf row = line ∧
          newlines.lines (String.ofList head) = before ∧
          newlines.lines (String.ofList (head ++ rest)) = before ++ after := by
  have hlistings : o.listings obstacle? = .nowhere := by rw [Options.listings, hfile]
  have htranscript (input : String) : transcript newlines o (o.listings obstacle?) input =
      ⟨exchanges [] (newlines.lines input) ++ mark, "", none, none⟩ := by
    rw [transcript, Options.session, hlistings, hdebug]
    exact (waits_start (target_of_read hread)).converse_eq _
  refine ⟨htranscript, fun input before after line why hlines hblank hwhy ↦ ⟨?_, ?_, ?_⟩⟩
  · rw [htranscript, hlines, exchanges_of_error hblank hwhy, String.append_assoc]
  · intro input' hlines'
    rw [htranscript, hlines', exchanges_append, String.append_assoc]
  · exact Newlines.exists_row hlines

/-- An assignment inside a line that fails is undone, and the next lines read the old value. In the
input, the line stands between a carriage return and an empty line. -/
theorem transcript_eq_undone :
    (transcript .translated ⟨.interpreter, false, .unset⟩ .nowhere
        "a = 2\r(a = 3) + b\n\na * 1.5\n").output =
      "> 2.0\n> [Runtime error] Variable not declared: b\n> > 3.0\n> " ∧
    (transcript .translated ⟨.interpreter, false, .unset⟩ .nowhere "a = 2\n\na * 1.5\n").output =
      "> 2.0\n> > 3.0\n> " := by
  obtain ⟨hwith, hwithout, -⟩ := (transcript_eq
    (show read ["--backend=interpreter"] = .options ⟨.interpreter, false, .unset⟩ by rfl)
    rfl rfl (fun _ ↦ none) .translated).2 "a = 2\r(a = 3) + b\n\na * 1.5\n" ["a = 2"]
      ["", "a * 1.5"] "(a = 3) + b" (.eval (.undeclared "b")) (by decide +kernel)
      (by decide +kernel) (by decide +kernel)
  exact ⟨hwith.trans (by decide +kernel),
    (hwithout "a = 2\n\na * 1.5\n" (by decide +kernel)).trans (by decide +kernel)⟩

end Reckoner.Prompt
