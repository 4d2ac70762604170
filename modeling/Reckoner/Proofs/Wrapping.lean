import Reckoner.Proofs.Isolation
import Reckoner.Proofs.Layout
import Reckoner.Proofs.Slices

/-!
# Lines in parentheses

Putting a line in parentheses puts its tree into a group, and changes nothing else
(`run_wrapped`). The two lines are read in different ways: the one ends with a token for the end of
the line, the other is the inside of a group, which ends where its window does. So the parser is
compared with itself on a row of tokens and on the row with the end of the line behind it
(`Parser.Caps`). It does the same on both. Where it misses a token at the end, it is refused at the
same place, but the wording may differ: the end of the line is a token, and can be called the wrong
one.
-/

namespace Reckoner

namespace Parser

variable {α β : Type} {ts : List Token} {d : Nat}

/-! ### The end of the line behind a row -/

/-- No token of the row ends a line. -/
def Endless (ts : List Token) : Prop :=
  ∀ t ∈ ts, t.isLast = false

theorem length_append_eof (ts : List Token) : (ts ++ [Token.eof]).length = ts.length + 1 :=
  List.length_append

/-- What a step may come to on a row of tokens, and on the row with the end of the line behind. -/
inductive Capped : (plain capped : EStateM.Result Failure (List Token) α) → Prop where
  | ok (a : α) {rest : List Token} (hrest : Endless rest) :
    Capped (.ok a rest) (.ok a (rest ++ [.eof]))
  | refused (fault : SyntaxFault) (left : Nat) (rest rest' : List Token) :
    Capped (.error (.refused fault left) rest) (.error (.refused fault (left + 1)) rest')
  /-- A token is missed at the end of the row. -/
  | missed (fault : SyntaxFault) (rest rest' : List Token) :
    Capped (.error (.refused .unexpectedEnd 0) rest) (.error (.refused fault 1) rest')
  | exhausted (rest rest' : List Token) :
    Capped (.error .exhausted rest) (.error .exhausted rest')

/-- A step comes to this on every row without an end of the line in it. -/
def Caps (step : Step α) : Prop :=
  ∀ ts, Endless ts → Capped (step.run ts) (step.run (ts ++ [.eof]))

theorem caps_pure (a : α) : Caps (pure a : Step α) :=
  fun _ hts ↦ .ok a hts

theorem caps_refuseNext (fault : SyntaxFault) : Caps (refuseNext fault : Step α) := by
  intro ts _
  have hcapped : (refuseNext fault : Step α).run (ts ++ [.eof]) =
      .error (.refused fault (ts.length + 1)) (ts ++ [.eof]) := by
    rw [← length_append_eof]
    rfl
  rw [hcapped]
  exact .refused fault ts.length ts _

/-- The token that is refused has one more token behind it. -/
theorem caps_refuseLast (fault : SyntaxFault) : Caps (refuseLast fault : Step α) := by
  intro ts _
  have hcapped : (refuseLast fault : Step α).run (ts ++ [.eof]) =
      .error (.refused fault (ts.length + 1 + 1)) (ts ++ [.eof]) := by
    rw [← length_append_eof]
    rfl
  rw [hcapped]
  exact .refused fault (ts.length + 1) ts _

/-- A row of steps is capped if each of them is. -/
theorem Caps.bind {step : Step α} {f : α → Step β} (h : Caps step) (hf : ∀ a, Caps (f a)) :
    Caps (step >>= f) := by
  intro ts hts
  have hstep := h ts hts
  rw [EStateM.run_bind, EStateM.run_bind]
  generalize step.run ts = plain at hstep ⊢
  generalize step.run (ts ++ [.eof]) = capped at hstep ⊢
  cases hstep with
  | ok a hrest => exact hf a _ hrest
  | refused fault left rest rest' => exact .refused fault left rest rest'
  | missed fault rest rest' => exact .missed fault rest rest'
  | exhausted rest rest' => exact .exhausted rest rest'

/-- A step that consumes a token has to refuse the end of the line. -/
theorem caps_advance_bind {f : Token → Step α} (hf : ∀ t, t.isLast = false → Caps (f t))
    (heof : ∃ fault, f .eof = refuseLast fault) : Caps (advance .closed >>= f) := by
  intro ts hts
  cases ts with
  | nil =>
    obtain ⟨fault, hfault⟩ := heof
    rw [List.nil_append, run_bind_ok (run_advance_eq_ok_iff.2 rfl), hfault]
    exact .missed fault [] []
  | cons t ts =>
    obtain ⟨ht, hts⟩ := List.forall_mem_cons.1 hts
    rw [List.cons_append, run_bind_ok (run_advance_eq_ok_iff.2 rfl),
      run_bind_ok (run_advance_eq_ok_iff.2 rfl)]
    exact hf t ht ts hts

/-! ### The steps of the parser -/

/-- Behind a sign the end of the line is refused, as it is no number. -/
theorem caps_signed (sign : Token) : Caps (signed .closed sign) := by
  refine caps_advance_bind (fun t _ ↦ ?_) ⟨_, rfl⟩
  cases t with
  | number x => exact caps_pure _
  | _ => exact caps_refuseLast _

/-- So it is where a word is expected. -/
theorem caps_expect {wanted : Kind} (hwanted : wanted ≠ .eof) : Caps (expect .closed wanted) := by
  refine caps_advance_bind (fun t _ ↦ ?_) ⟨_, if_neg hwanted.symm⟩
  dsimp only
  split
  · exact caps_pure _
  · exact caps_refuseLast _

/-- A conditional is capped if its places are. -/
theorem caps_conditional {body : Step Expr} (h : Caps body) : Caps (conditional .closed body) := by
  refine h.bind fun left ↦ caps_advance_bind (fun t _ ↦ ?_) ⟨_, if_neg Bool.false_ne_true⟩
  dsimp only
  split
  · refine h.bind fun right ↦ (caps_expect (by decide)).bind fun _ ↦ h.bind fun whenTrue ↦ ?_
    exact (caps_expect (by decide)).bind fun _ ↦ h.bind fun whenFalse ↦ caps_pure _
  · exact caps_refuseLast _

/-- The search for a closing parenthesis finds the same, or comes to the end in both rows. -/
theorem findClosing_append_eof (hts : Endless ts) (depth : Nat) :
    (∃ inner after, findClosing depth ts = .found inner after ∧
      findClosing depth (ts ++ [.eof]) = .found inner (after ++ [.eof])) ∨
    (findClosing depth ts = .windowEnd ∧ findClosing depth (ts ++ [.eof]) = .lineEnd) := by
  induction ts generalizing depth with
  | nil => exact .inr ⟨rfl, rfl⟩
  | cons t ts ih =>
    obtain ⟨ht, hts⟩ := List.forall_mem_cons.1 hts
    have hcons (depth : Nat) :
        (∃ inner after, (findClosing depth ts).cons t = .found inner after ∧
          (findClosing depth (ts ++ [.eof])).cons t = .found inner (after ++ [.eof])) ∨
        ((findClosing depth ts).cons t = .windowEnd ∧
          (findClosing depth (ts ++ [.eof])).cons t = .lineEnd) := by
      rcases ih hts depth with ⟨inner, after, hplain, hcapped⟩ | ⟨hplain, hcapped⟩
      · exact .inl ⟨t :: inner, after, by rw [hplain]; rfl, by rw [hcapped]; rfl⟩
      · exact .inr ⟨by rw [hplain]; rfl, by rw [hcapped]; rfl⟩
    by_cases hl : t = .lparen
    · subst hl
      exact hcons (depth + 1)
    by_cases hr : t = .rparen
    · subst hr
      rcases depth with - | depth
      · exact .inl ⟨[], ts, rfl, rfl⟩
      · exact hcons depth
    · rw [List.cons_append, findClosing_other hl hr ht, findClosing_other hl hr ht]
      exact hcons depth

/-- What is inside of a group is the same in both rows. -/
theorem caps_group {body : Step Expr} (h : Orderly 0 body) : Caps (group .closed body) := by
  intro ts hts
  rw [run_group, run_group]
  rcases findClosing_append_eof hts 0 with ⟨inner, after, hplain, hcapped⟩ | ⟨hplain, hcapped⟩
  · rw [hplain, hcapped]
    obtain ⟨rfl, -⟩ := split_of_findClosing hplain
    have hafter : Endless after := fun t ht ↦ hts t (by simp [ht])
    have hbody := h inner
    dsimp only
    generalize body.run inner = result at hbody ⊢
    cases hbody with
    | ok e => exact .ok _ hafter
    | @refused fault left =>
      simp only [Failure.widen, length_append_eof]
      exact .refused fault (left + (after.length + 1)) _ _
    | exhausted => exact .exhausted _ _
  · rw [hplain, hcapped]
    exact caps_refuseLast _ ts hts

/-- The whole is, too: the end of the line is no stray parenthesis. -/
theorem caps_whole {body : Step Expr} (h : Caps body) : Caps (whole .closed body) := by
  refine h.bind fun e ts hts ↦ ?_
  rw [run_bind_ok (run_peek ts), run_bind_ok (run_peek _)]
  cases ts with
  | nil => exact .ok e hts
  | cons t ts =>
    cases t with
    | rparen => exact caps_refuseNext .unmatchedClosing _ hts
    | _ => exact .ok e hts

/-! ### The recursion -/

/-- The three steps of the recursion. A binding power that is asked for is never below zero, so that
the end of the line does not go on with an expression. -/
structure CapsAt (d : Nat) : Prop where
  primary : Caps (primary d .closed)
  expr : ∀ power ≥ 0, Caps (expr d .closed power)
  climb : ∀ power ≥ 0, ∀ left, Caps (climb d .closed power left)

/-- A primary expression is capped if the expressions inside are. -/
theorem CapsAt.primary_succ (h : CapsAt d) : Caps (Parser.primary (d + 1) .closed) := by
  rw [Parser.primary]
  refine caps_advance_bind (fun t _ ↦ ?_) ⟨_, rfl⟩
  cases t with
  | identifier | number => exact caps_pure _
  | plus | minus => exact caps_signed _
  | lparen => exact caps_group (orderly_whole ((orderly d).expr 0).weaken)
  | ifWord => exact caps_conditional h.primary
  | _ => exact caps_refuseLast _

/-- The climb halts before the end of the line, since its power is not below zero. -/
theorem CapsAt.climb_succ (h : CapsAt d) {power : Int} (hpower : power ≥ 0) (left : Expr) :
    Caps (Parser.climb (d + 1) .closed power left) := by
  intro ts hts
  rw [Parser.climb, run_bind_ok (run_peek ts), run_bind_ok (run_peek _)]
  cases ts with
  | nil =>
    simp only [List.nil_append, List.head?_nil, List.head?_cons]
    rw [if_pos (show ((Token.eof.bindingPower : Nat) : Int) ≤ power from hpower)]
    exact .ok left hts
  | cons t ts =>
    have ht : t ≠ .illegal := by
      rintro rfl
      cases hts _ List.mem_cons_self
    simp only [List.cons_append, List.head?_cons]
    split
    · exact .ok left hts
    · refine caps_advance_bind (fun t _ ↦ ?_) ⟨_, if_neg (by decide)⟩ (t :: ts) hts
      split
      · exact (h.expr _ (Int.natCast_nonneg _)).bind fun right ↦ h.climb power hpower _
      · exact caps_refuseLast _

/-- **The end of the line makes no difference to the parser**, but for the wording of what it
misses. -/
theorem capsAt (d : Nat) : CapsAt d := by
  induction d with
  | zero =>
    exact ⟨fun ts _ ↦ .exhausted _ _, fun _ _ ts _ ↦ .exhausted _ _,
      fun _ _ _ ts _ ↦ .exhausted _ _⟩
  | succ d ih =>
    refine ⟨ih.primary_succ, fun power hpower ↦ ?_, fun power hpower ↦ ih.climb_succ hpower⟩
    rw [Parser.expr]
    exact ih.primary.bind fun left ↦ ih.climb power hpower left

/-! ### Rows and lines -/

/-- Reading a row in parentheses comes down to reading the row. -/
theorem run_whole_wrapped (hts : Settled ts) (d : Nat) :
    (whole .closed (expr (d + 2) .closed 0)).run (.lparen :: ts ++ [.rparen, .eof]) =
      match (whole .closed (expr d .closed 0)).run ts with
      | .ok e _ => .ok (.group e) [.eof]
      | .error failure _ => .error (failure.widen 2) (ts ++ [.rparen, .eof]) := by
  have hfound : findClosing 0 (ts ++ [.rparen, .eof]) = .found ts [.eof] :=
    findClosing_append (closes_zero_iff.2 hts.balanced) hts.isLast_eq_false [.eof]
  have hprimary : (primary (d + 1) .closed).run (.lparen :: ts ++ [.rparen, .eof]) =
      match (whole .closed (expr d .closed 0)).run ts with
      | .ok e _ => .ok (.group e) [.eof]
      | .error failure _ => .error (failure.widen 2) (ts ++ [.rparen, .eof]) := by
    rw [primary, List.cons_append, run_bind_ok (run_advance_eq_ok_iff.2 rfl)]
    dsimp only
    rw [run_group, hfound]
    rfl
  rw [whole, expr]
  rcases hrun : (whole .closed (expr d .closed 0)).run ts with ⟨e, rest⟩ | ⟨failure, rest⟩
  · rw [hrun] at hprimary
    rw [EStateM.run_bind, run_bind_ok hprimary]
    rfl
  · rw [hrun] at hprimary
    rw [EStateM.run_bind, run_bind_error hprimary]

/-- What reading a list of `n` tokens as a whole says about the list. -/
def verdict (n : Nat) : EStateM.Result Failure (List Token) Expr → Except ParseError Expr
  | .ok e _ => .ok e
  | .error (.refused fault left) _ => .error (.syntaxError ⟨fault, n - left⟩)
  | .error .beyond _ | .error .exhausted _ => .error .beyondTokens

/-- A list may be read with any depth from the bound on. -/
theorem parse_eq_verdict (hd : depthBound ts.length ≤ d) :
    Reckoner.parse ts = verdict ts.length ((whole .closed (expr d .closed 0)).run ts) := by
  rw [parse_eq_conclude, run_whole_of_le hd]
  have hindex (left : Nat) : (ofTokens ts).indexOf left = ts.length - left := by
    rw [(inside_ofTokens ts).indexOf_eq]
    rfl
  generalize (whole .closed (expr (depthBound ts.length) .closed 0)).run ts = result
  rcases result with ⟨e, rest⟩ | ⟨⟨fault, left⟩ | - | -, rest⟩
  · rfl
  · rw [place, halt, hindex]
    rfl
  · rfl
  · rfl

end Parser

variable {ts : List Token}

/-- What the parser says of a row, and of the line that consists of it. -/
theorem parse_append_eof (hts : Parser.Endless ts) :
    (∃ e, parse ts = .ok e ∧ parse (ts ++ [.eof]) = .ok e) ∨
    ∃ fault fault' index, parse ts = .error (.syntaxError ⟨fault, index⟩) ∧
      parse (ts ++ [.eof]) = .error (.syntaxError ⟨fault', index⟩) ∧
      (fault = fault' ∨ index = ts.length ∧ fault = .unexpectedEnd) := by
  have hlength := Parser.length_append_eof ts
  have hplain : Parser.depthBound ts.length ≤ Parser.depthBound (ts.length + 1) := by
    simp only [Parser.depthBound]
    omega
  have hline :
      Parser.depthBound (ts ++ [Token.eof]).length ≤ Parser.depthBound (ts.length + 1) := by
    rw [hlength]
  have hbehaved := Parser.behaved_whole hplain
  have hexpr := (Parser.capsAt (Parser.depthBound (ts.length + 1))).expr 0 (Int.le_refl 0)
  have hcapped := Parser.caps_whole hexpr ts hts
  rw [Parser.parse_eq_verdict hplain, Parser.parse_eq_verdict hline, hlength]
  generalize (Parser.whole .closed (Parser.expr (Parser.depthBound (ts.length + 1)) .closed 0)).run
    ts = plain at hcapped hbehaved ⊢
  generalize (Parser.whole .closed (Parser.expr (Parser.depthBound (ts.length + 1)) .closed 0)).run
    (ts ++ [.eof]) = capped at hcapped ⊢
  cases hcapped with
  | ok e => exact .inl ⟨e, rfl, rfl⟩
  | refused fault left =>
    refine .inr ⟨fault, fault, ts.length - left, rfl, ?_, .inl rfl⟩
    simp only [Parser.verdict, Int.natCast_add, Int.add_sub_add_right]
  | missed fault =>
    refine .inr ⟨.unexpectedEnd, fault, ts.length, ?_, ?_, .inr ⟨rfl, rfl⟩⟩
    · simp only [Parser.verdict, Int.natCast_zero, Int.sub_zero]
    · simp only [Parser.verdict, Int.natCast_add, Int.natCast_one, Int.add_sub_cancel]
  | exhausted => cases hbehaved

/-- **A settled row in parentheses is read as a group**, and what is refused in it is one token
further on. -/
theorem parse_group (hts : Settled ts) :
    parse (.lparen :: ts ++ [.rparen, .eof]) =
      ((parse ts).map .group).mapError (ParseError.shift 1) := by
  have hplain : Parser.depthBound ts.length ≤ 2 * ts.length + 6 := by
    rw [Parser.depthBound]
    omega
  have hlength : (.lparen :: ts ++ [.rparen, .eof] : List Token).length = ts.length + 3 := by simp
  have hwrapped : Parser.depthBound (.lparen :: ts ++ [.rparen, .eof] : List Token).length ≤
      2 * ts.length + 6 + 2 := by
    rw [hlength, Parser.depthBound]
    omega
  rw [Parser.parse_eq_verdict hplain, Parser.parse_eq_verdict hwrapped,
    Parser.run_whole_wrapped hts, hlength]
  generalize (Parser.whole .closed (Parser.expr (2 * ts.length + 6) .closed 0)).run ts = result
  rcases result with ⟨e, rest⟩ | ⟨⟨fault, left⟩ | - | -, rest⟩
  · rfl
  · have hindex : ((ts.length + 3 : Nat) : Int) - (left + 2 : Nat) =
        (1 : Nat) + ((ts.length : Int) - left) := by omega
    simp only [Parser.Failure.widen, Parser.verdict, hindex]
    rfl
  · rfl
  · rfl

/-! ### Lines in parentheses -/

theorem Token.divides_rparen : Divides ')' :=
  ⟨by decide +kernel, by decide +kernel, by decide⟩

/-- The tokens of a line in parentheses. -/
theorem tokenize_wrapped {line : String} (h : tokenize line = ts ++ [.eof]) :
    tokenize ("(" ++ line ++ ")") = .lparen :: ts ++ [.rparen, .eof] := by
  have hlexeme : Token.Lexeme ['('] (line.toList ++ [')']) .lparen :=
    .symbol (by decide) (by decide +kernel) (by decide +kernel) fun h ↦ absurd h (by decide)
  have hgap : ∀ c ∈ ([] : List Char), Token.isLayout c = true := by simp
  have hscan := Token.scan_of_lexeme hgap hlexeme
  have hclosing : (Token.scanAll [')']).1 = [.rparen, .eof] := by decide +kernel
  have hread : (Token.scanAll (line.toList ++ [')'])).1 = ts ++ [.rparen, .eof] := by
    obtain ⟨front, ⟨hline, -⟩ | ⟨hline, hmore⟩⟩ :=
      tokenize_append_cons line Token.divides_rparen []
    · rw [h] at hline
      exact absurd (List.append_inj_right' hline rfl) (by decide)
    · rw [hmore, hclosing, List.append_inj_left' (h.symm.trans hline) rfl]
  rw [tokenize_eq_scanAll, String.toList_append, String.toList_append]
  show (Token.scanAll ([] ++ ['('] ++ (line.toList ++ [')']))).1 = _
  rw [Token.scanAll_of_not_isLast (by rw [hscan]; exact Bool.false_ne_true), hscan]
  simp only [hread]
  rfl

/-- The end of the line has no part in what is balanced. -/
theorem Balanced.of_append_eof (h : Balanced (ts ++ [.eof])) : Balanced ts := by
  obtain ⟨hall, htotal⟩ := h
  refine ⟨fun front hfront ↦ hall front (hfront.trans (List.prefix_append ts _)), ?_⟩
  simpa [List.count_append] using htotal

/-- A group means what is inside. -/
theorem evaluate_group (c : Settings) (unit : String) (e : Expr) (v : Variables) :
    evaluate c unit (.group e) v = evaluate c unit e v :=
  rfl

namespace Session

variable {s s' : Session} {ev : Nat} {line line' : String} {e : Expr} {why : ParseError}

/-- A line with a tree is answered by evaluating the tree. -/
theorem response_of_tree (s : Session) (ev : Nat) (h : parse (tokenize line) = .ok e) :
    s.response ev (.run line) =
      (Reckoner.evaluate (s.settings ev) (unitName (s.backendOf ev)) e (s.table ev)).outcome.map
        .ofResult id := by
  rw [response, Request.respond, h]

/-- A line without one is refused, and changes nothing. -/
theorem response_of_refused (s : Session) (ev : Nat) (h : parse (tokenize line) = .error why) :
    s.response ev (.run line) = (.failed (.parse (tokenize line) why), s.table ev) := by
  rw [response, Request.respond, h]

namespace Twins

variable (h : s.Twins (s.evaluator ev).table s')

include h

/-- Lines that leave the same contents in the table leave evaluators with the same contents. -/
theorem contents_run
    (hresponse :
      (s.response ev (.run line)).2.contents = (s'.response ev (.run line')).2.contents) :
    ((s'.run ev line').2.2.table ev).contents = ((s.run ev line).2.2.table ev).contents := by
  have hcontents := h.contents_next hresponse
  show ((s'.next ev (.run line')).tableAt ((s'.next ev (.run line')).evaluator ev).table).contents =
    ((s.next ev (.run line)).tableAt ((s.next ev (.run line)).evaluator ev).table).contents
  rw [evaluator_next, evaluator_next, ← h.evaluator_eq, hcontents]

/-- A tree and the group of it come to the same. -/
theorem run_group (hline : parse (tokenize line) = .ok e)
    (hline' : parse (tokenize line') = .ok (.group e)) :
    (s'.run ev line').1 = (s.run ev line).1 ∧
      ((s'.run ev line').2.2.table ev).contents = ((s.run ev line).2.2.table ev).contents := by
  have hreply : (s.run ev line).1 = (s.response ev (.run line)).1 :=
    (s.answers ev (.run line)).reply_eq
  have hreply' : (s'.run ev line').1 = (s'.response ev (.run line')).1 :=
    (s'.answers ev (.run line')).reply_eq
  obtain ⟨hresult, hcontents⟩ := Prod.mk.inj (outcome_alike (h.refusal_eq ev) (h.sound.table _)
    (h.sound'.table _) (h.contents_table rfl) (unitName (s.backendOf ev))
    (unitName (s'.backendOf ev)) e)
  refine ⟨?_, h.contents_run ?_⟩
  · rw [hreply, hreply', s.response_of_tree ev hline, s'.response_of_tree ev hline',
      evaluate_group]
    exact congrArg Reply.ofResult hresult.symm
  · rw [s.response_of_tree ev hline, s'.response_of_tree ev hline', evaluate_group]
    exact hcontents

end Twins

end Session

/-- **Putting a line in parentheses only puts its tree into a group.** The line is balanced and ends
with the end of the line, that is without a piece that is no token. Then either both texts have a
tree, and the one is the group of the other; or both are refused, and the position of the fault is
greater by one in the parentheses. The fault is the same one, unless it lies at the end: there the
text in parentheses just ends, while the other one may have an unwanted token in the end of the
line. So where both have a tree, they have the same value or the same runtime error, from tables of
the same contents in any two sessions; and the contents are the same afterwards. -/
theorem run_wrapped (line : String) (hline : (tokenize line).getLast? = some .eof)
    (hbalanced : Balanced (tokenize line)) :
    let wrapped := "(" ++ line ++ ")"
    ((∃ e, parse (tokenize line) = .ok e ∧ parse (tokenize wrapped) = .ok (.group e)) ∨
      ∃ fault fault' index, parse (tokenize line) = .error (.syntaxError ⟨fault, index⟩) ∧
        parse (tokenize wrapped) = .error (.syntaxError ⟨fault', index + 1⟩) ∧
        (fault' = fault ∨
          index + 1 = (tokenize line).length ∧ fault'.message = "Unexpected end of input")) ∧
    ∀ (s s' : Session) (ev : Nat), s.Twins (s.evaluator ev).table s' →
      ((∃ e, parse (tokenize line) = .ok e) → (s'.run ev wrapped).1 = (s.run ev line).1) ∧
      ((s'.run ev wrapped).2.2.table ev).contents = ((s.run ev line).2.2.table ev).contents := by
  intro wrapped
  obtain ⟨ts, hts⟩ := List.getLast?_eq_some_iff.1 hline
  have hendless : Parser.Endless ts := isLast_eq_false_of_tokenize hts
  have hsettled : Settled ts := ⟨(hts ▸ hbalanced).of_append_eof, hendless⟩
  have hwrapped : parse (tokenize wrapped) =
      ((parse ts).map .group).mapError (ParseError.shift 1) := by
    rw [tokenize_wrapped hts, parse_group hsettled]
  have hparse := parse_append_eof hendless
  rw [← hts] at hparse
  rcases hparse with ⟨e, hplain, hcapped⟩ | ⟨fault, fault', index, hplain, hcapped, hfault⟩
  · rw [hplain] at hwrapped
    refine ⟨.inl ⟨e, hcapped, hwrapped⟩, fun s s' ev h ↦ ?_⟩
    obtain ⟨hreply, hcontents⟩ := h.run_group hcapped hwrapped
    exact ⟨fun _ ↦ hreply, hcontents⟩
  · rw [hplain] at hwrapped
    have hrefused : parse (tokenize wrapped) = .error (.syntaxError ⟨fault, index + 1⟩) := by
      rw [hwrapped, Int.add_comm]
      rfl
    refine ⟨.inr ⟨fault', fault, index, hcapped, hrefused, hfault.imp id ?_⟩,
      fun s s' ev h ↦ ⟨?_, h.contents_run ?_⟩⟩
    · rintro ⟨rfl, rfl⟩
      exact ⟨by rw [hts, List.length_append]; rfl, rfl⟩
    · rintro ⟨e, hok⟩
      cases hcapped.symm.trans hok
    · rw [s.response_of_refused ev hcapped, s'.response_of_refused ev hrefused]
      exact h.contents_table rfl

/-- What follows the assignment is ignored with and without the parentheses. The sign at the end of
the second line has no number behind it: there is the end of the line, or nothing at all. -/
theorem run_wrapped_sign :
    let s := Session.single .interpreter .nowhere false
    ((tokenize "x = (2) 3").getLast? = some .eof ∧ Balanced (tokenize "x = (2) 3")) ∧
      ((tokenize "x - -").getLast? = some .eof ∧ Balanced (tokenize "x - -")) ∧
      (s.run 0 "(x = (2) 3)").1 = .result 2.0 ∧
      ((s.run 0 "(x = (2) 3)").2.2.table 0).contents = [("x", 2.0)] ∧
      parse (tokenize "x - -") = .error (.syntaxError ⟨.signWithoutNumber .minus, 3⟩) ∧
      parse (tokenize "(x - -)") = .error (.syntaxError ⟨.unexpectedEnd, 4⟩) ∧
      (4 : Int) = (tokenize "x - -").length := by
  intro s
  have hassign : (tokenize "x = (2) 3").getLast? = some .eof ∧ Balanced (tokenize "x = (2) 3") := by
    decide +kernel
  have hsign : (tokenize "x - -").getLast? = some .eof ∧ Balanced (tokenize "x - -") := by
    decide +kernel
  have hreply : (s.run 0 "x = (2) 3").1 = .result 2.0 := by decide +kernel
  have hcontents : ((s.run 0 "x = (2) 3").2.2.table 0).contents = [("x", 2.0)] := by decide +kernel
  have htwins : s.Twins (s.evaluator 0).table s :=
    .refl _ (Session.sound_start [.interpreter] [⟨0, 0, .nowhere⟩] false)
  have hparse : parse (tokenize "x - -") =
      .error (.syntaxError ⟨.signWithoutNumber .minus, 3⟩) := by decide +kernel
  have hparse' : parse (tokenize "(x - -)") = .error (.syntaxError ⟨.unexpectedEnd, 4⟩) := by
    decide +kernel
  have htree : parse (tokenize "x = (2) 3") =
      .ok (.binary .assign (.name "x") (.group (.number 2.0))) := by decide +kernel
  obtain ⟨hsame, htable⟩ := (run_wrapped "x = (2) 3" hassign.1 hassign.2).2 s s 0 htwins
  refine ⟨hassign, hsign, (hsame ⟨_, htree⟩).trans hreply, htable.trans hcontents, hparse,
    hparse', ?_⟩
  -- the faults differ, so they lie at the end
  rcases (run_wrapped "x - -" hsign.1 hsign.2).1 with ⟨e, hok, -⟩ |
    ⟨fault, fault', index, hleft, hright, hfault⟩
  · cases hparse.symm.trans hok
  · cases hparse.symm.trans hleft
    cases hparse'.symm.trans hright
    exact (hfault.resolve_left (by decide)).1

end Reckoner
