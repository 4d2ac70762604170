import Reckoner.Proofs.Depth
import Reckoner.Proofs.Refusals

/-!
# Calls on one parser

A parser may be asked more than once, for an expression of any binding power or for all that is left
of its window, and it may be asked on after it has failed. As long as its window lies in the list
(`Parser.Inside`), nothing goes wrong with its position: a call moves it forward, within the window,
and what it refuses lies in the window, too (`Parser.Inside.answered`). The position may count from
the end of the list, as long as it is not before its start.

What a call comes to follows from what its step does on the window (`Parser.Orderly`), and from the
step never being given up (`Parser.Behaves`).
-/

namespace Reckoner

namespace Parser

variable {p : Parser}

/-! ### Calls -/

/-- What a parser may be asked for. -/
inductive Call where
  /-- An expression that takes up the window, but for what may be ignored behind it. -/
  | parse
  /-- An expression whose operators bind tighter than `power`. -/
  | expr (power : Int)

/-- What a parser does when it is asked. -/
def ask (p : Parser) : Call → Except ParseError Expr × Parser
  | .parse => p.parse
  | .expr power => p.parseExpr power

/-- The parser behind a row of calls. -/
def after (p : Parser) (calls : List Call) : Parser :=
  calls.foldl (fun p c ↦ (p.ask c).2) p

/-- The walk that answers a call, with a recursion of the given depth. -/
def Call.walk (depth : Nat) : Call → Walk Expr
  | parse => Walk.whole (Walk.expr depth 0)
  | expr power => Walk.expr depth power

/-- The step on the window that answers a call, with a recursion of the given depth. -/
def Call.step (depth : Nat) (edge : Edge) : Call → Step Expr
  | parse => whole edge (Parser.expr depth edge 0)
  | expr power => Parser.expr depth edge power

/-- The walk of a call follows its step. -/
theorem Call.follows (c : Call) (depth : Nat) :
    Follows (c.walk depth) fun edge ↦ c.step depth edge := by
  cases c with
  | parse => exact ((followsAt depth).expr 0).whole
  | expr power => exact (followsAt depth).expr power

/-- A call is answered by its step on the window. -/
theorem ask_eq_perform (p : Parser) (c : Call) :
    p.ask c = p.perform (c.step (depthBound p.span) p.edge) := by
  cases c with
  | parse => exact p.parse_eq_perform
  | expr power => exact p.parseExpr_eq_perform power

/-- The recursion of a call ends of itself: from some depth on it comes to the same at all depths,
and is not given up. -/
def Terminates (p : Parser) (c : Call) : Prop :=
  ∃ result, (∀ q, result ≠ .error .exhausted q) ∧
    ∀ depth ≥ depthBound p.span, (c.walk depth).run p = result

section Step

variable {ts : List Token} {d : Nat}

theorem Call.orderly_step (c : Call) (d : Nat) : Orderly 1 (c.step d .closed) := by
  cases c with
  | parse => exact orderly_whole ((orderly d).expr 0)
  | expr power => exact (orderly d).expr power

/-- At a depth that is enough for its window, a call behaves. -/
theorem Call.behaved_step (c : Call) (hd : depthBound ts.length ≤ d) :
    Behaved ts 0 ((c.step d .closed).run ts) := by
  cases c with
  | parse => exact behaved_whole hd
  | expr power => exact (sufficient d).expr ts.length power hd ts (Nat.le_refl _)

theorem Call.run_step_of_le (c : Call) (hd : depthBound ts.length ≤ d) :
    (c.step d .closed).run ts = (c.step (depthBound ts.length) .closed).run ts := by
  cases c with
  | parse => exact run_whole_of_le hd
  | expr power => exact run_expr_of_le hd power

end Step

/-! ### Windows that lie in the list -/

/-- The window of the parser lies in its list. Its position may count from the end of the list. -/
structure Inside (p : Parser) : Prop where
  start_le : -(p.tokens.length : Int) ≤ p.position
  le_stop : p.position ≤ p.stop
  stop_le : p.stop ≤ p.tokens.length

theorem inside_ofTokens (ts : List Token) : (ofTokens ts).Inside :=
  ⟨by simp only [ofTokens]; omega, by simp only [ofTokens]; omega, Int.le_refl _⟩

namespace Inside

/-- The window of a parser inside its list is all that lies before the stop. -/
theorem length_window (h : p.Inside) : (p.window.length : Int) = p.stop - p.position := by
  obtain ⟨hstart, hle, hstop⟩ := h
  have hlength : p.span ≤ (Position.onward p.tokens p.position).length := by
    rw [Position.onward, span]
    split
    · rw [List.length_drop]
      omega
    · rw [if_pos (by omega), List.length_append, List.length_drop]
      omega
  rw [window, List.length_take, Nat.min_eq_left hlength, span]
  omega

/-- All positions of the window can be read. -/
theorem span_eq (h : p.Inside) : p.span = p.window.length := by
  have hlength := h.length_window
  rw [span]
  omega

theorem edge_eq (h : p.Inside) : p.edge = .closed := by
  rw [edge, h.span_eq, if_neg (Nat.lt_irrefl _)]

/-- There positions count back from the stop. -/
theorem indexOf_eq (h : p.Inside) (left : Nat) : p.indexOf left = p.stop - left := by
  rw [indexOf, h.length_window]
  omega

/-- No call is given up. -/
theorem terminates (h : p.Inside) (c : Call) : p.Terminates c := by
  have hbehaved := c.behaved_step (Nat.le_refl (depthBound p.window.length))
  refine ⟨p.place ((c.step (depthBound p.window.length) .closed).run p.window),
    hbehaved.place_ne p, fun depth hdepth ↦ ?_⟩
  rw [h.span_eq] at hdepth
  rw [(c.follows depth).run_eq, h.edge_eq, c.run_step_of_le hdepth]

end Inside

/-! ### What a call comes to -/

/-- What a call may come to. It moves the position and nothing else: past a token at least, if there
is an answer. A fault has a place in the window, and an index that gives its place in the list. If
the window ends with the line, the place is not behind all tokens. -/
inductive Answered (p : Parser) : Except ParseError Expr × Parser → Prop where
  | ok (e : Expr) {next : Int} (hlt : p.position < next) (hle : next ≤ p.stop) :
    Answered p (.ok e, { p with position := next })
  | refused {fault : SyntaxFault} {next : Int} (hnext : p.position ≤ next ∧ next ≤ p.stop)
    {front back : List Token} (hsplit : p.window = front ++ back) (hlies : LiesAt fault front back)
    (hsealed : Sealed p.window → back ≠ []) :
    Answered p (.error (.syntaxError ⟨fault, p.position + front.length⟩),
      { p with position := next })

/-- **A call on a parser whose window lies in the list.** -/
theorem Inside.answered (h : p.Inside) (c : Call) : Answered p (p.ask c) := by
  have hlength := h.length_window
  have hcomes := c.orderly_step (depthBound p.window.length) p.window
  have hbehaved := c.behaved_step (Nat.le_refl (depthBound p.window.length))
  rw [ask_eq_perform, perform, h.edge_eq, h.span_eq]
  generalize (c.step (depthBound p.window.length) .closed).run p.window = result
    at hcomes hbehaved ⊢
  cases hcomes with
  | @ok e row rest hsplit _ hleast =>
    have hrest : rest.length < p.window.length := by
      rw [hsplit, List.length_append]
      omega
    have hnext := h.indexOf_eq rest.length
    exact .ok e (by omega) (by omega)
  | @refused fault left front back rest hsplit hleft hlies hrest =>
    have hrest := hrest.length_le
    have hnext := h.indexOf_eq rest.length
    have hindex : p.indexOf left = p.position + front.length := by
      rw [h.indexOf_eq]
      rw [hsplit, List.length_append] at hlength
      omega
    rw [place, halt, hindex]
    refine .refused (by omega) hsplit hlies fun hsealed hback ↦ ?_
    cases hbehaved with
    | refused _ _ _ hpos =>
      have hpos := hpos hsealed
      rw [hback, List.length_nil] at hleft
      omega
  | exhausted => cases hbehaved

/-- A refused window has a place for the fault. -/
theorem Inside.exists_of_refused (h : p.Inside) {error : SyntaxError}
    (hparse : p.parse.1 = .error (.syntaxError error)) :
    ∃ front back, p.window = front ++ back ∧ error.index = p.position + front.length ∧
      LiesAt error.fault front back := by
  have hanswered := h.answered .parse
  have hask : (p.ask .parse).1 = .error (.syntaxError error) := hparse
  generalize p.ask .parse = answer at hanswered hask
  cases hanswered with
  | ok => cases hask
  | @refused fault next hnext front back hsplit hlies hsealed =>
    cases hask
    exact ⟨front, back, hsplit, rfl, hlies⟩

/-- Calls move the position of a parser, and nothing else. -/
theorem Inside.exists_after (h : p.Inside) (calls : List Call) :
    ∃ position, p.after calls = { p with position } ∧ p.position ≤ position ∧
      position ≤ p.stop := by
  induction calls generalizing p with
  | nil => exact ⟨p.position, rfl, Int.le_refl _, h.le_stop⟩
  | cons c calls ih =>
    have hstep : ∃ next, (p.ask c).2 = { p with position := next } ∧ p.position ≤ next ∧
        next ≤ p.stop := by
      have hanswered := h.answered c
      generalize p.ask c = answer at hanswered ⊢
      cases hanswered with
      | ok e hlt hle => exact ⟨_, rfl, Int.le_of_lt hlt, hle⟩
      | refused hnext => exact ⟨_, rfl, hnext⟩
    obtain ⟨next, hnext, hle, hstop⟩ := hstep
    have hinside : Inside { p with position := next } :=
      ⟨Int.le_trans h.start_le hle, hstop, h.stop_le⟩
    obtain ⟨position, hafter, hle', hstop'⟩ := ih hinside
    refine ⟨position, ?_, Int.le_trans hle hle', hstop'⟩
    rw [after, List.foldl_cons, hnext]
    exact hafter

/-- The parser behind a row of calls has its window in the list. -/
theorem Inside.after (h : p.Inside) (calls : List Call) : (p.after calls).Inside := by
  obtain ⟨position, hafter, hle, hstop⟩ := h.exists_after calls
  rw [hafter]
  exact ⟨Int.le_trans h.start_le hle, hstop, h.stop_le⟩

end Parser

/-- A refused list has a place for the fault. -/
theorem exists_of_parse_refused {ts : List Token} {error : SyntaxError}
    (h : parse ts = .error (.syntaxError error)) :
    ∃ front back, ts = front ++ back ∧ error.index = front.length ∧
      LiesAt error.fault front back := by
  obtain ⟨front, back, hsplit, hindex, hlies⟩ := (Parser.inside_ofTokens ts).exists_of_refused h
  rw [Parser.window_ofTokens] at hsplit
  exact ⟨front, back, hsplit, hindex.trans (Int.zero_add _), hlies⟩

/-- **Every call on a parser is safe**, behind every row of calls that have succeeded or failed. The
parser has a window in its list, with a position that may count from the end of the list. A call
ends of itself and asks for no token beyond the list. It moves the position forward within the
window, by a token at least if it succeeds; what it refuses lies in the window as well, and at the
end of the window it refuses only the end. A line that is read from its start is refused at one of
its tokens. -/
theorem ask_safe (ts : List Token) (start stop : Int) (hstart : -(ts.length : Int) ≤ start)
    (hle : start ≤ stop) (hstop : stop ≤ ts.length) (calls : List Parser.Call) (c : Parser.Call) :
    let p := (Parser.mk ts start stop).after calls
    ∃ position next, p = ⟨ts, position, stop⟩ ∧ (p.ask c).2 = ⟨ts, next, stop⟩ ∧
      start ≤ position ∧ position ≤ next ∧ next ≤ stop ∧ p.Terminates c ∧
      ((∃ e, (p.ask c).1 = .ok e ∧ position + 1 ≤ next) ∨
        ∃ fault index, (p.ask c).1 = .error (.syntaxError ⟨fault, index⟩) ∧
          start ≤ index ∧ index ≤ stop ∧
          (index = stop → fault.message = "Unexpected end of input") ∧
          ∀ line, ts = tokenize line → position = 0 → stop = ts.length → index < ts.length) := by
  intro p
  have hinside : (Parser.mk ts start stop).Inside := ⟨hstart, hle, hstop⟩
  obtain ⟨position, hafter, hposition, -⟩ := hinside.exists_after calls
  have hp : p.Inside := hinside.after calls
  have hanswered := hp.answered c
  have hterminates := hp.terminates c
  have hlength := hp.length_window
  rw [show p = ⟨ts, position, stop⟩ from hafter] at hanswered hterminates hlength ⊢
  generalize Parser.ask ⟨ts, position, stop⟩ c = answer at hanswered ⊢
  cases hanswered with
  | @ok e next hlt hnext =>
    exact ⟨position, next, rfl, rfl, hposition, Int.le_of_lt hlt, hnext, hterminates,
      .inl ⟨e, rfl, hlt⟩⟩
  | @refused fault next hnext front back hsplit hlies hsealed =>
    rw [hsplit, List.length_append] at hlength
    simp only at hlength hnext hposition
    refine ⟨position, next, rfl, rfl, hposition, hnext.1, hnext.2, hterminates, .inr ?_⟩
    refine ⟨fault, position + front.length, rfl, by omega, by omega, fun hlast ↦ ?_, ?_⟩
    · rw [hlies.atEnd (List.length_eq_zero_iff.1 (by omega))]
      rfl
    · rintro line rfl rfl rfl
      -- from its start on, the window is the whole line, which is sealed
      have hwindow : (Parser.mk (tokenize line) 0 (tokenize line).length).window = tokenize line :=
        Parser.window_ofTokens (tokenize line)
      have hback := List.length_pos_iff.2 (hsealed (by rw [hwindow]; exact sealed_tokenize line))
      omega

/-- Two calls are refused at the parenthesis that closes nothing; the second of them passes over it,
so that a third one finds the window used up. -/
theorem ask_safe_again :
    let ts : List Token :=
      [.identifier "a", .lparen, .identifier "b", .rparen, .rparen, .thenWord]
    let p := (Parser.mk ts 1 5).after [.parse, .expr (-1)]
    (1 : Int) ≤ 5 ∧ -(ts.length : Int) ≤ 1 ∧ (5 : Int) ≤ ts.length ∧ p = ⟨ts, 5, 5⟩ ∧
      (p.ask .parse).1 = .error (.syntaxError ⟨.unexpectedEnd, 5⟩) ∧ p.Terminates .parse ∧
      (p.ask .parse).2 = p := by
  intro ts p
  have hstart : -(ts.length : Int) ≤ 1 := by decide
  have hstop : (5 : Int) ≤ ts.length := by decide
  have hp : p = ⟨ts, 5, 5⟩ := by rfl
  obtain ⟨position, next, hposition, hnext, -, hle, hnext_le, hterminates, -⟩ :=
    ask_safe ts 1 5 hstart (by decide) hstop [.parse, .expr (-1)] .parse
  have hposition : position = 5 := congrArg Parser.position (hposition.symm.trans hp)
  refine ⟨by decide, hstart, hstop, hp, ?_, hterminates, hnext.trans ?_⟩
  · rw [hp]
    rfl
  · rw [hp, show next = 5 by omega]

end Reckoner
