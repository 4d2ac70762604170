import Reckoner.Proofs.Calls
import Reckoner.Proofs.Columns

/-!
# The caret of a report

A report has three lines: the message, the printed line, and a caret (`SyntaxError.splitOn_report`).
The caret stands behind the tokens before the one that is refused, and behind one space more. But no
space is printed behind an opening parenthesis and before a closing one, so that there the caret is
one column too far to the right (`caretColumn_append`).
-/

namespace Reckoner

/-! ### The lines of a report -/

theorem Kind.newline_notMem_label (k : Kind) : '\n' ∉ k.label.toList := by
  cases k <;> decide

/-- A message is one line, as the sign that it may quote is one. -/
theorem SyntaxFault.newline_notMem_message {fault : SyntaxFault}
    (hsign : ∀ t, fault = .signWithoutNumber t → t = .plus ∨ t = .minus) :
    '\n' ∉ fault.message.toList := by
  have happend {s t : String} (hs : '\n' ∉ s.toList) (ht : '\n' ∉ t.toList) :
      '\n' ∉ (s ++ t).toList := by
    rw [String.toList_append, List.mem_append, not_or]
    exact ⟨hs, ht⟩
  cases fault with
  | unsupported | unexpectedEnd | unmatchedOpening | unmatchedClosing => decide +kernel
  | unexpectedToken found => exact happend (by decide) found.newline_notMem_label
  | signWithoutNumber t => rcases hsign t rfl with rfl | rfl <;> decide +kernel
  | expectedComparison found => exact happend (by decide) found.newline_notMem_label
  | expectedWord wanted found =>
    have hwanted := happend (show '\n' ∉ "Expected ".toList by decide) wanted.newline_notMem_label
    exact happend (happend hwanted (by decide)) found.newline_notMem_label

theorem Token.mem_spacedBy {ts : List Token} {c : Char} (h : c ∈ spacedBy gapBetween ts) :
    c = ' ' ∨ ∃ t ∈ ts, c ∈ t.lexeme.toList := by
  induction ts with
  | nil => cases h
  | cons t ts ih =>
    match ts with
    | [] => exact .inr ⟨t, List.mem_cons_self, h⟩
    | u :: ts =>
      rw [spacedBy, List.mem_append, List.mem_append] at h
      rcases h with (hlexeme | hgap) | hlater
      · exact .inr ⟨t, List.mem_cons_self, hlexeme⟩
      · rw [gapBetween] at hgap
        split at hgap
        · cases hgap
        · exact .inl (List.mem_singleton.1 hgap)
      · refine (ih hlater).imp_right ?_
        rintro ⟨later, hmem, hc⟩
        exact ⟨later, List.mem_cons_of_mem t hmem, hc⟩

/-- Compact tokens are printed in one line. -/
theorem newline_notMem_untokenize {ts : List Token} (h : ∀ t ∈ ts, t ≠ .eof → t.Compact) :
    '\n' ∉ (untokenize ts).toList := by
  have hblank : Text.isBlank '\n' = true := by decide +kernel
  rw [Token.toList_untokenize h]
  intro hmem
  rcases Token.mem_spacedBy hmem with hspace | ⟨t, ht, hc⟩
  · exact absurd hspace (by decide)
  · have hcompact := Token.compact_of_mem_filter h t ht
    exact Bool.false_ne_true ((hcompact.not_blank _ hc).symm.trans hblank)

/-- **The three lines of a report.** -/
theorem SyntaxError.splitOn_report {error : SyntaxError} {ts : List Token}
    (hmessage : '\n' ∉ error.fault.message.toList) (hprinted : '\n' ∉ (untokenize ts).toList) :
    (error.report ts).toList.splitOn '\n' =
      [("Parser error: " ++ error.fault.message).toList, (untokenize ts).toList,
        List.replicate (caretColumn ts error.index) ' ' ++ ['^']] := by
  have hreport : (error.report ts).toList =
      ("Parser error: " ++ error.fault.message).toList ++ '\n' :: ((untokenize ts).toList ++
        '\n' :: (List.replicate (caretColumn ts error.index) ' ' ++ ['^'])) := by
    unfold report caretReport
    generalize caretColumn ts error.index = column
    have hspaces := String.toList_ofList (l := List.replicate column ' ')
    have hnewline : "\n".toList = ['\n'] := by rfl
    have hcaret : "^".toList = ['^'] := by rfl
    rw [String.toList_append, String.toList_append, String.toList_append, String.toList_append,
      String.toList_append, hspaces, hnewline, hcaret]
    simp only [List.append_assoc, List.cons_append, List.nil_append]
  have hfirst : '\n' ∉ ("Parser error: " ++ error.fault.message).toList := by
    rw [String.toList_append, List.mem_append, not_or]
    exact ⟨by decide, hmessage⟩
  have hlast : '\n' ∉ List.replicate (caretColumn ts error.index) ' ' ++ ['^'] := by
    simp
  rw [hreport, List.splitOn_append_cons_self, List.splitOn_append_cons_self,
    List.splitOn_eq_singleton hfirst, List.splitOn_eq_singleton hprinted,
    List.splitOn_eq_singleton hlast]
  rfl

/-! ### The column of the caret -/

/-- The caret is behind the token's place if no space is printed there. -/
theorem caretColumn_append (front : List Token) (t : Token) (back : List Token) :
    caretColumn (front ++ t :: back) front.length =
      if 0 < front.length ∧ (front.getLast? = some .lparen ∨ t = .rparen) then
        ((untokenize front).toList ++ Token.gapAfter front t).length + 1
      else ((untokenize front).toList ++ Token.gapAfter front t).length := by
  rw [caretColumn, Position.before_natCast, List.take_left, List.length_append,
    String.length_toList]
  rcases List.eq_nil_or_concat front with rfl | ⟨early, u, rfl⟩
  · rfl
  · rw [List.concat_eq_append, Token.gapAfter, List.getLast?_concat, Option.elim_some,
      Token.gapBetween]
    by_cases hclose : u = .lparen ∨ t = .rparen
    · simp [hclose]
    · simp [hclose]

/-- **Where the caret of a report stands.** A line is refused at one of its tokens. Unless this is
the end of the line, its lexeme starts at just one column of the printed line, which is the second
line of the report. In the third line the caret is in this column, but for a token behind an opening
parenthesis and for a closing parenthesis that is not the first token: there it is one column
further. -/
theorem caret_report (line : String) (error : SyntaxError)
    (h : parse (tokenize line) = .error (.syntaxError error)) :
    ∃ k : Nat, ∃ t, error.index = k ∧ (tokenize line)[k]? = some t ∧
      (t ≠ .eof → ∃ column first third,
        (∀ c, Token.StartsAt (tokenize line) (untokenize (tokenize line)).toList k c ↔ c = column) ∧
        (error.report (tokenize line)).toList.splitOn '\n' =
          [first, (untokenize (tokenize line)).toList, List.replicate third ' ' ++ ['^']] ∧
        third =
          if 0 < k ∧ ((tokenize line)[k - 1]? = some .lparen ∨ t = .rparen) then column + 1
          else column) := by
  obtain ⟨front, back, hsplit, hindex, hlies⟩ := exists_of_parse_refused h
  obtain ⟨fault, index, heq, -, hlt⟩ := exists_of_parse_eq_error (sealed_tokenize line) h
  obtain rfl : error = ⟨fault, index⟩ := by simpa using heq
  have hprinted : '\n' ∉ (untokenize (tokenize line)).toList :=
    newline_notMem_untokenize fun t ↦ Token.compact_of_mem_tokenize
  have hlines :=
    SyntaxError.splitOn_report (SyntaxFault.newline_notMem_message hlies.sign) hprinted
  match back with
  | [] =>
    rw [hsplit, List.append_nil] at hlt
    exact absurd hlt (hindex ▸ Int.lt_irrefl _)
  | t :: back =>
    have htoken : (tokenize line)[front.length]? = some t := by simp [hsplit]
    refine ⟨front.length, t, hindex, htoken, fun ht ↦ ?_⟩
    refine ⟨_, _, _, fun c ↦ Token.startsAt_tokenize_iff hsplit ht, hlines, ?_⟩
    rw [hindex, hsplit, caretColumn_append, List.getLast?_eq_getElem?]
    refine if_congr (and_congr_right fun hpos ↦ or_congr_left ?_) rfl rfl
    rw [List.getElem?_append_left (by omega)]

/-- Inside of a group the caret is right if a space is printed before the token. -/
theorem caret_report_inside :
    let line := "x * ( y + * z )"
    parse (tokenize line) = .error (.syntaxError ⟨.unexpectedToken .star, 5⟩) ∧
      (tokenize line)[5]? = some .star ∧
      ∃ column first,
        Token.StartsAt (tokenize line) (untokenize (tokenize line)).toList 5 column ∧
        (SyntaxError.report ⟨.unexpectedToken .star, 5⟩ (tokenize line)).toList.splitOn '\n' =
          [first, (untokenize (tokenize line)).toList, List.replicate column ' ' ++ ['^']] := by
  intro line
  have htokens : tokenize line = [.identifier "x", .star, .lparen, .identifier "y", .plus, .star,
      .identifier "z", .rparen, .eof] := by
    decide +kernel
  have hparse : parse (tokenize line) = .error (.syntaxError ⟨.unexpectedToken .star, 5⟩) := by
    rw [htokens]
    rfl
  have htoken : (tokenize line)[5]? = some .star := by
    rw [htokens]
    rfl
  refine ⟨hparse, htoken, ?_⟩
  obtain ⟨k, t, hk, ht, hcaret⟩ := caret_report line _ hparse
  obtain rfl : 5 = k := Int.ofNat.inj hk
  obtain rfl : .star = t := Option.some.inj (htoken.symm.trans ht)
  obtain ⟨column, first, third, hstarts, hlines, hthird⟩ := hcaret (by decide)
  rw [if_neg (by rw [htokens]; decide)] at hthird
  exact ⟨column, first, (hstarts column).2 rfl, hthird ▸ hlines⟩

/-- Right behind an opening parenthesis the caret misses the token by a column. -/
theorem caret_misses_behind_opening :
    let line := "(* x)"
    let error : SyntaxError := ⟨.unexpectedToken .star, 1⟩
    parse (tokenize line) = .error (.syntaxError error) ∧ (tokenize line)[1]? = some .star ∧
      (error.report (tokenize line)).toList.splitOn '\n' =
        ["Parser error: Unexpected token STAR".toList, (untokenize (tokenize line)).toList,
          [' ', ' ', '^']] ∧
      Token.StartsAt (tokenize line) (untokenize (tokenize line)).toList 1 1 ∧
      ¬Token.StartsAt (tokenize line) (untokenize (tokenize line)).toList 1 2 := by
  intro line error
  have hsplit : tokenize line = [.lparen] ++ .star :: [.identifier "x", .rparen, .eof] := by
    decide +kernel
  have hcolumn : ((untokenize [.lparen]).toList ++ Token.gapAfter [.lparen] .star).length = 1 := by
    decide +kernel
  refine ⟨?_, ?_, ?_, ?_, ?_⟩
  · rw [hsplit]
    rfl
  · rw [hsplit]
    rfl
  · rw [hsplit]
    decide +kernel
  · exact (Token.startsAt_tokenize_iff hsplit (by decide)).2 hcolumn.symm
  · intro hstarts
    have heq := (Token.startsAt_tokenize_iff hsplit (by decide)).1 hstarts
    exact absurd (heq.trans hcolumn) (by decide)

end Reckoner
