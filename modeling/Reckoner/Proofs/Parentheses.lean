import Reckoner.Proofs.Slices

/-!
# Unmatched parentheses

The parser complains about a parenthesis only if it has none to match (`parse_unmatched`): all
before it is balanced, and it closes nothing, or nothing closes it before the end of the line. So a
line whose parentheses are balanced is never refused for one, and neither is what stands inside of a
group.

A complaint is known by its wording. Among the messages, those about unmatched parentheses differ
from all others in their third letter (`SyntaxFault.exists_third`).
-/

namespace Reckoner

/-! ### The wording of the complaints -/

namespace SyntaxFault

variable {fault : SyntaxFault}

theorem third_append {s : String} {c : Char} (h : s.toList[2]? = some c) (t : String) :
    (s ++ t).toList[2]? = some c := by
  rw [String.toList_append, List.getElem?_append_left (List.getElem?_eq_some_iff.1 h).1]
  exact h

/-- The third letter of the other messages. -/
theorem exists_third (hclosing : fault ≠ unmatchedClosing) (hopening : fault ≠ unmatchedOpening) :
    ∃ c ≠ 'm', fault.message.toList[2]? = some c := by
  have htoken : "Unexpected token ".toList[2]? = some 'e' := by decide
  have hend : "Unexpected end of input".toList[2]? = some 'e' := by decide
  have hunary : "Unary ".toList[2]? = some 'a' := by decide
  have hexpected : "Expected ".toList[2]? = some 'p' := by decide
  have hcomparison : "Expected comparison operator, found ".toList[2]? = some 'p' := by decide
  have hinput : "Input not supported".toList[2]? = some 'p' := by decide
  cases fault with
  | unsupported => exact ⟨'p', by decide, hinput⟩
  | unexpectedEnd => exact ⟨'e', by decide, hend⟩
  | unmatchedClosing => exact absurd rfl hclosing
  | unmatchedOpening => exact absurd rfl hopening
  | unexpectedToken found => exact ⟨'e', by decide, third_append htoken _⟩
  | signWithoutNumber sign => exact ⟨'a', by decide, third_append (third_append hunary _) _⟩
  | expectedComparison found => exact ⟨'p', by decide, third_append hcomparison _⟩
  | expectedWord wanted found =>
    exact ⟨'p', by decide, third_append (third_append (third_append hexpected _) _) _⟩

/-- The two messages about parentheses belong to the two faults. -/
theorem eq_of_message_mem
    (h : fault.message ∈ ["Unmatched closing paren", "Unmatched opening paren"]) :
    fault = unmatchedClosing ∨ fault = unmatchedOpening := by
  by_contra hother
  obtain ⟨hclosing, hopening⟩ := not_or.1 hother
  obtain ⟨c, hc, hthird⟩ := exists_third hclosing hopening
  rcases List.mem_pair.1 h with heq | heq
  all_goals
    rw [heq] at hthird
    exact hc (Option.some.inj (hthird.symm.trans (by decide)))

theorem eq_unmatchedClosing (h : fault.message = "Unmatched closing paren") :
    fault = unmatchedClosing := by
  refine (eq_of_message_mem (List.mem_pair.2 (.inl h))).resolve_right ?_
  rintro rfl
  exact absurd h (by decide)

theorem eq_unmatchedOpening (h : fault.message = "Unmatched opening paren") :
    fault = unmatchedOpening := by
  refine (eq_of_message_mem (List.mem_pair.2 (.inr h))).resolve_left ?_
  rintro rfl
  exact absurd h (by decide)

/-- No other fault has one of them. -/
theorem message_notMem (h : fault.isOrdinary = true) :
    fault.message ∉ ["Unmatched closing paren", "Unmatched opening paren"] := by
  intro hmem
  rcases eq_of_message_mem hmem with rfl | rfl <;> cases h

end SyntaxFault

/-! ### Where the parser complains -/

/-- Where a closing parenthesis is found, the parser for the inside of the group has a settled row
for its window, which lies in the list. -/
theorem Parser.Inside.inside_group {p q : Parser} (h : p.Inside) {close : Int}
    (hclose : (Walk.findClosing p.span 0 p.position).run p = .ok close q) :
    Inside ⟨p.tokens, p.position, close⟩ ∧ Settled (window ⟨p.tokens, p.position, close⟩) := by
  rw [run_findClosing p rfl] at hclose
  rcases hfound : findClosing 0 p.window with ⟨inner, after⟩ | left | - | - <;>
    rw [hfound] at hclose <;> cases hclose
  obtain ⟨hsplit, hcloses, hlast⟩ := split_of_findClosing hfound
  have hlength := h.length_window
  rw [hsplit, List.length_append, List.length_cons] at hlength
  have hstop := h.stop_le
  refine ⟨⟨h.start_le, by simp only; omega, by simp only; omega⟩, ?_⟩
  rw [(window_inside hsplit).1]
  exact ⟨closes_zero_iff.1 hcloses, hlast⟩

/-- **Complaints about parentheses are right.** Where a closing parenthesis is called unmatched,
there is one, and all before it is balanced. Where an opening one is called unmatched, there is one,
all before it is balanced, and a parenthesis that would close it comes only behind the end of the
line, if at all. So there are none of these complaints if the tokens before the end of the line are
balanced, and a parser for the inside of a group makes none. -/
theorem parse_unmatched (ts : List Token) :
    (∀ error, parse ts = .error (.syntaxError error) →
      (error.fault.message = "Unmatched closing paren" →
        ∃ k : Nat, error.index = k ∧ ts[k]? = some .rparen ∧ Balanced (ts.take k)) ∧
      (error.fault.message = "Unmatched opening paren" →
        ∃ k : Nat, error.index = k ∧ ts[k]? = some .lparen ∧ Balanced (ts.take k) ∧
          ∀ inner after, ts.drop (k + 1) = inner ++ .rparen :: after → Balanced inner →
            .eof ∈ inner) ∧
      (Balanced (ts.takeWhile (· ≠ .eof)) →
        error.fault.message ∉ ["Unmatched closing paren", "Unmatched opening paren"])) ∧
    ∀ p : Parser, p.tokens = ts → p.Inside →
      ∀ close q, (Parser.Walk.findClosing p.span 0 p.position).run p = .ok close q →
      ∀ error, (Parser.mk ts p.position close).parse.1 = .error (.syntaxError error) →
        error.fault.message ∉ ["Unmatched closing paren", "Unmatched opening paren"] := by
  refine ⟨fun error hparse ↦ ?_, fun p htokens hinside close q hclose error hparse ↦ ?_⟩
  · obtain ⟨front, back, rfl, hindex, hlies⟩ := exists_of_parse_refused hparse
    refine ⟨fun hmessage ↦ ?_, fun hmessage ↦ ?_, fun hbalanced ↦ ?_⟩
    · obtain ⟨hfront, hhead⟩ := hlies.closing (SyntaxFault.eq_unmatchedClosing hmessage)
      refine ⟨front.length, hindex, ?_, ?_⟩
      · rw [List.getElem?_append_right (Nat.le_refl _), Nat.sub_self, ← List.head?_eq_getElem?]
        exact hhead
      · rw [List.take_left]
        exact hfront.balanced
    · obtain ⟨hfront, row, rfl, hrow⟩ :=
        hlies.opening (SyntaxFault.eq_unmatchedOpening hmessage)
      refine ⟨front.length, hindex, ?_, ?_, ?_⟩
      · rw [List.getElem?_append_right (Nat.le_refl _), Nat.sub_self]
        rfl
      · rw [List.take_left]
        exact hfront.balanced
      · rw [← List.drop_drop, List.drop_left, List.drop_one]
        exact hrow
    · exact SyntaxFault.message_notMem (hlies.isOrdinary hbalanced)
  · obtain ⟨hinner, hsettled⟩ := hinside.inside_group hclose
    rw [htokens] at hinner hsettled
    obtain ⟨front, back, hsplit, -, hlies⟩ := hinner.exists_of_refused hparse
    refine SyntaxFault.message_notMem (hlies.isOrdinary ?_)
    rw [← hsplit, hsettled.takeWhile_eq]
    exact hsettled.balanced

/-- The first closing parenthesis belongs to the inner group, and the second one comes too late. -/
theorem parse_unmatched_late :
    let ts : List Token :=
      [.identifier "a", .plus, .lparen, .lparen, .identifier "b", .rparen, .eof, .rparen]
    parse ts = .error (.syntaxError ⟨.unmatchedOpening, 2⟩) ∧
      SyntaxFault.unmatchedOpening.message = "Unmatched opening paren" ∧
      ts[2]? = some .lparen ∧ Balanced (ts.take 2) ∧
      ∀ inner after, ts.drop 3 = inner ++ .rparen :: after → Balanced inner → .eof ∈ inner := by
  intro ts
  have hparse : parse ts = .error (.syntaxError ⟨.unmatchedOpening, 2⟩) := by rfl
  refine ⟨hparse, rfl, ?_⟩
  obtain ⟨k, hk, hopening⟩ := ((parse_unmatched ts).1 _ hparse).2.1 rfl
  obtain rfl : 2 = k := Int.ofNat.inj hk
  exact hopening

end Reckoner
