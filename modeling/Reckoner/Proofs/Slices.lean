import Reckoner.Proofs.Calls

/-!
# A window is as good as a slice

A parser for a part of a list reads what a parser for the slice would read, and counts positions
from the start of the list instead of the start of the slice (`ask_extract`). The two walk along
different lists, by different positions, and so do the parsers that they make for the groups inside.
But at corresponding positions they have the same window before them, and by positions each of them
does what the steps on the window do (`Parser.ask_eq_perform`). So they stay side by side, call
after call (`Parser.Shifted`).
-/

namespace Reckoner

/-- The error, with its position counted from `n` tokens before. -/
def ParseError.shift (n : Nat) : ParseError → ParseError
  | syntaxError error => syntaxError ⟨error.fault, n + error.index⟩
  | beyondTokens => beyondTokens

namespace Parser

variable {n : Nat} {p q : Parser}

/-! ### Parsers side by side -/

/-- The first parser is `n` tokens further on in its list than the second, and from there on the two
have the same tokens in their windows, wherever they may come. -/
structure Shifted (n : Nat) (p q : Parser) : Prop where
  position_eq : p.position = n + q.position
  stop_eq : p.stop = n + q.stop
  window_eq : ∀ i : Nat, window ⟨p.tokens, (n + i : Nat), p.stop⟩ = window ⟨q.tokens, i, q.stop⟩

/-- A window of a list, and the slice. -/
theorem shifted_extract (ts : List Token) {start stop : Nat} (hle : start ≤ stop)
    (hstop : stop ≤ ts.length) :
    Shifted start ⟨ts, start, stop⟩ (ofTokens (ts.extract start stop)) := by
  have hlength : (ts.extract start stop).length = stop - start := by
    rw [List.extract_eq_take_drop, List.length_take, List.length_drop]
    omega
  refine ⟨(Int.add_zero _).symm, ?_, fun i ↦ ?_⟩
  · simp only [ofTokens, hlength]
    omega
  · simp only [window, span, ofTokens, hlength, Position.onward_natCast]
    rw [List.extract_eq_take_drop, List.drop_take, List.drop_drop, List.take_take]
    congr 1
    omega

theorem Shifted.span_eq (h : Shifted n p q) : p.span = q.span := by
  rw [span, span, h.position_eq, h.stop_eq]
  omega

theorem Shifted.edge_eq (h : Shifted n p q) (hwindow : p.window = q.window) : p.edge = q.edge := by
  rw [edge, edge, hwindow, h.span_eq]

/-- Parsers side by side come to the same by a step on their windows, and are side by side again. -/
theorem Shifted.perform (h : Shifted n p q) (hwindow : p.window = q.window) (step : Step Expr) :
    (p.perform step).1 = (q.perform step).1.mapError (ParseError.shift n) ∧
      Shifted n (p.perform step).2 (q.perform step).2 := by
  have hindex (left : Nat) : p.indexOf left = n + q.indexOf left := by
    rw [indexOf, indexOf, hwindow, h.position_eq]
    omega
  have hmoved (rest : List Token) : Shifted n (p.moved rest) (q.moved rest) :=
    ⟨hindex rest.length, h.stop_eq, h.window_eq⟩
  rw [Parser.perform, Parser.perform, hwindow]
  rcases step.run q.window with ⟨e, rest⟩ | ⟨⟨fault, left⟩ | - | -, rest⟩
  · exact ⟨rfl, hmoved rest⟩
  · refine ⟨?_, hmoved rest⟩
    simp only [place, halt, conclude, hindex]
    rfl
  · exact ⟨rfl, hmoved rest⟩
  · exact ⟨rfl, hmoved rest⟩

/-- **Parsers side by side answer a call alike**: by positions in two lists they do what one step
does on the window that they share. -/
theorem Shifted.ask (h : Shifted n p q) (hpos : 0 ≤ q.position) (c : Call) :
    (p.ask c).1 = (q.ask c).1.mapError (ParseError.shift n) ∧
      Shifted n (p.ask c).2 (q.ask c).2 := by
  have hwindow : p.window = q.window := by
    obtain ⟨i, hi⟩ := Int.eq_ofNat_of_zero_le hpos
    have hwindow := h.window_eq i
    rwa [Int.natCast_add, ← hi, ← h.position_eq] at hwindow
  rw [ask_eq_perform, ask_eq_perform, h.edge_eq hwindow, h.span_eq]
  exact h.perform hwindow _

/-- What a row of calls preserves. -/
theorem Shifted.after (h : Shifted n p q) (hq : q.Inside) (hpos : 0 ≤ q.position)
    (calls : List Call) : Shifted n (p.after calls) (q.after calls) := by
  induction calls generalizing p q with
  | nil => exact h
  | cons c calls ih =>
    obtain ⟨position, hnext, hle, -⟩ := hq.exists_after [c]
    have hnext_pos : 0 ≤ (q.after [c]).position := by
      rw [hnext]
      exact Int.le_trans hpos hle
    exact ih (h.ask hpos c).2 (hq.after [c]) hnext_pos

end Parser

/-- **Reading a part of a list is reading the slice**, call after call: the trees are the same, or
the same fault is found, at positions that differ by the start of the part, as the positions do at
which the parsers are left. This holds also of faults that the parser for the inside of a group
finds. -/
theorem ask_extract (ts : List Token) (start stop : Nat) (hle : start ≤ stop)
    (hstop : stop ≤ ts.length) (calls : List Parser.Call) (c : Parser.Call) :
    let p := (Parser.mk ts start stop).after calls
    let q := (Parser.ofTokens (ts.extract start stop)).after calls
    (p.ask c).2.position = start + (q.ask c).2.position ∧
      ((∃ e, (p.ask c).1 = .ok e ∧ (q.ask c).1 = .ok e) ∨
        ∃ fault index, (p.ask c).1 = .error (.syntaxError ⟨fault, start + index⟩) ∧
          (q.ask c).1 = .error (.syntaxError ⟨fault, index⟩)) := by
  intro p q
  have hslice := Parser.inside_ofTokens (ts.extract start stop)
  obtain ⟨next, hq, hnext, -⟩ := hslice.exists_after calls
  have hshifted : Parser.Shifted start p q :=
    (Parser.shifted_extract ts hle hstop).after hslice (Int.le_refl 0) calls
  have hpos : 0 ≤ q.position := by
    rw [show q = _ from hq]
    exact hnext
  obtain ⟨hanswer, hmoved⟩ := hshifted.ask hpos c
  refine ⟨hmoved.position_eq, ?_⟩
  have hanswered := (hslice.after calls).answered c
  rw [hanswer]
  generalize q.ask c = answer at hanswered ⊢
  cases hanswered with
  | ok e => exact .inl ⟨e, rfl, rfl⟩
  | refused => exact .inr ⟨_, _, rfl, rfl⟩

/-- The group lacks an operand, which is missed at its closing parenthesis. -/
theorem ask_extract_group :
    let ts : List Token :=
      [.identifier "x", .assign, .lparen, .identifier "a", .star, .rparen, .thenWord]
    2 ≤ 6 ∧ 6 ≤ ts.length ∧
      (Parser.mk ts 2 6).parse.1 = .error (.syntaxError ⟨.unexpectedEnd, 5⟩) ∧
      (Parser.ofTokens (ts.extract 2 6)).parse.1 = .error (.syntaxError ⟨.unexpectedEnd, 3⟩) := by
  intro ts
  have hstop : 6 ≤ ts.length := by decide
  have hparse : (Parser.mk ts 2 6).parse.1 = .error (.syntaxError ⟨.unexpectedEnd, 5⟩) := by rfl
  refine ⟨by decide, hstop, hparse, ?_⟩
  obtain ⟨-, ⟨e, hp, -⟩ | ⟨fault, index, hp, hq⟩⟩ :=
    ask_extract ts 2 6 (by decide) hstop [] .parse
  · cases hparse.symm.trans hp
  · obtain ⟨rfl, hindex⟩ : fault = .unexpectedEnd ∧ 2 + index = 5 := by
      simpa using hp.symm.trans hparse
    rw [show (3 : Int) = index by omega]
    exact hq

end Reckoner
