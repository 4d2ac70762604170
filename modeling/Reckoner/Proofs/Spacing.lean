import Reckoner.Token.Spacing

/-!
# The spaces of a printed line

A list of tokens is printed in two steps: the lexemes are joined by spaces, and then blanks are
taken out of the text next to parentheses. The second step looks at characters and knows nothing of
tokens. Yet it takes out just the spaces behind a token `(` and before a token `)`
(`toList_untokenize`), as long as the other lexemes have neither blanks nor parentheses in them
(`Compact`).
-/

namespace Reckoner.Token

/-- The lexemes of the tokens, with a gap between any two neighbours. -/
def spacedBy (gap : Token → Token → List Char) : List Token → List Char
  | [] => []
  | [t] => t.lexeme.toList
  | t :: u :: ts => t.lexeme.toList ++ gap t u ++ spacedBy gap (u :: ts)

/-- A space, but for the place behind an opening parenthesis. -/
def gapBehind (t _u : Token) : List Char :=
  if t = lparen then [] else [' ']

/-- A space, but for the places behind an opening parenthesis and before a closing one. -/
def gapBetween (t u : Token) : List Char :=
  if t = lparen ∨ u = rparen then [] else [' ']

/-- The lexeme of the token has no blank in it, and no parenthesis unless it is one. -/
structure Compact (t : Token) : Prop where
  ne_nil : t.lexeme.toList ≠ []
  not_blank : ∀ c ∈ t.lexeme.toList, Text.isBlank c = false
  eq_lparen : '(' ∈ t.lexeme.toList → t = lparen
  eq_rparen : ')' ∈ t.lexeme.toList → t = rparen

variable {t u : Token} {ts : List Token}

/-- A line begins with the lexeme of its first token. -/
theorem exists_spacedBy_cons (gap : Token → Token → List Char) (t : Token) (ts : List Token) :
    ∃ rest, spacedBy gap (t :: ts) = t.lexeme.toList ++ rest := by
  match ts with
  | [] => exact ⟨[], (List.append_nil _).symm⟩
  | u :: ts => exact ⟨gap t u ++ spacedBy gap (u :: ts), List.append_assoc _ _ _⟩

/-! ### Behind opening parentheses -/

/-- Only blanks are taken out. -/
theorem closeAfterOpening_cons {c : Char} (h : Text.isBlank c = false) (behind : Bool)
    (cs : List Char) :
    closeAfterOpening behind (c :: cs) = c :: closeAfterOpening (c = '(') cs := by
  rw [closeAfterOpening, h, Bool.and_false, if_neg Bool.false_ne_true]

/-- A run without blanks and opening parentheses stays as it is. -/
theorem closeAfterOpening_append {cs : List Char} (hblank : ∀ c ∈ cs, Text.isBlank c = false)
    (hopening : '(' ∉ cs) (rest : List Char) :
    closeAfterOpening false (cs ++ rest) = cs ++ closeAfterOpening false rest := by
  induction cs with
  | nil => rfl
  | cons c cs ih =>
    obtain ⟨hc, hcs⟩ := List.forall_mem_cons.1 hblank
    rw [List.mem_cons, not_or] at hopening
    rw [List.cons_append, closeAfterOpening_cons hc, decide_eq_false (Ne.symm hopening.1),
      ih hcs hopening.2]
    rfl

/-- A lexeme stays as it is, and only the opening parenthesis has an effect on what follows. -/
theorem Compact.closeAfterOpening_append (ht : t.Compact) (behind : Bool) (rest : List Char) :
    closeAfterOpening behind (t.lexeme.toList ++ rest) =
      t.lexeme.toList ++ closeAfterOpening (t = lparen) rest := by
  by_cases hopening : t = lparen
  · subst hopening
    exact closeAfterOpening_cons (by decide) behind rest
  · obtain ⟨c, cs, hcs⟩ := List.exists_cons_of_ne_nil ht.ne_nil
    have hc : Text.isBlank c = false := ht.not_blank c (hcs ▸ List.mem_cons_self)
    -- what came before does not matter to a character that is no blank
    have hstart : closeAfterOpening behind (t.lexeme.toList ++ rest) =
        closeAfterOpening false (t.lexeme.toList ++ rest) := by
      rw [hcs, List.cons_append, closeAfterOpening_cons hc, closeAfterOpening_cons hc]
    rw [hstart, Token.closeAfterOpening_append ht.not_blank (mt ht.eq_lparen hopening),
      decide_eq_false hopening]

/-- **Behind a token `(` the space is gone, and only there.** -/
theorem closeAfterOpening_spacedBy (h : ∀ t ∈ ts, t.Compact) (behind : Bool) :
    closeAfterOpening behind (spacedBy (fun _ _ ↦ [' ']) ts) = spacedBy gapBehind ts := by
  induction ts generalizing behind with
  | nil => rfl
  | cons t ts ih =>
    obtain ⟨ht, hts⟩ := List.forall_mem_cons.1 h
    match ts with
    | [] =>
      have happend := ht.closeAfterOpening_append behind []
      rwa [List.append_nil, closeAfterOpening, List.append_nil] at happend
    | u :: ts =>
      rw [spacedBy, spacedBy, List.append_assoc, ht.closeAfterOpening_append, List.append_assoc,
        List.cons_append, List.nil_append, closeAfterOpening, gapBehind]
      by_cases hopening : t = lparen
      · rw [decide_eq_true hopening, if_pos (by decide), if_pos hopening, ih hts, List.nil_append]
      · rw [decide_eq_false hopening, if_neg (by decide), if_neg hopening, ih hts]
        rfl

/-! ### Before closing parentheses -/

theorem closeBeforeClosing_append {cs : List Char} (hblank : ∀ c ∈ cs, Text.isBlank c = false)
    (rest : List Char) : closeBeforeClosing (cs ++ rest) = cs ++ closeBeforeClosing rest := by
  induction cs with
  | nil => rfl
  | cons c cs ih =>
    obtain ⟨hc, hcs⟩ := List.forall_mem_cons.1 hblank
    rw [List.cons_append, closeBeforeClosing, ih hcs, hc, Bool.false_and,
      if_neg Bool.false_ne_true]
    rfl

/-- A printed list begins with a closing parenthesis just if its first token is one. -/
theorem Compact.head?_spacedBy (hu : u.Compact) (gap : Token → Token → List Char)
    (ts : List Token) : (spacedBy gap (u :: ts)).head? = some ')' ↔ u = rparen := by
  obtain ⟨rest, hrest⟩ := exists_spacedBy_cons gap u ts
  obtain ⟨c, cs, hcs⟩ := List.exists_cons_of_ne_nil hu.ne_nil
  rw [hrest]
  constructor
  · intro hhead
    rw [hcs] at hhead
    obtain rfl : c = ')' := Option.some.inj hhead
    exact hu.eq_rparen (hcs ▸ List.mem_cons_self)
  · rintro rfl
    rfl

/-- **Before a token `)` the space is gone, and only there.** -/
theorem closeBeforeClosing_spacedBy (h : ∀ t ∈ ts, t.Compact) :
    closeBeforeClosing (spacedBy gapBehind ts) = spacedBy gapBetween ts := by
  induction ts with
  | nil => rfl
  | cons t ts ih =>
    obtain ⟨ht, hts⟩ := List.forall_mem_cons.1 h
    match ts with
    | [] =>
      have happend := closeBeforeClosing_append ht.not_blank []
      rwa [List.append_nil, closeBeforeClosing, List.append_nil] at happend
    | u :: ts =>
      have hu := (List.forall_mem_cons.1 hts).1
      rw [spacedBy, spacedBy, List.append_assoc, closeBeforeClosing_append ht.not_blank,
        List.append_assoc, gapBehind, gapBetween]
      by_cases hopening : t = lparen
      · rw [if_pos hopening, if_pos (.inl hopening), List.nil_append, ih hts, List.nil_append]
      · rw [if_neg hopening, List.cons_append, List.nil_append, closeBeforeClosing, ih hts]
        simp only [Bool.and_eq_true, decide_eq_true_eq, hu.head?_spacedBy, hopening, false_or]
        by_cases hclosing : u = rparen
        · rw [if_pos ⟨by decide, hclosing⟩, if_pos hclosing, List.nil_append]
        · rw [if_neg (fun h ↦ hclosing h.2), if_neg hclosing]
          rfl

/-! ### Printed lines -/

theorem kind_eq_eof_iff : t.kind = .eof ↔ t = eof := by
  rcases t <;> simp [kind]

/-- The lexemes are joined by single spaces, without the end of the line. -/
theorem toList_joinLexemes (ts : List Token) :
    (joinLexemes ts).toList = spacedBy (fun _ _ ↦ [' ']) (ts.filter fun t ↦ t.kind ≠ .eof) := by
  rw [joinLexemes, String.toList_intercalate]
  induction ts.filter fun t ↦ t.kind ≠ .eof with
  | nil => rfl
  | cons t ts ih =>
    match ts with
    | [] => simp [spacedBy]
    | u :: ts =>
      simp only [List.map_cons, List.intercalate_cons_cons] at ih ⊢
      rw [ih, spacedBy]
      rfl

/-- The tokens that are printed are all but the end of the line. -/
theorem compact_of_mem_filter (h : ∀ t ∈ ts, t ≠ eof → t.Compact) :
    ∀ t ∈ ts.filter fun t ↦ t.kind ≠ .eof, t.Compact := by
  intro t ht
  obtain ⟨hmem, hkind⟩ := List.mem_filter.1 ht
  exact h t hmem (mt kind_eq_eof_iff.2 (of_decide_eq_true hkind))

/-- **A line is printed with one space between neighbours, but for none behind `(` and before
`)`.** -/
theorem toList_untokenize (h : ∀ t ∈ ts, t ≠ eof → t.Compact) :
    (untokenize ts).toList = spacedBy gapBetween (ts.filter fun t ↦ t.kind ≠ .eof) := by
  have hcompact := compact_of_mem_filter h
  rw [untokenize, String.toList_ofList, toList_joinLexemes, closeAfterOpening_spacedBy hcompact,
    closeBeforeClosing_spacedBy hcompact]

end Reckoner.Token
