import Reckoner.Proofs.Munch

/-!
# Layout between lexemes

Some characters continue no lexeme: layout, and the parentheses among others (`Token.Divides`). What
is read before such a character does not depend on it, nor on anything behind it. So the tokens of
a text are the tokens of what is before the character, followed by those of what is from there on
(`Token.Cuts.scanAll_append`), unless the reading has come to its end before, at a piece that is no
token.

A character of layout is itself passed over. So it does not matter which characters of layout stand
between two lexemes, nor how many of them, as long as there is one (`tokenize_append_layout`).
-/

namespace Reckoner

namespace Token

variable {c : Char} {cs gap text rest : List Char} {t : Token} {parts : List Part}

/-! ### Dividing characters -/

/-- The character is neither part of a numeral, nor of a word, nor of `==`. -/
structure Divides (c : Char) : Prop where
  inNumeral_eq : inNumeral c = false
  isLetter_eq : Text.isLetter c = false
  ne_equal : c ≠ '='

theorem divides_of_isLayout (h : isLayout c = true) : Divides c where
  inNumeral_eq := by
    rw [inNumeral, Text.not_isDigit_of_isBlank (isBlank_of_isLayout h), Bool.false_or]
    refine decide_eq_false ?_
    rintro rfl
    exact absurd h (by decide)
  isLetter_eq := Text.not_isLetter_of_isBlank (isBlank_of_isLayout h)
  ne_equal := by
    rintro rfl
    exact absurd h (by decide)

/-- A run that ends before a text ends there, too, if a dividing character is put behind the
text. -/
theorem EndsRun.append {p : Char → Bool} (h : EndsRun p rest) (hc : p c = false)
    (more : List Char) : EndsRun p (rest ++ c :: more) := by
  intro d hd
  rcases rest with - | ⟨b, rest⟩
  · obtain rfl : c = d := Option.some.inj hd
    exact hc
  · exact h d hd

/-- **A dividing character leaves the lexemes before it as they are.** -/
theorem Lexeme.append (h : Lexeme text rest t) (hc : Divides c) (more : List Char) :
    Lexeme text (rest ++ c :: more) t := by
  match h with
  | .numeral hhead hall hend => exact .numeral hhead hall (hend.append hc.inNumeral_eq more)
  | .word hne hall hend => exact .word hne hall (hend.append hc.isLetter_eq more)
  | .equal => exact .equal
  | .symbol hlayout hdigit hletter hequal =>
    refine .symbol hlayout hdigit hletter fun heq hhead ↦ ?_
    rcases rest with - | ⟨b, rest⟩
    · exact hc.ne_equal (Option.some.inj hhead)
    · exact hequal heq hhead

/-! ### Reading on behind a text -/

theorem scanAll_congr {cs' : List Char} (h : scan cs = scan cs') : scanAll cs = scanAll cs' := by
  by_cases hlast : (scan cs').1.isLast = true
  · rw [scanAll_of_isLast (h ▸ hlast), scanAll_of_isLast hlast, h]
  · rw [scanAll_of_not_isLast (h ▸ hlast), scanAll_of_not_isLast hlast, h]

/-- Layout in front of a text is passed over. -/
theorem scanAll_layout_append (hgap : ∀ c ∈ gap, isLayout c = true) (cs : List Char) :
    scanAll (gap ++ cs) = scanAll cs := by
  refine scanAll_congr ?_
  rw [scan, scan, List.dropWhile_append_of_pos hgap]

/-- **Reading goes on at a dividing character as if the text began there**, unless it has ended
before. -/
theorem Cuts.scanAll_append (h : Cuts cs parts rest) (hc : Divides c) (more : List Char) :
    ∃ front,
      (parts.map Part.token = front ++ [Token.illegal] ∧
        (scanAll (cs ++ c :: more)).1 = front ++ [Token.illegal]) ∨
      (parts.map Part.token = front ++ [eof] ∧
        (scanAll (cs ++ c :: more)).1 = front ++ (scanAll (c :: more)).1) := by
  induction h with
  | finish hgap =>
    refine ⟨[], .inr ⟨rfl, ?_⟩⟩
    rw [scanAll_layout_append hgap]
    rfl
  | illegal hcs hgap h =>
    refine ⟨[], .inl ⟨rfl, ?_⟩⟩
    have hscan := scan_of_lexeme hgap (h.append hc more)
    rw [hcs, List.append_assoc, scanAll_of_isLast (by rw [hscan]; rfl), hscan]
    rfl
  | @lexeme cs gap text later rest t parts hcs hgap h ht _ ih =>
    obtain ⟨front, hfront⟩ := ih
    have hscan := scan_of_lexeme hgap (h.append hc more)
    have hread : (scanAll (cs ++ c :: more)).1 = t :: (scanAll (later ++ c :: more)).1 := by
      rw [hcs, List.append_assoc,
        scanAll_of_not_isLast (by rw [hscan, h.isLast_iff]; exact ht), hscan]
    refine ⟨t :: front, hfront.imp ?_ ?_⟩
    · rintro ⟨hparts, hmore⟩
      exact ⟨congrArg (t :: ·) hparts, by rw [hread, hmore]; rfl⟩
    · rintro ⟨hparts, hmore⟩
      exact ⟨congrArg (t :: ·) hparts, by rw [hread, hmore]; rfl⟩

end Token

/-- Reading a line on at a dividing character. -/
theorem tokenize_append_cons (u : String) {c : Char} (hc : Token.Divides c) (more : List Char) :
    ∃ front,
      (tokenize u = front ++ [.illegal] ∧
        (Token.scanAll (u.toList ++ c :: more)).1 = front ++ [.illegal]) ∨
      (tokenize u = front ++ [.eof] ∧
        (Token.scanAll (u.toList ++ c :: more)).1 = front ++ (Token.scanAll (c :: more)).1) := by
  obtain ⟨parts, rest, hcuts⟩ := Token.exists_cuts u.toList
  rw [tokenize_eq_scanAll, hcuts.scanAll_eq]
  exact hcuts.scanAll_append hc more

/-! ### Layout -/

/-- Behind layout a line is read as if it began there, unless the reading has ended before. -/
theorem tokenize_append_gap (u v : String) {gap : String} (hne : gap ≠ "")
    (hgap : ∀ c ∈ gap.toList, Token.isLayout c = true) :
    ∃ front,
      (tokenize u = front ++ [.illegal] ∧ tokenize (u ++ gap ++ v) = front ++ [.illegal]) ∨
      (tokenize u = front ++ [.eof] ∧ tokenize (u ++ gap ++ v) = front ++ tokenize v) := by
  obtain ⟨c, cs, hcons⟩ := List.exists_cons_of_ne_nil (mt String.toList_eq_nil_iff.1 hne)
  have hdivides := Token.divides_of_isLayout (hgap c (by rw [hcons]; exact List.mem_cons_self))
  have hsplit : (u ++ gap ++ v).toList = u.toList ++ c :: (cs ++ v.toList) := by
    rw [String.toList_append, String.toList_append, hcons, List.append_assoc, List.cons_append]
  have hread : (Token.scanAll (c :: (cs ++ v.toList))).1 = tokenize v := by
    rw [← List.cons_append, ← hcons, Token.scanAll_layout_append hgap, tokenize_eq_scanAll]
  obtain ⟨front, hfront⟩ := tokenize_append_cons u hdivides (cs ++ v.toList)
  rw [← hsplit, hread, ← tokenize_eq_scanAll] at hfront
  exact ⟨front, hfront⟩

theorem Token.isLayout_iff {c : Char} : isLayout c = true ↔ c ∈ [' ', '\t', '\n'] := by
  simp [isLayout, or_assoc]

/-- **Lexing is compositional over layout.** A text, a character of layout and another text are read
as the first text, if this ends at a piece that is no token; else they are read as the first text
without the end of the line, followed by the second text. So it does not matter how much layout
stands between two texts, and of which kind it is, as long as there is some. -/
theorem tokenize_append_layout (u v : String) :
    (∀ w ∈ [' ', '\t', '\n'],
      if (tokenize u).getLast? = some .illegal then
        tokenize (u ++ String.singleton w ++ v) = tokenize u
      else
        (tokenize u).getLast? = some .eof ∧
          tokenize (u ++ String.singleton w ++ v) = (tokenize u).dropLast ++ tokenize v) ∧
    ∀ gap gap' : String, gap ≠ "" → gap' ≠ "" →
      (∀ c ∈ gap.toList ++ gap'.toList, c ∈ [' ', '\t', '\n']) →
      tokenize (u ++ gap ++ v) = tokenize (u ++ gap' ++ v) := by
  refine ⟨fun w hw ↦ ?_, fun gap gap' hne hne' hlayout ↦ ?_⟩
  · have hgap : ∀ c ∈ (String.singleton w).toList, Token.isLayout c = true := by
      rw [String.toList_singleton, List.forall_mem_singleton]
      exact Token.isLayout_iff.2 hw
    obtain ⟨front, ⟨hu, huv⟩ | ⟨hu, huv⟩⟩ :=
      tokenize_append_gap u v (String.singleton_ne_empty) hgap
    · rw [hu, huv, if_pos List.getLast?_concat]
    · rw [hu, huv, if_neg (by simp), List.dropLast_concat]
      exact ⟨List.getLast?_concat, rfl⟩
  · obtain ⟨hgap, hgap'⟩ := List.forall_mem_append.1 hlayout
    obtain ⟨front, hfront⟩ :=
      tokenize_append_gap u v hne fun c hc ↦ Token.isLayout_iff.2 (hgap c hc)
    obtain ⟨front', hfront'⟩ :=
      tokenize_append_gap u v hne' fun c hc ↦ Token.isLayout_iff.2 (hgap' c hc)
    -- the tokens of the first text tell which of the two cases it is, and what is in front
    rcases hfront with ⟨hu, huv⟩ | ⟨hu, huv⟩ <;> rcases hfront' with ⟨hu', huv'⟩ | ⟨hu', huv'⟩
    all_goals rw [hu] at hu'
    · rw [huv, huv', hu']
    · exact absurd (List.append_inj_right' hu' rfl) (by decide)
    · exact absurd (List.append_inj_right' hu' rfl) (by decide)
    · rw [huv, huv', List.append_inj_left' hu' rfl]

/-- A newline keeps two equality signs apart, and so does any other layout; what is no token ends
the reading before the layout. -/
theorem tokenize_append_layout_equal :
    '\n' ∈ [' ', '\t', '\n'] ∧
      tokenize ("x =" ++ String.singleton '\n' ++ "= 1.5") =
        [.identifier "x", .assign, .assign, .number 1.5, .eof] ∧
      tokenize ("x =" ++ "\t \n" ++ "= 1.5") = tokenize ("x =" ++ " " ++ "= 1.5") ∧
      tokenize ("1.2.3" ++ String.singleton '\n' ++ "= 1.5") = [.illegal] := by
  have hu : tokenize "x =" = [.identifier "x", .assign, .eof] := by decide +kernel
  have hv : tokenize "= 1.5" = [.assign, .number 1.5, .eof] := by decide +kernel
  have hillegal : tokenize "1.2.3" = [.illegal] := by decide +kernel
  have hmem : '\n' ∈ [' ', '\t', '\n'] := by decide
  have hlayout : ("\t \n".toList ++ " ".toList).all Token.isLayout = true := by decide
  refine ⟨hmem, ?_, (tokenize_append_layout "x =" "= 1.5").2 _ _ (by decide) (by decide)
    fun c hc ↦ Token.isLayout_iff.1 (List.all_eq_true.1 hlayout c hc), ?_⟩
  · have h := (tokenize_append_layout "x =" "= 1.5").1 '\n' hmem
    rw [if_neg (by rw [hu]; decide), hu, hv] at h
    exact h.2
  · have h := (tokenize_append_layout "1.2.3" "= 1.5").1 '\n' hmem
    rwa [if_pos (by rw [hillegal]; rfl), hillegal] at h

end Reckoner
