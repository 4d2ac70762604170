import Reckoner.Proofs.Relexing

/-!
# Where tokens stand in a printed line

The tokens of a line are compact, also if they are numbers with an exponent or infinite
(`compact_of_mem_tokenize`): whatever a double is written with is neither a blank nor a parenthesis.
So a printed line shows its tokens one after the other with blanks between them (`Token.Shows`), and
there is only one column at which a given token may be told to start (`Token.StartsAt.unique`).

It starts behind the tokens before it, and behind a space, if one is printed there
(`Token.startsAt_tokenize_iff`).
-/

namespace Reckoner

/-! ### Numbers in print -/

namespace Decimal

variable {cs ds rest : List Char}

/-- A character that doubles are written with. -/
def isWritten (c : Char) : Bool :=
  c.isDigit || ['.', '-', '+', 'e', 'i', 'n', 'f', 'a'].contains c

theorem isWritten_of_isDigit {c : Char} (h : c.isDigit = true) : isWritten c = true := by
  rw [isWritten, h, Bool.true_or]

/-- No character of a number is a blank. -/
theorem isBlank_eq_false_of_isWritten {c : Char} (h : isWritten c = true) :
    Text.isBlank c = false := by
  rw [isWritten, Bool.or_eq_true] at h
  rcases h with hdigit | hother
  · exact Token.isBlank_eq_false_of_inNumeral
      (Token.inNumeral_of_isDigit (Text.isDigit_of_isSome (isSome_of_isDigit hdigit)))
  · have hall : ['.', '-', '+', 'e', 'i', 'n', 'f', 'a'].all (!Text.isBlank ·) = true := by
      decide +kernel
    exact Bool.not_eq_true' _ ▸ List.all_eq_true.1 hall c (List.contains_iff_mem.1 hother)

/-- A text of such characters that has something before its first point. -/
structure Written (cs : List Char) : Prop where
  head : ∃ c ∈ cs.head?, c ≠ '.'
  isWritten : ∀ c ∈ cs, isWritten c = true

/-- Digits in front are enough for a text to be written. -/
theorem written_append (hne : ds ≠ []) (hds : ∀ c ∈ ds, c.isDigit = true)
    (hrest : ∀ c ∈ rest, isWritten c = true) : Written (ds ++ rest) := by
  refine ⟨?_, List.forall_mem_append.2 ⟨fun c hc ↦ isWritten_of_isDigit (hds c hc), hrest⟩⟩
  obtain ⟨d, ds, rfl⟩ := List.exists_cons_of_ne_nil hne
  refine ⟨d, rfl, ?_⟩
  rintro rfl
  exact absurd (hds '.' List.mem_cons_self) (by decide)

/-- A decimal with a point is written. -/
theorem written_positional (hne : ds ≠ []) (hds : ∀ c ∈ ds, c.isDigit = true) (point : ℤ) :
    Written (positional ds point) := by
  obtain ⟨whole, fraction, hlayout, hwhole, hdigits, -⟩ := exists_of_positional hne hds point
  obtain ⟨hdigits, hfraction⟩ := List.forall_mem_append.1 hdigits
  rw [hlayout]
  exact written_append hwhole hdigits
    (List.forall_mem_cons.2 ⟨by decide, fun c hc ↦ isWritten_of_isDigit (hfraction c hc)⟩)

/-- And so is one with an exponent. -/
theorem written_scientific (s : Style) (hne : ds ≠ []) (hds : ∀ c ∈ ds, c.isDigit = true)
    (lead : ℤ) : Written (s.scientific ds lead) := by
  let exponent := ['e', if lead < 0 then '-' else '+'] ++
    padZeros s.exponentWidth (digitsOf lead.natAbs)
  have hexponent : ∀ c ∈ exponent, isWritten c = true := by
    simp only [exponent, List.forall_mem_append, List.forall_mem_cons, padZeros]
    refine ⟨⟨by decide, by split <;> decide, by simp⟩, fun c hc ↦ ?_, fun c hc ↦ ?_⟩
    · rw [List.eq_of_mem_replicate hc]
      decide
    · exact isWritten_of_isDigit (isDigit_of_mem_digitsOf hc)
  match ds with
  | [d] =>
    show Written ([d] ++ exponent)
    exact written_append hne hds hexponent
  | d :: e :: ds =>
    obtain ⟨hd, hrest⟩ := List.forall_mem_cons.1 hds
    have hmantissa : ∀ c ∈ '.' :: e :: ds, isWritten c = true :=
      List.forall_mem_cons.2 ⟨by decide, fun c hc ↦ isWritten_of_isDigit (hrest c hc)⟩
    have hlayout : s.scientific (d :: e :: ds) lead = [d] ++ ('.' :: e :: ds ++ exponent) := by
      simp [Style.scientific, exponent]
    rw [hlayout]
    exact written_append (List.cons_ne_nil d []) (List.forall_mem_singleton.2 hd)
      (List.forall_mem_append.2 ⟨hmantissa, hexponent⟩)

/-- **Every double is written so.** -/
theorem written_text (x : Float) : Written (text x).toList := by
  have hmagnitude : Written (plain.magnitude x) := by
    have hne (n : ℕ) : digitsOf n ≠ [] := Nat.toDigits_ne_nil
    rw [Style.magnitude]
    split_ifs
    · exact ⟨⟨'i', rfl, by decide⟩, List.all_eq_true.1 (by decide)⟩
    · exact ⟨⟨'0', rfl, by decide⟩, List.all_eq_true.1 (by decide)⟩
    · rw [Style.layOut]
      split
      · exact written_positional (hne _) (fun _ ↦ isDigit_of_mem_digitsOf) _
      · exact written_scientific _ (hne _) (fun _ ↦ isDigit_of_mem_digitsOf) _
  rw [text, Style.write]
  split
  · exact ⟨⟨'n', rfl, by decide⟩, List.all_eq_true.1 (by decide)⟩
  · rw [String.toList_ofList]
    split
    · exact ⟨⟨'-', rfl, by decide⟩, List.forall_mem_cons.2 ⟨by decide, hmagnitude.isWritten⟩⟩
    · exact hmagnitude

/-- Dropping a final `.0` leaves something. -/
theorem Written.dropPointZero (h : Written cs) :
    Token.dropPointZero cs ≠ [] ∧ ∀ c ∈ Token.dropPointZero cs, Decimal.isWritten c = true := by
  obtain ⟨⟨c, hc, hpoint⟩, hall⟩ := h
  rcases dropPointZero_cases cs with ⟨front, rfl, hdrop⟩ | hdrop
  · rw [hdrop]
    refine ⟨?_, (List.forall_mem_append.1 hall).1⟩
    rintro rfl
    exact hpoint (Option.some.inj hc).symm
  · rw [hdrop]
    refine ⟨?_, hall⟩
    rintro rfl
    cases hc

end Decimal

namespace Token

variable {t : Token} {ts front back : List Token} {k column : Nat}
  {text rest gap before after : List Char}

/-- So the lexeme of a number has no blanks in it. -/
theorem compact_number (x : Float) : (number x).Compact := by
  obtain ⟨hne, hall⟩ := (Decimal.written_text x).dropPointZero
  exact compact_of_forall String.toList_ofList hne hall
    (fun _ ↦ Decimal.isBlank_eq_false_of_isWritten) (by decide) (by decide)

/-- What the lexer reads is compact. -/
theorem Lexeme.compact (h : Lexeme text rest t) : t.Compact := by
  match h with
  | .numeral .. =>
    split
    · exact compact_number _
    · exact legible_illegal.compact
  | .word hne hall _ => exact (legible_word hne hall).compact
  | .equal => exact compact_of_symbol _ (List.mem_cons_of_mem _ List.mem_cons_self)
  | .symbol hlayout hdigit hletter _ => exact (legible_symbol hlayout hdigit hletter).compact

/-- The tokens of a line are compact, but for its end. -/
theorem compact_of_mem_tokenize {line : String} (h : t ∈ tokenize line) (hne : t ≠ eof) :
    t.Compact := by
  obtain ⟨parts, rest, hcuts⟩ := exists_cuts line.toList
  rw [tokenize_eq_scanAll, hcuts.scanAll_eq] at h
  obtain ⟨p, hp, rfl⟩ := List.mem_map.1 h
  obtain ⟨later, hlexeme⟩ := hcuts.exists_lexeme hp hne
  exact hlexeme.compact

/-- The end of a line comes last. -/
theorem eof_notMem_of_tokenize {line : String} (h : tokenize line = front ++ t :: back) :
    eof ∉ front :=
  fun hmem ↦ Bool.false_ne_true (isLast_eq_false_of_tokenize h _ hmem).symm

/-! ### Texts that show tokens -/

/-- The text consists of the lexemes of the tokens, in their order, and of blanks before, between
and behind them. -/
inductive Shows : List Token → List Char → Prop where
  | nil {gap : List Char} (hgap : ∀ c ∈ gap, Text.isBlank c = true) : Shows [] gap
  | cons {gap rest : List Char} {ts : List Token} (hgap : ∀ c ∈ gap, Text.isBlank c = true)
    (t : Token) (h : Shows ts rest) : Shows (t :: ts) (gap ++ (t.lexeme.toList ++ rest))

theorem no_blank : ∀ c ∈ ([] : List Char), Text.isBlank c = true := by
  simp

/-- Blanks in front do not matter for what is shown. -/
theorem Shows.blank_append (hgap : ∀ c ∈ gap, Text.isBlank c = true) (h : Shows ts text) :
    Shows ts (gap ++ text) := by
  cases h with
  | nil hgap' => exact .nil (List.forall_mem_append.2 ⟨hgap, hgap'⟩)
  | cons hgap' t h =>
    rw [← List.append_assoc]
    exact .cons (List.forall_mem_append.2 ⟨hgap, hgap'⟩) t h

/-- Nor do blanks behind. -/
theorem Shows.append_blank (h : Shows ts text) (hgap : ∀ c ∈ gap, Text.isBlank c = true) :
    Shows ts (text ++ gap) := by
  induction h with
  | nil hgap' => exact .nil (List.forall_mem_append.2 ⟨hgap', hgap⟩)
  | cons hgap' t _ ih =>
    rw [List.append_assoc, List.append_assoc]
    exact .cons hgap' t ih

/-- What shows the other tokens shows the end of the line as well. -/
theorem Shows.of_filter (h : Shows (ts.filter fun t ↦ t.kind ≠ .eof) text) : Shows ts text := by
  induction ts generalizing text with
  | nil => exact h
  | cons t ts ih =>
    by_cases ht : t.kind = .eof
    · rw [List.filter_cons_of_neg (by simp [ht])] at h
      rw [kind_eq_eof_iff.1 ht]
      exact .cons no_blank eof (ih h)
    · rw [List.filter_cons_of_pos (by simp [ht])] at h
      cases h with
      | cons hgap _ h => exact .cons hgap t (ih h)

/-- In a text that shows the tokens, the lexeme of the token at `k` starts at `column`. -/
def StartsAt (ts : List Token) (text : List Char) (k column : Nat) : Prop :=
  ∃ front t back before after, ts = front ++ t :: back ∧ front.length = k ∧
    text = before ++ (t.lexeme.toList ++ after) ∧ before.length = column ∧
    Shows front before ∧ Shows back after

/-! ### Columns are unique -/

/-- A lexeme ends every run of blanks before it. -/
theorem Compact.endsRun (h : t.Compact) (rest : List Char) :
    EndsRun Text.isBlank (t.lexeme.toList ++ rest) := by
  intro c hc
  obtain ⟨d, ds, hds⟩ := List.exists_cons_of_ne_nil h.ne_nil
  rw [hds] at hc
  obtain rfl : d = c := Option.some.inj hc
  exact h.not_blank d (hds ▸ List.mem_cons_self)

/-- Blanks in front are cut off in one way only. -/
theorem append_inj_of_endsRun {gap' rest' : List Char} (hgap : ∀ c ∈ gap, Text.isBlank c = true)
    (hgap' : ∀ c ∈ gap', Text.isBlank c = true) (hrest : EndsRun Text.isBlank rest)
    (hrest' : EndsRun Text.isBlank rest') (heq : gap ++ rest = gap' ++ rest') :
    gap = gap' ∧ rest = rest' := by
  have htake := takeWhile_append_of_endsRun hgap hrest
  rw [heq, takeWhile_append_of_endsRun hgap' hrest'] at htake
  subst htake
  exact ⟨rfl, List.append_cancel_left heq⟩

/-- **A text shows tokens in one way only**: where the text behind is the same, so is the text
before. -/
theorem Shows.eq_of_append {before' after' : List Char} (h : Shows ts before)
    (h' : Shows ts before') (hts : ∀ t ∈ ts, t.Compact) (hafter : EndsRun Text.isBlank after)
    (hafter' : EndsRun Text.isBlank after') (heq : before ++ after = before' ++ after') :
    before = before' := by
  induction h generalizing before' with
  | nil hgap =>
    cases h' with
    | nil hgap' => exact (append_inj_of_endsRun hgap hgap' hafter hafter' heq).1
  | cons hgap t _ ih =>
    cases h' with
    | cons hgap' _ h' =>
      obtain ⟨ht, hts⟩ := List.forall_mem_cons.1 hts
      rw [List.append_assoc, List.append_assoc, List.append_assoc, List.append_assoc] at heq
      obtain ⟨rfl, hlater⟩ :=
        append_inj_of_endsRun hgap hgap' (ht.endsRun _) (ht.endsRun _) heq
      rw [ih h' hts (List.append_cancel_left hlater)]

/-- **A token starts at one column only**, where it and those before it are compact. -/
theorem StartsAt.unique {column' : Nat} (h : StartsAt ts text k column)
    (h' : StartsAt ts text k column') (hcompact : ∀ t ∈ ts.take (k + 1), t.Compact) :
    column = column' := by
  obtain ⟨front, t, back, before, after, rfl, rfl, rfl, rfl, hbefore, -⟩ := h
  obtain ⟨front', t', back', before', after', hts, hlength, htext, rfl, hbefore', -⟩ := h'
  obtain ⟨rfl, hback⟩ := List.append_inj hts hlength.symm
  obtain ⟨rfl, -⟩ := List.cons.inj hback
  rw [List.take_length_add_append, List.take_succ_cons, List.take_zero, List.forall_mem_append,
    List.forall_mem_singleton] at hcompact
  rw [hbefore.eq_of_append hbefore' hcompact.1 (hcompact.2.endsRun _) (hcompact.2.endsRun _) htext]

/-! ### The columns of a printed line -/

/-- What is printed between a row of tokens and the next one. -/
def gapAfter (front : List Token) (t : Token) : List Char :=
  front.getLast?.elim [] (gapBetween · t)

theorem isBlank_of_mem_gapAfter {c : Char} (h : c ∈ gapAfter front t) : Text.isBlank c = true := by
  rw [gapAfter] at h
  rcases hlast : front.getLast? with - | u
  · rw [hlast] at h
    cases h
  · rw [hlast] at h
    exact isBlank_of_isLayout (isLayout_of_mem_gapBetween h)

/-- A line that is printed up to a token, and from it on. -/
theorem spacedBy_append_cons (front : List Token) (t : Token) (back : List Token) :
    spacedBy gapBetween (front ++ t :: back) =
      spacedBy gapBetween front ++ gapAfter front t ++ spacedBy gapBetween (t :: back) := by
  induction front with
  | nil => rfl
  | cons u front ih =>
    match front with
    | [] => rfl
    | v :: front =>
      rw [List.cons_append, List.cons_append, spacedBy, ← List.cons_append, ih, spacedBy,
        gapAfter, gapAfter, List.getLast?_cons_cons]
      simp only [List.append_assoc]

/-- **A printed line shows its tokens.** -/
theorem shows_spacedBy (h : ∀ t ∈ ts, t.Compact) : Shows ts (spacedBy gapBetween ts) := by
  induction ts with
  | nil => exact .nil (by simp [spacedBy])
  | cons t ts ih =>
    obtain ⟨-, hts⟩ := List.forall_mem_cons.1 h
    obtain ⟨gap, hgap, hspaced, -⟩ := spacedBy_cons hts t
    rw [hspaced]
    exact .cons no_blank t
      ((ih hts).blank_append fun c hc ↦ isBlank_of_isLayout (hgap c hc))

/-- **The column of a token in a printed line.** -/
theorem startsAt_untokenize (hcompact : ∀ u ∈ front ++ t :: back, u ≠ eof → u.Compact)
    (hfront : eof ∉ front) (ht : t ≠ eof) :
    StartsAt (front ++ t :: back) (untokenize (front ++ t :: back)).toList front.length
      ((untokenize front).toList ++ gapAfter front t).length := by
  obtain ⟨hcompact_front, hcompact_back⟩ := List.forall_mem_append.1 hcompact
  have hkeep : (front.filter fun u ↦ u.kind ≠ .eof) = front :=
    List.filter_eq_self.2 fun u hu ↦ decide_eq_true fun hkind ↦
      hfront (kind_eq_eof_iff.1 hkind ▸ hu)
  have hback := compact_of_mem_filter (List.forall_mem_cons.1 hcompact_back).2
  obtain ⟨gap, hgap, hspaced, -⟩ := spacedBy_cons hback t
  have hprinted := toList_untokenize hcompact
  rw [List.filter_append, hkeep, List.filter_cons_of_pos (by simp [kind_eq_eof_iff, ht]),
    spacedBy_append_cons, hspaced] at hprinted
  rw [toList_untokenize hcompact_front, hkeep]
  refine ⟨front, t, back, _, _, rfl, rfl, hprinted, rfl, ?_, ?_⟩
  · refine (shows_spacedBy fun u hu ↦ hcompact_front u hu ?_).append_blank
      fun c ↦ isBlank_of_mem_gapAfter
    rintro rfl
    exact hfront hu
  · exact ((shows_spacedBy hback).blank_append fun c hc ↦ isBlank_of_isLayout (hgap c hc)).of_filter

/-- The same for the tokens of a line, where it is the only column. -/
theorem startsAt_tokenize_iff {line : String} (hsplit : tokenize line = front ++ t :: back)
    (ht : t ≠ eof) :
    StartsAt (tokenize line) (untokenize (tokenize line)).toList front.length column ↔
      column = ((untokenize front).toList ++ gapAfter front t).length := by
  have hfront := eof_notMem_of_tokenize hsplit
  have hcompact : ∀ u ∈ tokenize line, u ≠ eof → u.Compact := fun u ↦ compact_of_mem_tokenize
  rw [hsplit] at hcompact ⊢
  have hstarts := startsAt_untokenize hcompact hfront ht
  constructor
  · intro h
    refine h.unique hstarts ?_
    rw [List.take_length_add_append, List.take_succ_cons, List.take_zero]
    rw [List.forall_mem_append] at hcompact ⊢
    refine ⟨fun u hu ↦ hcompact.1 u hu fun heof ↦ hfront (heof ▸ hu), ?_⟩
    exact List.forall_mem_singleton.2 (hcompact.2 t List.mem_cons_self ht)
  · intro h
    rwa [h]

end Token

end Reckoner
