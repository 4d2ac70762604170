import Reckoner.Proofs.Munch
import Reckoner.Proofs.Spacing
import Reckoner.Proofs.Spelling

/-!
# A printed line is read as the tokens it was printed from

Printing changes the text of a line: its layout, the digits of its numbers, and whatever stands for
no token, which becomes a question mark. It does not change the tokens (`tokenize_untokenize`), as
long as the numbers are written without an exponent.

Each token that the lexer produces is *legible*: its lexeme is read as the token again, if there is
a space or a closing parenthesis behind it, or nothing at all (`Lexeme.legible`). The opening
parenthesis is read whatever is behind it, so that it needs no space.
-/

namespace Reckoner

namespace Token

variable {t : Token} {ts : List Token} {text rest : List Char}

/-! ### Legible tokens -/

/-- A text that is empty or begins with a space or a closing parenthesis. -/
def Stops (rest : List Char) : Prop :=
  ∀ c ∈ rest.head?, c = ' ' ∨ c = ')'

theorem Stops.endsRun (h : Stops rest) {p : Char → Bool} (hspace : p ' ' = false)
    (hclosing : p ')' = false) : EndsRun p rest := by
  intro c hc
  rcases h c hc with rfl | rfl
  · exact hspace
  · exact hclosing

/-- The lexeme of the token is read as the token again. -/
structure Legible (t : Token) : Prop where
  compact : t.Compact
  reads {rest : List Char} (h : t = lparen ∨ Stops rest) : Lexeme t.lexeme.toList rest t

/-- The tokens of single characters, and the one for what is no token. -/
theorem compact_of_symbol : ∀ t ∈ illegal :: equal :: symbols.map Prod.snd, t.Compact := by
  have hall : ∀ t ∈ illegal :: equal :: symbols.map Prod.snd, t.lexeme.toList ≠ [] ∧
      t.lexeme.toList.all (!Text.isBlank ·) = true ∧ ('(' ∈ t.lexeme.toList → t = lparen) ∧
      (')' ∈ t.lexeme.toList → t = rparen) := by
    decide +kernel
  intro t ht
  obtain ⟨hne, hblank, hopening, hclosing⟩ := hall t ht
  exact ⟨hne, fun c hc ↦ Bool.not_eq_true' _ ▸ List.all_eq_true.1 hblank c hc, hopening, hclosing⟩

/-- A question mark stands for no token, and is read as such. -/
theorem legible_illegal : illegal.Legible := by
  refine ⟨compact_of_symbol _ List.mem_cons_self, fun {rest} _ ↦ ?_⟩
  have hlexeme : Lexeme ['?'] rest ((symbols.lookup '?').getD illegal) :=
    .symbol (by decide) (by decide +kernel) (by decide +kernel) (fun h ↦ absurd h (by decide))
  exact hlexeme

/-- A lexeme of characters that are neither blanks nor parentheses makes a compact token. -/
theorem compact_of_forall {p : Char → Bool} (htext : t.lexeme.toList = text) (hne : text ≠ [])
    (hall : ∀ c ∈ text, p c = true) (hblank : ∀ c, p c = true → Text.isBlank c = false)
    (hopening : p '(' = false) (hclosing : p ')' = false) : t.Compact := by
  subst htext
  refine ⟨hne, fun c hc ↦ hblank c (hall c hc), fun hmem ↦ ?_, fun hmem ↦ ?_⟩
  · exact nomatch hopening.symm.trans (hall _ hmem)
  · exact nomatch hclosing.symm.trans (hall _ hmem)

/-- Words have no blanks in them. -/
theorem isBlank_eq_false_of_isLetter {c : Char} (h : Text.isLetter c = true) :
    Text.isBlank c = false := by
  by_contra hblank
  exact nomatch (Text.not_isLetter_of_isBlank (Bool.not_eq_false _ ▸ hblank)).symm.trans h

/-- Nor have numerals. -/
theorem isBlank_eq_false_of_inNumeral {c : Char} (h : inNumeral c = true) :
    Text.isBlank c = false := by
  rw [inNumeral, Bool.or_eq_true, decide_eq_true_eq] at h
  rcases h with hdigit | rfl
  · by_contra hblank
    have hnone := Text.not_isDigit_of_isBlank (Bool.not_eq_false _ ▸ hblank)
    exact Bool.false_ne_true (hnone.symm.trans hdigit)
  · decide

/-! ### The tokens of lexemes are legible -/

/-- A word is printed as it was read. -/
theorem lexeme_ofWord (cs : List Char) : (ofWord cs).lexeme.toList = cs := by
  unfold ofWord
  split_ifs with hif hthen helse
  · rw [hif]
    rfl
  · rw [hthen]
    rfl
  · rw [helse]
    rfl
  · exact String.toList_ofList

/-- **Words are legible**: keywords and names alike. -/
theorem legible_word (hne : text ≠ []) (hall : ∀ c ∈ text, Text.isLetter c = true) :
    ((keywords.lookup (String.ofList text)).getD (identifier (String.ofList text))).Legible := by
  have htext := lexeme_ofWord text
  rw [ofWord_eq] at htext
  have hstop :
      Text.isLetter ' ' = false ∧ Text.isLetter ')' = false ∧ Text.isLetter '(' = false := by
    decide +kernel
  refine ⟨compact_of_forall htext hne hall (fun _ ↦ isBlank_eq_false_of_isLetter) hstop.2.2
    hstop.2.1, fun {rest} h ↦ ?_⟩
  have hend : EndsRun Text.isLetter rest := by
    refine h.elim (fun heq ↦ ?_) fun hstops ↦ hstops.endsRun hstop.1 hstop.2.1
    -- a run of letters is no parenthesis
    rw [heq] at htext
    rw [← htext] at hall
    exact nomatch hstop.2.2.symm.trans (hall '(' List.mem_cons_self)
  rw [htext]
  exact .word hne hall hend

/-- A symbol is printed as its character. -/
theorem lexeme_of_symbol : ∀ p ∈ symbols, p.2.lexeme.toList = [p.1] := by
  decide +kernel

/-- **So are symbols**, and what is not one. -/
theorem legible_symbol {c : Char} (hlayout : isLayout c = false) (hdigit : Text.isDigit c = false)
    (hletter : Text.isLetter c = false) : ((symbols.lookup c).getD illegal).Legible := by
  rcases hlookup : symbols.lookup c with - | u
  · exact legible_illegal
  · obtain ⟨front, back, hsplit, -⟩ := List.lookup_eq_some_iff.1 hlookup
    have hmem : (c, u) ∈ symbols := by simp [hsplit]
    have htext : u.lexeme.toList = [c] := lexeme_of_symbol _ hmem
    have hcompact : u.Compact :=
      compact_of_symbol u (List.mem_cons_of_mem _ (List.mem_cons_of_mem _
        (List.mem_map_of_mem hmem)))
    refine ⟨hcompact, fun {rest} h ↦ ?_⟩
    have hequal : c = '=' → rest.head? ≠ some '=' := by
      rintro rfl hhead
      rcases h with hopening | hstops
      · rw [Option.getD_some] at hopening
        rw [hopening] at htext
        exact absurd htext (by decide +kernel)
      · exact absurd (hstops _ hhead) (by decide)
    have hlexeme := Lexeme.symbol hlayout hdigit hletter hequal
    rw [hlookup] at hlexeme
    rwa [Option.getD_some, htext]

/-- The value of a numeral comes from the bits of a double that is no less than zero. -/
theorem exists_bits (cs : List Char) :
    ∃ bits ≤ Decimal.infinityBits, Decimal.numeralValue cs = Float.ofBits (UInt64.ofNat bits) := by
  refine ⟨_, ?_, Decimal.numeralValue_eq cs⟩
  rw [Decimal.nearestBits]
  split
  · exact Nat.zero_le _
  · exact Nat.min_le_left _ _

/-- **And numbers**, if they are printed without an exponent. -/
theorem legible_number (cs : List Char)
    (hplain : ∀ c ∈ (number (Decimal.numeralValue cs)).lexeme.toList,
      c = '.' ∨ (Text.decimalDigit? c).isSome = true) :
    (number (Decimal.numeralValue cs)).Legible := by
  obtain ⟨bits, hbits, hvalue⟩ := exists_bits cs
  rw [hvalue] at hplain ⊢
  obtain ⟨q, hwrites, hback⟩ := Decimal.exists_writes_lexeme hbits hplain
  have hall : ∀ c ∈ (number (Float.ofBits (UInt64.ofNat bits))).lexeme.toList,
      inNumeral c = true := by
    intro c hc
    rcases hplain c hc with rfl | hdigit
    · rfl
    · exact inNumeral_of_isDigit (Text.isDigit_of_isSome hdigit)
  have hne : (number (Float.ofBits (UInt64.ofNat bits))).lexeme.toList ≠ [] := by
    intro hnil
    obtain ⟨c, hc, -⟩ := hwrites.head
    rw [hnil] at hc
    exact nomatch hc
  refine ⟨compact_of_forall rfl hne hall (fun _ ↦ isBlank_eq_false_of_inNumeral) (by decide +kernel)
    (by decide +kernel), fun {rest} h ↦ ?_⟩
  have hend : EndsRun inNumeral rest :=
    (h.resolve_left nofun).endsRun (by decide +kernel) (by decide +kernel)
  have hlexeme := Lexeme.numeral hwrites.head hall hend
  rwa [if_pos hwrites.isNumeral, hback] at hlexeme

/-- **What the lexer reads is legible**, if numbers are written without an exponent. -/
theorem Lexeme.legible (h : Lexeme text rest t)
    (hnumber : ∀ x, t = number x → ∀ c ∈ (number x).lexeme.toList,
      c = '.' ∨ (Text.decimalDigit? c).isSome = true) : t.Legible := by
  match h with
  | .numeral .. =>
    split
    case isTrue hnumeral => exact legible_number text (hnumber _ (if_pos hnumeral))
    case isFalse => exact legible_illegal
  | .word hne hall _ => exact legible_word hne hall
  | .equal =>
    exact ⟨compact_of_symbol _ (List.mem_cons_of_mem _ List.mem_cons_self), fun _ ↦ .equal⟩
  | .symbol hlayout hdigit hletter _ => exact legible_symbol hlayout hdigit hletter

/-! ### Reading a printed line -/

theorem isLayout_of_mem_gapBetween {u : Token} {c : Char} (h : c ∈ gapBetween t u) :
    isLayout c = true := by
  rw [gapBetween] at h
  split at h
  · exact absurd h List.not_mem_nil
  · rw [List.mem_singleton.1 h]
    decide

/-- Behind each lexeme of a printed line there is what it needs to be read. -/
theorem spacedBy_cons (h : ∀ u ∈ ts, u.Compact) (t : Token) :
    ∃ gap, (∀ c ∈ gap, isLayout c = true) ∧
      spacedBy gapBetween (t :: ts) = t.lexeme.toList ++ (gap ++ spacedBy gapBetween ts) ∧
      (t = lparen ∨ Stops (gap ++ spacedBy gapBetween ts)) := by
  match ts with
  | [] => exact ⟨[], by simp, by simp [spacedBy], .inr (by simp [Stops, spacedBy])⟩
  | u :: ts =>
    refine ⟨gapBetween t u, fun c ↦ isLayout_of_mem_gapBetween, List.append_assoc _ _ _, ?_⟩
    by_cases hopening : t = lparen
    · exact .inl hopening
    refine .inr fun c hc ↦ ?_
    by_cases hclosing : u = rparen
    · right
      rw [gapBetween, if_pos (.inr hclosing), List.nil_append,
        ((List.forall_mem_cons.1 h).1.head?_spacedBy _ _).2 hclosing] at hc
      exact (Option.some.inj hc).symm
    · left
      rw [gapBetween, if_neg (by simp [hopening, hclosing])] at hc
      exact (Option.some.inj hc).symm

/-- **Legible tokens are read from the line that they are printed as.** The line ends with the last
of them, or with what stands for no token. -/
theorem scanAll_spacedBy {tail : List Token} {last : Token}
    (htail : tail = [] ∧ last = eof ∨ tail = [illegal] ∧ last = illegal)
    (h : ∀ t ∈ ts, t.Legible ∧ t.isLast = false) {gap : List Char}
    (hgap : ∀ c ∈ gap, isLayout c = true) :
    (scanAll (gap ++ spacedBy gapBetween (ts ++ tail))).1 = ts ++ [last] := by
  induction ts generalizing gap with
  | nil =>
    rcases htail with ⟨rfl, rfl⟩ | ⟨rfl, rfl⟩
    · have hscan : scan (gap ++ spacedBy gapBetween ([] ++ [])) = (eof, []) :=
        scan_of_layout (by simpa [spacedBy] using hgap)
      rw [scanAll_of_isLast (by rw [hscan]; rfl), hscan]
      rfl
    · have hlexeme : Lexeme illegal.lexeme.toList [] illegal :=
        legible_illegal.reads (.inr (by simp [Stops]))
      have hscan : scan (gap ++ spacedBy gapBetween ([] ++ [illegal])) = (illegal, []) := by
        have hstep := scan_of_lexeme hgap hlexeme
        rwa [List.append_nil] at hstep
      rw [scanAll_of_isLast (by rw [hscan]; rfl), hscan]
      rfl
  | cons t ts ih =>
    obtain ⟨⟨ht, hlast⟩, hts⟩ := List.forall_mem_cons.1 h
    have hcompact : ∀ u ∈ ts ++ tail, u.Compact := by
      intro u hu
      rcases List.mem_append.1 hu with hu | hu
      · exact (hts u hu).1.compact
      · rcases htail with ⟨rfl, -⟩ | ⟨rfl, -⟩
        · exact absurd hu List.not_mem_nil
        · exact List.mem_singleton.1 hu ▸ legible_illegal.compact
    obtain ⟨gap', hgap', hspaced, hstops⟩ := spacedBy_cons hcompact t
    have hscan := scan_of_lexeme hgap (ht.reads hstops)
    rw [List.append_assoc, ← hspaced] at hscan
    rw [List.cons_append, scanAll_of_not_isLast (by rw [hscan, hlast]; exact Bool.false_ne_true),
      hscan, ih hts hgap']
    rfl

end Token

open Token in
/-- **Printing the tokens of a line and reading them again gives the same tokens**, also if the line
has a piece in it that is no token. The one thing that is asked for is that the numbers of the line
are printed with decimal digits and points alone, not with an exponent or as infinity. -/
theorem tokenize_untokenize (line : String)
    (h : ∀ x, .number x ∈ tokenize line → ∀ c ∈ (Token.number x).lexeme.toList,
      c = '.' ∨ (Text.decimalDigit? c).isSome = true) :
    tokenize (untokenize (tokenize line)) = tokenize line := by
  obtain ⟨parts, rest, hcuts⟩ := exists_cuts line.toList
  have htokens : tokenize line = parts.map Part.token := by
    rw [tokenize_eq_scanAll, hcuts.scanAll_eq]
  have hlegible : ∀ t ∈ tokenize line, t ≠ eof → t.Legible := by
    intro t ht hne
    obtain ⟨p, hp, rfl⟩ := List.mem_map.1 (htokens ▸ ht)
    obtain ⟨later, hlexeme⟩ := hcuts.exists_lexeme hp hne
    exact hlexeme.legible fun x hx ↦ h x (hx ▸ ht)
  have hprinted := toList_untokenize fun t ht hne ↦ (hlegible t ht hne).compact
  obtain ⟨front, last, rfl, hfront, hlast⟩ := hcuts.exists_last
  rw [List.map_append, List.map_singleton] at htokens
  -- only the end of the line is left out in print, and it comes last
  obtain ⟨tail, htail, hfilter⟩ : ∃ tail,
      (tail = [] ∧ last.token = eof ∨ tail = [illegal] ∧ last.token = illegal) ∧
      ((tokenize line).filter fun t ↦ t.kind ≠ .eof) = front.map Part.token ++ tail := by
    have hkeep : ((front.map Part.token).filter fun t ↦ t.kind ≠ .eof) = front.map Part.token := by
      refine List.filter_eq_self.2 fun t ht ↦ ?_
      obtain ⟨p, hp, rfl⟩ := List.mem_map.1 ht
      exact decide_eq_true (mt kind_eq_eof_iff.1 (hfront p hp).1)
    rw [htokens, List.filter_append, hkeep]
    rcases hlast with ⟨heof, -⟩ | ⟨hillegal, -⟩
    · exact ⟨[], .inl ⟨rfl, heof⟩, by rw [heof]; rfl⟩
    · exact ⟨[illegal], .inr ⟨rfl, hillegal⟩, by rw [hillegal]; rfl⟩
  have hfront : ∀ t ∈ front.map Part.token, t.Legible ∧ t.isLast = false := by
    intro t ht
    obtain ⟨p, hp, rfl⟩ := List.mem_map.1 ht
    refine ⟨hlegible _ ?_ (hfront p hp).1, ?_⟩
    · rw [htokens]
      exact List.mem_append_left _ ht
    · rw [← Bool.not_eq_true, isLast_iff, not_or]
      exact hfront p hp
  have hread := scanAll_spacedBy htail hfront (show ∀ c ∈ [], isLayout c = true by simp)
  rw [List.nil_append, ← hfilter, ← hprinted, ← htokens] at hread
  rwa [tokenize_eq_scanAll]

theorem tokenize_untokenize_illegal :
    let line := "if(a == b)then 2.50else( 0.1)$ 4"
    (∀ x, .number x ∈ tokenize line → ∀ c ∈ (Token.number x).lexeme.toList,
      c = '.' ∨ (Text.decimalDigit? c).isSome = true) ∧
      untokenize (tokenize line) = "if (a == b) then 2.5 else (0.1) ?" ∧
      tokenize (untokenize (tokenize line)) = tokenize line := by
  intro line
  have hnumbers : ∀ t ∈ tokenize line, t.kind = .number →
      t.lexeme.toList.all (fun c ↦ c = '.' ∨ (Text.decimalDigit? c).isSome = true) = true := by
    decide +kernel
  have hplain : ∀ x, .number x ∈ tokenize line → ∀ c ∈ (Token.number x).lexeme.toList,
      c = '.' ∨ (Text.decimalDigit? c).isSome = true :=
    fun x hx c hc ↦ of_decide_eq_true (List.all_eq_true.1 (hnumbers _ hx rfl) c hc)
  exact ⟨hplain, by decide +kernel, tokenize_untokenize line hplain⟩

end Reckoner
