import Reckoner.Proofs.Numerals
import Reckoner.Proofs.Scanning

/-!
# The longest lexemes

A line is cut into lexemes with layout between them. What a lexeme is says the relation
`Token.Lexeme text rest t`, without a word about scanning: the characters `text`, with `rest` behind
them, are a lexeme that stands for the token `t`. What is behind matters, since a run of digits or
of letters is a lexeme only if it cannot be continued, and a single `=` only if no other one
follows.

`Token.Cuts` puts lexemes together to a cut of a line: it ends with the line, or right behind the
first lexeme that stands for no token. A line has one cut (`Cuts.unique`), and the lexer finds it:
each lexeme is what one step of the lexer reads (`scan_of_lexeme`, `scan_cases`).
-/

namespace Reckoner

namespace Token

/-! ### Lexemes -/

/-- A text does not begin with a character of the class. -/
def EndsRun (p : Char → Bool) (rest : List Char) : Prop :=
  ∀ c ∈ rest.head?, p c = false

/-- The words of the language. -/
def keywords : List (String × Token) :=
  [("if", ifWord), ("then", thenWord), ("else", elseWord)]

/-- The characters that are tokens of their own. -/
def symbols : List (Char × Token) :=
  [('+', plus), ('-', minus), ('*', star), ('/', slash), ('(', lparen), (')', rparen), ('<', less),
    ('>', greater), ('=', assign)]

/-- The characters `text`, with `rest` behind them, are a lexeme that stands for a token. -/
inductive Lexeme : (text rest : List Char) → Token → Prop where
  /-- A run of digits and points that begins with a digit. It is a number if its digits are all
  decimal and it has at most one point. -/
  | numeral {text rest : List Char} (hhead : ∃ c ∈ text.head?, Text.isDigit c = true)
    (hall : ∀ c ∈ text, inNumeral c = true) (hend : EndsRun inNumeral rest) :
    Lexeme text rest
      (if Decimal.IsNumeral text then number (Decimal.numeralValue text) else illegal)
  /-- A run of letters: a word of the language, or a name. -/
  | word {text rest : List Char} (hne : text ≠ []) (hall : ∀ c ∈ text, Text.isLetter c = true)
    (hend : EndsRun Text.isLetter rest) :
    Lexeme text rest
      ((keywords.lookup (String.ofList text)).getD (identifier (String.ofList text)))
  | equal {rest : List Char} : Lexeme ['=', '='] rest equal
  /-- Any other single character. -/
  | symbol {c : Char} {rest : List Char} (hlayout : isLayout c = false)
    (hdigit : Text.isDigit c = false) (hletter : Text.isLetter c = false)
    (hequal : c = '=' → rest.head? ≠ some '=') :
    Lexeme [c] rest ((symbols.lookup c).getD illegal)

/-- A word is a keyword or else a name. -/
theorem ofWord_eq (cs : List Char) :
    ofWord cs = (keywords.lookup (String.ofList cs)).getD (identifier (String.ofList cs)) := by
  have hkeyword (w : List Char) : (String.ofList cs == String.ofList w) = decide (cs = w) := by
    rw [beq_eq_decide, decide_eq_decide, String.ofList_inj]
  simp only [ofWord, keywords, List.lookup_cons, List.lookup_nil]
  rw [show "if" = String.ofList ['i', 'f'] from rfl, hkeyword,
    show "then" = String.ofList ['t', 'h', 'e', 'n'] from rfl, hkeyword,
    show "else" = String.ofList ['e', 'l', 's', 'e'] from rfl, hkeyword]
  by_cases hif : cs = ['i', 'f']
  · simp [hif]
  by_cases hthen : cs = ['t', 'h', 'e', 'n']
  · simp [hthen]
  by_cases helse : cs = ['e', 'l', 's', 'e']
  · simp [helse]
  · simp [hif, hthen, helse]

/-- A symbol is one of the table or else illegal. -/
theorem ofSymbol_eq (c : Char) : ofSymbol c = (symbols.lookup c).getD illegal := by
  unfold ofSymbol
  split
  case h_10 =>
    have hnone : symbols.lookup c = none := by
      rw [List.lookup_eq_none_iff]
      simp only [symbols, List.forall_mem_cons, bne_iff_ne]
      exact ⟨‹_›, ‹_›, ‹_›, ‹_›, ‹_›, ‹_›, ‹_›, ‹_›, ‹_›, nofun⟩
    rw [hnone, Option.getD_none]
  all_goals rfl

/-! ### Reading one lexeme -/

section Run

variable {p : Char → Bool} {text rest : List Char}

/-- A run is what is taken, and what is behind it is what is left. -/
theorem takeWhile_append_of_endsRun (hall : ∀ c ∈ text, p c = true) (hend : EndsRun p rest) :
    (text ++ rest).takeWhile p = text := by
  rw [List.takeWhile_append_of_pos hall]
  rcases rest with - | ⟨c, rest⟩
  · simp
  · simp [hend c rfl]

/-- A run is dropped up to where it ends. -/
theorem dropWhile_append_of_endsRun (hall : ∀ c ∈ text, p c = true) (hend : EndsRun p rest) :
    (text ++ rest).dropWhile p = rest := by
  rw [List.dropWhile_append_of_pos hall]
  rcases rest with - | ⟨c, rest⟩
  · rfl
  · rw [List.dropWhile_cons_of_neg (by simp [hend c rfl])]

/-- What is left behind a run does not continue it. -/
theorem endsRun_dropWhile (p : Char → Bool) (cs : List Char) : EndsRun p (cs.dropWhile p) := by
  intro c hc
  have h := List.head?_dropWhile_not p cs
  rw [Option.mem_def.1 hc] at h
  simpa using h

end Run

theorem isBlank_of_isLayout {c : Char} (h : isLayout c = true) : Text.isBlank c = true := by
  simp only [isLayout, Bool.or_eq_true, decide_eq_true_eq] at h
  rcases h with (rfl | rfl) | rfl <;> decide

theorem isLayout_eq_false_of_isDigit {c : Char} (h : Text.isDigit c = true) :
    isLayout c = false := by
  by_contra hlayout
  have hnot := Text.not_isDigit_of_isBlank (isBlank_of_isLayout (Bool.not_eq_false _ ▸ hlayout))
  exact nomatch hnot.symm.trans h

theorem isLayout_eq_false_of_isLetter {c : Char} (h : Text.isLetter c = true) :
    isLayout c = false := by
  by_contra hlayout
  have hnot := Text.not_isLetter_of_isBlank (isBlank_of_isLayout (Bool.not_eq_false _ ▸ hlayout))
  exact nomatch hnot.symm.trans h

theorem isDigit_eq_false_of_isLetter {c : Char} (h : Text.isLetter c = true) :
    Text.isDigit c = false := by
  by_contra hdigit
  exact nomatch (Text.not_isLetter_of_isDigit (Bool.not_eq_false _ ▸ hdigit)).symm.trans h

variable {c : Char} {text rest cs : List Char} {t : Token}

/-- A run that begins with a digit is a number, or illegal if it is no numeral. -/
theorem ofNumeral_eq (hhead : ∃ c ∈ text.head?, Text.isDigit c = true) :
    ofNumeral text =
      if Decimal.IsNumeral text then number (Decimal.numeralValue text) else illegal := by
  obtain ⟨c, hc, hdigit⟩ := hhead
  have hpoint : text.head? ≠ some '.' := by
    intro hpoint
    obtain rfl : '.' = c := Option.some.inj (hpoint.symm.trans hc)
    exact absurd hdigit (by decide)
  rw [ofNumeral, Decimal.numeral?_eq hpoint fun hnil ↦ by simp [hnil] at hc]
  by_cases h : Decimal.IsNumeral text
  · rw [if_pos h, if_pos h]
  · rw [if_neg h, if_neg h]

/-- At a digit the longest run of digits and points is taken. -/
theorem scanFrom_digit (h : Text.isDigit c = true) (cs : List Char) :
    scanFrom c cs = (ofNumeral (c :: cs.takeWhile inNumeral), cs.dropWhile inNumeral) := by
  unfold scanFrom
  rw [if_pos h]

/-- At a letter the longest word is taken. -/
theorem scanFrom_letter (h : Text.isLetter c = true) (cs : List Char) :
    scanFrom c cs = (ofWord (c :: cs.takeWhile Text.isLetter), cs.dropWhile Text.isLetter) := by
  unfold scanFrom
  rw [if_neg (by simp [isDigit_eq_false_of_isLetter h]), if_pos h]

theorem scanFrom_equal (cs : List Char) : scanFrom '=' ('=' :: cs) = (equal, cs) := by
  unfold scanFrom
  rw [if_neg (by decide +kernel), if_neg (by decide +kernel)]
  rfl

/-- Everything else is a single character. -/
theorem scanFrom_symbol (hdigit : Text.isDigit c = false) (hletter : Text.isLetter c = false)
    (hequal : c = '=' → cs.head? ≠ some '=') : scanFrom c cs = (ofSymbol c, cs) := by
  unfold scanFrom
  rw [if_neg (by simp [hdigit]), if_neg (by simp [hletter])]
  split
  · exact absurd rfl (hequal rfl)
  · rfl

theorem inNumeral_of_isDigit (h : Text.isDigit c = true) : inNumeral c = true := by
  rw [inNumeral, h, Bool.true_or]

/-- A lexeme begins with a character that is no layout, and from there it is read. -/
theorem Lexeme.exists_cons (h : Lexeme text rest t) :
    ∃ c cs, text = c :: cs ∧ isLayout c = false ∧ scanFrom c (cs ++ rest) = (t, rest) := by
  match text, h with
  | c :: cs, .numeral hhead hall hend =>
    obtain ⟨_, ⟨⟩, hdigit⟩ := id hhead
    refine ⟨c, cs, rfl, isLayout_eq_false_of_isDigit hdigit, ?_⟩
    have hcs := (List.forall_mem_cons.1 hall).2
    rw [scanFrom_digit hdigit, takeWhile_append_of_endsRun hcs hend,
      dropWhile_append_of_endsRun hcs hend, ofNumeral_eq hhead]
  | [], .word hne _ _ => exact absurd rfl hne
  | c :: cs, .word _ hall hend =>
    obtain ⟨hletter, hcs⟩ := List.forall_mem_cons.1 hall
    refine ⟨c, cs, rfl, isLayout_eq_false_of_isLetter hletter, ?_⟩
    rw [scanFrom_letter hletter, takeWhile_append_of_endsRun hcs hend,
      dropWhile_append_of_endsRun hcs hend, ofWord_eq]
  | _, .equal => exact ⟨'=', ['='], rfl, by decide, scanFrom_equal rest⟩
  | [c], .symbol hlayout hdigit hletter hequal =>
    exact ⟨c, [], rfl, hlayout, by
      rw [List.nil_append, scanFrom_symbol hdigit hletter hequal, ofSymbol_eq]⟩

/-- What is read from a character that is no layout is a lexeme. -/
theorem exists_lexeme_of_scanFrom (hlayout : isLayout c = false) (cs : List Char) :
    ∃ text, c :: cs = text ++ (scanFrom c cs).2 ∧
      Lexeme text (scanFrom c cs).2 (scanFrom c cs).1 := by
  rcases hdigit : Text.isDigit c with - | -
  · rcases hletter : Text.isLetter c with - | -
    · by_cases hequal : c = '=' → cs.head? ≠ some '='
      · rw [scanFrom_symbol hdigit hletter hequal, ofSymbol_eq]
        exact ⟨[c], rfl, .symbol hlayout hdigit hletter hequal⟩
      · obtain ⟨rfl, hhead⟩ := Classical.not_imp.1 hequal
        obtain ⟨cs, rfl⟩ := List.head?_eq_some_iff.1 (not_not.1 hhead)
        rw [scanFrom_equal]
        exact ⟨['=', '='], rfl, .equal⟩
    · rw [scanFrom_letter hletter, ofWord_eq]
      refine ⟨c :: cs.takeWhile Text.isLetter, ?_, .word (List.cons_ne_nil _ _) ?_
        (endsRun_dropWhile _ _)⟩
      · rw [List.cons_append, List.takeWhile_append_dropWhile]
      · exact List.forall_mem_cons.2 ⟨hletter, fun d hd ↦ List.mem_takeWhile_imp hd⟩
  · have hhead : ∃ d ∈ (c :: cs.takeWhile inNumeral).head?, Text.isDigit d = true :=
      ⟨c, rfl, hdigit⟩
    rw [scanFrom_digit hdigit, ofNumeral_eq hhead]
    refine ⟨c :: cs.takeWhile inNumeral, ?_, .numeral hhead ?_ (endsRun_dropWhile _ _)⟩
    · rw [List.cons_append, List.takeWhile_append_dropWhile]
    · exact List.forall_mem_cons.2
        ⟨inNumeral_of_isDigit hdigit, fun d hd ↦ List.mem_takeWhile_imp hd⟩

/-- No lexeme stands for the end of a line. -/
theorem Lexeme.ne_eof (h : Lexeme text rest t) : t ≠ eof := by
  match h with
  | .numeral .. => split <;> simp
  | .word .. =>
    rw [← ofWord_eq, ofWord]
    split_ifs <;> simp
  | .equal => simp
  | .symbol .. =>
    rw [← ofSymbol_eq]
    unfold ofSymbol
    split <;> simp

/-! ### One step of the lexer -/

variable {gap : List Char}

/-- Layout is passed over up to the end of the line. -/
theorem scan_of_layout (hgap : ∀ c ∈ gap, isLayout c = true) : scan gap = (eof, []) := by
  rw [scan, List.dropWhile_eq_nil_iff.2 hgap]

/-- **A step reads the lexeme behind the layout.** -/
theorem scan_of_lexeme (hgap : ∀ c ∈ gap, isLayout c = true) (h : Lexeme text rest t) :
    scan (gap ++ text ++ rest) = (t, rest) := by
  obtain ⟨c, cs, rfl, hlayout, hscan⟩ := h.exists_cons
  have hdrop : (gap ++ (c :: cs ++ rest)).dropWhile isLayout = c :: (cs ++ rest) :=
    dropWhile_append_of_endsRun hgap fun d hd ↦ Option.some.inj hd ▸ hlayout
  rw [scan, List.append_assoc, hdrop]
  exact hscan

/-- **What a step can do.** There is only layout left, or there is a lexeme behind the layout, which
is read. -/
theorem scan_cases (cs : List Char) :
    ((∀ c ∈ cs, isLayout c = true) ∧ scan cs = (eof, [])) ∨
      ∃ gap text, cs = gap ++ text ++ (scan cs).2 ∧ (∀ c ∈ gap, isLayout c = true) ∧
        Lexeme text (scan cs).2 (scan cs).1 := by
  have hsplit := List.takeWhile_append_dropWhile (p := isLayout) (l := cs)
  have hgap : ∀ c ∈ cs.takeWhile isLayout, isLayout c = true :=
    fun c hc ↦ List.mem_takeWhile_imp hc
  rcases hdrop : cs.dropWhile isLayout with - | ⟨c, later⟩
  · rw [hdrop, List.append_nil] at hsplit
    rw [hsplit] at hgap
    exact .inl ⟨hgap, scan_of_layout hgap⟩
  · have hlayout : isLayout c = false := endsRun_dropWhile isLayout cs c (by rw [hdrop]; rfl)
    obtain ⟨text, htext, hlexeme⟩ := exists_lexeme_of_scanFrom hlayout later
    have hscan : scan cs = scanFrom c later := by rw [scan, hdrop]
    rw [hdrop, htext] at hsplit
    exact .inr ⟨cs.takeWhile isLayout, text, by rw [hscan, List.append_assoc, hsplit], hgap,
      hscan ▸ hlexeme⟩

/-! ### Cuts of a line -/

/-- A part of a line: layout and the lexeme behind it. -/
structure Part where
  layout : List Char
  text : List Char
  token : Token

/-- The characters of a part. -/
def Part.characters (p : Part) : List Char :=
  p.layout ++ p.text

/-- A cut of the characters `cs` into parts, with `rest` left over. -/
inductive Cuts : (cs : List Char) → List Part → (rest : List Char) → Prop where
  /-- Nothing but layout is left. -/
  | finish {gap : List Char} (hgap : ∀ c ∈ gap, isLayout c = true) : Cuts gap [⟨gap, [], eof⟩] []
  /-- A lexeme that stands for no token ends the cut. -/
  | illegal {cs gap text rest : List Char} (hcs : cs = gap ++ text ++ rest)
    (hgap : ∀ c ∈ gap, isLayout c = true) (h : Lexeme text rest illegal) :
    Cuts cs [⟨gap, text, .illegal⟩] rest
  | lexeme {cs gap text later rest : List Char} {t : Token} {parts : List Part}
    (hcs : cs = gap ++ text ++ later) (hgap : ∀ c ∈ gap, isLayout c = true)
    (h : Lexeme text later t) (ht : t ≠ .illegal) (hlater : Cuts later parts rest) :
    Cuts cs (⟨gap, text, t⟩ :: parts) rest

theorem isLast_iff : t.isLast = true ↔ t = eof ∨ t = illegal := by
  rcases t <;> simp [isLast]

/-- A lexeme ends the list of tokens just if it stands for no token. -/
theorem Lexeme.isLast_iff (h : Lexeme text rest t) : t.isLast = true ↔ t = Token.illegal :=
  Token.isLast_iff.trans ⟨fun ht ↦ ht.resolve_left h.ne_eof, .inr⟩

theorem scanAll_of_isLast (h : (scan cs).1.isLast = true) :
    scanAll cs = ([(scan cs).1], (scan cs).2) := by
  rw [scanAll, dif_pos h]

theorem scanAll_of_not_isLast (h : ¬(scan cs).1.isLast = true) :
    scanAll cs = ((scan cs).1 :: (scanAll (scan cs).2).1, (scanAll (scan cs).2).2) := by
  rw [scanAll, dif_neg h]

/-- The lexer finds a cut. -/
theorem exists_cuts (cs : List Char) : ∃ parts rest, Cuts cs parts rest := by
  induction cs using scanAll.induct with
  | case1 cs step hlast =>
    rcases scan_cases cs with ⟨hgap, -⟩ | ⟨gap, text, hcs, hgap, h⟩
    · exact ⟨_, _, .finish hgap⟩
    · exact ⟨_, _, .illegal hcs hgap (h.isLast_iff.1 hlast ▸ h)⟩
  | case2 cs step hlast ih =>
    obtain ⟨parts, rest, hlater⟩ := ih
    rcases scan_cases cs with ⟨-, hscan⟩ | ⟨gap, text, hcs, hgap, h⟩
    · exact absurd (show (scan cs).1.isLast = true by rw [hscan]; rfl) hlast
    · exact ⟨_, rest, .lexeme hcs hgap h (fun ht ↦ hlast (h.isLast_iff.2 ht)) hlater⟩

namespace Cuts

variable {parts parts' : List Part} {rest' : List Char}

/-- **What the lexer reads are the tokens of a cut.** -/
theorem scanAll_eq (h : Cuts cs parts rest) : scanAll cs = (parts.map Part.token, rest) := by
  induction h with
  | finish hgap =>
    have hscan := scan_of_layout hgap
    rw [scanAll_of_isLast (by rw [hscan]; rfl), hscan]
    rfl
  | illegal hcs hgap h =>
    have hscan := scan_of_lexeme hgap h
    rw [hcs, scanAll_of_isLast (by rw [hscan]; rfl), hscan]
    rfl
  | lexeme hcs hgap h ht _ ih =>
    have hscan := scan_of_lexeme hgap h
    rw [hcs, scanAll_of_not_isLast (by rw [hscan, h.isLast_iff]; exact ht), hscan, ih]
    rfl

/-- Nothing is lost in a cut. -/
theorem characters_eq (h : Cuts cs parts rest) : parts.flatMap Part.characters ++ rest = cs := by
  induction h with
  | finish => simp [Part.characters]
  | illegal hcs => simp [Part.characters, hcs]
  | lexeme hcs _ _ _ _ ih =>
    rw [hcs, List.flatMap_cons, List.append_assoc, ih]
    rfl

/-- The lexemes of a cut, with what is behind them. -/
theorem exists_lexeme (h : Cuts cs parts rest) {p : Part} (hp : p ∈ parts) (hne : p.token ≠ eof) :
    ∃ later, Lexeme p.text later p.token := by
  induction h with
  | finish =>
    obtain rfl := List.mem_singleton.1 hp
    exact absurd rfl hne
  | illegal _ _ h =>
    obtain rfl := List.mem_singleton.1 hp
    exact ⟨_, h⟩
  | lexeme _ _ h _ _ ih =>
    rcases List.mem_cons.1 hp with rfl | hp
    · exact ⟨_, h⟩
    · exact ih hp

/-- The last part of a cut: the line has come to its end, or a lexeme stands for no token. -/
theorem exists_last (h : Cuts cs parts rest) :
    ∃ front last, parts = front ++ [last] ∧
      (∀ p ∈ front, p.token ≠ eof ∧ p.token ≠ Token.illegal) ∧
      (last.token = eof ∧ rest = [] ∨
        last.token = Token.illegal ∧ Lexeme last.text rest Token.illegal) := by
  induction h with
  | finish => exact ⟨[], _, rfl, by simp, .inl ⟨rfl, rfl⟩⟩
  | illegal _ _ h => exact ⟨[], _, rfl, by simp, .inr ⟨rfl, h⟩⟩
  | lexeme _ _ h ht _ ih =>
    obtain ⟨front, last, rfl, hfront, hlast⟩ := ih
    exact ⟨_ :: front, last, rfl, List.forall_mem_cons.2 ⟨⟨h.ne_eof, ht⟩, hfront⟩, hlast⟩

end Cuts

/-- Layout and a lexeme behind it can be told apart in one way only. -/
theorem Lexeme.unique {gap' text' rest' : List Char} {t' : Token}
    (hgap : ∀ c ∈ gap, isLayout c = true) (h : Lexeme text rest t)
    (hgap' : ∀ c ∈ gap', isLayout c = true) (h' : Lexeme text' rest' t')
    (heq : gap ++ text ++ rest = gap' ++ text' ++ rest') :
    gap = gap' ∧ text = text' ∧ rest = rest' ∧ t = t' := by
  have hscan := scan_of_lexeme hgap h
  rw [heq, scan_of_lexeme hgap' h'] at hscan
  obtain ⟨rfl, rfl⟩ := Prod.mk.inj hscan
  have htexts : gap ++ text = gap' ++ text' := List.append_cancel_right heq
  -- the layout is what is read off before the first character of the lexeme
  have htake {gap text : List Char} {t : Token} (hgap : ∀ c ∈ gap, isLayout c = true)
      (h : Lexeme text rest' t) : (gap ++ text).takeWhile isLayout = gap := by
    obtain ⟨c, cs, rfl, hlayout, -⟩ := h.exists_cons
    exact takeWhile_append_of_endsRun hgap fun d hd ↦ Option.some.inj hd ▸ hlayout
  have hgaps : gap = gap' := by rw [← htake hgap h, htexts, htake hgap' h']
  subst hgaps
  exact ⟨rfl, List.append_cancel_left htexts, rfl, rfl⟩

/-- There is no lexeme in layout. -/
theorem Lexeme.not_layout (h : Lexeme text rest t) :
    ¬∀ c ∈ gap ++ text ++ rest, isLayout c = true := by
  obtain ⟨c, cs, rfl, hlayout, -⟩ := h.exists_cons
  intro hall
  exact nomatch hlayout.symm.trans (hall c (by simp))

/-- **A line has only one cut.** -/
theorem Cuts.unique {parts parts' : List Part} {rest' : List Char} (h : Cuts cs parts rest)
    (h' : Cuts cs parts' rest') : parts' = parts ∧ rest' = rest := by
  induction h generalizing parts' rest' with
  | finish hgap =>
    match h' with
    | .finish _ => exact ⟨rfl, rfl⟩
    | .illegal hcs _ h | .lexeme hcs _ h _ _ => exact absurd (hcs ▸ hgap) h.not_layout
  | illegal hcs hgap h =>
    match h' with
    | .finish hgap' => exact absurd (hcs ▸ hgap') h.not_layout
    | .illegal hcs' hgap' h' =>
      obtain ⟨rfl, rfl, rfl, -⟩ := h.unique hgap hgap' h' (hcs.symm.trans hcs')
      exact ⟨rfl, rfl⟩
    | .lexeme hcs' hgap' h' ht' _ =>
      obtain ⟨-, -, -, rfl⟩ := h.unique hgap hgap' h' (hcs.symm.trans hcs')
      exact absurd rfl ht'
  | lexeme hcs hgap h ht _ ih =>
    match h' with
    | .finish hgap' => exact absurd (hcs ▸ hgap') h.not_layout
    | .illegal hcs' hgap' h' =>
      obtain ⟨-, -, -, rfl⟩ := h.unique hgap hgap' h' (hcs.symm.trans hcs')
      exact absurd rfl ht
    | .lexeme hcs' hgap' h' _ hlater' =>
      obtain ⟨rfl, rfl, rfl, rfl⟩ := h.unique hgap hgap' h' (hcs.symm.trans hcs')
      obtain ⟨rfl, rfl⟩ := ih hlater'
      exact ⟨rfl, rfl⟩

end Token

open Token in
/-- Only the last token of a line ends the list. -/
theorem isLast_eq_false_of_tokenize {line : String} {front back : List Token} {t : Token}
    (h : tokenize line = front ++ t :: back) : ∀ u ∈ front, u.isLast = false := by
  obtain ⟨parts, rest, hcuts⟩ := exists_cuts line.toList
  obtain ⟨early, last, rfl, hearly, -⟩ := hcuts.exists_last
  rw [tokenize_eq_scanAll, hcuts.scanAll_eq, List.map_append, List.map_singleton] at h
  have hdrop := congrArg List.dropLast h
  rw [List.dropLast_concat, List.dropLast_append_cons] at hdrop
  intro u hu
  obtain ⟨p, hp, rfl⟩ := List.mem_map.1 (hdrop ▸ List.mem_append_left _ hu)
  rw [← Bool.not_eq_true, isLast_iff, not_or]
  exact hearly p hp

open Token in
/-- **The tokens of a line are those of its one cut into longest lexemes.** The cut takes the whole
line if the last token is the end of the line; else it stops right behind the first lexeme that
stands for no token. One of the two is the last token, and neither comes before. -/
theorem tokenize_cuts (line : String) :
    ∃ parts rest, Cuts line.toList parts rest ∧
      (∀ parts' rest', Cuts line.toList parts' rest' → parts' = parts ∧ rest' = rest) ∧
      tokenize line = parts.map Part.token ∧
      parts.flatMap Part.characters ++ rest = line.toList ∧
      ∃ front last, parts = front ++ [last] ∧
        (∀ p ∈ front, p.token ≠ .eof ∧ p.token ≠ .illegal) ∧
        (last.token = .eof ∧ rest = [] ∨
          last.token = .illegal ∧ Lexeme last.text rest .illegal) := by
  obtain ⟨parts, rest, h⟩ := exists_cuts line.toList
  refine ⟨parts, rest, h, fun _ _ h' ↦ h.unique h', ?_, h.characters_eq, h.exists_last⟩
  rw [tokenize_eq_scanAll, h.scanAll_eq]

end Reckoner
