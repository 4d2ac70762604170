import Reckoner.Token.Lexer
import Mathlib.Data.List.TakeWhile

/-!
# Reading from the front of a text

A cursor reads a line by positions. What it reads can be told by the text from its position on:
`Token.scan` reads one token off the front of a text and returns what is left, and `Token.scanAll`
repeats this up to the first token that ends the list. The cursor gives the same tokens and stands
where that text is left (`Cursor.nextToken_eq`, `Cursor.lex_eq`). So the tokens of a line are what
`Token.scanAll` reads off it (`tokenize_eq_scanAll`), and all that is proved about lexing is proved
about texts.
-/

namespace Reckoner

namespace Token

/-- Reads a token off a text that starts with the character `c` of a token. -/
def scanFrom (c : Char) (rest : List Char) : Token × List Char :=
  if Text.isDigit c then (ofNumeral (c :: rest.takeWhile inNumeral), rest.dropWhile inNumeral)
  else if Text.isLetter c then
    (ofWord (c :: rest.takeWhile Text.isLetter), rest.dropWhile Text.isLetter)
  else
    match c, rest with
    | '=', '=' :: rest => (equal, rest)
    | c, rest => (ofSymbol c, rest)

/-- Reads the next token off a text, and returns the text behind it. -/
def scan (cs : List Char) : Token × List Char :=
  match cs.dropWhile isLayout with
  | [] => (eof, [])
  | c :: rest => scanFrom c rest

/-- What a token leaves is the end of what was there. -/
theorem scanFrom_suffix (c : Char) (rest : List Char) : (scanFrom c rest).2 <:+ rest := by
  unfold scanFrom
  split
  · exact List.dropWhile_suffix _
  · split
    · exact List.dropWhile_suffix _
    · split
      · exact List.suffix_cons _ _
      · exact List.suffix_rfl

/-- Reading a token takes characters off the front of the text. -/
theorem scan_suffix (cs : List Char) : (scan cs).2 <:+ cs := by
  have hgap := List.dropWhile_suffix isLayout (l := cs)
  unfold scan
  split
  · exact List.nil_suffix
  · rename_i c rest heq
    rw [heq] at hgap
    exact (scanFrom_suffix c rest).trans ((List.suffix_cons c rest).trans hgap)

/-- Unless it meets the end of the text, reading a token consumes some of it. -/
theorem length_scan_lt {cs : List Char} (h : (scan cs).1 ≠ eof) :
    (scan cs).2.length < cs.length := by
  have hle := List.length_dropWhile_le isLayout cs
  unfold scan at h ⊢
  split
  · rename_i heq
    simp [heq] at h
  · rename_i c rest heq
    have := (scanFrom_suffix c rest).length_le
    simp only [heq, List.length_cons] at hle
    omega

/-- Reads all tokens up to the first that ends the list, and returns the text behind them. -/
def scanAll (cs : List Char) : List Token × List Char :=
  let step := scan cs
  if _h : step.1.isLast then ([step.1], step.2)
  else
    let later := scanAll step.2
    (step.1 :: later.1, later.2)
termination_by cs.length
decreasing_by
  refine length_scan_lt fun he ↦ _h ?_
  rw [show step.1 = eof from he]
  rfl

/-- So is what all tokens leave. -/
theorem scanAll_suffix (cs : List Char) : (scanAll cs).2 <:+ cs := by
  induction cs using scanAll.induct with
  | case1 cs step hlast =>
    rw [scanAll, dif_pos hlast]
    exact scan_suffix cs
  | case2 cs step hlast ih =>
    rw [scanAll, dif_neg hlast]
    exact ih.trans (scan_suffix cs)

end Token

namespace Cursor

/-- The cursor at the given remainder of its text. -/
def moveTo (c : Cursor) (left : List Char) : Cursor :=
  c.moved (c.rest.length - left.length)

variable {c : Cursor} {gone left left' : List Char}

/-- The cursor stands at what is left when it has passed over the rest. -/
theorem moved_eq_moveTo (h : c.rest = gone ++ left) : c.moved gone.length = c.moveTo left := by
  rw [moveTo, h, List.length_append, Nat.add_sub_cancel]

/-- A cursor that has moved to an end of its text has just this before it. -/
theorem rest_moveTo (h : left <:+ c.rest) : (c.moveTo left).rest = left := by
  obtain ⟨gone, hgone⟩ := h
  rw [← moved_eq_moveTo hgone.symm, rest_moved, ← hgone, List.drop_left]

theorem moveTo_moveTo (h : left <:+ c.rest) (h' : left' <:+ left) :
    (c.moveTo left).moveTo left' = c.moveTo left' := by
  have hle := h.length_le
  have hle' := h'.length_le
  rw [moveTo, rest_moveTo h, moveTo, moved_moved, moveTo]
  congr 1
  omega

/-- The text of a run is what was passed over. -/
theorem textTo_passWhile (p : Char → Bool) (c : Cursor) :
    c.textTo (c.passWhile p) = c.rest.takeWhile p := by
  have htake : c.rest.take (c.rest.takeWhile p).length = c.rest.takeWhile p :=
    (List.prefix_iff_eq_take.1 (List.takeWhile_prefix p)).symm
  rw [passWhile_eq, textTo, moved, Array.toList_extract, List.extract_eq_take_drop,
    Nat.add_sub_cancel_left]
  exact htake

/-- Passing over a run comes to what is behind it. -/
theorem passWhile_eq_moveTo (p : Char → Bool) (c : Cursor) :
    c.passWhile p = c.moveTo (c.rest.dropWhile p) := by
  rw [passWhile_eq]
  exact moved_eq_moveTo List.takeWhile_append_dropWhile.symm

/-- A run that begins at the cursor, and what is behind it. -/
theorem passWhile_of_rest_eq {p : Char → Bool} {x : Char} {cs : List Char} (h : c.rest = x :: cs)
    (hx : p x = true) :
    c.textTo (c.passWhile p) = x :: cs.takeWhile p ∧
      c.passWhile p = c.moveTo (cs.dropWhile p) := by
  rw [textTo_passWhile, passWhile_eq_moveTo, h, List.takeWhile_cons, List.dropWhile_cons, if_pos hx,
    if_pos hx]
  exact ⟨rfl, rfl⟩

/-- **A cursor reads the token that its text begins with**, and stands behind it. -/
theorem nextToken_eq (c : Cursor) :
    c.nextToken = ((Token.scan c.rest).1, c.moveTo (Token.scan c.rest).2) := by
  have hlayout : c.rest.dropWhile Token.isLayout <:+ c.rest := List.dropWhile_suffix _
  obtain ⟨d, hd⟩ : ∃ d, d = c.passWhile Token.isLayout := ⟨_, rfl⟩
  have hrest : d.rest = c.rest.dropWhile Token.isLayout := by
    rw [hd, passWhile_eq_moveTo, rest_moveTo hlayout]
  -- the token is read from behind the layout, and its end is counted from before the layout
  have hmoved {left : List Char} (h : left <:+ d.rest) : d.moveTo left = c.moveTo left := by
    rw [hd, passWhile_eq_moveTo, moveTo_moveTo hlayout (hrest ▸ h)]
  unfold nextToken Token.scan
  simp only [← hd, peek_eq_head?, ← hrest]
  rcases hcons : d.rest with - | ⟨x, cs⟩
  · rw [hd, passWhile_eq_moveTo, ← hrest, hcons]
    rfl
  · have hrun {p : Char → Bool} (hx : p x = true) :
        d.textTo (d.passWhile p) = x :: cs.takeWhile p ∧
          d.passWhile p = c.moveTo (cs.dropWhile p) := by
      obtain ⟨htext, hpass⟩ := passWhile_of_rest_eq hcons hx
      refine ⟨htext, hpass.trans (hmoved ?_)⟩
      rw [hcons]
      exact (List.dropWhile_suffix p).trans (List.suffix_cons x cs)
    have hsymbol {gone left : List Char} (h : x :: cs = gone ++ left) :
        d.moved gone.length = c.moveTo left :=
      (moved_eq_moveTo (hcons.trans h)).trans (hmoved ⟨gone, (hcons.trans h).symm⟩)
    simp only [List.head?_cons, Token.scanFrom]
    split
    case isTrue hdigit =>
      obtain ⟨htext, hpass⟩ := hrun (p := Token.inNumeral)
        (by rw [Token.inNumeral, hdigit, Bool.true_or])
      rw [htext, hpass]
    case isFalse =>
      split
      case isTrue hletter =>
        obtain ⟨htext, hpass⟩ := hrun hletter
        rw [htext, hpass]
      case isFalse =>
        rw [rest_moved, hcons, List.drop_one, List.tail_cons]
        split
        case isTrue hequal =>
          simp only [Bool.and_eq_true, decide_eq_true_eq, List.head?_eq_some_iff] at hequal
          obtain ⟨rfl, later, rfl⟩ := hequal
          exact congrArg (Prod.mk _) (hsymbol (show _ = ['=', '='] ++ later from rfl))
        case isFalse hequal =>
          split
          case h_1 => exact absurd rfl hequal
          case h_2 => exact congrArg (Prod.mk _) (hsymbol (show _ = [x] ++ cs from rfl))

/-- **A cursor reads the tokens of its text**, and stands behind them. -/
theorem lex_eq (c : Cursor) :
    c.lex = ((Token.scanAll c.rest).1, c.moveTo (Token.scanAll c.rest).2) := by
  induction c using Cursor.lex.induct with
  | case1 c step hlast =>
    have hstep : step = _ := c.nextToken_eq
    rw [hstep] at hlast
    rw [lex, Token.scanAll, dif_pos hlast, nextToken_eq, dif_pos hlast]
  | case2 c step hlast ih =>
    have hstep : step = _ := c.nextToken_eq
    rw [hstep] at hlast ih
    rw [lex, Token.scanAll, dif_neg hlast, nextToken_eq, dif_neg hlast, ih,
      rest_moveTo (Token.scan_suffix c.rest),
      moveTo_moveTo (Token.scan_suffix c.rest) (Token.scanAll_suffix _)]

end Cursor

/-- The tokens of a line are read off its text. -/
theorem tokenize_eq_scanAll (line : String) : tokenize line = (Token.scanAll line.toList).1 := by
  rw [tokenize, Cursor.lex_eq]
  rfl

end Reckoner
