import Reckoner.Proofs.Munch

/-!
# Reading from anywhere in a line

A cursor may be asked for the character it stands before, for the next character, for the next
token, or for all tokens up to the last, in any order. So a row of requests may leave it in the
middle of a number, a name or `==`.

The cursor reads its line by positions. Every request moves it over characters of the line
(`Cursor.Passes`); hence it only moves forward and stays within its line (`Cursor.Within.after`).
Two cursors with the same text before them, in lines of their own, answer alike and move by as much
(`Cursor.Behind.respond`): so from any place in a line a cursor reads as it would read from the
start of the remaining text.
-/

namespace Reckoner

namespace Token

/-- A step of the lexer takes characters off the front of the text. Unless it comes to the end, it
takes at least one. -/
theorem exists_scan (cs : List Char) :
    ∃ gone, cs = gone ++ (scan cs).2 ∧
      ((scan cs).1 = eof ∧ (scan cs).2 = [] ∨ (scan cs).1 ≠ eof ∧ gone ≠ []) := by
  rcases scan_cases cs with ⟨-, hscan⟩ | ⟨gap, text, hcs, -, hlexeme⟩
  · refine ⟨cs, ?_, .inl ?_⟩
    · rw [hscan, List.append_nil]
    · rw [hscan]
      exact ⟨rfl, rfl⟩
  · obtain ⟨c, later, rfl, -⟩ := hlexeme.exists_cons
    exact ⟨gap ++ c :: later, hcs, .inr ⟨hlexeme.ne_eof, by simp⟩⟩

end Token

namespace Cursor

variable {c c' d : Cursor} {line gone left : List Char}

/-! ### Requests -/

/-- What can be asked of a cursor. -/
inductive Step where
  | peek | advance | nextToken | lex
deriving DecidableEq

/-- What a cursor answers. -/
inductive Answer where
  | char (x : Option Char)
  | token (t : Token)
  | tokens (ts : List Token)
  /-- There is no character to read. -/
  | pastEnd
deriving DecidableEq

/-- The answer to a request, and where the cursor is then. -/
def respond (c : Cursor) : Step → Answer × Cursor
  | .peek => (.char c.peek, c)
  | .advance =>
    match c.advance? with
    | some (x, c') => (.char (some x), c')
    | none => (.pastEnd, c)
  | .nextToken => (.token c.nextToken.1, c.nextToken.2)
  | .lex => (.tokens c.lex.1, c.lex.2)

/-- The cursor after a request. -/
def next (c : Cursor) (s : Step) : Cursor :=
  (c.respond s).2

/-- The cursor after a row of requests. -/
def after (c : Cursor) (steps : List Step) : Cursor :=
  steps.foldl next c

/-- The answers to a row of requests. -/
def answers : Cursor → List Step → List Answer
  | _, [] => []
  | c, s :: steps => (c.respond s).1 :: answers (c.next s) steps

/-! ### Moving forward -/

/-- The second cursor has the characters behind it that the first one has before it. -/
structure Passes (c : Cursor) (gone : List Char) (c' : Cursor) : Prop where
  line_eq : c'.line = c.line
  rest_eq : c.rest = gone ++ c'.rest
  position_eq : c'.position = c.position + gone.length

theorem Passes.refl (c : Cursor) : c.Passes [] c :=
  ⟨rfl, rfl, rfl⟩

theorem passes_moveTo (h : c.rest = gone ++ left) : c.Passes gone (c.moveTo left) where
  line_eq := rfl
  rest_eq := by rw [rest_moveTo ⟨gone, h.symm⟩, h]
  position_eq := by
    rw [← moved_eq_moveTo h]
    rfl

/-- Reading a token moves the cursor over characters, at least one unless the line is at its end. -/
theorem passes_nextToken (c : Cursor) :
    ∃ gone, c.Passes gone c.nextToken.2 ∧
      (c.nextToken.1 = .eof ∧ c.nextToken.2.rest = [] ∨ c.nextToken.1 ≠ .eof ∧ gone ≠ []) := by
  obtain ⟨gone, hgone, hcases⟩ := Token.exists_scan c.rest
  rw [nextToken_eq, rest_moveTo ⟨gone, hgone.symm⟩]
  exact ⟨gone, passes_moveTo hgone, hcases⟩

/-- **Every request moves the cursor over characters of the line**, possibly none. -/
theorem passes_next (c : Cursor) (s : Step) : ∃ gone, c.Passes gone (c.next s) := by
  cases s with
  | peek => exact ⟨[], .refl c⟩
  | advance =>
    rw [next, respond, advance?, peek_eq_head?]
    rcases hrest : c.rest with - | ⟨x, left⟩
    · exact ⟨[], .refl c⟩
    · refine ⟨[x], rfl, ?_, rfl⟩
      rw [hrest, List.head?_cons, rest_moved, hrest]
      rfl
  | nextToken =>
    obtain ⟨gone, hpasses, -⟩ := c.passes_nextToken
    exact ⟨gone, hpasses⟩
  | lex =>
    obtain ⟨gone, hgone⟩ := Token.scanAll_suffix c.rest
    refine ⟨gone, ?_⟩
    rw [next, respond, lex_eq]
    exact passes_moveTo hgone.symm

/-! ### Within a line -/

/-- The cursor stands in the line. -/
structure Within (line : List Char) (c : Cursor) : Prop where
  line_eq : c.line.toList = line
  position_le : c.position ≤ line.length

theorem within_start (line : String) : Within line.toList (start line) :=
  ⟨rfl, Nat.zero_le _⟩

namespace Within

/-- What a cursor has before it is what is behind its position. -/
theorem rest_eq (h : Within line c) : c.rest = line.drop c.position := by
  rw [rest, h.line_eq]

theorem rest_eq_nil_iff (h : Within line c) : c.rest = [] ↔ c.position = line.length := by
  rw [h.rest_eq, List.drop_eq_nil_iff]
  have := h.position_le
  omega

/-- Moving over characters of the line keeps the cursor in it. -/
theorem passes (h : Within line c) (hpasses : c.Passes gone c') : Within line c' := by
  obtain ⟨hline, hrest, hposition⟩ := hpasses
  refine ⟨hline ▸ h.line_eq, ?_⟩
  have hlength := congrArg List.length hrest
  rw [h.rest_eq, List.length_drop, List.length_append] at hlength
  have := h.position_le
  omega

/-- What a request preserves. -/
theorem next (h : Within line c) (s : Step) : Within line (c.next s) := by
  obtain ⟨gone, hpasses⟩ := c.passes_next s
  exact h.passes hpasses

/-- What a row of requests preserves. -/
theorem after (h : Within line c) (steps : List Step) : Within line (c.after steps) := by
  induction steps generalizing c with
  | nil => exact h
  | cons s steps ih => exact ih (h.next s)

/-- Only reading a character at the end of the line fails. -/
theorem respond_eq_pastEnd_iff (h : Within line c) (s : Step) :
    (c.respond s).1 = .pastEnd ↔ s = .advance ∧ c.position = line.length := by
  rw [← h.rest_eq_nil_iff]
  cases s with
  | advance =>
    rw [respond, advance?, peek_eq_head?]
    rcases c.rest with - | ⟨x, left⟩ <;> simp
  | _ => simp [respond]

end Within

/-- A request that fails leaves the cursor where it is. -/
theorem next_of_pastEnd {s : Step} (h : (c.respond s).1 = .pastEnd) : c.next s = c := by
  cases s with
  | advance =>
    rw [respond, advance?] at h
    rw [next, respond, advance?]
    rcases hpeek : c.peek with - | x
    · rfl
    · rw [hpeek] at h
      cases h
  | _ => cases h

/-! ### Reading does not depend on the position -/

/-- The first cursor has `n` more characters behind it than the second, and both have the same text
before them. -/
structure Behind (n : Nat) (c d : Cursor) : Prop where
  position_eq : c.position = n + d.position
  rest_eq : c.rest = d.rest

namespace Behind

variable {n : Nat}

/-- Cursors that pass over the same characters still have the same text before them. -/
theorem passes {c' d' : Cursor} (h : Behind n c d) (hc : c.Passes gone c') (hd : d.Passes gone d') :
    Behind n c' d' where
  position_eq := by rw [hc.position_eq, hd.position_eq, h.position_eq, Nat.add_assoc]
  rest_eq := by
    have hrest := h.rest_eq
    rw [hc.rest_eq, hd.rest_eq] at hrest
    exact List.append_cancel_left hrest

/-- **Cursors with the same text before them answer alike**, and have the same text before them
again. -/
theorem respond (h : Behind n c d) (s : Step) :
    (c.respond s).1 = (d.respond s).1 ∧ Behind n (c.next s) (d.next s) := by
  cases s with
  | peek =>
    refine ⟨?_, h⟩
    rw [Cursor.respond, Cursor.respond, peek_eq_head?, peek_eq_head?, h.rest_eq]
  | advance =>
    rw [next, next, Cursor.respond, Cursor.respond, advance?, advance?, peek_eq_head?,
      peek_eq_head?, h.rest_eq]
    rcases d.rest.head? with - | x
    · exact ⟨rfl, h⟩
    · refine ⟨rfl, ?_, ?_⟩
      · show c.position + 1 = n + (d.position + 1)
        rw [h.position_eq, Nat.add_assoc]
      · rw [rest_moved, rest_moved, h.rest_eq]
  | nextToken =>
    obtain ⟨gone, hgone⟩ := Token.scan_suffix d.rest
    have hd := passes_moveTo hgone.symm
    have hc := passes_moveTo (h.rest_eq.trans hgone.symm)
    rw [next, next, Cursor.respond, Cursor.respond, nextToken_eq, nextToken_eq, h.rest_eq]
    exact ⟨rfl, h.passes hc hd⟩
  | lex =>
    obtain ⟨gone, hgone⟩ := Token.scanAll_suffix d.rest
    have hd := passes_moveTo hgone.symm
    have hc := passes_moveTo (h.rest_eq.trans hgone.symm)
    rw [next, next, Cursor.respond, Cursor.respond, lex_eq, lex_eq, h.rest_eq]
    exact ⟨rfl, h.passes hc hd⟩

/-- What a row of requests preserves. -/
theorem after (h : Behind n c d) (steps : List Step) :
    Behind n (c.after steps) (d.after steps) := by
  induction steps generalizing c d with
  | nil => exact h
  | cons s steps ih => exact ih (h.respond s).2

theorem answers_eq (h : Behind n c d) (steps : List Step) : c.answers steps = d.answers steps := by
  induction steps generalizing c d with
  | nil => rfl
  | cons s steps ih =>
    obtain ⟨hanswer, hnext⟩ := h.respond s
    rw [answers, answers, hanswer, ih hnext]

end Behind

/-- A cursor in a line has the text before it that a cursor at the start of the remaining text
has. -/
theorem Within.behind (h : Within line c) :
    Behind c.position c (start (String.ofList (line.drop c.position))) where
  position_eq := rfl
  rest_eq := by
    rw [h.rest_eq, start, rest, String.toList_ofList]
    rfl

/-- **What a cursor reads depends only on the text that is left.** After any row of requests it
stands within the line and before the character at its position, and every further request moves it
forward, if at all, and not over the end. Only reading a character at the end fails, and leaves the
cursor where it is. Reading a token moves the cursor, unless it is the end of the line, and then the
cursor is there. All tokens that are read are those of the remaining text, and so are the answers to
any further requests; the cursor moves by as much as it would from the start of that text. -/
theorem reads_remaining_text (line : String) (steps : List Step) :
    let c := (start line).after steps
    let left := String.ofList (line.toList.drop c.position)
    c.position ≤ line.length ∧ c.peek = line.toList[c.position]? ∧
    (∀ s, c.position ≤ (c.next s).position ∧ (c.next s).position ≤ line.length) ∧
    (∀ s, (c.respond s).1 = .pastEnd ↔ s = .advance ∧ c.position = line.length) ∧
    (∀ s, (c.respond s).1 = .pastEnd → c.next s = c) ∧
    (if c.nextToken.1 = .eof then c.nextToken.2.position = line.length
      else c.position < c.nextToken.2.position) ∧
    c.lex.1 = tokenize left ∧ c.lex.2.position = c.position + (start left).lex.2.position ∧
    ∀ later, c.answers later = (start left).answers later ∧
      (c.after later).position = c.position + ((start left).after later).position := by
  intro c left
  have hc : Within line.toList c := (within_start line).after steps
  have hlength : line.toList.length = line.length := String.length_toList
  have hbehind : Behind c.position c (start left) := hc.behind
  refine ⟨hlength ▸ hc.position_le, ?_, fun s ↦ ?_, fun s ↦ hlength ▸ hc.respond_eq_pastEnd_iff s,
    fun s ↦ next_of_pastEnd, ?_, ?_, (hbehind.respond .lex).2.position_eq, fun later ↦
      ⟨hbehind.answers_eq later, (hbehind.after later).position_eq⟩⟩
  · rw [peek_eq_head?, hc.rest_eq, List.head?_drop]
  · obtain ⟨gone, hpasses⟩ := c.passes_next s
    exact ⟨hpasses.position_eq ▸ Nat.le_add_right _ _, hlength ▸ (hc.next s).position_le⟩
  · obtain ⟨gone, hpasses, ⟨heof, hnil⟩ | ⟨hne, hgone⟩⟩ := c.passes_nextToken
    · rw [if_pos heof, ← hlength]
      exact (hc.passes hpasses).rest_eq_nil_iff.1 hnil
    · rw [if_neg hne, hpasses.position_eq]
      exact Nat.lt_add_of_pos_right (List.length_pos_iff.2 hgone)
  · rw [lex_eq, tokenize_eq_scanAll, String.toList_ofList, hc.rest_eq]

/-- From the middle of `==` on, its second half is an assignment. -/
example : ((start "x ==1").after [.nextToken, .advance, .advance]).lex.1 =
    [.assign, .number 1.0, .eof] := by
  decide +kernel

end Cursor

end Reckoner
