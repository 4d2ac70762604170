import Reckoner.Proofs.Positions

/-!
# What a parsing step passes over, and where it refuses

What the parser moves over is *settled*: all parentheses in it are closed, and no token in it ends
the line (`Settled`). This is so for the tokens that it consumes one by one, and for a group, whose
inside is found before it is read. So a parenthesis that is refused stands behind a settled row
(`LiesAt`): a closing one that has nothing to close, or an opening one for which the search has come
to the end of the line. Inside of a group neither can be met, since the inside is settled as a whole
(`LiesAt.isOrdinary`).

What each step comes to is said by `Parser.Comes`, whatever the depth of the recursion. Steps of
this kind may follow each other (`Parser.Orderly.bind`), and the recursion is made of nothing else
(`Parser.orderly`).
-/

namespace Reckoner

variable {ts front back inner row : List Token} {t : Token} {depth : Nat}

/-! ### Settled rows -/

/-- A balanced row in front changes nothing about what is closed. -/
theorem Balanced.closes_append_iff (h : Balanced front) :
    Parser.Closes depth (front ++ ts) ↔ Parser.Closes depth ts := by
  obtain ⟨hbegin, htotal⟩ := h
  simp only [Parser.Closes, List.count_append]
  refine and_congr ⟨fun hall row hrow ↦ ?_, fun hall row hrow ↦ ?_⟩ (by omega)
  · have hle := hall (front ++ row) ((List.prefix_append_right_inj front).2 hrow)
    simp only [List.count_append] at hle
    omega
  · -- a beginning ends inside of the balanced row, or goes on behind it
    rcases List.prefix_or_prefix_of_prefix hrow (List.prefix_append front ts) with hinside | hbehind
    · have hle := hbegin row hinside
      omega
    · obtain ⟨more, rfl⟩ := hbehind
      have hle := hall more ((List.prefix_append_right_inj front).1 hrow)
      simp only [List.count_append]
      omega

/-- Where more is closed than opened, the first parenthesis too many has a balanced row before
it. -/
theorem Parser.Closes.exists_closing (h : Closes (depth + 1) row) :
    ∃ inner after, row = inner ++ .rparen :: after ∧ Closes depth inner := by
  induction row generalizing depth with
  | nil => exact absurd (closes_nil_iff.1 h) (Nat.succ_ne_zero depth)
  | cons t row ih =>
    by_cases hl : t = .lparen
    · subst hl
      obtain ⟨inner, after, rfl, hinner⟩ := ih (closes_lparen_iff.1 h)
      exact ⟨.lparen :: inner, after, rfl, closes_lparen_iff.2 hinner⟩
    by_cases hr : t = .rparen
    · subst hr
      rcases depth with - | depth
      · exact ⟨[], row, rfl, closes_nil_iff.2 rfl⟩
      · obtain ⟨inner, after, rfl, hinner⟩ := ih (closes_rparen_iff.1 h)
        exact ⟨.rparen :: inner, after, rfl, closes_rparen_iff.2 hinner⟩
    · obtain ⟨inner, after, rfl, hinner⟩ := ih ((closes_other_iff hl hr).1 h)
      exact ⟨t :: inner, after, rfl, (closes_other_iff hl hr).2 hinner⟩

/-- All parentheses in the row are closed, and no token in it ends the line. -/
structure Settled (ts : List Token) : Prop where
  balanced : Balanced ts
  isLast_eq_false : ∀ t ∈ ts, t.isLast = false

theorem settled_nil : Settled [] :=
  ⟨by decide, by simp⟩

/-- Settled rows may be put together. -/
theorem Settled.append (hfront : Settled front) (hts : Settled ts) : Settled (front ++ ts) := by
  refine ⟨?_, List.forall_mem_append.2 ⟨hfront.isLast_eq_false, hts.isLast_eq_false⟩⟩
  rw [← Parser.closes_zero_iff, hfront.balanced.closes_append_iff, Parser.closes_zero_iff]
  exact hts.balanced

/-- Neither a parenthesis nor the end of a line. -/
def Token.isPlain : Token → Bool
  | lparen | rparen | eof | illegal => false
  | _ => true

/-- A token that is neither a parenthesis nor an end settles itself. -/
theorem settled_singleton (h : t.isPlain = true) : Settled [t] := by
  have hl : t ≠ .lparen := by
    rintro rfl
    cases h
  have hr : t ≠ .rparen := by
    rintro rfl
    cases h
  refine ⟨?_, List.forall_mem_singleton.2 ?_⟩
  · rw [← Parser.closes_zero_iff, Parser.closes_other_iff hl hr, Parser.closes_nil_iff]
  · cases t with
    | eof | illegal => cases h
    | _ => rfl

/-- A settled row in parentheses is settled. -/
theorem Settled.group (h : Settled inner) : Settled (.lparen :: inner ++ [.rparen]) := by
  refine ⟨?_, ?_⟩
  · rw [← Parser.closes_zero_iff, List.cons_append, Parser.closes_lparen_iff,
      h.balanced.closes_append_iff, Parser.closes_rparen_iff, Parser.closes_nil_iff]
  · rw [List.forall_mem_append, List.forall_mem_cons, List.forall_mem_singleton]
    exact ⟨⟨rfl, h.isLast_eq_false⟩, rfl⟩

/-- A settled row comes before the end of the line. -/
theorem Settled.takeWhile_append (h : Settled front) (ts : List Token) :
    (front ++ ts).takeWhile (· ≠ .eof) = front ++ ts.takeWhile (· ≠ .eof) := by
  refine List.takeWhile_append_of_pos fun t ht ↦ decide_eq_true ?_
  rintro rfl
  exact Bool.false_ne_true (h.isLast_eq_false _ ht).symm

/-- In a settled row the line does not end. -/
theorem Settled.takeWhile_eq (h : Settled ts) : ts.takeWhile (· ≠ .eof) = ts := by
  have hall := h.takeWhile_append []
  rwa [List.append_nil, List.takeWhile_nil, List.append_nil] at hall

/-! ### Where faults lie -/

/-- Nothing closes a parenthesis that was opened before the row, unless it is behind the end of the
line. -/
def Unclosed (row : List Token) : Prop :=
  ∀ inner after, row = inner ++ .rparen :: after → Balanced inner → .eof ∈ inner

/-- The search for a closing parenthesis has come to an end without one. -/
def Parser.Closing.fails : Closing → Bool
  | lineEnd | windowEnd => true
  | _ => false

theorem Parser.Closing.fails_cons (t : Token) (c : Closing) : (c.cons t).fails = c.fails := by
  cases c <;> rfl

/-- The search does not fail if there is something to find, though it may be stopped by an illegal
token. -/
theorem Parser.fails_findClosing (hcloses : Closes depth inner) (heof : .eof ∉ inner)
    (after : List Token) : (findClosing depth (inner ++ .rparen :: after)).fails = false := by
  induction inner generalizing depth with
  | nil =>
    obtain rfl := closes_nil_iff.1 hcloses
    rfl
  | cons t inner ih =>
    obtain ⟨ht, hinner⟩ := not_or.1 (mt List.mem_cons.2 heof)
    by_cases hl : t = .lparen
    · subst hl
      rw [List.cons_append, findClosing, Closing.fails_cons]
      exact ih (closes_lparen_iff.1 hcloses) hinner
    by_cases hr : t = .rparen
    · subst hr
      rcases depth with - | depth
      · exact absurd hcloses not_closes_zero_rparen
      · rw [List.cons_append, findClosing, Closing.fails_cons]
        exact ih (closes_rparen_iff.1 hcloses) hinner
    by_cases hillegal : t = .illegal
    · subst hillegal
      rfl
    · have hlast : t.isLast = false := by
        cases t with
        | eof => exact absurd rfl ht
        | illegal => exact absurd rfl hillegal
        | _ => rfl
      rw [List.cons_append, findClosing_other hl hr hlast, Closing.fails_cons]
      exact ih ((closes_other_iff hl hr).1 hcloses) hinner

/-- Where the search fails, the parenthesis is not closed at all. -/
theorem unclosed_of_fails (h : (Parser.findClosing 0 row).fails = true) : Unclosed row := by
  rintro inner after rfl hinner
  by_contra heof
  rw [Parser.fails_findClosing (Parser.closes_zero_iff.2 hinner) heof] at h
  exact Bool.false_ne_true h

/-- A fault lies between the tokens before it and those from it on. Only the end of the tokens may
be missed where there are none, a parenthesis that is refused stands behind a settled row, and what
needs a number behind it is a sign. -/
structure LiesAt (fault : SyntaxFault) (front back : List Token) : Prop where
  atEnd : back = [] → fault = .unexpectedEnd
  closing : fault = .unmatchedClosing → Settled front ∧ back.head? = some .rparen
  opening : fault = .unmatchedOpening →
    Settled front ∧ ∃ row, back = .lparen :: row ∧ Unclosed row
  sign : ∀ t, fault = .signWithoutNumber t → t = .plus ∨ t = .minus

/-- The fault is not about a parenthesis that has no other one to match, so it may lie anywhere. -/
def SyntaxFault.isOrdinary : SyntaxFault → Bool
  | unmatchedOpening | unmatchedClosing => false
  | signWithoutNumber t => t = .plus ∨ t = .minus
  | _ => true

variable {fault : SyntaxFault}

/-- An ordinary fault may lie at any token. -/
theorem liesAt_of_isOrdinary (hfault : fault.isOrdinary = true) (front : List Token)
    (hback : back ≠ []) : LiesAt fault front back where
  atEnd h := absurd h hback
  closing h := absurd (h ▸ hfault) (by decide)
  opening h := absurd (h ▸ hfault) (by decide)
  sign t h := by
    subst h
    exact of_decide_eq_true hfault

/-- The end is missed where nothing is left. -/
theorem liesAt_unexpectedEnd : LiesAt .unexpectedEnd [] [] where
  atEnd _ := rfl
  closing h := by cases h
  opening h := by cases h
  sign _ h := by cases h

/-- A stray closing parenthesis lies where it stands. -/
theorem liesAt_unmatchedClosing (hhead : ts.head? = some .rparen) :
    LiesAt .unmatchedClosing [] ts where
  atEnd h := absurd hhead (by simp [h])
  closing _ := ⟨settled_nil, hhead⟩
  opening h := by cases h
  sign _ h := by cases h

/-- An opening parenthesis without its other one lies where it stands. -/
theorem liesAt_unmatchedOpening (hrow : Unclosed row) :
    LiesAt .unmatchedOpening [] (.lparen :: row) where
  atEnd h := by cases h
  closing h := by cases h
  opening _ := ⟨settled_nil, row, rfl, hrow⟩
  sign _ h := by cases h

/-- A settled row in front does not change where a fault lies. -/
theorem LiesAt.prepend (h : LiesAt fault front back) (hrow : Settled row) :
    LiesAt fault (row ++ front) back where
  atEnd := h.atEnd
  closing hfault := (h.closing hfault).imp hrow.append id
  opening hfault := (h.opening hfault).imp hrow.append id
  sign := h.sign

/-- **Where the parentheses before the end of the line are balanced, none is refused.** -/
theorem LiesAt.isOrdinary (h : LiesAt fault front back)
    (hbalanced : Balanced ((front ++ back).takeWhile (· ≠ .eof))) : fault.isOrdinary = true := by
  -- the settled row in front does not matter, so all depends on the refused parenthesis
  have hback (hfront : Settled front) :
      Parser.Closes 0 (back.takeWhile (· ≠ .eof)) := by
    rwa [hfront.takeWhile_append, ← Parser.closes_zero_iff,
      hfront.balanced.closes_append_iff] at hbalanced
  cases fault with
  | unmatchedClosing =>
    obtain ⟨hfront, hhead⟩ := h.closing rfl
    obtain ⟨row, rfl⟩ := List.head?_eq_some_iff.1 hhead
    exact absurd (hback hfront) Parser.not_closes_zero_rparen
  | unmatchedOpening =>
    obtain ⟨hfront, row, rfl, hrow⟩ := h.opening rfl
    obtain ⟨inner, after, hsplit, hinner⟩ :=
      (Parser.closes_lparen_iff.1 (hback hfront)).exists_closing
    have heof : .eof ∉ row.takeWhile (· ≠ .eof) := by
      intro hmem
      have hne := List.all_eq_true.1 (List.all_takeWhile (p := (· ≠ .eof)) (l := row)) _ hmem
      exact of_decide_eq_true hne rfl
    have hwhole := (List.takeWhile_append_dropWhile (p := (· ≠ .eof)) (l := row)).symm
    rw [hsplit, List.append_assoc] at hwhole
    rw [hsplit] at heof
    exact absurd (List.mem_append_left _ (hrow _ _ hwhole (Parser.closes_zero_iff.1 hinner))) heof
  | signWithoutNumber t => exact decide_eq_true (h.sign t rfl)
  | _ => rfl

namespace Parser

variable {α β : Type} {least : Nat} {rest : List Token}

/-! ### What a step comes to -/

/-- What a step may come to on the tokens of a window: it passes over a settled row of at least
`least` tokens, or refuses, or is given up. Then it may have consumed some tokens. -/
inductive Comes (least : Nat) (ts : List Token) : EStateM.Result Failure (List Token) α → Prop where
  | ok (a : α) {row rest : List Token} (hsplit : ts = row ++ rest) (hrow : Settled row)
    (hleast : least ≤ row.length) : Comes least ts (.ok a rest)
  | refused {fault : SyntaxFault} {left : Nat} {front back rest : List Token}
    (hsplit : ts = front ++ back) (hleft : back.length = left) (hlies : LiesAt fault front back)
    (hrest : rest <:+ ts) : Comes least ts (.error (.refused fault left) rest)
  | exhausted {rest : List Token} (hrest : rest <:+ ts) :
    Comes least ts (.error .exhausted rest)

/-- Behind a settled row a step comes to what it comes to without the row. -/
theorem Comes.prepend {result : EStateM.Result Failure (List Token) α} (h : Comes 0 ts result)
    (hrow : Settled row) (hleast : least ≤ row.length) : Comes least (row ++ ts) result := by
  cases h with
  | ok a hsplit hrow' _ =>
    subst hsplit
    refine .ok a (List.append_assoc ..).symm (hrow.append hrow') ?_
    rw [List.length_append]
    omega
  | refused hsplit hleft hlies hrest =>
    subst hsplit
    exact .refused (List.append_assoc ..).symm hleft (hlies.prepend hrow)
      (hrest.trans (List.suffix_append ..))
  | exhausted hrest => exact .exhausted (hrest.trans (List.suffix_append ..))

/-- A step that comes to this on every window. -/
def Orderly (least : Nat) (step : Step α) : Prop :=
  ∀ ts : List Token, Comes least ts (step.run ts)

theorem orderly_pure (a : α) : Orderly 0 (pure a : Step α) :=
  fun _ ↦ .ok a rfl settled_nil (Nat.zero_le _)

theorem Orderly.weaken {step : Step α} (h : Orderly least step) : Orderly 0 step := by
  intro ts
  have hstep := h ts
  generalize step.run ts = result at hstep ⊢
  cases hstep with
  | ok a hsplit hrow _ => exact .ok a hsplit hrow (Nat.zero_le _)
  | refused hsplit hleft hlies hrest => exact .refused hsplit hleft hlies hrest
  | exhausted hrest => exact .exhausted hrest

/-- Orderly steps make an orderly row: the settled rows that they pass over are put together. -/
theorem Orderly.bind {step : Step α} {f : α → Step β} (h : Orderly least step)
    (hf : ∀ a, Orderly 0 (f a)) : Orderly least (step >>= f) := by
  intro ts
  have hstep := h ts
  rcases hrun : step.run ts with ⟨a, rest⟩ | ⟨failure, rest⟩
  · rw [hrun] at hstep
    rw [run_bind_ok hrun]
    cases hstep with
    | ok _ hsplit hrow hleast =>
      subst hsplit
      exact (hf a rest).prepend hrow hleast
  · rw [hrun] at hstep
    rw [run_bind_error hrun]
    cases hstep with
    | refused hsplit hleft hlies hrest => exact .refused hsplit hleft hlies hrest
    | exhausted hrest => exact .exhausted hrest

/-- The token before the window is refused. -/
theorem comes_refuseLast {fault : SyntaxFault} (hlies : LiesAt fault [] (t :: ts)) :
    Comes least (t :: ts) ((refuseLast fault : Step α).run ts) :=
  .refused (List.nil_append _).symm rfl hlies (List.suffix_cons t ts)

/-- The token before the window is refused for something other than an unmatched parenthesis. -/
theorem comes_refuseLast_of_isOrdinary {fault : SyntaxFault}
    (hfault : fault.isOrdinary = true) (t : Token) (ts : List Token) :
    Comes least (t :: ts) ((refuseLast fault : Step α).run ts) :=
  comes_refuseLast (liesAt_of_isOrdinary hfault [] (List.cons_ne_nil t ts))

/-- An orderly step behind a token that is neither a parenthesis nor the end of a line. -/
theorem Orderly.cons {step : Step α} (h : Orderly 0 step) (ht : t.isPlain = true)
    (ts : List Token) : Comes 1 (t :: ts) (step.run ts) :=
  (h ts).prepend (settled_singleton ht) (Nat.le_refl 1)

/-- A step that begins by consuming a token passes over that token, too. -/
theorem orderly_advance_bind {f : Token → Step α}
    (hf : ∀ t ts, Comes 1 (t :: ts) ((f t).run ts)) : Orderly 1 (advance .closed >>= f) := by
  intro ts
  match ts with
  | [] => exact .refused rfl rfl liesAt_unexpectedEnd (List.suffix_refl _)
  | t :: ts =>
    rw [run_bind_ok (run_advance_eq_ok_iff.2 rfl)]
    exact hf t ts

/-! ### The steps of the parser -/

theorem orderly_signed {sign : Token} (hsign : sign = .plus ∨ sign = .minus) :
    Orderly 1 (signed .closed sign) := by
  have hfault : (SyntaxFault.signWithoutNumber sign).isOrdinary = true := decide_eq_true hsign
  refine orderly_advance_bind fun t ts ↦ ?_
  cases t with
  | number x => exact (orderly_pure _).cons rfl ts
  | _ => exact comes_refuseLast_of_isOrdinary hfault _ _

/-- A word passes over itself only. -/
theorem orderly_expect {wanted : Kind} {word : Token} (hword : Token.ofKind? wanted = some word)
    (hplain : word.isPlain = true) : Orderly 1 (expect .closed wanted) := by
  refine orderly_advance_bind fun t ts ↦ ?_
  dsimp only
  split
  case isTrue hkind =>
    rw [(Token.kind_eq_iff hword).1 hkind]
    exact (orderly_pure _).cons hplain ts
  case isFalse => exact comes_refuseLast_of_isOrdinary rfl _ _

/-- A conditional is orderly if its places are. -/
theorem orderly_conditional {body : Step Expr} (h : Orderly 0 body) :
    Orderly 0 (conditional .closed body) := by
  have hthen : Orderly 0 (expect .closed .thenWord) := (orderly_expect rfl rfl).weaken
  have helse : Orderly 0 (expect .closed .elseWord) := (orderly_expect rfl rfl).weaken
  refine h.bind fun left ↦ (orderly_advance_bind fun t ts ↦ ?_).weaken
  dsimp only
  split
  case isTrue hcomparison =>
    have hplain : t.isPlain = true := by
      cases t with
      | less | greater | equal => rfl
      | _ => cases hcomparison
    refine Orderly.cons (h.bind fun right ↦ hthen.bind fun _ ↦ ?_) hplain ts
    exact h.bind fun whenTrue ↦ helse.bind fun _ ↦ h.bind fun whenFalse ↦ orderly_pure _
  case isFalse => exact comes_refuseLast_of_isOrdinary rfl _ _

/-- What a group comes to depends on the search for its closing parenthesis. -/
theorem run_group (body : Step Expr) (ts : List Token) :
    (group .closed body).run ts =
      match findClosing 0 ts with
      | .found inner after =>
        match body.run inner with
        | .ok e _ => .ok (.group e) after
        | .error failure _ => .error (failure.widen (after.length + 1)) ts
      | .illegal left => .error (.refused .unsupported left) ts
      | _ => (refuseLast .unmatchedOpening : Step Expr).run ts := by
  rw [group, run_bind_ok (show (get : Step (List Token)).run ts = .ok ts ts from rfl)]
  rcases findClosing 0 ts with ⟨inner, after⟩ | left | - | -
  · rcases hrun : body.run inner with ⟨e, rest⟩ | ⟨failure, rest⟩
    · simp only [hrun]
      rfl
    · simp only [hrun]
      rfl
  all_goals rfl

/-- A group is passed over as a whole. What is refused inside is no parenthesis, and it is never the
end of the window around. -/
theorem comes_group {body : Step Expr} (h : Orderly 0 body) (ts : List Token) :
    Comes 1 (.lparen :: ts) ((group .closed body).run ts) := by
  rw [run_group]
  rcases hfound : findClosing 0 ts with ⟨inner, after⟩ | left | - | -
  · obtain ⟨rfl, hcloses, hlast⟩ := split_of_findClosing hfound
    have hinner : Settled inner := ⟨closes_zero_iff.1 hcloses, hlast⟩
    have hbody := h inner
    dsimp only
    generalize body.run inner = result at hbody ⊢
    cases hbody with
    | ok e =>
      have hgroup : .lparen :: (inner ++ .rparen :: after) =
          (.lparen :: inner ++ [.rparen]) ++ after := by simp
      exact .ok _ hgroup hinner.group (by simp)
    | @refused fault left front back _ hsplit hleft hlies =>
      have hbalanced : Balanced ((front ++ back).takeWhile (· ≠ .eof)) := by
        rw [← hsplit, hinner.takeWhile_eq]
        exact hinner.balanced
      have hgroup : .lparen :: (inner ++ .rparen :: after) =
          .lparen :: front ++ (back ++ .rparen :: after) := by simp [hsplit]
      refine .refused hgroup ?_ (liesAt_of_isOrdinary (hlies.isOrdinary hbalanced) _ (by simp))
        (List.suffix_cons _ _)
      rw [List.length_append, List.length_cons, hleft]
    | exhausted => exact .exhausted (List.suffix_cons _ _)
  · obtain ⟨hpos, hle⟩ := le_of_findClosing hfound
    have hlength : (ts.drop (ts.length - left)).length = left := by
      rw [List.length_drop]
      omega
    have hsplit : .lparen :: ts =
        .lparen :: ts.take (ts.length - left) ++ ts.drop (ts.length - left) := by
      rw [List.cons_append, List.take_append_drop]
    refine .refused hsplit hlength (liesAt_of_isOrdinary rfl _ ?_) (List.suffix_cons _ _)
    exact List.ne_nil_of_length_pos (by omega)
  all_goals
    have hrow : Unclosed ts := unclosed_of_fails (by rw [hfound]; rfl)
    exact comes_refuseLast (liesAt_unmatchedOpening hrow)

/-- Reading the whole is orderly, since the stray parenthesis that it refuses stands behind a
settled row. -/
theorem orderly_whole {body : Step Expr} (h : Orderly least body) :
    Orderly least (whole .closed body) := by
  refine h.bind fun e ts ↦ ?_
  rw [run_bind_ok (run_peek ts)]
  split
  case h_1 hhead =>
    exact .refused (List.nil_append ts).symm rfl (liesAt_unmatchedClosing hhead)
      (List.suffix_refl ts)
  case h_2 => exact orderly_pure e ts

/-! ### The recursion -/

/-- The three steps of the recursion are orderly. -/
structure OrderlyAt (d : Nat) : Prop where
  primary : Orderly 1 (primary d .closed)
  expr : ∀ power, Orderly 1 (expr d .closed power)
  climb : ∀ power left, Orderly 0 (climb d .closed power left)

/-- A primary expression is orderly if the expressions inside are. -/
theorem OrderlyAt.primary_succ {d : Nat} (h : OrderlyAt d) :
    Orderly 1 (Parser.primary (d + 1) .closed) := by
  rw [Parser.primary]
  refine orderly_advance_bind fun t ts ↦ ?_
  cases t with
  | identifier | number => exact (orderly_pure _).cons rfl ts
  | plus => exact (orderly_signed (.inl rfl)).weaken.cons rfl ts
  | minus => exact (orderly_signed (.inr rfl)).weaken.cons rfl ts
  | lparen => exact comes_group (orderly_whole (h.expr 0).weaken) ts
  | rparen => exact comes_refuseLast (liesAt_unmatchedClosing rfl)
  | ifWord => exact (orderly_conditional h.primary.weaken).cons rfl ts
  | _ => exact comes_refuseLast_of_isOrdinary rfl _ _

/-- So is the row of operators behind an operand. -/
theorem OrderlyAt.climb_succ {d : Nat} (h : OrderlyAt d) (power : Int) (left : Expr) :
    Orderly 0 (Parser.climb (d + 1) .closed power left) := by
  intro ts
  rw [Parser.climb, run_bind_ok (run_peek ts)]
  split
  case h_1 => exact orderly_pure left ts
  case h_2 hhead =>
    refine .refused (List.nil_append _).symm rfl (liesAt_of_isOrdinary rfl _ ?_)
      (List.suffix_refl _)
    rintro rfl
    cases hhead
  case h_3 =>
    split
    case isTrue => exact orderly_pure left ts
    case isFalse =>
      refine (orderly_advance_bind fun t ts ↦ ?_).weaken ts
      dsimp only
      split
      case isTrue hoperator =>
        have hplain : t.isPlain = true := by
          cases t with
          | plus | minus | star | slash | assign => rfl
          | _ => cases hoperator
        exact Orderly.cons ((h.expr _).weaken.bind fun right ↦ h.climb power _) hplain ts
      case isFalse => exact comes_refuseLast_of_isOrdinary rfl _ _

/-- **At every depth the parser is orderly.** -/
theorem orderly (d : Nat) : OrderlyAt d := by
  induction d with
  | zero =>
    exact ⟨fun ts ↦ .exhausted (List.suffix_refl ts), fun _ ts ↦ .exhausted (List.suffix_refl ts),
      fun _ _ ts ↦ .exhausted (List.suffix_refl ts)⟩
  | succ d ih =>
    refine ⟨ih.primary_succ, fun power ↦ ?_, ih.climb_succ⟩
    rw [Parser.expr]
    exact ih.primary.bind fun left ↦ ih.climb power left

end Parser

end Reckoner
