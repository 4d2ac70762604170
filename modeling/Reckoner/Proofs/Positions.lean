import Reckoner.Proofs.Parsing
import Reckoner.Proofs.Scanning

/-!
# Where parsing stops

The list of tokens of a line is sealed: its last token ends the line (`sealed_tokenize`). The parser
never passes over that token, so it never looks behind the list, and whatever it refuses is a token
of the list (`exists_of_parse_eq_error`). Inside of a group the window is not sealed, but there the
closing parenthesis stands behind it.

A step is told to *behave* on short windows if it leaves a part of the window, which is sealed if
the window was, or refuses a token. Steps that behave may follow each other. That every step of the
parser behaves is shown by induction on the depth of the recursion, which is never exhausted: each
call of depth two consumes a token.
-/

namespace Reckoner

/-- A list whose last token ends a line. -/
def Sealed (ts : List Token) : Prop :=
  ∃ t ∈ ts.getLast?, t.isLast = true

instance (ts : List Token) : Decidable (Sealed ts) :=
  inferInstanceAs (Decidable (∃ t ∈ ts.getLast?, _))

theorem not_sealed_nil : ¬Sealed [] := by
  decide

/-- A sealed list has a last token. -/
theorem Sealed.length_pos {ts : List Token} (h : Sealed ts) : 0 < ts.length := by
  cases ts with
  | nil => exact absurd h not_sealed_nil
  | cons => exact Nat.succ_pos _

/-- What is left of a sealed list is sealed, if the last token that was taken does not end a
line. -/
theorem Sealed.of_append (front : List Token) {rest : List Token} {t : Token}
    (h : Sealed (front ++ t :: rest)) (ht : t.isLast = false) : Sealed rest := by
  obtain ⟨last, hlast, hends⟩ := h
  cases rest with
  | nil =>
    obtain rfl : t = last := by simpa using hlast
    rw [ht] at hends
    cases hends
  | cons t' rest =>
    refine ⟨last, ?_, hends⟩
    simpa [List.getLast?_cons_cons] using hlast

/-- The lexer always comes to an end of its own. -/
theorem sealed_scanAll (cs : List Char) : Sealed (Token.scanAll cs).1 := by
  induction cs using Token.scanAll.induct with
  | case1 cs step hlast =>
    rw [Token.scanAll, dif_pos hlast]
    exact ⟨step.1, rfl, hlast⟩
  | case2 cs step hlast ih =>
    rw [Token.scanAll, dif_neg hlast]
    obtain ⟨t, ht, hends⟩ := ih
    exact ⟨t, List.mem_getLast?_cons ht, hends⟩

/-- The tokens of a line are sealed. -/
theorem sealed_tokenize (line : String) : Sealed (tokenize line) := by
  rw [tokenize_eq_scanAll]
  exact sealed_scanAll line.toList

namespace Parser

variable {α β : Type} {n : Nat} {ts : List Token}

/-- What a step may come to on a window. It leaves a part of the window, or it refuses a token of
the window; with slack, it may refuse a token before the window. -/
inductive Behaved (ts : List Token) (slack : Nat) :
    EStateM.Result Failure (List Token) α → Prop where
  | ok (a : α) {rest : List Token} (hle : rest.length ≤ ts.length)
    (hsealed : Sealed ts → Sealed rest) : Behaved ts slack (.ok a rest)
  | refused (fault : SyntaxFault) {left : Nat} (rest : List Token) (hle : left ≤ ts.length + slack)
    (hpos : Sealed ts → 0 < left) : Behaved ts slack (.error (.refused fault left) rest)

/-- What behaves is not given up. -/
theorem Behaved.place_ne {slack : Nat} {result : EStateM.Result Failure (List Token) α}
    (h : Behaved ts slack result) (p q : Parser) : p.place result ≠ .error .exhausted q := by
  intro hplace
  cases h with
  | ok | refused => cases hplace

/-- A step behaves on all windows of at most `n` tokens. -/
def Behaves (n slack : Nat) (step : Step α) : Prop :=
  ∀ ts : List Token, ts.length ≤ n → Behaved ts slack (step.run ts)

/-! ### Combining steps -/

/-- What a step comes to on a part of a window, it comes to on the window. -/
theorem Behaved.widen {rest : List Token} {slack slack' : Nat}
    {result : EStateM.Result Failure (List Token) α} (h : Behaved rest slack result)
    (hle : rest.length ≤ ts.length) (hslack : rest.length + slack ≤ ts.length + slack')
    (hsealed : Sealed ts → Sealed rest) : Behaved ts slack' result := by
  cases h with
  | ok a hle' hsealed' => exact .ok a (Nat.le_trans hle' hle) fun h ↦ hsealed' (hsealed h)
  | refused fault rest' hle' hpos =>
    exact .refused fault rest' (Nat.le_trans hle' hslack) fun h ↦ hpos (hsealed h)

theorem behaves_pure (a : α) {slack : Nat} : Behaves n slack (pure a : Step α) :=
  fun _ _ ↦ .ok a (Nat.le_refl _) id

/-- The token just consumed stands before the window, which takes the slack. -/
theorem behaves_refuseLast (fault : SyntaxFault) : Behaves n 1 (refuseLast fault : Step α) :=
  fun _ _ ↦ .refused fault _ (Nat.le_refl _) fun _ ↦ Nat.succ_pos _

theorem Behaves.slack {step : Step α} (h : Behaves n 0 step) : Behaves n 1 step :=
  fun ts hts ↦ (h ts hts).widen (Nat.le_refl _) (Nat.le_succ _) id

theorem Behaves.mono {step : Step α} {m slack : Nat} (h : Behaves n slack step) (hle : m ≤ n) :
    Behaves m slack step :=
  fun ts hts ↦ h ts (Nat.le_trans hts hle)

/-- Steps behave one behind the other. -/
theorem Behaves.bind {step : Step α} {f : α → Step β} (h : Behaves n 0 step)
    (hf : ∀ a, Behaves n 0 (f a)) : Behaves n 0 (step >>= f) := by
  intro ts hts
  have hstep := h ts hts
  rcases hrun : step.run ts with ⟨a, rest⟩ | ⟨failure, rest⟩
  · rw [hrun] at hstep
    rw [run_bind_ok hrun]
    cases hstep with
    | ok _ hle hsealed => exact (hf a rest (Nat.le_trans hle hts)).widen hle hle hsealed
  · rw [hrun] at hstep
    rw [run_bind_error hrun]
    cases hstep with
    | refused fault _ hle hpos => exact .refused fault _ hle hpos

/-- Behind a token that was consumed a step may refuse that token, and has to if the token ends a
line. -/
theorem behaves_advance_bind {f : Token → Step α}
    (hf : ∀ t, t.isLast = false → ∀ m, m < n → Behaves m 1 (f t))
    (hlast : ∀ t, t.isLast = true → ∃ fault, f t = refuseLast fault) :
    Behaves n 0 (advance .closed >>= f) := by
  intro ts hts
  cases ts with
  | nil => exact .refused _ _ (Nat.le_refl _) fun h ↦ absurd h not_sealed_nil
  | cons t ts =>
    rw [run_bind_ok (run_advance_eq_ok_iff.2 rfl)]
    rcases ht : t.isLast with - | -
    · exact (hf t ht ts.length hts ts (Nat.le_refl _)).widen (Nat.le_succ _) (Nat.le_refl _)
        fun h ↦ h.of_append [] ht
    · obtain ⟨fault, hfault⟩ := hlast t ht
      rw [hfault]
      exact .refused fault _ (Nat.le_refl _) fun _ ↦ Nat.succ_pos _

/-! ### The steps of the parser -/

/-- A sign behaves: the token behind it may be refused, but not one before the window. -/
theorem behaves_signed (sign : Token) : Behaves n 0 (signed .closed sign) := by
  refine behaves_advance_bind (fun t _ m _ ↦ ?_) fun t ht ↦ ?_
  · cases t with
    | number x => exact behaves_pure _
    | _ => exact behaves_refuseLast _
  · cases t with
    | eof | illegal => exact ⟨_, rfl⟩
    | _ => cases ht

/-- A missing word is refused where another token stands. -/
theorem behaves_expect {wanted : Kind} (hwanted : wanted = .thenWord ∨ wanted = .elseWord) :
    Behaves n 0 (expect .closed wanted) := by
  refine behaves_advance_bind (fun t _ m _ ↦ ?_) fun t ht ↦ ?_
  · dsimp only
    split
    · exact behaves_pure _
    · exact behaves_refuseLast _
  · have hne : t.kind ≠ wanted := by
      rcases hwanted with rfl | rfl <;> cases t <;> simp_all [Token.isLast, Token.kind]
    exact ⟨_, if_neg hne⟩

/-- A conditional behaves if its four places do. -/
theorem behaves_conditional {body : Step Expr} (h : Behaves n 0 body) :
    Behaves n 0 (conditional .closed body) := by
  refine h.bind fun left ↦ behaves_advance_bind (fun t _ m hm ↦ ?_) fun t ht ↦ ?_
  · have hm := h.mono (Nat.le_of_lt hm)
    dsimp only
    split
    · refine Behaves.slack (hm.bind fun right ↦ ?_)
      refine (behaves_expect (.inl rfl)).bind fun _ ↦ hm.bind fun whenTrue ↦ ?_
      exact (behaves_expect (.inr rfl)).bind fun _ ↦ hm.bind fun whenFalse ↦ behaves_pure _
    · exact behaves_refuseLast _
  · have hcomparison : ¬t.kind.isComparison = true := by
      cases t <;> simp_all [Token.isLast, Token.kind, Kind.isComparison]
    exact ⟨_, if_neg hcomparison⟩

/-- What stops the search behind a passed token stops it without that token. -/
theorem illegal_of_cons {c : Closing} {t : Token} {left : Nat} (h : c.cons t = .illegal left) :
    c = .illegal left := by
  cases c with
  | found => cases h
  | _ => exact h

/-- The search for a closing parenthesis stops at an illegal token of the list. -/
theorem le_of_findClosing {depth left : Nat} (h : findClosing depth ts = .illegal left) :
    0 < left ∧ left ≤ ts.length := by
  induction ts generalizing depth with
  | nil => cases h
  | cons t ts ih =>
    have hrest {depth : Nat} (h : (findClosing depth ts).cons t = .illegal left) :
        0 < left ∧ left ≤ (t :: ts).length := by
      obtain ⟨hpos, hle⟩ := ih (illegal_of_cons h)
      exact ⟨hpos, Nat.le_succ_of_le hle⟩
    cases t with
    | illegal =>
      cases h
      exact ⟨Nat.succ_pos _, Nat.le_refl _⟩
    | eof => cases h
    | rparen =>
      cases depth with
      | zero => cases h
      | succ depth => exact hrest h
    | _ => exact hrest h

/-- A group behaves, if its body does on what is inside: the closing parenthesis seals it. -/
theorem behaves_group {body : Step Expr} (h : ∀ m < n, Behaves m 0 body) :
    Behaves n 1 (group .closed body) := by
  intro ts hts
  rw [group, run_bind_ok (show (get : Step (List Token)).run ts = .ok ts ts from rfl)]
  rcases hfound : findClosing 0 ts with ⟨inner, after⟩ | left | - | -
  · obtain ⟨rfl, -, -⟩ := split_of_findClosing hfound
    rw [List.length_append, List.length_cons] at hts
    have hinner := h inner.length (by omega) inner (Nat.le_refl _)
    rcases hrun : body.run inner with ⟨e, rest⟩ | ⟨failure, rest⟩
    · simp only [hrun]
      refine .ok _ ?_ fun h ↦ h.of_append inner rfl
      rw [List.length_append, List.length_cons]
      omega
    · rw [hrun] at hinner
      -- the position of what is refused counts from the closing parenthesis on
      cases hinner with
      | refused fault _ hle hpos =>
        simp only [hrun]
        refine .refused fault _ ?_ fun _ ↦ Nat.succ_pos _
        rw [List.length_append, List.length_cons]
        omega
  · obtain ⟨hpos, hle⟩ := le_of_findClosing hfound
    exact .refused _ _ (Nat.le_succ_of_le hle) fun _ ↦ hpos
  · exact behaves_refuseLast _ ts hts
  · exact behaves_refuseLast _ ts hts

/-- The stray parenthesis that is refused behind the expression is the next token. -/
theorem behaves_whole {body : Step Expr} (h : Behaves n 0 body) :
    Behaves n 0 (whole .closed body) := by
  refine h.bind fun e ts hts ↦ ?_
  rw [run_bind_ok (run_peek ts)]
  cases ts with
  | nil => exact behaves_pure e [] hts
  | cons t ts =>
    cases t with
    | rparen => exact .refused _ _ (Nat.le_refl _) fun _ ↦ Nat.succ_pos _
    | _ => exact behaves_pure e _ hts

/-! ### The recursion -/

/-- At a sufficient depth the parser behaves. -/
structure Sufficient (d : Nat) : Prop where
  primary : ∀ n, 2 * n + 1 ≤ d → Behaves n 0 (primary d .closed)
  expr : ∀ n power, 2 * n + 2 ≤ d → Behaves n 0 (expr d .closed power)
  climb : ∀ n power left, 2 * n + 1 ≤ d → Behaves n 0 (climb d .closed power left)

/-- A primary expression needs one level more than what is inside. -/
theorem Sufficient.primary_succ {d : Nat} (h : Sufficient d) (hd : 2 * n + 1 ≤ d + 1) :
    Behaves n 0 (Parser.primary (d + 1) .closed) := by
  rw [Parser.primary]
  refine behaves_advance_bind (fun t ht m hm ↦ ?_) fun t ht ↦ ?_
  · cases t with
    | identifier | number => exact behaves_pure _
    | plus | minus => exact (behaves_signed _).slack
    | lparen => exact behaves_group fun k hk ↦ behaves_whole (h.expr k 0 (by omega))
    | ifWord => exact (behaves_conditional (h.primary m (by omega))).slack
    | eof | illegal => cases ht
    | _ => exact behaves_refuseLast _
  · cases t with
    | eof | illegal => exact ⟨_, rfl⟩
    | _ => cases ht

/-- So does the row of operators behind an operand, each of which consumes a token. -/
theorem Sufficient.climb_succ {d : Nat} (h : Sufficient d) (hd : 2 * n + 1 ≤ d + 1) (power : Int)
    (left : Expr) : Behaves n 0 (Parser.climb (d + 1) .closed power left) := by
  intro ts hts
  rw [Parser.climb, run_bind_ok (run_peek ts)]
  split
  · exact behaves_pure left ts hts
  · exact .refused _ _ (Nat.le_refl _) Sealed.length_pos
  · split
    · exact behaves_pure left ts hts
    -- the operator is consumed, so that its right operand stands in a shorter window
    · refine behaves_advance_bind (fun t _ m hm ↦ ?_) (fun t ht ↦ ?_) ts hts
      · dsimp only
        split
        · exact Behaves.slack ((h.expr m _ (by omega)).bind fun right ↦
            h.climb m power _ (by omega))
        · exact behaves_refuseLast _
      · have hoperator : ¬(t.kind.isArithmetic || decide (t.kind = .assign)) = true := by
          cases t <;> simp_all [Token.isLast, Token.kind, Kind.isArithmetic]
        exact ⟨_, if_neg hoperator⟩

/-- **Depth twice the number of tokens is sufficient.** -/
theorem sufficient (d : Nat) : Sufficient d := by
  induction d with
  | zero => exact ⟨fun n hn ↦ by omega, fun n _ hn ↦ by omega, fun n _ _ hn ↦ by omega⟩
  | succ d ih =>
    refine ⟨fun n ↦ ih.primary_succ, fun n power hn ↦ ?_, fun n power left hn ↦
      ih.climb_succ hn power left⟩
    rw [Parser.expr]
    exact (ih.primary n (by omega)).bind fun left ↦ ih.climb n power left (by omega)

/-- Reading a list of tokens as a whole behaves, at every depth from the bound on. -/
theorem behaved_whole {d : Nat} (hd : depthBound ts.length ≤ d) :
    Behaved ts 0 ((whole .closed (expr d .closed 0)).run ts) :=
  behaves_whole ((sufficient d).expr ts.length 0 hd) ts (Nat.le_refl _)

end Parser

/-- **What the parser refuses in a sealed list is a token of the list.** -/
theorem exists_of_parse_eq_error {ts : List Token} {why : ParseError} (hts : Sealed ts)
    (h : parse ts = .error why) :
    ∃ fault index, why = .syntaxError ⟨fault, index⟩ ∧ 0 ≤ index ∧ index < ts.length := by
  have hbehaved := Parser.behaved_whole (Nat.le_refl (Parser.depthBound ts.length))
  rw [parse_eq_conclude] at h
  rcases hrun : (Parser.whole .closed (Parser.expr (Parser.depthBound ts.length) .closed 0)).run ts
    with ⟨e, rest⟩ | ⟨failure, rest⟩
  · rw [hrun] at h
    cases h
  · rw [hrun] at hbehaved h
    cases hbehaved with
    | @refused fault left _ hle hpos =>
      cases h
      refine ⟨fault, _, rfl, ?_⟩
      have hpos := hpos hts
      have hposition : (Parser.ofTokens ts).position = 0 := rfl
      simp only [Parser.indexOf, Parser.window_ofTokens, hposition]
      omega

end Reckoner
