import Reckoner.Proofs.Complete
import Reckoner.Proofs.Spelling
import Reckoner.Sample

/-!
# Random programs are complete

Whatever the dice show, a random expression is a complete line: it is read without a piece that is
no token, its tokens are those of its tree, it has a value where its names are declared, and it
changes no table (`Sample.code_complete`). The depth bounds how many dice are thrown.

A sample fits a level of the grammar if its text spells the tokens of a plain tree of this level
(`Sample.Fits`). What a generator makes, and how many dice it throws for it, is put together along
its steps (`Throw.Yields`). Texts are put together with a blank between them, or in parentheses, so
that their tokens are put together in the same way (`Spells`).
-/

namespace Reckoner

/-! ### Throwing dice -/

namespace Throw

variable {α β : Type} {m : Throw α} {f : α → Throw β} {P : α → Prop} {Q : β → Prop} {k l : Nat}

/-- Whatever the dice show, what is made has the property, and at most `k` dice are thrown. -/
def Yields (m : Throw α) (k : Nat) (P : α → Prop) : Prop :=
  ∀ d, P (m.run d).1 ∧ (m.run d).2.used ≤ d.used + k

theorem yields_pure {a : α} (h : P a) : Yields (pure a) 0 P :=
  fun _ ↦ ⟨h, Nat.le_refl _⟩

/-- Dice that are thrown one after the other add up. -/
theorem Yields.bind (hm : Yields m k P) (hf : ∀ a, P a → Yields (f a) l Q) :
    Yields (m >>= f) (k + l) Q := by
  intro d
  obtain ⟨hP, hused⟩ := hm d
  obtain ⟨hQ, hused'⟩ := hf _ hP (m.run d).2
  exact ⟨hQ, hused'.trans (by omega)⟩

/-- What is made from something that has been thrown for. -/
theorem Yields.map {g : α → β} (hm : Yields m k P) (hg : ∀ a, P a → Q (g a)) :
    Yields (do return g (← m)) k Q :=
  hm.bind fun a ha ↦ yields_pure (hg a ha)

theorem Yields.mono (hm : Yields m k P) (hle : k ≤ l) : Yields m l P :=
  fun d ↦ ⟨(hm d).1, (hm d).2.trans (by omega)⟩

/-- A die shows a number below its sides. -/
theorem yields_below {n : Nat} (hn : 0 < n) : Yields (Dice.below n) 1 (· < n) := by
  intro d
  have hlt := Int.emod_lt_of_pos (d.numbers d.used) (Int.natCast_pos.2 hn)
  have hnonneg := Int.emod_nonneg (d.numbers d.used) (Int.natCast_pos.2 hn).ne'
  refine ⟨?_, Nat.le_refl _⟩
  show (d.numbers d.used % n).toNat < n
  omega

/-- And a choice is one of the texts. -/
theorem yields_choose {texts : List String} (hne : texts ≠ []) :
    Yields (Dice.choose texts) 1 (· ∈ texts) := by
  refine (yields_below (List.length_pos_iff.2 hne)).map fun i hi ↦ ?_
  rw [List.getElem?_eq_getElem hi]
  exact List.getElem_mem hi

end Throw

/-! ### Texts and their tokens -/

/-- The text is read as the tokens, up to its end. -/
def Spells (text : String) (ts : List Token) : Prop :=
  tokenize text = ts ++ [.eof]

instance (text : String) (ts : List Token) : Decidable (Spells text ts) :=
  inferInstanceAs (Decidable (_ = _))

namespace Spells

variable {u v : String} {us vs : List Token}

/-- Behind a blank the tokens go on. -/
theorem blank (hu : Spells u us) (hv : Spells v vs) : Spells (u ++ " " ++ v) (us ++ vs) := by
  have hlayout : " ".toList.all Token.isLayout = true := by decide
  obtain ⟨front, ⟨hillegal, -⟩ | ⟨heof, htext⟩⟩ :=
    tokenize_append_gap u v (by decide) (List.all_eq_true.1 hlayout)
  · rw [hu] at hillegal
    exact absurd (List.append_inj_right' hillegal rfl) (by decide)
  · rw [hu] at heof
    rw [Spells, htext, ← List.append_inj_left' heof rfl, hv, List.append_assoc]

theorem group (h : Spells u us) : Spells ("(" ++ u ++ ")") (.lparen :: us ++ [.rparen]) := by
  rw [Spells, tokenize_wrapped h, List.append_assoc]
  rfl

end Spells

/-- The digits of a number are read as one number. -/
theorem spells_digitsOf (n : Nat) : Spells (String.ofList (Decimal.digitsOf n))
    [.number (Decimal.numeralValue (Decimal.digitsOf n))] := by
  have hdecimal : ∀ c ∈ Decimal.digitsOf n, (Text.decimalDigit? c).isSome = true :=
    fun c hc ↦ Decimal.isSome_of_isDigit (Decimal.isDigit_of_mem_digitsOf hc)
  have hdigit : ∀ c ∈ Decimal.digitsOf n, Text.isDigit c = true :=
    fun c hc ↦ Text.isDigit_of_isSome (hdecimal c hc)
  have hnumeral : Decimal.IsNumeral (Decimal.digitsOf n) :=
    (Decimal.isNumeral_whole_iff (Decimal.point_notMem_of_forall hdecimal)).2 hdecimal
  have hlexeme : Token.Lexeme (Decimal.digitsOf n) []
      (.number (Decimal.numeralValue (Decimal.digitsOf n))) := by
    obtain ⟨c, cs, hcons⟩ :=
      List.exists_cons_of_ne_nil (show Decimal.digitsOf n ≠ [] from Nat.toDigits_ne_nil)
    have hhead : ∃ c ∈ (Decimal.digitsOf n).head?, Text.isDigit c = true :=
      ⟨c, by rw [hcons]; rfl, hdigit c (by rw [hcons]; exact List.mem_cons_self)⟩
    have hall : ∀ c ∈ Decimal.digitsOf n, Token.inNumeral c = true :=
      fun c hc ↦ by rw [Token.inNumeral, hdigit c hc, Bool.true_or]
    have h := Token.Lexeme.numeral hhead hall fun c (hc : c ∈ [].head?) ↦ by cases hc
    rwa [if_pos hnumeral] at h
  have hgap : ∀ c ∈ ([] : List Char), Token.isLayout c = true := by simp
  have hcuts := Token.Cuts.lexeme (List.append_nil _).symm hgap hlexeme (by simp) (.finish hgap)
  rw [Spells, tokenize_eq_scanAll, String.toList_ofList]
  exact congrArg Prod.fst hcuts.scanAll_eq

/-! ### Samples and their trees -/

namespace Sample

open Throw

variable {m : Throw Sample} {s term : Sample} {k : Nat}

/-- The names that samples use. -/
def inputs : List String :=
  names.map (·.1)

/-- The sample spells a plain tree of the level, over the names of samples. -/
def Fits (level : Level) (s : Sample) : Prop :=
  ∃ e : Expr, e.Plain inputs level ∧ Spells s.code e.tokens

/-- Primitives are expressions. -/
theorem Fits.loosen (h : s.Fits .primitive) : s.Fits .sum := by
  obtain ⟨e, he, hspells⟩ := h
  exact ⟨e, .lift .sum (.lift .product (.lift .assignment he)), hspells⟩

/-- In parentheses an expression is a primitive. -/
theorem Fits.grouped (h : s.Fits .sum) : s.grouped.Fits .primitive := by
  obtain ⟨e, he, hspells⟩ := h
  exact ⟨.group e, .group he, hspells.group⟩

/-- The texts of operators and comparisons are those of their tokens. -/
theorem exists_operator {text : String} (h : text ∈ ["+", "-", "*", "/"]) :
    ∃ op ∈ [Token.plus, .minus, .star, .slash], Spells text [op] := by
  revert text
  decide +kernel

/-- The texts of comparisons spell their tokens. -/
theorem exists_comparison {text : String} (h : text ∈ ["<", ">", "=="]) :
    ∃ op ∈ [Token.less, .greater, .equal], Spells text [op] := by
  revert text
  decide +kernel

theorem yields_number : Yields number 1 (Fits .primitive) :=
  (yields_below (by decide)).map fun n _ ↦
    ⟨.number (Decimal.numeralValue (Decimal.digitsOf n)), .number _, spells_digitsOf n⟩

theorem yields_name : Yields name 1 (Fits .primitive) := by
  refine (yields_choose (by decide)).map fun x hx ↦ ⟨.name x, .name hx, ?_⟩
  have hspells : ∀ x ∈ inputs, Spells x [.identifier x] := by decide +kernel
  exact hspells x hx

/-- A conditional is spelled by its parts, with words and blanks between them. -/
theorem yields_conditionalOf (hm : Yields m k (Fits .primitive)) :
    Yields (conditionalOf m) (k + (k + (k + (k + 1)))) (Fits .primitive) := by
  refine hm.bind fun left hleft ↦ hm.bind fun right hright ↦ hm.bind fun whenTrue ht ↦
    hm.bind fun whenFalse hf ↦ (yields_choose (by decide)).map fun text htext ↦ ?_
  obtain ⟨a, ha, hacode⟩ := hleft
  obtain ⟨b, hb, hbcode⟩ := hright
  obtain ⟨t, ht, htcode⟩ := ht
  obtain ⟨e, he, hecode⟩ := hf
  obtain ⟨op, hop, hopcode⟩ := exists_comparison htext
  have hwords : Spells "if" [.ifWord] ∧ Spells "then" [.thenWord] ∧ Spells "else" [.elseWord] := by
    decide +kernel
  obtain ⟨hif, hthen, helse⟩ := hwords
  refine ⟨_, .conditional hop ha hb ht he, ?_⟩
  have hspells := ((((((hif.blank hacode).blank hopcode).blank hbcode).blank hthen).blank
    htcode).blank helse).blank hecode
  rw [Expr.tokens, Expr.tokens_of_comparison hop]
  have htokens : [Token.ifWord] ++ a.tokens ++ [op] ++ b.tokens ++ [.thenWord] ++ t.tokens ++
      [.elseWord] ++ e.tokens = .ifWord :: (a.tokens ++ op :: b.tokens) ++ .thenWord :: t.tokens ++
        .elseWord :: e.tokens := by
    simp
  -- the generator writes the words together with the blanks around them
  have hcode : "if" ++ " " ++ left.code ++ " " ++ text ++ " " ++ right.code ++ " " ++ "then" ++
      " " ++ whenTrue.code ++ " " ++ "else" ++ " " ++ whenFalse.code =
        "if " ++ left.code ++ " " ++ text ++ " " ++ right.code ++ " then " ++ whenTrue.code ++
          " else " ++ whenFalse.code := by
    rw [← String.toList_inj]
    simp
  rwa [htokens, hcode] at hspells

/-- Each operator takes a term behind what has been made. -/
theorem Fits.continued {text : String} {rest : String} (hs : s.Fits .sum)
    (hterm : term.Fits .primitive) (htext : text ∈ ["+", "-", "*", "/"]) :
    Fits .sum ⟨s.code ++ " " ++ text ++ " " ++ term.code, rest⟩ := by
  obtain ⟨e, he, hcode⟩ := hs
  obtain ⟨b, hb, hbcode⟩ := hterm
  obtain ⟨op, hop, hopcode⟩ := exists_operator htext
  obtain ⟨joined, hjoined, htokens⟩ := he.exists_join hb hop
  refine ⟨joined, hjoined, ?_⟩
  have hspells := (hcode.blank hopcode).blank hbcode
  rwa [List.append_assoc, List.singleton_append, ← htokens] at hspells

/-- Each round adds an operator and an operand. -/
theorem yields_continueWith (hm : Yields m k (Fits .primitive)) (n : Nat) (hs : s.Fits .sum) :
    Yields (continueWith m n s) (n * (k + 1)) (Fits .sum) := by
  induction n generalizing s with
  | zero => exact (yields_pure hs).mono (Nat.zero_le _)
  | succ n ih =>
    have hstep : Yields (continueWith m (n + 1) s) (1 + (k + n * (k + 1))) (Fits .sum) :=
      (yields_choose (by decide)).bind fun text htext ↦ hm.bind fun term hterm ↦
        ih (hs.continued hterm htext)
    exact hstep.mono (by rw [Nat.succ_mul]; omega)

/-- So expressions are made of primitives. -/
theorem yields_expressionOf (hm : Yields m k (Fits .primitive)) :
    Yields (expressionOf m) (4 * k + 4) (Fits .sum) := by
  have hstep : Yields (expressionOf m) (k + (1 + 3 * (k + 1))) (Fits .sum) :=
    hm.bind fun first hfirst ↦ (yields_below (by decide)).bind fun n hn ↦
      (yields_continueWith hm n hfirst.loosen).mono (Nat.mul_le_mul_right _ (by omega))
  exact hstep.mono (by omega)

/-- **A primary expression is a primitive of the grammar, and its depth bounds the dice.** -/
theorem yields_primaryOf (depth : Nat) :
    Yields (primaryOf depth) (4 ^ (depth + 1) - 2) (Fits .primitive) := by
  induction depth with
  | zero =>
    have hstep : Yields (primaryOf 0) (1 + 1) (Fits .primitive) := by
      refine (yields_below (by decide)).bind fun i _ ↦ ?_
      match i with
      | 0 => exact yields_number
      | _ + 1 => exact yields_name
    exact hstep
  | succ depth ih =>
    have hpow : 4 ^ (depth + 1 + 1) = 4 * 4 ^ (depth + 1) := Nat.pow_succ'
    have hpos : 4 ≤ 4 ^ (depth + 1) := Nat.le_self_pow (Nat.succ_ne_zero _) 4
    have hstep : Yields (primaryOf (depth + 1)) (1 + (4 * (4 ^ (depth + 1) - 2) + 4))
        (Fits .primitive) := by
      refine (yields_below (by decide)).bind fun i _ ↦ ?_
      match i with
      | 0 => exact yields_number.mono (by omega)
      | 1 => exact yields_name.mono (by omega)
      | 2 => exact (yields_expressionOf ih).map fun _ h ↦ h.grouped
      | _ + 3 => exact (yields_conditionalOf ih).mono (by omega)
    exact hstep.mono (by omega)

/-- The three generators make expressions. -/
theorem yields_of_mem {make : Int → Throw Sample}
    (hmake : make ∈ [primary, conditional, expression]) (depth : Int) :
    Yields (make depth) (4 ^ (depth.toNat + 2)) (Fits .sum) := by
  have hprimary : Yields (primary depth) _ (Fits .primitive) := yields_primaryOf depth.toNat
  have hpow : 4 ^ (depth.toNat + 2) = 4 * 4 ^ (depth.toNat + 1) := Nat.pow_succ'
  have hpos : 4 ≤ 4 ^ (depth.toNat + 1) := Nat.le_self_pow (Nat.succ_ne_zero _) 4
  simp only [List.mem_cons, List.not_mem_nil, or_false] at hmake
  rcases hmake with rfl | rfl | rfl
  · exact fun d ↦ ((hprimary.mono (by omega)) d).imp_left Fits.loosen
  · exact fun d ↦ (((yields_conditionalOf hprimary).mono (by omega)) d).imp_left Fits.loosen
  · exact (yields_expressionOf hprimary).mono (by omega)

/-- **Whatever the dice show, a random expression is a complete line.** This holds of the three
generators of expressions at every depth, also below zero. The text is read without a piece that is
no token, it has a tree, and the tokens of the tree are those of the text but for the end of the
line, so that the parser passes over none of them. In every session in which the evaluator's units
may be run and the names of samples are declared, the text has a value, and no table is changed.
The generator comes to its end: the dice that it throws are bounded by the depth. -/
theorem code_complete (make : Int → Throw Sample)
    (hmake : make ∈ [primary, conditional, expression]) (depth : Int) (dice : Dice) :
    let code := ((make depth).run dice).1.code
    Token.illegal ∉ tokenize code ∧
      (∃ e, parse (tokenize code) = .ok e ∧ tokenize code = e.tokens ++ [.eof]) ∧
      (∀ (s : Session) (ev : Nat), (s.settings ev).target ≠ .refusing →
        (∀ fault, (s.settings ev).listings ≠ .blocked fault) →
        (∀ x ∈ ["x", "y", "z"], x ∈ (s.table ev).names) →
        ∃ x, (s.run ev code).1 = .result x ∧ (s.run ev code).2.2.tables = s.tables ∧
          (s.run ev code).2.2.storage = s.storage) ∧
      ((make depth).run dice).2.used ≤ dice.used + 4 ^ (depth.toNat + 2) := by
  intro code
  obtain ⟨⟨e, he, hspells⟩, hused⟩ := yields_of_mem hmake depth dice
  have hcode : tokenize code = e.tokens ++ [.eof] := hspells
  refine ⟨?_, ⟨e, hcode ▸ he.parse_tokens, hcode⟩, ?_, hused⟩
  · rw [hcode, List.mem_append, List.mem_singleton]
    rintro (hmem | heof)
    · exact Bool.false_ne_true (he.settled.isLast_eq_false _ hmem).symm
    · cases heof
  · intro s ev htarget hlistings hdeclared
    refine s.run_of_plain ev he hcode ?_ fun x hx ↦ hdeclared x hx
    rw [Settings.refusal?_of_ne_blocked hlistings, if_neg htarget]

/-- A conditional without parentheses between two operators, and a group at the end. -/
theorem code_complete_bare_conditional :
    let dice := Dice.ofList [0, 1, 2, 0, 3, 1, 0, 1, 1, 1, 2, 0, 3, 2, 2, 2, 0, 4, 0]
    let code := "1 + if x == y then z else 3 * (4)"
    ((expression 1).run dice).1.code = code ∧
      (∃ e, parse (tokenize code) = .ok e ∧ tokenize code = e.tokens ++ [.eof]) ∧
      ∃ x, ((session .native).run 0 code).1 = .result x ∧
        ((session .native).run 0 code).2.2.tables = (session .native).tables ∧
        ((session .native).run 0 code).2.2.storage = (session .native).storage := by
  intro dice code
  have hcode : ((expression 1).run dice).1.code = code := by decide +kernel
  obtain ⟨-, htree, hrun, -⟩ := code_complete expression (by simp) 1 dice
  rw [hcode] at htree hrun
  have hlistings : ((session .native).settings 0).listings = .nowhere := by decide +kernel
  refine ⟨hcode, htree, hrun (session .native) 0 (by decide +kernel) (fun fault h ↦ ?_)
    (by decide +kernel)⟩
  rw [hlistings] at h
  cases h

end Sample

end Reckoner
