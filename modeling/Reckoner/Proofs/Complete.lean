import Reckoner.Proofs.Lines
import Reckoner.Proofs.Wrapping

/-!
# Complete lines

A line is complete if the parser passes over none of its tokens, that is if they are the tokens of
its tree, in order (`Expr.tokens`). The trees here have neither signs nor assignments, and nothing
follows the expression of a group (`Expr.Plain`). Such a tree is parsed from its own tokens
(`Plain.parse_tokens`), it has a value wherever its names are declared, and evaluating it changes no
table (`Session.run_of_plain`).

Plain trees are closed under what makes longer lines of shorter ones. This is immediate except for
an operator behind a line: where it binds tighter than an operator before it, it takes only the last
operand (`Plain.exists_join`).
-/

namespace Reckoner

theorem Settled.cons {t : Token} {ts : List Token} (h : Settled ts) (ht : t.isPlain = true) :
    Settled (t :: ts) :=
  (settled_singleton ht).append h

theorem Level.isPlain_of_mem {level : Level} {op : Token} (h : op ∈ level.operators) :
    op.isPlain = true := by
  revert op
  cases level <;> decide

theorem Token.isPlain_of_comparison {op : Token} (h : op ∈ [.less, .greater, .equal]) :
    op.isPlain = true := by
  revert op
  decide

namespace Expr

variable {e a b : Expr} {op : Token} {names declared : List String} {level : Level}

/-! ### The tokens of a tree -/

/-- The tokens that a tree consists of, in the order of the line. -/
def tokens : Expr → List Token
  | number x => [.number x]
  | name x => [.identifier x]
  | unary sign e => (Token.ofKind? sign).toList ++ e.tokens
  | binary op a b => a.tokens ++ (Token.ofKind? op).toList ++ b.tokens
  | group e => .lparen :: e.tokens ++ [.rparen]
  | conditional c t e =>
    .ifWord :: c.tokens ++ .thenWord :: t.tokens ++ .elseWord :: e.tokens
  | foreign _ => []

/-- An operator is spelled between its operands. -/
theorem tokens_binary (h : Token.ofKind? op.kind = some op) :
    (binary op.kind a b).tokens = a.tokens ++ op :: b.tokens := by
  rw [tokens, h, Option.toList_some, List.append_assoc, List.singleton_append]

/-- The operators of the levels and the comparisons stand between their operands. -/
theorem tokens_of_mem (h : op ∈ level.operators) :
    (binary op.kind a b).tokens = a.tokens ++ op :: b.tokens := by
  refine tokens_binary ?_
  revert op
  cases level <;> decide

theorem tokens_of_comparison (h : op ∈ [.less, .greater, .equal]) :
    (binary op.kind a b).tokens = a.tokens ++ op :: b.tokens := by
  refine tokens_binary ?_
  revert op
  decide

/-! ### Plain trees -/

/-- The trees of a level that have neither signs nor assignments, and only certain names. -/
inductive Plain (names : List String) : Level → Expr → Prop where
  | number (x : Float) : Plain names .primitive (number x)
  | name {x : String} (hx : x ∈ names) : Plain names .primitive (name x)
  | group {e : Expr} (h : Plain names .sum e) : Plain names .primitive (group e)
  | conditional {comparison : Token} {a b t e : Expr}
    (hcomparison : comparison ∈ [.less, .greater, .equal]) (ha : Plain names .primitive a)
    (hb : Plain names .primitive b) (ht : Plain names .primitive t)
    (he : Plain names .primitive e) :
    Plain names .primitive (conditional (binary comparison.kind a b) t e)
  | lift (level : Level) {e : Expr} (h : Plain names level.tighter e) : Plain names level e
  | operator {level : Level} {op : Token} {a b : Expr} (hop : op ∈ level.operators)
    (hassign : op ≠ .assign) (ha : Plain names level a) (hb : Plain names level.tighter b) :
    Plain names level (binary op.kind a b)

namespace Plain

/-- The tokens of a plain tree are settled. -/
theorem settled (h : e.Plain names level) : Settled e.tokens := by
  induction h with
  | number | name => exact settled_singleton rfl
  | group _ ih => exact ih.group
  | conditional hcomparison _ _ _ _ iha ihb iht ihe =>
    rw [tokens, tokens_of_comparison hcomparison]
    have hcondition := iha.append (ihb.cons (Token.isPlain_of_comparison hcomparison))
    exact ((hcondition.cons rfl).append (iht.cons rfl)).append (ihe.cons rfl)
  | lift _ _ ih => exact ih
  | operator hop _ _ _ iha ihb =>
    rw [tokens_of_mem hop]
    exact iha.append (ihb.cons (Level.isPlain_of_mem hop))

/-- **A plain tree derives from its own tokens.** -/
theorem derives (h : e.Plain names level) : Derives level e.tokens e := by
  induction h with
  | number x => exact .number x
  | @name x _ => exact .identifier x
  | @group e h ih =>
    have hsettled := h.settled
    rw [← List.append_nil e.tokens] at hsettled
    have hgroup := @Derives.group e.tokens [] e ih (by decide) hsettled.balanced
      hsettled.isLast_eq_false
    rwa [List.append_nil] at hgroup
  | conditional hcomparison _ _ _ _ iha ihb iht ihe =>
    have hderives := Derives.conditional hcomparison iha ihb iht ihe
    rw [tokens, tokens_of_comparison hcomparison]
    simpa only [List.cons_append, List.append_assoc] using hderives
  | lift level _ ih => exact .lift level ih
  | operator hop _ _ _ iha ihb =>
    rw [tokens_of_mem hop]
    exact .operator hop iha ihb

/-- A plain tree is parsed from its own tokens, and none of them is left over. -/
theorem parse_tokens (h : e.Plain names .sum) : parse (e.tokens ++ [.eof]) = .ok e :=
  parse_eq_ok_iff_reading.2 ⟨e.tokens, [.eof], rfl, h.derives, by decide⟩

/-! ### Evaluation -/

theorem exists_meaning (hop : op ∈ level.operators) (hassign : op ≠ .assign) :
    ∃ f, op.kind.meaning? = some f :=
  (Level.meaning?_of_mem hop).resolve_left fun hkind ↦ hassign ((Token.kind_eq_iff rfl).1 hkind)

/-- Where its names are declared a plain tree has a meaning, and it declares no more names. -/
theorem scoped_of_subset (h : e.Plain names level) (hnames : names ⊆ declared) :
    e.Scoped declared declared := by
  induction h with
  | number x => exact .number x
  | name hx => exact .name (hnames hx)
  | group _ ih => exact .group ih
  | conditional hcomparison _ _ _ _ iha ihb iht ihe =>
    obtain ⟨f, hf⟩ := meaning?_of_comparison hcomparison
    exact .conditional (.operator hf iha ihb) iht ihe
  | lift _ _ ih => exact ih
  | operator hop hassign _ _ iha ihb =>
    obtain ⟨f, hf⟩ := exists_meaning hop hassign
    exact .operator hf iha ihb

/-- Evaluating a plain tree writes nothing. -/
theorem eval_snd {σ : Type} (h : e.Plain names level) (M : Memory σ) (s : σ) :
    (e.eval M s).2 = s := by
  induction h with
  | number | name => rfl
  | group _ ih | lift _ _ ih => exact ih
  | conditional hcomparison _ _ _ _ iha ihb iht ihe =>
    obtain ⟨f, hf⟩ := meaning?_of_comparison hcomparison
    simp only [eval, hf, iha, ihb]
    split
    · exact ihe
    · exact iht
  | operator hop hassign _ _ iha ihb =>
    obtain ⟨f, hf⟩ := exists_meaning hop hassign
    simp only [eval, hf, iha, ihb]

/-- Where units may be run, a plain tree has a value, and the table stays as it is. -/
theorem exists_outcome {c : Settings} {v : Variables} (h : e.Plain names level)
    (hwhy : c.refusal? = none) (hnames : names ⊆ v.names) (unit : String) :
    ∃ x, (evaluate c unit e v).outcome = (.ok x, v) := by
  have hscoped : e.Scoped v.names (v.names ++ []) := by
    rw [List.append_nil]
    exact h.scoped_of_subset hnames
  rw [outcome_of_scoped hscoped hwhy unit, Variables.extend_nil]
  refine ⟨(e.eval (.bySlot v.slotOf) v.storage).1, ?_⟩
  rw [effect]
  simp only [h.eval_snd]

/-! ### Going on with an operator -/

/-- **An operator may be put behind a plain tree, with a primitive as its right operand.** A sum
takes the primitive as its right operand; a product takes it together with the last summand. -/
theorem exists_join (he : e.Plain names .sum) (hb : b.Plain names .primitive)
    (hop : op ∈ [.plus, .minus, .star, .slash]) :
    ∃ e' : Expr, e'.Plain names .sum ∧ e'.tokens = e.tokens ++ op :: b.tokens := by
  have hoperand : b.Plain names .assignment := .lift .assignment hb
  by_cases hsum : op ∈ Level.sum.operators
  · refine ⟨_, .operator hsum ?_ he (.lift .product hoperand), tokens_of_mem hsum⟩
    rintro rfl
    exact absurd hsum (by decide)
  · have hproduct : op ∈ Level.product.operators := by
      revert op
      decide
    have hassign : op ≠ .assign := by
      rintro rfl
      exact absurd hproduct (by decide)
    cases he with
    | lift _ h =>
      exact ⟨_, .lift .sum (.operator hproduct hassign h hoperand), tokens_of_mem hproduct⟩
    | operator hfirst hne hleft hright =>
      -- the product does not take the whole sum, so the tree is taken apart at its last operator
      refine ⟨_, .operator hfirst hne hleft (.operator hproduct hassign hright hoperand), ?_⟩
      rw [tokens_of_mem hfirst, tokens_of_mem hproduct, tokens_of_mem hfirst, List.append_assoc,
        List.cons_append]

end Plain

end Expr

namespace Session

variable {line : String} {e : Expr} {names : List String}

/-- A line that consists of a plain tree has a value, and changes no table. -/
theorem run_of_plain (s : Session) (ev : Nat) (h : e.Plain names .sum)
    (hline : tokenize line = e.tokens ++ [.eof]) (hwhy : (s.settings ev).refusal? = none)
    (hnames : names ⊆ (s.table ev).names) :
    ∃ x, (s.run ev line).1 = .result x ∧ (s.run ev line).2.2.tables = s.tables ∧
      (s.run ev line).2.2.storage = s.storage := by
  have htree : parse (tokenize line) = .ok e := hline ▸ h.parse_tokens
  obtain ⟨x, hx⟩ := h.exists_outcome hwhy hnames (unitName (s.backendOf ev))
  have hanswers := s.answers ev (.run line)
  rw [s.response_of_tree ev htree, hx] at hanswers
  exact ⟨x, hanswers.reply_eq, hanswers.tables_eq.trans (set_getD_self ..), hanswers.storage_eq⟩

end Session

end Reckoner
