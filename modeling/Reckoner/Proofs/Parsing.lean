import Reckoner.Proofs.Walks

/-!
# The parser follows the grammar

The parser reads a list of tokens exactly as the grammar does (`parse_eq_ok_iff_derives`).

What each step of the parser does when it succeeds is said once (`Parser.run_primary_eq_ok_iff`,
`Parser.climb_cases` and the lemmas beside them). Soundness is then an induction on the depth of the
recursion (`Parser.sound`). Its invariant for climbing is that the expression on the left derives at
some level, and the next token binds no tighter than the operators of that level.

Completeness is an induction on the derivation (`Parser.reads`). A derivation puts the left operand
first and its operator last, while the parser meets the first primitive first. So it is not said
that an operand is read and then left alone, but that reading it comes down to climbing on behind it
(`Parser.ReadsOperand`). The depth that is left is counted along with the tokens that are left.
-/

namespace Reckoner

variable {ts ts' body inner after rest : List Token} {t : Token} {e e' left : Expr} {level : Level}

namespace Parser

/-! ### Steps that succeed -/

/-- Consuming a token succeeds just if there is one. -/
theorem run_advance_eq_ok_iff : (advance .closed).run ts = .ok t rest ↔ ts = t :: rest := by
  cases ts with
  | nil => exact ⟨nofun, nofun⟩
  | cons t' ts' =>
    constructor
    · intro h
      cases h
      rfl
    · rintro ⟨⟩
      rfl

theorem run_peek (ts : List Token) : (peek .closed).run ts = .ok ts.head? ts := by
  cases ts <;> rfl

theorem run_pure_eq_ok_iff {α : Type} {a b : α} :
    (pure a : Step α).run ts = .ok b rest ↔ a = b ∧ ts = rest := by
  rw [EStateM.run_pure]
  simp

theorem run_refuseLast_ne {α : Type} {fault : SyntaxFault} {a : α} :
    (refuseLast fault : Step α).run ts ≠ .ok a rest :=
  nofun

/-- A sign takes just a number behind it. -/
theorem run_signed_eq_ok_iff {sign : Token} :
    (signed .closed sign).run ts = .ok e rest ↔
      ∃ x, ts = .number x :: rest ∧ e = .unary sign.kind (.number x) := by
  rw [signed, run_bind_eq_ok_iff]
  simp only [run_advance_eq_ok_iff]
  constructor
  · rintro ⟨t, ts', rfl, h⟩
    cases t with
    | number x =>
      obtain ⟨rfl, rfl⟩ := run_pure_eq_ok_iff.1 h
      exact ⟨x, rfl, rfl⟩
    | _ => exact absurd h run_refuseLast_ne
  · rintro ⟨x, rfl, rfl⟩
    exact ⟨_, _, rfl, rfl⟩

/-- A word is taken just where it stands. -/
theorem run_expect_eq_ok_iff {wanted : Kind} {word : Token}
    (hword : Token.ofKind? wanted = some word) :
    (expect .closed wanted).run ts = .ok ⟨⟩ rest ↔ ts = word :: rest := by
  rw [expect, run_bind_eq_ok_iff]
  simp only [run_advance_eq_ok_iff]
  constructor
  · rintro ⟨t, ts', rfl, h⟩
    split at h
    · have ht : t = word := (Token.kind_eq_iff hword).1 ‹_›
      cases h
      rw [ht]
    · exact absurd h run_refuseLast_ne
  · rintro rfl
    refine ⟨word, rest, rfl, ?_⟩
    rw [if_pos ((Token.kind_eq_iff hword).2 rfl)]
    rfl

/-- A group is what stands before the parenthesis that closes it, parsed as a whole. -/
theorem run_group_eq_ok_iff {step : Step Expr} :
    (group .closed step).run ts = .ok e rest ↔
      ∃ inner e' rest', findClosing 0 ts = .found inner rest ∧ step.run inner = .ok e' rest' ∧
        e = .group e' := by
  rw [group, run_bind_eq_ok_iff]
  simp only [EStateM.run_get, EStateM.Result.ok.injEq]
  constructor
  · rintro ⟨_, _, ⟨rfl, rfl⟩, h⟩
    rcases hfound : findClosing 0 ts with ⟨inner, after⟩ | left | - | -
    · rcases hstep : step.run inner with ⟨e', rest'⟩ | ⟨failure, rest'⟩
      · simp only [hfound, hstep] at h
        cases h
        exact ⟨inner, e', rest', rfl, hstep, rfl⟩
      · simp only [hfound, hstep] at h
        cases h
    all_goals
      simp only [hfound] at h
      cases h
  · rintro ⟨inner, e', rest', hfound, hstep, rfl⟩
    refine ⟨ts, ts, ⟨rfl, rfl⟩, ?_⟩
    simp only [hfound, hstep]
    rfl

/-- The whole succeeds unless a stray closing parenthesis follows. -/
theorem run_whole_eq_ok_iff {step : Step Expr} :
    (whole .closed step).run ts = .ok e rest ↔
      step.run ts = .ok e rest ∧ rest.head? ≠ some .rparen := by
  rw [whole, run_bind_eq_ok_iff]
  simp only [run_bind_ok (run_peek _)]
  constructor
  · rintro ⟨e', rest', hstep, h⟩
    split at h
    · cases h
    · cases h
      exact ⟨hstep, ‹_›⟩
  · rintro ⟨hstep, hrest⟩
    refine ⟨e, rest, hstep, ?_⟩
    split
    · exact absurd ‹_› hrest
    · rfl

/-- A conditional is read place by place, with its words between. -/
theorem run_conditional_eq_ok_iff {step : Step Expr} :
    (conditional .closed step).run ts = .ok e rest ↔
      ∃ a b t e' comparison ts₁ ts₂ ts₃, comparison ∈ [.less, .greater, .equal] ∧
        step.run ts = .ok a (comparison :: ts₁) ∧ step.run ts₁ = .ok b (.thenWord :: ts₂) ∧
        step.run ts₂ = .ok t (.elseWord :: ts₃) ∧ step.run ts₃ = .ok e' rest ∧
        e = .conditional (.binary comparison.kind a b) t e' := by
  have hthen {ts rest : List Token} : (expect .closed .thenWord).run ts = .ok ⟨⟩ rest ↔
      ts = .thenWord :: rest := run_expect_eq_ok_iff rfl
  have helse {ts rest : List Token} : (expect .closed .elseWord).run ts = .ok ⟨⟩ rest ↔
      ts = .elseWord :: rest := run_expect_eq_ok_iff rfl
  rw [conditional, run_bind_eq_ok_iff]
  constructor
  · rintro ⟨a, ts₀, ha, h⟩
    obtain ⟨comparison, ts₁, hcomparison, h⟩ := run_bind_eq_ok_iff.1 h
    simp only at h
    split at h
    · obtain ⟨b, ts₂, hb, h⟩ := run_bind_eq_ok_iff.1 h
      obtain ⟨⟨⟩, ts₂', hword₂, h⟩ := run_bind_eq_ok_iff.1 h
      obtain ⟨t, ts₃, ht, h⟩ := run_bind_eq_ok_iff.1 h
      obtain ⟨⟨⟩, ts₃', hword₃, h⟩ := run_bind_eq_ok_iff.1 h
      obtain ⟨e', ts₄, he, h⟩ := run_bind_eq_ok_iff.1 h
      obtain ⟨rfl, rfl⟩ := run_pure_eq_ok_iff.1 h
      rw [run_advance_eq_ok_iff.1 hcomparison] at ha
      rw [hthen.1 hword₂] at hb
      rw [helse.1 hword₃] at ht
      exact ⟨a, b, t, e', comparison, ts₁, ts₂', ts₃', Token.isComparison_kind_iff.1 ‹_›, ha, hb,
        ht, he, rfl⟩
    · exact absurd h run_refuseLast_ne
  · rintro ⟨a, b, t, e', comparison, ts₁, ts₂, ts₃, hcomparison, ha, hb, ht, he, rfl⟩
    refine ⟨a, _, ha, ?_⟩
    rw [run_bind_ok (run_advance_eq_ok_iff.2 rfl),
      if_pos (Token.isComparison_kind_iff.2 hcomparison), run_bind_ok hb, run_bind_ok (hthen.2 rfl),
      run_bind_ok ht, run_bind_ok (helse.2 rfl), run_bind_ok he]
    rfl

/-- What a primary expression may be. -/
theorem run_primary_eq_ok_iff {d : Nat} :
    (primary (d + 1) .closed).run ts = .ok e rest ↔
      ∃ t ts', ts = t :: ts' ∧
        ((∃ x, t = .identifier x ∧ .name x = e ∧ ts' = rest) ∨
         (∃ x, t = .number x ∧ .number x = e ∧ ts' = rest) ∨
         (t ∈ [.plus, .minus] ∧ (signed .closed t).run ts' = .ok e rest) ∨
         (t = .lparen ∧ (group .closed (whole .closed (expr d .closed 0))).run ts' = .ok e rest) ∨
         (t = .ifWord ∧ (conditional .closed (primary d .closed)).run ts' = .ok e rest)) := by
  rw [primary, run_bind_eq_ok_iff]
  simp only [run_advance_eq_ok_iff]
  refine exists_congr fun t ↦ exists_congr fun ts' ↦ and_congr_right fun _ ↦ ?_
  cases t <;> simp [run_refuseLast_ne]

/-- An expression is its first operand, and what comes with operators behind. -/
theorem run_expr_eq_ok_iff {d : Nat} {power : Int} :
    (expr (d + 1) .closed power).run ts = .ok e rest ↔
      ∃ left ts', (primary d .closed).run ts = .ok left ts' ∧
        (climb d .closed power left).run ts' = .ok e rest := by
  rw [expr, run_bind_eq_ok_iff]

/-- An expression of the given power goes no further: there is no token left, or the next one is a
legal one that does not bind tighter. -/
def Halts (power : Nat) (ts : List Token) : Prop :=
  ∀ t ∈ ts.head?, t ≠ .illegal ∧ t.bindingPower ≤ power

/-- The climb halts before a token that does not bind tighter. -/
theorem halts_cons_iff {power : Nat} :
    Halts power (t :: ts) ↔ t ≠ .illegal ∧ t.bindingPower ≤ power := by
  simp [Halts]

/-- Climbing stops in front of what does not bind tighter. -/
theorem run_climb_of_halts {power : Nat} (h : Halts power ts) (d : Nat) (left : Expr) :
    (climb (d + 1) .closed power left).run ts = .ok left ts := by
  rw [climb, run_bind_ok (run_peek _)]
  cases ts with
  | nil => rfl
  | cons t ts =>
    obtain ⟨ht, hpower⟩ := halts_cons_iff.1 h
    rw [List.head?_cons]
    split
    · rfl
    · exact absurd (Option.some.inj ‹_›) ht
    · obtain rfl := Option.some.inj ‹some t = some _›
      rw [if_pos (Int.ofNat_le.2 hpower)]
      rfl

/-- Climbing takes a token that binds tighter, which has to be an operator, and then its right
operand. -/
theorem run_climb_cons {power : Nat} (ht : t ≠ .illegal) (hpower : power < t.bindingPower) (d : Nat)
    (left : Expr) (ts : List Token) :
    (climb (d + 1) .closed power left).run (t :: ts) =
      if t.isOperator then
        (expr d .closed t.bindingPower >>= fun right ↦
          climb d .closed power (.binary t.kind left right)).run ts
      else (refuseLast (.unexpectedToken t.kind)).run ts := by
  rw [climb, run_bind_ok (run_peek _), List.head?_cons]
  split
  · cases ‹some t = none›
  · exact absurd (Option.some.inj ‹_›) ht
  · obtain rfl := Option.some.inj ‹some t = some _›
    rw [if_neg fun h ↦ Nat.not_le.2 hpower (Int.ofNat_le.1 h),
      run_bind_ok (run_advance_eq_ok_iff.2 rfl), ← apply_ite (EStateM.run · ts)]
    rfl

/-- What climbing does when it succeeds. -/
theorem climb_cases {d power : Nat} (h : (climb (d + 1) .closed power left).run ts = .ok e rest) :
    (Halts power ts ∧ left = e ∧ ts = rest) ∨
      ∃ op ts₁ right ts₂, ts = op :: ts₁ ∧ power < op.bindingPower ∧ op.isOperator = true ∧
        (expr d .closed op.bindingPower).run ts₁ = .ok right ts₂ ∧
        (climb d .closed power (.binary op.kind left right)).run ts₂ = .ok e rest := by
  by_cases hhalts : Halts power ts
  · rw [run_climb_of_halts hhalts] at h
    cases h
    exact .inl ⟨hhalts, rfl, rfl⟩
  cases ts with
  | nil => exact absurd (by simp [Halts]) hhalts
  | cons t ts =>
    by_cases ht : t = .illegal
    · subst ht
      cases h
    have hpower : power < t.bindingPower :=
      Nat.lt_of_not_le fun hle ↦ hhalts (halts_cons_iff.2 ⟨ht, hle⟩)
    rw [run_climb_cons ht hpower] at h
    split at h
    · obtain ⟨right, ts₂, hright, hclimb⟩ := run_bind_eq_ok_iff.1 h
      exact .inr ⟨t, ts, right, ts₂, rfl, hpower, ‹_›, hright, hclimb⟩
    · exact absurd h run_refuseLast_ne

/-! ### What is read derives -/

/-- What is read as a primary expression derives. -/
def PrimarySound (d : Nat) : Prop :=
  ∀ ts e rest, (primary d .closed).run ts = .ok e rest →
    ∃ body, ts = body ++ rest ∧ Derives .primitive body e

/-- What is read as an expression of a level derives at the level, and stands as far as the
expression goes. -/
def ExprSound (d : Nat) : Prop :=
  ∀ (level : Level) ts e rest, (expr d .closed level.power).run ts = .ok e rest →
    ∃ body, ts = body ++ rest ∧ Derives level body e ∧ Halts level.power rest

/-- What is read behind an expression goes on with its derivation. The next token must not bind
tighter than the expression on its left. -/
def ClimbSound (d : Nat) : Prop :=
  ∀ (level level' : Level) front left ts e rest, Derives level' front left →
    level.power ≤ level'.power → (∀ t ∈ ts.head?, t.bindingPower ≤ level'.tighter.power) →
    (climb d .closed level.power left).run ts = .ok e rest →
    ∃ body, ts = body ++ rest ∧ Derives level (front ++ body) e ∧ Halts level.power rest

/-- Behind an expression anything may trail that neither continues it nor closes a parenthesis. -/
theorem trailing_iff : Trailing rest ↔ Halts 0 rest ∧ rest.head? ≠ some .rparen := by
  cases rest with
  | nil => simp [Trailing, Halts]
  | cons t rest =>
    simp only [Trailing, halts_cons_iff, List.head?_cons, Option.mem_some, forall_eq', Nat.le_zero,
      ne_eq, Option.some.injEq]
    constructor
    · rintro ⟨hpower, hlegal, hparen⟩
      exact ⟨⟨hlegal, hpower⟩, hparen⟩
    · rintro ⟨⟨hlegal, hpower⟩, hparen⟩
      exact ⟨hpower, hlegal, hparen⟩

/-- What is read as a whole has a reading. -/
theorem ExprSound.reading {d : Nat} (h : ExprSound d)
    (hrun : (whole .closed (expr d .closed 0)).run ts = .ok e rest) :
    ∃ body, Reading ts body e rest := by
  obtain ⟨hexpr, hrest⟩ := run_whole_eq_ok_iff.1 hrun
  obtain ⟨body, hts, hbody, hhalts⟩ := h .sum ts e rest hexpr
  exact ⟨body, hts, hbody, trailing_iff.2 ⟨hhalts, hrest⟩⟩

/-- What is read as a primary expression is one, if this holds of what is inside. -/
theorem primarySound_succ {d : Nat} (hp : PrimarySound d) (he : ExprSound d) :
    PrimarySound (d + 1) := by
  intro ts e rest hrun
  obtain ⟨t, ts', rfl, h⟩ := run_primary_eq_ok_iff.1 hrun
  rcases h with ⟨x, rfl, rfl, rfl⟩ | ⟨x, rfl, rfl, rfl⟩ | ⟨hsign, h⟩ | ⟨rfl, h⟩ | ⟨rfl, h⟩
  · exact ⟨_, rfl, .identifier x⟩
  · exact ⟨_, rfl, .number x⟩
  · obtain ⟨x, rfl, rfl⟩ := run_signed_eq_ok_iff.1 h
    exact ⟨_, rfl, .signed hsign x⟩
  · obtain ⟨inner, e', junk, hfound, hinner, rfl⟩ := run_group_eq_ok_iff.1 h
    obtain ⟨rfl, hcloses, hlast⟩ := split_of_findClosing hfound
    obtain ⟨body, rfl, hbody, hjunk⟩ := he.reading hinner
    exact ⟨_, by simp, .group hbody hjunk (closes_zero_iff.1 hcloses) hlast⟩
  · obtain ⟨a, b, t, e', comparison, ts₁, ts₂, ts₃, hcomparison, ha, hb, ht, he', rfl⟩ :=
      run_conditional_eq_ok_iff.1 h
    obtain ⟨left, rfl, hleft⟩ := hp _ _ _ ha
    obtain ⟨right, rfl, hright⟩ := hp _ _ _ hb
    obtain ⟨whenTrue, rfl, hwhenTrue⟩ := hp _ _ _ ht
    obtain ⟨whenFalse, rfl, hwhenFalse⟩ := hp _ _ _ he'
    exact ⟨_, by simp, .conditional hcomparison hleft hright hwhenTrue hwhenFalse⟩

/-- And what is read as an expression is an expression. -/
theorem exprSound_succ {d : Nat} (hp : PrimarySound d) (hc : ClimbSound d) : ExprSound (d + 1) := by
  intro level ts e rest h
  obtain ⟨left, ts', hleft, hclimb⟩ := run_expr_eq_ok_iff.1 h
  obtain ⟨front, rfl, hfront⟩ := hp _ _ _ hleft
  have hle : level.power ≤ Level.primitive.power := by cases level <;> decide
  obtain ⟨body, rfl, hbody, hhalts⟩ := hc level .primitive front left ts' e rest hfront hle
    (fun t _ ↦ t.kind.bindingPower_le) hclimb
  exact ⟨front ++ body, (List.append_assoc ..).symm, hbody, hhalts⟩

/-- Each operator that is taken makes an expression of the two that it stands between. -/
theorem climbSound_succ {d : Nat} (he : ExprSound d) (hc : ClimbSound d) : ClimbSound (d + 1) := by
  intro level level' front left ts e rest hfront hle hnext h
  rcases climb_cases h with ⟨hhalts, rfl, rfl⟩ |
    ⟨op, ts₁, right, ts₂, rfl, hpower, hop, hright, hclimb⟩
  · refine ⟨[], rfl, ?_, hhalts⟩
    rw [List.append_nil]
    exact hfront.loosen hle
  · obtain ⟨opLevel, hop⟩ := Token.isOperator_iff.1 hop
    rw [Level.bindingPower_of_mem hop] at hpower hright
    obtain ⟨body₁, rfl, hbody₁, hhalts₁⟩ := he opLevel.tighter ts₁ right ts₂ hright
    -- the operator is of a level between that of its left operand and the one asked for
    have hop_le : opLevel.power ≤ level'.power := by
      refine Level.power_le_of_tighter_le hop ?_
      rw [← Level.bindingPower_of_mem hop]
      exact hnext op rfl
    have hjoined := Derives.operator hop (hfront.loosen hop_le) hbody₁
    obtain ⟨body₂, rfl, hbody₂, hhalts₂⟩ := hc level opLevel _ _ ts₂ e rest hjoined
      (Level.power_le_of_lt_tighter hpower) (fun t ht ↦ (hhalts₁ t ht).2) hclimb
    exact ⟨op :: body₁ ++ body₂, by simp, by simpa using hbody₂, hhalts₂⟩

/-- **Soundness**: what is read, at any depth, derives. -/
theorem sound (d : Nat) : PrimarySound d ∧ ExprSound d ∧ ClimbSound d := by
  induction d with
  | zero => exact ⟨fun _ _ _ ↦ nofun, fun _ _ _ _ ↦ nofun, fun _ _ _ _ _ _ _ _ _ _ ↦ nofun⟩
  | succ d ih =>
    obtain ⟨hp, he, hc⟩ := ih
    exact ⟨primarySound_succ hp he, exprSound_succ hp hc, climbSound_succ he hc⟩

/-! ### What derives is read -/

/-- The tokens are read as a primary expression, whatever follows them. -/
def ReadsPrimary (body : List Token) (e : Expr) : Prop :=
  ∀ rest d, 2 * (body.length + rest.length) ≤ d →
    (primary d .closed).run (body ++ rest) = .ok e rest

/-- The tokens are read as the first operand of an expression, if what follows them does not bind
tighter than the operators of their level; then climbing goes on from there. -/
def ReadsOperand (level : Level) (body : List Token) (e : Expr) : Prop :=
  ∀ (power : Nat) rest d, power ≤ level.power → Halts level.tighter.power rest →
    2 * (body.length + rest.length) + 1 ≤ d →
    ∃ d', 2 * rest.length + 1 ≤ d' ∧
      (expr d .closed power).run (body ++ rest) = (climb d' .closed power e).run rest

/-- What halts at a power halts at every higher one. -/
theorem Halts.mono {power power' : Nat} (h : Halts power ts) (hle : power ≤ power') :
    Halts power' ts :=
  fun t ht ↦ ⟨(h t ht).1, Nat.le_trans (h t ht).2 hle⟩

theorem readsPrimary_of_succ (hne : body ≠ [])
    (h : ∀ rest d, 2 * (body.length + rest.length) ≤ d + 1 →
      (primary (d + 1) .closed).run (body ++ rest) = .ok e rest) : ReadsPrimary body e := by
  intro rest d hd
  cases d with
  | zero =>
    have := List.length_pos_iff.2 hne
    omega
  | succ d => exact h rest d hd

theorem ReadsPrimary.length_pos (h : ReadsPrimary body e) : 0 < body.length := by
  cases body with
  | nil => cases h [] 0 (Nat.le_refl 0)
  | cons t body => exact Nat.zero_lt_succ _

/-- A primary expression is an operand at every level. -/
theorem ReadsPrimary.operand (h : ReadsPrimary body e) (level : Level) :
    ReadsOperand level body e := by
  intro power rest d _ _ hd
  have hbody := h.length_pos
  cases d with
  | zero => omega
  | succ d =>
    refine ⟨d, by omega, ?_⟩
    rw [expr, run_bind_ok (h rest d (by omega))]

/-- An operand is read as an expression of its level, if no operator of the level follows. -/
theorem ReadsOperand.run_expr (h : ReadsOperand level body e) (hrest : Halts level.power rest)
    {d : Nat} (hd : 2 * (body.length + rest.length) + 1 ≤ d) :
    (expr d .closed level.power).run (body ++ rest) = .ok e rest := by
  obtain ⟨d', hd', heq⟩ :=
    h level.power rest d (Nat.le_refl _) (hrest.mono level.power_le_tighter) hd
  rw [heq]
  cases d' with
  | zero => omega
  | succ d' => exact run_climb_of_halts hrest d' e

/-- An operand at the tighter level is one at this level. -/
theorem ReadsOperand.lift (h : ReadsOperand level.tighter body e) : ReadsOperand level body e :=
  fun power rest d hpower hrest hd ↦
    h power rest d (Nat.le_trans hpower level.power_le_tighter)
      (hrest.mono level.tighter.power_le_tighter) hd

/-- **Operators associate to the left**: the left operand is at the level, the right one is
tighter. -/
theorem ReadsOperand.operator {op : Token} {front right : List Token} {a b : Expr}
    (hop : op ∈ level.operators) (ha : ReadsOperand level front a)
    (hb : ReadsOperand level.tighter right b) :
    ReadsOperand level (front ++ op :: right) (.binary op.kind a b) := by
  intro power rest d hpower hrest hd
  rw [List.length_append, List.length_cons] at hd
  have hisOperator := Token.isOperator_iff.2 ⟨level, hop⟩
  have hlegal : op ≠ .illegal := by
    rintro rfl
    cases hisOperator
  have hop_power := Level.bindingPower_of_mem hop
  have hlt : power < op.bindingPower :=
    hop_power ▸ Nat.lt_of_le_of_lt hpower (Level.power_lt_of_mem hop)
  obtain ⟨d₁, hd₁, heq⟩ := ha power (op :: (right ++ rest)) d hpower
    (halts_cons_iff.2 ⟨hlegal, Nat.le_of_eq hop_power⟩) (by simp; omega)
  rw [List.length_cons, List.length_append] at hd₁
  cases d₁ with
  | zero => omega
  | succ d₁ =>
    have hright := hb.run_expr hrest (d := d₁) (by omega)
    refine ⟨d₁, by omega, ?_⟩
    rw [List.append_assoc, List.cons_append, heq, run_climb_cons hlegal hlt, if_pos hisOperator,
      hop_power, run_bind_ok hright]

theorem readsPrimary_identifier (x : String) : ReadsPrimary [.identifier x] (.name x) :=
  readsPrimary_of_succ (by simp) fun rest d _ ↦
    run_primary_eq_ok_iff.2 ⟨_, _, rfl, .inl ⟨x, rfl, rfl, rfl⟩⟩

theorem readsPrimary_number (x : Float) : ReadsPrimary [.number x] (.number x) :=
  readsPrimary_of_succ (by simp) fun rest d _ ↦
    run_primary_eq_ok_iff.2 ⟨_, _, rfl, .inr (.inl ⟨x, rfl, rfl, rfl⟩)⟩

/-- A sign and a number are read as one operand. -/
theorem readsPrimary_signed {sign : Token} (hsign : sign ∈ [.plus, .minus]) (x : Float) :
    ReadsPrimary [sign, .number x] (.unary sign.kind (.number x)) :=
  readsPrimary_of_succ (by simp) fun rest d _ ↦
    run_primary_eq_ok_iff.2 ⟨_, _, rfl,
      .inr (.inr (.inl ⟨hsign, run_signed_eq_ok_iff.2 ⟨x, rfl, rfl⟩⟩))⟩

/-- A body with what may follow it is read as a whole. -/
theorem ReadsOperand.run_whole (h : ReadsOperand .sum body e) (hrest : Trailing rest) {d : Nat}
    (hd : 2 * (body.length + rest.length) + 1 ≤ d) :
    (whole .closed (expr d .closed 0)).run (body ++ rest) = .ok e rest := by
  obtain ⟨hhalts, hparen⟩ := trailing_iff.1 hrest
  exact run_whole_eq_ok_iff.2 ⟨h.run_expr hhalts hd, hparen⟩

/-- A group is read up to its own closing parenthesis, whatever trails inside. -/
theorem ReadsOperand.group {junk : List Token} (h : ReadsOperand .sum body e)
    (hjunk : Trailing junk) (hbalanced : Balanced (body ++ junk))
    (hlast : ∀ t ∈ body ++ junk, t.isLast = false) :
    ReadsPrimary (.lparen :: (body ++ junk) ++ [.rparen]) (.group e) := by
  refine readsPrimary_of_succ (by simp) fun rest d hd ↦ ?_
  simp only [List.length_append, List.length_cons, List.length_nil] at hd
  have hfound := findClosing_append (closes_zero_iff.2 hbalanced) hlast rest
  have hinner := h.run_whole hjunk (d := d) (by omega)
  refine run_primary_eq_ok_iff.2 ⟨.lparen, body ++ junk ++ .rparen :: rest, by simp, ?_⟩
  exact .inr (.inr (.inr (.inl ⟨rfl, run_group_eq_ok_iff.2 ⟨_, e, junk, hfound, hinner, rfl⟩⟩)))

/-- A conditional reads its four places as primary expressions. -/
theorem ReadsPrimary.conditional {left right whenTrue whenFalse : List Token} {comparison : Token}
    {a b t e : Expr} (hcomparison : comparison ∈ [.less, .greater, .equal])
    (ha : ReadsPrimary left a) (hb : ReadsPrimary right b) (ht : ReadsPrimary whenTrue t)
    (he : ReadsPrimary whenFalse e) :
    ReadsPrimary
      (.ifWord :: left ++ comparison :: right ++ .thenWord :: whenTrue ++ .elseWord :: whenFalse)
      (.conditional (.binary comparison.kind a b) t e) := by
  refine readsPrimary_of_succ (by simp) fun rest d hd ↦ ?_
  simp only [List.length_append, List.length_cons] at hd
  refine run_primary_eq_ok_iff.2 ⟨.ifWord, _, by simp; rfl, .inr (.inr (.inr (.inr ⟨rfl, ?_⟩)))⟩
  refine run_conditional_eq_ok_iff.2 ⟨a, b, t, e, comparison, _, _, _, hcomparison, ha _ d ?_,
    hb _ d ?_, ht _ d ?_, he rest d (by omega), rfl⟩
  all_goals
    simp only [List.length_append, List.length_cons]
    omega

/-- **Completeness**: what derives is read. -/
theorem reads (h : Derives level body e) :
    (level = .primitive → ReadsPrimary body e) ∧ ReadsOperand level body e := by
  -- at the level of primitives the second half follows from the first
  have hprimitive {body : List Token} {e : Expr} (h : ReadsPrimary body e) :
      (Level.primitive = .primitive → ReadsPrimary body e) ∧ ReadsOperand .primitive body e :=
    ⟨fun _ ↦ h, h.operand _⟩
  induction h with
  | identifier x => exact hprimitive (readsPrimary_identifier x)
  | number x => exact hprimitive (readsPrimary_number x)
  | signed hsign x => exact hprimitive (readsPrimary_signed hsign x)
  | group _ hjunk hbalanced hlast ih => exact hprimitive (ih.2.group hjunk hbalanced hlast)
  | conditional hcomparison _ _ _ _ iha ihb iht ihe =>
    exact hprimitive (.conditional hcomparison (iha.1 rfl) (ihb.1 rfl) (iht.1 rfl) (ihe.1 rfl))
  | lift level _ ih =>
    refine ⟨?_, ih.2.lift⟩
    rintro rfl
    exact ih.1 rfl
  | operator hop _ _ iha ihb =>
    refine ⟨?_, .operator hop iha.2 ihb.2⟩
    rintro rfl
    cases hop

/-- At a sufficient depth, reading a list of tokens as a whole gives just its readings. -/
theorem run_whole_iff_reading {d : Nat} (hd : 2 * ts.length + 1 ≤ d) :
    (whole .closed (expr d .closed 0)).run ts = .ok e rest ↔ ∃ body, Reading ts body e rest := by
  constructor
  · exact (sound d).2.1.reading
  · rintro ⟨body, rfl, hbody, hrest⟩
    rw [List.length_append] at hd
    exact (reads hbody).2.run_whole hrest hd

end Parser

/-- Parsing succeeds if reading the list as a whole does. -/
theorem parse_eq_ok_iff_run : parse ts = .ok e ↔
    ∃ rest, (Parser.whole .closed (Parser.expr (Parser.depthBound ts.length) .closed 0)).run ts =
      .ok e rest := by
  rw [parse_eq_conclude]
  rcases (Parser.whole .closed (Parser.expr (Parser.depthBound ts.length) .closed 0)).run ts with
    ⟨e', rest⟩ | ⟨⟨⟩ | ⟨⟩ | ⟨⟩, rest⟩
  all_goals simp [Parser.conclude, Parser.place, Parser.halt]

/-- Parsing gives the trees of the readings. -/
theorem parse_eq_ok_iff_reading : parse ts = .ok e ↔ ∃ body rest, Reading ts body e rest := by
  rw [parse_eq_ok_iff_run, exists_comm]
  exact exists_congr fun rest ↦ Parser.run_whole_iff_reading (Nat.le_succ _)

/-- A list of tokens has at most one reading. -/
theorem Reading.unique {body' rest' : List Token} (h : Reading ts body e rest)
    (h' : Reading ts body' e' rest') : body = body' ∧ e = e' := by
  have hd : 2 * ts.length + 1 ≤ Parser.depthBound ts.length := Nat.le_succ _
  have hrun := (Parser.run_whole_iff_reading hd).2 ⟨body, h⟩
  rw [(Parser.run_whole_iff_reading hd).2 ⟨body', h'⟩] at hrun
  cases hrun
  exact ⟨List.append_cancel_right (h.split.symm.trans h'.split), rfl⟩

/-- Only the first of the tokens behind the expression has to do with it. -/
theorem Reading.replace_rest (h : Reading ts body e (t :: rest)) (rest' : List Token) :
    Reading (body ++ t :: rest') body e (t :: rest') :=
  ⟨rfl, h.derives, h.trailing⟩

/-- **The parser accepts exactly the grammar** and gives its trees. A list of tokens has at most one
reading, and what stands behind the first token that follows the expression does not matter. -/
theorem parse_eq_ok_iff_derives (ts : List Token) (e : Expr) :
    (parse ts = .ok e ↔
      ∃ body rest, ts = body ++ rest ∧ Derives .sum body e ∧ Trailing rest) ∧
    (∀ body rest e' body' rest', Reading ts body e rest → Reading ts body' e' rest' →
      body = body' ∧ e = e') ∧
    ∀ body t rest rest', Reading ts body e (t :: rest) → parse (body ++ t :: rest') = .ok e := by
  refine ⟨?_, fun _ _ _ _ _ h h' ↦ h.unique h', fun body t rest rest' h ↦ ?_⟩
  · rw [parse_eq_ok_iff_reading]
    refine exists₂_congr fun body rest ↦ ⟨?_, ?_⟩
    · rintro ⟨hsplit, hbody, hrest⟩
      exact ⟨hsplit, hbody, hrest⟩
    · rintro ⟨hsplit, hbody, hrest⟩
      exact ⟨hsplit, hbody, hrest⟩
  · exact parse_eq_ok_iff_reading.2 ⟨body, t :: rest', h.replace_rest rest'⟩

/-- An assignment takes one primitive on its right, and sums go from left to right. What follows the
expression does not matter, in the group or at the end. -/
theorem parse_eq_ok_iff_derives_mixed :
    let body : List Token :=
      [.minus, .number 1.0, .plus, .identifier "x", .assign, .identifier "y", .star,
        .lparen, .number 2.0, .thenWord, .rparen, .minus, .number 3.0]
    let e : Expr :=
      .binary .minus
        (.binary .plus (.unary .minus (.number 1.0))
          (.binary .star (.binary .assign (.name "x") (.name "y")) (.group (.number 2.0))))
        (.number 3.0)
    Derives .sum body e ∧ ∀ rest, parse (body ++ .elseWord :: rest) = .ok e := by
  intro body e
  have hsigned : Derives .primitive [.minus, .number 1.0] (.unary .minus (.number 1.0)) :=
    .signed (by decide) 1.0
  have hinner : Derives .sum [.number 2.0] (.number 2.0) := (Derives.number 2.0).loosen (by decide)
  have hgroup : Derives .primitive (.lparen :: ([.number 2.0] ++ [.thenWord]) ++ [.rparen]) _ :=
    .group hinner (by decide) (by decide) (by decide)
  have hassign : Derives .assignment ([.identifier "x"] ++ .assign :: [.identifier "y"]) _ :=
    .operator (by decide) (.lift _ (.identifier "x")) (.identifier "y")
  have hproduct : Derives .product (_ ++ .star :: _) _ :=
    .operator (by decide) (.lift _ hassign) (.lift _ hgroup)
  have hplus : Derives .sum (_ ++ .plus :: _) _ :=
    .operator (by decide) (hsigned.loosen (by decide)) hproduct
  have hbody : Derives .sum body e :=
    have hminus : Derives .sum (_ ++ .minus :: [.number 3.0]) _ :=
      .operator (by decide) hplus ((Derives.number 3.0).loosen (by decide))
    hminus
  have hreading : Reading (body ++ [.elseWord]) body e [.elseWord] := ⟨rfl, hbody, by decide⟩
  exact ⟨hbody, fun rest ↦ (parse_eq_ok_iff_derives _ e).2.2 body .elseWord [] rest hreading⟩

end Reckoner
