import Reckoner.Proofs.History
import Reckoner.Proofs.Positions

/-!
# What can be wrong with a line

A line may be refused by the parser, at one of its tokens (`exists_of_parse_eq_error`). If it is
not, its tree comes from the grammar, which leaves only two faults for the static pass to find: an
assignment to something other than a name, and a name that is not declared
(`Derives.fault_of_scope_error`). Where units may be run, nothing else can go wrong.
-/

namespace Reckoner

/-! ### Faults in trees of the grammar -/

theorem Level.meaning?_of_mem {level : Level} {op : Token} (h : op ∈ level.operators) :
    op.kind = .assign ∨ ∃ f, op.kind.meaning? = some f := by
  cases level with
  | primitive => cases h
  | assignment => exact .inl (by rw [List.mem_singleton.1 h]; rfl)
  | product | sum =>
    simp only [operators, List.mem_cons, List.not_mem_nil, or_false] at h
    rcases h with rfl | rfl <;> exact .inr ⟨_, rfl⟩

theorem meaning?_of_comparison {op : Token} (h : op ∈ [.less, .greater, .equal]) :
    ∃ f, op.kind.meaning? = some f := by
  simp only [List.mem_cons, List.not_mem_nil, or_false] at h
  rcases h with rfl | rfl | rfl <;> exact ⟨_, rfl⟩

/-- A fault that a tree from the tokens may have, where the names are declared. -/
inductive LineFault (ts : List Token) (names : List String) : EvalError → Prop where
  | notAssignable : LineFault ts names .notAssignable
  | undeclared {x : String} (hmem : .identifier x ∈ ts) (hx : x ∉ names) :
    LineFault ts names (.undeclared x)

theorem LineFault.mono {ts ts' : List Token} {names names' : List String} {why : EvalError}
    (h : LineFault ts names why) (hts : ts ⊆ ts') (hnames : names' ⊆ names) :
    LineFault ts' names' why := by
  cases h with
  | notAssignable => exact .notAssignable
  | undeclared hmem hx => exact .undeclared (hts hmem) fun h ↦ hx (hnames h)

/-- **What the static pass finds in a tree of the grammar.** -/
theorem Derives.fault_of_scope_error {level : Level} {ts : List Token} {e : Expr}
    (h : Derives level ts e) {names : List String} {why : EvalError}
    (hscope : e.scope names = .error why) : LineFault ts names why := by
  induction h generalizing names why with
  | identifier x =>
    by_cases hx : x ∈ names
    · simp [Expr.scope, hx] at hscope
    · simp only [Expr.scope, if_neg hx, Except.error.injEq] at hscope
      exact hscope ▸ .undeclared (List.mem_singleton_self _) hx
  | number => cases hscope
  | signed hsign x =>
    simp only [List.mem_cons, List.not_mem_nil, or_false] at hsign
    rcases hsign with rfl | rfl <;> cases hscope
  | @group body junk e _ _ _ _ ih =>
    exact (ih hscope).mono (fun t ht ↦ by simp [ht]) (List.Subset.refl _)
  | @conditional left right whenTrue whenFalse comparison a b t e hcomparison _ _ _ _ iha ihb iht
      ihe =>
    -- a name that is missing behind a part was missing before it, too
    obtain ⟨f, hf⟩ := meaning?_of_comparison hcomparison
    rcases error_of_bind hscope with hscope | ⟨names₃, hct, he⟩
    · rcases error_of_bind hscope with hscope | ⟨names₂, hc, ht⟩
      · rw [Expr.scope, hf] at hscope
        rcases error_of_bind hscope with ha | ⟨names₁, ha, hb⟩
        · exact (iha ha).mono (by simp) (List.Subset.refl _)
        · exact (ihb hb).mono (fun x hx ↦ by simp [hx]) (Expr.scoped_of_scope ha).subset
      · exact (iht ht).mono (fun x hx ↦ by simp [hx]) (Expr.scoped_of_scope hc).subset
    · obtain ⟨names₂, hc, ht⟩ := exists_ok_of_bind hct
      exact (ihe he).mono (fun x hx ↦ by simp [hx]) (List.Subset.trans
        (Expr.scoped_of_scope hc).subset (Expr.scoped_of_scope ht).subset)
  | lift level _ ih => exact ih hscope
  | @operator level op left right a b hop _ _ iha ihb =>
    rcases Level.meaning?_of_mem hop with hassign | ⟨f, hf⟩
    · rw [Expr.scope, hassign, Kind.meaning?_assign] at hscope
      rcases ha : a.asName? with - | x
      · simp only [ha, if_true, Except.error.injEq] at hscope
        exact hscope ▸ .notAssignable
      · rcases hb : b.scope names with why' | names₁
        · simp only [ha, hb, if_true] at hscope
          cases hscope
          exact (ihb hb).mono (by simp) (List.Subset.refl _)
        · simp only [ha, hb, if_true] at hscope
          cases hscope
    · rw [Expr.scope, hf] at hscope
      rcases error_of_bind hscope with ha | ⟨names₁, ha, hb⟩
      · exact (iha ha).mono (by simp) (List.Subset.refl _)
      · exact (ihb hb).mono (by simp) (Expr.scoped_of_scope ha).subset

/-! ### Lines -/

/-- What the static pass finds in the tree of a list of tokens. -/
theorem fault_of_parse {ts : List Token} {e : Expr} (h : parse ts = .ok e) {names : List String}
    {why : EvalError} (hscope : e.scope names = .error why) : LineFault ts names why := by
  obtain ⟨body, rest, rfl, hbody, -⟩ := parse_eq_ok_iff_reading.1 h
  exact (hbody.fault_of_scope_error hscope).mono (List.subset_append_left _ _)
    (List.Subset.refl _)

/-- Where its unit may be run, the tree of a list of tokens has a value or one of the two faults. -/
theorem outcome_of_parse {ts : List Token} {e : Expr} (h : parse ts = .ok e) {c : Settings}
    (hc : c.refusal? = none) (unit : String) (v : Variables) :
    (∃ x, (evaluate c unit e v).outcome.1 = .ok x) ∨
      ∃ why, (evaluate c unit e v).outcome.1 = .error why ∧ LineFault ts v.names why := by
  rcases evaluate_cases e v with ⟨why, k, hscope, houtcome⟩ | ⟨fresh, -, -, -, houtcome⟩
  · exact .inr ⟨why, by rw [houtcome], fault_of_parse h hscope⟩
  · exact .inl ⟨_, by rw [houtcome, hc]; rfl⟩

/-- **What can go wrong with a line**, for every line and every table, where units are interpreted
and not listed: the line is refused at one of its tokens, or something other than a name is assigned
to, or a name of the line is not declared. The parser's recursion comes to an end within its
bound. -/
theorem run_line (s : Session) (ev : Nat) (line : String)
    (htarget : (s.settings ev).target = .interpreter)
    (hlistings : (s.settings ev).listings = .nowhere) :
    ((∃ x, (s.run ev line).1 = .result x) ∨
      (∃ fault index,
        (s.run ev line).1 = .failed (.parse (tokenize line) (.syntaxError ⟨fault, index⟩)) ∧
          0 ≤ index ∧ index < (tokenize line).length) ∨
      ((s.run ev line).1 = .failed (.eval .notAssignable) ∧
        EvalError.notAssignable.message = "[Runtime error] Assignment must be a variable") ∨
      ∃ x, (s.run ev line).1 = .failed (.eval (.undeclared x)) ∧
        (EvalError.undeclared x).message = "[Runtime error] Variable not declared: " ++ x ∧
        .identifier x ∈ tokenize line ∧ x ∉ (s.table ev).names) ∧
    ∀ depth ≥ Parser.depthBound (tokenize line).length, ∀ p,
      (Parser.Walk.whole (Parser.Walk.expr depth 0)).run (Parser.ofTokens (tokenize line)) ≠
        .error .exhausted p := by
  have hrefusal : (s.settings ev).refusal? = none := by
    rw [Settings.refusal?, hlistings, htarget]
    rfl
  have hreply : (s.run ev line).1 = (s.response ev (.run line)).1 :=
    (s.answers ev (.run line)).reply_eq
  refine ⟨?_, fun depth hdepth p hrun ↦ ?_⟩
  · rw [hreply, Session.response, Request.respond]
    rcases hparse : parse (tokenize line) with why | e
    · obtain ⟨fault, index, rfl, hpos, hlt⟩ :=
        exists_of_parse_eq_error (sealed_tokenize line) hparse
      exact .inr (.inl ⟨fault, index, rfl, hpos, hlt⟩)
    · simp only [Prod.map]
      rcases outcome_of_parse hparse hrefusal _ (s.table ev) with ⟨x, hx⟩ | ⟨why, hwhy, hfault⟩
      · exact .inl ⟨x, by rw [hx]; rfl⟩
      · rw [hwhy]
        cases hfault with
        | notAssignable => exact .inr (.inr (.inl ⟨rfl, rfl⟩))
        | undeclared hmem hx => exact .inr (.inr (.inr ⟨_, rfl, rfl, hmem, hx⟩))
  · have hbehaved := Parser.behaved_whole hdepth
    rw [((Parser.followsAt depth).expr 0).whole.run_eq, Parser.edge_ofTokens,
      Parser.window_ofTokens] at hrun
    exact hbehaved.place_ne _ p hrun

/-- The name on the right is not declared; the one that was declared before it is taken back. -/
theorem run_line_undeclared :
    let s := Session.single .interpreter .nowhere true
    let line := "(a = 1) + b"
    (s.settings 0).target = .interpreter ∧ (s.settings 0).listings = .nowhere ∧
      (s.run 0 line).1 = .failed (.eval (.undeclared "b")) ∧ .identifier "b" ∈ tokenize line := by
  intro s line
  have hreply : (s.run 0 line).1 = .failed (.eval (.undeclared "b")) := by decide +kernel
  refine ⟨rfl, rfl, hreply, ?_⟩
  rcases (run_line s 0 line rfl rfl).1 with ⟨x, hx⟩ | ⟨fault, index, hx, -⟩ | ⟨hx, -⟩ |
    ⟨x, hx, -, hmem, -⟩ <;> rw [hreply] at hx <;> cases hx
  exact hmem

end Reckoner
