import Reckoner.Proofs.Steps
import Reckoner.Proofs.Windows

/-!
# Walks by positions are steps on a window

A walk of the parser does with positions what a step does on the window (`Parser.Follows`), at every
depth of the recursion (`Parser.followsAt`) and for every parser, be its window in the list or not.
So what a call comes to is read off from the window, and then told with positions again
(`Parser.parse_eq_perform`, `Parser.parseExpr_eq_perform`).

A walk and a step agree on the next token, since the window begins with what stands at the position
(`Parser.window_cases`). From there on the parser stands at the position that belongs to what is
left (`Parser.moved`), and what is left is its window again (`Parser.window_moved`). So a fault is
met at the position that its token has in the list (`Parser.halt`).

The closing parenthesis of a group is found at the position behind what lies inside
(`Parser.run_findClosing`), and the parser for the inside has just this for its window
(`Parser.window_inside`).
-/

namespace Reckoner

namespace Position

variable {α : Type}

/-- What stands at a position is the first that is read from there on. -/
theorem head?_onward (xs : List α) (i : Int) : (onward xs i).head? = get? xs i := by
  rw [onward, get?]
  split
  · exact List.head?_drop
  · split
    · have hlt : (xs.length + i).toNat < xs.length := by omega
      rw [List.head?_append, List.head?_drop, List.getElem?_eq_getElem hlt]
      rfl
    · rfl

/-- Reading on from a later position leaves out what lies between. -/
theorem onward_add (xs : List α) (i : Int) {k : Nat} (h : k ≤ (onward xs i).length) :
    onward xs (i + k) = (onward xs i).drop k := by
  unfold onward at h ⊢
  by_cases hi : 0 ≤ i
  · rw [if_pos hi, if_pos (by omega), List.drop_drop]
    congr 1
    omega
  · by_cases hlength : 0 ≤ xs.length + i
    · rw [if_neg hi, if_pos hlength, List.drop_append, List.drop_drop, List.length_drop]
      by_cases hk : 0 ≤ i + k
      · -- the position has gone over the end of the list
        have hgone : xs.drop ((xs.length + i).toNat + k) = [] :=
          List.drop_eq_nil_of_le (by omega)
        rw [if_pos hk, hgone, List.nil_append]
        congr 1
        omega
      · have hzero : k - (xs.length - (xs.length + i).toNat) = 0 := by omega
        rw [if_neg hk, if_pos (by omega), hzero, List.drop_zero]
        congr 2
        omega
    · rw [if_neg hi, if_neg hlength, List.length_nil] at h
      obtain rfl : k = 0 := by omega
      rw [Int.natCast_zero, Int.add_zero, List.drop_zero]

end Position

namespace Parser

variable {α β : Type} {p : Parser} {t : Token} {ts front rest inner : List Token}

/-! ### Moving along the window -/

/-- The parser at the position from which on `rest` is left of its window. -/
def moved (p : Parser) (rest : List Token) : Parser :=
  { p with position := p.indexOf rest.length }

@[simp]
theorem tokens_moved (p : Parser) (rest : List Token) : (p.moved rest).tokens = p.tokens :=
  rfl

@[simp]
theorem position_moved (p : Parser) (rest : List Token) :
    (p.moved rest).position = p.indexOf rest.length :=
  rfl

@[simp]
theorem stop_moved (p : Parser) (rest : List Token) : (p.moved rest).stop = p.stop :=
  rfl

/-- The window has at most as many tokens as there are positions, and not more than the list has. -/
theorem length_window_le (p : Parser) :
    p.window.length ≤ p.span ∧ p.window.length ≤ (Position.onward p.tokens p.position).length := by
  rw [window, List.length_take]
  omega

/-- A parser that has consumed nothing has not moved. -/
theorem moved_window (p : Parser) : p.moved p.window = p := by
  rw [moved, indexOf, Int.add_sub_cancel]

/-- The position behind a part of the window. -/
theorem indexOf_of_append (h : p.window = front ++ rest) :
    p.indexOf rest.length = p.position + front.length := by
  rw [indexOf, h, List.length_append]
  omega

/-- **What is left of the window is the window of the parser that has moved on.** -/
theorem window_moved (h : rest <:+ p.window) : (p.moved rest).window = rest := by
  obtain ⟨front, hfront⟩ := h
  have hlength := p.length_window_le
  rw [← hfront, List.length_append] at hlength
  have hspan : (p.moved rest).span = p.span - front.length := by
    rw [span, position_moved, stop_moved, indexOf_of_append hfront.symm, span]
    omega
  have honward : Position.onward p.tokens (p.position + front.length) =
      (Position.onward p.tokens p.position).drop front.length :=
    Position.onward_add _ _ (by omega)
  rw [window, hspan, tokens_moved, position_moved, indexOf_of_append hfront.symm, honward,
    ← List.drop_take]
  exact (congrArg (List.drop front.length) hfront.symm).trans List.drop_left

/-- Moving on does not change where tokens stand. -/
theorem indexOf_moved (h : rest <:+ p.window) (left : Nat) :
    (p.moved rest).indexOf left = p.indexOf left := by
  rw [indexOf, window_moved h, position_moved, indexOf, indexOf]
  omega

/-- Moving on does not change what the window ends with. -/
theorem edge_moved (h : rest <:+ p.window) : (p.moved rest).edge = p.edge := by
  have hle := p.length_window_le.1
  have hrest := h.length_le
  have hspan : (p.moved rest).span + p.window.length = p.span + rest.length := by
    rw [span] at hle
    rw [span, position_moved, stop_moved, indexOf, span]
    omega
  rw [edge, edge, window_moved h]
  refine if_congr ?_ rfl rfl
  omega

/-- The position depends only on what is left. -/
theorem moved_moved (h : rest <:+ p.window) (ts : List Token) :
    (p.moved rest).moved ts = p.moved ts := by
  rw [moved, indexOf_moved h]
  rfl

/-- **Where a window begins.** There is no position left; or there is one, but it lies outside the
list; or the window begins with what stands there. -/
theorem window_cases (p : Parser) :
    (¬p.position < p.stop ∧ p.window = [] ∧ p.edge = .closed) ∨
    (p.position < p.stop ∧ Position.get? p.tokens p.position = none ∧ p.window = [] ∧
      p.edge = .ragged) ∨
    ∃ t rest, p.position < p.stop ∧ Position.get? p.tokens p.position = some t ∧
      p.window = t :: rest := by
  by_cases hlt : p.position < p.stop
  · obtain ⟨n, hspan⟩ : ∃ n, p.span = n + 1 := ⟨p.span - 1, by rw [span]; omega⟩
    refine .inr ?_
    rw [← Position.head?_onward, edge, window, hspan]
    rcases Position.onward p.tokens p.position with - | ⟨t, ts⟩
    · exact .inl ⟨hlt, rfl, rfl, rfl⟩
    · exact .inr ⟨t, ts.take n, hlt, rfl, rfl⟩
  · have hspan : p.span = 0 := by
      rw [span]
      omega
    refine .inl ⟨hlt, ?_, ?_⟩
    · rw [window, hspan, List.take_zero]
    · rw [edge, hspan, if_neg (Nat.not_lt_zero _)]

/-- The parser behind the next token. -/
theorem moved_of_cons (h : p.window = t :: rest) :
    p.moved rest = { p with position := p.position + 1 } := by
  have hindex : p.indexOf rest.length = p.position + 1 := @indexOf_of_append p [t] rest h
  rw [moved, hindex]

/-- **The parser for the inside of the window has the inside for its window**, and what stands
behind counts for the parser around. -/
theorem window_inside (h : p.window = inner ++ rest) :
    let q : Parser := { p with stop := p.position + inner.length }
    q.window = inner ∧ q.edge = .closed ∧
      ∀ left, q.indexOf left = p.indexOf (left + rest.length) := by
  intro q
  have hspan : q.span = inner.length := by
    rw [span]
    simp only [q]
    omega
  have hle := p.length_window_le.1
  rw [h, List.length_append] at hle
  have hwindow : q.window = inner := by
    calc q.window
        = (Position.onward p.tokens p.position).take inner.length := by rw [window, hspan]
      _ = p.window.take inner.length := by rw [window, List.take_take, Nat.min_eq_left (by omega)]
      _ = inner := by rw [h, List.take_left]
  refine ⟨hwindow, ?_, fun left ↦ ?_⟩
  · rw [edge, hwindow, hspan, if_neg (Nat.lt_irrefl _)]
  · rw [indexOf, indexOf, hwindow, h, List.length_append]
    simp only [q]
    omega

/-! ### Walks that follow steps -/

/-- A failure on the window, told with positions. -/
def halt (p : Parser) : Failure → Halt
  | .refused fault left => .refused ⟨fault, p.indexOf left⟩
  | .beyond => .beyond
  | .exhausted => .exhausted

/-- What a step comes to on the window, told with positions. -/
def place (p : Parser) :
    EStateM.Result Failure (List Token) α → EStateM.Result Halt Parser α
  | .ok a rest => .ok a (p.moved rest)
  | .error failure rest => .error (p.halt failure) (p.moved rest)

/-- So does the position of a fault. -/
theorem halt_moved (h : rest <:+ p.window) (failure : Failure) :
    (p.moved rest).halt failure = p.halt failure := by
  cases failure with
  | refused fault left => rw [halt, halt, indexOf_moved h]
  | beyond | exhausted => rfl

/-- Positions can be told from further on as well. -/
theorem place_moved (h : rest <:+ p.window)
    (result : EStateM.Result Failure (List Token) α) :
    (p.moved rest).place result = p.place result := by
  cases result with
  | ok a ts => rw [place, place, moved_moved h]
  | error failure ts => rw [place, place, moved_moved h, halt_moved h]

/-- What is left of a window. -/
def leftover : EStateM.Result Failure (List Token) α → List Token
  | .ok _ rest | .error _ rest => rest

/-- The walk does with positions what the step does on the window, which leaves a part of the
window. -/
structure Follows (walk : Walk α) (step : Edge → Step α) : Prop where
  suffix : ∀ edge ts, leftover ((step edge).run ts) <:+ ts
  run_eq : ∀ p, walk.run p = p.place ((step p.edge).run p.window)

/-- A result that leaves the window as it is leaves the parser where it is. -/
theorem place_ok_window (p : Parser) (a : α) : p.place (.ok a p.window) = .ok a p := by
  rw [place, moved_window]

theorem place_error_window (p : Parser) (failure : Failure) :
    p.place (α := α) (.error failure p.window) = .error (p.halt failure) p := by
  rw [place, moved_window]

theorem follows_pure (a : α) : Follows (pure a) fun _ ↦ pure a where
  suffix _ ts := List.suffix_refl ts
  run_eq p := (p.place_ok_window a).symm

/-- Giving up is the same in both. -/
theorem follows_exhausted : Follows (α := α) (throw .exhausted) fun _ ↦ throw .exhausted where
  suffix _ ts := List.suffix_refl ts
  run_eq p := (p.place_error_window .exhausted).symm

theorem follows_refuseNext (fault : SyntaxFault) :
    Follows (α := α) (Walk.refuseNext fault) fun _ ↦ refuseNext fault where
  suffix _ ts := List.suffix_refl ts
  run_eq p := by
    have hindex : p.indexOf p.window.length = p.position := Int.add_sub_cancel ..
    refine Eq.trans ?_ (p.place_error_window (.refused fault p.window.length)).symm
    rw [halt, hindex]
    rfl

/-- The token before the window stands one position before the parser. -/
theorem follows_refuseLast (fault : SyntaxFault) :
    Follows (α := α) (Walk.refuseLast fault) fun _ ↦ refuseLast fault where
  suffix _ ts := List.suffix_refl ts
  run_eq p := by
    have hindex : p.indexOf (p.window.length + 1) = p.position - 1 := by
      rw [indexOf]
      omega
    refine Eq.trans ?_ (p.place_error_window (.refused fault (p.window.length + 1))).symm
    rw [halt, hindex]
    rfl

/-- **Walks may follow each other as steps do.** -/
theorem Follows.bind {walk : Walk α} {step : Edge → Step α} {f : α → Walk β}
    {g : α → Edge → Step β} (h : Follows walk step) (hf : ∀ a, Follows (f a) (g a)) :
    Follows (walk >>= f) fun edge ↦ step edge >>= fun a ↦ g a edge where
  suffix edge ts := by
    have hsuffix := h.suffix edge ts
    rcases hrun : (step edge).run ts with ⟨a, rest⟩ | ⟨failure, rest⟩
    · rw [hrun] at hsuffix
      rw [run_bind_ok hrun]
      exact ((hf a).suffix edge rest).trans hsuffix
    · rw [hrun] at hsuffix
      rw [run_bind_error hrun]
      exact hsuffix
  run_eq p := by
    have hleft := h.suffix p.edge p.window
    have hwalk := h.run_eq p
    rcases hrun : (step p.edge).run p.window with ⟨a, rest⟩ | ⟨failure, rest⟩
    · rw [hrun] at hleft hwalk
      have hsuffix : rest <:+ p.window := hleft
      rw [run_bind_ok hwalk, run_bind_ok hrun, (hf a).run_eq, window_moved hsuffix,
        edge_moved hsuffix, place_moved hsuffix]
    · rw [hrun] at hwalk
      rw [run_bind_error hwalk, run_bind_error hrun]
      rfl

theorem Follows.ite {c : Prop} [Decidable c] {walk walk' : Walk α} {step step' : Edge → Step α}
    (h : Follows walk step) (h' : Follows walk' step') :
    Follows (if c then walk else walk') fun edge ↦ if c then step edge else step' edge := by
  split
  · exact h
  · exact h'

/-! ### Tokens -/

/-- The token at a position, or the failure of a position outside the list. -/
theorem run_tokenAt (p : Parser) (i : Int) :
    (Walk.tokenAt i).run p =
      (Position.get? p.tokens i).elim (.error .beyond p) fun t ↦ .ok t p := by
  rw [Walk.tokenAt, run_bind_ok (EStateM.run_get p)]
  cases Position.get? p.tokens i <;> rfl

/-- Both look at the same token. -/
theorem follows_peek : Follows Walk.peek peek where
  suffix edge ts := by
    cases ts <;> cases edge <;> exact List.suffix_refl _
  run_eq p := by
    rw [Walk.peek, run_bind_ok (EStateM.run_get p)]
    obtain ⟨hstop, hwindow, hedge⟩ | ⟨hlt, hnone, hwindow, hedge⟩ |
      ⟨t, rest, hlt, hsome, hwindow⟩ := p.window_cases
    · have hpeek : (peek p.edge).run p.window = .ok none p.window := by
        rw [hwindow, hedge]
        rfl
      rw [if_neg hstop, hpeek, place_ok_window]
      rfl
    · have hpeek : (peek p.edge).run p.window = .error .beyond p.window := by
        rw [hwindow, hedge]
        rfl
      rw [if_pos hlt, run_bind_error (by rw [run_tokenAt, hnone]; rfl), hpeek, place_error_window]
      rfl
    · have hpeek : (peek p.edge).run p.window = .ok (some t) p.window := by
        rw [hwindow]
        rfl
      rw [if_pos hlt, run_bind_ok (by rw [run_tokenAt, hsome]; rfl), hpeek, place_ok_window]
      rfl

/-- The next token is consumed: the position goes up by one, and the window loses its first
token. -/
theorem follows_advance : Follows Walk.advance advance where
  suffix edge ts := by
    cases ts with
    | nil => cases edge <;> exact List.suffix_refl _
    | cons t ts => exact List.suffix_cons t ts
  run_eq p := by
    rw [Walk.advance, run_bind_ok (EStateM.run_get p)]
    obtain ⟨hstop, hwindow, hedge⟩ | ⟨hlt, hnone, hwindow, hedge⟩ |
      ⟨t, rest, hlt, hsome, hwindow⟩ := p.window_cases
    · have hadvance : (advance p.edge).run p.window =
          .error (.refused .unexpectedEnd 0) p.window := by
        rw [hwindow, hedge]
        rfl
      have hindex : p.indexOf 0 = p.position := by simp [indexOf, hwindow]
      rw [if_neg hstop, hadvance, place_error_window, halt, hindex]
      rfl
    · have hadvance : (advance p.edge).run p.window = .error .beyond p.window := by
        rw [hwindow, hedge]
        rfl
      rw [if_pos hlt, run_bind_error (by rw [run_tokenAt, hnone]; rfl), hadvance,
        place_error_window]
      rfl
    · have hadvance : (advance p.edge).run p.window = .ok t rest := by
        rw [hwindow]
        rfl
      rw [if_pos hlt, run_bind_ok (by rw [run_tokenAt, hsome]; rfl), hadvance, place,
        moved_of_cons hwindow]
      rfl

/-! ### Groups -/

/-- What the search for a closing parenthesis comes to, from the position of `q` on, for a parser
`p` that stays behind the opening one. -/
def foundAt (p q : Parser) : Closing → EStateM.Result Halt Parser Int
  | .found inner _ => .ok (q.position + inner.length) p
  | .illegal left => .error (.refused ⟨.unsupported, q.indexOf left⟩) p
  | .lineEnd => .error (.refused ⟨.unmatchedOpening, p.position - 1⟩) p
  | .windowEnd =>
    .error (if q.edge = .ragged then .beyond else .refused ⟨.unmatchedOpening, p.position - 1⟩) p

/-- A token that is passed over in the search moves what is found, and nothing else. -/
theorem foundAt_cons {q : Parser} (h : q.window = t :: rest) (c : Closing) :
    foundAt p q (c.cons t) = foundAt p (q.moved rest) c := by
  have hsuffix : rest <:+ q.window := h ▸ List.suffix_cons t rest
  have hposition : (q.moved rest).position = q.position + 1 := by rw [moved_of_cons h]
  cases c with
  | found inner after =>
    simp only [Closing.cons, foundAt, hposition, List.length_cons]
    congr 1
    omega
  | illegal left => simp only [Closing.cons, foundAt, indexOf_moved hsuffix]
  | lineEnd => rfl
  | windowEnd => simp only [Closing.cons, foundAt, edge_moved hsuffix]

/-- **The search by positions finds what the search in the window finds.** -/
theorem run_findClosing (p : Parser) {q : Parser} (htokens : q.tokens = p.tokens) (depth : Nat) :
    (Walk.findClosing q.span depth q.position).run p =
      foundAt p q (findClosing depth q.window) := by
  induction hn : q.span generalizing q depth with
  | zero =>
    obtain ⟨-, hwindow, hedge⟩ | ⟨hlt, -⟩ | ⟨t, rest, hlt, -⟩ := q.window_cases
    · rw [hwindow, findClosing, foundAt, hedge]
      rfl
    all_goals
      rw [span] at hn
      omega
  | succ n ih =>
    unfold Walk.findClosing
    rw [EStateM.run_bind, run_tokenAt, ← htokens]
    obtain ⟨hstop, -⟩ | ⟨-, hnone, hwindow, hedge⟩ | ⟨t, rest, hlt, hsome, hwindow⟩ :=
      q.window_cases
    · rw [span] at hn
      omega
    · rw [hnone, hwindow, findClosing, foundAt, hedge]
      rfl
    · -- what is behind the token is searched from the next position on
      have hsuffix : rest <:+ q.window := hwindow ▸ List.suffix_cons t rest
      have hmoved := moved_of_cons hwindow
      have hnext (depth : Nat) : (Walk.findClosing n depth (q.position + 1)).run p =
          foundAt p q ((findClosing depth rest).cons t) := by
        have hspan : (q.moved rest).span = n := by
          rw [hmoved, span]
          rw [span] at hn
          simp only
          omega
        have hrest := ih (q := q.moved rest) htokens depth hspan
        rw [window_moved hsuffix] at hrest
        rw [foundAt_cons hwindow, ← hrest, hmoved]
      rw [hsome, hwindow]
      cases t with
      | lparen => exact hnext (depth + 1)
      | rparen =>
        cases depth with
        | zero =>
          show EStateM.Result.ok q.position p = .ok (q.position + (0 : Nat)) p
          rw [Int.natCast_zero, Int.add_zero]
        | succ depth => exact hnext depth
      | illegal =>
        have hindex : q.indexOf (rest.length + 1) = q.position := by
          simp [indexOf, hwindow]
        show EStateM.Result.error (Halt.refused ⟨.unsupported, q.position⟩) p =
          .error (Halt.refused ⟨.unsupported, q.indexOf (rest.length + 1)⟩) p
        rw [hindex]
      | eof => rfl
      | _ => exact hnext depth

/-- **A group is read by positions as it is in the window**: a parser for the inside, with positions
in the same list, does what the step does on the inside. -/
theorem Follows.group {walk : Walk Expr} {step : Edge → Step Expr} (h : Follows walk step) :
    Follows (Walk.group walk) fun edge ↦ group edge (step .closed) where
  suffix edge ts := by
    rw [Parser.group, EStateM.run_bind, EStateM.run_get]
    rcases hfound : findClosing 0 ts with ⟨inner, after⟩ | left | - | -
    · simp only [hfound]
      rcases (step .closed).run inner with ⟨e, rest⟩ | ⟨failure, rest⟩
      · obtain ⟨hsplit, -⟩ := split_of_findClosing hfound
        rw [hsplit]
        exact (List.suffix_cons _ _).trans (List.suffix_append _ _)
      · exact List.suffix_refl ts
    all_goals
      simp only [hfound]
      cases edge <;> exact List.suffix_refl ts
  run_eq p := by
    have hsearch := run_findClosing p (q := p) rfl 0
    rw [Walk.group, run_bind_ok (EStateM.run_get p), Parser.group,
      run_bind_ok (EStateM.run_get p.window)]
    rcases hfound : findClosing 0 p.window with ⟨inner, after⟩ | left | - | -
    · obtain ⟨hsplit, -⟩ := split_of_findClosing hfound
      obtain ⟨hwindow, hedge, hindex⟩ := window_inside hsplit
      have hinside := h.run_eq { p with stop := p.position + inner.length }
      rw [hwindow, hedge] at hinside
      rw [hfound] at hsearch
      rw [run_bind_ok hsearch]
      simp only [hinside]
      rcases (step .closed).run inner with ⟨e, rest⟩ | ⟨failure, rest⟩
      · have hafter : p.indexOf after.length = p.position + inner.length + 1 := by
          rw [indexOf, hsplit, List.length_append, List.length_cons]
          omega
        show EStateM.Result.ok (Expr.group e) { p with position := p.position + inner.length + 1 } =
          .ok (Expr.group e) (p.moved after)
        rw [moved, hafter]
      · have hhalt : Parser.halt { p with stop := p.position + inner.length } failure =
            p.halt (failure.widen (after.length + 1)) := by
          cases failure with
          | refused fault left => rw [halt, Failure.widen, halt, hindex, List.length_cons]
          | beyond | exhausted => rfl
        refine Eq.trans ?_ (p.place_error_window (failure.widen (after.length + 1))).symm
        rw [← hhalt]
        rfl
    · rw [hfound] at hsearch
      rw [run_bind_error hsearch]
      exact (p.place_error_window (.refused .unsupported left)).symm
    · rw [hfound] at hsearch
      rw [run_bind_error hsearch]
      exact (follows_refuseLast .unmatchedOpening).run_eq p
    · rw [hfound, foundAt] at hsearch
      rw [run_bind_error hsearch]
      cases p.edge with
      | closed => exact (follows_refuseLast .unmatchedOpening).run_eq p
      | ragged => exact (p.place_error_window .beyond).symm

/-! ### The recursion -/

/-- The whole is followed: both look at what is behind the expression. -/
theorem Follows.whole {walk : Walk Expr} {step : Edge → Step Expr} (h : Follows walk step) :
    Follows (Walk.whole walk) fun edge ↦ whole edge (step edge) := by
  refine h.bind fun e ↦ follows_peek.bind fun next ↦ ?_
  rcases next with - | t
  · exact follows_pure e
  · cases t with
    | rparen => exact follows_refuseNext _
    | _ => exact follows_pure e

theorem follows_signed (sign : Token) : Follows (Walk.signed sign) fun edge ↦ signed edge sign := by
  refine follows_advance.bind fun t ↦ ?_
  cases t with
  | number x => exact follows_pure _
  | _ => exact follows_refuseLast _

theorem follows_expect (wanted : Kind) :
    Follows (Walk.expect wanted) fun edge ↦ expect edge wanted := by
  exact follows_advance.bind fun t ↦ (follows_pure _).ite (follows_refuseLast _)

/-- A conditional is followed place by place. -/
theorem Follows.conditional {walk : Walk Expr} {step : Edge → Step Expr} (h : Follows walk step) :
    Follows (Walk.conditional walk) fun edge ↦ conditional edge (step edge) := by
  refine h.bind fun left ↦ follows_advance.bind fun t ↦ .ite ?_ (follows_refuseLast _)
  exact h.bind fun right ↦ (follows_expect _).bind fun _ ↦ h.bind fun whenTrue ↦
    (follows_expect _).bind fun _ ↦ h.bind fun whenFalse ↦ follows_pure _

/-- At a depth of the recursion, the three walks follow the three steps. -/
structure FollowsAt (d : Nat) : Prop where
  primary : Follows (Walk.primary d) fun edge ↦ Parser.primary d edge
  expr : ∀ power, Follows (Walk.expr d power) fun edge ↦ Parser.expr d edge power
  climb : ∀ power left, Follows (Walk.climb d power left) fun edge ↦ Parser.climb d edge power left

/-- A primary expression is followed one level deeper. -/
theorem FollowsAt.primary_succ {d : Nat} (h : FollowsAt d) :
    Follows (Walk.primary (d + 1)) fun edge ↦ Parser.primary (d + 1) edge := by
  simp only [Walk.primary, Parser.primary]
  refine follows_advance.bind fun t ↦ ?_
  cases t with
  | identifier x => exact follows_pure _
  | number x => exact follows_pure _
  | plus => exact follows_signed .plus
  | minus => exact follows_signed .minus
  | lparen => exact (h.expr 0).whole.group
  | ifWord => exact h.primary.conditional
  | _ => exact follows_refuseLast _

/-- And so is the row of operators behind an operand. -/
theorem FollowsAt.climb_succ {d : Nat} (h : FollowsAt d) (power : Int) (left : Expr) :
    Follows (Walk.climb (d + 1) power left) fun edge ↦ Parser.climb (d + 1) edge power left := by
  simp only [Walk.climb, Parser.climb]
  refine follows_peek.bind fun next ↦ ?_
  rcases next with - | t
  · exact follows_pure left
  · cases t with
    | illegal => exact follows_refuseNext _
    | _ =>
      refine (follows_pure left).ite (follows_advance.bind fun t ↦ ?_)
      exact ((h.expr _).bind fun right ↦ h.climb power _).ite (follows_refuseLast _)

/-- **At every depth the walks of the parser follow the steps on the window.** -/
theorem followsAt (d : Nat) : FollowsAt d := by
  induction d with
  | zero =>
    refine ⟨?_, fun power ↦ ?_, fun power left ↦ ?_⟩
    · simp only [Walk.primary, Parser.primary]
      exact follows_exhausted
    · simp only [Walk.expr, Parser.expr]
      exact follows_exhausted
    · simp only [Walk.climb, Parser.climb]
      exact follows_exhausted
  | succ d ih =>
    refine ⟨ih.primary_succ, fun power ↦ ?_, ih.climb_succ⟩
    simp only [Walk.expr, Parser.expr]
    exact ih.primary.bind fun left ↦ ih.climb power left

/-! ### Calls -/

/-- Takes a step on the window, and tells with positions what it comes to. -/
def perform (p : Parser) (step : Step Expr) : Except ParseError Expr × Parser :=
  conclude (p.place (step.run p.window))

/-- An expression of a given power is read as it is in the window. -/
theorem parseExpr_eq_perform (p : Parser) (power : Int) :
    p.parseExpr power = p.perform (expr (depthBound p.span) p.edge power) := by
  rw [parseExpr, ((followsAt _).expr power).run_eq, perform]

/-- The whole is read as it is in the window. -/
theorem parse_eq_perform (p : Parser) :
    p.parse = p.perform (whole p.edge (expr (depthBound p.span) p.edge 0)) := by
  rw [parse, ((followsAt _).expr 0).whole.run_eq, perform]

theorem span_ofTokens (ts : List Token) : (ofTokens ts).span = ts.length := by
  simp [ofTokens, span]

theorem window_ofTokens (ts : List Token) : (ofTokens ts).window = ts := by
  simp [window, ofTokens, span, Position.onward]

theorem edge_ofTokens (ts : List Token) : (ofTokens ts).edge = .closed := by
  rw [edge, window_ofTokens, span_ofTokens, if_neg (Nat.lt_irrefl _)]

end Parser

/-- **A list of tokens is parsed by steps on the list.** -/
theorem parse_eq_conclude (ts : List Token) :
    parse ts = (Parser.conclude ((Parser.ofTokens ts).place
      ((Parser.whole .closed
        (Parser.expr (Parser.depthBound ts.length) .closed 0)).run ts))).1 := by
  rw [parse, Parser.parse_eq_perform, Parser.perform, Parser.span_ofTokens, Parser.edge_ofTokens,
    Parser.window_ofTokens]

end Reckoner
