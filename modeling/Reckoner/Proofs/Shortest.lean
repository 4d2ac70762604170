import Reckoner.Decimal.Shortest
import Reckoner.Proofs.Rounding

/-!
# The shortest digits read back

The search for the shortest digits tries one grid of multiples of a power of ten after the other. On
each it tests in natural numbers whether a multiple reads back as the double, and this test is
membership in the double's interval (`covers_of_readsBack`). The search comes to an end because the
last of its grids is finer than a quarter of the last place (`unit_le_step`). So the
digits that it finds always lie in the interval (`covers_shortest`).
-/

namespace Reckoner.Decimal.Binary

variable {b : Binary} {bits : ℕ} {p : ℤ} {c : ℕ}

/-! ### One grid -/

/-- A quarter of a last place `2 ^ e`, in the measure in which `unit` is `10 ^ p`. -/
def step (e p : ℤ) : ℕ :=
  2 ^ (e - 2).toNat * 10 ^ (-p).toNat

@[inherit_doc step]
def unit (e p : ℤ) : ℕ :=
  2 ^ (2 - e).toNat * 10 ^ p.toNat

/-- Whether the multiple of `10 ^ p` reads back as the double. -/
def readsBack (b : Binary) (p : ℤ) (c : ℕ) : Bool :=
  let low := (4 * b.significand - if b.narrow then 1 else 2) * step b.exponent p
  let high := (4 * b.significand + 2) * step b.exponent p
  if b.significand % 2 = 0 then low ≤ c * unit b.exponent p && c * unit b.exponent p ≤ high
  else low < c * unit b.exponent p && c * unit b.exponent p < high

/-- The multiple of `10 ^ p` next to the double on its lower side. -/
def below (b : Binary) (p : ℤ) : ℕ :=
  4 * b.significand * step b.exponent p / unit b.exponent p

/-- On a grid the choice is between the neighbours below and above the double: the one that reads
back, or the nearer one if both do. -/
theorem onGrid?_eq (b : Binary) (p : ℤ) :
    b.onGrid? p =
      match b.readsBack p (b.below p), b.readsBack p (b.below p + 1) with
      | false, false => none
      | true, false => some (b.below p)
      | false, true => some (b.below p + 1)
      | true, true =>
        let twice := 2 * (4 * b.significand * step b.exponent p)
        let middle := (2 * b.below p + 1) * unit b.exponent p
        some (if twice < middle then b.below p else if middle < twice then b.below p + 1
          else b.below p + b.below p % 2) :=
  rfl

/-- What a grid offers reads back. -/
theorem readsBack_of_onGrid? (h : b.onGrid? p = some c) : b.readsBack p c = true := by
  rw [onGrid?_eq] at h
  split at h
  case h_1 => exact nomatch h
  case h_2 hbelow _ => exact Option.some.inj h ▸ hbelow
  case h_3 _ habove => exact Option.some.inj h ▸ habove
  case h_4 hbelow habove =>
    -- whichever neighbour is taken, it is one of the two
    have hc : c = b.below p ∨ c = b.below p + 1 := by
      have := Option.some.inj h
      split_ifs at this <;> omega
    rcases hc with rfl | rfl
    · exact hbelow
    · exact habove

theorem unit_pos (e p : ℤ) : 0 < unit e p := by
  unfold unit
  positivity

theorem step_pos (e p : ℤ) : 0 < step e p := by
  unfold step
  positivity

/-- What the measure is: a quarter of the last place, counted in multiples of `10 ^ p`. -/
theorem step_div_unit (e p : ℤ) : (step e p : ℚ) / unit e p = 2 ^ e / 4 / 10 ^ p := by
  have hquarter : (2 : ℚ) ^ e / 4 = 2 ^ (e - 2) := by
    rw [zpow_sub₀ two_ne_zero]
    norm_num
  rw [hquarter, zpow_eq_pow_div_pow two_ne_zero, zpow_eq_pow_div_pow (a := 10) (by norm_num),
    Int.neg_sub, step, unit]
  push_cast
  field_simp

section Measure

variable (a c : ℕ) (e p : ℤ)

/-- The natural numbers that the search compares stand for quarters of the double's last place and
for points of the grid. -/
theorem mul_step_le_iff : a * step e p ≤ c * unit e p ↔ (a : ℚ) / 4 * 2 ^ e ≤ c * 10 ^ p := by
  have hunit : (0 : ℚ) < unit e p := by exact_mod_cast unit_pos e p
  have hten : (0 : ℚ) < 10 ^ p := by positivity
  calc a * step e p ≤ c * unit e p
      ↔ (a : ℚ) * step e p ≤ c * unit e p := by exact_mod_cast Iff.rfl
    _ ↔ (a : ℚ) * (step e p / unit e p) ≤ c := by rw [← mul_div_assoc, div_le_iff₀ hunit]
    _ ↔ (a : ℚ) * (2 ^ e / 4) / 10 ^ p ≤ c := by rw [step_div_unit, mul_div_assoc]
    _ ↔ (a : ℚ) / 4 * 2 ^ e ≤ c * 10 ^ p := by
      rw [div_le_iff₀ hten, div_mul_eq_mul_div, mul_div_assoc]

/-- The same from the other side. -/
theorem mul_unit_le_iff : c * unit e p ≤ a * step e p ↔ c * 10 ^ p ≤ (a : ℚ) / 4 * 2 ^ e := by
  have hunit : (0 : ℚ) < unit e p := by exact_mod_cast unit_pos e p
  have hten : (0 : ℚ) < 10 ^ p := by positivity
  calc c * unit e p ≤ a * step e p
      ↔ (c : ℚ) * unit e p ≤ a * step e p := by exact_mod_cast Iff.rfl
    _ ↔ (c : ℚ) ≤ a * (step e p / unit e p) := by rw [← mul_div_assoc, le_div_iff₀ hunit]
    _ ↔ (c : ℚ) ≤ a * (2 ^ e / 4) / 10 ^ p := by rw [step_div_unit, mul_div_assoc]
    _ ↔ c * 10 ^ p ≤ (a : ℚ) / 4 * 2 ^ e := by
      rw [le_div_iff₀ hten, div_mul_eq_mul_div, mul_div_assoc]

end Measure

/-- **What reads back lies in the interval of the double.** -/
theorem covers_of_readsBack (hpos : 0 < b.significand) (h : b.readsBack p c = true) :
    b.Covers (c * 10 ^ p) := by
  have hlow : (((4 * b.significand - if b.narrow then 1 else 2 : ℕ) : ℕ) : ℚ) / 4 =
      b.significand - b.reach := by
    rw [reach]
    split
    · rw [Nat.cast_sub (by omega)]
      push_cast
      ring
    · rw [Nat.cast_sub (by omega)]
      push_cast
      ring
  have hhigh : (((4 * b.significand + 2 : ℕ) : ℕ) : ℚ) / 4 = b.significand + 1 / 2 := by
    push_cast
    ring
  simp only [readsBack] at h
  unfold Covers
  split at h
  case isTrue heven =>
    rw [if_pos heven, ← hlow, ← hhigh, ← mul_step_le_iff, ← mul_unit_le_iff]
    simpa using h
  case isFalse hodd =>
    rw [if_neg hodd, ← hlow, ← hhigh, ← not_le, ← not_le, ← mul_step_le_iff, ← mul_unit_le_iff,
      not_le, not_le]
    simpa using h

/-! ### The search -/

/-- On a grid finer than a quarter of the last place, the lower neighbour reads back. -/
theorem readsBack_below (hpos : 0 < b.significand) (h : unit b.exponent p ≤ step b.exponent p) :
    b.readsBack p (b.below p) = true := by
  have hstep := step_pos b.exponent p
  have hone : step b.exponent p ≤ 4 * b.significand * step b.exponent p :=
    Nat.le_mul_of_pos_left _ (by omega)
  have hle : b.below p * unit b.exponent p ≤ 4 * b.significand * step b.exponent p :=
    Nat.div_mul_le_self _ _
  have hlt : 4 * b.significand * step b.exponent p <
      b.below p * unit b.exponent p + unit b.exponent p := by
    rw [← Nat.succ_mul]
    exact Nat.lt_mul_of_div_lt (Nat.lt_succ_self _) (unit_pos b.exponent p)
  have hlow : (4 * b.significand - if b.narrow then 1 else 2) * step b.exponent p <
      b.below p * unit b.exponent p := by
    refine lt_of_le_of_lt (b := (4 * b.significand - 1) * step b.exponent p) ?_ ?_
    · gcongr
      split <;> omega
    · rw [Nat.sub_mul, Nat.one_mul]
      omega
  have hhigh : b.below p * unit b.exponent p < (4 * b.significand + 2) * step b.exponent p := by
    rw [Nat.add_mul]
    omega
  simp only [readsBack]
  split <;> simp [hlow, hhigh, hlow.le, hhigh.le]

/-- A grid that is fine enough offers something. -/
theorem isSome_onGrid? (hpos : 0 < b.significand) (h : unit b.exponent p ≤ step b.exponent p) :
    (b.onGrid? p).isSome = true := by
  rw [onGrid?_eq, readsBack_below hpos h]
  split <;> simp_all

/-- The finest grid that is tried for the doubles with a given exponent. -/
def finest (exponent : ℤ) : ℤ :=
  (exponent + 53) * 30103 / 100000 - 18

/-- Ten bits are worth at least three decimal digits. -/
theorem ten_pow_le {m k : ℕ} (h : 10 * m ≤ 3 * k) : 10 ^ m ≤ 2 ^ k := by
  rw [← Nat.pow_le_pow_iff_left (show 3 ≠ 0 by decide)]
  calc (10 ^ m) ^ 3 = (10 ^ 3) ^ m := by rw [← pow_mul, ← pow_mul, mul_comm]
    _ ≤ (2 ^ 10) ^ m := Nat.pow_le_pow_left (by norm_num) m
    _ = 2 ^ (10 * m) := (pow_mul 2 10 m).symm
    _ ≤ 2 ^ (k * 3) := Nat.pow_le_pow_right two_pos (by omega)
    _ = (2 ^ k) ^ 3 := pow_mul 2 k 3

/-- And ninety-three bits are at most twenty-eight. -/
theorem two_pow_le {m k : ℕ} (h : 28 * k ≤ 93 * m) : 2 ^ k ≤ 10 ^ m := by
  rw [← Nat.pow_le_pow_iff_left (show 28 ≠ 0 by decide)]
  calc (2 ^ k) ^ 28 = 2 ^ (k * 28) := (pow_mul 2 k 28).symm
    _ ≤ 2 ^ (93 * m) := Nat.pow_le_pow_right two_pos (by omega)
    _ = (2 ^ 93) ^ m := pow_mul 2 93 m
    _ ≤ (10 ^ 28) ^ m := Nat.pow_le_pow_left (by norm_num) m
    _ = (10 ^ m) ^ 28 := by rw [← pow_mul, ← pow_mul, mul_comm]

/-- The finest grid is finer than a quarter of the last place. -/
theorem unit_le_step {e : ℤ} (hlow : -1074 ≤ e) (hhigh : e ≤ 971) (hp : p ≤ finest e) :
    unit e p ≤ step e p := by
  rw [finest] at hp
  rcases le_or_gt 0 p with hsign | hsign
  · have hpow : 10 ^ p.toNat ≤ 2 ^ (e - 2).toNat := ten_pow_le (by omega)
    rwa [unit, step, show (2 - e).toNat = 0 by omega, show (-p).toNat = 0 by omega, pow_zero,
      pow_zero, one_mul, mul_one]
  · have hpow : 2 ^ (2 - e).toNat ≤ 10 ^ (-p).toNat := two_pow_le (by omega)
    rw [unit, step, show p.toNat = 0 by omega, pow_zero, mul_one]
    exact hpow.trans (Nat.le_mul_of_pos_left _ (by positivity))

/-- The last grid of the search is as fine as the finest one. -/
theorem Encodes.gridAbove_le (hb : b.Encodes bits) : b.gridAbove - 19 ≤ finest b.exponent := by
  have hlog : Nat.log2 b.significand < 53 :=
    (Nat.log2_lt hb.significand_pos.ne').2 hb.significand_lt
  rw [gridAbove, finest]
  omega

/-- The search ends at the first grid on which a multiple reads back. -/
theorem search_of_isSome {n : ℕ} (h : ∃ j < n, (b.onGrid? (p - j)).isSome = true) :
    ∃ c p', b.onGrid? p' = some c ∧ b.search n p = ⟨c, p'⟩ := by
  induction n generalizing p with
  | zero =>
    obtain ⟨j, hj, -⟩ := h
    exact absurd hj (Nat.not_lt_zero j)
  | succ n ih =>
    rw [search]
    rcases hgrid : b.onGrid? p with - | c
    · refine ih ?_
      obtain ⟨j, hj, hsome⟩ := h
      rcases j with - | j
      · simp [hgrid] at hsome
      · refine ⟨j, Nat.lt_of_succ_lt_succ hj, ?_⟩
        rwa [show p - 1 - (j : ℤ) = p - (j + 1 : ℕ) by omega]
    · exact ⟨c, p, hgrid, rfl⟩

/-- **The shortest digits of a double lie in its interval.** -/
theorem Encodes.covers_shortest (hb : b.Encodes bits) :
    b.Covers (b.shortest.digits * 10 ^ b.shortest.exponent) := by
  have hlast : (b.onGrid? (b.gridAbove - (19 : ℕ))).isSome = true :=
    isSome_onGrid? hb.significand_pos (unit_le_step hb.exponent_ge hb.exponent_le hb.gridAbove_le)
  obtain ⟨c, p, hgrid, hsearch⟩ := search_of_isSome (n := 20) ⟨19, by decide, hlast⟩
  rw [shortest, hsearch]
  exact covers_of_readsBack hb.significand_pos (readsBack_of_onGrid? hgrid)

end Reckoner.Decimal.Binary
