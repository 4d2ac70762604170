import Reckoner.Decimal.Binary
import Reckoner.Decimal.Nearest
import Mathlib.Algebra.Order.Field.Power
import Mathlib.Algebra.Order.Field.Rat
import Mathlib.Tactic.FieldSimp
import Mathlib.Tactic.Linarith
import Mathlib.Tactic.Ring

/-!
# Rounding to the nearest double

The rationals that round to a double are an interval around it (`Binary.Covers`): it reaches
half-way to the neighbour on either side, and the two ends belong to it if the significand is even.
The lower neighbour of a power of two is nearer than the upper one. `nearestBits` is division of
natural numbers throughout, and `nearestBits_of_covers` says what it computes: the bits of the
double whose interval holds the quotient.
-/

namespace Reckoner.Decimal

/-- An integer power as the quotient of two natural ones, which is how the programs write it. -/
theorem zpow_eq_pow_div_pow {a : ℚ} (ha : a ≠ 0) (k : ℤ) :
    a ^ k = a ^ k.toNat / a ^ (-k).toNat := by
  rw [← zpow_natCast, ← zpow_natCast, ← zpow_sub₀ ha]
  congr 1
  omega

/-! ### The interval of a double -/

namespace Binary

/-- The part of the last place that the interval reaches down. -/
def reach (b : Binary) : ℚ :=
  if b.narrow then 1 / 4 else 1 / 2

/-- The rational rounds to the double. -/
def Covers (b : Binary) (q : ℚ) : Prop :=
  let low : ℚ := (b.significand - b.reach) * 2 ^ b.exponent
  let high : ℚ := (b.significand + 1 / 2) * 2 ^ b.exponent
  if b.significand % 2 = 0 then low ≤ q ∧ q ≤ high else low < q ∧ q < high

variable {b : Binary} {q : ℚ}

/-- What is covered lies between the two ends. -/
theorem Covers.bounds (h : b.Covers q) :
    (b.significand - b.reach) * 2 ^ b.exponent ≤ q ∧
      q ≤ (b.significand + 1 / 2) * 2 ^ b.exponent := by
  simp only [Covers] at h
  split at h
  · exact h
  · exact ⟨h.1.le, h.2.le⟩

/-- For odd significands the ends do not belong to it. -/
theorem Covers.inside (h : b.Covers q) (hodd : b.significand % 2 ≠ 0) :
    (b.significand - b.reach) * 2 ^ b.exponent < q ∧
      q < (b.significand + 1 / 2) * 2 ^ b.exponent := by
  simp only [Covers, if_neg hodd] at h
  exact h

theorem reach_le (b : Binary) : b.reach ≤ 1 / 2 := by
  unfold reach
  split <;> norm_num

/-- The binary fraction with the given bits: what `ofMagnitude` makes of them. -/
structure Encodes (b : Binary) (bits : ℕ) : Prop where
  bits_eq : (b.exponent + 1074).toNat * 2 ^ 52 + b.significand = bits
  exponent_ge : -1074 ≤ b.exponent
  exponent_le : b.exponent ≤ 971
  significand_pos : 0 < b.significand
  significand_lt : b.significand < 2 ^ 53
  /-- Only the smallest doubles have no leading one. -/
  leading : b.exponent = -1074 ∨ 2 ^ 52 ≤ b.significand
  narrow_iff : b.narrow = true ↔ -1074 < b.exponent ∧ b.significand = 2 ^ 52

/-- The parts of a finite word belong to it. -/
theorem encodes_ofMagnitude {bits : ℕ} (hpos : 0 < bits) (hfinite : bits < infinityBits) :
    (ofMagnitude bits).Encodes bits := by
  have hsplit : bits / 2 ^ 52 * 2 ^ 52 + bits % 2 ^ 52 = bits := Nat.div_add_mod' bits (2 ^ 52)
  have hmod : bits % 2 ^ 52 < 2 ^ 52 := Nat.mod_lt _ (by decide)
  have hfield : bits / 2 ^ 52 < 2047 := by
    rw [Nat.div_lt_iff_lt_mul (by decide)]
    exact hfinite
  rw [ofMagnitude]
  simp only [Nat.pow_eq]
  generalize bits / 2 ^ 52 = field at hsplit hfield ⊢
  generalize bits % 2 ^ 52 = fraction at hsplit hmod ⊢
  rcases field with - | field
  · rw [if_pos rfl]
    rw [Nat.zero_mul, Nat.zero_add] at hsplit
    exact ⟨by simpa using hsplit, le_rfl, by norm_num, hsplit ▸ hpos, by dsimp only; omega,
      .inl rfl, by simp⟩
  · rw [if_neg (Nat.succ_ne_zero field)]
    refine ⟨?_, ?_, ?_, ?_, ?_, ?_, ?_⟩ <;> dsimp only
    · have hexponent : (((field + 1 : ℕ) : ℤ) - 1075 + 1074).toNat = field := by omega
      rw [hexponent, ← hsplit]
      ring
    case refine_7 =>
      rw [Bool.and_eq_true, decide_eq_true_eq, decide_eq_true_eq]
      omega
    all_goals omega

end Binary

/-! ### The leading place of a quotient -/

/-- A comparison with a power of two, in natural numbers. -/
theorem zpow_le_div_iff {n d : ℕ} (hd : 0 < d) (k : ℤ) :
    (2 : ℚ) ^ k ≤ n / d ↔ d * 2 ^ k.toNat ≤ n * 2 ^ (-k).toNat := by
  have hd' : (0 : ℚ) < d := by exact_mod_cast hd
  rw [zpow_eq_pow_div_pow two_ne_zero, div_le_div_iff₀ (by positivity) hd', mul_comm]
  exact_mod_cast Iff.rfl

/-- **The exponent of a quotient is that of its leading binary place.** -/
theorem quotientLog_spec {n d : ℕ} (hn : 0 < n) (hd : 0 < d) :
    (2 : ℚ) ^ quotientLog n d ≤ n / d ∧ (n : ℚ) / d < 2 ^ (quotientLog n d + 1) := by
  have hd' : (0 : ℚ) < d := by exact_mod_cast hd
  have hlow (m : ℕ) (hm : 0 < m) : (2 : ℚ) ^ (m.log2 : ℤ) ≤ m := by
    exact_mod_cast Nat.log2_self_le hm.ne'
  have hhigh (m : ℕ) : (m : ℚ) < 2 ^ ((m.log2 : ℤ) + 1) := by
    exact_mod_cast Nat.lt_log2_self (n := m)
  -- the two logarithms leave the exponent open by one
  have habove : (n : ℚ) / d < 2 ^ ((n.log2 : ℤ) - d.log2 + 1) := by
    rw [div_lt_iff₀ hd']
    calc (n : ℚ) < 2 ^ ((n.log2 : ℤ) + 1) := hhigh n
      _ = 2 ^ ((n.log2 : ℤ) - d.log2 + 1) * 2 ^ (d.log2 : ℤ) := by
        rw [← zpow_add₀ two_ne_zero]
        congr 1
        omega
      _ ≤ 2 ^ ((n.log2 : ℤ) - d.log2 + 1) * d := by gcongr; exact hlow d hd
  have hbelow : (2 : ℚ) ^ ((n.log2 : ℤ) - d.log2 - 1) ≤ n / d := by
    rw [le_div_iff₀ hd']
    calc (2 : ℚ) ^ ((n.log2 : ℤ) - d.log2 - 1) * d
        ≤ 2 ^ ((n.log2 : ℤ) - d.log2 - 1) * 2 ^ ((d.log2 : ℤ) + 1) := by
          gcongr
          exact (hhigh d).le
      _ = 2 ^ (n.log2 : ℤ) := by
        rw [← zpow_add₀ two_ne_zero]
        congr 1
        omega
      _ ≤ n := hlow n hn
  rw [quotientLog]
  simp only [Nat.pow_eq, ← zpow_le_div_iff hd]
  split
  case isTrue h => exact ⟨h, habove⟩
  case isFalse h =>
    refine ⟨hbelow, ?_⟩
    rw [Int.sub_add_cancel]
    exact not_le.1 h

/-! ### Division with rounding -/

/-- What is nearest to a quotient; a half belongs to its even neighbour. -/
theorem roundDiv_eq {n d k : ℕ} (hlow : 2 * k * d ≤ 2 * n + d) (hhigh : 2 * n ≤ (2 * k + 1) * d)
    (hd : 0 < d) (htie : k % 2 ≠ 0 → 2 * k * d < 2 * n + d ∧ 2 * n < (2 * k + 1) * d) :
    roundDiv n d = k := by
  have hmod : n % d < d := Nat.mod_lt n hd
  have hn : n = n / d * d + n % d := (Nat.div_add_mod' n d).symm
  rw [roundDiv]
  generalize n / d = m at hn ⊢
  generalize n % d = r at hn hmod ⊢
  subst hn
  have hle : k ≤ m + 1 := by
    have : 2 * k * d < (2 * m + 3) * d := by nlinarith
    have := Nat.lt_of_mul_lt_mul_right this
    omega
  have hge : m ≤ k := by
    have : 2 * m * d ≤ (2 * k + 1) * d := by nlinarith
    have := Nat.le_of_mul_le_mul_right this hd
    omega
  simp only [Nat.add_mul, Nat.mul_add, Nat.one_mul] at hlow hhigh htie
  rcases hge.eq_or_lt with rfl | hlt
  · grind
  · obtain rfl : k = m + 1 := by omega
    grind

/-- A quotient is rounded to the number within a half of it. At just a half from it, this is so if
the number is even. -/
theorem roundDiv_of_near {n d k : ℕ} (hd : 0 < d) (hlow : (k : ℚ) - 1 / 2 ≤ n / d)
    (hhigh : (n : ℚ) / d ≤ k + 1 / 2)
    (htie : k % 2 ≠ 0 → (k : ℚ) - 1 / 2 < n / d ∧ (n : ℚ) / d < k + 1 / 2) :
    roundDiv n d = k := by
  have hd' : (0 : ℚ) < d := by exact_mod_cast hd
  apply roundDiv_eq _ _ hd
  · intro hodd
    obtain ⟨hlow, hhigh⟩ := htie hodd
    rw [lt_div_iff₀ hd'] at hlow
    rw [div_lt_iff₀ hd'] at hhigh
    have hlow' : (2 : ℚ) * k * d < 2 * n + d := by linarith
    have hhigh' : (2 : ℚ) * n < (2 * k + 1) * d := by linarith
    exact ⟨by exact_mod_cast hlow', by exact_mod_cast hhigh'⟩
  · rw [le_div_iff₀ hd'] at hlow
    have hlow' : (2 : ℚ) * k * d ≤ 2 * n + d := by linarith
    exact_mod_cast hlow'
  · rw [div_le_iff₀ hd'] at hhigh
    have hhigh' : (2 : ℚ) * n ≤ (2 * k + 1) * d := by linarith
    exact_mod_cast hhigh'

/-! ### The nearest double -/

/-- A quotient in units of `2 ^ e`. -/
theorem scaled_div (n d : ℕ) (e : ℤ) :
    ((n * 2 ^ (-e).toNat : ℕ) : ℚ) / (d * 2 ^ e.toNat : ℕ) = n / d / 2 ^ e := by
  rw [zpow_eq_pow_div_pow two_ne_zero]
  push_cast
  field_simp

/-- Division with rounding, in units of `2 ^ e`. -/
theorem roundDiv_scaled {n d k : ℕ} {e : ℤ} (hd : 0 < d) (hlow : ((k : ℚ) - 1 / 2) * 2 ^ e ≤ n / d)
    (hhigh : (n : ℚ) / d ≤ (k + 1 / 2) * 2 ^ e)
    (htie : k % 2 ≠ 0 → ((k : ℚ) - 1 / 2) * 2 ^ e < n / d ∧ (n : ℚ) / d < (k + 1 / 2) * 2 ^ e) :
    roundDiv (n * 2 ^ (-e).toNat) (d * 2 ^ e.toNat) = k := by
  have hscale : (0 : ℚ) < 2 ^ e := by positivity
  apply roundDiv_of_near (by positivity)
  · rwa [scaled_div, le_div_iff₀ hscale]
  · rwa [scaled_div, div_le_iff₀ hscale]
  · rwa [scaled_div, lt_div_iff₀ hscale, div_lt_iff₀ hscale]

namespace Binary

variable {b : Binary} {bits : ℕ} {q : ℚ}

theorem Encodes.pos_of_covers (hb : b.Encodes bits) (h : b.Covers q) : 0 < q := by
  have hone : (1 : ℚ) ≤ b.significand := by exact_mod_cast hb.significand_pos
  have hreach := b.reach_le
  refine lt_of_lt_of_le (mul_pos ?_ (by positivity)) h.bounds.1
  linarith

theorem Encodes.lt_of_covers (hb : b.Encodes bits) (h : b.Covers q) :
    q < 2 ^ (b.exponent + 53) := by
  have hmax : (b.significand : ℚ) + 1 ≤ 2 ^ 53 := by exact_mod_cast hb.significand_lt
  calc q ≤ (b.significand + 1 / 2) * 2 ^ b.exponent := h.bounds.2
    _ < 2 ^ 53 * 2 ^ b.exponent := by gcongr; linarith
    _ = 2 ^ (b.exponent + 53) := by
      rw [zpow_add₀ two_ne_zero, mul_comm]
      norm_cast

/-- Only the interval of a power of two reaches below that power. -/
theorem Encodes.carry_of_covers (hb : b.Encodes bits) (h : b.Covers q)
    (hexponent : -1074 < b.exponent) (hlt : q < 2 ^ (b.exponent + 52)) :
    b.significand = 2 ^ 52 ∧ (2 ^ 53 - 1 / 2) * 2 ^ (b.exponent - 1) ≤ q := by
  have hscale : (0 : ℚ) < 2 ^ b.exponent := by positivity
  have hreach := b.reach_le
  have hlow := h.bounds.1
  have hpower : (2 : ℚ) ^ (b.exponent + 52) = 2 ^ 52 * 2 ^ b.exponent := by
    rw [zpow_add₀ two_ne_zero, mul_comm]
    norm_cast
  have hsignificand : b.significand = 2 ^ 52 := by
    have hle : (b.significand : ℚ) - b.reach < 2 ^ 52 :=
      lt_of_mul_lt_mul_right (by rw [← hpower]; exact hlow.trans_lt hlt) hscale.le
    have hlt : (b.significand : ℚ) < 2 ^ 52 + 1 := by linarith
    have hlt' : b.significand < 2 ^ 52 + 1 := by exact_mod_cast hlt
    have := hb.leading
    omega
  refine ⟨hsignificand, le_trans (le_of_eq ?_) hlow⟩
  rw [reach, if_pos (hb.narrow_iff.2 ⟨hexponent, hsignificand⟩), hsignificand,
    zpow_sub_one₀ two_ne_zero]
  push_cast
  ring

section Quotient

variable {n d : ℕ} (hd : 0 < d) (h : b.Covers (n / d))

include hd h

/-- At the last place of the double, the quotient rounds to the significand. -/
theorem Covers.roundDiv_eq :
    roundDiv (n * 2 ^ (-b.exponent).toNat) (d * 2 ^ b.exponent.toNat) = b.significand := by
  have hreach : ((b.significand : ℚ) - 1 / 2) * 2 ^ b.exponent ≤
      (b.significand - b.reach) * 2 ^ b.exponent := by
    gcongr
    exact b.reach_le
  exact roundDiv_scaled hd (hreach.trans h.bounds.1) h.bounds.2 fun hodd ↦
    ⟨hreach.trans_lt (h.inside hodd).1, (h.inside hodd).2⟩

/-- At the place below, a quotient short of the power of two rounds to all of it. -/
theorem Encodes.roundDiv_of_carry (hb : b.Encodes bits) (hexponent : -1074 < b.exponent)
    (hlt : (n : ℚ) / d < 2 ^ (b.exponent + 52)) :
    roundDiv (n * 2 ^ (-(b.exponent - 1)).toNat) (d * 2 ^ (b.exponent - 1).toNat) = 2 ^ 53 := by
  have hlow := (hb.carry_of_covers h hexponent hlt).2
  have hpower : (2 : ℚ) ^ (b.exponent + 52) = 2 ^ 53 * 2 ^ (b.exponent - 1) := by
    rw [show b.exponent + 52 = 53 + (b.exponent - 1) by omega, zpow_add₀ two_ne_zero]
    norm_cast
  have hscale : (0 : ℚ) < 2 ^ (b.exponent - 1) := by positivity
  refine roundDiv_scaled hd (by exact_mod_cast hlow) ?_ (by norm_num)
  rw [hpower] at hlt
  push_cast
  linarith

end Quotient

/-- The quotient is no further below the power of two than one place. -/
theorem Encodes.le_of_carry (hb : b.Encodes bits) (h : b.Covers q) (hexponent : -1074 < b.exponent)
    (hlt : q < 2 ^ (b.exponent + 52)) : (2 : ℚ) ^ (b.exponent + 51) ≤ q := by
  refine le_trans ?_ (hb.carry_of_covers h hexponent hlt).2
  rw [show b.exponent + 51 = 52 + (b.exponent - 1) by omega, zpow_add₀ two_ne_zero]
  gcongr
  norm_num

/-- The carry makes the next exponent of the bits. -/
theorem Encodes.bits_of_carry (hb : b.Encodes bits) (hexponent : -1074 < b.exponent)
    (hsignificand : b.significand = 2 ^ 52) :
    (b.exponent - 1 + 1074).toNat * 2 ^ 52 + 2 ^ 53 = bits := by
  have hstep : (b.exponent + 1074).toNat = (b.exponent - 1 + 1074).toNat + 1 := by omega
  rw [← hb.bits_eq, hsignificand, hstep]
  ring

end Binary

/-- **A quotient in the interval of a double rounds to that double.** -/
theorem nearestBits_of_covers {b : Binary} {bits n d : ℕ} (hb : b.Encodes bits)
    (hfinite : bits < infinityBits) (hd : 0 < d) (h : b.Covers (n / d)) :
    nearestBits n d = bits := by
  have hn : 0 < n := by
    have hpos := hb.pos_of_covers h
    rw [lt_div_iff₀ (by exact_mod_cast hd), zero_mul] at hpos
    exact_mod_cast hpos
  obtain ⟨hlead, hnext⟩ := quotientLog_spec hn hd
  -- the last place of the quotient is that of the double or a lower one
  have hle : quotientLog n d < b.exponent + 53 :=
    (zpow_lt_zpow_iff_right₀ one_lt_two).1 (hlead.trans_lt (hb.lt_of_covers h))
  have hge := hb.exponent_ge
  rw [nearestBits, if_neg hn.ne']
  simp only [Nat.pow_eq]
  by_cases hsame : max (quotientLog n d - 52) (-1074) = b.exponent
  · rw [hsame, h.roundDiv_eq hd, hb.bits_eq, min_eq_right hfinite.le]
  · -- the quotient lies below the power of two that it rounds to
    have hexponent : -1074 < b.exponent := by omega
    have hlt : (n : ℚ) / d < 2 ^ (b.exponent + 52) :=
      hnext.trans_le (zpow_le_zpow_right₀ one_le_two (by omega))
    have hlog : b.exponent + 51 < quotientLog n d + 1 :=
      (zpow_lt_zpow_iff_right₀ one_lt_two).1 ((hb.le_of_carry h hexponent hlt).trans_lt hnext)
    have hlast : max (quotientLog n d - 52) (-1074) = b.exponent - 1 := by omega
    rw [hlast, hb.roundDiv_of_carry hd h hexponent hlt,
      hb.bits_of_carry hexponent (hb.carry_of_covers h hexponent hlt).1, min_eq_right hfinite.le]

end Reckoner.Decimal
