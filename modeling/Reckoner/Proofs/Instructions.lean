import Reckoner.Code.Machine
import Mathlib

/-!
# Instructions for doubles

The interpreter and native code compute with doubles in different ways: the interpreter tells
quotients by zero apart by hand and tests whether a magnitude is less than one; native code has one
instruction for quotients, compares by ordered predicates, and tests whether a magnitude is at least
one or no number. They always come to the same (`Target.apply_eq`, `Target.compare_eq`,
`Target.truth_eq`). So it does not matter to a computation what a unit is built for.

A double is looked at through its parts: it is no number, or it has a sign and is infinite, zero or
finite.
-/

namespace Reckoner

open Float.Model
open UnpackedFloat (Sign)

/-- The parts of a double. -/
abbrev partsOf (x : Float) : UnpackedFloat :=
  x.toModel.unpack

/-! ### Comparing -/

section Compare

variable {a b : UnpackedFloat} {x y : Float}

/-- What is compared the other way round compares the other way round. -/
theorem compare_swap (a b : UnpackedFloat) : b.compare a = (a.compare b).map Ordering.swap := by
  have hswap (m m' : Nat) (e e' : Int) : ((compare e e').then (compare m m')).swap =
      (compare e' e).then (compare m' m) := by
    rw [Ordering.swap_then, ← Std.OrientedCmp.eq_swap, ← Std.OrientedCmp.eq_swap]
  rcases a with (- | -) | - | (- | -) | ⟨- | -, m, e, h⟩ <;>
    rcases b with (- | -) | - | (- | -) | ⟨- | -, m', e', h'⟩
  case finite.negative.finite.negative | finite.positive.finite.positive =>
    simp [UnpackedFloat.compare, hswap]
  all_goals rfl

/-- All numbers compare. -/
theorem compare_eq_none_iff : a.compare b = none ↔ a.isNaN = true ∨ b.isNaN = true := by
  rcases a with (- | -) | - | (- | -) | ⟨- | -, m, e, h⟩ <;>
    rcases b with (- | -) | - | (- | -) | ⟨- | -, m', e', h'⟩ <;>
      simp [UnpackedFloat.compare, UnpackedFloat.isNaN]

theorem decide_lt (x y : Float) : decide (x < y) = (partsOf x).lt (partsOf y) := by
  rw [Bool.eq_iff_iff, decide_eq_true_iff]
  show decide (x.toModel < y.toModel) = true ↔ _
  rw [decide_eq_true_iff]
  rfl

theorem decide_le (x y : Float) : decide (x ≤ y) = (partsOf x).le (partsOf y) := by
  rw [Bool.eq_iff_iff, decide_eq_true_iff]
  show decide (x.toModel ≤ y.toModel) = true ↔ _
  rw [decide_eq_true_iff]
  rfl

/-- Whether an order is one that a predicate asks for. -/
def Predicate.accepts : Predicate → Ordering → Bool
  | lt, o => o = .lt
  | gt, o => o = .gt
  | eq, o => o = .eq
  | ge, o => o ≠ .lt

/-- A predicate holds of doubles that compare as it asks for. -/
theorem Predicate.holds_eq (p : Predicate) (x y : Float) :
    p.holds x y = ((partsOf x).compare (partsOf y)).any p.accepts := by
  cases p with
  | lt =>
    show decide (x < y) = _
    rw [decide_lt, UnpackedFloat.lt]
    rcases (partsOf x).compare (partsOf y) with - | - | - | - <;> rfl
  | gt =>
    show decide (y < x) = _
    rw [decide_lt, UnpackedFloat.lt, compare_swap]
    rcases (partsOf x).compare (partsOf y) with - | - | - | - <;> rfl
  | eq =>
    show (partsOf x).beq (partsOf y) = _
    rw [UnpackedFloat.beq]
    rcases (partsOf x).compare (partsOf y) with - | - | - | - <;> rfl
  | ge =>
    show decide (y ≤ x) = _
    rw [decide_le, UnpackedFloat.le, compare_swap]
    rcases (partsOf x).compare (partsOf y) with - | - | - | - <;> rfl

/-- No predicate holds of what is not a number, so that an ordered one need not ask. -/
theorem Predicate.ordered_eq (p : Predicate) (x y : Float) : p.ordered x y = p.holds x y := by
  rw [ordered, holds_eq]
  rcases hnan : x.isNaN || y.isNaN with - | -
  · rfl
  · rw [compare_eq_none_iff.2 (Bool.or_eq_true_iff.1 hnan)]
    rfl

/-- Doubles that do not compare as less compare as at least, or one is not a number. -/
theorem Predicate.unordered_ge (x y : Float) : Predicate.ge.unordered x y = !decide (x < y) := by
  show ((x.isNaN || y.isNaN) || Predicate.ge.holds x y) = !Predicate.lt.holds x y
  rw [holds_eq, holds_eq]
  rcases hnan : x.isNaN || y.isNaN with - | -
  · rcases hcompare : (partsOf x).compare (partsOf y) with - | order
    · cases hnan.symm.trans (Bool.or_eq_true_iff.2 (compare_eq_none_iff.1 hcompare))
    · cases order <;> rfl
  · rw [compare_eq_none_iff.2 (Bool.or_eq_true_iff.1 hnan)]
    rfl

end Compare

/-! ### Dividing -/

section Divide

/-- The sign of a double. -/
def signOf (x : Float) : Sign :=
  if Decimal.isNegative x then .negative else .positive

theorem toNat_unpackSign (w : BitVec Format.binary64.numBits) :
    (UnpackedFloat.unpackSign w).toNat = w.toNat / 2 ^ 63 := by
  have hlt : w.toNat < 2 ^ 64 := w.isLt
  simp only [UnpackedFloat.unpackSign, BitVec.toNat_cast, BitVec.extractLsb_toNat,
    Nat.shiftRight_eq_div_pow]
  omega

/-- The sign of a double is its first bit. -/
theorem ofBitVec_unpackSign {x : Float} {w : BitVec Format.binary64.numBits}
    (hw : w = x.toBits.toBitVec) : Sign.ofBitVec (UnpackedFloat.unpackSign w) = signOf x := by
  have hzero : UnpackedFloat.unpackSign w = 0#1 ↔ (UnpackedFloat.unpackSign w).toNat = 0 :=
    BitVec.toNat_inj.symm
  have hnegative : Decimal.isNegative x = true ↔ 2 ^ 63 ≤ w.toNat := by
    rw [Decimal.isNegative, decide_eq_true_iff, hw]
    rfl
  rw [toNat_unpackSign] at hzero
  rw [Sign.ofBitVec, signOf]
  split_ifs with hpositive hsign hsign
  · have hdiv := hzero.1 hpositive
    have hle := hnegative.1 hsign
    omega
  · rfl
  · rfl
  · have hdiv := mt hzero.2 hpositive
    have hlt := mt hnegative.2 hsign
    omega

/-- **The parts of a double.** Where there is a sign among them, it is the sign of the double. -/
theorem partsOf_cases (x : Float) :
    partsOf x = .notANumber ∨ partsOf x = .infinity (signOf x) ∨ partsOf x = .zero (signOf x) ∨
      ∃ m e h, partsOf x = .finite (signOf x) m e h := by
  have hsign := ofBitVec_unpackSign (x := x) rfl
  rw [show partsOf x = UnpackedFloat.unpack .binary64 x.toBits.toBitVec from rfl,
    UnpackedFloat.unpack]
  simp only [hsign]
  split_ifs with hones hmantissa hzeros hmantissa
  · exact .inr (.inl rfl)
  · exact .inl rfl
  · exact .inr (.inr (.inl rfl))
  · refine .inr (.inr (.inr ⟨_, _, ?_, rfl⟩))
    simpa [BitVec.toNat_pos, BitVec.pos_iff_ne_zero] using hmantissa
  · refine .inr (.inr (.inr ⟨_, _, ?_, rfl⟩))
    rw [BitVec.toNat_append]
    exact Nat.lt_of_lt_of_le (by decide) Nat.left_le_or

/-- Only the zeros compare as equal to zero. -/
theorem beq_zero_iff {x : Float} : (x == 0.0) = true ↔ partsOf x = .zero (signOf x) := by
  have hzero : partsOf 0.0 = .zero .positive := by rfl
  rw [show (x == 0.0) = (partsOf x).beq (partsOf 0.0) from rfl, hzero]
  rcases partsOf_cases x with hx | hx | hx | ⟨m, e, h, hx⟩ <;> rw [hx]
  · exact iff_of_false Bool.false_ne_true nofun
  · refine iff_of_false ?_ nofun
    cases signOf x <;> exact Bool.false_ne_true
  · exact iff_of_true rfl rfl
  · refine iff_of_false ?_ nofun
    cases signOf x <;> exact Bool.false_ne_true

/-- An infinity that takes the sign of a double, times a one that takes the sign of another. -/
theorem copySign_mul (x y : Float) : copySign Decimal.infinity x * copySign 1.0 y =
    .ofModel (pack (.infinity (signOf x / signOf y))) := by
  rw [copySign, copySign, signOf, signOf]
  split_ifs <;> decide +kernel

/-- **Telling quotients by zero apart by hand makes no difference.** -/
theorem divide_eq_div (x y : Float) : divide x y = x / y := by
  rw [divide]
  by_cases hy : (y == 0.0) = true
  · have hdiv : x / y = .ofModel (pack (.div .binary64 (partsOf x) (.zero (signOf y)))) := by
      rw [← beq_zero_iff.1 hy]
      rfl
    -- what is neither zero nor unordered goes to infinity, with the product of the signs
    have hother (hzero : partsOf x ≠ .zero (signOf x)) (hnan : x.isNaN = false) :
        ¬(x == 0.0 || x.isNaN) = true := by
      rw [hnan, Bool.or_false]
      exact mt beq_zero_iff.1 hzero
    rw [if_pos hy, hdiv]
    rcases partsOf_cases x with hx | hx | hx | ⟨m, e, h, hx⟩
    · have hnan : x.isNaN = true := congrArg UnpackedFloat.isNaN hx
      rw [if_pos (Bool.or_eq_true_iff.2 (.inr hnan)), hx]
      rfl
    · rw [if_neg (hother (hx ▸ nofun) (congrArg UnpackedFloat.isNaN hx)), copySign_mul, hx]
      rfl
    · rw [if_pos (Bool.or_eq_true_iff.2 (.inl (beq_zero_iff.2 hx))), hx]
      rfl
    · rw [if_neg (hother (hx ▸ nofun) (congrArg UnpackedFloat.isNaN hx)), copySign_mul, hx]
      rfl
  · rw [if_neg hy]

end Divide

/-! ### Targets -/

namespace Target

/-- Arithmetic is the same in units for all targets. -/
@[simp]
theorem apply_eq (target : Target) (op : Arithmetic) (a b : Scalar) :
    target.apply op a b = op.apply a b := by
  unfold apply
  split
  · cases op with
    | div =>
      show Except.ok (Scalar.real (_ / _)) = .ok (.real (divide _ _))
      rw [divide_eq_div]
    | _ => rfl
  · rfl

/-- Comparisons are the same in units for all targets. -/
@[simp]
theorem compare_eq (target : Target) (op : Comparison) (a b : Scalar) :
    target.compare op a b = if op.holds a b then 1.0 else 0.0 := by
  unfold compare
  split
  · rw [Predicate.ordered_eq]
    cases op <;> rfl
  · rfl

/-- The test for truth is the same in units for all targets. -/
@[simp]
theorem truth_eq (target : Target) (a : Scalar) : target.truth a = a.truth := by
  unfold truth
  split
  · exact Predicate.unordered_ge _ _
  · rfl

end Target

end Reckoner
