import Reckoner.Decimal.Numeral
import Reckoner.Proofs.Classes
import Mathlib.Data.Nat.Digits.Defs

/-!
# Numerals

A text is a numeral if its digits are decimal ones, of whatever script, and it has at most one point
(`IsNumeral`). Its value is the double nearest to the whole number that the digits spell, divided by
ten for each place behind the point (`numeralValue`). The reader finds the point by scanning for it
and the value by a fold along the digits; `numeral?_eq` says that it accepts just the numerals and
gives them their values. All this is about texts that begin with a digit, as lexemes do: the reader
itself also takes a numeral that begins with its point.
-/

namespace Reckoner.Decimal

variable {cs : List Char}

/-- Every digit of the text is a decimal one, and there is at most one point. -/
def IsNumeral (cs : List Char) : Prop :=
  (∀ c ∈ cs, c = '.' ∨ (Text.decimalDigit? c).isSome = true) ∧ cs.count '.' ≤ 1

instance (cs : List Char) : Decidable (IsNumeral cs) :=
  -- the characters of the text are gone through, not all characters that there are
  haveI := List.decidableBAll (fun c ↦ c = '.' ∨ (Text.decimalDigit? c).isSome = true) cs
  inferInstanceAs (Decidable (_ ∧ _))

/-- The number of places behind the point. -/
def places (cs : List Char) : Nat :=
  cs.length - (cs.idxOf '.' + 1)

/-- The whole number that the digits of a text spell. -/
def spelled (cs : List Char) : Nat :=
  Nat.ofDigits 10 (cs.filterMap Text.decimalDigit?).reverse

/-- The value of a numeral. -/
def numeralValue (cs : List Char) : Float :=
  ofDecimal (spelled cs) (-(places cs : Int))

/-! ### Rows of digits -/

theorem decimalDigit?_point : Text.decimalDigit? '.' = none := by
  decide

/-- The digits behind continue the number in front. -/
theorem spelled_append (cs cs' : List Char) :
    spelled (cs ++ cs') =
      (cs'.filterMap Text.decimalDigit?).foldl (fun n d ↦ 10 * n + d) (spelled cs) := by
  simp only [spelled, Nat.ofDigits_eq_foldr, List.foldr_reverse, List.filterMap_append,
    List.foldl_append, Nat.cast_id, Nat.add_comm]

theorem spelled_nil : spelled [] = 0 :=
  rfl

/-- A row of digits has a value if all of them are decimal, and the value is what they spell. -/
theorem digitsValue?_eq_ite (start : Nat) (cs : List Char) :
    digitsValue? start cs =
      if cs.all (fun c ↦ (Text.decimalDigit? c).isSome) then
        some ((cs.filterMap Text.decimalDigit?).foldl (fun n d ↦ 10 * n + d) start)
      else none := by
  induction cs generalizing start with
  | nil => simp [digitsValue?]
  | cons c cs ih =>
    rw [digitsValue?]
    rcases hc : Text.decimalDigit? c with - | d
    · simp [hc]
    · simp only [ih, List.all_cons, hc, Option.isSome_some, Bool.true_and,
        List.filterMap_cons_some hc, List.foldl_cons]

/-- Reading digit by digit gives the number that is spelled, if there is nothing but digits. -/
theorem digitsValue?_zero (cs : List Char) :
    digitsValue? 0 cs =
      if cs.all (fun c ↦ (Text.decimalDigit? c).isSome) then some (spelled cs) else none := by
  rw [digitsValue?_eq_ite, ← spelled_nil, ← spelled_append, List.nil_append]

/-! ### The point -/

/-- A row of decimal digits has no point in it. -/
theorem point_notMem_of_forall (h : ∀ c ∈ cs, (Text.decimalDigit? c).isSome = true) : '.' ∉ cs := by
  intro hmem
  have hsome := h _ hmem
  rw [decimalDigit?_point] at hsome
  exact nomatch hsome

/-- The point is not spelled. -/
theorem spelled_append_point (whole fraction : List Char) :
    spelled (whole ++ '.' :: fraction) = spelled (whole ++ fraction) := by
  simp only [spelled, List.filterMap_append, List.filterMap_cons_none decimalDigit?_point]

section Point

variable {whole fraction : List Char} (hwhole : '.' ∉ whole)

include hwhole

/-- A row without a point is a numeral if it holds only digits. -/
theorem isNumeral_whole_iff :
    IsNumeral whole ↔ ∀ c ∈ whole, (Text.decimalDigit? c).isSome = true := by
  rw [IsNumeral, List.count_eq_zero_of_not_mem hwhole]
  refine ⟨fun h c hc ↦ (h.1 c hc).resolve_left ?_, fun h ↦ ⟨fun c hc ↦ .inr (h c hc), by simp⟩⟩
  rintro rfl
  exact hwhole hc

/-- One point may stand among them. -/
theorem isNumeral_append_point_iff :
    IsNumeral (whole ++ '.' :: fraction) ↔
      ∀ c ∈ whole ++ fraction, (Text.decimalDigit? c).isSome = true := by
  have hcount : (whole ++ '.' :: fraction).count '.' = fraction.count '.' + 1 := by
    rw [List.count_append, List.count_eq_zero_of_not_mem hwhole, List.count_cons_self, Nat.zero_add]
  rw [IsNumeral, hcount]
  constructor
  · rintro ⟨hdigits, hone⟩ c hc
    -- the one point has been met, so that no other character is a point
    have hfraction : '.' ∉ fraction := List.count_eq_zero.1 (by omega)
    have hne : c ≠ '.' := by
      rintro rfl
      exact (List.mem_append.1 hc).elim hwhole hfraction
    refine (hdigits c ?_).resolve_left hne
    simpa [hne] using hc
  · intro h
    have hfraction : '.' ∉ fraction :=
      fun hmem ↦ point_notMem_of_forall h (List.mem_append_right _ hmem)
    refine ⟨fun c hc ↦ ?_, by rw [List.count_eq_zero_of_not_mem hfraction]⟩
    by_cases hpoint : c = '.'
    · exact .inl hpoint
    · exact .inr (h c (by simpa [hpoint] using hc))

theorem places_whole : places whole = 0 := by
  rw [places, List.idxOf_of_notMem hwhole]
  omega

/-- The places are what stands behind the point. -/
theorem places_append_point : places (whole ++ '.' :: fraction) = fraction.length := by
  rw [places, List.idxOf_append_of_notMem hwhole, List.idxOf_cons_self, List.length_append,
    List.length_cons]
  omega

end Point

/-- Reading a text up to its point, if it has one. -/
theorem exists_of_point (cs : List Char) :
    '.' ∉ cs ∧ cs.takeWhile (· ≠ '.') = cs ∧ cs.dropWhile (· ≠ '.') = [] ∨
      ∃ whole fraction, cs = whole ++ '.' :: fraction ∧ '.' ∉ whole ∧
        cs.takeWhile (· ≠ '.') = whole ∧ cs.dropWhile (· ≠ '.') = '.' :: fraction := by
  have hwhole : '.' ∉ cs.takeWhile (· ≠ '.') := fun h ↦ by simpa using List.mem_takeWhile_imp h
  have hsplit := List.takeWhile_append_dropWhile (p := fun c ↦ decide (c ≠ '.')) (l := cs)
  rcases hdrop : cs.dropWhile (· ≠ '.') with - | ⟨c, fraction⟩
  · rw [hdrop, List.append_nil] at hsplit
    exact .inl ⟨hsplit ▸ hwhole, hsplit, rfl⟩
  · have hpoint : c = '.' := by
      have hhead := List.head?_dropWhile_not (fun c ↦ decide (c ≠ '.')) cs
      rw [hdrop] at hhead
      simpa using hhead
    subst hpoint
    rw [hdrop] at hsplit
    exact .inr ⟨_, fraction, hsplit.symm, hwhole, rfl, rfl⟩

/-- **What the reader accepts are the numerals, and it gives them their values.** -/
theorem numeral?_eq (h : cs.head? ≠ some '.') (hne : cs ≠ []) :
    numeral? cs = if IsNumeral cs then some (numeralValue cs) else none := by
  rw [numeral?, numeralTimes?, numeralValue]
  obtain ⟨hwhole, htake, hdrop⟩ | ⟨whole, fraction, rfl, hwhole, htake, hdrop⟩ :=
    exists_of_point cs
  · simp only [htake, hdrop, List.isEmpty_eq_false_iff.2 hne, Bool.false_and, Bool.false_eq_true,
      if_false, List.drop_nil, List.append_nil, digitsValue?_zero, List.all_eq_true,
      isNumeral_whole_iff hwhole, places_whole hwhole, List.length_nil, Int.zero_sub]
    split <;> rfl
  · have hempty : whole.isEmpty = false := by
      rw [List.isEmpty_eq_false_iff]
      rintro rfl
      exact h rfl
    simp only [htake, hdrop, hempty, Bool.false_and, Bool.false_eq_true, if_false, List.drop_one,
      List.tail_cons, digitsValue?_zero, List.all_eq_true, isNumeral_append_point_iff hwhole,
      places_append_point hwhole, spelled_append_point, Int.zero_sub]
    split <;> rfl

end Reckoner.Decimal
