import Reckoner.Proofs.Bits
import Reckoner.Proofs.Numerals
import Reckoner.Proofs.Shortest
import Reckoner.Token.Basic
import Mathlib.Data.List.Basic

/-!
# Numbers read back as they are written

The text of a double that has no exponent in it is a numeral, and the value of that numeral is the
double (`numeralValue_lexeme`). The digits and the point of the text make a quotient (`quotient`),
and this is the decimal that was laid out, wherever the point has come to stand
(`exists_of_positional`); a final `.0` does not count. As the decimal lies in the interval of the
double, rounding leads back to it.
-/

namespace Reckoner.Decimal

variable {cs ds : List Char}

/-! ### Digits -/

/-- A digit of ASCII stands for its distance from `0`. -/
theorem decimalDigit?_of_isDigit {c : Char} (h : c.isDigit = true) :
    Text.decimalDigit? c = some (c.toNat - '0'.toNat) := by
  have hrange : 48 ≤ c.toNat ∧ c.toNat ≤ 57 := by
    simpa [Char.isDigit, UInt32.le_iff_toNat_le] using h
  have hfirst : Text.decimalRanges.find? (fun r ↦ r.1 ≤ c.toNat && c.toNat ≤ r.2) = some (48, 57) :=
    List.find?_cons_of_pos (by simpa using hrange)
  rw [Text.decimalDigit?, hfirst, Option.map_some, Nat.mod_eq_of_lt (by simp only; omega)]
  rfl

theorem isSome_of_isDigit {c : Char} (h : c.isDigit = true) :
    (Text.decimalDigit? c).isSome = true := by
  rw [decimalDigit?_of_isDigit h]
  rfl

/-- On digits of ASCII the number that is spelled is the one that core reads off them. -/
theorem spelled_eq_ofDigitChars (h : ∀ c ∈ cs, c.isDigit = true) :
    spelled cs = Nat.ofDigitChars 10 cs 0 := by
  have hfold (n : ℕ) : (cs.filterMap Text.decimalDigit?).foldl (fun n d ↦ 10 * n + d) n =
      Nat.ofDigitChars 10 cs n := by
    induction cs generalizing n with
    | nil => rfl
    | cons c cs ih =>
      obtain ⟨hc, hcs⟩ := List.forall_mem_cons.1 h
      rw [List.filterMap_cons_some (decimalDigit?_of_isDigit hc), List.foldl_cons, ih hcs,
        Nat.ofDigitChars_cons]
  rw [← hfold, ← spelled_nil, ← spelled_append, List.nil_append]

theorem isDigit_of_mem_digitsOf {n : ℕ} {c : Char} (h : c ∈ digitsOf n) : c.isDigit = true :=
  Nat.isDigit_of_mem_toDigits (by decide) (by decide) h

/-- Reading the digits of a number gives the number. -/
theorem ofDigitChars_digitsOf (n : ℕ) : Nat.ofDigitChars 10 (digitsOf n) 0 = n :=
  Nat.ofDigitChars_ten_toDigits

/-! ### The quotient of a numeral -/

/-- The rational that a numeral writes. -/
def quotient (cs : List Char) : ℚ :=
  spelled cs / 10 ^ places cs

/-- The value of a numeral is the double nearest to what is spelled, with the point put in place. -/
theorem numeralValue_eq (cs : List Char) :
    numeralValue cs = Float.ofBits (UInt64.ofNat (nearestBits (spelled cs) (10 ^ places cs))) := by
  rw [numeralValue, ofDecimal, ofQuotient, Int.neg_neg, Int.toNat_natCast,
    Int.toNat_of_nonpos (by omega)]
  simp

section Point

variable {whole fraction : List Char} (h : ∀ c ∈ whole ++ fraction, c.isDigit = true)

include h

theorem point_notMem_whole : '.' ∉ whole :=
  fun hmem ↦ absurd (h _ (List.mem_append_left _ hmem)) (by decide)

theorem point_notMem_fraction : '.' ∉ fraction :=
  fun hmem ↦ absurd (h _ (List.mem_append_right _ hmem)) (by decide)

/-- A numeral with a point is the number of all its digits over a power of ten. -/
theorem quotient_append_point :
    quotient (whole ++ '.' :: fraction) =
      Nat.ofDigitChars 10 (whole ++ fraction) 0 / 10 ^ fraction.length := by
  rw [quotient, spelled_append_point, places_append_point (point_notMem_whole h),
    spelled_eq_ofDigitChars h]

end Point

theorem div_ten_pow (q : ℚ) (n : ℕ) : q / 10 ^ n = q * 10 ^ (-(n : ℤ)) := by
  rw [zpow_neg, zpow_natCast, div_eq_mul_inv]

/-- **The quotient of a laid out decimal is that decimal.** -/
theorem exists_of_positional (hne : ds ≠ []) (h : ∀ c ∈ ds, c.isDigit = true) (point : ℤ) :
    ∃ whole fraction, positional ds point = whole ++ '.' :: fraction ∧ whole ≠ [] ∧
      (∀ c ∈ whole ++ fraction, c.isDigit = true) ∧
      (Nat.ofDigitChars 10 (whole ++ fraction) 0 : ℚ) / 10 ^ fraction.length =
        Nat.ofDigitChars 10 ds 0 * 10 ^ (point - ds.length) := by
  have hlength : 0 < ds.length := List.length_pos_iff.2 hne
  have hzeros (k : ℕ) : ∀ c ∈ List.replicate k '0', c.isDigit = true := by
    intro c hc
    rw [List.eq_of_mem_replicate hc]
    rfl
  rw [positional]
  split
  case isTrue hpoint =>
    refine ⟨['0'], List.replicate (-point).toNat '0' ++ ds, rfl, List.cons_ne_nil _ _, ?_, ?_⟩
    · simp only [List.forall_mem_append, List.forall_mem_singleton]
      exact ⟨rfl, hzeros _, h⟩
    · have hdigits : Nat.ofDigitChars 10 (['0'] ++ (List.replicate (-point).toNat '0' ++ ds)) 0 =
          Nat.ofDigitChars 10 ds 0 := by
        rw [Nat.ofDigitChars_append, Nat.ofDigitChars_append, Nat.ofDigitChars_replicate_zero]
        rfl
      rw [hdigits, div_ten_pow, List.length_append, List.length_replicate]
      congr 2
      omega
  case isFalse hpoint =>
    split
    case isTrue hfill =>
      refine ⟨ds ++ List.replicate (point.toNat - ds.length) '0', ['0'], rfl, by simp [hne], ?_, ?_⟩
      · simp only [List.forall_mem_append, List.forall_mem_singleton]
        exact ⟨⟨h, hzeros _⟩, rfl⟩
      · rw [Nat.ofDigitChars_append, Nat.ofDigitChars_append, Nat.ofDigitChars_replicate_zero,
          show point - ds.length = (point.toNat - ds.length : ℕ) by omega, zpow_natCast]
        simp only [Nat.ofDigitChars_cons, Nat.ofDigitChars_nil, List.length_singleton]
        push_cast
        ring
    case isFalse hfill =>
      refine ⟨ds.take point.toNat, ds.drop point.toNat, by simp, ?_, ?_, ?_⟩
      · rw [Ne, List.take_eq_nil_iff, not_or]
        exact ⟨by omega, hne⟩
      · rwa [List.take_append_drop]
      · rw [List.take_append_drop, List.length_drop, div_ten_pow]
        congr 2
        omega

/-! ### A final point and zero -/

/-- Either a final `.0` is there and is dropped, or nothing is. -/
theorem dropPointZero_cases (cs : List Char) :
    (∃ front, cs = front ++ ['.', '0'] ∧ Token.dropPointZero cs = front) ∨
      Token.dropPointZero cs = cs := by
  rw [Token.dropPointZero]
  split
  case h_1 rest hreverse =>
    refine .inl ⟨rest.reverse, ?_, rfl⟩
    rw [← List.reverse_reverse cs, hreverse]
    simp
  case h_2 => exact .inr rfl

/-- Only a point and a zero can be lost. -/
theorem mem_dropPointZero {c : Char} (h : c ∈ cs) (hpoint : c ≠ '.') (hzero : c ≠ '0') :
    c ∈ Token.dropPointZero cs := by
  rcases dropPointZero_cases cs with ⟨front, rfl, hdrop⟩ | hdrop
  · rw [hdrop]
    simpa [hpoint, hzero] using h
  · rwa [hdrop]

/-- The numeral with the quotient `q` begins with a digit, as a lexeme has to. -/
structure Writes (cs : List Char) (q : ℚ) : Prop where
  isNumeral : IsNumeral cs
  head : ∃ c ∈ cs.head?, Text.isDigit c = true
  quotient_eq : quotient cs = q

/-- Dropping a final `.0` leaves the number that is written. -/
theorem writes_dropPointZero {whole fraction : List Char} (hne : whole ≠ [])
    (h : ∀ c ∈ whole ++ fraction, c.isDigit = true) :
    Writes (Token.dropPointZero (whole ++ '.' :: fraction))
      (Nat.ofDigitChars 10 (whole ++ fraction) 0 / 10 ^ fraction.length) := by
  have hwhole := point_notMem_whole h
  have hsome : ∀ c ∈ whole ++ fraction, (Text.decimalDigit? c).isSome = true :=
    fun c hc ↦ isSome_of_isDigit (h c hc)
  obtain ⟨d, rest, rfl⟩ := List.exists_cons_of_ne_nil hne
  have hhead : Text.isDigit d = true := Text.isDigit_of_isSome (hsome d (by simp))
  rcases dropPointZero_cases (d :: rest ++ '.' :: fraction) with ⟨front, heq, hdrop⟩ | hdrop
  · -- the point that goes is the only one
    obtain ⟨rfl, -, rfl⟩ :=
      (List.append_cons_inj_of_notMem hwhole (point_notMem_fraction h)).1 heq
    have hdigits : ∀ c ∈ d :: rest, c.isDigit = true :=
      fun c hc ↦ h c (List.mem_append_left _ hc)
    rw [hdrop]
    refine ⟨(isNumeral_whole_iff hwhole).2 fun c hc ↦ hsome c (List.mem_append_left _ hc),
      ⟨d, rfl, hhead⟩, ?_⟩
    rw [quotient, places_whole hwhole, spelled_eq_ofDigitChars hdigits, Nat.ofDigitChars_append]
    simp [Nat.ofDigitChars_cons]
  · rw [hdrop]
    exact ⟨(isNumeral_append_point_iff hwhole).2 hsome, ⟨d, rfl, hhead⟩, quotient_append_point h⟩

/-! ### The lexeme of a number -/

section OfBits

variable {bits : ℕ}

/-- The text of the double with the given bits. -/
theorem toList_text_ofBits (h : bits ≤ infinityBits) :
    (text (Float.ofBits (UInt64.ofNat bits))).toList =
      if bits = infinityBits then ['i', 'n', 'f']
      else if bits = 0 then ['0', '.', '0']
      else plain.layOut (Binary.ofMagnitude bits).shortest := by
  have hbits := toNat_toBits_ofBits h
  have hlt : bits < 2 ^ 63 := h.trans_lt (by decide)
  have hsign : isNegative (Float.ofBits (UInt64.ofNat bits)) = false := by
    rw [isNegative, hbits, decide_eq_false_iff_not]
    exact hlt.not_ge
  have hmagnitude : magnitudeBits (Float.ofBits (UInt64.ofNat bits)) = bits := by
    rw [magnitudeBits, hbits]
    exact Nat.mod_eq_of_lt hlt
  rw [text, Style.write, isNaN_ofBits h, hsign, if_neg Bool.false_ne_true,
    if_neg Bool.false_ne_true, String.toList_ofList, Style.magnitude, hmagnitude]
  simp only [isInf_ofBits h]

/-- A numeral has the value of the double around which its quotient lies. -/
theorem numeralValue_of_covers (hpos : 0 < bits) (hfinite : bits < infinityBits)
    (h : (Binary.ofMagnitude bits).Covers (quotient cs)) :
    numeralValue cs = Float.ofBits (UInt64.ofNat bits) := by
  have hcovers : (Binary.ofMagnitude bits).Covers (spelled cs / (10 ^ places cs : ℕ)) := by
    rw [Nat.cast_pow]
    exact h
  rw [numeralValue_eq,
    nearestBits_of_covers (Binary.encodes_ofMagnitude hpos hfinite) hfinite (by positivity) hcovers]

/-- A decimal that is laid out without an exponent writes itself, also if a final `.0` is
dropped. -/
theorem writes_layOut (d : Digits) (h : 'e' ∉ plain.layOut d) :
    Writes (Token.dropPointZero (plain.layOut d)) (d.digits * 10 ^ d.exponent) := by
  rw [Style.layOut] at h ⊢
  split at h
  case isTrue hrange =>
    rw [if_pos hrange]
    have hnil : digitsOf d.digits ≠ [] := Nat.toDigits_ne_nil
    obtain ⟨whole, fraction, hlayout, hne, hdigits, hvalue⟩ :=
      exists_of_positional hnil (fun _ ↦ isDigit_of_mem_digitsOf)
        (d.exponent + (digitsOf d.digits).length - 1 + 1)
    rw [hlayout, show (d.digits * 10 ^ d.exponent : ℚ) = _ from ?_]
    · exact writes_dropPointZero hne hdigits
    · rw [hvalue, ofDigitChars_digitsOf]
      congr 2
      omega
  case isFalse => exact absurd (by simp [Style.scientific]) h

/-- **A number that is written with digits and a point alone reads back as itself.** -/
theorem exists_writes_lexeme (h : bits ≤ infinityBits)
    (hplain : ∀ c ∈ (Token.number (Float.ofBits (UInt64.ofNat bits))).lexeme.toList,
      c = '.' ∨ (Text.decimalDigit? c).isSome = true) :
    ∃ q, Writes (Token.number (Float.ofBits (UInt64.ofNat bits))).lexeme.toList q ∧
      numeralValue (Token.number (Float.ofBits (UInt64.ofNat bits))).lexeme.toList =
        Float.ofBits (UInt64.ofNat bits) := by
  rw [Token.lexeme, String.toList_ofList, toList_text_ofBits h] at *
  split at hplain
  case isTrue hinfinity =>
    exact absurd (hplain 'i' (mem_dropPointZero (by simp) (by decide) (by decide))) (by decide)
  case isFalse hinfinity =>
    rw [if_neg hinfinity]
    split at hplain
    case isTrue hzero =>
      have hwrites : Writes (Token.dropPointZero (['0'] ++ '.' :: ['0'])) _ :=
        writes_dropPointZero (by simp) (by simp)
      rw [if_pos hzero, hzero]
      refine ⟨_, hwrites, ?_⟩
      rw [numeralValue_eq]
      rfl
    case isFalse hzero =>
      have hfinite : bits < infinityBits := lt_of_le_of_ne h hinfinity
      have hpos : 0 < bits := Nat.pos_of_ne_zero hzero
      have hletter : 'e' ∉ plain.layOut (Binary.ofMagnitude bits).shortest := fun hmem ↦
        absurd (hplain 'e' (mem_dropPointZero hmem (by decide) (by decide))) (by decide)
      have hwrites := writes_layOut _ hletter
      rw [if_neg hzero]
      refine ⟨_, hwrites, numeralValue_of_covers hpos hfinite ?_⟩
      rw [hwrites.quotient_eq]
      exact (Binary.encodes_ofMagnitude hpos hfinite).covers_shortest

end OfBits

end Reckoner.Decimal
