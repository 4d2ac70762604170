import Reckoner.Text.Blank
import Reckoner.Text.Digit
import Reckoner.Text.Letter
import Mathlib.Data.List.Chain
import Mathlib.Data.List.TakeWhile

/-!
# Classes of characters

Letters, digits and blanks are three classes without a common character, and decimal digits are
digits. Each is read off the tables once. Since the ranges of a table ascend, it takes one walk
along both tables to see that no range of one meets a range of the other (`Text.Apart`).
-/

namespace Reckoner.Text

variable {table table' : List (Nat × Nat)} {c : Char}

/-- A character is in a table if one of the ranges holds its code. -/
theorem inRanges_iff : inRanges table c = true ↔ ∃ r ∈ table, r.1 ≤ c.toNat ∧ c.toNat ≤ r.2 := by
  simp [inRanges]

/-- The ranges of a table stand in ascending order. -/
def Ascending (table : List (Nat × Nat)) : Prop :=
  (table.map Prod.fst).IsChain (· ≤ ·)

instance (table : List (Nat × Nat)) : Decidable (Ascending table) :=
  inferInstanceAs (Decidable ((table.map Prod.fst).IsChain _))

theorem Ascending.pairwise (h : Ascending table) : table.Pairwise fun r s ↦ r.1 ≤ s.1 :=
  List.pairwise_map.1 (List.isChain_iff_pairwise.1 h)

/-- No range of one table meets a range of the other, where both ascend: the ranges of the second
that end before a range of the first are passed over, and the next one must begin behind it. -/
def Apart : List (Nat × Nat) → List (Nat × Nat) → Bool
  | [], _ => true
  | r :: table, table' =>
    let rest := table'.dropWhile fun s ↦ s.2 < r.1
    rest.head?.all (fun s ↦ r.2 < s.1) && Apart table rest

/-- Every range of the first table lies inside a range of the second. -/
def Within (table table' : List (Nat × Nat)) : Bool :=
  table.all fun r ↦ table'.any fun s ↦ s.1 ≤ r.1 && r.2 ≤ s.2

/-- Ranges of ascending tables that are apart do not meet. -/
theorem lt_or_lt_of_apart (htable : Ascending table) (htable' : Ascending table')
    (h : Apart table table' = true) {r s : Nat × Nat} (hr : r ∈ table) (hs : s ∈ table') :
    r.2 < s.1 ∨ s.2 < r.1 := by
  replace htable := htable.pairwise
  replace htable' := htable'.pairwise
  induction table generalizing table' with
  | nil => exact absurd hr List.not_mem_nil
  | cons first table ih =>
    obtain ⟨hfirst, htable⟩ := List.pairwise_cons.1 htable
    rw [Apart, Bool.and_eq_true] at h
    obtain ⟨hhead, hrest⟩ := h
    -- the second table is what is passed over, and the rest
    rw [← List.takeWhile_append_dropWhile (p := fun s ↦ decide (s.2 < first.1)) (l := table')]
      at hs htable'
    obtain ⟨-, hascends, -⟩ := List.pairwise_append.1 htable'
    rcases List.mem_append.1 hs with hs | hs
    · have hbefore : s.2 < first.1 := by simpa using List.mem_takeWhile_imp hs
      rcases List.mem_cons.1 hr with rfl | hr
      · exact .inr hbefore
      · exact .inr (Nat.lt_of_lt_of_le hbefore (hfirst r hr))
    · rcases List.mem_cons.1 hr with rfl | hr
      · left
        rcases hdrop : table'.dropWhile fun s ↦ decide (s.2 < r.1) with - | ⟨next, later⟩
        · rw [hdrop] at hs
          exact absurd hs List.not_mem_nil
        · rw [hdrop] at hs hhead hascends
          have hnext : r.2 < next.1 := of_decide_eq_true hhead
          rcases List.mem_cons.1 hs with rfl | hs
          · exact hnext
          · exact Nat.lt_of_lt_of_le hnext ((List.pairwise_cons.1 hascends).1 s hs)
      · exact ih hrest hr hs htable hascends

/-- A walk along both tables is enough: tables that are apart have no character in common. -/
theorem not_inRanges_of_apart (htable : Ascending table) (htable' : Ascending table')
    (h : Apart table table' = true) (hc : inRanges table c = true) :
    inRanges table' c = false := by
  obtain ⟨r, hr, hlow, hhigh⟩ := inRanges_iff.1 hc
  rw [← Bool.not_eq_true, inRanges_iff]
  rintro ⟨s, hs, hlow', hhigh'⟩
  have := lt_or_lt_of_apart htable htable' h hr hs
  omega

/-- What lies in a table lies in every table that holds its ranges. -/
theorem inRanges_of_within (h : Within table table' = true) (hc : inRanges table c = true) :
    inRanges table' c = true := by
  obtain ⟨r, hr, hlow, hhigh⟩ := inRanges_iff.1 hc
  obtain ⟨s, hs, hinside⟩ := List.any_eq_true.1 (List.all_eq_true.1 h r hr)
  simp only [Bool.and_eq_true, decide_eq_true_eq] at hinside
  exact inRanges_iff.2 ⟨s, hs, Nat.le_trans hinside.1 hlow, Nat.le_trans hhigh hinside.2⟩

/-! ### The tables -/

/-- The tables ascend, which is seen by one walk along each of them. -/
theorem ascending_letterRanges : Ascending letterRanges := by decide +kernel

theorem ascending_digitRanges : Ascending digitRanges := by decide +kernel

theorem ascending_blankRanges : Ascending blankRanges := by decide +kernel

/-- **No digit is a letter**, so a run of digits ends where a word begins. -/
theorem not_isLetter_of_isDigit (h : isDigit c = true) : isLetter c = false :=
  not_inRanges_of_apart ascending_digitRanges ascending_letterRanges (by decide +kernel) h

/-- **No blank is a letter.** -/
theorem not_isLetter_of_isBlank (h : isBlank c = true) : isLetter c = false :=
  not_inRanges_of_apart ascending_blankRanges ascending_letterRanges (by decide +kernel) h

/-- **No blank is a digit.** -/
theorem not_isDigit_of_isBlank (h : isBlank c = true) : isDigit c = false :=
  not_inRanges_of_apart ascending_blankRanges ascending_digitRanges (by decide +kernel) h

/-- A character is a decimal digit if it lies in one of the ranges of decimal digits. -/
theorem isSome_decimalDigit?_iff :
    (decimalDigit? c).isSome = true ↔ inRanges decimalRanges c = true := by
  rw [decimalDigit?, Option.isSome_map, List.find?_isSome, inRanges, List.any_eq_true]

/-- Whatever has a value as a decimal digit is a digit for the lexer too. -/
theorem isDigit_of_isSome (h : (decimalDigit? c).isSome = true) : isDigit c = true :=
  have hwithin : Within decimalRanges digitRanges = true := by decide +kernel
  inRanges_of_within hwithin (isSome_decimalDigit?_iff.1 h)

end Reckoner.Text
