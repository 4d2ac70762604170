import Reckoner.Proofs.Columns
import Reckoner.Token.Position

/-!
# Printing, token by token

The blanks next to parentheses are taken out of the joined text, with no regard to where tokens
begin and end. Still a line is printed token by token, whatever its tokens are: only the lexeme of a
name might have blanks or parentheses in it, and the names that the lexer reads have none
(`Token.unbroken_of_mem_tokenize`).

What is printed between two tokens depends on these two only. So what is printed for the first
tokens of a list is the beginning of what is printed for all of them (`Token.spacedBy_isPrefix`).
-/

namespace Reckoner

namespace Token

variable {t : Token} {ts front : List Token}

/-- The name is not empty, and has no blank and no parenthesis in it. -/
structure Unbroken (name : String) : Prop where
  ne_empty : name ≠ ""
  not_blank : ∀ c ∈ name.toList, Text.isBlank c = false
  no_opening : '(' ∉ name.toList
  no_closing : ')' ∉ name.toList

theorem Unbroken.compact {name : String} (h : Unbroken name) : (identifier name).Compact where
  ne_nil := mt String.toList_eq_nil_iff.1 h.ne_empty
  not_blank := h.not_blank
  eq_lparen := fun hmem ↦ absurd hmem h.no_opening
  eq_rparen := fun hmem ↦ absurd hmem h.no_closing

theorem Compact.unbroken {name : String} (h : (identifier name).Compact) : Unbroken name where
  ne_empty := mt String.toList_eq_nil_iff.2 h.ne_nil
  not_blank := h.not_blank
  no_opening := fun hmem ↦ by cases h.eq_lparen hmem
  no_closing := fun hmem ↦ by cases h.eq_rparen hmem

/-- The words of the language are compact. -/
theorem compact_of_keyword : ∀ t ∈ keywords.map Prod.snd, t.Compact := by
  have hletters : ∀ t ∈ keywords.map Prod.snd, t.lexeme.toList ≠ [] ∧
      t.lexeme.toList.all Text.isLetter = true := by
    decide +kernel
  intro t ht
  obtain ⟨hne, hall⟩ := hletters t ht
  exact compact_of_forall rfl hne (List.all_eq_true.1 hall)
    (fun _ ↦ isBlank_eq_false_of_isLetter) (by decide +kernel) (by decide +kernel)

/-- Every token is compact, but for the end of the line and for names that are not unbroken. -/
theorem compact_of_unbroken (hunbroken : ∀ name, t = identifier name → Unbroken name)
    (hne : t ≠ eof) : t.Compact := by
  cases t with
  | number x => exact compact_number x
  | identifier name => exact (hunbroken name rfl).compact
  | eof => exact absurd rfl hne
  | ifWord | thenWord | elseWord => exact compact_of_keyword _ (by decide)
  | _ => exact compact_of_symbol _ (by decide)

/-- The names that the lexer reads are unbroken. -/
theorem unbroken_of_mem_tokenize {line name : String} (h : identifier name ∈ tokenize line) :
    Unbroken name :=
  (compact_of_mem_tokenize h (by simp)).unbroken

/-- What is printed for the first tokens of a list comes first in what is printed for all. -/
theorem spacedBy_isPrefix (h : front <+: ts) :
    spacedBy gapBetween front <+: spacedBy gapBetween ts := by
  obtain ⟨back, rfl⟩ := h
  match back with
  | [] => rw [List.append_nil]
  | t :: back =>
    rw [spacedBy_append_cons, List.append_assoc]
    exact List.prefix_append _ _

theorem before_isPrefix (ts : List Token) (k : ℤ) : Position.before ts k <+: ts :=
  List.take_prefix _ _

end Token

open Token in
/-- **A line is printed token by token**, whatever the tokens are, if names are unbroken, as those
that the lexer reads are: there is one space between two neighbours, but none behind `(` and none
before `)`. The end of the line is not printed. In particular the first tokens are printed as the
beginning of the line, also if their number is told from the end of the list. -/
theorem untokenize_eq_spacedBy :
    (∀ ts : List Token, (∀ name, .identifier name ∈ ts → Unbroken name) →
      untokenize ts = String.ofList (spacedBy gapBetween (ts.filter fun t ↦ t.kind ≠ .eof)) ∧
      ∀ k : ℤ, (untokenize (Position.before ts k)).toList <+: (untokenize ts).toList) ∧
    ∀ line name, .identifier name ∈ tokenize line → Unbroken name := by
  refine ⟨fun ts hts ↦ ⟨?_, fun k ↦ ?_⟩, fun line name ↦ unbroken_of_mem_tokenize⟩
  all_goals
    have hcompact : ∀ t ∈ ts, t ≠ .eof → t.Compact := fun t ht hne ↦
      compact_of_unbroken (fun name hname ↦ hts name (hname ▸ ht)) hne
  · rw [← toList_untokenize hcompact, String.ofList_toList]
  · have hbefore := before_isPrefix ts k
    rw [toList_untokenize hcompact,
      toList_untokenize fun t ht ↦ hcompact t (hbefore.subset ht)]
    exact spacedBy_isPrefix (hbefore.filter _)

/-- Nested and empty groups, a name that is a word of the language, a number with an exponent, and
the end of the line in the middle. -/
theorem untokenize_eq_spacedBy_nested :
    let ts : List Token := [.lparen, .lparen, .rparen, .identifier "if", .rparen, .eof, .rparen,
      .lparen, .number 1e300]
    untokenize ts = "(() if)) (1e+300" ∧
      (untokenize (Position.before ts (-2))).toList <+: "(() if)) (1e+300".toList := by
  intro ts
  have hunbroken : ∀ name, .identifier name ∈ ts → Token.Unbroken name := by
    intro name hname
    obtain rfl : name = "if" := by simpa [ts] using hname
    have hblank : "if".toList.all (fun c ↦ !Text.isBlank c) = true := by decide +kernel
    exact ⟨by decide, by simpa using List.all_eq_true.1 hblank, by decide, by decide⟩
  obtain ⟨hprint, hprefix⟩ := untokenize_eq_spacedBy.1 ts hunbroken
  have htext : untokenize ts = "(() if)) (1e+300" := hprint.trans (by decide +kernel)
  exact ⟨htext, htext ▸ hprefix (-2)⟩

end Reckoner
