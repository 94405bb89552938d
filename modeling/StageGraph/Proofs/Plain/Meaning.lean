import Mathlib.Tactic
import StageGraph.Proofs.Plain.Validity

set_option autoImplicit false

/-! # What plain expressions mean, and which there are

A text of the grammar compiles to the graph that its syntax trees draw (`compile_draws_spelled`).

More texts than these compile: an empty pair of parentheses next to a term goes unnoticed, and so
does a pair around a separator. `compile_plain_accepts` says that nothing else does, and that a text
which compiles belongs to the grammar if and only if it is tidy.
-/

namespace StageGraph

/-- A plain text of the grammar compiles to the series-parallel graph of its syntax trees. -/
theorem compile_draws_spelled {t : Text} {es : List (Tree Text)} (hbytes : Text.bytes t < 2 ^ 32)
    (hplain : Form.detect (Text.trim t) = .ok none) (hspells : SpellsAll false (tokensOf t) es) :
    ∃ g ss, compile t = .ok g ∧ g.Draws es ss := by
  obtain ⟨g, ss, hok, -, -, -, hdraws⟩ := compile_of_spells hbytes hplain hspells
  exact ⟨g, ss, hok, hdraws⟩

/-- The same name twice in the first topology and once more in a second one. -/
theorem compile_draws_spelled_twice :
    ∃ g ss, compile "A->(B,A);A".toList = .ok g ∧
      g.Draws [.seq (.atom ['A']) (.par (.atom ['B']) (.atom ['A'])), .atom ['A']] ss := by
  have hlegal : ¬ Reserved ['A'] ∧ ¬ Reserved ['B'] := by decide
  have hgroup : Spells false .term
      [.mark .opening, .name ['B'], .mark .comma, .name ['A'], .mark .closing]
      (.par (.atom ['B']) (.atom ['A'])) :=
    .group (.list (.comma (.name hlegal.2) .bare (.stage (.name hlegal.1))))
  have hfirst : Spells false .list
      [.name ['A'], .mark .arrow, .mark .opening, .name ['B'], .mark .comma, .name ['A'],
        .mark .closing]
      (.seq (.atom ['A']) (.par (.atom ['B']) (.atom ['A']))) :=
    .arrow (.stage (.name hlegal.1)) .bare (.list (.stage hgroup))
  have hsecond : Spells false .list [.name ['A']] (.atom ['A']) :=
    .list (.stage (.name hlegal.1))
  exact compile_draws_spelled (t := "A->(B,A);A".toList) (by decide) rfl
    ⟨[_, _], List.cons_ne_nil _ _, by decide, .cons hfirst (.cons hsecond .nil)⟩

/-- A plain text compiles if and only if it is grammatical up to slack, and fails as malformed
otherwise; it belongs to the grammar if and only if it compiles and is tidy. -/
theorem compile_plain_accepts {t : Text} (hbytes : Text.bytes t < 2 ^ 32)
    (hplain : Form.detect (Text.trim t) = .ok none) :
    ((∃ g, compile t = .ok g) ↔ Grammatical true (tokensOf t)) ∧
    (Grammatical false (tokensOf t) ↔ (∃ g, compile t = .ok g) ∧ Tidy (tokensOf t)) ∧
    ∀ failure, compile t = .error failure → ∃ cause, failure = .malformed cause := by
  have hok : Grammatical true (tokensOf t) → ∃ g, compile t = .ok g := by
    intro hgrammatical
    obtain ⟨es, hspells⟩ := hgrammatical.spellsAll
    obtain ⟨g, ss, hg, -⟩ := compile_of_spells hbytes hplain hspells
    exact ⟨g, hg⟩
  have haccepts : (∃ g, compile t = .ok g) ↔ Grammatical true (tokensOf t) := by
    refine ⟨?_, hok⟩
    rintro ⟨g, hg⟩
    rcases compile_cases hplain with ⟨cause, hfail⟩ | hgrammatical
    · cases hfail.symm.trans hg
    · exact hgrammatical
  refine ⟨haccepts, ?_, fun failure herror => ?_⟩
  · rw [haccepts]
    exact Grammatical.strict_iff
  · rcases compile_cases hplain with ⟨cause, hfail⟩ | hgrammatical
    · cases hfail.symm.trans herror
      exact ⟨cause, rfl⟩
    · obtain ⟨g, hg⟩ := hok hgrammatical
      cases hg.symm.trans herror

/-- A series of two stages belongs to the grammar, so it compiles and is tidy. -/
theorem compile_plain_accepts_series :
    (∃ g, compile "A->B".toList = .ok g) ∧ Tidy (tokensOf "A->B".toList) := by
  have hphrase : Phrase false false [.name ['A'], .mark .arrow, .name ['B']] :=
    .more (s := .arrow) (.name (by decide)) .bare (.one (.name (by decide)))
  exact (compile_plain_accepts (by decide) rfl).2.1.1 (.of_phrase hphrase)

/-- A separator in parentheses is taken for a separator. -/
theorem compile_accepts_separator_pair :
    (∃ g, compile "A(->)B".toList = .ok g) ∧ ¬ Grammatical false (tokensOf "A(->)B".toList) := by
  have hlegal : ¬ Reserved ['A'] ∧ ¬ Reserved ['B'] := by decide
  have hspells : Spells true .list
      [.name ['A'], .mark .opening, .mark .arrow, .mark .closing, .name ['B']]
      (.seq (.atom ['A']) (.atom ['B'])) :=
    .arrow (.stage (.name hlegal.1)) (.paired rfl) (.list (.stage (.name hlegal.2)))
  constructor
  · obtain ⟨g, ss, hg, -⟩ :=
      compile_of_spells (t := "A(->)B".toList) (by decide) rfl (.of_spells hspells)
    exact ⟨g, hg⟩
  · intro h
    have htidy : Tidy [.name ['A'], .mark .opening, .mark .arrow, .mark .closing, .name ['B']] :=
      (Grammatical.strict_iff.1 h).2
    exact (List.isChain_cons_cons.1 (List.isChain_cons_cons.1 htidy).2).1
      ⟨rfl, .inr ⟨.arrow, rfl⟩⟩

end StageGraph
