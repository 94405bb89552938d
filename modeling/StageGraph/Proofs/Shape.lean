import Mathlib.Tactic
import StageGraph.Proofs.EdgeList.Attachment
import StageGraph.Proofs.Plain.Validity

set_option autoImplicit false

/-! # The shape of every compiled graph

Both kinds of expressions lead to graphs of one shape. What is peculiar to either kind is only that
`Start` and `End` are its ends; the rest follows from validity, which is checked at the end.
-/

namespace StageGraph

/-- Whatever compiles runs from `Start` to `End`. -/
theorem compile_wellShaped {t : Text} {g : Graph} (hbytes : Text.bytes t < 2 ^ 32)
    (h : compile t = .ok g) : g.WellShaped := by
  obtain ⟨-, hbuild, hvalid⟩ := compile_eq_ok_iff.1 h
  rw [buildExpression] at hbuild
  cases hdetect : Form.detect (Text.trim t) with
  | error failure =>
    rw [hdetect] at hbuild
    cases hbuild
  | ok claimed =>
    rw [hdetect] at hbuild
    cases claimed with
    | some listed =>
      exact Graph.wellShaped_of_ends (grown_of_buildListed hbuild).wellFormed hvalid
        (ends_of_buildListed hbuild)
    | none =>
      rcases compile_cases hdetect with ⟨cause, hfail⟩ | hgrammatical
      · cases hfail.symm.trans h
      · obtain ⟨es, hspells⟩ := hgrammatical.spellsAll
        obtain ⟨g', ss, hok, -, hg, hss, hdraws⟩ := compile_of_spells hbytes hdetect hspells
        cases hok.symm.trans h
        exact Graph.wellShaped_of_ends hg hvalid (hdraws.ends hg hss)

/-- The theorem about a series of two stages, which compiles. -/
theorem compile_wellShaped_series : ∃ g, compile "A->B".toList = .ok g ∧ g.WellShaped := by
  obtain ⟨g, -, hg, -⟩ :=
    compile_of_spells (t := "A->B".toList) (by decide) rfl
      (SpellsAll.of_spells (Spells.series false (by decide) (by decide)))
  exact ⟨g, hg, compile_wellShaped (by decide) hg⟩

end StageGraph
