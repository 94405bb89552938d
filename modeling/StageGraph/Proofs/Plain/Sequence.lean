import Mathlib.Tactic
import StageGraph.Proofs.Plain.Validity

set_option autoImplicit false

/-! # In which order a plain expression is built

The frames of the walk do the work of the recursion `Tree.walk`, edge by edge
(`buildPlain_calls_walk`): so the nodes of the result, their numbers and the order of its edges can
be read off the trees. The recursion does not see how unions and series are nested, so spellings of
one flat tree compile to one and the same graph (`compile_eq_of_flatten_eq`).
-/

namespace StageGraph

/-- Building a plain expression puts the edges of the recursion over its syntax trees, in the order
of the recursion, over nodes that are numbered as the recursion enters them first. Only if these
numbers come round to 0, for which `2 ^ 32` bytes are needed, does it fail. -/
theorem buildPlain_calls_walk {t : Text} {es : List (Tree Text)}
    (h : SpellsAll false (tokensOf t) es) {g : Graph} (hg : g.WellFormed) :
    (Numerable 0 es → ∃ ss : List (Tree Node), ∃ g', ss.length = es.length ∧
      (∀ i e (s : Tree Node), es[i]? = some e → ss[i]? = some s → s.Numbers (i + 1) e) ∧
      PlainCalls t g (ss.flatMap fun s => s.walk .finish none .start) g' ∧
      buildPlain t g = .ok () g' ∧
      Graph.putEdges (ss.flatMap fun s => s.walk .finish none .start) g = .ok () g') ∧
    (¬ Numerable 0 es → ∃ cause g', buildPlain t g = .error (.malformed cause) g') ∧
    (Text.bytes t < 2 ^ 32 → Numerable 0 es) := by
  refine ⟨fun hall => ?_, fun hno => ?_, numerable_of_bytes h⟩
  · rcases buildPlain_spells h hg with
      ⟨cause, g', -, hno⟩ | ⟨calls, g', ss, hcalls, -, hdrawn⟩
    · exact absurd hall hno
    · obtain rfl := hdrawn.calls_eq
      refine ⟨ss, g', hdrawn.length_eq, fun i e s he hs => ?_, hcalls, hcalls.buildPlain_eq,
        hcalls.putEdges_eq⟩
      have := hdrawn.numbers i e s he hs
      rwa [Nat.zero_add] at this
  · rcases buildPlain_spells h hg with ⟨cause, g', hbuild, -⟩ | ⟨calls, g', ss, -, hall, -⟩
    · exact ⟨cause, g', hbuild⟩
    · exact absurd hall hno

/-- A name that is entered behind its namesake in the text, but before it in the recursion. -/
theorem buildPlain_calls_walk_union : ∃ (s : Tree Node) (g : Graph),
    s.Numbers 1 (.seq (.par (.atom ['A']) (.atom ['X'])) (.atom ['X'])) ∧
    PlainCalls "A,X->X".toList .empty (s.walk .finish none .start) g ∧
    buildPlain "A,X->X".toList .empty = .ok () g := by
  have hlegal : ¬ Reserved ['A'] ∧ ¬ Reserved ['X'] := by decide
  have hspells : Spells false .list
      [.name ['A'], .mark .comma, .name ['X'], .mark .arrow, .name ['X']]
      (.seq (.par (.atom ['A']) (.atom ['X'])) (.atom ['X'])) :=
    .arrow (.comma (.name hlegal.1) .bare (.stage (.name hlegal.2))) .bare
      (.list (.stage (.name hlegal.2)))
  have hall : SpellsAll false (tokensOf "A,X->X".toList) _ := .of_spells hspells
  obtain ⟨hcalls, -, hnumerable⟩ := buildPlain_calls_walk hall Graph.wellFormed_empty
  obtain ⟨ss, g, hlength, hnumbers, hcalls, hbuild, -⟩ := hcalls (hnumerable (by decide))
  obtain ⟨s, rfl⟩ := List.length_eq_one_iff.1 hlength
  rw [List.flatMap_singleton] at hcalls
  exact ⟨s, g, hnumbers 0 _ s rfl rfl, hcalls, hbuild⟩

/-! ## Equivalent spellings -/

theorem Numerable.of_flatten_eq {k : Nat} {es es' : List (Tree Text)} (h : Numerable k es)
    (hflat : es.map Tree.flatten = es'.map Tree.flatten) : Numerable k es' where
  length_lt := by
    have hlength := congrArg List.length hflat
    rw [List.length_map, List.length_map] at hlength
    exact hlength ▸ h.length_lt
  count_lt e' he' name := by
    obtain ⟨e, he, heq⟩ := List.mem_map.1 (hflat ▸ List.mem_map_of_mem he')
    rw [← e'.atoms_flatten, ← heq, e.atoms_flatten]
    exact h.count_lt e he name

/-- Trees with the same flat forms put the same edges in the same order. -/
theorem DrawnAll.calls_eq_of_flatten_eq {k : Nat} {es es' : List (Tree Text)}
    {ss ss' : List (Tree Node)} {calls calls' : List (Node × Node)}
    (h : DrawnAll k es ss calls) (h' : DrawnAll k es' ss' calls')
    (hflat : es.map Tree.flatten = es'.map Tree.flatten) : calls = calls' := by
  have hlength := congrArg List.length hflat
  rw [List.length_map, List.length_map] at hlength
  have hss : ss.map Tree.flatten = ss'.map Tree.flatten := by
    refine List.ext_getElem (by simp [h.length_eq, h'.length_eq, hlength]) fun i hi hi' => ?_
    rw [List.length_map] at hi hi'
    have hie : i < es.length := h.length_eq ▸ hi
    have hie' : i < es'.length := hlength ▸ hie
    rw [List.getElem_map, List.getElem_map]
    have hs := h.numbers i _ _ (List.getElem?_eq_getElem hie) (List.getElem?_eq_getElem hi)
    have hs' := h'.numbers i _ _ (List.getElem?_eq_getElem hie') (List.getElem?_eq_getElem hi')
    have heq : es[i].flatten = es'[i].flatten := by
      simpa [hie, hie'] using congrArg (·[i]?) hflat
    have hflat' := hs'.flatten
    rw [← heq] at hflat'
    exact hs.flatten.unique hflat' (Nat.succ_ne_zero _)
  have hwalk : ∀ trees : List (Tree Node), (trees.flatMap fun s => s.walk .finish none .start) =
      (trees.map Tree.flatten).flatMap fun s => s.walk .finish none .start := fun trees => by
    simp only [List.flatMap_map, Tree.walk_flatten]
  rw [h.calls_eq, h'.calls_eq, hwalk ss, hwalk ss', hss]

/-- Plain texts that spell the same flat trees compile to the same graph, with all nodes and edges
in the same order. If the numbers do not suffice, both fail. -/
theorem compile_eq_of_flatten_eq {t t' : Text} {es es' : List (Tree Text)}
    (hplain : Form.detect (Text.trim t) = .ok none)
    (hplain' : Form.detect (Text.trim t') = .ok none)
    (h : SpellsAll false (tokensOf t) es) (h' : SpellsAll false (tokensOf t') es')
    (hflat : es.map Tree.flatten = es'.map Tree.flatten) :
    (Numerable 0 es → ∃ g, compile t = .ok g ∧ compile t' = .ok g) ∧
    (¬ Numerable 0 es → (∃ cause, compile t = .error (.malformed cause)) ∧
      ∃ cause, compile t' = .error (.malformed cause)) ∧
    (Text.bytes t < 2 ^ 32 → Numerable 0 es) := by
  have hnumerable : Numerable 0 es ↔ Numerable 0 es' :=
    ⟨fun hall => hall.of_flatten_eq hflat, fun hall => hall.of_flatten_eq hflat.symm⟩
  refine ⟨fun hall => ?_, fun hno => ?_, numerable_of_bytes h⟩
  · rcases compile_spells hplain h with ⟨-, -, hno⟩ | ⟨g, ss, calls, hok, hcalls, -, hdrawn, -⟩
    · exact absurd hall hno
    rcases compile_spells hplain' h' with
      ⟨-, -, hno⟩ | ⟨g', ss', calls', hok', hcalls', -, hdrawn', -⟩
    · exact absurd (hnumerable.1 hall) hno
    -- one list of edges is put into the graph without nodes
    have hput := hcalls.putEdges_eq
    rw [hdrawn.calls_eq_of_flatten_eq hdrawn' hflat, hcalls'.putEdges_eq] at hput
    cases hput
    exact ⟨g, hok, hok'⟩
  · rcases compile_spells hplain h with ⟨cause, hfails, -⟩ | ⟨_, _, _, _, _, hall, _⟩
    · rcases compile_spells hplain' h' with ⟨cause', hfails', -⟩ | ⟨_, _, _, _, _, hall, _⟩
      · exact ⟨⟨cause, hfails⟩, cause', hfails'⟩
      · exact absurd (hnumerable.2 hall) hno
    · exact absurd hall hno

/-- Parentheses around a series in a series, and around a single term. -/
theorem compile_eq_of_flatten_eq_grouped :
    ∃ g, compile "(A->B)->C,A".toList = .ok g ∧ compile "A -> (B->((C,A)))".toList = .ok g := by
  have hlegal : ¬ Reserved ['A'] ∧ ¬ Reserved ['B'] ∧ ¬ Reserved ['C'] := by decide
  have hunion : Spells false .list [.name ['C'], .mark .comma, .name ['A']]
      (.par (.atom ['C']) (.atom ['A'])) :=
    .list (.comma (.name hlegal.2.2) .bare (.stage (.name hlegal.1)))
  have hleft := Spells.arrow (.stage (.group (Spells.series false hlegal.1 hlegal.2.1))) .bare
    hunion
  have hinner := Spells.arrow (.stage (.name hlegal.2.1)) .bare
    (.list (.stage (.group (.list (.stage (.group hunion))))))
  have hright := Spells.arrow (.stage (.name hlegal.1)) .bare (.list (.stage (.group hinner)))
  have h : SpellsAll false (tokensOf "(A->B)->C,A".toList) _ := .of_spells hleft
  have h' : SpellsAll false (tokensOf "A -> (B->((C,A)))".toList) _ := .of_spells hright
  obtain ⟨hsame, -, hnumerable⟩ := compile_eq_of_flatten_eq rfl rfl h h' rfl
  exact hsame (hnumerable (by decide))

end StageGraph
