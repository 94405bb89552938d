import Mathlib.Tactic
import StageGraph.Proofs.EdgeList.Outcome
import StageGraph.Proofs.Renaming

set_option autoImplicit false

/-! # Edge lists under other names

Which nodes of a list are joined to the sentinels, and whether its edges lead round in a cycle, does
not depend on the names. So a list with other names has the same graph with these names
(`exists_buildListed_of_renamed`).
-/

namespace StageGraph

section

variable (r : Renaming) (edges : List Edge)

theorem listedNodes_rename :
    listedNodes (edges.map r.edge) = (listedNodes edges).map r.node := by
  have hends : ((edges.map r.edge).flatMap fun e => [e.source, e.target]) =
      (edges.flatMap fun e => [e.source, e.target]).map r.node := by
    rw [List.flatMap_map, List.map_flatMap]
    rfl
  rw [listedNodes, hends, listedNodes, eraseDups_map fun _ _ _ _ heq => r.node_injective heq]

theorem firstNodes_rename : firstNodes (edges.map r.edge) = (firstNodes edges).map r.node := by
  simp [firstNodes, listedNodes_rename, List.filter_map, Function.comp_def, Renaming.edge,
    r.node_injective.eq_iff]

theorem lastNodes_rename : lastNodes (edges.map r.edge) = (lastNodes edges).map r.node := by
  simp [lastNodes, listedNodes_rename, List.filter_map, Function.comp_def, Renaming.edge,
    r.node_injective.eq_iff]

theorem attached_rename :
    attached (edges.map r.edge) = (attached edges).map (Prod.map r.node r.node) := by
  have hpairs : endPairs (edges.map r.edge) = (endPairs edges).map (Prod.map r.node r.node) := by
    rw [endPairs, endPairs, List.map_map, List.map_map]
    rfl
  rw [attached, attached, hpairs, firstNodes_rename, lastNodes_rename, List.map_append,
    List.map_append]
  simp only [List.map_map]
  rfl

end

section

variable {edges : List Edge} {g : Graph}

theorem stagesOnly_of_buildListed (hbuild : buildListed edges .empty = .ok () g) :
    StagesOnly edges := fun e he => by
  obtain ⟨hsource, htarget⟩ := (buildListed_eq_ok hbuild).2 e he
  rw [Edge.namesSentinel, hsource, htarget]
  rfl

theorem not_loop_of_buildListed (hbuild : buildListed edges .empty = .ok () g) :
    ∀ e ∈ edges, e.source ≠ e.target := fun e he => by
  have hadj : g.Adjacent e.source e.target :=
    (adjacent_iff_of_buildListed hbuild _ _).2 (mem_attached.2 (.inl he))
  exact hadj.ne (grown_of_buildListed hbuild).wellFormed

/-- A valid graph comes of a list that is not empty. -/
theorem ne_nil_of_buildListed (hbuild : buildListed edges .empty = .ok () g)
    (hvalid : g.validate = .ok ()) : edges ≠ [] := by
  rintro rfl
  cases hbuild
  exact absurd ((Graph.validate_eq_ok_iff Graph.wellFormed_empty).1 hvalid).1 (by decide)

theorem StagesOnly.rename (h : StagesOnly edges) (r : Renaming) :
    StagesOnly (edges.map r.edge) := by
  intro e' he'
  obtain ⟨e, he, rfl⟩ := List.mem_map.1 he'
  have hnone := h e he
  rwa [Edge.namesSentinel, Renaming.edge, r.isSentinel_node, r.isSentinel_node]

/-- A way round under other names is one in the list itself. -/
theorem exists_transGen_of_rename {r : Renaming} {n : Node}
    (hn : Relation.TransGen (Linked (edges.map r.edge)) n n) :
    ∃ m, Relation.TransGen (Linked edges) m m := by
  have : Nonempty Node := ⟨.start⟩
  obtain ⟨f, hf⟩ := r.node_injective.hasLeftInverse
  have hlinked : ∀ a b, Linked (edges.map r.edge) a b → Linked edges (f a) (f b) := by
    intro a b hab
    obtain ⟨e, he, hedge⟩ := List.mem_map.1 hab
    cases hedge
    rwa [hf, hf]
  exact ⟨f n, Relation.TransGen.lift f hlinked n n hn⟩

/-- A list with other names has the same graph with these names. -/
theorem exists_buildListed_of_renamed (hbuild : buildListed edges .empty = .ok () g)
    (hvalid : g.validate = .ok ()) (r : Renaming) :
    ∃ h, buildListed (edges.map r.edge) .empty = .ok () h ∧ h.validate = .ok () ∧
      g.RenamedBy r h := by
  have hloops : ∀ e ∈ edges.map r.edge, e.source ≠ e.target := by
    intro e' he'
    obtain ⟨e, he, rfl⟩ := List.mem_map.1 he'
    exact fun heq => not_loop_of_buildListed hbuild e he (r.node_injective heq)
  obtain ⟨h, hbuild'⟩ :=
    exists_buildListed ((stagesOnly_of_buildListed hbuild).rename r) hloops
  have hac := ((Graph.validate_eq_ok_iff (grown_of_buildListed hbuild).wellFormed).1 hvalid).2.2
  have hac' : h.Acyclic := (acyclic_iff_of_buildListed hbuild').2 fun n hn => by
    obtain ⟨m, hm⟩ := exists_transGen_of_rename hn
    exact (acyclic_iff_of_buildListed hbuild).1 hac m hm
  have hne : edges.map r.edge ≠ [] := by simpa using ne_nil_of_buildListed hbuild hvalid
  refine ⟨h, hbuild', validate_of_buildListed hbuild' hne hac', ?_⟩
  have hholds := holds_of_buildListed hbuild'
  rw [attached_rename] at hholds
  exact (holds_of_buildListed hbuild).renamedBy r hholds

end

end StageGraph
