import Mathlib.Tactic
import StageGraph.Proofs.Graph.Shape

set_option autoImplicit false

/-! # When two graphs are the same

`Graph.sameAs` compares numbers of nodes and looks edges up in the other graph's tables. On
well-formed graphs it comes to what it should: both hold the same nodes and the same edges, in
whatever order they came (`sameAs_iff`).
-/

namespace StageGraph

namespace Graph

theorem containsNode_iff {g : Graph} (h : g.WellFormed) (n : Node) :
    g.containsNode n = true ↔ n ∈ g.nodes := by
  rw [containsNode, Std.HashMap.contains_iff_mem, ← Std.HashMap.isSome_getElem?_iff_mem,
    Option.isSome_iff_exists]
  simp only [h.index_iff, Array.mem_iff_getElem?]

theorem containsEdge_iff {g : Graph} (h : g.WellFormed) (a b : Node) :
    g.containsEdge a b = true ↔ g.Adjacent a b := by
  unfold containsEdge
  constructor
  · intro hab
    split at hab
    · next s t hs ht =>
      exact ⟨s, t, (h.index_iff a s).1 hs, (h.index_iff b t).1 ht, by simpa using hab⟩
    · cases hab
  · rintro ⟨s, t, hs, ht, hm⟩
    rw [(h.index_iff a s).2 hs, (h.index_iff b t).2 ht]
    simpa using hm

/-- As many nodes, all of them in the other graph, are all the nodes of that graph. -/
theorem sameNodes_iff {g h : Graph} (hg : g.WellFormed) (hh : h.WellFormed) :
    (g.nodeCount == h.nodeCount && g.nodes.all h.containsNode) = true ↔
      ∀ n, n ∈ g.nodes ↔ n ∈ h.nodes := by
  simp only [Bool.and_eq_true, beq_iff_eq, Array.all_eq_true', containsNode_iff hh]
  constructor
  · rintro ⟨hcount, hsub⟩ n
    refine ⟨hsub n, fun hn => ?_⟩
    have hsubperm : g.nodes.toList.Subperm h.nodes.toList :=
      (nodup_nodes hg).subperm fun m hm =>
        Array.mem_toList_iff.2 (hsub m (Array.mem_toList_iff.1 hm))
    have hperm := hsubperm.perm_of_length_le (Nat.le_of_eq hcount.symm)
    exact Array.mem_toList_iff.1 (hperm.mem_iff.2 (Array.mem_toList_iff.2 hn))
  · intro hnodes
    have hperm : g.nodes.toList.Perm h.nodes.toList :=
      (List.perm_ext_iff_of_nodup (nodup_nodes hg) (nodup_nodes hh)).2 fun n => by
        rw [Array.mem_toList_iff, Array.mem_toList_iff, hnodes]
    exact ⟨hperm.length_eq, fun n hn => (hnodes n).1 hn⟩

/-- Two graphs are the same if and only if they hold the same nodes and the same edges. -/
theorem sameAs_iff {g h : Graph} (hg : g.WellFormed) (hh : h.WellFormed) :
    g.sameAs h = true ↔
      (∀ n, n ∈ g.nodes ↔ n ∈ h.nodes) ∧ ∀ a b, g.Adjacent a b ↔ h.Adjacent a b := by
  have hedges : ∀ {g h : Graph}, g.WellFormed → h.WellFormed →
      ((g.edges.all fun e => h.containsEdge e.source e.target) = true ↔
        ∀ a b, g.Adjacent a b → h.Adjacent a b) := by
    intro g h hg hh
    rw [List.all_eq_true]
    constructor
    · intro hall a b hab
      exact (containsEdge_iff hh a b).1 (hall ⟨a, b⟩ ((mem_edges hg).2 hab))
    · intro hall e he
      exact (containsEdge_iff hh _ _).2 (hall _ _ ((mem_edges hg).1 he))
  rw [sameAs, Bool.and_eq_true, Bool.and_eq_true, sameNodes_iff hg hh, hedges hg hh, hedges hh hg]
  constructor
  · rintro ⟨⟨hnodes, hto⟩, hback⟩
    exact ⟨hnodes, fun a b => ⟨hto a b, hback a b⟩⟩
  · rintro ⟨hnodes, hadj⟩
    exact ⟨⟨hnodes, fun a b => (hadj a b).1⟩, fun a b => (hadj a b).2⟩

/-- Graphs are the same if and only if the same edges were put into them. -/
theorem Holds.sameAs_iff {g h : Graph} {es es' : List (Node × Node)} (hg : g.Holds es)
    (hh : h.Holds es') : g.sameAs h = true ↔ ∀ e, e ∈ es ↔ e ∈ es' := by
  rw [Graph.sameAs_iff hg.wellFormed hh.wellFormed]
  simp only [hg.mem_iff, hh.mem_iff, hg.adjacent_iff, hh.adjacent_iff]
  constructor
  · exact fun hsame e => hsame.2 e.1 e.2
  · exact fun hsame => ⟨fun n => by simp only [hsame], fun a b => hsame (a, b)⟩

end Graph

end StageGraph
