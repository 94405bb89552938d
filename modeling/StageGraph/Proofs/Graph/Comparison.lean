import Mathlib.Tactic
import Std.Data.TreeSet
import StageGraph.Proofs.Graph.EdgeSet

set_option autoImplicit false

/-! # Comparing graphs as ordered sets

Edges are ordered by their sources and then by their targets, nodes by their numbers and then by
their names. These orders are total and tell apart whatever is different, so the edges of a graph
make an ordered set that says which edges there are and nothing else (`edgeSet_eq_iff`).

Two graphs may be compared by counting nodes, looking the nodes of one up in the other and putting
the ordered sets of their edges side by side (`Graph.sameSets`). For graphs that calls leave behind
this, the comparison by lookups, and the equality of the sets of edges that were put are all the
same (`ofCalls_beq`).
-/

namespace StageGraph

/-! ## The orders -/

theorem Node.compare_eq (a b : Node) :
    compare a b = (compare a.topology b.topology).then
      ((compare a.ordinal b.ordinal).then (compare a.name b.name)) := rfl

theorem Edge.compare_eq (a b : Edge) :
    compare a b = (compare a.source b.source).then (compare a.target b.target) := rfl

instance : Std.TransOrd Node :=
  inferInstanceAs (Std.TransCmp (compareLex (compareOn Node.topology)
    (compareLex (compareOn Node.ordinal) (compareOn Node.name))))

instance : Std.LawfulEqOrd Node where
  eq_of_compare {a b} h := by
    rw [Node.compare_eq] at h
    simp only [Ordering.then_eq_eq, Std.compare_eq_iff_eq] at h
    exact Node.eq_of_parts h.1 h.2.1 h.2.2

instance : Std.TransOrd Edge :=
  inferInstanceAs (Std.TransCmp (compareLex (compareOn Edge.source) (compareOn Edge.target)))

instance : Std.LawfulEqOrd Edge where
  eq_of_compare {a b} h := by
    rw [Edge.compare_eq] at h
    simp only [Ordering.then_eq_eq, Std.compare_eq_iff_eq] at h
    cases a
    cases b
    exact congrArg₂ Edge.mk h.1 h.2

namespace Graph

/-- The edges as an ordered set. -/
def edgeSet (g : Graph) : Std.TreeSet Edge compare := .ofList g.edges compare

/-- As many nodes, the nodes of the first graph in the second one, and the same ordered sets of
edges. -/
def sameSets (g h : Graph) : Bool :=
  g.nodeCount == h.nodeCount && g.nodes.all h.containsNode &&
    g.edgeSet.toList == h.edgeSet.toList

theorem mem_edgeSet {g : Graph} {e : Edge} : e ∈ g.edgeSet.toList ↔ e ∈ g.edges := by
  rw [Std.TreeSet.mem_toList, edgeSet, Std.TreeSet.mem_ofList, List.contains_iff_mem]

/-- Lists in strictly ascending order are told by their members. -/
theorem eq_of_ascending {l m : List Edge} (hl : l.Pairwise fun a b => compare a b = .lt)
    (hm : m.Pairwise fun a b => compare a b = .lt) (h : ∀ e, e ∈ l ↔ e ∈ m) : l = m := by
  have hnodup : ∀ {l : List Edge}, l.Pairwise (fun a b => compare a b = .lt) → l.Nodup :=
    fun hl => hl.imp fun {a b} hab heq => by
      have hself : compare b b = .eq := Std.ReflCmp.compare_self
      rw [heq, hself] at hab
      cases hab
  have hperm : l.Perm m := (List.perm_ext_iff_of_nodup (hnodup hl) (hnodup hm)).2 h
  refine hperm.eq_of_pairwise (fun a b _ _ hab hba => ?_) hl hm
  have hswap : compare a b = (compare b a).swap := Std.OrientedCmp.eq_swap
  rw [hab, hba] at hswap
  cases hswap

/-- The ordered set says which edges there are, and nothing else. -/
theorem edgeSet_eq_iff (g h : Graph) :
    g.edgeSet.toList = h.edgeSet.toList ↔ ∀ e, e ∈ g.edges ↔ e ∈ h.edges := by
  constructor
  · intro heq e
    rw [← mem_edgeSet, ← mem_edgeSet, heq]
  · intro hsame
    refine eq_of_ascending Std.TreeSet.ordered_toList Std.TreeSet.ordered_toList fun e => ?_
    rw [mem_edgeSet, mem_edgeSet, hsame]

/-! ## Graphs that calls leave behind -/

/-- On well-formed graphs, looking edges up and comparing ordered sets of edges come to the same. -/
theorem sameAs_eq_sameSets {g h : Graph} (hg : g.WellFormed) (hh : h.WellFormed) :
    g.sameAs h = g.sameSets h := by
  rw [Bool.eq_iff_iff, sameSets, Bool.and_eq_true, sameNodes_iff hg hh, beq_iff_eq, edgeSet_eq_iff,
    sameAs_iff hg hh]
  refine and_congr_right fun _ => ?_
  simp only [mem_edges hg, mem_edges hh]
  exact ⟨fun hsame e => hsame e.source e.target, fun hsame a b => hsame ⟨a, b⟩⟩

/-- Graphs that calls have left behind are the same if and only if they have the same edges, or the
same nodes and edges, or come from calls that succeeded for the same pairs; counting, looking up and
comparing ordered sets says so too. Being the same is an equivalence. -/
theorem ofCalls_beq :
    (∀ calls calls' : List (Node × Node),
      let g := ofCalls calls
      let h := ofCalls calls'
      ((g == h) = true ↔ ∀ e, e ∈ g.edges ↔ e ∈ h.edges) ∧
      ((g == h) = true ↔ (∀ n, n ∈ g.nodes ↔ n ∈ h.nodes) ∧ ∀ e, e ∈ g.edges ↔ e ∈ h.edges) ∧
      ((g == h) = true ↔ ∀ e, e ∈ successful calls ↔ e ∈ successful calls') ∧
      (g == h) = g.sameSets h) ∧
    Equivalence fun calls calls' : List (Node × Node) =>
      (ofCalls calls == ofCalls calls') = true := by
  have hput : ∀ calls calls' : List (Node × Node), (ofCalls calls == ofCalls calls') = true ↔
      ∀ e, e ∈ successful calls ↔ e ∈ successful calls' := fun calls calls' =>
    (holds_ofCalls calls).sameAs_iff (holds_ofCalls calls')
  constructor
  · intro calls calls' g h
    have hg := holds_ofCalls calls
    have hh := holds_ofCalls calls'
    have hsame : (ofCalls calls == ofCalls calls') = true ↔
        ∀ e, e ∈ (ofCalls calls).edges ↔ e ∈ (ofCalls calls').edges := by
      rw [hput]
      simp only [hg.mem_edges, hh.mem_edges]
      exact ⟨fun h e => h _, fun h e => h ⟨e.1, e.2⟩⟩
    refine ⟨hsame, ⟨fun heq => ⟨fun n => ?_, hsame.1 heq⟩, fun heq => hsame.2 heq.2⟩, hput _ _,
      sameAs_eq_sameSets hg.wellFormed hh.wellFormed⟩
    show n ∈ (ofCalls calls).nodes ↔ n ∈ (ofCalls calls').nodes
    simp only [hg.mem_iff, hh.mem_iff, (hput _ _).1 heq]
  · refine ⟨fun calls => ?_, fun {calls calls'} h => ?_, fun {calls calls' calls''} h h' => ?_⟩
    · exact (hput _ _).2 fun e => Iff.rfl
    · exact (hput _ _).2 fun e => ((hput _ _).1 h e).symm
    · exact (hput _ _).2 fun e => ((hput _ _).1 h e).trans ((hput _ _).1 h' e)

end Graph

end StageGraph
