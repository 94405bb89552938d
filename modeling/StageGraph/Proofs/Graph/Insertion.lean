import Mathlib.Tactic
import StageGraph.Proofs.Appearance
import StageGraph.Proofs.Graph.Adjacency

set_option autoImplicit false

/-! # In which order a graph holds what was put

A graph that has grown from nothing is determined by the list of the edges that were put, loops
left out of account: its nodes are the ends of these edges in the order of their first appearance,
and the successors and predecessors of a node are in the order in which they came (`Holds`,
`holds_of_putEdges`). So graphs that were put under different names differ in the names only
(`Holds.rename`).
-/

namespace StageGraph

namespace Graph

/-! ## Views in terms of nodes -/

theorem successorsOf_of_getElem? {g : Graph} (h : g.WellFormed) {n : Node} {i : Nat}
    (hi : g.nodes[i]? = some n) : g.successorsOf n = g.nodesAt (g.successorsAt i) := by
  rw [successorsOf, (h.index_iff n i).2 hi]

theorem predecessorsOf_of_getElem? {g : Graph} (h : g.WellFormed) {n : Node} {i : Nat}
    (hi : g.nodes[i]? = some n) : g.predecessorsOf n = g.nodesAt (g.predecessorsAt i) := by
  rw [predecessorsOf, (h.index_iff n i).2 hi]

theorem neighbours_of_not_mem {g : Graph} (h : g.WellFormed) {n : Node} (hn : n ∉ g.nodes) :
    g.successorsOf n = [] ∧ g.predecessorsOf n = [] := by
  have hnone : g.index[n]? = none := by
    cases hindex : g.index[n]? with
    | none => rfl
    | some i => exact absurd (mem_nodes_of_getElem? ((h.index_iff n i).1 hindex)) hn
  exact ⟨by rw [successorsOf, hnone], by rw [predecessorsOf, hnone]⟩

theorem exists_number {g : Graph} {n : Node} (hn : n ∈ g.nodes) :
    ∃ i, i < g.nodeCount ∧ g.nodes[i]? = some n := by
  obtain ⟨i, hi, hget⟩ := Array.mem_iff_getElem.1 hn
  exact ⟨i, hi, by rw [Array.getElem?_eq_getElem hi, hget]⟩

theorem nodesAt_append (g : Graph) (xs ys : List Nat) :
    g.nodesAt (xs ++ ys) = g.nodesAt xs ++ g.nodesAt ys := List.filterMap_append

theorem nodesAt_singleton {g : Graph} {i : Nat} {n : Node} (hi : g.nodes[i]? = some n) :
    g.nodesAt [i] = [n] := by simp [nodesAt, hi]

theorem mem_nodesAt_iff {g : Graph} (h : g.WellFormed) {numbers : List Nat} {i : Nat} {n : Node}
    (hi : g.nodes[i]? = some n) : n ∈ g.nodesAt numbers ↔ i ∈ numbers := by
  rw [mem_nodesAt]
  constructor
  · rintro ⟨j, hj, hn⟩
    rwa [number_unique h hi hn]
  · exact fun hmem => ⟨i, hmem, hi⟩

theorem nodup_nodes {g : Graph} (hg : g.WellFormed) : g.nodes.toList.Nodup := by
  refine List.nodup_iff_injective_get.2 fun i j hij => ?_
  have hi : g.nodes[i.1]? = some (g.nodes.toList.get i) := by simp
  have hj : g.nodes[j.1]? = some (g.nodes.toList.get i) := by rw [hij]; simp
  exact Fin.ext (number_unique hg hi hj)

/-- Different numbers belong to different nodes. -/
theorem nodup_nodesAt {g : Graph} (hg : g.WellFormed) {numbers : List Nat} (h : numbers.Nodup) :
    (g.nodesAt numbers).Nodup :=
  h.filterMap fun _ _ _ hi hj => number_unique hg hi hj

theorem nodup_successorsOf {g : Graph} (hg : g.WellFormed) (n : Node) :
    (g.successorsOf n).Nodup := by
  unfold successorsOf
  split
  · exact nodup_nodesAt hg (hg.nodup_successors _)
  · exact List.nodup_nil

theorem nodup_predecessorsOf {g : Graph} (hg : g.WellFormed) (n : Node) :
    (g.predecessorsOf n).Nodup := by
  unfold predecessorsOf
  split
  · exact nodup_nodesAt hg (hg.nodup_predecessors _)
  · exact List.nodup_nil

/-- The edges, node by node. -/
theorem edges_eq {g : Graph} (h : g.WellFormed) :
    g.edges = g.nodes.toList.flatMap fun a => (g.successorsOf a).map (Edge.mk a) := by
  have hsize : g.successors.toList.length = g.nodes.toList.length := h.size_successors
  rw [edges, List.flatMap_def, List.flatMap_def]
  congr 1
  refine List.ext_getElem (by simp [hsize]) fun i hi hi' => ?_
  have hlt : i < g.nodes.size := by simpa using hi'
  have hlt' : i < g.successors.size := h.size_successors ▸ hlt
  have hnode : g.nodes[i]? = some g.nodes[i] := Array.getElem?_eq_getElem hlt
  have hout : g.successorsAt i = g.successors[i].toList := by
    simp [successorsAt, hlt']
  simp only [List.getElem_map, List.getElem_zip, Array.getElem_toList]
  rw [successorsOf_of_getElem? h hnode, hout]

/-! ## Adding nodes -/

theorem toList_addNode {g : Graph} (h : g.WellFormed) (n : Node) :
    (g.addNode n).2.nodes.toList =
      if n ∈ g.nodes.toList then g.nodes.toList else g.nodes.toList ++ [n] := by
  unfold addNode
  split
  · next i hi =>
    have hmem : n ∈ g.nodes.toList :=
      Array.mem_toList_iff.2 (mem_nodes_of_getElem? ((h.index_iff n i).1 hi))
    rw [if_pos hmem]
  · next hnone =>
    have hnew : n ∉ g.nodes.toList := by
      intro hmem
      obtain ⟨i, -, hi⟩ := exists_number (Array.mem_toList_iff.1 hmem)
      rw [(h.index_iff n i).2 hi] at hnone
      cases hnone
    rw [if_neg hnew, Array.toList_push]

/-- Numbers of the smaller graph belong to the same nodes in the larger one. -/
theorem Added.nodesAt_eq {g g' : Graph} {n : Node} {i : Nat} (h : Added g g' n i)
    {numbers : List Nat} (hlt : ∀ j ∈ numbers, j < g.nodeCount) :
    g'.nodesAt numbers = g.nodesAt numbers := by
  refine List.filterMap_congr fun j hj => ?_
  obtain ⟨m, hm⟩ := exists_node (hlt j hj)
  rw [hm, h.kept j m hm]

/-- A new node has no neighbours yet, and all others keep theirs. -/
theorem Added.neighbours_eq {g g' : Graph} {n : Node} {i : Nat} (hg : g.WellFormed)
    (h : Added g g' n i) (m : Node) :
    g'.successorsOf m = g.successorsOf m ∧ g'.predecessorsOf m = g.predecessorsOf m := by
  by_cases hm : m ∈ g.nodes
  · obtain ⟨j, -, hj⟩ := exists_number hm
    have hj' := h.kept j m hj
    rw [successorsOf_of_getElem? hg hj, successorsOf_of_getElem? h.wellFormed hj',
      predecessorsOf_of_getElem? hg hj, predecessorsOf_of_getElem? h.wellFormed hj',
      h.successors_eq, h.predecessors_eq]
    exact ⟨h.nodesAt_eq fun t ht => (lt_of_mem_successorsAt hg ht).2,
      h.nodesAt_eq fun s hs => (lt_of_mem_successorsAt hg ((hg.mirrored s j).2 hs)).1⟩
  · have hnone := neighbours_of_not_mem hg hm
    rw [hnone.1, hnone.2]
    by_cases hm' : m ∈ g'.nodes
    · obtain ⟨j, -, hj⟩ := exists_number hm'
      -- the number of a new node is too large for the smaller graph
      have hj' : g.nodeCount ≤ j := by
        by_contra hlt
        obtain ⟨m', hj''⟩ := exists_node (Nat.lt_of_not_le hlt)
        have heq := h.kept j m' hj''
        rw [hj] at heq
        cases heq
        exact hm (mem_nodes_of_getElem? hj'')
      rw [successorsOf_of_getElem? h.wellFormed hj, predecessorsOf_of_getElem? h.wellFormed hj,
        h.successors_eq, h.predecessors_eq, successorsAt_of_le hg hj', predecessorsAt_of_le hg hj']
      exact ⟨rfl, rfl⟩
    · exact neighbours_of_not_mem h.wellFormed hm'

/-! ## Joining nodes -/

theorem successorsAt_join {g : Graph} (h : g.WellFormed) {s : Nat} (hs : s < g.nodeCount)
    (t i : Nat) :
    (g.join s t).2.successorsAt i =
      if i = s ∧ t ∉ g.successorsAt s then g.successorsAt i ++ [t] else g.successorsAt i := by
  unfold join
  split
  · next hold => rw [if_neg fun hboth => hboth.2 (by simpa using hold)]
  · next hnew =>
    have hst : t ∉ g.successorsAt s := by simpa using hnew
    have hpush : ((g.successors.modify s (·.push t)).getD i #[]).toList =
        if i = s then g.successorsAt i ++ [t] else g.successorsAt i :=
      toList_getD_modify_push (by rw [h.size_successors]; exact hs) t i
    simp only [hst, not_false_eq_true, and_true]
    exact hpush

theorem predecessorsAt_join {g : Graph} (h : g.WellFormed) {t : Nat} (ht : t < g.nodeCount)
    (s i : Nat) :
    (g.join s t).2.predecessorsAt i =
      if i = t ∧ s ∉ g.predecessorsAt t then g.predecessorsAt i ++ [s] else g.predecessorsAt i := by
  unfold join
  split
  · next hold =>
    have hst : s ∈ g.predecessorsAt t := (h.mirrored s t).1 (by simpa using hold)
    rw [if_neg fun hboth => hboth.2 hst]
  · next hnew =>
    have hst : s ∉ g.predecessorsAt t := fun hmem => by
      exact hnew (by simpa using (h.mirrored s t).2 hmem)
    have hpush : ((g.predecessors.modify t (·.push s)).getD i #[]).toList =
        if i = t then g.predecessorsAt i ++ [s] else g.predecessorsAt i :=
      toList_getD_modify_push (by rw [h.size_predecessors]; exact ht) s i
    simp only [hst, not_false_eq_true, and_true]
    exact hpush

theorem nodes_join (g : Graph) (s t : Nat) : (g.join s t).2.nodes = g.nodes := by
  unfold join
  split <;> rfl

/-- What joining the numbers of `a` and `b` does to the neighbours of every node. -/
theorem neighbours_join {g : Graph} (h : g.WellFormed) {s t : Nat} {a b : Node}
    (hs : g.nodes[s]? = some a) (ht : g.nodes[t]? = some b)
    (hg' : (g.join s t).2.WellFormed) (n : Node) :
    ((g.join s t).2.successorsOf n =
      if n = a ∧ b ∉ g.successorsOf n then g.successorsOf n ++ [b] else g.successorsOf n) ∧
    (g.join s t).2.predecessorsOf n =
      if n = b ∧ a ∉ g.predecessorsOf n then g.predecessorsOf n ++ [a]
      else g.predecessorsOf n := by
  have hat : ∀ numbers, (g.join s t).2.nodesAt numbers = g.nodesAt numbers := fun numbers => by
    rw [nodesAt, nodesAt, nodes_join]
  have hlt : ∀ {i : Nat} {m : Node}, g.nodes[i]? = some m → i < g.nodeCount :=
    fun hi => (Array.getElem?_eq_some_iff.1 hi).1
  by_cases hn : n ∈ g.nodes
  · obtain ⟨i, -, hi⟩ := exists_number hn
    have hi' : (g.join s t).2.nodes[i]? = some n := by rwa [nodes_join]
    have hna : n = a ↔ i = s := by
      constructor
      · rintro rfl
        exact number_unique h hi hs
      · rintro rfl
        exact Option.some.inj (hi.symm.trans hs)
    have hnb : n = b ↔ i = t := by
      constructor
      · rintro rfl
        exact number_unique h hi ht
      · rintro rfl
        exact Option.some.inj (hi.symm.trans ht)
    rw [successorsOf_of_getElem? hg' hi', predecessorsOf_of_getElem? hg' hi', hat, hat,
      successorsOf_of_getElem? h hi, predecessorsOf_of_getElem? h hi,
      successorsAt_join h (hlt hs), predecessorsAt_join h (hlt ht)]
    simp only [mem_nodesAt_iff h ht, mem_nodesAt_iff h hs, hna, hnb]
    constructor
    · by_cases his : i = s
      · subst his
        by_cases hmem : t ∈ g.successorsAt i
        · simp [hmem]
        · simp [hmem, nodesAt_append, nodesAt_singleton ht]
      · simp [his]
    · by_cases hit : i = t
      · subst hit
        by_cases hmem : s ∈ g.predecessorsAt i
        · simp [hmem]
        · simp [hmem, nodesAt_append, nodesAt_singleton hs]
      · simp [hit]
  -- a node that is not in the graph is none of the two
  · have hn' : n ∉ (g.join s t).2.nodes := by rwa [nodes_join]
    have hna : n ≠ a := by
      rintro rfl
      exact hn (mem_nodes_of_getElem? hs)
    have hnb : n ≠ b := by
      rintro rfl
      exact hn (mem_nodes_of_getElem? ht)
    rw [(neighbours_of_not_mem h hn).1, (neighbours_of_not_mem h hn).2,
      (neighbours_of_not_mem hg' hn').1, (neighbours_of_not_mem hg' hn').2]
    simp [hna, hnb]

/-! ## Putting edges -/

/-- The nodes at the ends of the edges, in the order in which they are met. -/
def endsOf (es : List (Node × Node)) : List Node := es.flatMap fun e => [e.1, e.2]

/-- The targets of the edges from `n`. -/
def targetsFrom (es : List (Node × Node)) (n : Node) : List Node :=
  (es.filter fun e => e.1 = n).map Prod.snd

/-- The sources of the edges to `n`. -/
def sourcesTo (es : List (Node × Node)) (n : Node) : List Node :=
  (es.filter fun e => e.2 = n).map Prod.fst

theorem targetsFrom_concat (es : List (Node × Node)) (a b n : Node) :
    targetsFrom (es ++ [(a, b)]) n =
      if n = a then targetsFrom es n ++ [b] else targetsFrom es n := by
  by_cases hn : n = a
  · simp [targetsFrom, hn]
  · simp [targetsFrom, hn, Ne.symm hn]

theorem sourcesTo_concat (es : List (Node × Node)) (a b n : Node) :
    sourcesTo (es ++ [(a, b)]) n = if n = b then sourcesTo es n ++ [a] else sourcesTo es n := by
  by_cases hn : n = b
  · simp [sourcesTo, hn]
  · simp [sourcesTo, hn, Ne.symm hn]

/-- The graph holds these edges in the order in which they were put, each of them once. -/
structure Holds (g : Graph) (es : List (Node × Node)) : Prop where
  wellFormed : g.WellFormed
  nodes_eq : g.nodes.toList = (endsOf es).eraseDups
  successors_eq : ∀ n, g.successorsOf n = (targetsFrom es n).eraseDups
  predecessors_eq : ∀ n, g.predecessorsOf n = (sourcesTo es n).eraseDups

theorem holds_empty : Holds empty [] where
  wellFormed := wellFormed_empty
  nodes_eq := rfl
  successors_eq n := by simp [successorsOf, empty, targetsFrom]
  predecessors_eq n := by simp [predecessorsOf, empty, sourcesTo]

/-- Putting one more edge. -/
theorem Holds.addEdge {g : Graph} {es : List (Node × Node)} (h : g.Holds es) {a b : Node}
    (hne : a ≠ b) : Holds (g.addEdge ⟨a, b⟩).2 (es ++ [(a, b)]) := by
  have hput := put_addEdge h.wellFormed hne
  have h₁ := added_addNode h.wellFormed a
  have hnodes₁ := toList_addNode h.wellFormed a
  unfold Graph.addEdge at hput ⊢
  simp only at hput ⊢
  set g₁ := (g.addNode a).2
  set s := (g.addNode a).1
  have h₂ := added_addNode h₁.wellFormed b
  have hnodes₂ := toList_addNode h₁.wellFormed b
  set g₂ := (g₁.addNode b).2
  set t := (g₁.addNode b).1
  have hjoin := neighbours_join h₂.wellFormed (h₂.kept s a h₁.number) h₂.number hput.wellFormed
  have hsucc : ∀ n, g₂.successorsOf n = (targetsFrom es n).eraseDups := fun n => by
    rw [(h₂.neighbours_eq h₁.wellFormed n).1, (h₁.neighbours_eq h.wellFormed n).1,
      h.successors_eq]
  have hpred : ∀ n, g₂.predecessorsOf n = (sourcesTo es n).eraseDups := fun n => by
    rw [(h₂.neighbours_eq h₁.wellFormed n).2, (h₁.neighbours_eq h.wellFormed n).2,
      h.predecessors_eq]
  refine ⟨hput.wellFormed, ?_, fun n => ?_, fun n => ?_⟩
  · have hnodes₁' : g₁.nodes.toList = (endsOf es ++ [a]).eraseDups := by
      rw [hnodes₁, h.nodes_eq, eraseDups_concat]
      simp only [List.mem_eraseDups]
    have hends : endsOf (es ++ [(a, b)]) = endsOf es ++ [a] ++ [b] := by simp [endsOf]
    rw [nodes_join, hnodes₂, hnodes₁', hends, eraseDups_concat (endsOf es ++ [a]) b]
    simp only [List.mem_eraseDups]
  · rw [(hjoin n).1, hsucc, targetsFrom_concat]
    simp only [List.mem_eraseDups]
    by_cases hna : n = a
    · rw [if_pos hna, eraseDups_concat]
      by_cases hb : b ∈ targetsFrom es n
      · rw [if_neg fun hboth => hboth.2 hb, if_pos hb]
      · rw [if_pos ⟨hna, hb⟩, if_neg hb]
    · rw [if_neg hna, if_neg fun hboth => hna hboth.1]
  · rw [(hjoin n).2, hpred, sourcesTo_concat]
    simp only [List.mem_eraseDups]
    by_cases hnb : n = b
    · rw [if_pos hnb, eraseDups_concat]
      by_cases ha : a ∈ sourcesTo es n
      · rw [if_neg fun hboth => hboth.2 ha, if_pos ha]
      · rw [if_pos ⟨hnb, ha⟩, if_neg ha]
    · rw [if_neg hnb, if_neg fun hboth => hnb hboth.1]

/-- A graph that has been put from nothing holds what was put. -/
theorem Holds.putEdges {g g' : Graph} {es es' : List (Node × Node)} (h : g.Holds es)
    (hput : Graph.putEdges es' g = .ok () g') : Holds g' (es ++ es') := by
  induction es' generalizing g es with
  | nil =>
    cases hput
    rwa [List.append_nil]
  | cons e es' ih =>
    obtain ⟨a, b⟩ := e
    rw [putEdges_cons] at hput
    by_cases hab : a = b
    · subst hab
      rw [putEdge_self] at hput
      cases hput
    · rw [putEdge_of_ne hab] at hput
      have := ih (h.addEdge hab) hput
      rwa [List.append_assoc] at this

theorem holds_of_putEdges {g : Graph} {es : List (Node × Node)}
    (hput : Graph.putEdges es empty = .ok () g) : g.Holds es := by
  have := holds_empty.putEdges hput
  rwa [List.nil_append] at this

/-! ## What was put -/

theorem mem_endsOf {es : List (Node × Node)} {n : Node} :
    n ∈ endsOf es ↔ ∃ e ∈ es, n = e.1 ∨ n = e.2 := by
  simp [endsOf]

theorem Holds.mem_iff {g : Graph} {es : List (Node × Node)} (h : g.Holds es) (n : Node) :
    n ∈ g.nodes ↔ ∃ e ∈ es, n = e.1 ∨ n = e.2 := by
  rw [← Array.mem_toList_iff, h.nodes_eq, List.mem_eraseDups, mem_endsOf]

theorem Holds.adjacent_iff {g : Graph} {es : List (Node × Node)} (h : g.Holds es) (a b : Node) :
    g.Adjacent a b ↔ (a, b) ∈ es := by
  rw [← mem_successorsOf h.wellFormed, h.successors_eq, List.mem_eraseDups, targetsFrom]
  simp

theorem Holds.mem_edges {g : Graph} {es : List (Node × Node)} (h : g.Holds es) {e : Edge} :
    e ∈ g.edges ↔ (e.source, e.target) ∈ es :=
  (Graph.mem_edges h.wellFormed).trans (h.adjacent_iff e.source e.target)

/-! ## Other nodes in their place -/

/-- Two graphs that hold the same edges over other nodes differ by these nodes only. -/
theorem Holds.rename {g h : Graph} {es : List (Node × Node)} {f : Node → Node}
    (hf : Function.Injective f) (hg : g.Holds es) (hh : h.Holds (es.map (Prod.map f f))) :
    h.nodes.toList = g.nodes.toList.map f ∧
      h.edges = g.edges.map fun e => ⟨f e.source, f e.target⟩ := by
  have hends : endsOf (es.map (Prod.map f f)) = (endsOf es).map f := by
    simp [endsOf, List.flatMap_map, List.map_flatMap]
  have hnodes : h.nodes.toList = g.nodes.toList.map f := by
    rw [hh.nodes_eq, hg.nodes_eq, hends, eraseDups_map fun a _ b _ hab => hf hab]
  have htargets : ∀ n, targetsFrom (es.map (Prod.map f f)) (f n) = (targetsFrom es n).map f := by
    intro n
    simp [targetsFrom, List.filter_map, Function.comp_def, hf.eq_iff]
  have hsucc : ∀ n, h.successorsOf (f n) = (g.successorsOf n).map f := fun n => by
    rw [hh.successors_eq, hg.successors_eq, htargets, eraseDups_map fun a _ b _ hab => hf hab]
  refine ⟨hnodes, ?_⟩
  rw [edges_eq hh.wellFormed, edges_eq hg.wellFormed, hnodes, List.flatMap_map, List.map_flatMap]
  refine List.flatMap_congr fun a _ => ?_
  rw [hsucc, List.map_map, List.map_map]
  rfl

end Graph

end StageGraph
