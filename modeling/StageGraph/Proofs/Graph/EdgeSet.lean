import Mathlib.Tactic
import StageGraph.Proofs.Graph.Calls
import StageGraph.Proofs.Graph.Equality
import StageGraph.Proofs.Node.Text

set_option autoImplicit false

/-! # A graph as a set of edges in the order of their insertion

Whatever edges are put, the graph behaves like the list of the different ones among them, in the
order in which they first came. `Records` says what every table and every view of the graph holds in
terms of this list; it follows from `Holds`. A call answers whether its edge is new
(`Holds.putEdge_eq`), and the graph it leaves behind goes on where the one before it ended
(`Holds.extends`). `ofCalls_records` puts the three together for all sequences of calls.
-/

namespace StageGraph

namespace Graph

/-- The targets of the different edges from `n`. -/
theorem eraseDups_targetsFrom (es : List (Node × Node)) (n : Node) :
    (targetsFrom es n).eraseDups = (es.eraseDups.filter fun e => e.1 = n).map Prod.snd := by
  rw [filter_eraseDups, targetsFrom, eraseDups_map]
  intro e he e' he' heq
  have hsource := of_decide_eq_true (List.mem_filter.1 he).2
  have hsource' := of_decide_eq_true (List.mem_filter.1 he').2
  exact Prod.ext (hsource.trans hsource'.symm) heq

/-- The sources of the different edges to `n`. -/
theorem eraseDups_sourcesTo (es : List (Node × Node)) (n : Node) :
    (sourcesTo es n).eraseDups = (es.eraseDups.filter fun e => e.2 = n).map Prod.fst := by
  rw [filter_eraseDups, sourcesTo, eraseDups_map]
  intro e he e' he' heq
  have htarget := of_decide_eq_true (List.mem_filter.1 he).2
  have htarget' := of_decide_eq_true (List.mem_filter.1 he').2
  exact Prod.ext heq (htarget.trans htarget'.symm)

/-- The graph is the set of these edges, in the order in which they first come. -/
structure Records (g : Graph) (es : List (Node × Node)) : Prop where
  /-- The nodes come as ends of the edges, the source of each before its target. -/
  nodes_eq : g.nodes.toList = (es.flatMap fun e => [e.1, e.2]).eraseDups
  /-- The edges are grouped by their sources. -/
  edges_eq : g.edges = g.nodes.toList.flatMap fun a =>
    (es.eraseDups.filter fun e => e.1 = a).map fun e => ⟨e.1, e.2⟩
  edges_perm : g.edges.Perm (es.eraseDups.map fun e => ⟨e.1, e.2⟩)
  index_iff : ∀ (n : Node) (i : Nat), g.index[n]? = some i ↔ g.nodes[i]? = some n
  containsNode_iff : ∀ n, g.containsNode n = true ↔ n ∈ g.nodes
  successors_eq : ∀ a, g.successorsOf a = (es.eraseDups.filter fun e => e.1 = a).map Prod.snd
  predecessors_eq : ∀ b, g.predecessorsOf b = (es.eraseDups.filter fun e => e.2 = b).map Prod.fst
  nodup_successors : ∀ a, (g.successorsOf a).Nodup
  nodup_predecessors : ∀ b, (g.predecessorsOf b).Nodup
  /-- The numbers in the two tables mirror each other. -/
  mirrored : ∀ s t, t ∈ g.successorsAt s ↔ s ∈ g.predecessorsAt t
  containsEdge_iff : ∀ a b, g.containsEdge a b = true ↔ (a, b) ∈ es
  mem_successors_iff : ∀ a b, b ∈ g.successorsOf a ↔ (a, b) ∈ es
  mem_predecessors_iff : ∀ a b, a ∈ g.predecessorsOf b ↔ (a, b) ∈ es
  mem_edges_iff : ∀ a b, ⟨a, b⟩ ∈ g.edges ↔ (a, b) ∈ es
  nodeCount_eq : g.nodeCount = g.nodes.toList.length
  edgeCount_eq : g.edgeCount = g.edges.length

/-! ## What the views hold -/

/-- Numbers of nodes of the graph stand for as many nodes. -/
theorem length_nodesAt {g : Graph} {numbers : List Nat} (hlt : ∀ i ∈ numbers, i < g.nodeCount) :
    (g.nodesAt numbers).length = numbers.length := by
  induction numbers with
  | nil => rfl
  | cons i numbers ih =>
    obtain ⟨hi, hrest⟩ := List.forall_mem_cons.1 hlt
    obtain ⟨n, hn⟩ := exists_node hi
    rw [nodesAt, List.filterMap_cons_some hn, List.length_cons, List.length_cons]
    exact congrArg (· + 1) (ih hrest)

/-- Every edge counts once, at its source. -/
theorem edgeCount_eq_length {g : Graph} (hg : g.WellFormed) : g.edgeCount = g.edges.length := by
  have hsizes : g.nodes.toList.map (fun a => ((g.successorsOf a).map (Edge.mk a)).length) =
      g.successors.toList.map Array.size := by
    refine List.ext_getElem (by simp [hg.size_successors]) fun i hi hi' => ?_
    have hlt : i < g.nodes.size := by simpa using hi
    have hlt' : i < g.successors.size := by simpa using hi'
    have hout : (g.successorsAt i).length = g.successors[i].size := by
      simp [successorsAt, hlt']
    simp only [List.getElem_map, Array.getElem_toList, List.length_map]
    rw [successorsOf_of_getElem? hg (Array.getElem?_eq_getElem hlt), ← hout]
    exact length_nodesAt fun t ht => (lt_of_mem_successorsAt hg ht).2
  calc g.edgeCount = (g.successors.toList.map Array.size).sum := by
        rw [edgeCount, ← Array.foldl_toList, List.sum_eq_foldl, List.foldl_map]
    _ = g.edges.length := by rw [Graph.edges_eq hg, List.length_flatMap, hsizes]

theorem Holds.edges_eq {g : Graph} {es : List (Node × Node)} (h : g.Holds es) :
    g.edges = g.nodes.toList.flatMap fun a =>
      (es.eraseDups.filter fun e => e.1 = a).map fun e => ⟨e.1, e.2⟩ := by
  rw [Graph.edges_eq h.wellFormed]
  refine List.flatMap_congr fun a _ => ?_
  rw [h.successors_eq, eraseDups_targetsFrom, List.map_map]
  refine List.map_congr_left fun e he => ?_
  rw [Function.comp_apply, of_decide_eq_true (List.mem_filter.1 he).2]

theorem Holds.nodup_edges {g : Graph} {es : List (Node × Node)} (h : g.Holds es) :
    g.edges.Nodup := by
  rw [Graph.edges_eq h.wellFormed, List.nodup_flatMap]
  constructor
  · exact fun a _ => (nodup_successorsOf h.wellFormed a).map fun b c hbc => (Edge.mk.inj hbc).2
  · refine (nodup_nodes h.wellFormed).imp fun {a b} hab e ha hb => ?_
    obtain ⟨_, -, rfl⟩ := List.mem_map.1 ha
    obtain ⟨_, -, heq⟩ := List.mem_map.1 hb
    exact hab (Edge.mk.inj heq).1.symm

theorem Holds.edges_perm {g : Graph} {es : List (Node × Node)} (h : g.Holds es) :
    g.edges.Perm (es.eraseDups.map fun e => ⟨e.1, e.2⟩) := by
  have hinj : Function.Injective fun e : Node × Node => Edge.mk e.1 e.2 := fun e e' heq =>
    Prod.ext (Edge.mk.inj heq).1 (Edge.mk.inj heq).2
  refine (List.perm_ext_iff_of_nodup h.nodup_edges ((nodup_eraseDups es).map hinj)).2 fun e => ?_
  rw [h.mem_edges, List.mem_map]
  constructor
  · exact fun he => ⟨_, List.mem_eraseDups.2 he, rfl⟩
  · rintro ⟨e, he, rfl⟩
    exact List.mem_eraseDups.1 he

theorem Holds.records {g : Graph} {es : List (Node × Node)} (h : g.Holds es) : g.Records es where
  nodes_eq := h.nodes_eq
  edges_eq := h.edges_eq
  edges_perm := h.edges_perm
  index_iff := h.wellFormed.index_iff
  containsNode_iff := containsNode_iff h.wellFormed
  successors_eq a := (h.successors_eq a).trans (eraseDups_targetsFrom es a)
  predecessors_eq b := (h.predecessors_eq b).trans (eraseDups_sourcesTo es b)
  nodup_successors := nodup_successorsOf h.wellFormed
  nodup_predecessors := nodup_predecessorsOf h.wellFormed
  mirrored := h.wellFormed.mirrored
  containsEdge_iff a b := (containsEdge_iff h.wellFormed a b).trans (h.adjacent_iff a b)
  mem_successors_iff a b := (mem_successorsOf h.wellFormed).trans (h.adjacent_iff a b)
  mem_predecessors_iff a b := (mem_predecessorsOf h.wellFormed).trans (h.adjacent_iff a b)
  mem_edges_iff _ _ := h.mem_edges
  nodeCount_eq := rfl
  edgeCount_eq := edgeCount_eq_length h.wellFormed

/-! ## One more call -/

theorem join_fst (g : Graph) (s t : Nat) :
    (g.join s t).1 = decide (t ∉ g.successorsAt s) := by
  by_cases h : t ∈ g.successorsAt s <;> simp [join, h]

/-- A call between different nodes answers whether their edge is new. -/
theorem Holds.putEdge_eq {g : Graph} {es : List (Node × Node)} (h : g.Holds es) {a b : Node}
    (hne : a ≠ b) : putEdge a b g = .ok (decide ((a, b) ∉ es)) (g.afterPut (a, b)) := by
  have hfirst := added_addNode h.wellFormed a
  have hsecond := added_addNode hfirst.wellFormed b
  have hnew : (g.addEdge ⟨a, b⟩).1 = decide ((a, b) ∉ es) := by
    unfold Graph.addEdge
    set g₁ := (g.addNode a).2
    set s := (g.addNode a).1
    set g₂ := (g₁.addNode b).2
    set t := (g₁.addNode b).1
    have hsucc : g₂.successorsOf a = g.successorsOf a := by
      rw [(hsecond.neighbours_eq hfirst.wellFormed a).1, (hfirst.neighbours_eq h.wellFormed a).1]
    have hmem : t ∈ g₂.successorsAt s ↔ (a, b) ∈ es := by
      rw [← mem_nodesAt_iff hsecond.wellFormed hsecond.number,
        ← successorsOf_of_getElem? hsecond.wellFormed (hsecond.kept s a hfirst.number), hsucc,
        mem_successorsOf h.wellFormed, h.adjacent_iff]
    show (g₂.join s t).1 = _
    rw [join_fst, decide_eq_decide, hmem]
  rw [putEdge_of_ne hne, afterPut_of_ne hne, hnew]

/-! ## More calls -/

theorem eraseDups_prefix_append {α : Type} [BEq α] [LawfulBEq α] (l m : List α) :
    l.eraseDups <+: (l ++ m).eraseDups := by
  rw [List.eraseDups_append]
  exact List.prefix_append _ _

/-- What comes later is behind what is there. -/
theorem Holds.extends {g g' : Graph} {es more : List (Node × Node)} (h : g.Holds es)
    (h' : g'.Holds (es ++ more)) :
    g.nodes.toList <+: g'.nodes.toList ∧ g.edges.Sublist g'.edges := by
  have hnodes : g.nodes.toList <+: g'.nodes.toList := by
    rw [h.nodes_eq, h'.nodes_eq, endsOf, endsOf, List.flatMap_append]
    exact eraseDups_prefix_append _ _
  refine ⟨hnodes, ?_⟩
  rw [h.edges_eq, h'.edges_eq]
  refine (List.Sublist.flatMap_right _ fun a _ => ?_).trans (hnodes.sublist.flatMap _)
  exact ((eraseDups_prefix_append es more).sublist.filter _).map _

/-- A graph that calls have left behind is the set of the edges of the successful ones, in the order
in which they first came. The next call answers whether its edge is new, unless it is a loop: then
it fails and leaves the graph as it was. Whatever calls follow, no node and no edge goes away or
changes its place among the others. -/
theorem ofCalls_records (calls : List (Node × Node)) :
    (ofCalls calls).Records (successful calls) ∧
    (∀ a b, a ≠ b → putEdge a b (ofCalls calls) =
      .ok (decide ((a, b) ∉ successful calls)) (ofCalls (calls ++ [(a, b)]))) ∧
    (∀ a, putEdge a a (ofCalls calls) = .error (.invalid (.selfLoop a)) (ofCalls calls) ∧
      ofCalls (calls ++ [(a, a)]) = ofCalls calls) ∧
    ∀ more, (ofCalls calls).nodes.toList <+: (ofCalls (calls ++ more)).nodes.toList ∧
      (ofCalls calls).edges.Sublist (ofCalls (calls ++ more)).edges := by
  have hg := holds_ofCalls calls
  have hcall : ∀ e, ofCalls (calls ++ [e]) = (ofCalls calls).afterPut e := fun e => by
    rw [ofCalls, List.foldl_append]
    rfl
  refine ⟨hg.records, fun a b hne => ?_, fun a => ⟨putEdge_self _ a, ?_⟩, fun more => ?_⟩
  · rw [hcall]
    exact hg.putEdge_eq hne
  · rw [hcall, afterPut_self]
  · have hmore := holds_ofCalls (calls ++ more)
    rw [successful, List.filter_append] at hmore
    exact hg.extends hmore

/-- The theorem about an edge that comes twice, with a loop in between. -/
theorem ofCalls_records_repeated : ∃ a : Node, a = letterStage 'A' rfl ∧
    (ofCalls [(.start, a), (a, a)]).edges = [⟨.start, a⟩] ∧
    putEdge a a (ofCalls [(.start, a)]) =
      .error (.invalid (.selfLoop a)) (ofCalls [(.start, a)]) ∧
    putEdge .start a (ofCalls [(.start, a), (a, a)]) =
      .ok false (ofCalls [(.start, a), (a, a), (.start, a)]) ∧
    putEdge a .finish (ofCalls [(.start, a), (a, a)]) =
      .ok true (ofCalls [(.start, a), (a, a), (a, .finish)]) := by
  obtain ⟨a, ha⟩ : ∃ a, a = letterStage 'A' rfl := ⟨_, rfl⟩
  have hcalls : successful [(.start, a), (a, a)] = [(.start, a)] := by
    rw [ha]
    decide
  obtain ⟨hrecords, hput, -, -⟩ := ofCalls_records [(.start, a), (a, a)]
  obtain ⟨-, -, hloop, -⟩ := ofCalls_records [(.start, a)]
  refine ⟨a, ha, ?_, (hloop a).1, ?_, ?_⟩
  · rw [hrecords.edges_eq, hrecords.nodes_eq, hcalls, ha]
    decide
  · have hold : decide ((Node.start, a) ∉ [(Node.start, a)]) = false := by simp
    have hagain := hput .start a (by rw [ha]; decide)
    rw [hcalls, hold] at hagain
    exact hagain
  · have hnew : decide ((a, Node.finish) ∉ [(Node.start, a)]) = true := by
      rw [ha]
      decide
    have hnext := hput a .finish (by rw [ha]; decide)
    rw [hcalls, hnew] at hnext
    exact hnext

end Graph

end StageGraph
