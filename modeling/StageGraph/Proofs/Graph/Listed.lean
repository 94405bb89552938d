import Mathlib.Tactic
import StageGraph.Proofs.Graph.Calls
import StageGraph.Proofs.Graph.Order
import StageGraph.Proofs.Node.Text

set_option autoImplicit false

/-! # The topological order beside the search for a cycle

Two things go over the whole graph, the listing of the nodes and the search for a cycle. They agree:
the listing reaches every node exactly when the search finds nothing (`topologicalOrder_ofCalls`).

The listing counts down how many predecessors a node misses, and a count has to stop at zero.
`release?` and `listReady?` do the same as `release` and `listReady`, but have no answer once a node
is released that misses nothing, or is no node at all. They always have one
(`topologicalOrder?_eq_some`).
-/

namespace StageGraph

/-! ## Counts that stop at zero -/

/-- Takes one missing predecessor away from each of the nodes, each of which has to miss one. -/
def release? : List Nat → Array Nat → Option (Array Nat × List Nat)
  | [], missing => some (missing, [])
  | t :: rest, missing =>
    match missing[t]? with
    | some (k + 1) =>
      (release? rest (missing.setIfInBounds t k)).map fun released =>
        (released.1, if k = 0 then t :: released.2 else released.2)
    | some 0 | none => none

/-- An answer is that of `release`. -/
theorem release_of_release? {targets : List Nat} {missing : Array Nat}
    {released : Array Nat × List Nat} (h : release? targets missing = some released) :
    release targets missing = released := by
  induction targets generalizing missing released with
  | nil => exact Option.some.inj h
  | cons t rest ih =>
    unfold release? at h
    split at h
    · next k hk =>
      obtain ⟨released', hrest, rfl⟩ := Option.map_eq_some_iff.1 h
      have hrelease := ih hrest
      rw [release, hk]
      cases k <;> simp [hrelease]
    · cases h
    · cases h

/-- There is an answer if no node is released twice and each of them misses a predecessor. -/
theorem release?_eq_some {targets : List Nat} {missing : Array Nat} (hnodup : targets.Nodup)
    (hpos : ∀ t ∈ targets, ∃ k, missing[t]? = some (k + 1)) :
    release? targets missing = some (release targets missing) := by
  have hanswer : ∃ released, release? targets missing = some released := by
    induction targets generalizing missing with
    | nil => exact ⟨_, rfl⟩
    | cons t rest ih =>
      obtain ⟨ht, hrest⟩ := List.nodup_cons.1 hnodup
      obtain ⟨k, hk⟩ := hpos t List.mem_cons_self
      have hpos' : ∀ u ∈ rest, ∃ k', (missing.setIfInBounds t k)[u]? = some (k' + 1) := by
        intro u hu
        rw [Array.getElem?_setIfInBounds, if_neg fun htu : t = u => ht (htu ▸ hu)]
        exact hpos u (List.mem_cons_of_mem _ hu)
      obtain ⟨released, hreleased⟩ := ih hrest hpos'
      simp [release?, hk, hreleased]
  obtain ⟨released, hreleased⟩ := hanswer
  rw [hreleased, release_of_release? hreleased]

namespace Graph

/-- Lists the nodes of the queue and all that become ready after them, as long as no count falls
below zero. -/
def listReady? (g : Graph) (queue : List Nat) (missing : Array Nat) : Option (List Nat) :=
  match queue with
  | [] => some []
  | i :: queue =>
    match _ : release? (g.successorsAt i) missing with
    | some released => (g.listReady? (queue ++ released.2) released.1).map (i :: ·)
    | none => none
termination_by queue.length + waitingCount missing
decreasing_by
  have := waitingCount_release (g.successorsAt i) missing
  rw [release_of_release? (by assumption)] at this
  simp only [List.length_append, List.length_cons]
  omega

/-- The topological order, as long as no count falls below zero. -/
def topologicalOrder? (g : Graph) : Option (List Node) :=
  let missing := g.indegrees
  let sources := (List.range g.nodeCount).filter fun i => missing[i]? == some 0
  (g.listReady? sources missing).map g.nodesAt

theorem Listing.listReady?_eq_some {g : Graph} (hg : g.WellFormed) {listed queue : List Nat}
    {missing : Array Nat} (h : Listing g listed queue missing) :
    g.listReady? queue missing = some (g.listReady queue missing) := by
  induction queue, missing using listReady.induct g generalizing listed with
  | case1 missing => rw [listReady?, listReady]
  | case2 missing i queue released =>
    rename_i ih
    have hrelease := release?_eq_some (hg.nodup_successors i) (h.missing_pos hg)
    rw [listReady?, listReady]
    split
    · next released' hreleased =>
      cases hrelease.symm.trans hreleased
      rw [ih (h.step hg)]
      rfl
    · next hnone => cases hrelease.symm.trans hnone

/-- No count ever falls below zero. -/
theorem topologicalOrder?_eq_some {g : Graph} (hg : g.WellFormed) :
    g.topologicalOrder? = some g.topologicalOrder := by
  simp only [topologicalOrder?, (listing_start hg).listReady?_eq_some hg]
  rfl

/-! ## The listing and the search -/

/-- Edges along which a rank rises make a valid graph, if they have a third node and none of them
goes from `Start` to `End`. -/
theorem Holds.validated {g : Graph} {es : List (Node × Node)} (h : g.Holds es) (rank : Node → Nat)
    (hcount : 2 < (endsOf es).eraseDups.length) (hshort : (Node.start, Node.finish) ∉ es)
    (hrank : ∀ e ∈ es, rank e.1 < rank e.2) : g.validated = .ok g := by
  have hsize : 2 < g.nodes.toList.length := h.nodes_eq ▸ hcount
  have hacyclic : g.Acyclic := acyclic_of_rank rank fun a b hab =>
    hrank (a, b) ((h.adjacent_iff a b).1 hab)
  have hvalid := (validate_eq_ok_iff h.wellFormed).2
    ⟨hsize, mt (h.adjacent_iff .start .finish).1 hshort, hacyclic⟩
  exact validated_eq_ok_iff.2 ⟨hvalid, rfl⟩

/-- The order of a graph that calls have left behind lists exactly the nodes behind no cycle, each
of them once and after all its predecessors, and no count of missing predecessors ever falls below
zero. It lists all nodes if and only if the search finds no cycle, and so it does for every graph
that is valid. -/
theorem topologicalOrder_ofCalls (calls : List (Node × Node)) :
    (ofCalls calls).topologicalOrder.Nodup ∧
    (∀ n, n ∈ (ofCalls calls).topologicalOrder ↔
      n ∈ (ofCalls calls).nodes ∧ ¬ (ofCalls calls).BehindCycle n) ∧
    (∀ a b, (ofCalls calls).Adjacent a b → a ∈ (ofCalls calls).topologicalOrder →
      b ∈ (ofCalls calls).topologicalOrder →
      (ofCalls calls).topologicalOrder.idxOf a < (ofCalls calls).topologicalOrder.idxOf b) ∧
    (ofCalls calls).topologicalOrder? = some (ofCalls calls).topologicalOrder ∧
    ((∀ n ∈ (ofCalls calls).nodes, n ∈ (ofCalls calls).topologicalOrder) ↔
      (ofCalls calls).checkAcyclic = .ok ()) ∧
    ∀ g, (ofCalls calls).validated = .ok g → g.topologicalOrder.Perm g.nodes.toList ∧
      ∀ e ∈ g.edges, g.topologicalOrder.idxOf e.source < g.topologicalOrder.idxOf e.target := by
  have hg := wellFormed_ofCalls calls
  have h := ordered_topologicalOrder hg
  refine ⟨h.nodup, h.mem_iff_not_behindCycle, fun a b hab _ hb => h.idxOf_lt hab hb,
    topologicalOrder?_eq_some hg, ?_, fun g hvalid => ?_⟩
  · rw [checkAcyclic_eq_ok_iff hg]
    exact h.forall_mem_iff_acyclic
  · obtain ⟨hok, rfl⟩ := validated_eq_ok_iff.1 hvalid
    have hfacts := orderFacts_of_acyclic hg ((validate_eq_ok_iff hg).1 hok).2.2
    refine ⟨hfacts.perm, fun e he => ?_⟩
    have hadjacent := (mem_edges hg).1 he
    exact h.idxOf_lt hadjacent
      (hfacts.perm.mem_iff.2 (Array.mem_toList_iff.2 hadjacent.mem.2))

/-- The theorem about two stages one after the other, and about two that lead to each other. -/
theorem topologicalOrder_ofCalls_chain : ∃ a b : Node,
    a = letterStage 'A' rfl ∧ b = letterStage 'B' rfl ∧
    (∃ g, (ofCalls [(.start, a), (a, a), (a, b), (b, .finish)]).validated = .ok g ∧
      g.topologicalOrder.Perm g.nodes.toList ∧
      g.topologicalOrder.idxOf .start < g.topologicalOrder.idxOf a ∧
      g.topologicalOrder.idxOf a < g.topologicalOrder.idxOf b) ∧
    Node.finish ∉ (ofCalls [(.start, a), (a, b), (b, a), (b, .finish)]).topologicalOrder := by
  obtain ⟨a, ha⟩ : ∃ a, a = letterStage 'A' rfl := ⟨_, rfl⟩
  obtain ⟨b, hb⟩ : ∃ b, b = letterStage 'B' rfl := ⟨_, rfl⟩
  refine ⟨a, b, ha, hb, ?_, fun hfinish => ?_⟩
  · have hcalls : successful [(.start, a), (a, a), (a, b), (b, .finish)] =
        [(.start, a), (a, b), (b, .finish)] := by
      rw [ha, hb]
      decide
    have hg := holds_ofCalls [(.start, a), (a, a), (a, b), (b, .finish)]
    rw [hcalls] at hg
    have hvalid := hg.validated
      (fun n => if n = .start then 0 else if n = a then 1 else if n = b then 2 else 3)
      (by rw [ha, hb]; decide) (by rw [ha, hb]; decide) (by rw [ha, hb]; decide)
    obtain ⟨-, -, hlisted, -, -, hall⟩ :=
      topologicalOrder_ofCalls [(.start, a), (a, a), (a, b), (b, .finish)]
    obtain ⟨hperm, hforward⟩ := hall _ hvalid
    have hmem : ∀ n, (∃ e ∈ [(Node.start, a), (a, b), (b, .finish)], n = e.1 ∨ n = e.2) →
        n ∈ (ofCalls [(.start, a), (a, a), (a, b), (b, .finish)]).topologicalOrder := fun n hn =>
      hperm.mem_iff.2 (Array.mem_toList_iff.2 ((hg.mem_iff n).2 hn))
    have hstart := hlisted .start a ((hg.adjacent_iff .start a).2 (by simp))
      (hmem .start (by simp)) (hmem a (by simp))
    exact ⟨_, hvalid, hperm, hstart, hforward ⟨a, b⟩ (hg.mem_edges.2 (by simp))⟩
  · have hcalls : successful [(.start, a), (a, b), (b, a), (b, .finish)] =
        [(.start, a), (a, b), (b, a), (b, .finish)] := by
      rw [ha, hb]
      decide
    have hg := holds_ofCalls [(.start, a), (a, b), (b, a), (b, .finish)]
    rw [hcalls] at hg
    obtain ⟨-, hmem, -⟩ := topologicalOrder_ofCalls [(.start, a), (a, b), (b, a), (b, .finish)]
    have hthere := (hg.adjacent_iff a b).2 (by simp)
    have hback := (hg.adjacent_iff b a).2 (by simp)
    have hon := (hg.adjacent_iff b .finish).2 (by simp)
    exact ((hmem .finish).1 hfinish).2 ⟨b, .head hback (.single hthere), .single hon⟩

end Graph

end StageGraph
