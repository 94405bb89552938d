import Mathlib.Tactic
import StageGraph.Proofs.Graph.Listed

set_option autoImplicit false

/-! # First ready, first listed

Of several nodes that are ready, the order lists the one that has been ready longest, wherever it
stands in the graph. Nodes that become ready together are listed as their edges came from the node
that let them go, and nodes without predecessors in the order of the graph (`pairwise_precedes`).

The order satisfies an equation that follows the queue (`topologicalOrder_eq`): in front stand the
nodes without predecessors, and behind them, node by node, the successors that each listed node lets
go (`released`). All the rest is read off this equation.
-/

namespace StageGraph

namespace Graph

/-! ## The equation of the queue -/

/-- The nodes that become ready while the nodes of a list are listed one by one behind `before`. -/
def released (g : Graph) (before : List Node) : List Node → List Node
  | [] => []
  | n :: rest =>
    ((g.successorsOf n).filter fun t => ∀ a ∈ g.predecessorsOf t, a ∈ before ++ [n]) ++
      g.released (before ++ [n]) rest

theorem released_concat (g : Graph) (before l : List Node) (n : Node) :
    g.released before (l ++ [n]) = g.released before l ++
      (g.successorsOf n).filter fun t => ∀ a ∈ g.predecessorsOf t, a ∈ before ++ l ++ [n] := by
  induction l generalizing before with
  | nil => simp [released]
  | cons m l ih => simp [released, ih]

/-- Picking out numbers picks out their nodes. -/
theorem nodesAt_filter {g : Graph} {numbers : List Nat} {p : Nat → Bool} {q : Node → Bool}
    (h : ∀ i ∈ numbers, ∀ n, g.nodes[i]? = some n → q n = p i) :
    g.nodesAt (numbers.filter p) = (g.nodesAt numbers).filter q := by
  rw [nodesAt, nodesAt, List.filterMap_filter, List.filter_filterMap]
  refine List.filterMap_congr fun i hi => ?_
  cases hn : g.nodes[i]? with
  | none => simp
  | some n => simp [h i hi n hn, Option.filter]

theorem nodesAt_range (g : Graph) : g.nodesAt (List.range g.nodeCount) = g.nodes.toList := by
  have hget : ∀ i ∈ List.range g.nodeCount, g.nodes[i]? = some (g.nodes.getD i .start) := by
    intro i hi
    have hlt : i < g.nodes.size := List.mem_range.1 hi
    simp [Array.getD, hlt]
  rw [nodesAt, List.filterMap_congr hget, List.filterMap_eq_map']
  refine List.ext_getElem (by simp [nodeCount]) fun i _ hi => ?_
  have hlt : i < g.nodes.size := by simpa using hi
  simp [Array.getD, hlt]

/-- Numbers are among others if and only if their nodes are. -/
theorem forall_mem_nodesAt {g : Graph} (hg : g.WellFormed) {numbers others : List Nat}
    (hlt : ∀ i ∈ numbers, i < g.nodeCount) :
    (∀ n ∈ g.nodesAt numbers, n ∈ g.nodesAt others) ↔ ∀ i ∈ numbers, i ∈ others := by
  constructor
  · intro h i hi
    obtain ⟨n, hn⟩ := exists_node (hlt i hi)
    exact (mem_nodesAt_iff hg hn).1 (h n ((mem_nodesAt_iff hg hn).2 hi))
  · intro h n hn
    obtain ⟨i, hi, hin⟩ := mem_nodesAt.1 hn
    exact mem_nodesAt.2 ⟨i, h i hi, hin⟩

theorem lt_of_mem_predecessorsAt {g : Graph} (hg : g.WellFormed) {t : Nat} :
    ∀ s ∈ g.predecessorsAt t, s < g.nodeCount := fun s hs =>
  (lt_of_mem_successorsAt hg ((hg.mirrored s t).2 hs)).1

/-- A node without predecessors waits from the beginning. -/
theorem nodesAt_sources {g : Graph} (hg : g.WellFormed) :
    g.nodesAt ((List.range g.nodeCount).filter fun i => g.indegrees[i]? == some 0) =
      g.nodes.toList.filter fun n => g.predecessorsOf n = [] := by
  rw [← nodesAt_range g]
  refine nodesAt_filter fun i hi n hn => ?_
  have hlt := List.mem_range.1 hi
  have hcount := (listing_start hg).missing_eq i hlt
  rw [hcount, predecessorsOf_of_getElem? hg hn, Bool.eq_iff_iff, decide_eq_true_eq, beq_iff_eq,
    Option.some.injEq, missing_eq_zero_iff hg, List.eq_nil_iff_forall_not_mem]
  constructor
  · intro h p hp
    obtain ⟨a, ha⟩ := exists_node (lt_of_mem_successorsAt hg hp).1
    exact absurd (mem_nodesAt.2 ⟨p, (hg.mirrored p i).1 hp, ha⟩) (h a)
  · intro h a ha
    obtain ⟨p, hp, -⟩ := mem_nodesAt.1 ha
    exact absurd (h p ((hg.mirrored p i).2 hp)) List.not_mem_nil

/-- The nodes that `n` lets go are those of its successors that miss nothing else. -/
theorem Listing.nodesAt_ready {g : Graph} (hg : g.WellFormed) {listed queue : List Nat}
    {missing : Array Nat} {i : Nat} {n : Node} (h : Listing g listed (i :: queue) missing)
    (hi : g.nodes[i]? = some n) :
    g.nodesAt (release (g.successorsAt i) missing).2 = (g.successorsOf n).filter
      fun t => ∀ a ∈ g.predecessorsOf t, a ∈ g.nodesAt listed ++ [n] := by
  rw [h.ready_eq hg, successorsOf_of_getElem? hg hi, ← nodesAt_singleton hi, ← nodesAt_append]
  refine nodesAt_filter fun t _ m hm => ?_
  rw [predecessorsOf_of_getElem? hg hm, decide_eq_decide]
  exact forall_mem_nodesAt hg (lt_of_mem_predecessorsAt hg)

/-- The nodes that wait are in the order in which they became ready, until no node waits. -/
theorem Listing.nodesAt_listReady {g : Graph} (hg : g.WellFormed) {listed queue : List Nat}
    {missing : Array Nat} (h : Listing g listed queue missing) (first : List Node)
    (heq : g.nodesAt (listed ++ queue) = first ++ g.released [] (g.nodesAt listed)) :
    g.nodesAt (listed ++ g.listReady queue missing) =
      first ++ g.released [] (g.nodesAt (listed ++ g.listReady queue missing)) := by
  induction queue, missing using listReady.induct g generalizing listed with
  | case1 missing =>
    rw [listReady, List.append_nil]
    rwa [List.append_nil] at heq
  | case2 missing i queue released =>
    rename_i ih
    obtain ⟨n, hn⟩ := exists_node (h.lt_of_mem i (by simp))
    have hstep : g.nodesAt (listed ++ [i] ++ (queue ++ (release (g.successorsAt i) missing).2)) =
        first ++ g.released [] (g.nodesAt (listed ++ [i])) := by
      have hassoc : listed ++ [i] ++ (queue ++ (release (g.successorsAt i) missing).2) =
          (listed ++ i :: queue) ++ (release (g.successorsAt i) missing).2 := by simp
      rw [hassoc, nodesAt_append, heq, h.nodesAt_ready hg hn, nodesAt_append, nodesAt_singleton hn,
        released_concat, List.nil_append, List.append_assoc]
    have hrest := ih (h.step hg) hstep
    rw [List.append_assoc] at hrest
    rw [listReady]
    exact hrest

/-- The order, as the queue makes it. -/
theorem topologicalOrder_eq {g : Graph} (hg : g.WellFormed) : g.topologicalOrder =
    (g.nodes.toList.filter fun n => g.predecessorsOf n = []) ++
      g.released [] g.topologicalOrder := by
  refine (listing_start hg).nodesAt_listReady hg _ ?_
  rw [List.nil_append, nodesAt_sources hg]
  exact (List.append_nil _).symm

/-! ## When a node becomes ready -/

/-- How many nodes are listed when `n` becomes ready, which is behind its last predecessor. -/
def readyAt (g : Graph) (n : Node) : Nat :=
  ((g.predecessorsOf n).map fun a => g.topologicalOrder.idxOf a + 1).foldr max 0

/-- The nodes in whose order those are listed that become ready together with `n`: the nodes of the
graph if nothing has to be listed first, and otherwise the successors of the last node that has. -/
def peers (g : Graph) (n : Node) : List Node :=
  match g.readyAt n with
  | 0 => g.nodes.toList
  | k + 1 => (g.topologicalOrder[k]?).elim [] g.successorsOf

/-- `n` becomes ready before `m`, or together with `m` and comes first among their peers. -/
def Precedes (g : Graph) (n m : Node) : Prop :=
  g.readyAt n < g.readyAt m ∨
    g.readyAt n = g.readyAt m ∧ (g.peers n).idxOf n < (g.peers n).idxOf m

theorem readyAt_le_iff {g : Graph} {n : Node} {k : Nat} (hk : k ≤ g.topologicalOrder.length) :
    g.readyAt n ≤ k ↔ ∀ a ∈ g.predecessorsOf n, a ∈ g.topologicalOrder.take k := by
  have hplace : ∀ a, g.topologicalOrder.idxOf a + 1 ≤ k ↔ a ∈ g.topologicalOrder.take k := by
    intro a
    by_cases ha : a ∈ g.topologicalOrder
    · exact (List.mem_take_iff_idxOf_lt ha).symm
    · rw [List.idxOf_eq_length ha]
      exact iff_of_false (Nat.not_le.2 (Nat.lt_succ_of_le hk)) fun hmem =>
        ha (List.mem_of_mem_take hmem)
  unfold readyAt
  induction g.predecessorsOf n with
  | nil => simp
  | cons a as ih =>
    rw [List.map_cons, List.foldr_cons, Nat.max_le, List.forall_mem_cons]
    exact and_congr (hplace a) ih

/-- Without predecessors, and only then, a node is ready from the beginning. -/
theorem readyAt_eq_zero_iff {g : Graph} {n : Node} :
    g.readyAt n = 0 ↔ g.predecessorsOf n = [] := by
  rw [← Nat.le_zero, readyAt_le_iff (Nat.zero_le _), List.take_zero]
  simp [List.eq_nil_iff_forall_not_mem]

/-- What `n` lets go becomes ready as soon as `n` is listed. -/
theorem readyAt_eq_of_mem {g : Graph} (hg : g.WellFormed) {before rest : List Node} {n t : Node}
    (heq : g.topologicalOrder = before ++ n :: rest)
    (ht : t ∈ (g.successorsOf n).filter fun t => ∀ a ∈ g.predecessorsOf t, a ∈ before ++ [n]) :
    g.readyAt t = before.length + 1 := by
  obtain ⟨hsucc, hpred⟩ := List.mem_filter.1 ht
  have hn : n ∈ g.predecessorsOf t :=
    (mem_predecessorsOf hg).2 ((mem_successorsOf hg).1 hsucc)
  have hbefore : n ∉ before := by
    have hnodup := (ordered_topologicalOrder hg).nodup
    rw [heq] at hnodup
    exact fun hmem => (List.nodup_append.1 hnodup).2.2 n hmem n List.mem_cons_self rfl
  have htake : g.topologicalOrder.take before.length = before := by rw [heq, List.take_left]
  have htake' : g.topologicalOrder.take (before.length + 1) = before ++ [n] := by
    rw [heq, List.take_length_add_append, List.take_succ_cons, List.take_zero]
  have hlength : before.length + 1 ≤ g.topologicalOrder.length := by simp [heq]
  refine Nat.le_antisymm ?_ (Nat.lt_of_not_le fun hle => ?_)
  · rw [readyAt_le_iff hlength, htake']
    simpa using hpred
  · rw [readyAt_le_iff (Nat.le_of_succ_le hlength), htake] at hle
    exact hbefore (hle n hn)

/-- Members of a list without repetition come in the order of their places. -/
theorem pairwise_idxOf {l : List Node} (h : l.Nodup) :
    l.Pairwise fun a b => l.idxOf a < l.idxOf b := by
  have hpairwise := pairwise_eraseDups l
  rwa [eraseDups_of_nodup h] at hpairwise

theorem pairwise_released {g : Graph} (hg : g.WellFormed) {before l : List Node}
    (heq : g.topologicalOrder = before ++ l) :
    (g.released before l).Pairwise g.Precedes ∧
      ∀ t ∈ g.released before l, before.length < g.readyAt t := by
  induction l generalizing before with
  | nil => simp [released]
  | cons n rest ih =>
    have hready := fun t => readyAt_eq_of_mem (t := t) hg heq
    have heq' : g.topologicalOrder = before ++ [n] ++ rest := by simp [heq]
    obtain ⟨hrest, hlater⟩ := ih heq'
    have hlater' : ∀ u ∈ g.released (before ++ [n]) rest, before.length + 1 < g.readyAt u :=
      fun u hu => by simpa using hlater u hu
    rw [released]
    refine ⟨List.pairwise_append.2 ⟨?_, hrest, fun t ht u hu => .inl ?_⟩, fun t ht => ?_⟩
    · -- the nodes that `n` lets go keep the order that they have as its successors
      have hpeers : ∀ t, g.readyAt t = before.length + 1 → g.peers t = g.successorsOf n := by
        intro t ht
        simp [peers, ht, heq]
      refine ((pairwise_idxOf (nodup_successorsOf hg n)).filter _).imp_of_mem ?_
      intro t u ht hu hlt
      exact .inr ⟨(hready t ht).trans (hready u hu).symm, by rwa [hpeers t (hready t ht)]⟩
    · rw [hready t ht]
      exact hlater' u hu
    · rcases List.mem_append.1 ht with ht | ht
      · rw [hready t ht]
        exact Nat.lt_succ_self _
      · exact Nat.lt_of_succ_lt (hlater' t ht)

/-- In the order each node precedes all that come after it. -/
theorem pairwise_precedes {g : Graph} (hg : g.WellFormed) :
    g.topologicalOrder.Pairwise g.Precedes := by
  obtain ⟨hreleased, hlater⟩ := pairwise_released hg (List.nil_append g.topologicalOrder).symm
  have hzero : ∀ n ∈ g.nodes.toList.filter fun n => g.predecessorsOf n = [], g.readyAt n = 0 :=
    fun n hn => readyAt_eq_zero_iff.2 (by simpa using (List.mem_filter.1 hn).2)
  rw [topologicalOrder_eq hg]
  refine List.pairwise_append.2 ⟨?_, hreleased, fun n hn t ht => .inl ?_⟩
  · refine ((pairwise_idxOf (nodup_nodes hg)).filter _).imp_of_mem fun {n m} hn hm hlt => ?_
    exact .inr ⟨(hzero n hn).trans (hzero m hm).symm, by simpa [peers, hzero n hn] using hlt⟩
  · rw [hzero n hn]
    exact Nat.lt_of_le_of_lt (Nat.zero_le _) (hlater t ht)

/-- At each place of the order stands the node that has been ready longest of all that are ready and
not listed yet; of those that became ready together it is the one that comes first among its
peers. -/
theorem topologicalOrder_longest_ready (calls : List (Node × Node)) {k : Nat} {n m : Node}
    (hn : (ofCalls calls).topologicalOrder[k]? = some n) (hm : m ∈ (ofCalls calls).nodes)
    (hwaits : m ∉ (ofCalls calls).topologicalOrder.take k)
    (hready : ∀ a, (ofCalls calls).Adjacent a m → a ∈ (ofCalls calls).topologicalOrder.take k)
    (hne : m ≠ n) : (ofCalls calls).Precedes n m := by
  have hg := wellFormed_ofCalls calls
  have hlisted : m ∈ (ofCalls calls).topologicalOrder :=
    ((ordered_topologicalOrder hg).mem_iff m).2 ⟨hm, fun a ha => List.mem_of_mem_take (hready a ha)⟩
  obtain ⟨j, hj, hjm⟩ := List.mem_iff_getElem.1 hlisted
  obtain ⟨hk, hkn⟩ := List.getElem?_eq_some_iff.1 hn
  have hkj : k < j := by
    refine Nat.lt_of_le_of_ne (Nat.le_of_not_lt fun hjk => hwaits ?_) ?_
    · exact List.mem_take_iff_getElem.2 ⟨j, by omega, hjm⟩
    · rintro rfl
      exact hne (hjm.symm.trans hkn)
  have hpair := List.pairwise_iff_getElem.1 (pairwise_precedes hg) k j hk hj hkj
  rwa [hkn, hjm] at hpair

/-! ## An earlier node that is overtaken -/

/-- A stage `A` with a stage `B` behind it, and then a stage `C` beside the two. -/
def seriesBeside : List (Node × Node) :=
  [(.start, letterStage 'A' rfl), (letterStage 'A' rfl, letterStage 'B' rfl),
    (letterStage 'B' rfl, .finish), (.start, letterStage 'C' rfl), (letterStage 'C' rfl, .finish)]

theorem holds_seriesBeside : (ofCalls seriesBeside).Holds seriesBeside := by
  have hcalls : successful seriesBeside = seriesBeside := by decide
  have hg := holds_ofCalls seriesBeside
  rwa [hcalls] at hg

/-- `C` is let go by `Start` together with `A`, and `B` only by `A`. -/
theorem topologicalOrder_seriesBeside : ∃ rest, (ofCalls seriesBeside).topologicalOrder =
    .start :: letterStage 'A' rfl :: letterStage 'C' rfl :: rest := by
  have hg := holds_seriesBeside
  have heq := topologicalOrder_eq hg.wellFormed
  have hsources : ((ofCalls seriesBeside).nodes.toList.filter
      fun n => (ofCalls seriesBeside).predecessorsOf n = []) = [.start] := by
    simp only [hg.nodes_eq, hg.predecessors_eq]
    decide
  have hfirst : ((ofCalls seriesBeside).successorsOf .start).filter
      (fun t => ∀ a ∈ (ofCalls seriesBeside).predecessorsOf t, a ∈ [] ++ [Node.start]) =
      [letterStage 'A' rfl, letterStage 'C' rfl] := by
    simp only [hg.successors_eq, hg.predecessors_eq]
    decide
  rw [hsources, List.singleton_append] at heq
  obtain ⟨behind, hbehind⟩ : ∃ behind, (ofCalls seriesBeside).topologicalOrder =
      .start :: behind := ⟨_, heq⟩
  refine ⟨(ofCalls seriesBeside).released [.start] behind, ?_⟩
  conv_lhs => rw [heq, hbehind, released, hfirst]
  rfl

/-- Before the third place `B` and `C` are ready, and `C` comes first. -/
theorem waiting_seriesBeside :
    (ofCalls seriesBeside).topologicalOrder[2]? = some (letterStage 'C' rfl) ∧
    letterStage 'B' rfl ∈ (ofCalls seriesBeside).nodes ∧
    letterStage 'B' rfl ∉ (ofCalls seriesBeside).topologicalOrder.take 2 ∧
    ∀ a, (ofCalls seriesBeside).Adjacent a (letterStage 'B' rfl) →
      a ∈ (ofCalls seriesBeside).topologicalOrder.take 2 := by
  have hg := holds_seriesBeside
  obtain ⟨rest, horder⟩ := topologicalOrder_seriesBeside
  rw [horder]
  refine ⟨rfl, ?_, ?_, fun a ha => ?_⟩
  · rw [← Array.mem_toList_iff, hg.nodes_eq]
    decide
  · rw [List.take_succ_cons, List.take_succ_cons, List.take_zero]
    decide
  · have hpred := (mem_predecessorsOf hg.wellFormed).2 ha
    have hone : (ofCalls seriesBeside).predecessorsOf (letterStage 'B' rfl) =
        [letterStage 'A' rfl] := by
      rw [hg.predecessors_eq]
      decide
    rw [hone, List.mem_singleton] at hpred
    simp [hpred]

/-- The theorem about `C`, which overtakes `B`. -/
theorem topologicalOrder_longest_ready_beside :
    (ofCalls seriesBeside).topologicalOrder[2]? = some (letterStage 'C' rfl) ∧
    (ofCalls seriesBeside).Precedes (letterStage 'C' rfl) (letterStage 'B' rfl) := by
  obtain ⟨hplace, hmem, hwaits, hready⟩ := waiting_seriesBeside
  exact ⟨hplace, topologicalOrder_longest_ready seriesBeside hplace hmem hwaits hready (by decide)⟩

/-- In a valid graph the next node need not be the first one of the graph that is ready. -/
theorem not_first_of_ready : ∃ g, (ofCalls seriesBeside).validated = .ok g ∧
    ¬ ∀ (k : Nat) (n m : Node), g.topologicalOrder[k]? = some n → m ∈ g.nodes →
      m ∉ g.topologicalOrder.take k → (∀ a, g.Adjacent a m → a ∈ g.topologicalOrder.take k) →
      g.nodes.toList.idxOf n ≤ g.nodes.toList.idxOf m := by
  have hg := holds_seriesBeside
  refine ⟨_, hg.validated (fun n => if n = .start then 0 else if n = .finish then 3
    else if n = letterStage 'B' rfl then 2 else 1) (by decide) (by decide) (by decide), fun h => ?_⟩
  obtain ⟨hplace, hmem, hwaits, hready⟩ := waiting_seriesBeside
  have hle := h 2 _ _ hplace hmem hwaits hready
  rw [hg.nodes_eq] at hle
  exact absurd hle (by decide)

end Graph

end StageGraph
