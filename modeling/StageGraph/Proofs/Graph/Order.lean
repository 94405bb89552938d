import StageGraph.Graph.Order
import StageGraph.Proofs.Graph.Insertion
import StageGraph.Proofs.Graph.Search

set_option autoImplicit false

/-! # Which nodes the topological order lists

While nodes are listed, each node misses exactly those predecessors that are not listed yet, and
the listed and the waiting nodes together are those that miss none (`Listing`). When no node waits
any more, every node whose predecessors are all listed is listed itself (`Ordered`). So exactly the
nodes behind a cycle are left out (`Ordered.mem_iff_not_behindCycle`), and in an acyclic graph none
is (`orderFacts_of_acyclic`).
-/

namespace StageGraph

/-! ## Taking predecessors away -/

theorem getElem?_release {targets : List Nat} {missing : Array Nat} (hnodup : targets.Nodup)
    (hpos : ∀ t ∈ targets, ∃ k, missing[t]? = some (k + 1)) (j : Nat) :
    (release targets missing).1[j]? =
      if j ∈ targets then (missing[j]?).map (· - 1) else missing[j]? := by
  induction targets generalizing missing with
  | nil => simp [release]
  | cons t rest ih =>
    obtain ⟨ht, hrest⟩ := List.nodup_cons.1 hnodup
    obtain ⟨k, hk⟩ := hpos t List.mem_cons_self
    obtain ⟨hlt, -⟩ := Array.getElem?_eq_some_iff.1 hk
    -- one step changes the entry of `t` only, and `t` does not come again
    have hstep : (release (t :: rest) missing).1 =
        (release rest (missing.setIfInBounds t k)).1 := by
      rw [release, hk]
      cases k <;> rfl
    have hset : ∀ i : Nat, (missing.setIfInBounds t k)[i]? =
        if i = t then some k else missing[i]? := by
      intro i
      rw [Array.getElem?_setIfInBounds]
      by_cases hi : t = i
      · simp [hi, hi ▸ hlt]
      · simp [hi, Ne.symm hi]
    have hpos' : ∀ u ∈ rest, ∃ k', (missing.setIfInBounds t k)[u]? = some (k' + 1) := by
      intro u hu
      rw [hset, if_neg fun hut : u = t => ht (hut ▸ hu)]
      exact hpos u (List.mem_cons_of_mem _ hu)
    rw [hstep, ih hrest hpos', hset]
    by_cases hj : j = t
    · subst hj
      simp [ht, hk]
    · simp [hj]

theorem release_ready {targets : List Nat} {missing : Array Nat} (hnodup : targets.Nodup)
    (hpos : ∀ t ∈ targets, ∃ k, missing[t]? = some (k + 1)) :
    (release targets missing).2 = targets.filter fun t => missing[t]? = some 1 := by
  induction targets generalizing missing with
  | nil => rfl
  | cons t rest ih =>
    obtain ⟨ht, hrest⟩ := List.nodup_cons.1 hnodup
    obtain ⟨k, hk⟩ := hpos t List.mem_cons_self
    have hset : ∀ m : Nat, ∀ u ∈ rest, (missing.setIfInBounds t m)[u]? = missing[u]? := by
      intro m u hu
      rw [Array.getElem?_setIfInBounds, if_neg fun htu : t = u => ht (htu ▸ hu)]
    have hpos' : ∀ m : Nat, ∀ u ∈ rest, ∃ k', (missing.setIfInBounds t m)[u]? = some (k' + 1) := by
      intro m u hu
      rw [hset m u hu]
      exact hpos u (List.mem_cons_of_mem _ hu)
    have hfilter : ∀ m : Nat, (release rest (missing.setIfInBounds t m)).2 =
        rest.filter fun u => missing[u]? = some 1 := by
      intro m
      rw [ih hrest (hpos' m)]
      exact List.filter_congr fun u hu => by rw [hset m u hu]
    rw [release, hk]
    cases k with
    | zero => simp [hfilter, hk]
    | succ k => simp [hfilter, hk]

namespace Graph

/-! ## The listing -/

/-- Every node of the list comes after all its predecessors. -/
def Forward (g : Graph) (l : List Nat) : Prop :=
  ∀ before i after, l = before ++ i :: after → ∀ p, g.Leads p i → p ∈ before

theorem Forward.snoc {g : Graph} {l : List Nat} (h : g.Forward l) {i : Nat}
    (hi : ∀ p, g.Leads p i → p ∈ l) : g.Forward (l ++ [i]) := by
  intro before j after heq p hp
  rcases List.eq_nil_or_concat after with rfl | ⟨after, k, rfl⟩
  · obtain ⟨rfl, hij⟩ := List.append_inj' heq rfl
    cases hij
    exact hi p hp
  · have heq' : l ++ [i] = (before ++ j :: after) ++ [k] := by simpa using heq
    obtain ⟨rfl, -⟩ := List.append_inj' heq' rfl
    exact h before j after rfl p hp

/-- What the listing keeps: `listed` are the nodes listed so far, in order, and `queue` those that
wait. -/
structure Listing (g : Graph) (listed queue : List Nat) (missing : Array Nat) : Prop where
  missing_eq : ∀ i, i < g.nodeCount →
    missing[i]? = some ((g.predecessorsAt i).filter (· ∉ listed)).length
  nodup : (listed ++ queue).Nodup
  lt_of_mem : ∀ i ∈ listed ++ queue, i < g.nodeCount
  mem_iff : ∀ i, i < g.nodeCount → (i ∈ listed ++ queue ↔ ∀ p, g.Leads p i → p ∈ listed)
  forward : g.Forward listed

/-- A node misses nothing when all its predecessors are listed. -/
theorem missing_eq_zero_iff {g : Graph} (hg : g.WellFormed) {listed : List Nat} {i : Nat} :
    ((g.predecessorsAt i).filter (· ∉ listed)).length = 0 ↔ ∀ p, g.Leads p i → p ∈ listed := by
  rw [List.length_eq_zero_iff, List.filter_eq_nil_iff]
  constructor
  · intro h p hp
    simpa using h p ((hg.mirrored p i).1 hp)
  · intro h p hp
    simpa using h p ((hg.mirrored p i).2 hp)

/-- Once `i` is listed too, exactly its successors miss one predecessor fewer. -/
theorem length_filter_snoc {g : Graph} (hg : g.WellFormed) {listed : List Nat} {i : Nat}
    (hi : i ∉ listed) (j : Nat) :
    ((g.predecessorsAt j).filter (· ∉ listed ++ [i])).length =
      ((g.predecessorsAt j).filter (· ∉ listed)).length -
        (if j ∈ g.successorsAt i then 1 else 0) := by
  have hfilter : (g.predecessorsAt j).filter (· ∉ listed ++ [i]) =
      ((g.predecessorsAt j).filter (· ∉ listed)).erase i := by
    rw [((hg.nodup_predecessors j).filter _).erase_eq_filter, List.filter_filter]
    refine List.filter_congr fun p _ => ?_
    by_cases hp : p = i <;> simp [hp]
  have hmem : i ∈ (g.predecessorsAt j).filter (· ∉ listed) ↔ j ∈ g.successorsAt i := by
    simp [List.mem_filter, hi, hg.mirrored]
  rw [hfilter, List.length_erase]
  by_cases h : j ∈ g.successorsAt i
  · rw [if_pos (hmem.2 h), if_pos h]
  · rw [if_neg fun hm => h (hmem.1 hm), if_neg h, Nat.sub_zero]

/-- A node that waits is not listed yet. -/
theorem Listing.front_not_mem {g : Graph} {listed queue : List Nat} {missing : Array Nat} {i : Nat}
    (h : Listing g listed (i :: queue) missing) : i ∉ listed := fun hm =>
  (List.nodup_append.1 h.nodup).2.2 i hm i List.mem_cons_self rfl

/-- Every successor of a node that waits misses this node at least. -/
theorem Listing.missing_pos {g : Graph} (hg : g.WellFormed) {listed queue : List Nat}
    {missing : Array Nat} {i : Nat} (h : Listing g listed (i :: queue) missing) :
    ∀ t ∈ g.successorsAt i, ∃ k, missing[t]? = some (k + 1) := by
  intro t ht
  have hlt := (lt_of_mem_successorsAt hg ht).2
  have hne : ((g.predecessorsAt t).filter (· ∉ listed)).length ≠ 0 := fun h0 =>
    h.front_not_mem ((missing_eq_zero_iff hg).1 h0 i ht)
  exact ⟨_, (h.missing_eq t hlt).trans (by rw [Nat.sub_add_cancel (Nat.pos_of_ne_zero hne)])⟩

/-- The successors of `i` that become ready when it is listed are those that miss nothing else. -/
theorem Listing.ready_eq {g : Graph} (hg : g.WellFormed) {listed queue : List Nat}
    {missing : Array Nat} {i : Nat} (h : Listing g listed (i :: queue) missing) :
    (release (g.successorsAt i) missing).2 =
      (g.successorsAt i).filter fun t => ∀ p ∈ g.predecessorsAt t, p ∈ listed ++ [i] := by
  rw [release_ready (hg.nodup_successors i) (h.missing_pos hg)]
  refine List.filter_congr fun t ht => ?_
  obtain ⟨k, hk⟩ := h.missing_pos hg t ht
  have hcount := length_filter_snoc hg h.front_not_mem t
  rw [h.missing_eq t (lt_of_mem_successorsAt hg ht).2, Option.some.injEq] at hk
  rw [hk, if_pos ht, Nat.add_sub_cancel] at hcount
  rw [h.missing_eq t (lt_of_mem_successorsAt hg ht).2, hk, decide_eq_decide, Option.some.injEq,
    Nat.add_eq_right, ← hcount, missing_eq_zero_iff hg]
  exact forall_congr' fun p => imp_congr_left (hg.mirrored p t)

/-- The node at the front of the queue is listed, and the successors that miss nothing any more
join the queue. -/
theorem Listing.step {g : Graph} (hg : g.WellFormed) {listed queue : List Nat}
    {missing : Array Nat} {i : Nat} (h : Listing g listed (i :: queue) missing) :
    Listing g (listed ++ [i]) (queue ++ (release (g.successorsAt i) missing).2)
      (release (g.successorsAt i) missing).1 := by
  have hassoc : listed ++ i :: queue = listed ++ [i] ++ queue := by simp
  have hnodup : (listed ++ [i] ++ queue).Nodup := hassoc ▸ h.nodup
  have hi := h.front_not_mem
  have hilt : i < g.nodeCount := h.lt_of_mem i (by simp)
  have hipred : ∀ p, g.Leads p i → p ∈ listed := (h.mem_iff i hilt).1 (by simp)
  have hmissing : ∀ j, j < g.nodeCount → (release (g.successorsAt i) missing).1[j]? =
      some ((g.predecessorsAt j).filter (· ∉ listed ++ [i])).length := by
    intro j hj
    rw [getElem?_release (hg.nodup_successors i) (h.missing_pos hg), h.missing_eq j hj,
      length_filter_snoc hg hi]
    split <;> rfl
  have hmem : ∀ j, j ∈ (release (g.successorsAt i) missing).2 ↔
      g.Leads i j ∧ ∀ p, g.Leads p j → p ∈ listed ++ [i] := by
    intro j
    rw [h.ready_eq hg, List.mem_filter, decide_eq_true_eq]
    exact and_congr_right fun _ => forall_congr' fun p => imp_congr_left (hg.mirrored p j).symm
  refine ⟨hmissing, ?_, fun j hj => ?_, fun j hj => ?_, h.forward.snoc hipred⟩
  · rw [← List.append_assoc]
    refine List.nodup_append.2 ⟨hnodup, ?_, ?_⟩
    · rw [h.ready_eq hg]
      exact (hg.nodup_successors i).filter _
    · rintro j hj k hk rfl
      -- a successor of `i` missed `i`, so it was neither listed nor waiting
      have hlt := h.lt_of_mem j (hassoc ▸ hj)
      exact hi ((h.mem_iff j hlt).1 (hassoc ▸ hj) i ((hmem j).1 hk).1)
  · rw [← List.append_assoc, List.mem_append] at hj
    rcases hj with hj | hj
    · exact h.lt_of_mem j (hassoc ▸ hj)
    · exact (lt_of_mem_successorsAt hg ((hmem j).1 hj).1).2
  · rw [← List.append_assoc, List.mem_append, hmem j, ← hassoc, h.mem_iff j hj]
    constructor
    · rintro (hp | ⟨-, hp⟩)
      · exact fun p hpj => List.mem_append_left _ (hp p hpj)
      · exact hp
    · intro hp
      by_cases hij : g.Leads i j
      · exact Or.inr ⟨hij, hp⟩
      · left
        intro p hpj
        rcases List.mem_append.1 (hp p hpj) with hm | hm
        · exact hm
        · exact absurd (List.mem_singleton.1 hm ▸ hpj) hij

/-- The listing goes on until no node waits. -/
theorem listing_listReady {g : Graph} (hg : g.WellFormed) {listed queue : List Nat}
    {missing : Array Nat} (h : Listing g listed queue missing) :
    ∃ missing', Listing g (listed ++ g.listReady queue missing) [] missing' := by
  induction queue, missing using listReady.induct g generalizing listed with
  | case1 missing =>
    rw [listReady, List.append_nil]
    exact ⟨missing, h⟩
  | case2 missing i queue released =>
    rename_i ih
    rw [listReady]
    have := ih (h.step hg)
    rwa [List.append_assoc] at this

theorem listing_start {g : Graph} (hg : g.WellFormed) :
    Listing g [] ((List.range g.nodeCount).filter fun i => g.indegrees[i]? == some 0)
      g.indegrees := by
  have hmissing : ∀ i, i < g.nodeCount → g.indegrees[i]? =
      some ((g.predecessorsAt i).filter (· ∉ ([] : List Nat))).length := by
    intro i hi
    have hlt : i < g.predecessors.size := by rw [hg.size_predecessors]; exact hi
    simp [indegrees, predecessorsAt, hlt]
  refine ⟨hmissing, ?_, fun i hi => ?_, fun i hi => ?_, ?_⟩
  · exact List.nodup_range.filter _
  · exact List.mem_range.1 (List.mem_filter.1 hi).1
  · rw [← missing_eq_zero_iff hg, List.nil_append, List.mem_filter, hmissing i hi]
    simp [hi]
  · intro before i after heq
    simp at heq

/-- When no node waits any more, the order is that of the nodes listed. -/
theorem exists_listing {g : Graph} (hg : g.WellFormed) : ∃ numbers missing,
    g.topologicalOrder = g.nodesAt numbers ∧ Listing g numbers [] missing := by
  obtain ⟨missing, h⟩ := listing_listReady hg (listing_start hg)
  exact ⟨_, missing, rfl, h⟩

/-! ## The order of the nodes -/

/-- Different nodes of the graph, each after all its predecessors, and no node whose predecessors
are all among them is missing. -/
structure Ordered (g : Graph) : Prop where
  nodup : g.topologicalOrder.Nodup
  mem_iff : ∀ n, n ∈ g.topologicalOrder ↔
    n ∈ g.nodes ∧ ∀ a, g.Adjacent a n → a ∈ g.topologicalOrder
  forward : ∀ before b after, g.topologicalOrder = before ++ b :: after →
    ∀ a, g.Adjacent a b → a ∈ before

theorem ordered_topologicalOrder {g : Graph} (hg : g.WellFormed) : g.Ordered := by
  obtain ⟨numbers, missing, horder, h⟩ := exists_listing hg
  rw [← List.append_nil numbers] at h
  refine ⟨?_, fun n => ⟨fun hn => ?_, fun hn => ?_⟩, fun before b after heq a hab => ?_⟩
  · rw [horder]
    exact nodup_nodesAt hg (by simpa using h.nodup)
  · rw [horder] at hn
    obtain ⟨i, hi, hn⟩ := mem_nodesAt.1 hn
    refine ⟨mem_nodes_of_getElem? hn, fun a hab => ?_⟩
    obtain ⟨s, t, hs, ht, hst⟩ := hab
    rw [number_unique hg ht hn] at hst
    have hs' := (h.mem_iff i (h.lt_of_mem i (by simpa using hi))).1 (by simpa using hi) s hst
    rw [horder]
    exact mem_nodesAt.2 ⟨s, by simpa using hs', hs⟩
  · obtain ⟨hmem, hpred⟩ := hn
    obtain ⟨i, hi, hin⟩ := exists_number hmem
    have hleads : ∀ p, g.Leads p i → p ∈ numbers ++ [] := by
      intro p hp
      obtain ⟨a, ha⟩ := exists_node (lt_of_mem_successorsAt hg hp).1
      have hmem := hpred a ⟨p, i, ha, hin, hp⟩
      rw [horder, mem_nodesAt_iff hg ha] at hmem
      exact List.mem_append_left _ hmem
    rw [horder, mem_nodesAt_iff hg hin]
    simpa using (h.mem_iff i hi).2 (by simpa using hleads)
  · rw [horder, nodesAt] at heq
    obtain ⟨front, back, rfl, hfront, hback⟩ := List.filterMap_eq_append_iff.1 heq
    obtain ⟨skipped, t, rest, rfl, hskipped, hb, -⟩ := List.filterMap_eq_cons_iff.1 hback
    obtain ⟨s, t', hs, ht', hst⟩ := hab
    rw [number_unique hg ht' hb] at hst
    have hmem := h.forward (front ++ skipped) t rest (by simp) s hst
    have hmem' : s ∈ front := by
      refine (List.mem_append.1 hmem).resolve_right fun hs' => ?_
      rw [hskipped s hs'] at hs
      cases hs
    rw [← hfront]
    exact mem_nodesAt.2 ⟨s, hmem', hs⟩

/-- A cycle leads to the node, or the node is on one. -/
def BehindCycle (g : Graph) (n : Node) : Prop :=
  ∃ c, Relation.TransGen g.Adjacent c c ∧ Relation.ReflTransGen g.Adjacent c n

theorem Ordered.idxOf_lt {g : Graph} (h : g.Ordered) {a b : Node} (hab : g.Adjacent a b)
    (hb : b ∈ g.topologicalOrder) :
    g.topologicalOrder.idxOf a < g.topologicalOrder.idxOf b := by
  obtain ⟨before, after, heq⟩ := List.append_of_mem hb
  have ha := h.forward before b after heq a hab
  have hnodup := h.nodup
  rw [heq] at hnodup ⊢
  have hb' : b ∉ before := fun hmem =>
    (List.nodup_append.1 hnodup).2.2 b hmem b List.mem_cons_self rfl
  rw [List.idxOf_append_of_mem ha, List.idxOf_append_of_notMem hb', List.idxOf_cons_self]
  exact List.idxOf_lt_length_of_mem ha

/-- All that leads to a listed node is listed, and before it. -/
theorem Ordered.transGen {g : Graph} (h : g.Ordered) {a b : Node}
    (hab : Relation.TransGen g.Adjacent a b) (hb : b ∈ g.topologicalOrder) :
    a ∈ g.topologicalOrder ∧ g.topologicalOrder.idxOf a < g.topologicalOrder.idxOf b := by
  induction hab using Relation.TransGen.head_induction_on with
  | single hab => exact ⟨((h.mem_iff b).1 hb).2 _ hab, h.idxOf_lt hab hb⟩
  | head hac _ ih =>
    obtain ⟨hc, hlt⟩ := ih
    exact ⟨((h.mem_iff _).1 hc).2 _ hac, Nat.lt_trans (h.idxOf_lt hac hc) hlt⟩

/-- Behind no cycle every node is listed: going back along the edges comes to an end, since there
are finitely many nodes and none of them comes twice. -/
theorem Ordered.mem_of_not_behindCycle {g : Graph} (h : g.Ordered) {n : Node} (hn : n ∈ g.nodes)
    (hfree : ¬ g.BehindCycle n) : n ∈ g.topologicalOrder := by
  let Ancestor := {a : Node // a ∈ g.nodes ∧ Relation.ReflTransGen g.Adjacent a n}
  let Before : Ancestor → Ancestor → Prop := fun a b => Relation.TransGen g.Adjacent a.1 b.1
  have hfinite : Finite Ancestor :=
    Finite.of_injective (fun a : Ancestor => (⟨a.1, Array.mem_toList_iff.2 a.2.1⟩ :
      {a : Node // a ∈ g.nodes.toList})) fun a b hab => Subtype.ext (congrArg (·.1) hab)
  have htrans : IsTrans Ancestor Before := ⟨fun _ _ _ => Relation.TransGen.trans⟩
  have hirrefl : Std.Irrefl Before := ⟨fun a ha => hfree ⟨a.1, ha, a.2.2⟩⟩
  have hwf : WellFounded Before := Finite.wellFounded_of_trans_of_irrefl Before
  suffices hall : ∀ a : Ancestor, a.1 ∈ g.topologicalOrder from hall ⟨n, hn, .refl⟩
  intro a
  induction a using hwf.induction with
  | _ a ih =>
    refine (h.mem_iff a.1).2 ⟨a.2.1, fun b hb => ?_⟩
    exact ih ⟨b, hb.mem.1, .head hb a.2.2⟩ (.single hb)

/-- The nodes that are left out are those behind a cycle. -/
theorem Ordered.mem_iff_not_behindCycle {g : Graph} (h : g.Ordered) (n : Node) :
    n ∈ g.topologicalOrder ↔ n ∈ g.nodes ∧ ¬ g.BehindCycle n := by
  constructor
  · refine fun hn => ⟨((h.mem_iff n).1 hn).1, ?_⟩
    rintro ⟨c, hcycle, hcn⟩
    have hc : c ∈ g.topologicalOrder := by
      rcases Relation.reflTransGen_iff_eq_or_transGen.1 hcn with rfl | hcn
      · exact hn
      · exact (h.transGen hcn hn).1
    exact Nat.lt_irrefl _ (h.transGen hcycle hc).2
  · exact fun hn => h.mem_of_not_behindCycle hn.1 hn.2

theorem Ordered.forall_mem_iff_acyclic {g : Graph} (h : g.Ordered) :
    (∀ n ∈ g.nodes, n ∈ g.topologicalOrder) ↔ g.Acyclic := by
  constructor
  · intro hall n hn
    obtain ⟨b, hb, -⟩ := Relation.TransGen.head'_iff.1 hn
    exact ((h.mem_iff_not_behindCycle n).1 (hall n hb.mem.1)).2 ⟨n, hn, .refl⟩
  · exact fun hac n hn => h.mem_of_not_behindCycle hn fun ⟨c, hc, _⟩ => hac c hc

/-- The topological order of an acyclic graph: all nodes, each after its predecessors. -/
structure OrderFacts (g : Graph) : Prop where
  perm : g.topologicalOrder.Perm g.nodes.toList
  forward : ∀ before b after, g.topologicalOrder = before ++ b :: after →
    ∀ a, g.Adjacent a b → a ∈ before

theorem orderFacts_of_acyclic {g : Graph} (hg : g.WellFormed) (hac : g.Acyclic) :
    g.OrderFacts := by
  have h := ordered_topologicalOrder hg
  refine ⟨(List.perm_ext_iff_of_nodup h.nodup (nodup_nodes hg)).2 fun n => ?_, h.forward⟩
  exact ⟨fun hn => Array.mem_toList_iff.2 ((h.mem_iff n).1 hn).1,
    fun hn => h.forall_mem_iff_acyclic.2 hac n (Array.mem_toList_iff.1 hn)⟩

end Graph

end StageGraph
