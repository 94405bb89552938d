import StageGraph.Graph.Listing
import StageGraph.Proofs.Graph.Order

set_option autoImplicit false

/-! # The shape of a graph between two sentinels

A valid graph in which `Start` is the only source and `End` the only sink runs from `Start` to
`End` throughout (`wellShaped_of_ends`). Only these two conditions depend on how the graph was
built; all the rest of `Graph.WellShaped` follows from them and from validity.
-/

namespace StageGraph

namespace Graph

/-- How many nodes are no sentinels. -/
def stageCount (g : Graph) : Nat := (g.nodes.toList.filter fun n => !n.isSentinel).length

/-- The graph runs from `Start` to `End` without a cycle. -/
structure WellShaped (g : Graph) : Prop where
  start_mem : Node.start ∈ g.nodes
  finish_mem : Node.finish ∈ g.nodes
  acyclic : g.Acyclic
  no_loop : ∀ n, ¬ g.Adjacent n n
  no_shortcut : ¬ g.Adjacent .start .finish
  source_iff : ∀ n ∈ g.nodes, (∀ a, ¬ g.Adjacent a n) ↔ n = .start
  sink_iff : ∀ n ∈ g.nodes, (∀ b, ¬ g.Adjacent n b) ↔ n = .finish
  on_path : ∀ n ∈ g.nodes, Relation.ReflTransGen g.Adjacent .start n ∧
    Relation.ReflTransGen g.Adjacent n .finish
  named : ∀ n ∈ g.nodes, n ≠ .start → n ≠ .finish →
    1 ≤ n.topology.toNat ∧ 1 ≤ n.ordinal.toNat ∧ n.name ≠ [] ∧ Text.trim n.name = n.name
  order_head : g.topologicalOrder.head? = some .start
  order_last : g.topologicalOrder.getLast? = some .finish
  order_perm : g.topologicalOrder.Perm g.nodes.toList
  summary_eq : g.summary =
    (s!"ok: {g.topologies.length} topologies, {g.stageCount} stages, {g.edgeCount} edges").toList

/-- `Start` is the only source and `End` the only sink. -/
structure Ends (g : Graph) : Prop where
  no_entry : ∀ a, ¬ g.Adjacent a .start
  no_exit : ∀ b, ¬ g.Adjacent .finish b
  entered : ∀ n ∈ g.nodes, n ≠ .start → ∃ a, g.Adjacent a n
  left : ∀ n ∈ g.nodes, n ≠ .finish → ∃ b, g.Adjacent n b

/-- Every node is reached from `Start`: going back along the edges ends only there. -/
theorem Ends.from_start {g : Graph} (hg : g.WellFormed) (hac : g.Acyclic) (h : g.Ends) {n : Node}
    (hn : n ∈ g.nodes) : Relation.ReflTransGen g.Adjacent .start n := by
  obtain ⟨rank, bound, hrank⟩ := exists_rank hg hac
  induction hr : rank n using Nat.strong_induction_on generalizing n with
  | _ r ih =>
    by_cases hstart : n = .start
    · rw [hstart]
    · obtain ⟨a, ha⟩ := h.entered n hn hstart
      exact (ih (rank a) (hr ▸ (hrank a n ha).1) ha.mem.1 rfl).tail ha

/-- Every node leads to `End`: going on along the edges ends only there. -/
theorem Ends.to_finish {g : Graph} (hg : g.WellFormed) (hac : g.Acyclic) (h : g.Ends) {n : Node}
    (hn : n ∈ g.nodes) : Relation.ReflTransGen g.Adjacent n .finish := by
  obtain ⟨rank, bound, hrank⟩ := exists_rank hg hac
  induction hr : bound - rank n using Nat.strong_induction_on generalizing n with
  | _ r ih =>
    by_cases hfinish : n = .finish
    · rw [hfinish]
    · obtain ⟨b, hb⟩ := h.left n hn hfinish
      have hlt : bound - rank b < r := by
        have := hrank n b hb
        omega
      exact (ih (bound - rank b) hlt hb.mem.2 rfl).head hb

theorem mem_of_reflTransGen {g : Graph} {a b : Node}
    (h : Relation.ReflTransGen g.Adjacent a b) (hmem : a ∈ g.nodes ∨ b ∈ g.nodes) :
    a ∈ g.nodes ∧ b ∈ g.nodes := by
  rcases Relation.reflTransGen_iff_eq_or_transGen.1 h with rfl | h
  · exact ⟨hmem.elim id id, hmem.elim id id⟩
  · obtain ⟨x, hax, -⟩ := Relation.TransGen.head'_iff.1 h
    obtain ⟨y, -, hyb⟩ := Relation.TransGen.tail'_iff.1 h
    exact ⟨hax.mem.1, hyb.mem.2⟩

/-- Besides the two sentinels a graph holds two nodes fewer than it has. -/
theorem stageCount_eq {g : Graph} (hg : g.WellFormed) (hs : Node.start ∈ g.nodes)
    (hf : Node.finish ∈ g.nodes) : g.stageCount = g.nodeCount - 2 := by
  have hnodup := nodup_nodes hg
  have hfilter : (g.nodes.toList.filter fun n => !n.isSentinel) =
      (g.nodes.toList.erase .start).erase .finish := by
    rw [(hnodup.erase _).erase_eq_filter, hnodup.erase_eq_filter, List.filter_filter]
    refine List.filter_congr fun n _ => ?_
    cases n <;> simp [Node.isSentinel, Node.isStart, Node.isFinish]
  have hf' : Node.finish ∈ g.nodes.toList.erase .start :=
    (List.mem_erase_of_ne (by simp)).2 (Array.mem_toList_iff.2 hf)
  calc g.stageCount = ((g.nodes.toList.erase .start).erase .finish).length := by
        rw [stageCount, hfilter]
    _ = (g.nodes.toList.erase .start).length - 1 := List.length_erase_of_mem hf'
    _ = g.nodes.toList.length - 1 - 1 := by
        rw [List.length_erase_of_mem (Array.mem_toList_iff.2 hs)]
    _ = g.nodeCount - 2 := rfl

/-- `Start` is the only node without predecessors. -/
theorem Ends.source_iff {g : Graph} (h : g.Ends) {n : Node} (hn : n ∈ g.nodes) :
    (∀ a, ¬ g.Adjacent a n) ↔ n = .start := by
  constructor
  · intro hno
    by_contra hne
    obtain ⟨a, ha⟩ := h.entered n hn hne
    exact hno a ha
  · rintro rfl
    exact h.no_entry

/-- `End` is the only node without successors. -/
theorem Ends.sink_iff {g : Graph} (h : g.Ends) {n : Node} (hn : n ∈ g.nodes) :
    (∀ b, ¬ g.Adjacent n b) ↔ n = .finish := by
  constructor
  · intro hno
    by_contra hne
    obtain ⟨b, hb⟩ := h.left n hn hne
    exact hno b hb
  · rintro rfl
    exact h.no_exit

theorem OrderFacts.mem_iff {g : Graph} (h : g.OrderFacts) (n : Node) :
    n ∈ g.topologicalOrder ↔ n ∈ g.nodes :=
  h.perm.mem_iff.trans Array.mem_toList_iff

/-- Nothing is listed before the first node, so it has no predecessor. -/
theorem OrderFacts.head?_eq {g : Graph} (h : g.OrderFacts) (hends : g.Ends)
    (hstart : Node.start ∈ g.nodes) : g.topologicalOrder.head? = some .start := by
  cases hlist : g.topologicalOrder with
  | nil => exact absurd ((h.mem_iff .start).2 hstart) (by simp [hlist])
  | cons n rest =>
    have hn : n ∈ g.nodes := (h.mem_iff n).1 (by simp [hlist])
    have hno : ∀ a, ¬ g.Adjacent a n := fun a ha => by
      simpa using h.forward [] n rest hlist a ha
    rw [(hends.source_iff hn).1 hno]
    rfl

/-- A successor of the last node would come after it, so there is none. -/
theorem OrderFacts.getLast?_eq {g : Graph} (h : g.OrderFacts) (hg : g.WellFormed)
    (hends : g.Ends) (hstart : Node.start ∈ g.nodes) :
    g.topologicalOrder.getLast? = some .finish := by
  rcases List.eq_nil_or_concat g.topologicalOrder with hnil | ⟨before, n, hlist⟩
  · exact absurd ((h.mem_iff .start).2 hstart) (by simp [hnil])
  · have hn : n ∈ g.nodes := (h.mem_iff n).1 (by simp [hlist])
    have hnodup : (before.concat n).Nodup := hlist ▸ h.perm.nodup_iff.2 (nodup_nodes hg)
    have hno : ∀ b, ¬ g.Adjacent n b := by
      intro b hb
      have hb' : b ∈ g.topologicalOrder := (h.mem_iff b).2 hb.mem.2
      obtain ⟨front, back, hsplit⟩ := List.append_of_mem hb'
      have hfront := h.forward front b back hsplit n hb
      rw [hlist, List.concat_eq_append] at hsplit
      -- `n` comes before `b`, and as the last node also behind it
      have hlast : n ∈ b :: back := by
        have := congrArg List.getLast? hsplit
        rw [List.getLast?_concat, List.getLast?_append_of_ne_nil _ (by simp)] at this
        exact List.mem_of_getLast? this.symm
      rw [List.concat_eq_append, hsplit] at hnodup
      exact (List.nodup_append.1 hnodup).2.2 n hfront n hlast rfl
    rw [hlist, List.concat_eq_append, List.getLast?_concat, (hends.sink_iff hn).1 hno]

/-- A stage has numbers from 1 and a name that is trimmed and not blank. -/
theorem named_of_ne_sentinel {n : Node} (hstart : n ≠ .start) (hfinish : n ≠ .finish) :
    1 ≤ n.topology.toNat ∧ 1 ≤ n.ordinal.toNat ∧ n.name ≠ [] ∧ Text.trim n.name = n.name := by
  cases n with
  | start => exact absurd rfl hstart
  | finish => exact absurd rfl hfinish
  | stage s =>
    have hpos : ∀ k : UInt32, k ≠ 0 → 1 ≤ k.toNat := by
      intro k hk
      refine Nat.pos_of_ne_zero fun h0 => hk ?_
      exact UInt32.toNat_inj.1 h0
    exact ⟨hpos _ s.topology_ne_zero, hpos _ s.ordinal_ne_zero, s.name_ne_nil,
      Text.trim_eq_self_of_trimmed s.name_trimmed⟩

/-- A valid graph with one source and one sink is well shaped. -/
theorem wellShaped_of_ends {g : Graph} (hg : g.WellFormed) (hvalid : g.validate = .ok ())
    (h : g.Ends) : g.WellShaped := by
  obtain ⟨hcount, hshort, hac⟩ := (validate_eq_ok_iff hg).1 hvalid
  -- from any node at all, the way back ends at `Start` and the way on at `End`
  obtain ⟨n₀, hn₀⟩ := exists_node (g := g) (i := 0) (Nat.lt_of_le_of_lt (Nat.zero_le 2) hcount)
  have hmem₀ := mem_nodes_of_getElem? hn₀
  have hstart := (mem_of_reflTransGen (h.from_start hg hac hmem₀) (.inr hmem₀)).1
  have hfinish := (mem_of_reflTransGen (h.to_finish hg hac hmem₀) (.inl hmem₀)).2
  have horder := orderFacts_of_acyclic hg hac
  exact
    { start_mem := hstart
      finish_mem := hfinish
      acyclic := hac
      no_loop := fun n hn => hn.ne hg rfl
      no_shortcut := hshort
      source_iff := fun n hn => h.source_iff hn
      sink_iff := fun n hn => h.sink_iff hn
      on_path := fun n hn => ⟨h.from_start hg hac hn, h.to_finish hg hac hn⟩
      named := fun n _ hs hf => named_of_ne_sentinel hs hf
      order_head := horder.head?_eq h hstart
      order_last := horder.getLast?_eq hg h hstart
      order_perm := horder.perm
      summary_eq := by rw [stageCount_eq hg hstart hfinish]; rfl }

end Graph

end StageGraph
