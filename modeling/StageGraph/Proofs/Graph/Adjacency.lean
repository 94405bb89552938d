import Mathlib.Logic.Relation
import Mathlib.Tactic
import StageGraph.Graph.Basic

set_option autoImplicit false

/-! # What a graph keeps while it grows

The tables of a graph say the same thing several times over: the index repeats the list of nodes,
and the predecessors repeat the successors. `Graph.WellFormed` says that they agree. The graph
without nodes is well formed, and `Graph.putEdge` keeps a graph so.

`Graph.Adjacent` is the edge relation that such a graph holds, and `mem_nodes_of_putEdges` and
`adjacent_of_putEdges` say what a list of edges adds to it.
-/

namespace StageGraph

namespace Graph

/-- The tables of the graph agree with each other. -/
structure WellFormed (g : Graph) : Prop where
  index_iff : ∀ (n : Node) (i : Nat), g.index[n]? = some i ↔ g.nodes[i]? = some n
  size_successors : g.successors.size = g.nodes.size
  size_predecessors : g.predecessors.size = g.nodes.size
  mirrored : ∀ s t, t ∈ g.successorsAt s ↔ s ∈ g.predecessorsAt t
  nodup_successors : ∀ s, (g.successorsAt s).Nodup
  nodup_predecessors : ∀ t, (g.predecessorsAt t).Nodup
  irreflexive : ∀ s, s ∉ g.successorsAt s

/-- There is an edge from `a` to `b`. -/
def Adjacent (g : Graph) (a b : Node) : Prop :=
  ∃ s t, g.nodes[s]? = some a ∧ g.nodes[t]? = some b ∧ t ∈ g.successorsAt s

theorem successorsAt_of_le {g : Graph} (h : g.WellFormed) {s : Nat} (hs : g.nodeCount ≤ s) :
    g.successorsAt s = [] := by
  have : g.successors.size ≤ s := by rw [h.size_successors]; exact hs
  simp [successorsAt, Array.getD, Nat.not_lt.2 this]

theorem predecessorsAt_of_le {g : Graph} (h : g.WellFormed) {t : Nat} (ht : g.nodeCount ≤ t) :
    g.predecessorsAt t = [] := by
  have : g.predecessors.size ≤ t := by rw [h.size_predecessors]; exact ht
  simp [predecessorsAt, Array.getD, Nat.not_lt.2 this]

theorem lt_of_mem_successorsAt {g : Graph} (h : g.WellFormed) {s t : Nat}
    (hm : t ∈ g.successorsAt s) : s < g.nodeCount ∧ t < g.nodeCount := by
  constructor
  · by_contra hs
    rw [successorsAt_of_le h (Nat.not_lt.1 hs)] at hm
    cases hm
  · by_contra ht
    rw [h.mirrored, predecessorsAt_of_le h (Nat.not_lt.1 ht)] at hm
    cases hm

/-- A node has one number only. -/
theorem number_unique {g : Graph} (h : g.WellFormed) {n : Node} {i j : Nat}
    (hi : g.nodes[i]? = some n) (hj : g.nodes[j]? = some n) : i = j := by
  rw [← h.index_iff] at hi hj
  exact Option.some.inj (hi.symm.trans hj)

theorem mem_nodes_of_getElem? {g : Graph} {n : Node} {i : Nat} (hi : g.nodes[i]? = some n) :
    n ∈ g.nodes :=
  Array.mem_of_getElem? hi

theorem exists_node {g : Graph} {i : Nat} (hi : i < g.nodeCount) :
    ∃ n, g.nodes[i]? = some n := ⟨g.nodes[i], Array.getElem?_eq_getElem hi⟩

theorem Adjacent.mem {g : Graph} {a b : Node} (h : g.Adjacent a b) :
    a ∈ g.nodes ∧ b ∈ g.nodes := by
  obtain ⟨s, t, hs, ht, -⟩ := h
  exact ⟨mem_nodes_of_getElem? hs, mem_nodes_of_getElem? ht⟩

theorem Adjacent.ne {g : Graph} (hg : g.WellFormed) {a b : Node} (h : g.Adjacent a b) :
    a ≠ b := by
  rintro rfl
  obtain ⟨s, t, hs, ht, hm⟩ := h
  rw [number_unique hg hs ht] at hm
  exact hg.irreflexive t hm

/-! ## The views of a well-formed graph -/

theorem mem_nodesAt {g : Graph} {numbers : List Nat} {n : Node} :
    n ∈ g.nodesAt numbers ↔ ∃ i ∈ numbers, g.nodes[i]? = some n := by
  simp [nodesAt]

theorem mem_successorsOf {g : Graph} (h : g.WellFormed) {a b : Node} :
    b ∈ g.successorsOf a ↔ g.Adjacent a b := by
  unfold successorsOf
  constructor
  · intro hb
    split at hb
    · next s hs =>
      obtain ⟨t, ht, hbt⟩ := mem_nodesAt.1 hb
      exact ⟨s, t, (h.index_iff a s).1 hs, hbt, ht⟩
    · cases hb
  · rintro ⟨s, t, hs, ht, hm⟩
    rw [(h.index_iff a s).2 hs]
    exact mem_nodesAt.2 ⟨t, hm, ht⟩

theorem mem_predecessorsOf {g : Graph} (h : g.WellFormed) {a b : Node} :
    a ∈ g.predecessorsOf b ↔ g.Adjacent a b := by
  unfold predecessorsOf
  constructor
  · intro ha
    split at ha
    · next t ht =>
      obtain ⟨s, hs, has⟩ := mem_nodesAt.1 ha
      exact ⟨s, t, has, (h.index_iff b t).1 ht, (h.mirrored s t).2 hs⟩
    · cases ha
  · rintro ⟨s, t, hs, ht, hm⟩
    rw [(h.index_iff b t).2 ht]
    exact mem_nodesAt.2 ⟨s, (h.mirrored s t).1 hm, hs⟩

theorem mem_edges {g : Graph} (h : g.WellFormed) {e : Edge} :
    e ∈ g.edges ↔ g.Adjacent e.source e.target := by
  have hsize : g.successors.toList.length = g.nodes.toList.length := h.size_successors
  simp only [edges, List.mem_flatMap, List.mem_map, Prod.exists]
  constructor
  · rintro ⟨a, targets, hzip, b, hb, rfl⟩
    obtain ⟨s, hs⟩ := List.mem_iff_getElem?.1 hzip
    obtain ⟨t, ht, hbt⟩ := mem_nodesAt.1 hb
    rw [List.getElem?_zip_eq_some] at hs
    refine ⟨s, t, by simpa using hs.1, hbt, ?_⟩
    have : g.successors[s]? = some targets := by simpa using hs.2
    simpa [successorsAt, Array.getD_eq_getD_getElem?, this] using ht
  · rintro ⟨s, t, hs, ht, hm⟩
    have hlt : s < g.successors.size := by
      rw [h.size_successors]
      exact (lt_of_mem_successorsAt h hm).1
    refine ⟨e.source, g.successors[s], ?_, e.target, mem_nodesAt.2 ⟨t, ?_, ht⟩, rfl⟩
    · refine List.mem_iff_getElem?.2 ⟨s, List.getElem?_zip_eq_some.2 ⟨by simpa using hs, ?_⟩⟩
      simp [hlt]
    · simpa [successorsAt, hlt] using hm

/-! ## Growing -/

theorem wellFormed_empty : empty.WellFormed where
  index_iff n i := by simp [empty]
  size_successors := rfl
  size_predecessors := rfl
  mirrored s t := by simp [empty, successorsAt, predecessorsAt]
  nodup_successors s := by simp [empty, successorsAt]
  nodup_predecessors t := by simp [empty, predecessorsAt]
  irreflexive s := by simp [empty, successorsAt]

theorem not_adjacent_empty (a b : Node) : ¬ empty.Adjacent a b := by
  rintro ⟨s, t, hs, -⟩
  simp [empty] at hs

/-- What adding a node does: the node has a number afterwards, no number changes, and no edge comes
or goes. -/
structure Added (g g' : Graph) (n : Node) (i : Nat) : Prop where
  wellFormed : g'.WellFormed
  number : g'.nodes[i]? = some n
  kept : ∀ (j : Nat) m, g.nodes[j]? = some m → g'.nodes[j]? = some m
  mem_iff : ∀ m, m ∈ g'.nodes ↔ m ∈ g.nodes ∨ m = n
  successors_eq : ∀ s, g'.successorsAt s = g.successorsAt s
  predecessors_eq : ∀ t, g'.predecessorsAt t = g.predecessorsAt t

theorem toList_getD_push_nil (a : Array (Array Nat)) (s : Nat) :
    ((a.push #[]).getD s #[]).toList = (a.getD s #[]).toList := by
  simp only [Array.getD_eq_getD_getElem?, Array.getElem?_push]
  split
  · next h => simp [h]
  · rfl

/-- A node that is there already keeps its number. -/
theorem added_of_index {g : Graph} (h : g.WellFormed) {n : Node} {i : Nat}
    (hi : g.index[n]? = some i) : Added g g n i := by
  have hnum : g.nodes[i]? = some n := (h.index_iff n i).1 hi
  refine ⟨h, hnum, fun _ _ hj => hj, fun m => ?_, fun _ => rfl, fun _ => rfl⟩
  constructor
  · exact Or.inl
  · rintro (hm | rfl)
    · exact hm
    · exact mem_nodes_of_getElem? hnum

/-- The index of a new node agrees with its place at the end of the list. -/
theorem index_insert_iff {g : Graph} (h : g.WellFormed) {n : Node} (hnone : g.index[n]? = none)
    (m : Node) (i : Nat) :
    (g.index.insert n g.nodeCount)[m]? = some i ↔ (g.nodes.push n)[i]? = some m := by
  have hnew : g.nodes[i]? ≠ some n := by
    intro hi
    rw [← h.index_iff, hnone] at hi
    cases hi
  simp only [Std.HashMap.getElem?_insert, Array.getElem?_push, nodeCount]
  by_cases hi : i = g.nodes.size
  -- the new number is that of the new node only
  · subst hi
    rw [if_pos rfl]
    constructor
    · intro hm
      split at hm
      · next hnm => rw [eq_of_beq hnm]
      · rw [h.index_iff, Array.getElem?_eq_none (Nat.le_refl _)] at hm
        cases hm
    · intro hm
      rw [if_pos (by simp [Option.some.inj hm])]
  -- any other number is that of the same node as before
  · rw [if_neg hi]
    constructor
    · intro hm
      split at hm
      · exact absurd (Option.some.inj hm).symm hi
      · exact (h.index_iff m i).1 hm
    · intro hm
      rw [if_neg fun hnm => hnew (by rw [eq_of_beq hnm]; exact hm)]
      exact (h.index_iff m i).2 hm

theorem added_addNode {g : Graph} (h : g.WellFormed) (n : Node) :
    Added g (g.addNode n).2 n (g.addNode n).1 := by
  unfold addNode
  split
  · next i hi => exact added_of_index h hi
  · next hnone =>
    have hsucc : ∀ s, ((g.successors.push #[]).getD s #[]).toList = g.successorsAt s :=
      toList_getD_push_nil g.successors
    have hpred : ∀ t, ((g.predecessors.push #[]).getD t #[]).toList = g.predecessorsAt t :=
      toList_getD_push_nil g.predecessors
    refine ⟨⟨index_insert_iff h hnone, by simp [h.size_successors], by simp [h.size_predecessors],
      fun s t => ?_, fun s => ?_, fun t => ?_, fun s => ?_⟩, by simp [nodeCount], fun j m hj => ?_,
      fun m => ?_, hsucc, hpred⟩
    · show t ∈ ((g.successors.push #[]).getD s #[]).toList ↔
        s ∈ ((g.predecessors.push #[]).getD t #[]).toList
      rw [hsucc, hpred]
      exact h.mirrored s t
    · show ((g.successors.push #[]).getD s #[]).toList.Nodup
      rw [hsucc]
      exact h.nodup_successors s
    · show ((g.predecessors.push #[]).getD t #[]).toList.Nodup
      rw [hpred]
      exact h.nodup_predecessors t
    · show s ∉ ((g.successors.push #[]).getD s #[]).toList
      rw [hsucc]
      exact h.irreflexive s
    · obtain ⟨hlt, -⟩ := Array.getElem?_eq_some_iff.1 hj
      rw [Array.getElem?_push, if_neg (Nat.ne_of_lt hlt)]
      exact hj
    · simp [Array.mem_push]

/-- What joining two numbers does to the table of successors or of predecessors. -/
theorem toList_getD_modify_push {a : Array (Array Nat)} {s : Nat} (hs : s < a.size) (t i : Nat) :
    ((a.modify s (·.push t)).getD i #[]).toList =
      if i = s then (a.getD i #[]).toList ++ [t] else (a.getD i #[]).toList := by
  simp only [Array.getD_eq_getD_getElem?, Array.getElem?_modify]
  by_cases hi : i = s
  · subst hi
    simp [hs]
  · simp [hi, Ne.symm hi]

/-- Joining two different numbers keeps the graph well formed and adds one edge between them, if it
was not there already. -/
theorem wellFormed_join {g : Graph} (h : g.WellFormed) {s t : Nat} (hs : s < g.nodeCount)
    (ht : t < g.nodeCount) (hne : s ≠ t) :
    (g.join s t).2.WellFormed ∧ (g.join s t).2.nodes = g.nodes ∧
      ∀ i j, j ∈ (g.join s t).2.successorsAt i ↔ j ∈ g.successorsAt i ∨ (i = s ∧ j = t) := by
  unfold join
  split
  -- the edge is there already
  · next hold =>
    refine ⟨h, rfl, fun i j => ?_⟩
    constructor
    · exact Or.inl
    · rintro (hij | ⟨rfl, rfl⟩)
      · exact hij
      · simpa using hold
  -- both tables get the edge: `t` succeeds `s`, and `s` precedes `t`
  · next hnew =>
    have hst : t ∉ g.successorsAt s := by simpa using hnew
    have hts : s ∉ g.predecessorsAt t := fun hmem => hst ((h.mirrored s t).2 hmem)
    have hsucc : ∀ i, ((g.successors.modify s (·.push t)).getD i #[]).toList =
        if i = s then g.successorsAt i ++ [t] else g.successorsAt i :=
      toList_getD_modify_push (by rw [h.size_successors]; exact hs) t
    have hpred : ∀ i, ((g.predecessors.modify t (·.push s)).getD i #[]).toList =
        if i = t then g.predecessorsAt i ++ [s] else g.predecessorsAt i :=
      toList_getD_modify_push (by rw [h.size_predecessors]; exact ht) s
    have hmem : ∀ i j, j ∈ ((g.successors.modify s (·.push t)).getD i #[]).toList ↔
        j ∈ g.successorsAt i ∨ (i = s ∧ j = t) := by
      intro i j
      rw [hsucc]
      split
      · next hi => simp [hi]
      · next hi => simp [hi]
    refine ⟨⟨h.index_iff, by simp [h.size_successors], by simp [h.size_predecessors],
      fun i j => ?_, fun i => ?_, fun j => ?_, fun i => ?_⟩, rfl, hmem⟩
    · show j ∈ ((g.successors.modify s (·.push t)).getD i #[]).toList ↔
        i ∈ ((g.predecessors.modify t (·.push s)).getD j #[]).toList
      rw [hmem, hpred, h.mirrored]
      split
      · next hj => simp [hj]
      · next hj => simp [hj]
    · show ((g.successors.modify s (·.push t)).getD i #[]).toList.Nodup
      rw [hsucc]
      split
      · next hi =>
        subst hi
        exact List.nodup_append.2 ⟨h.nodup_successors i, by simp, by
          rintro a ha b hb rfl
          exact hst (List.mem_singleton.1 hb ▸ ha)⟩
      · exact h.nodup_successors i
    · show ((g.predecessors.modify t (·.push s)).getD j #[]).toList.Nodup
      rw [hpred]
      split
      · next hj =>
        subst hj
        exact List.nodup_append.2 ⟨h.nodup_predecessors j, by simp, by
          rintro a ha b hb rfl
          exact hts (List.mem_singleton.1 hb ▸ ha)⟩
      · exact h.nodup_predecessors j
    · show i ∉ ((g.successors.modify s (·.push t)).getD i #[]).toList
      rw [hmem]
      rintro (hi | ⟨rfl, hi⟩)
      · exact h.irreflexive i hi
      · exact hne hi

/-- What putting an edge does to the nodes and to the edges. -/
structure Put (g g' : Graph) (a b : Node) : Prop where
  wellFormed : g'.WellFormed
  mem_iff : ∀ n, n ∈ g'.nodes ↔ n ∈ g.nodes ∨ n = a ∨ n = b
  adjacent_iff : ∀ x y, g'.Adjacent x y ↔ g.Adjacent x y ∨ (x = a ∧ y = b)

theorem put_addEdge {g : Graph} (h : g.WellFormed) {a b : Node} (hne : a ≠ b) :
    Put g (g.addEdge ⟨a, b⟩).2 a b := by
  unfold addEdge
  have h₁ := added_addNode h a
  set g₁ := (g.addNode a).2 with hg₁
  set s := (g.addNode a).1 with hs
  have h₂ := added_addNode h₁.wellFormed b
  set g₂ := (g₁.addNode b).2 with hg₂
  set t := (g₁.addNode b).1 with ht
  have hsa : g₂.nodes[s]? = some a := h₂.kept s a h₁.number
  have htb : g₂.nodes[t]? = some b := h₂.number
  have hst : s ≠ t := by
    rintro hst
    rw [hst, htb] at hsa
    exact hne (Option.some.inj hsa).symm
  have hlt : ∀ {i : Nat} {n : Node}, g₂.nodes[i]? = some n → i < g₂.nodeCount :=
    fun hi => (Array.getElem?_eq_some_iff.1 hi).1
  obtain ⟨hwf, hnodes, hmem⟩ := wellFormed_join h₂.wellFormed (hlt hsa) (hlt htb) hst
  show Put g (g₂.join s t).2 a b
  refine ⟨hwf, fun n => ?_, fun x y => ?_⟩
  · rw [hnodes, h₂.mem_iff, h₁.mem_iff, or_assoc]
  · constructor
    · rintro ⟨i, j, hi, hj, hij⟩
      rw [hnodes] at hi hj
      rcases (hmem i j).1 hij with hij | ⟨rfl, rfl⟩
      -- an old edge joins old numbers, and these still belong to the same nodes
      · left
        rw [h₂.successors_eq, h₁.successors_eq] at hij
        obtain ⟨hi', hj'⟩ := lt_of_mem_successorsAt h hij
        obtain ⟨m, hm⟩ := exists_node hi'
        obtain ⟨n, hn⟩ := exists_node hj'
        have hmx : m = x := by
          have := h₂.kept i m (h₁.kept i m hm)
          exact Option.some.inj (this.symm.trans hi)
        have hny : n = y := by
          have := h₂.kept j n (h₁.kept j n hn)
          exact Option.some.inj (this.symm.trans hj)
        exact ⟨i, j, hmx ▸ hm, hny ▸ hn, hij⟩
      · right
        exact ⟨Option.some.inj (hi.symm.trans hsa), Option.some.inj (hj.symm.trans htb)⟩
    · rintro (⟨i, j, hi, hj, hij⟩ | ⟨rfl, rfl⟩)
      · refine ⟨i, j, ?_, ?_, (hmem i j).2 (Or.inl ?_)⟩
        · rw [hnodes]; exact h₂.kept i x (h₁.kept i x hi)
        · rw [hnodes]; exact h₂.kept j y (h₁.kept j y hj)
        · rw [h₂.successors_eq, h₁.successors_eq]; exact hij
      · exact ⟨s, t, by rw [hnodes]; exact hsa, by rw [hnodes]; exact htb,
          (hmem s t).2 (Or.inr ⟨rfl, rfl⟩)⟩

theorem putEdge_of_ne {a b : Node} (h : a ≠ b) (g : Graph) :
    putEdge a b g = .ok (g.addEdge ⟨a, b⟩).1 (g.addEdge ⟨a, b⟩).2 := by
  simp [putEdge, Edge.between, h]

theorem putEdge_ok {g : Graph} (h : g.WellFormed) {a b : Node} (hne : a ≠ b) :
    ∃ isNew g', putEdge a b g = .ok isNew g' ∧ Put g g' a b :=
  ⟨_, _, putEdge_of_ne hne g, put_addEdge h hne⟩

theorem putEdge_self (g : Graph) (a : Node) :
    putEdge a a g = .error (.invalid (.selfLoop a)) g := by
  simp [putEdge, Edge.between]

/-! ## Growing by a list of edges -/

theorem putEdges_cons (a b : Node) (rest : List (Node × Node)) (g : Graph) :
    putEdges ((a, b) :: rest) g =
      match putEdge a b g with
      | .ok _ g' => putEdges rest g'
      | .error failure g' => .error failure g' := by
  simp only [putEdges, bind, EStateM.bind]
  cases putEdge a b g <;> rfl

theorem putEdges_append (xs ys : List (Node × Node)) (g : Graph) :
    putEdges (xs ++ ys) g =
      match putEdges xs g with
      | .ok () g' => putEdges ys g'
      | .error failure g' => .error failure g' := by
  induction xs generalizing g with
  | nil => rfl
  | cons e xs ih =>
    obtain ⟨a, b⟩ := e
    rw [List.cons_append, putEdges_cons, putEdges_cons]
    cases putEdge a b g with
    | ok isNew g' => exact ih g'
    | error failure g' => rfl

/-- What a list of edges adds to the nodes and to the edges. -/
structure Grown (g g' : Graph) (es : List (Node × Node)) : Prop where
  wellFormed : g'.WellFormed
  mem_iff : ∀ n, n ∈ g'.nodes ↔ n ∈ g.nodes ∨ ∃ e ∈ es, n = e.1 ∨ n = e.2
  adjacent_iff : ∀ x y, g'.Adjacent x y ↔ g.Adjacent x y ∨ (x, y) ∈ es

theorem Put.grown {g g' : Graph} {a b : Node} (h : Put g g' a b) : Grown g g' [(a, b)] :=
  ⟨h.wellFormed, fun n => by simp [h.mem_iff], fun x y => by simp [h.adjacent_iff]⟩

theorem Grown.refl {g : Graph} (h : g.WellFormed) : Grown g g [] := ⟨h, by simp, by simp⟩

theorem Grown.trans {g g' g'' : Graph} {es es' : List (Node × Node)} (h : Grown g g' es)
    (h' : Grown g' g'' es') : Grown g g'' (es ++ es') := by
  refine ⟨h'.wellFormed, fun n => ?_, fun x y => ?_⟩
  · rw [h'.mem_iff, h.mem_iff, or_assoc]
    simp only [List.mem_append, or_and_right, exists_or]
  · rw [h'.adjacent_iff, h.adjacent_iff, List.mem_append, or_assoc]

/-- A list of edges none of which is a loop can be put. -/
theorem putEdges_ok {g : Graph} (h : g.WellFormed) {es : List (Node × Node)}
    (hne : ∀ e ∈ es, e.1 ≠ e.2) : ∃ g', putEdges es g = .ok () g' ∧ Grown g g' es := by
  induction es generalizing g with
  | nil => exact ⟨g, rfl, .refl h⟩
  | cons e es ih =>
    obtain ⟨a, b⟩ := e
    obtain ⟨isNew, g₁, hput, h₁⟩ := putEdge_ok h (hne (a, b) List.mem_cons_self)
    obtain ⟨g₂, hrest, h₂⟩ := ih h₁.wellFormed fun e he => hne e (List.mem_cons_of_mem _ he)
    refine ⟨g₂, ?_, h₁.grown.trans h₂⟩
    rw [putEdges_cons, hput]
    exact hrest

/-- A list of edges that has been put held no loop. -/
theorem grown_of_putEdges {g g' : Graph} (h : g.WellFormed) {es : List (Node × Node)}
    (hput : putEdges es g = .ok () g') : Grown g g' es := by
  have hne : ∀ e ∈ es, e.1 ≠ e.2 := by
    clear h
    induction es generalizing g with
    | nil => simp
    | cons e es ih =>
      obtain ⟨a, b⟩ := e
      rw [putEdges_cons] at hput
      by_cases hab : a = b
      · subst hab
        rw [putEdge_self] at hput
        cases hput
      · cases hp : putEdge a b g with
        | error failure g₁ => rw [hp] at hput; cases hput
        | ok isNew g₁ =>
          rw [hp] at hput
          exact List.forall_mem_cons.2 ⟨hab, ih hput⟩
  obtain ⟨g₁, hok, hgrown⟩ := putEdges_ok h hne
  rw [hok] at hput
  cases hput
  exact hgrown

end Graph

end StageGraph
