import StageGraph.EdgeList.Attachment
import StageGraph.Proofs.Graph.Shape

set_option autoImplicit false

/-! # What an edge list builds

The edges of a list that is built are the listed ones, one from `Start` to every listed node that is
no target, and one to `End` from every listed node that is no source (`mem_attached`,
`adjacent_iff_of_buildListed`). So `Start` is the only source of the graph and `End` its only sink.
-/

namespace StageGraph

/-- The two ends of each edge. -/
def endPairs (edges : List Edge) : List (Node × Node) := edges.map fun e => (e.source, e.target)

theorem mem_endPairs {edges : List Edge} {a b : Node} :
    (a, b) ∈ endPairs edges ↔ (⟨a, b⟩ : Edge) ∈ edges := by
  simp only [endPairs, List.mem_map, Prod.mk.injEq]
  constructor
  · rintro ⟨e, he, rfl, rfl⟩
    exact he
  · intro h
    exact ⟨_, h, rfl, rfl⟩

theorem addListed_cons (e : Edge) (rest : List Edge) (g : Graph) :
    addListed (e :: rest) g =
      if e.source.isSentinel || e.target.isSentinel then .error (.sentinelEndpoint e) g
      else
        match Graph.putEdge e.source e.target g with
        | .error failure g => .error failure g
        | .ok _ g => addListed rest g := by
  rw [addListed]
  by_cases hs : (e.source.isSentinel || e.target.isSentinel) = true
  · rw [if_pos hs, if_pos hs]
    rfl
  · rw [if_neg hs, if_neg hs]
    simp only [bind, EStateM.bind]
    cases Graph.putEdge e.source e.target g with
    | error failure g => rfl
    | ok isNew g => rfl

/-- Listed edges that have been added name no sentinel, and were put in order. -/
theorem addListed_eq_ok {edges : List Edge} {g g' : Graph} (h : addListed edges g = .ok () g') :
    Graph.putEdges (endPairs edges) g = .ok () g' ∧
      ∀ e ∈ edges, e.source.isSentinel = false ∧ e.target.isSentinel = false := by
  induction edges generalizing g with
  | nil => exact ⟨h, by simp⟩
  | cons e rest ih =>
    rw [addListed_cons] at h
    by_cases hs : (e.source.isSentinel || e.target.isSentinel) = true
    · rw [if_pos hs] at h
      cases h
    · rw [if_neg hs] at h
      show Graph.putEdges ((e.source, e.target) :: endPairs rest) g = .ok () g' ∧ _
      rw [Graph.putEdges_cons]
      cases hput : Graph.putEdge e.source e.target g with
      | error failure g₁ => rw [hput] at h; cases h
      | ok isNew g₁ =>
        rw [hput] at h
        obtain ⟨hrest, hnone⟩ := ih h
        exact ⟨hrest, List.forall_mem_cons.2 ⟨by simpa using hs, hnone⟩⟩

theorem mem_listedNodes {edges : List Edge} {n : Node} :
    n ∈ listedNodes edges ↔ ∃ e ∈ edges, n = e.source ∨ n = e.target := by
  simp [listedNodes, List.mem_eraseDups]

theorem mem_firstNodes {edges : List Edge} {n : Node} :
    n ∈ firstNodes edges ↔ n ∈ listedNodes edges ∧ ∀ e ∈ edges, e.target ≠ n := by
  simp [firstNodes, List.all_eq_true]

theorem mem_lastNodes {edges : List Edge} {n : Node} :
    n ∈ lastNodes edges ↔ n ∈ listedNodes edges ∧ ∀ e ∈ edges, e.source ≠ n := by
  simp [lastNodes, List.all_eq_true]

/-- All edges that a list comes to, in the order in which they are put. -/
def attached (edges : List Edge) : List (Node × Node) :=
  endPairs edges ++ ((firstNodes edges).map fun n => (.start, n)) ++
    (lastNodes edges).map fun n => (n, .finish)

theorem buildListed_eq_ok {edges : List Edge} {g g' : Graph}
    (h : buildListed edges g = .ok () g') :
    Graph.putEdges (attached edges) g = .ok () g' ∧
      ∀ e ∈ edges, e.source.isSentinel = false ∧ e.target.isSentinel = false := by
  simp only [buildListed, bind, EStateM.bind] at h
  cases hlisted : addListed edges g with
  | error failure g₁ => rw [hlisted] at h; cases h
  | ok u g₁ =>
    rw [hlisted] at h
    obtain ⟨hput, hnone⟩ := addListed_eq_ok hlisted
    refine ⟨?_, hnone⟩
    rw [attached, Graph.putEdges_append, Graph.putEdges_append, hput]
    simp only at h ⊢
    cases hfirst : Graph.putEdges ((firstNodes edges).map fun n => (.start, n)) g₁ with
    | error failure g₂ => rw [hfirst] at h; cases h
    | ok u g₂ =>
      rw [hfirst] at h
      exact h

theorem mem_attached {edges : List Edge} {a b : Node} :
    (a, b) ∈ attached edges ↔ (⟨a, b⟩ : Edge) ∈ edges ∨ (a = .start ∧ b ∈ firstNodes edges) ∨
      (a ∈ lastNodes edges ∧ b = .finish) := by
  simp only [attached, List.mem_append, mem_endPairs, List.mem_map, Prod.mk.injEq]
  constructor
  · rintro ((h | ⟨n, hn, rfl, rfl⟩) | ⟨n, hn, rfl, rfl⟩)
    · exact Or.inl h
    · exact Or.inr (Or.inl ⟨rfl, hn⟩)
    · exact Or.inr (Or.inr ⟨hn, rfl⟩)
  · rintro (h | ⟨rfl, hn⟩ | ⟨hn, rfl⟩)
    · exact Or.inl (Or.inl h)
    · exact Or.inl (Or.inr ⟨b, hn, rfl, rfl⟩)
    · exact Or.inr ⟨a, hn, rfl, rfl⟩

/-- The edges lead from `Start` or a listed node to `End` or a listed node. -/
theorem ends_of_mem_attached {edges : List Edge} {a b : Node} (h : (a, b) ∈ attached edges) :
    (a = .start ∨ a ∈ listedNodes edges) ∧ (b = .finish ∨ b ∈ listedNodes edges) := by
  rcases mem_attached.1 h with hab | ⟨rfl, hb⟩ | ⟨ha, rfl⟩
  · exact ⟨.inr (mem_listedNodes.2 ⟨_, hab, .inl rfl⟩), .inr (mem_listedNodes.2 ⟨_, hab, .inr rfl⟩)⟩
  · exact ⟨.inl rfl, .inr (mem_firstNodes.1 hb).1⟩
  · exact ⟨.inr (mem_lastNodes.1 ha).1, .inl rfl⟩

/-- A listed node is entered: from a listed one if it is a target, and from `Start` otherwise. -/
theorem exists_attached_into {edges : List Edge} {n : Node} (hn : n ∈ listedNodes edges) :
    ∃ a, (a, n) ∈ attached edges := by
  by_cases htarget : ∃ e ∈ edges, e.target = n
  · obtain ⟨e, he, rfl⟩ := htarget
    exact ⟨e.source, mem_attached.2 (.inl he)⟩
  · push Not at htarget
    exact ⟨.start, mem_attached.2 (.inr (.inl ⟨rfl, mem_firstNodes.2 ⟨hn, htarget⟩⟩))⟩

/-- A listed node is left: for a listed one if it is a source, and for `End` otherwise. -/
theorem exists_attached_from {edges : List Edge} {n : Node} (hn : n ∈ listedNodes edges) :
    ∃ b, (n, b) ∈ attached edges := by
  by_cases hsource : ∃ e ∈ edges, e.source = n
  · obtain ⟨e, he, rfl⟩ := hsource
    exact ⟨e.target, mem_attached.2 (.inl he)⟩
  · push Not at hsource
    exact ⟨.finish, mem_attached.2 (.inr (.inr ⟨mem_lastNodes.2 ⟨hn, hsource⟩, rfl⟩))⟩

/-- The attached edges are what a list that is built adds to the graph. -/
theorem grown_of_buildListed {edges : List Edge} {g : Graph}
    (h : buildListed edges .empty = .ok () g) : Graph.Grown .empty g (attached edges) :=
  Graph.grown_of_putEdges Graph.wellFormed_empty (buildListed_eq_ok h).1

/-- The edges of the graph that a list builds. -/
theorem adjacent_iff_of_buildListed {edges : List Edge} {g : Graph}
    (h : buildListed edges .empty = .ok () g) (a b : Node) :
    g.Adjacent a b ↔ (a, b) ∈ attached edges := by
  rw [(grown_of_buildListed h).adjacent_iff, or_iff_right (Graph.not_adjacent_empty a b)]

/-- Besides sentinels, the graph that a list builds holds the listed nodes. -/
theorem mem_nodes_of_buildListed {edges : List Edge} {g : Graph}
    (h : buildListed edges .empty = .ok () g) {n : Node} (hn : n.isSentinel = false) :
    n ∈ g.nodes ↔ n ∈ listedNodes edges := by
  have hstart : n ≠ .start := by
    rintro rfl
    cases hn
  have hfinish : n ≠ .finish := by
    rintro rfl
    cases hn
  have hnone : n ∉ Graph.empty.nodes := Array.not_mem_empty n
  rw [(grown_of_buildListed h).mem_iff, or_iff_right hnone]
  constructor
  · rintro ⟨⟨a, b⟩, hab, rfl | rfl⟩
    · exact (ends_of_mem_attached hab).1.resolve_left hstart
    · exact (ends_of_mem_attached hab).2.resolve_left hfinish
  · intro hlisted
    obtain ⟨a, ha⟩ := exists_attached_into hlisted
    exact ⟨(a, n), ha, .inr rfl⟩

/-- No listed node is a sentinel. -/
theorem ne_sentinel_of_buildListed {edges : List Edge} {g : Graph}
    (h : buildListed edges .empty = .ok () g) {n : Node} (hn : n ∈ listedNodes edges) :
    n ≠ .start ∧ n ≠ .finish := by
  obtain ⟨e, he, hend⟩ := mem_listedNodes.1 hn
  have hsentinel : n.isSentinel = false := by
    rcases hend with rfl | rfl
    · exact ((buildListed_eq_ok h).2 e he).1
    · exact ((buildListed_eq_ok h).2 e he).2
  constructor
  · rintro rfl
    cases hsentinel
  · rintro rfl
    cases hsentinel

/-- A graph that an edge list builds has one source and one sink. -/
theorem ends_of_buildListed {edges : List Edge} {g : Graph}
    (h : buildListed edges .empty = .ok () g) : g.Ends := by
  have hadj := adjacent_iff_of_buildListed h
  have hlisted : ∀ n ∈ listedNodes edges, n ≠ .start ∧ n ≠ .finish := fun n hn =>
    ne_sentinel_of_buildListed h hn
  -- every node of the graph is an end of an edge that was put
  have hnodes : ∀ n ∈ g.nodes, ∃ a b, (a, b) ∈ attached edges ∧ (n = a ∨ n = b) := by
    intro n hn
    have hnone : n ∉ Graph.empty.nodes := Array.not_mem_empty n
    obtain ⟨⟨a, b⟩, hab, hend⟩ := (((grown_of_buildListed h).mem_iff n).1 hn).resolve_left hnone
    exact ⟨a, b, hab, hend⟩
  refine ⟨fun a ha => ?_, fun b hb => ?_, fun n hn hstart => ?_, fun n hn hfinish => ?_⟩
  · rcases (ends_of_mem_attached ((hadj _ _).1 ha)).2 with hb | hb
    · cases hb
    · exact (hlisted _ hb).1 rfl
  · rcases (ends_of_mem_attached ((hadj _ _).1 hb)).1 with ha | ha
    · cases ha
    · exact (hlisted _ ha).2 rfl
  · obtain ⟨a, b, hab, rfl | rfl⟩ := hnodes n hn
    · have hmem := (ends_of_mem_attached hab).1.resolve_left hstart
      obtain ⟨a, ha⟩ := exists_attached_into hmem
      exact ⟨a, (hadj _ _).2 ha⟩
    · exact ⟨a, (hadj _ _).2 hab⟩
  · obtain ⟨a, b, hab, rfl | rfl⟩ := hnodes n hn
    · exact ⟨b, (hadj _ _).2 hab⟩
    · have hmem := (ends_of_mem_attached hab).2.resolve_left hfinish
      obtain ⟨b, hb⟩ := exists_attached_from hmem
      exact ⟨b, (hadj _ _).2 hb⟩

end StageGraph
