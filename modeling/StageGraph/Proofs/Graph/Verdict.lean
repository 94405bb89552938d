import Mathlib.Tactic
import StageGraph.Proofs.Graph.Calls
import StageGraph.Proofs.Graph.Search
import StageGraph.Proofs.Node.Text

set_option autoImplicit false

/-! # What the validation says

The search for a cycle goes over the numbers of the nodes, and its report is written in nodes. The
nodes of a round make a cycle of the graph (`IsRound.isCycle`), so the report of an invalid graph is
true, whatever calls the graph came from (`verdict_ofCalls`).
-/

namespace StageGraph

/-- The nodes' texts with an arrow between them. -/
theorem text_append_arrowed (first : Node) (others : List Node) :
    first.text ++ arrowed others =
      List.intercalate Edge.arrow ((first :: others).map Node.text) := by
  induction others generalizing first with
  | nil => simp [arrowed]
  | cons n others ih =>
    calc first.text ++ arrowed (n :: others)
        = first.text ++ (Edge.arrow ++ (n.text ++ arrowed others)) := by simp [arrowed]
      _ = first.text ++ (Edge.arrow ++
            List.intercalate Edge.arrow ((n :: others).map Node.text)) := by rw [ih]
      _ = List.intercalate Edge.arrow ((first :: n :: others).map Node.text) := by
          simp

/-! ## Neighbours in a chain -/

section

variable {α : Type} {R : α → α → Prop} {l : List α} {a x : α}

/-- Every member of a chain but the last leads on. -/
theorem exists_next_of_isChain (h : List.IsChain R (l ++ [x])) (ha : a ∈ l) : ∃ b, R a b := by
  obtain ⟨before, after, rfl⟩ := List.append_of_mem ha
  rw [List.append_assoc, List.cons_append] at h
  have hrest := (List.isChain_append.1 h).2.1
  cases after with
  | nil => exact ⟨x, (List.isChain_cons_cons.1 hrest).1⟩
  | cons b after => exact ⟨b, (List.isChain_cons_cons.1 hrest).1⟩

/-- Every member of a chain but the first is led to. -/
theorem exists_prev_of_isChain (h : List.IsChain R (x :: l)) (ha : a ∈ l) : ∃ b, R b a := by
  rw [← List.isChain_reverse, List.reverse_cons] at h
  exact exists_next_of_isChain h (List.mem_reverse.2 ha)

end

namespace Graph

/-- Different nodes of the graph, at least two of them, each of which leads to the next and the last
to the first. -/
structure IsCycle (g : Graph) (first : Node) (others : List Node) : Prop where
  mem : ∀ n ∈ first :: others, n ∈ g.nodes
  nodup : (first :: others).Nodup
  chain : List.IsChain g.Adjacent (first :: others ++ [first])
  others_ne_nil : others ≠ []

/-- Going round a cycle, every node is entered and left. -/
theorem IsCycle.passes {g : Graph} {first : Node} {others : List Node}
    (h : g.IsCycle first others) {n : Node} (hn : n ∈ first :: others ++ [first]) :
    (∃ a, g.Adjacent a n) ∧ ∃ b, g.Adjacent n b := by
  have hmem : n ∈ first :: others := by
    simpa [or_comm, or_assoc] using hn
  refine ⟨exists_prev_of_isChain h.chain (List.mem_append.2 ?_),
    exists_next_of_isChain h.chain hmem⟩
  rw [List.mem_singleton]
  exact (List.mem_cons.1 hmem).symm

/-! ## From numbers to nodes -/

theorem nodesAt_cons {g : Graph} {i : Nat} {n : Node} (hi : g.nodes[i]? = some n)
    (numbers : List Nat) : g.nodesAt (i :: numbers) = n :: g.nodesAt numbers := by
  rw [nodesAt, List.filterMap_cons_some hi, nodesAt]

/-- Numbers each of which leads to the next belong to nodes that do. -/
theorem isChain_nodesAt {g : Graph} {numbers : List Nat} (hlt : ∀ i ∈ numbers, i < g.nodeCount)
    (h : List.IsChain g.Leads numbers) : List.IsChain g.Adjacent (g.nodesAt numbers) := by
  induction numbers with
  | nil => exact List.isChain_nil
  | cons s numbers ih =>
    obtain ⟨hs, hrest⟩ := List.forall_mem_cons.1 hlt
    obtain ⟨a, ha⟩ := exists_node hs
    rw [nodesAt_cons ha]
    cases numbers with
    | nil => exact List.isChain_singleton a
    | cons t numbers =>
      obtain ⟨hst, hchain⟩ := List.isChain_cons_cons.1 h
      obtain ⟨b, hb⟩ := exists_node (hrest t List.mem_cons_self)
      have htail := ih hrest hchain
      rw [nodesAt_cons hb] at htail ⊢
      exact List.isChain_cons_cons.2 ⟨⟨s, t, ha, hb, hst⟩, htail⟩

/-- Every number of a round belongs to a node, since it leads on. -/
theorem IsRound.lt_nodeCount {g : Graph} (hg : g.WellFormed) {w : Nat} {rest : List Nat}
    (h : g.IsRound (w :: rest)) : ∀ i ∈ w :: rest, i < g.nodeCount := by
  intro i hi
  obtain ⟨j, hij⟩ := exists_next_of_isChain h.2 hi
  exact (lt_of_mem_successorsAt hg hij).1

/-- The nodes of a round make a cycle. -/
theorem IsRound.isCycle {g : Graph} (hg : g.WellFormed) {w : Nat} {rest : List Nat}
    (h : g.IsRound (w :: rest)) :
    ∃ first others, g.nodesAt (w :: rest) = first :: others ∧ g.IsCycle first others := by
  have hlt := h.lt_nodeCount hg
  obtain ⟨hnodup, hchain⟩ := h
  obtain ⟨first, hfirst⟩ := exists_node (hlt w List.mem_cons_self)
  have hnodes := nodesAt_cons hfirst rest
  have hround : g.nodesAt (w :: rest ++ [w]) = first :: g.nodesAt rest ++ [first] := by
    rw [nodesAt_append, hnodes, nodesAt_singleton hfirst]
  have hadj : List.IsChain g.Adjacent (first :: g.nodesAt rest ++ [first]) := by
    rw [← hround]
    apply isChain_nodesAt _ hchain
    intro i hi
    rcases List.mem_append.1 hi with hi | hi
    · exact hlt i hi
    · exact hlt i (List.mem_singleton.1 hi ▸ List.mem_cons_self)
  refine ⟨first, g.nodesAt rest, hnodes, ?_, hnodes ▸ nodup_nodesAt hg hnodup, hadj, ?_⟩
  · intro n hn
    rw [← hnodes] at hn
    obtain ⟨i, -, hi⟩ := mem_nodesAt.1 hn
    exact mem_nodes_of_getElem? hi
  -- a round of one node would be a loop
  · intro hnil
    rw [hnil] at hadj
    exact (List.isChain_cons_cons.1 hadj).1.ne hg rfl

/-! ## The report -/

/-- A graph with a cycle is told about one. -/
theorem checkAcyclic_of_not_acyclic {g : Graph} (hg : g.WellFormed) (h : ¬ g.Acyclic) :
    ∃ first others, g.IsCycle first others ∧
      g.checkAcyclic = .error (.invalid (.cycle first others)) := by
  cases hfind : g.findCycle with
  | none => exact absurd ((findCycle_eq_none_iff hg).1 hfind) h
  | some numbers =>
    have hround := isRound_of_findCycle hg hfind
    cases numbers with
    | nil => exact hround.elim
    | cons w rest =>
      obtain ⟨first, others, hnodes, hcycle⟩ := hround.isCycle hg
      refine ⟨first, others, hcycle, ?_⟩
      simp [checkAcyclic, hfind, hnodes]

/-- With the other two conditions met, the validation is the search for a cycle. -/
theorem validate_eq_checkAcyclic {g : Graph} (hg : g.WellFormed) (hcount : 2 < g.nodeCount)
    (hshort : ¬ g.Adjacent .start .finish) : g.validate = g.checkAcyclic := by
  rw [validate, if_neg (Nat.not_le.2 hcount), if_neg (mt (any_isFinish_successorsOf hg).1 hshort),
    if_neg (mt (any_isStart_predecessorsOf hg).1 hshort)]

/-- A cycle is written from its first node round to that node again. -/
theorem message_round (first : Node) (others : List Node) :
    (Invalid.cycle first others).message = "cycle detected: " ++
      String.ofList (List.intercalate Edge.arrow ((first :: others ++ [first]).map Node.text)) := by
  rw [List.cons_append, ← text_append_arrowed]
  rfl

theorem message_cycle (first : Node) (others : List Node) :
    (Failure.invalid (.cycle first others)).message = "invalid topology: cycle detected: " ++
      String.ofList (List.intercalate Edge.arrow ((first :: others ++ [first]).map Node.text)) := by
  have hwords : "invalid topology: " ++ "cycle detected: " =
      "invalid topology: cycle detected: " := by decide
  rw [← hwords, String.append_assoc, ← message_round]
  rfl

/-- A graph that calls have left behind is valid if it has more than two nodes, no edge from `Start`
to `End` and no cycle, and only then; and if a cycle is all that is wrong with it, the report goes
round one of its cycles. -/
theorem verdict_ofCalls (calls : List (Node × Node)) :
    ((ofCalls calls).validate = .ok () ↔ 2 < (ofCalls calls).nodeCount ∧
      ¬ (ofCalls calls).Adjacent .start .finish ∧ (ofCalls calls).Acyclic) ∧
    (2 < (ofCalls calls).nodeCount → ¬ (ofCalls calls).Adjacent .start .finish →
      (∃ n, Relation.TransGen (ofCalls calls).Adjacent n n) →
      ∃ first others, (ofCalls calls).IsCycle first others ∧
        (ofCalls calls).validate = .error (.invalid (.cycle first others)) ∧
        (Failure.invalid (.cycle first others)).message = "invalid topology: cycle detected: " ++
          String.ofList
            (List.intercalate Edge.arrow ((first :: others ++ [first]).map Node.text))) := by
  have hg := wellFormed_ofCalls calls
  constructor
  · exact validate_eq_ok_iff hg
  · rintro hcount hshort ⟨n, hn⟩
    have hcyclic : ¬ (ofCalls calls).Acyclic := fun hac => hac n hn
    obtain ⟨first, others, hcycle, hcheck⟩ := checkAcyclic_of_not_acyclic hg hcyclic
    refine ⟨first, others, hcycle, ?_, message_cycle first others⟩
    rw [validate_eq_checkAcyclic hg hcount hshort, hcheck]

/-- The theorem about two stages that lead to each other, one of them entered from `Start`. -/
theorem verdict_ofCalls_mutual : ∃ a b : Node,
    a = letterStage 'A' rfl ∧ b = letterStage 'B' rfl ∧
    (ofCalls [(.start, a), (a, b), (b, a)]).validate ≠ .ok () ∧
    ∃ first others, (ofCalls [(.start, a), (a, b), (b, a)]).IsCycle first others ∧
      (ofCalls [(.start, a), (a, b), (b, a)]).validate =
        .error (.invalid (.cycle first others)) := by
  obtain ⟨a, ha⟩ : ∃ a, a = letterStage 'A' rfl := ⟨_, rfl⟩
  obtain ⟨b, hb⟩ : ∃ b, b = letterStage 'B' rfl := ⟨_, rfl⟩
  have hcalls : successful [(.start, a), (a, b), (b, a)] = [(.start, a), (a, b), (b, a)] := by
    rw [ha, hb]
    decide
  have hg := holds_ofCalls [(.start, a), (a, b), (b, a)]
  rw [hcalls] at hg
  have hcount : 2 < (ofCalls [(.start, a), (a, b), (b, a)]).nodeCount := by
    show 2 < (ofCalls [(.start, a), (a, b), (b, a)]).nodes.toList.length
    rw [hg.nodes_eq, ha, hb]
    decide
  have hshort : ¬ (ofCalls [(.start, a), (a, b), (b, a)]).Adjacent .start .finish := by
    rw [hg.adjacent_iff, ha, hb]
    decide
  have hround : Relation.TransGen (ofCalls [(.start, a), (a, b), (b, a)]).Adjacent a a := by
    have hthere := (hg.adjacent_iff a b).2 (by simp)
    have hback := (hg.adjacent_iff b a).2 (by simp)
    exact .head hthere (.single hback)
  obtain ⟨hvalid, hreport⟩ := verdict_ofCalls [(.start, a), (a, b), (b, a)]
  obtain ⟨first, others, hcycle, hverdict, -⟩ := hreport hcount hshort ⟨a, hround⟩
  exact ⟨a, b, ha, hb, fun hok => (hvalid.1 hok).2.2 a hround, first, others, hcycle, hverdict⟩

end Graph

end StageGraph
