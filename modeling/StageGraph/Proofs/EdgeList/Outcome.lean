import Mathlib.Tactic
import StageGraph.Proofs.EdgeList.Attachment
import StageGraph.Proofs.Graph.Equality
import StageGraph.Proofs.Graph.Insertion
import StageGraph.Proofs.Node.Text

set_option autoImplicit false

/-! # What comes of an edge list

A list that names a sentinel fails for the first edge that does so. Any other list fails if and
only if its edges lead round in a cycle, and its graph is otherwise the list with the two sentinels
attached (`ofListed_outcome`). The order of the edges and their repetition matter to the order in
the graph alone, and to which edge is blamed.
-/

namespace StageGraph

/-- The graph of listed edges, or why there is none. -/
def Graph.ofListed (edges : List Edge) : Except Failure Graph :=
  match buildListed edges .empty with
  | .error failure _ => .error failure
  | .ok () g => g.validated

/-- One of the two ends is a sentinel. -/
def Edge.namesSentinel (e : Edge) : Bool := e.source.isSentinel || e.target.isSentinel

/-- There is a listed edge from `a` to `b`. -/
def Linked (edges : List Edge) (a b : Node) : Prop := (⟨a, b⟩ : Edge) ∈ edges

/-- Reading the list from the left, one meets `a` before `b`. -/
def MetBefore (edges : List Edge) (a b : Node) : Prop :=
  (edges.flatMap fun e => [e.source, e.target]).idxOf a <
    (edges.flatMap fun e => [e.source, e.target]).idxOf b

/-- The two outcomes are the same graph, or failures of the same kind. -/
def SameOutcome : Except Failure Graph → Except Failure Graph → Prop
  | .ok g, .ok h => (g == h) = true
  | .error (.sentinelEndpoint _), .error (.sentinelEndpoint _) => True
  | .error (.invalid _), .error (.invalid _) => True
  | _, _ => False

section

variable {edges : List Edge}

/-! ## Lists that name a sentinel -/

/-- Edges without loops are added up to the first that names a sentinel. -/
theorem addListed_of_sentinel {e : Edge} (hloops : ∀ e ∈ edges, e.source ≠ e.target)
    (hfirst : edges.find? Edge.namesSentinel = some e) (g : Graph) :
    ∃ g', addListed edges g = .error (.sentinelEndpoint e) g' := by
  induction edges generalizing g with
  | nil => cases hfirst
  | cons d rest ih =>
    rw [List.forall_mem_cons] at hloops
    rw [addListed_cons]
    by_cases hd : d.namesSentinel = true
    · rw [List.find?_cons_of_pos hd] at hfirst
      cases hfirst
      exact ⟨g, if_pos hd⟩
    · rw [List.find?_cons_of_neg hd] at hfirst
      obtain ⟨g', h⟩ := ih hloops.2 hfirst (g.addEdge d).2
      refine ⟨g', (if_neg hd).trans ?_⟩
      simpa [Graph.putEdge, Edge.between, hloops.1] using h

theorem buildListed_of_sentinel {e : Edge} (hloops : ∀ e ∈ edges, e.source ≠ e.target)
    (hfirst : edges.find? Edge.namesSentinel = some e) :
    ∃ g, buildListed edges .empty = .error (.sentinelEndpoint e) g := by
  obtain ⟨g, hg⟩ := addListed_of_sentinel hloops hfirst .empty
  exact ⟨g, by simp only [buildListed, bind, EStateM.bind, hg]⟩

theorem ofListed_of_sentinel {e : Edge} (hloops : ∀ e ∈ edges, e.source ≠ e.target)
    (hfirst : edges.find? Edge.namesSentinel = some e) :
    Graph.ofListed edges = .error (.sentinelEndpoint e) := by
  obtain ⟨g, hg⟩ := buildListed_of_sentinel hloops hfirst
  rw [Graph.ofListed, hg]

/-! ## Lists that name none -/

/-- The edges of the list name stages only. -/
def StagesOnly (edges : List Edge) : Prop := ∀ e ∈ edges, e.namesSentinel = false

theorem StagesOnly.isSentinel_eq (h : StagesOnly edges) {n : Node} (hn : n ∈ listedNodes edges) :
    n.isSentinel = false := by
  obtain ⟨e, he, hend⟩ := mem_listedNodes.1 hn
  have hnone := h e he
  rw [Edge.namesSentinel, Bool.or_eq_false_iff] at hnone
  rcases hend with rfl | rfl
  · exact hnone.1
  · exact hnone.2

theorem StagesOnly.ne_sentinel (h : StagesOnly edges) {n : Node} (hn : n ∈ listedNodes edges) :
    n ≠ .start ∧ n ≠ .finish := by
  have hnone := h.isSentinel_eq hn
  constructor
  · rintro rfl
    cases hnone
  · rintro rfl
    cases hnone

theorem addListed_of_stagesOnly (h : StagesOnly edges) (g : Graph) :
    addListed edges g = Graph.putEdges (endPairs edges) g := by
  induction edges generalizing g with
  | nil => rfl
  | cons e rest ih =>
    obtain ⟨he, hrest⟩ := List.forall_mem_cons.1 h
    have hcons : endPairs (e :: rest) = (e.source, e.target) :: endPairs rest := rfl
    have hnone : ¬ (e.source.isSentinel || e.target.isSentinel) = true := by
      rw [← Edge.namesSentinel, he]
      exact Bool.false_ne_true
    rw [addListed_cons, hcons, Graph.putEdges_cons, if_neg hnone]
    cases Graph.putEdge e.source e.target g with
    | error failure g' => rfl
    | ok isNew g' => exact ih hrest g'

theorem buildListed_of_stagesOnly (h : StagesOnly edges) (g : Graph) :
    buildListed edges g = Graph.putEdges (attached edges) g := by
  rw [attached, Graph.putEdges_append, Graph.putEdges_append, ← addListed_of_stagesOnly h]
  simp only [buildListed, bind, EStateM.bind]
  cases addListed edges g with
  | error failure g' => rfl
  | ok u g' =>
    simp only
    cases Graph.putEdges ((firstNodes edges).map fun n => (Node.start, n)) g' with
    | error failure g'' => rfl
    | ok u g'' => rfl

/-- None of the edges that a list comes to is a loop. -/
theorem attached_ne (h : StagesOnly edges) (hloops : ∀ e ∈ edges, e.source ≠ e.target) :
    ∀ e ∈ attached edges, e.1 ≠ e.2 := by
  rintro ⟨a, b⟩ hab
  rcases mem_attached.1 hab with hlisted | ⟨rfl, hb⟩ | ⟨ha, rfl⟩
  · exact hloops _ hlisted
  · exact (h.ne_sentinel (mem_firstNodes.1 hb).1).1.symm
  · exact (h.ne_sentinel (mem_lastNodes.1 ha).1).2

theorem exists_buildListed (h : StagesOnly edges) (hloops : ∀ e ∈ edges, e.source ≠ e.target) :
    ∃ g, buildListed edges .empty = .ok () g := by
  rw [buildListed_of_stagesOnly h]
  obtain ⟨g, hg, -⟩ := Graph.putEdges_ok Graph.wellFormed_empty (attached_ne h hloops)
  exact ⟨g, hg⟩

theorem holds_of_buildListed {g : Graph} (hbuild : buildListed edges .empty = .ok () g) :
    g.Holds (attached edges) :=
  Graph.holds_of_putEdges (buildListed_eq_ok hbuild).1

/-! ## Cycles -/

/-- An edge that neither leaves `Start` nor enters `End` is a listed one. -/
theorem linked_of_adjacent {g : Graph} (hbuild : buildListed edges .empty = .ok () g) {a b : Node}
    (hab : g.Adjacent a b) (ha : a ≠ .start) (hb : b ≠ .finish) : Linked edges a b := by
  rcases mem_attached.1 ((adjacent_iff_of_buildListed hbuild a b).1 hab) with
    hlisted | ⟨hstart, -⟩ | ⟨-, hfinish⟩
  · exact hlisted
  · exact absurd hstart ha
  · exact absurd hfinish hb

/-- A way from stage to stage in the graph is one in the list. -/
theorem transGen_linked {g : Graph} (hbuild : buildListed edges .empty = .ok () g) {a b : Node}
    (hab : Relation.TransGen g.Adjacent a b) (ha : a ≠ .start) (hb : b ≠ .finish) :
    Relation.TransGen (Linked edges) a b := by
  have hends := ends_of_buildListed hbuild
  induction hab using Relation.TransGen.head_induction_on with
  | single hxb => exact .single (linked_of_adjacent hbuild hxb ha hb)
  | @head x y hxy hyb ih =>
    -- `y` has an edge in and an edge out, so it is neither `Start` nor `End`
    obtain ⟨z, hyz, -⟩ := Relation.TransGen.head'_iff.1 hyb
    have hystart : y ≠ .start := by
      rintro rfl
      exact hends.no_entry x hxy
    have hyfinish : y ≠ .finish := by
      rintro rfl
      exact hends.no_exit z hyz
    exact .head (linked_of_adjacent hbuild hxy ha hyfinish) (ih hystart)

/-- The graph that a list builds has a cycle if and only if the list has one. -/
theorem acyclic_iff_of_buildListed {g : Graph} (hbuild : buildListed edges .empty = .ok () g) :
    g.Acyclic ↔ ∀ n, ¬ Relation.TransGen (Linked edges) n n := by
  have hends := ends_of_buildListed hbuild
  constructor
  · intro hac n hn
    have hmono : Linked edges ≤ g.Adjacent := fun a b hab =>
      (adjacent_iff_of_buildListed hbuild a b).2 (mem_attached.2 (.inl hab))
    exact hac n (Relation.TransGen.mono hmono n n hn)
  · intro hnone n hn
    obtain ⟨b, hnb, -⟩ := Relation.TransGen.head'_iff.1 hn
    obtain ⟨a, -, han⟩ := Relation.TransGen.tail'_iff.1 hn
    refine hnone n (transGen_linked hbuild hn ?_ ?_)
    · rintro rfl
      exact hends.no_entry a han
    · rintro rfl
      exact hends.no_exit b hnb

theorem validate_error {g : Graph} {failure : Failure} (h : g.validate = .error failure) :
    ∃ cause, failure = .invalid cause := by
  unfold Graph.validate Graph.checkAcyclic at h
  repeat' split at h
  all_goals cases h
  all_goals exact ⟨_, rfl⟩

/-- A list builds no edge from `Start` to `End`. -/
theorem not_adjacent_start_finish {g : Graph} (hbuild : buildListed edges .empty = .ok () g) :
    ¬ g.Adjacent .start .finish := by
  intro hshort
  have hlisted : ∀ n ∈ listedNodes edges, n ≠ .start ∧ n ≠ .finish := fun n hn =>
    ne_sentinel_of_buildListed hbuild hn
  rcases mem_attached.1 ((adjacent_iff_of_buildListed hbuild _ _).1 hshort) with
    hab | ⟨-, hfinish⟩ | ⟨hstart, -⟩
  · exact (hlisted _ (mem_listedNodes.2 ⟨_, hab, .inl rfl⟩)).1 rfl
  · exact (hlisted _ (mem_firstNodes.1 hfinish).1).2 rfl
  · exact (hlisted _ (mem_lastNodes.1 hstart).1).1 rfl

/-- A list that is not empty and has no cycle builds a valid graph. -/
theorem validate_of_buildListed {g : Graph} (hbuild : buildListed edges .empty = .ok () g)
    (hne : edges ≠ []) (hac : g.Acyclic) : g.validate = .ok () := by
  have hg := (grown_of_buildListed hbuild).wellFormed
  have hends := ends_of_buildListed hbuild
  obtain ⟨e, he⟩ := List.exists_mem_of_ne_nil edges hne
  have hadj : g.Adjacent e.source e.target :=
    (adjacent_iff_of_buildListed hbuild _ _).2 (mem_attached.2 (.inl he))
  have hlisted : ∀ n ∈ listedNodes edges, n ≠ .start ∧ n ≠ .finish := fun n hn =>
    ne_sentinel_of_buildListed hbuild hn
  refine (Graph.validate_eq_ok_iff hg).2 ⟨?_, not_adjacent_start_finish hbuild, hac⟩
  -- besides the two ends of a listed edge, the graph holds `Start`
  have hstart : Node.start ∈ g.nodes :=
    (Graph.mem_of_reflTransGen (hends.from_start hg hac hadj.mem.1) (.inr hadj.mem.1)).1
  have hsource := (hlisted _ (mem_listedNodes.2 ⟨e, he, .inl rfl⟩)).1
  have htarget := (hlisted _ (mem_listedNodes.2 ⟨e, he, .inr rfl⟩)).1
  have hnodup : [Node.start, e.source, e.target].Nodup := by
    simp [hsource.symm, htarget.symm, hadj.ne hg]
  have hsub : [Node.start, e.source, e.target] ⊆ g.nodes.toList := by
    intro n hn
    rw [Array.mem_toList_iff]
    simp only [List.mem_cons, List.not_mem_nil, or_false] at hn
    rcases hn with rfl | rfl | rfl
    · exact hstart
    · exact hadj.mem.1
    · exact hadj.mem.2
  exact (hnodup.subperm hsub).length_le

/-! ## The order at the sentinels -/

theorem targetsFrom_attached (h : StagesOnly edges) :
    Graph.targetsFrom (attached edges) .start = firstNodes edges := by
  have hlisted : (endPairs edges).filter (fun e => e.1 = Node.start) = [] := by
    refine List.filter_eq_nil_iff.2 fun ⟨a, b⟩ hab => ?_
    have ha := (h.ne_sentinel (mem_listedNodes.2 ⟨_, mem_endPairs.1 hab, .inl rfl⟩)).1
    simpa using ha
  have hlast : ((lastNodes edges).map fun n => (n, Node.finish)).filter
      (fun e => e.1 = Node.start) = [] := by
    refine List.filter_eq_nil_iff.2 fun e he => ?_
    obtain ⟨n, hn, rfl⟩ := List.mem_map.1 he
    simpa using (h.ne_sentinel (mem_lastNodes.1 hn).1).1
  simp [Graph.targetsFrom, attached, hlisted, hlast, List.filter_map, Function.comp_def]

theorem sourcesTo_attached (h : StagesOnly edges) :
    Graph.sourcesTo (attached edges) .finish = lastNodes edges := by
  have hlisted : (endPairs edges).filter (fun e => e.2 = Node.finish) = [] := by
    refine List.filter_eq_nil_iff.2 fun ⟨a, b⟩ hab => ?_
    have hb := (h.ne_sentinel (mem_listedNodes.2 ⟨_, mem_endPairs.1 hab, .inr rfl⟩)).2
    simpa using hb
  have hfirst : ((firstNodes edges).map fun n => (Node.start, n)).filter
      (fun e => e.2 = Node.finish) = [] := by
    refine List.filter_eq_nil_iff.2 fun e he => ?_
    obtain ⟨n, hn, rfl⟩ := List.mem_map.1 he
    simpa using (h.ne_sentinel (mem_firstNodes.1 hn).1).2
  simp [Graph.sourcesTo, attached, hlisted, hfirst, List.filter_map, Function.comp_def]

/-- `Start` is followed and `End` preceded by nodes in the order in which the list names them. -/
theorem ordered_of_buildListed (h : StagesOnly edges) {g : Graph}
    (hbuild : buildListed edges .empty = .ok () g) :
    (g.successorsOf .start).Pairwise (MetBefore edges) ∧
      (g.predecessorsOf .finish).Pairwise (MetBefore edges) := by
  have hholds := holds_of_buildListed hbuild
  have hlisted : (listedNodes edges).Pairwise (MetBefore edges) := pairwise_eraseDups _
  have hnodup : (listedNodes edges).Nodup := nodup_eraseDups _
  rw [hholds.successors_eq, hholds.predecessors_eq, targetsFrom_attached h, sourcesTo_attached h,
    firstNodes, lastNodes, eraseDups_of_nodup (hnodup.filter _),
    eraseDups_of_nodup (hnodup.filter _)]
  exact ⟨hlisted.filter _, hlisted.filter _⟩

/-! ## The outcome -/

/-- What the list builds is the outcome if it is valid. -/
theorem ofListed_of_buildListed {g : Graph} (hbuild : buildListed edges .empty = .ok () g) :
    Graph.ofListed edges = g.validated := by
  rw [Graph.ofListed, hbuild]

theorem ofListed_of_cycle (h : StagesOnly edges) (hloops : ∀ e ∈ edges, e.source ≠ e.target)
    (hcycle : ∃ n, Relation.TransGen (Linked edges) n n) :
    ∃ cause, Graph.ofListed edges = .error (.invalid cause) := by
  obtain ⟨g, hbuild⟩ := exists_buildListed h hloops
  have hg := (grown_of_buildListed hbuild).wellFormed
  rw [ofListed_of_buildListed hbuild, Graph.validated]
  cases hvalid : g.validate with
  | error failure =>
    obtain ⟨cause, rfl⟩ := validate_error hvalid
    exact ⟨cause, rfl⟩
  | ok u =>
    have hac := ((Graph.validate_eq_ok_iff hg).1 hvalid).2.2
    obtain ⟨n, hn⟩ := hcycle
    exact absurd hn ((acyclic_iff_of_buildListed hbuild).1 hac n)

theorem ofListed_of_acyclic (h : StagesOnly edges) (hloops : ∀ e ∈ edges, e.source ≠ e.target)
    (hne : edges ≠ []) (hac : ∀ n, ¬ Relation.TransGen (Linked edges) n n) :
    ∃ g, Graph.ofListed edges = .ok g ∧ buildListed edges .empty = .ok () g := by
  obtain ⟨g, hbuild⟩ := exists_buildListed h hloops
  have hvalid := validate_of_buildListed hbuild hne ((acyclic_iff_of_buildListed hbuild).2 hac)
  refine ⟨g, ?_, hbuild⟩
  rw [ofListed_of_buildListed hbuild]
  exact Graph.validated_eq_ok_iff.2 ⟨hvalid, rfl⟩

/-- A single edge between two stages builds a valid graph. -/
theorem exists_valid_of_edge {e : Edge} (hsentinel : e.namesSentinel = false)
    (hloop : e.source ≠ e.target) :
    ∃ g, buildListed [e] .empty = .ok () g ∧ g.validate = .ok () := by
  have hac : ∀ n, ¬ Relation.TransGen (Linked [e]) n n := by
    intro n hn
    obtain ⟨m, hnm, -⟩ := Relation.TransGen.head'_iff.1 hn
    obtain ⟨l, -, hln⟩ := Relation.TransGen.tail'_iff.1 hn
    obtain rfl := List.mem_singleton.1 hnm
    cases List.mem_singleton.1 hln
    exact hloop rfl
  obtain ⟨g, hok, hbuild⟩ := ofListed_of_acyclic (List.forall_mem_singleton.2 hsentinel)
    (List.forall_mem_singleton.2 hloop) (List.cons_ne_nil e []) hac
  rw [ofListed_of_buildListed hbuild, Graph.validated_eq_ok_iff] at hok
  exact ⟨g, hbuild, hok.1⟩

theorem attached_congr {edges' : List Edge} (hsame : ∀ e, e ∈ edges' ↔ e ∈ edges) (a b : Node) :
    (a, b) ∈ attached edges' ↔ (a, b) ∈ attached edges := by
  have hlisted : ∀ n, n ∈ listedNodes edges' ↔ n ∈ listedNodes edges := fun n => by
    simp only [mem_listedNodes, hsame]
  simp only [mem_attached, mem_firstNodes, mem_lastNodes, hsame, hlisted]

/-- The outcome depends on the set of listed edges only. -/
theorem sameOutcome_of_same {edges' : List Edge} (hne : edges ≠ [])
    (hloops : ∀ e ∈ edges, e.source ≠ e.target) (hsame : ∀ e, e ∈ edges' ↔ e ∈ edges) :
    SameOutcome (Graph.ofListed edges) (Graph.ofListed edges') := by
  have hloops' : ∀ e ∈ edges', e.source ≠ e.target := fun e he => hloops e ((hsame e).1 he)
  have hne' : edges' ≠ [] := by
    obtain ⟨e, he⟩ := List.exists_mem_of_ne_nil edges hne
    exact List.ne_nil_of_mem ((hsame e).2 he)
  have hlinked : Linked edges' = Linked edges := by
    funext a b
    exact propext (hsame _)
  by_cases hstages : StagesOnly edges
  · have hstages' : StagesOnly edges' := fun e he => hstages e ((hsame e).1 he)
    by_cases hac : ∀ n, ¬ Relation.TransGen (Linked edges) n n
    · obtain ⟨g, hok, hbuild⟩ := ofListed_of_acyclic hstages hloops hne hac
      obtain ⟨g', hok', hbuild'⟩ :=
        ofListed_of_acyclic hstages' hloops' hne' (by rwa [hlinked])
      rw [hok, hok']
      refine ((holds_of_buildListed hbuild).sameAs_iff (holds_of_buildListed hbuild')).2 fun e => ?_
      exact (attached_congr hsame e.1 e.2).symm
    · push Not at hac
      obtain ⟨cause, herror⟩ := ofListed_of_cycle hstages hloops hac
      obtain ⟨cause', herror'⟩ := ofListed_of_cycle hstages' hloops' (by rwa [hlinked])
      rw [herror, herror']
      trivial
  · have hfirst : ∀ {es : List Edge}, ¬ StagesOnly es →
        ∃ e, es.find? Edge.namesSentinel = some e := by
      intro es hes
      rw [← Option.isSome_iff_exists, List.find?_isSome]
      simpa [StagesOnly] using hes
    have hstages' : ¬ StagesOnly edges' := fun h => hstages fun e he => h e ((hsame e).2 he)
    obtain ⟨e, he⟩ := hfirst hstages
    obtain ⟨e', he'⟩ := hfirst hstages'
    rw [ofListed_of_sentinel hloops he, ofListed_of_sentinel hloops' he']
    trivial

/-- What comes of a list without loops: a sentinel is blamed on the first edge that names one; a
cycle makes the list invalid; and otherwise the graph holds the listed edges with `Start` in front
of the nodes that are no target, and `End` behind those that are no source, in the order in which
the list names them. The order and the repetition of the edges do not matter beyond that. -/
theorem ofListed_outcome (hne : edges ≠ []) (hloops : ∀ e ∈ edges, e.source ≠ e.target) :
    (∀ e, edges.find? Edge.namesSentinel = some e →
      Graph.ofListed edges = .error (.sentinelEndpoint e) ∧
        (Failure.sentinelEndpoint e).message =
          "edge-list node cannot be Start or End: " ++ String.ofList e.text) ∧
    (edges.find? Edge.namesSentinel = none → (∃ n, Relation.TransGen (Linked edges) n n) →
      ∃ cause, Graph.ofListed edges = .error (.invalid cause)) ∧
    (edges.find? Edge.namesSentinel = none → (∀ n, ¬ Relation.TransGen (Linked edges) n n) →
      ∃ g, Graph.ofListed edges = .ok g ∧
        (∀ e, e ∈ g.edges ↔ e ∈ edges ∨
          (e.source = .start ∧ (∃ d ∈ edges, e.target = d.source ∨ e.target = d.target) ∧
            ∀ d ∈ edges, d.target ≠ e.target) ∨
          (e.target = .finish ∧ (∃ d ∈ edges, e.source = d.source ∨ e.source = d.target) ∧
            ∀ d ∈ edges, d.source ≠ e.source)) ∧
        (g.successorsOf .start).Pairwise (MetBefore edges) ∧
        (g.predecessorsOf .finish).Pairwise (MetBefore edges)) ∧
    ∀ edges', (∀ e, e ∈ edges' ↔ e ∈ edges) →
      SameOutcome (Graph.ofListed edges) (Graph.ofListed edges') := by
  have hstages : edges.find? Edge.namesSentinel = none → StagesOnly edges := fun hnone e he => by
    simpa using List.find?_eq_none.1 hnone e he
  refine ⟨fun e he => ⟨ofListed_of_sentinel hloops he, rfl⟩,
    fun hnone => ofListed_of_cycle (hstages hnone) hloops, fun hnone hac => ?_,
    fun edges' hsame => sameOutcome_of_same hne hloops hsame⟩
  obtain ⟨g, hok, hbuild⟩ := ofListed_of_acyclic (hstages hnone) hloops hne hac
  refine ⟨g, hok, fun e => ?_, ordered_of_buildListed (hstages hnone) hbuild⟩
  have hg := (grown_of_buildListed hbuild).wellFormed
  rw [Graph.mem_edges hg, adjacent_iff_of_buildListed hbuild, mem_attached, mem_firstNodes,
    mem_lastNodes, mem_listedNodes, mem_listedNodes]
  simp only [and_comm]

end

/-- The theorem about a list with a sentinel, about a cycle, and about a fork with one edge
twice. -/
theorem ofListed_outcome_fork : ∃ a b c,
    a = letterStage 'A' rfl ∧ b = letterStage 'B' rfl ∧ c = letterStage 'C' rfl ∧
    Graph.ofListed [⟨a, b⟩, ⟨b, .finish⟩] = .error (.sentinelEndpoint ⟨b, .finish⟩) ∧
    (∃ cause, Graph.ofListed [⟨a, b⟩, ⟨b, a⟩] = .error (.invalid cause)) ∧
    (∃ g, Graph.ofListed [⟨a, c⟩, ⟨a, b⟩, ⟨a, c⟩] = .ok g ∧ ⟨.start, a⟩ ∈ g.edges ∧
      (g.predecessorsOf .finish).Pairwise (MetBefore [⟨a, c⟩, ⟨a, b⟩, ⟨a, c⟩])) ∧
    SameOutcome (Graph.ofListed [⟨a, c⟩, ⟨a, b⟩, ⟨a, c⟩]) (Graph.ofListed [⟨a, b⟩, ⟨a, c⟩]) := by
  obtain ⟨a, ha⟩ : ∃ a, a = letterStage 'A' rfl := ⟨_, rfl⟩
  obtain ⟨b, hb⟩ : ∃ b, b = letterStage 'B' rfl := ⟨_, rfl⟩
  obtain ⟨c, hc⟩ : ∃ c, c = letterStage 'C' rfl := ⟨_, rfl⟩
  have hab : a ≠ b := by rw [ha, hb]; exact letterStage_ne _ _ (by decide)
  have hac : a ≠ c := by rw [ha, hc]; exact letterStage_ne _ _ (by decide)
  have hnone : ∀ n ∈ [a, b, c], n.isSentinel = false := by
    rw [ha, hb, hc]
    simp [letterStage, Node.isSentinel, Node.isStart, Node.isFinish]
  refine ⟨a, b, c, ha, hb, hc, ?_⟩
  clear ha hb hc
  have hfork := @ofListed_outcome [⟨a, c⟩, ⟨a, b⟩, ⟨a, c⟩] (by simp) (by simp [hab, hac])
  -- every edge of the fork leads away from `a`, so a way round would have to lead back to it
  have hacyclic : ∀ n, ¬ Relation.TransGen (Linked [⟨a, c⟩, ⟨a, b⟩, ⟨a, c⟩]) n n := by
    intro n hn
    obtain ⟨m, hnm, -⟩ := Relation.TransGen.head'_iff.1 hn
    obtain ⟨l, -, hln⟩ := Relation.TransGen.tail'_iff.1 hn
    simp only [Linked, List.mem_cons, Edge.mk.injEq, List.not_mem_nil, or_false] at hnm hln
    grind
  obtain ⟨g, hg, hedges, -, hlast⟩ :=
    hfork.2.2.1 (by simp [Edge.namesSentinel, hnone]) hacyclic
  refine ⟨?_, ?_, ⟨g, hg, ?_, hlast⟩, hfork.2.2.2 _ (by simp only [List.mem_cons]; tauto)⟩
  · have hfinish : b ≠ .finish := by
      rintro rfl
      cases hnone .finish (by simp)
    have hlist := @ofListed_outcome [⟨a, b⟩, ⟨b, .finish⟩] (by simp) (by simp [hab, hfinish])
    have hfirst : (⟨a, b⟩ : Edge).namesSentinel = false := by simp [Edge.namesSentinel, hnone]
    have hsecond : (⟨b, .finish⟩ : Edge).namesSentinel = true := Bool.or_true _
    exact (hlist.1 _ (by simp [hfirst, hsecond])).1
  · have hround := @ofListed_outcome [⟨a, b⟩, ⟨b, a⟩] (by simp) (by simp [hab, hab.symm])
    refine hround.2.1 (by simp [Edge.namesSentinel, hnone]) ⟨a, ?_⟩
    have hback : Relation.TransGen (Linked [⟨a, b⟩, ⟨b, a⟩]) b a := .single (by simp [Linked])
    exact .head (by simp [Linked]) hback
  · refine (hedges _).2 (.inr (.inl ⟨rfl, ⟨_, List.mem_cons_self, .inl rfl⟩, ?_⟩))
    simp [hab.symm, hac.symm]

end StageGraph
