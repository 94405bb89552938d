import Mathlib.Tactic
import StageGraph.Proofs.Graph.Verdict
import StageGraph.Proofs.Reserved

set_option autoImplicit false

/-! # What a list with a cycle is told

A list of stages whose edges lead round in a cycle is invalid. The failure names such a cycle, made
of listed edges, provided that the list names more than two nodes. With two nodes the cycle is all
there is: no node is left for `Start` to lead to, nor for `End` to follow, so the graph consists of
these two nodes and is refused for its size before any cycle is looked for (`compile_cyclic`).
-/

namespace StageGraph

section

variable {edges : List Edge} {g : Graph}

/-! ## How many nodes there are -/

theorem nodup_listedNodes (edges : List Edge) : (listedNodes edges).Nodup := nodup_eraseDups _

/-- A cycle leads through two nodes at least. -/
theorem exists_linked_of_cycle (hloops : ∀ e ∈ edges, e.source ≠ e.target)
    (hcycle : ∃ n, Relation.TransGen (Linked edges) n n) :
    ∃ a n b, Linked edges a n ∧ Linked edges n b ∧ a ≠ n ∧ n ≠ b := by
  obtain ⟨n, hn⟩ := hcycle
  obtain ⟨b, hnb, -⟩ := Relation.TransGen.head'_iff.1 hn
  obtain ⟨a, -, han⟩ := Relation.TransGen.tail'_iff.1 hn
  exact ⟨a, n, b, han, hnb, hloops _ han, hloops _ hnb⟩

theorem Linked.mem_listedNodes {a b : Node} (h : Linked edges a b) :
    a ∈ listedNodes edges ∧ b ∈ listedNodes edges :=
  ⟨StageGraph.mem_listedNodes.2 ⟨_, h, .inl rfl⟩, StageGraph.mem_listedNodes.2 ⟨_, h, .inr rfl⟩⟩

theorem two_le_length_listedNodes (hloops : ∀ e ∈ edges, e.source ≠ e.target)
    (hcycle : ∃ n, Relation.TransGen (Linked edges) n n) : 2 ≤ (listedNodes edges).length := by
  obtain ⟨-, n, b, -, hnb, -, hne⟩ := exists_linked_of_cycle hloops hcycle
  have hnodup : [n, b].Nodup := by simp [hne]
  have hsub : [n, b] ⊆ listedNodes edges := by
    simp [hnb.mem_listedNodes]
  exact (hnodup.subperm hsub).length_le

/-- With two nodes that lead to each other, nothing is attached to the sentinels. -/
theorem attached_of_two (hloops : ∀ e ∈ edges, e.source ≠ e.target)
    (hcycle : ∃ n, Relation.TransGen (Linked edges) n n) (htwo : (listedNodes edges).length = 2) :
    attached edges = endPairs edges := by
  obtain ⟨a, n, b, han, hnb, hane, hbne⟩ := exists_linked_of_cycle hloops hcycle
  -- the node before `n` and the node behind it are the only other one
  have hsub : [n, b] ⊆ listedNodes edges := by
    simp [hnb.mem_listedNodes]
  have hperm : [n, b].Perm (listedNodes edges) := by
    refine ((List.Nodup.subperm (by simp [hbne]) hsub).perm_of_length_le ?_)
    rw [htwo]
    rfl
  have hmem : ∀ {m}, m ∈ listedNodes edges → m = n ∨ m = b := fun hm => by
    simpa using hperm.mem_iff.2 hm
  obtain rfl : a = b := (hmem han.mem_listedNodes.1).resolve_left hane
  have hfirst : firstNodes edges = [] := by
    refine List.eq_nil_iff_forall_not_mem.2 fun m hm => ?_
    obtain ⟨hlisted, htarget⟩ := mem_firstNodes.1 hm
    rcases hmem hlisted with rfl | rfl
    · exact htarget _ han rfl
    · exact htarget _ hnb rfl
  have hlast : lastNodes edges = [] := by
    refine List.eq_nil_iff_forall_not_mem.2 fun m hm => ?_
    obtain ⟨hlisted, hsource⟩ := mem_lastNodes.1 hm
    rcases hmem hlisted with rfl | rfl
    · exact hsource _ hnb rfl
    · exact hsource _ han rfl
  simp [attached, hfirst, hlast]

/-- A graph to which nothing is attached holds the listed nodes only. -/
theorem nodes_of_attached (hbuild : buildListed edges .empty = .ok () g)
    (hnone : attached edges = endPairs edges) : g.nodes.toList = listedNodes edges := by
  rw [(holds_of_buildListed hbuild).nodes_eq, hnone, listedNodes]
  simp [Graph.endsOf, endPairs, List.flatMap_map]

/-- A graph holds all listed nodes. -/
theorem length_listedNodes_le (hbuild : buildListed edges .empty = .ok () g) :
    (listedNodes edges).length ≤ g.nodeCount := by
  have hstages := stagesOnly_of_buildListed hbuild
  refine ((nodup_listedNodes edges).subperm fun n hn => ?_).length_le
  rw [Array.mem_toList_iff]
  exact (mem_nodes_of_buildListed hbuild (hstages.isSentinel_eq hn)).2 hn

/-! ## The cycle in the failure -/

/-- A cycle of the graph is one of the list, for it leads through neither sentinel. -/
theorem isChain_linked (hbuild : buildListed edges .empty = .ok () g) {first : Node}
    {others : List Node} (h : g.IsCycle first others) :
    List.IsChain (Linked edges) (first :: others ++ [first]) := by
  have hends := ends_of_buildListed hbuild
  refine h.chain.imp_of_mem_imp fun a b ha hb hab => linked_of_adjacent hbuild hab ?_ ?_
  · rintro rfl
    obtain ⟨⟨c, hc⟩, -⟩ := h.passes ha
    exact hends.no_entry c hc
  · rintro rfl
    obtain ⟨-, c, hc⟩ := h.passes hb
    exact hends.no_exit c hc

end

section

variable {t : Text} {form : Form} {edges : List Edge}

/-- Two nodes that lead to each other are too few for a graph. -/
theorem compile_of_two_listed (hdetect : Form.detect (Text.trim t) = .ok (some (form, edges)))
    (hstages : StagesOnly edges) (hcycle : ∃ n, Relation.TransGen (Linked edges) n n)
    (htwo : (listedNodes edges).length = 2) :
    compile t = .error (.invalid (.ofExpression (.noStage 2) (Text.trim t))) := by
  have hloops := (Form.of_detect hdetect).2
  obtain ⟨g, hbuild⟩ := exists_buildListed hstages hloops
  have hcount : g.nodeCount = 2 := by
    rw [Graph.nodeCount, ← Array.length_toList,
      nodes_of_attached hbuild (attached_of_two hloops hcycle htwo), htwo]
  rw [compile_list_built hdetect hbuild, Graph.validated, Graph.validate, hcount]
  rfl

/-- With more nodes the cycle that the search meets is named. -/
theorem compile_of_more_listed (hdetect : Form.detect (Text.trim t) = .ok (some (form, edges)))
    (hstages : StagesOnly edges) (hcycle : ∃ n, Relation.TransGen (Linked edges) n n)
    (hmore : 2 < (listedNodes edges).length) :
    ∃ first others, (first :: others).Nodup ∧ others ≠ [] ∧
      List.IsChain (Linked edges) (first :: others ++ [first]) ∧
      compile t = .error (.invalid (.ofExpression (.cycle first others) (Text.trim t))) := by
  obtain ⟨g, hbuild⟩ := exists_buildListed hstages (Form.of_detect hdetect).2
  have hg := (grown_of_buildListed hbuild).wellFormed
  have hcyclic : ¬ g.Acyclic := by
    obtain ⟨n, hn⟩ := hcycle
    exact fun hac => (acyclic_iff_of_buildListed hbuild).1 hac n hn
  obtain ⟨first, others, hround, hcheck⟩ := Graph.checkAcyclic_of_not_acyclic hg hcyclic
  refine ⟨first, others, hround.nodup, hround.others_ne_nil, isChain_linked hbuild hround, ?_⟩
  have hcount : 2 < g.nodeCount := Nat.lt_of_lt_of_le hmore (length_listedNodes_le hbuild)
  rw [compile_list_built hdetect hbuild, Graph.validated,
    Graph.validate_eq_checkAcyclic hg hcount (not_adjacent_start_finish hbuild), hcheck]
  rfl

/-- What a list of stages is told whose edges lead round in a cycle. It names two nodes or more. If
there are more, the failure names a cycle of listed edges through different nodes, and its message
writes it out; the two nodes of a list that has no more are called too few instead. -/
theorem compile_cyclic (hdetect : Form.detect (Text.trim t) = .ok (some (form, edges)))
    (hstages : StagesOnly edges) (hcycle : ∃ n, Relation.TransGen (Linked edges) n n) :
    2 ≤ (listedNodes edges).length ∧
    ((listedNodes edges).length = 2 →
      compile t = .error (.invalid (.ofExpression (.noStage 2) (Text.trim t)))) ∧
    (2 < (listedNodes edges).length →
      ∃ first others, (first :: others).Nodup ∧ others ≠ [] ∧
        List.IsChain (Linked edges) (first :: others ++ [first]) ∧
        compile t = .error (.invalid (.ofExpression (.cycle first others) (Text.trim t))) ∧
        (Failure.invalid (.ofExpression (.cycle first others) (Text.trim t))).message =
          "invalid topology: " ++ Text.remarkOn ("cycle detected: " ++ String.ofList
            (List.intercalate Edge.arrow ((first :: others ++ [first]).map Node.text)))
              (Text.trim t)) := by
  refine ⟨two_le_length_listedNodes (Form.of_detect hdetect).2 hcycle,
    compile_of_two_listed hdetect hstages hcycle, fun hmore => ?_⟩
  obtain ⟨first, others, hnodup, hne, hchain, herror⟩ :=
    compile_of_more_listed hdetect hstages hcycle hmore
  refine ⟨first, others, hnodup, hne, hchain, herror, ?_⟩
  rw [← Graph.message_round]
  rfl

end

/-! ## Two stages that lead to each other -/

/-- The first two edges lead there and back. -/
theorem exists_cycle_mutual (a b : Node) (rest : List Edge) :
    ∃ n, Relation.TransGen (Linked (⟨a, b⟩ :: ⟨b, a⟩ :: rest)) n n := by
  have hback : Relation.TransGen (Linked (⟨a, b⟩ :: ⟨b, a⟩ :: rest)) b a :=
    .single (List.mem_cons_of_mem _ List.mem_cons_self)
  exact ⟨a, .head List.mem_cons_self hback⟩

/-- Edges with names that hold no dash are read back from their array of strings. -/
theorem detect_of_encode {t : Text} {edges : List Edge} (hne : edges ≠ [])
    (hloops : ∀ e ∈ edges, e.source ≠ e.target)
    (hnames : ∀ e ∈ edges, '-' ∉ e.source.name ∧ '-' ∉ e.target.name)
    (ht : Text.trim t = Form.strings.encode edges) :
    Form.detect (Text.trim t) = .ok (some (.strings, edges)) := by
  rw [ht]
  exact Form.detect_encode hne fun e he => ⟨hloops e he, fun _ =>
    ⟨.of_not_mem (hnames e he).1, .of_not_mem (hnames e he).2⟩⟩

/-- A list of two edges between two stages, there and back. -/
theorem exists_mutual_list : ∃ edges,
    Form.detect (Text.trim "[\"1:1:A -> 1:1:B\",\"1:1:B -> 1:1:A\"]".toList) =
      .ok (some (.strings, edges)) ∧
    StagesOnly edges ∧ (listedNodes edges).length = 2 ∧
    ∃ n, Relation.TransGen (Linked edges) n n := by
  obtain ⟨a, ha⟩ : ∃ a, a = letterStage 'A' rfl := ⟨_, rfl⟩
  obtain ⟨b, hb⟩ : ∃ b, b = letterStage 'B' rfl := ⟨_, rfl⟩
  refine ⟨[⟨a, b⟩, ⟨b, a⟩], ?_, ?_, ?_, exists_cycle_mutual a b []⟩
  · rw [ha, hb]
    exact detect_of_encode (by simp) (by decide) (by decide) (by decide)
  · rw [ha, hb, StagesOnly]
    decide
  · rw [ha, hb]
    decide

/-- Two stages that lead to each other, alone and with a third one behind them. -/
theorem compile_cyclic_mutual :
    compile "[\"1:1:A -> 1:1:B\",\"1:1:B -> 1:1:A\"]".toList = .error (.invalid
      (.ofExpression (.noStage 2) "[\"1:1:A -> 1:1:B\",\"1:1:B -> 1:1:A\"]".toList)) ∧
    ∃ a b c, a = letterStage 'A' rfl ∧ b = letterStage 'B' rfl ∧ c = letterStage 'C' rfl ∧
      ∃ first others, (first :: others).Nodup ∧
        List.IsChain (Linked [⟨a, b⟩, ⟨b, a⟩, ⟨b, c⟩]) (first :: others ++ [first]) ∧
        compile "[\"1:1:A -> 1:1:B\",\"1:1:B -> 1:1:A\",\"1:1:B -> 1:1:C\"]".toList =
          .error (.invalid (.ofExpression (.cycle first others)
            "[\"1:1:A -> 1:1:B\",\"1:1:B -> 1:1:A\",\"1:1:B -> 1:1:C\"]".toList)) := by
  constructor
  · obtain ⟨edges, hdetect, hstages, htwo, hcycle⟩ := exists_mutual_list
    exact (compile_cyclic hdetect hstages hcycle).2.1 htwo
  · obtain ⟨a, ha⟩ : ∃ a, a = letterStage 'A' rfl := ⟨_, rfl⟩
    obtain ⟨b, hb⟩ : ∃ b, b = letterStage 'B' rfl := ⟨_, rfl⟩
    obtain ⟨c, hc⟩ : ∃ c, c = letterStage 'C' rfl := ⟨_, rfl⟩
    have hdetect : Form.detect (Text.trim
        "[\"1:1:A -> 1:1:B\",\"1:1:B -> 1:1:A\",\"1:1:B -> 1:1:C\"]".toList) =
        .ok (some (.strings, [⟨a, b⟩, ⟨b, a⟩, ⟨b, c⟩])) := by
      rw [ha, hb, hc]
      exact detect_of_encode (by simp) (by decide) (by decide) (by decide)
    have hstages : StagesOnly [⟨a, b⟩, ⟨b, a⟩, ⟨b, c⟩] := by
      rw [ha, hb, hc, StagesOnly]
      decide
    obtain ⟨first, others, hnodup, -, hchain, herror, -⟩ :=
      (compile_cyclic hdetect hstages (exists_cycle_mutual a b _)).2.2
        (by rw [ha, hb, hc]; decide)
    exact ⟨a, b, c, ha, hb, hc, first, others, hnodup, hchain, herror⟩

/-- A list with a cycle that is told about none. -/
theorem compile_mutual_names_no_cycle : ∃ form edges,
    Form.detect (Text.trim "[\"1:1:A -> 1:1:B\",\"1:1:B -> 1:1:A\"]".toList) =
      .ok (some (form, edges)) ∧
    StagesOnly edges ∧ (∃ n, Relation.TransGen (Linked edges) n n) ∧
    ¬ ∃ first others, compile "[\"1:1:A -> 1:1:B\",\"1:1:B -> 1:1:A\"]".toList =
      .error (.invalid (.ofExpression (.cycle first others)
        "[\"1:1:A -> 1:1:B\",\"1:1:B -> 1:1:A\"]".toList)) := by
  obtain ⟨edges, hdetect, hstages, htwo, hcycle⟩ := exists_mutual_list
  refine ⟨_, _, hdetect, hstages, hcycle, ?_⟩
  rintro ⟨first, others, herror⟩
  rw [compile_of_two_listed hdetect hstages hcycle htwo] at herror
  cases herror

end StageGraph
