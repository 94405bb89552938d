import Mathlib.Tactic
import StageGraph.Graph.Listing
import StageGraph.Proofs.EdgeList.Attachment
import StageGraph.Proofs.Graph.Calls
import StageGraph.Proofs.Graph.Equality
import StageGraph.Proofs.Graph.Search
import StageGraph.Proofs.Json.Printing
import StageGraph.Proofs.Node.Text

set_option autoImplicit false

/-! # Nodes, edges and graphs are read back

A node is the string of its text and an edge the object of its ends, so both are read back from JSON
because a node is read back from its text. The document of a graph is an object of two arrays:
the nodes and the edges of the graph are read back from these (`read_document`), in their order, and
putting the edges makes the same graph again (`Holds.rebuild`). The whole of it is
`texts_round_trip`.
-/

namespace StageGraph

open Json (ArrayOf Literal Pair Printed)

/-! ## Productions of nodes and edges -/

/-- A string literal that spells a text of the node. -/
def Node.Quoted (n : Node) (s r : Text) : Prop := ∃ t, Literal t s r ∧ Node.read t = .ok n

/-- What is read as the edge: an object of its ends, or an array of them. -/
def Edge.ReadAs (e : Edge) (s r : Text) : Prop :=
  Pair Edge.keys Node.Quoted (e.source, e.target) s r ∨
    ArrayOf Node.Quoted [e.source, e.target] s r

theorem Node.begins_quoted : Json.Begins Node.Quoted := by
  rintro n s r ⟨t, hliteral, -⟩
  exact Json.begins_literal hliteral

theorem Edge.begins_readAs : Json.Begins Edge.ReadAs := fun _ _ _ h =>
  Json.begins_pair h

theorem Node.reads_quoted : Node.reader.Reads Node.Quoted := by
  refine ⟨fun {n s r} => ?_⟩
  rw [Node.reader, (Json.reads_string.andThen _).run_eq_ok]
  constructor
  · rintro ⟨s', hspace, t, hliteral, hnode⟩
    cases hread : Node.read t with
    | error failure =>
      rw [hread] at hnode
      cases hnode
    | ok m =>
      rw [hread] at hnode
      cases hnode
      exact ⟨s', hspace, t, hliteral, hread⟩
  · rintro ⟨s', hspace, t, hliteral, hread⟩
    exact ⟨s', hspace, t, hliteral, by rw [hread]⟩

theorem Edge.reads_readAs : Edge.reader.Reads Edge.ReadAs := by
  refine ⟨fun {e s r} => ?_⟩
  have hpair := Node.reads_quoted.pair Node.begins_quoted (show Edge.keys.2 ≠ Edge.keys.1 by decide)
  rw [Edge.reader, (hpair.andThen _).run_eq_ok]
  constructor
  · rintro ⟨s', hspace, ends, hitem, hedge⟩
    cases hedge
    exact ⟨s', hspace, hitem⟩
  · rintro ⟨s', hspace, hitem⟩
    exact ⟨s', hspace, (e.source, e.target), hitem, rfl⟩

/-! ## What is written -/

theorem Node.written_toJson (n : Node) : Json.Written Node.Quoted n n.toJson := fun s =>
  ⟨n.text, Json.written_string n.text s, n.read_text⟩

theorem Edge.written_toJson (e : Edge) : Json.Written Edge.ReadAs e e.toJson := fun s =>
  .inl (Json.Written.pair (by decide) e.source.written_toJson e.target.written_toJson s)

theorem Node.printed_toJson (n : Node) : Printed Node.Quoted n n.toJson := fun level s =>
  ⟨n.text, Json.printed_string n.text level s, n.read_text⟩

theorem Edge.printed_toJson (e : Edge) : Printed Edge.ReadAs e e.toJson := fun level s =>
  .inl (Printed.pair (by decide) e.source.printed_toJson e.target.printed_toJson level s)

namespace Graph

/-- The keys of the document of a graph. -/
def keys : Text × Text := ("nodes".toList, "edges".toList)

/-- The document of a graph has its nodes under the one key and its edges under the other. -/
theorem read_document (g : Graph) : ∃ nodes edges : Text,
    (Json.Reader.pair keys .raw).read g.document = .ok (nodes, edges) ∧
    (Json.Reader.list Node.reader).read nodes = .ok g.nodes.toList ∧
    (Json.Reader.list Edge.reader).read edges = .ok g.edges := by
  have hnodes : Printed (ArrayOf Node.Quoted) g.nodes.toList
      (.array (g.nodes.toList.map Node.toJson)) :=
    .array (List.forall₂_map_right_iff.2 (List.forall₂_same.2 fun n _ => n.printed_toJson))
  have hedges : Printed (ArrayOf Edge.ReadAs) g.edges (.array (g.edges.map Edge.toJson)) :=
    .array (List.forall₂_map_right_iff.2 (List.forall₂_same.2 fun e _ => e.printed_toJson))
  refine ⟨_, _, Json.read_raw_pair (by decide) _ _, ?_, ?_⟩
  · exact (Node.reads_quoted.list Node.begins_quoted).read_eq_ok.2 (hnodes.document 1)
  · exact (Edge.reads_readAs.list Edge.begins_readAs).read_eq_ok.2 (hedges.document 1)

/-- Putting the edges of a graph makes the same graph again: it has no nodes besides their ends. -/
theorem Holds.rebuild {g : Graph} {es : List (Node × Node)} (h : g.Holds es) :
    ∃ g', Graph.putEdges (endPairs g.edges) .empty = .ok () g' ∧ (g' == g) = true := by
  have hpairs : ∀ p : Node × Node, p ∈ endPairs g.edges ↔ p ∈ es := fun p =>
    mem_endPairs.trans h.mem_edges
  have hloops : ∀ p ∈ endPairs g.edges, p.1 ≠ p.2 := fun p hp =>
    ((h.adjacent_iff _ _).2 ((hpairs p).1 hp)).ne h.wellFormed
  obtain ⟨g', hput, -⟩ := putEdges_ok wellFormed_empty hloops
  have hg' := holds_of_putEdges hput
  exact ⟨g', hput, (hg'.sameAs_iff h).2 hpairs⟩

end Graph

/-- A node is read back from its text, and so different nodes have different texts; the text of the
node that any text is read as is read as the same node. Nodes and edges are read back from JSON, and
a graph that was built from its document: the nodes and the edges in their order, and from the edges
the graph itself. -/
theorem texts_round_trip :
    (∀ n : Node, Node.read n.text = .ok n) ∧ Function.Injective Node.text ∧
    (∀ s c, (Node.read s).map Node.text = .ok c →
      Node.read c = Node.read s ∧ (Node.read c).map Node.text = .ok c) ∧
    (∀ n : Node, Node.reader.read n.toJson.compact = .ok n) ∧
    (∀ e : Edge, Edge.reader.read e.toJson.compact = .ok e) ∧
    ∀ calls g, (Graph.ofCalls calls).validated = .ok g →
      ∃ nodes edges, (Json.Reader.pair Graph.keys .raw).read g.document = .ok (nodes, edges) ∧
        (Json.Reader.list Node.reader).read nodes = .ok g.nodes.toList ∧
        (Json.Reader.list Edge.reader).read edges = .ok g.edges ∧
        ∃ g', Graph.putEdges (endPairs g.edges) .empty = .ok () g' ∧ (g' == g) = true := by
  refine ⟨Node.read_text, Node.text_injective, fun s c h => ?_, fun n => ?_, fun e => ?_,
    fun calls g hbuilt => ?_⟩
  · obtain ⟨n, hread, rfl⟩ := map_eq_ok.1 h
    rw [n.read_text, hread]
    exact ⟨rfl, rfl⟩
  · exact Node.reads_quoted.read_eq_ok.2 n.written_toJson.document
  · exact Edge.reads_readAs.read_eq_ok.2 e.written_toJson.document
  · obtain ⟨-, rfl⟩ := Graph.validated_eq_ok_iff.1 hbuilt
    obtain ⟨nodes, edges, hdocument, hnodes, hedges⟩ := (Graph.ofCalls calls).read_document
    exact ⟨nodes, edges, hdocument, hnodes, hedges, (Graph.holds_ofCalls calls).rebuild⟩

/-- The theorem about a text with white space and another spelling of its numbers, and about the
graph of one stage between the sentinels. -/
theorem texts_round_trip_stage :
    Node.read "1:1:A".toList = Node.read "01:+1: A ".toList ∧
    ∃ (a : Node) (g : Graph) (nodes edges : Text), a = letterStage 'A' rfl ∧
      (Graph.ofCalls [(.start, a), (a, .finish)]).validated = .ok g ∧
      (Json.Reader.pair Graph.keys .raw).read g.document = .ok (nodes, edges) ∧
      (Json.Reader.list Node.reader).read nodes = .ok g.nodes.toList ∧
      (Json.Reader.list Edge.reader).read edges = .ok g.edges ∧
      ∃ g', Graph.putEdges (endPairs g.edges) .empty = .ok () g' ∧ (g' == g) = true := by
  obtain ⟨-, -, hcanonical, -, -, hdocument⟩ := texts_round_trip
  refine ⟨(hcanonical "01:+1: A ".toList "1:1:A".toList (by decide)).1, ?_⟩
  obtain ⟨a, ha⟩ : ∃ a, a = letterStage 'A' rfl := ⟨_, rfl⟩
  have hg := Graph.holds_ofCalls [(.start, a), (a, .finish)]
  have hcalls : Graph.successful [(.start, a), (a, .finish)] = [(.start, a), (a, .finish)] := by
    rw [ha]
    decide
  rw [hcalls] at hg
  have hvalid : (Graph.ofCalls [(.start, a), (a, .finish)]).validate = .ok () := by
    refine (Graph.validate_eq_ok_iff hg.wellFormed).2 ⟨?_, ?_, ?_⟩
    · show 2 < (Graph.ofCalls [(.start, a), (a, .finish)]).nodes.toList.length
      rw [hg.nodes_eq, ha]
      decide
    · rw [hg.adjacent_iff, ha]
      decide
    -- the edges lead from `Start` to the stage and from there to `End`
    · apply Graph.acyclic_of_rank fun n => if n = .start then 0 else if n = .finish then 2 else 1
      intro m n hmn
      rw [hg.adjacent_iff, ha] at hmn
      simp only [List.mem_cons, List.not_mem_nil, or_false, Prod.mk.injEq] at hmn
      rcases hmn with ⟨rfl, rfl⟩ | ⟨rfl, rfl⟩
      · decide
      · decide
  have hbuilt := Graph.validated_eq_ok_iff.2 ⟨hvalid, rfl⟩
  obtain ⟨nodes, edges, h⟩ := hdocument _ _ hbuilt
  exact ⟨a, _, nodes, edges, ha, hbuilt, h⟩

end StageGraph
