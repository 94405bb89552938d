import Mathlib.Tactic
import StageGraph.Proofs.Graph.Insertion

set_option autoImplicit false

/-! # Graphs that calls leave behind

Whoever puts edges one at a time may go on after a call that failed. `Graph.ofCalls` is the graph
that a sequence of calls leaves behind, the failing ones among them. A call fails for a loop only,
and then it leaves the graph as it was; so the graph holds the successful calls in their order
(`holds_ofCalls`), and in particular its tables agree (`wellFormed_ofCalls`).
-/

namespace StageGraph

namespace Graph

/-- The graph after one call, whether or not the edge could be put. -/
def afterPut (g : Graph) (e : Node × Node) : Graph :=
  match putEdge e.1 e.2 g with
  | .ok _ g' => g'
  | .error _ g' => g'

/-- The graph that these calls leave behind. -/
def ofCalls (calls : List (Node × Node)) : Graph := calls.foldl afterPut empty

/-- The calls that succeed: those between different nodes. -/
def successful (calls : List (Node × Node)) : List (Node × Node) :=
  calls.filter fun e => e.1 ≠ e.2

theorem successful_eq_self {calls : List (Node × Node)} (h : ∀ e ∈ calls, e.1 ≠ e.2) :
    successful calls = calls :=
  List.filter_eq_self.2 fun e he => decide_eq_true (h e he)

/-! ## One call -/

/-- A call for a loop leaves the graph as it was. -/
theorem afterPut_self (g : Graph) (a : Node) : g.afterPut (a, a) = g := by
  rw [afterPut, putEdge_self]

theorem afterPut_of_ne {a b : Node} (h : a ≠ b) (g : Graph) :
    g.afterPut (a, b) = (g.addEdge ⟨a, b⟩).2 := by
  rw [afterPut, putEdge_of_ne h]

theorem Holds.afterPut {g : Graph} {es : List (Node × Node)} (h : g.Holds es) (e : Node × Node) :
    (g.afterPut e).Holds (es ++ successful [e]) := by
  obtain ⟨a, b⟩ := e
  by_cases hab : a = b
  · subst hab
    have hnone : successful [(a, a)] = [] := by simp [successful]
    rw [afterPut_self, hnone, List.append_nil]
    exact h
  · rw [afterPut_of_ne hab, successful_eq_self (by simpa using hab)]
    exact h.addEdge hab

/-! ## A sequence of calls -/

theorem Holds.foldl_afterPut {g : Graph} {es : List (Node × Node)} (h : g.Holds es)
    (calls : List (Node × Node)) :
    (calls.foldl Graph.afterPut g).Holds (es ++ successful calls) := by
  induction calls generalizing g es with
  | nil => simpa [successful] using h
  | cons e calls ih =>
    have hsplit : successful (e :: calls) = successful [e] ++ successful calls :=
      List.filter_append [e] calls
    rw [List.foldl_cons, hsplit, ← List.append_assoc]
    exact ih (h.afterPut e)

/-- The calls leave the successful ones among them behind, in their order. -/
theorem holds_ofCalls (calls : List (Node × Node)) : (ofCalls calls).Holds (successful calls) := by
  have h := holds_empty.foldl_afterPut calls
  rwa [List.nil_append] at h

theorem wellFormed_ofCalls (calls : List (Node × Node)) : (ofCalls calls).WellFormed :=
  (holds_ofCalls calls).wellFormed

end Graph

end StageGraph
