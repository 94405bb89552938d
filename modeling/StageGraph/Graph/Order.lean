import StageGraph.Graph.Basic

set_option autoImplicit false

/-! # The topological order

A node is ready once all its predecessors are listed. The nodes that are ready wait in a queue;
the one at the front is listed, and each successor for which it was the last missing predecessor
joins the queue at the end. Nodes without predecessors wait first, in the order of the graph.
-/

namespace StageGraph

/-- Takes one missing predecessor away from each of the nodes; the second part of the answer are
the nodes for which it was the last. -/
def release : List Nat → Array Nat → Array Nat × List Nat
  | [], missing => (missing, [])
  | t :: rest, missing =>
    match missing[t]? with
    | some 1 =>
      let (missing, ready) := release rest (missing.setIfInBounds t 0)
      (missing, t :: ready)
    | some (k + 2) => release rest (missing.setIfInBounds t (k + 1))
    -- does not occur: an edge into `t` that has not been followed counts among the missing ones
    | some 0 | none => release rest missing

/-- How many nodes still miss a predecessor. -/
def waitingCount (missing : Array Nat) : Nat := missing.countP (0 < ·)

/-- Every node that becomes ready stops waiting. -/
theorem waitingCount_release (targets : List Nat) (missing : Array Nat) :
    waitingCount (release targets missing).1 + (release targets missing).2.length ≤
      waitingCount missing := by
  induction targets generalizing missing with
  | nil => simp [release]
  | cons t rest ih =>
    unfold release
    split
    · next h1 =>
      obtain ⟨hlt, hget⟩ := Array.getElem?_eq_some_iff.1 h1
      have hpos : 0 < missing.countP (0 < ·) :=
        Array.countP_pos_iff.2 ⟨missing[t], Array.getElem_mem hlt, by simp [hget]⟩
      -- `t` stops waiting
      have hset : waitingCount (missing.setIfInBounds t 0) + 1 = waitingCount missing := by
        unfold waitingCount Array.setIfInBounds
        rw [dif_pos hlt, Array.countP_set]
        simp only [hget]
        simp
        omega
      have := ih (missing.setIfInBounds t 0)
      simp only [List.length_cons]
      omega
    · next k hk =>
      obtain ⟨hlt, hget⟩ := Array.getElem?_eq_some_iff.1 hk
      have hpos : 0 < missing.countP (0 < ·) :=
        Array.countP_pos_iff.2 ⟨missing[t], Array.getElem_mem hlt, by simp [hget]⟩
      -- `t` misses one predecessor fewer, but still waits
      have hset : waitingCount (missing.setIfInBounds t (k + 1)) = waitingCount missing := by
        unfold waitingCount Array.setIfInBounds
        rw [dif_pos hlt, Array.countP_set]
        simp only [hget]
        simp
        omega
      have := ih (missing.setIfInBounds t (k + 1))
      omega
    · exact ih missing
    · exact ih missing

namespace Graph

/-- Lists the nodes of the queue and all that become ready after them. -/
def listReady (g : Graph) (queue : List Nat) (missing : Array Nat) : List Nat :=
  match queue with
  | [] => []
  | i :: queue =>
    let released := release (g.successorsAt i) missing
    i :: g.listReady (queue ++ released.2) released.1
termination_by queue.length + waitingCount missing
decreasing_by
  have := waitingCount_release (g.successorsAt i) missing
  simp only [List.length_append, List.length_cons]
  omega

/-- How many predecessors each node has. -/
def indegrees (g : Graph) : Array Nat := g.predecessors.map Array.size

/-- The nodes, each after all its predecessors; nodes behind a cycle are left out. -/
def topologicalOrder (g : Graph) : List Node :=
  let missing := g.indegrees
  let sources := (List.range g.nodeCount).filter fun i => missing[i]? == some 0
  g.nodesAt (g.listReady sources missing)

end Graph

end StageGraph
