import StageGraph.Graph.Basic

set_option autoImplicit false

/-! # Which graphs are valid

A valid graph has a stage, no edge straight from `Start` to `End`, and no cycle. The search for a
cycle goes depth first over an explicit path: each entry of the path is a node together with its
successors still to be looked at. An edge back to a node on the path closes a cycle, which is
reported from that node round to it again. `Start` is searched from first, then every node in the
order of the graph, so a cycle that `Start` does not reach is found too.
-/

namespace StageGraph

/-- How far the search has come with a node. -/
inductive Visit where
  /-- The search has not reached the node. -/
  | unseen
  /-- The node is on the current path. -/
  | onPath
  /-- The node and all it leads to have been searched. -/
  | finished
deriving DecidableEq

namespace Visit

/-- How many nodes the search has not reached. -/
def unseenCount (marks : Array Visit) : Nat := marks.countP (· = unseen)

theorem unseenCount_set_of_ne (marks : Array Visit) (v : Nat) {mark : Visit} (h : mark ≠ unseen) :
    unseenCount (marks.setIfInBounds v mark) ≤ unseenCount marks := by
  unfold unseenCount Array.setIfInBounds
  split
  · rw [Array.countP_set]
    simp [h]
  · exact Nat.le_refl _

theorem unseenCount_set_lt {marks : Array Visit} {v : Nat} {mark : Visit}
    (hv : marks[v]? = some unseen) (h : mark ≠ unseen) :
    unseenCount (marks.setIfInBounds v mark) < unseenCount marks := by
  obtain ⟨hlt, hget⟩ := Array.getElem?_eq_some_iff.1 hv
  have hpos : 0 < marks.countP (· = unseen) :=
    Array.countP_pos_iff.2 ⟨marks[v], Array.getElem_mem hlt, by simp [hget]⟩
  unfold unseenCount Array.setIfInBounds
  rw [dif_pos hlt, Array.countP_set]
  simp only [hget, decide_true, if_true, h, decide_false, Bool.false_eq_true, if_false]
  omega

end Visit

/-- The nodes of the current path, the last one first, each with the successors that are still to
be looked at. -/
abbrev SearchPath := List (Nat × List Nat)

/-- How much there is still to look at from the path. -/
def SearchPath.pending : SearchPath → Nat
  | [] => 0
  | (_, rest) :: path => rest.length + 1 + pending path

/-- The nodes from `w`, which is on the path, to the end of the path. -/
def SearchPath.since (w : Nat) (path : SearchPath) : List Nat :=
  w :: ((path.map Prod.fst).takeWhile (· ≠ w)).reverse

namespace Graph

/-- Follows the path until everything it leads to has been searched, and answers with the marks;
the error is the first cycle met, as the numbers of its nodes. -/
def explore (g : Graph) (marks : Array Visit) (path : SearchPath) :
    Except (List Nat) (Array Visit) :=
  match path with
  | [] => .ok marks
  | (v, []) :: path => g.explore (marks.setIfInBounds v .finished) path
  | (v, w :: rest) :: path =>
    match _ : marks[w]? with
    | some .unseen =>
      g.explore (marks.setIfInBounds w .onPath) ((w, g.successorsAt w) :: (v, rest) :: path)
    | some .onPath => .error (SearchPath.since w ((v, rest) :: path))
    -- nothing new behind `w`; every successor is a node of the graph, so `none` does not occur
    | some .finished | none => g.explore marks ((v, rest) :: path)
termination_by (Visit.unseenCount marks, path.pending)
decreasing_by
  -- `v` is finished: no node becomes unseen, and the path gets shorter
  · have hne : Visit.finished ≠ .unseen := by decide
    rcases Nat.lt_or_eq_of_le (Visit.unseenCount_set_of_ne marks v hne) with h | h
    · exact Prod.Lex.left _ _ h
    · rw [h]
      exact Prod.Lex.right _ (by simp [SearchPath.pending])
  -- `w` is no longer unseen
  · exact Prod.Lex.left _ _ (Visit.unseenCount_set_lt (by assumption) (by decide))
  -- one successor fewer to be looked at
  · exact Prod.Lex.right _ (by simp [SearchPath.pending])
  · exact Prod.Lex.right _ (by simp [SearchPath.pending])

/-- Searches from each of the roots that has not been reached by then. -/
def findCycleFrom (g : Graph) : List Nat → Array Visit → Option (List Nat)
  | [], _ => none
  | root :: roots, marks =>
    if marks[root]? = some .unseen then
      match g.explore (marks.setIfInBounds root .onPath) [(root, g.successorsAt root)] with
      | .ok marks => g.findCycleFrom roots marks
      | .error cycle => some cycle
    else g.findCycleFrom roots marks

/-- The first cycle that the search meets, as the numbers of its nodes. -/
def findCycle (g : Graph) : Option (List Nat) :=
  g.findCycleFrom ((g.index[Node.start]?).toList ++ List.range g.nodeCount)
    (Array.replicate g.nodeCount .unseen)

/-- The graph has no cycle, or the failure names one. -/
def checkAcyclic (g : Graph) : Except Failure Unit :=
  match (g.findCycle.map g.nodesAt : Option (List Node)) with
  | some (first :: others) => .error (.invalid (.cycle first others))
  | _ => .ok ()

/-- The graph is a valid topology, or the failure says why not. -/
def validate (g : Graph) : Except Failure Unit :=
  if g.nodeCount ≤ 2 then .error (.invalid (.noStage g.nodeCount))
  else if (g.successorsOf .start).any Node.isFinish then .error (.invalid .startToFinish)
  else if (g.predecessorsOf .finish).any Node.isStart then .error (.invalid .finishAfterStart)
  else g.checkAcyclic

/-- The graph itself, if it is valid. -/
def validated (g : Graph) : Except Failure Graph := g.validate.map fun _ => g

end Graph

end StageGraph
