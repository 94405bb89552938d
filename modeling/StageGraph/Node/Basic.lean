import StageGraph.Text.Basic
import StageGraph.Text.Digit

set_option autoImplicit false

/-! # Nodes

A graph has two sentinels, `Start` and `End`, and between them the stages of the workflow. A stage
is known by the number of its topology, by an ordinal that tells stages of one name apart, and by
its name. Both numbers count from 1, and the name is trimmed and not blank; the sentinels carry
the numbers 0 and 0, so no stage is ever mistaken for one.

Nodes are ordered by topology, then ordinal, then name; names go by code point.
-/

namespace StageGraph

/-- A stage of the workflow. -/
structure Stage where
  /-- Which topology of the expression the stage belongs to. -/
  topology : UInt32
  /-- Which of the topology's stages of this name it is. -/
  ordinal : UInt32
  /-- What the stage is called. -/
  name : Text
  topology_ne_zero : topology ≠ 0
  ordinal_ne_zero : ordinal ≠ 0
  name_ne_nil : name ≠ []
  name_trimmed : Text.Trimmed name
deriving DecidableEq

/-- A node of the graph: a sentinel or a stage. -/
inductive Node where
  /-- The source of the whole graph. -/
  | start
  /-- The sink of the whole graph. -/
  | finish
  /-- A stage between the two. -/
  | stage (s : Stage)
deriving DecidableEq

namespace Node

/-- The topology number; 0 for a sentinel. -/
def topology : Node → UInt32
  | start | finish => 0
  | stage s => s.topology

/-- The ordinal; 0 for a sentinel. -/
def ordinal : Node → UInt32
  | start | finish => 0
  | stage s => s.ordinal

/-- The reserved name of the source sentinel. -/
def startName : Text := ['S', 't', 'a', 'r', 't']

/-- The reserved name of the sink sentinel. -/
def finishName : Text := ['E', 'n', 'd']

/-- What the node is called. -/
def name : Node → Text
  | start => startName
  | finish => finishName
  | stage s => s.name

/-- The node is the source sentinel. -/
def isStart : Node → Bool
  | start => true
  | _ => false

/-- The node is the sink sentinel. -/
def isFinish : Node → Bool
  | finish => true
  | _ => false

/-- The node is one of the two sentinels. -/
def isSentinel (n : Node) : Bool := n.isStart || n.isFinish

/-- The written form `topology:ordinal:name`. -/
def text (n : Node) : Text :=
  Text.ofNat n.topology.toNat ++ ':' :: Text.ofNat n.ordinal.toNat ++ ':' :: n.name

instance : Hashable Node where
  hash n := mixHash (hash n.topology) (mixHash (hash n.ordinal) (hash n.name))

instance : Ord Node where
  compare a b :=
    (compare a.topology b.topology).then
      ((compare a.ordinal b.ordinal).then (compare a.name b.name))

/-- Two nodes with the same numbers and the same name are the same node. -/
theorem eq_of_parts {a b : Node} (ht : a.topology = b.topology) (ho : a.ordinal = b.ordinal)
    (hn : a.name = b.name) : a = b := by
  cases a with
  | start =>
    cases b with
    | start => rfl
    | finish => exact absurd hn (by decide)
    | stage s => exact absurd ht.symm s.topology_ne_zero
  | finish =>
    cases b with
    | start => exact absurd hn (by decide)
    | finish => rfl
    | stage s => exact absurd ht.symm s.topology_ne_zero
  | stage s =>
    cases b with
    | start => exact absurd ht s.topology_ne_zero
    | finish => exact absurd ht s.topology_ne_zero
    | stage t =>
      cases s
      cases t
      simp only [topology, ordinal, name] at ht ho hn
      subst ht ho hn
      rfl

end Node

/-- A dependency: `target` runs after `source`. -/
structure Edge where
  /-- What has to be done first. -/
  source : Node
  /-- What comes after it. -/
  target : Node
deriving DecidableEq

namespace Edge

/-- The arrow between the two ends of a written edge. -/
def arrow : Text := [' ', '-', '>', ' ']

/-- The written form, with an arrow between the two nodes. -/
def text (e : Edge) : Text := e.source.text ++ arrow ++ e.target.text

instance : Ord Edge where
  compare a b := (compare a.source b.source).then (compare a.target b.target)

end Edge

/-- The list in ascending order; equal members keep their places among themselves. -/
def ascending {α : Type} [Ord α] (xs : List α) : List α :=
  xs.mergeSort fun a b => (compare a b).isLE

/-- How many different members the list has. -/
def distinctCount {α : Type} [Ord α] [BEq α] (xs : List α) : Nat := (ascending xs).eraseReps.length

end StageGraph
