import Std.Data.HashMap
import StageGraph.Text.Basic

set_option autoImplicit false

/-! # Ordinals

Within one topology the spans of one name are numbered from 1 in the order in which they are first
met. A span that is met again keeps its ordinal.
-/

namespace StageGraph

/-- The spans met so far under each name, in the order of their first meeting. -/
structure Ordinals where
  met : Std.HashMap Text (List Nat)

namespace Ordinals

/-- No span has been met. -/
def empty : Ordinals := ⟨∅⟩

/-- The spans met under this name. -/
def metAs (o : Ordinals) (name : Text) : List Nat := o.met.getD name []

/-- The ordinal of a span under this name; a span that is new gets the next one. -/
def allocate (o : Ordinals) (name : Text) (span : Nat) : UInt32 × Ordinals :=
  match (o.metAs name).idxOf? span with
  | some place => (UInt32.ofNat (place + 1), o)
  | none =>
    (UInt32.ofNat ((o.metAs name).length + 1),
      ⟨o.met.insert name (o.metAs name ++ [span])⟩)

end Ordinals

end StageGraph
