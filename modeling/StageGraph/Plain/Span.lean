import Std.Data.HashMap
import StageGraph.Plain.Mark

set_option autoImplicit false

/-! # Spans

A span is one occurrence of a text. Two occurrences of the same text are different spans, but the
same slice of the same span is always the same span, and so is the span wrapped in parentheses.
That is what tells a term that is reached again from another term of the same name.

A store numbers the spans in the order in which they are made and remembers how the derived ones
came about. The arrow has the number 0 in every store.
-/

namespace StageGraph

/-- One occurrence of a text. -/
structure Span where
  /-- The number of the span in its store. -/
  id : Nat
  /-- What it says. -/
  text : Text
deriving DecidableEq

/-- How a span comes from another one. -/
inductive Origin where
  /-- The other span in parentheses. -/
  | wrapping (id : Nat)
  /-- What stands between two byte offsets of the other span, without white space around it. -/
  | slice (id start stop : Nat)
deriving DecidableEq, Hashable

/-- The spans made so far. -/
structure SpanStore where
  /-- What each span says. -/
  texts : Array Text
  /-- The numbers of the derived spans. -/
  derived : Std.HashMap Origin Nat

namespace SpanStore

/-- The span of the arrow, which every store begins with. -/
def arrow : Span := ⟨0, Mark.arrow.text⟩

/-- A store that holds the arrow only. -/
def new : SpanStore := ⟨#[arrow.text], ∅⟩

/-- The span with this number. -/
def find (store : SpanStore) (id : Nat) : Span := ⟨id, store.texts.getD id []⟩

/-- A new span for a text, even if an earlier one says the same. -/
def add (store : SpanStore) (t : Text) : Span × SpanStore :=
  (⟨store.texts.size, t⟩, { store with texts := store.texts.push t })

/-- The span that comes about in this way and says `t`. -/
def derive (store : SpanStore) (origin : Origin) (t : Text) : Span × SpanStore :=
  match store.derived[origin]? with
  | some id => (⟨id, t⟩, store)
  | none =>
    let (span, store) := store.add t
    (span, { store with derived := store.derived.insert origin span.id })

/-- The text in parentheses. -/
def wrapped (t : Text) : Text := '(' :: t ++ [')']

/-- The span in parentheses. -/
def wrap (store : SpanStore) (span : Span) : Span × SpanStore :=
  store.derive (.wrapping span.id) (wrapped span.text)

/-- The part of the span between two byte offsets, without white space around it. -/
def cut (store : SpanStore) (span : Span) (start stop : Nat) : Span × SpanStore :=
  store.derive (.slice span.id start stop) (Text.trim (Text.slice span.text start stop))

@[simp] theorem text_derive (store : SpanStore) (origin : Origin) (t : Text) :
    (store.derive origin t).1.text = t := by
  unfold derive
  split <;> rfl

@[simp] theorem text_wrap (store : SpanStore) (span : Span) :
    (store.wrap span).1.text = wrapped span.text := text_derive _ _ _

@[simp] theorem text_cut (store : SpanStore) (span : Span) (start stop : Nat) :
    (store.cut span start stop).1.text = Text.trim (Text.slice span.text start stop) :=
  text_derive _ _ _

end SpanStore

/-- How many bytes the spans' texts take together. -/
def spanBytes : List Span → Nat
  | [] => 0
  | s :: spans => Text.bytes s.text + spanBytes spans

end StageGraph
