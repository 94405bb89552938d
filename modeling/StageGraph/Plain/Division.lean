import StageGraph.Failure
import StageGraph.Plain.Span

set_option autoImplicit false

/-! # The first stage of a list of terms

In a list of terms every second one is a separator. The terms before the first arrow, joined by
commas, are the first stage; what follows the arrow are the stages behind it. Separators are told
by their place: a term may well read like one.
-/

namespace StageGraph

/-- A list of terms, divided after its first stage. -/
structure Division where
  /-- The terms of the first stage, without the commas between them. -/
  head : List Span
  /-- The terms of the stages behind it; nothing if it is the last stage. -/
  tail : Option (List Span)
deriving DecidableEq

/-- Where the stages behind the first one start in a list of that many terms. -/
def Division.tailIndex (d : Division) (size : Nat) : Option Nat :=
  d.tail.map fun tail => size - tail.length

/-- What the terms say, one after the other. -/
def joinedText (terms : List Span) : Text := terms.flatMap Span.text

/-- Divides a list that begins with a term of the first stage, where `whole` are the terms from the
start of the stage. -/
def divideFrom (whole : List Span) : List Span → Except Failure Division
  | [] => .ok ⟨[], none⟩
  | [term] => .ok ⟨[term], none⟩
  | term :: separator :: rest =>
    if separator.text = Mark.arrow.text then .ok ⟨[term], some rest⟩
    else if separator.text = Mark.comma.text then
      (divideFrom whole rest).map fun d => ⟨term :: d.head, d.tail⟩
    else .error (.malformed (.missingSeparator separator.text (joinedText whole)))

/-- The first stage of the list and the stages behind it; nothing for an empty list. -/
def divide (terms : List Span) : Except Failure (Option Division) :=
  match terms.head?, terms.getLast? with
  | some first, some last =>
    if isSeparator first.text || isSeparator last.text then
      .error (.malformed (.danglingSeparator (joinedText terms)))
    else (divideFrom terms terms).map some
  | _, _ => .ok none

/-! ## How long the divided parts are -/

/-- The bytes of the stages behind the first one, with the arrow that leads to them. -/
def tailBytes : Option (List Span) → Nat
  | none => 0
  | some tail => 2 + spanBytes tail

theorem spanBytes_cons (s : Span) (spans : List Span) :
    spanBytes (s :: spans) = Text.bytes s.text + spanBytes spans := rfl

theorem spanBytes_append (xs ys : List Span) :
    spanBytes (xs ++ ys) = spanBytes xs + spanBytes ys := by
  induction xs with
  | nil => simp [spanBytes]
  | cons s xs ih => simp [spanBytes, ih, Nat.add_assoc]

/-- Each term of the first stage, together with the stages behind, is no longer than the list. -/
theorem divideFrom_bytes {whole terms : List Span} {d : Division}
    (h : divideFrom whole terms = .ok d) :
    tailBytes d.tail ≤ spanBytes terms ∧ d.head.length ≤ spanBytes terms + 1 ∧
      ∀ t ∈ d.head, Text.bytes t.text + tailBytes d.tail ≤ spanBytes terms := by
  fun_induction divideFrom whole terms generalizing d with
  | case1 => cases h; simp [tailBytes]
  | case2 term => cases h; simp [tailBytes, spanBytes_cons]
  | case3 term separator rest harrow =>
    cases h
    have : Text.bytes separator.text = 2 := by rw [harrow]; rfl
    simp only [tailBytes, spanBytes_cons, List.mem_singleton, forall_eq, List.length_singleton]
    omega
  | case4 term separator rest _ hcomma ih =>
    cases hd : divideFrom whole rest with
    | error f => rw [hd] at h; cases h
    | ok e =>
      rw [hd] at h
      cases h
      obtain ⟨htail, hlen, hterms⟩ := ih hd
      have : Text.bytes separator.text = 1 := by rw [hcomma]; rfl
      simp only [spanBytes_cons, List.mem_cons, forall_eq_or_imp, List.length_cons]
      refine ⟨by omega, by omega, by omega, fun t ht => ?_⟩
      have := hterms t ht
      omega
  | case5 => cases h

theorem divide_bytes {terms : List Span} {d : Division} (h : divide terms = .ok (some d)) :
    d.head.length ≤ spanBytes terms + 1 ∧
      ∀ t ∈ d.head, Text.bytes t.text + tailBytes d.tail ≤ spanBytes terms := by
  unfold divide at h
  split at h
  · split at h
    · cases h
    · cases hd : divideFrom terms terms with
      | error f => rw [hd] at h; cases h
      | ok e =>
        rw [hd] at h
        cases h
        exact (divideFrom_bytes hd).2
  · cases h

end StageGraph
