import Mathlib.Tactic
import StageGraph.Proofs.EdgeList.Recognition

set_option autoImplicit false

/-! # Both forms list the same edges

The ends of the edges can be written with an arrow between them, as an array of strings, or under
two keys, as an array of objects. If no end holds an arrow, cutting a string at its arrow gives the
two ends back, but for the white space around them, which an end is trimmed of anyway. So the two
texts are decoded alike (`decode_agree`) and compile to the same graph or fail in the same way.
-/

namespace StageGraph

open Json (ArrayOf Document Literal Pair)

/-! ## Failures of one kind -/

/-- The failures are of one kind, whatever their messages say. -/
def Failure.SameKind : Failure → Failure → Prop
  | malformed _, malformed _ => True
  | invalid _, invalid _ => True
  | sentinelEndpoint _, sentinelEndpoint _ => True
  | _, _ => False

theorem Failure.SameKind.refl (failure : Failure) : failure.SameKind failure := by
  cases failure <;> trivial

theorem Failure.sameKind_ofExpression (failure : Failure) (s t : Text) :
    (failure.ofExpression s).SameKind (failure.ofExpression t) := by
  cases failure <;> trivial

/-- The outcomes are the same graph, or failures of one kind. -/
def Agree : Except Failure Graph → Except Failure Graph → Prop
  | .ok g, .ok h => g = h
  | .error failure, .error failure' => failure.SameKind failure'
  | _, _ => False

/-! ## White space around a document -/

section

variable {α : Type} {Item : α → Text → Text → Prop} {as : List α} {t : Text}

/-- A document of an array is the array between white space of JSON. -/
theorem document_iff_exists (hitem : Json.Uniform Item) :
    Document (ArrayOf Item) as t ↔ ∃ v body w : Text,
      (∀ c ∈ v, Json.isSpace c = true) ∧ (∀ c ∈ w, Json.isSpace c = true) ∧
      t = v ++ (('[' :: body ++ [']']) ++ w) ∧
      ∀ r, ArrayOf Item as ('[' :: body ++ [']'] ++ r) r := by
  constructor
  · rintro ⟨s, r, ⟨v, hv, rfl⟩, harray, ⟨w, hw, rfl⟩⟩
    obtain ⟨m, rfl, hm⟩ := harray.exists_append hitem
    refine ⟨v, m, w, hv, hw, by simp [Json.Container.opening, Json.Container.closing], fun r => ?_⟩
    have harray := hm r
    simpa [Json.Container.opening, Json.Container.closing] using harray
  · rintro ⟨v, body, w, hv, hw, rfl, harray⟩
    exact ⟨_, w, ⟨v, hv, rfl⟩, harray w, w, hw, (List.append_nil w).symm⟩

/-- A document without the white space around it is a document of the same. -/
theorem document_trim (hitem : Json.Uniform Item) (hdoc : Document (ArrayOf Item) as t) :
    Text.trim t ≠ [] ∧ Document (ArrayOf Item) as (Text.trim t) := by
  obtain ⟨v, body, w, hv, hw, rfl, harray⟩ := (document_iff_exists hitem).1 hdoc
  rw [Form.trim_between rfl rfl (Json.isBlank_of_spaces hv) (Json.isBlank_of_spaces hw)]
  refine ⟨List.cons_ne_nil _ _, (document_iff_exists hitem).2 ⟨[], body, [], ?_, ?_, ?_, harray⟩⟩
  · exact fun c hc => absurd hc List.not_mem_nil
  · exact fun c hc => absurd hc List.not_mem_nil
  · simp

end

namespace Form

variable {form : Form} {t : Text}

theorem decode_strings_document {items : List Text} (hdoc : Document (ArrayOf Literal) items t) :
    strings.decode t = claim readItem (.ok items) :=
  congrArg (claim readItem) (reads_strings.read_eq_ok.2 hdoc)

theorem decode_objects_document {ends : List (Text × Text)}
    (hdoc : Document (ArrayOf (Pair Edge.keys Literal)) ends t) :
    objects.decode t = claim (fun p => readEnds p.1 p.2) (.ok ends) :=
  congrArg (claim fun p : Text × Text => readEnds p.1 p.2)
    (reads_objects.read_eq_ok.2 (document_ends hdoc))

/-- The ends of an edge with an arrow between them. -/
def arrowBetween (ends : Text × Text) : Text := ends.1 ++ (Edge.arrow ++ ends.2)

theorem readAll_congr {α β : Type} {readOne : α → Except Failure Edge}
    {readOne' : β → Except Failure Edge} {write : α → β} {as : List α}
    (h : ∀ a ∈ as, readOne' (write a) = readOne a) :
    readAll readOne' (as.map write) = readAll readOne as := by
  induction as with
  | nil => rfl
  | cons a as ih =>
    rw [List.forall_mem_cons] at h
    rw [List.map_cons, readAll, readAll, h.1, ih h.2]

section

variable {ends : List (Text × Text)} {s : Text}

/-- Both forms decode the same from the same ends. -/
theorem decode_agree (hne : ends ≠ []) (hfree : ∀ p ∈ ends, ArrowFree p.1 ∧ ArrowFree p.2)
    (hstrings : Document (ArrayOf Literal) (ends.map arrowBetween) s)
    (hobjects : Document (ArrayOf (Pair Edge.keys Literal)) ends t) :
    strings.decode s = objects.decode t := by
  rw [decode_strings_document hstrings, decode_objects_document hobjects,
    claim_ok (mt List.map_eq_nil_iff.1 hne), claim_ok hne, readAll_congr]
  exact fun p hp => readItem_arrow (hfree p hp).1 (hfree p hp).2

/-- Texts that are decoded alike by the forms that claim them compile alike. -/
theorem agree_of_claims {form' : Form} (hclaims : form.Claims (Text.trim s))
    (hclaims' : form'.Claims (Text.trim t)) (hne : Text.trim s ≠ []) (hne' : Text.trim t ≠ [])
    (hsame : form.decode (Text.trim s) = form'.decode (Text.trim t)) :
    Agree (compile s) (compile t) := by
  have hdetect := hclaims.detect_eq
  have hdetect' := hclaims'.detect_eq
  rw [← hsame] at hdetect'
  rcases hdecode : form.decode (Text.trim s) with failure | _ | edges
  · rw [hdecode] at hdetect hdetect'
    simp only [compile, if_neg hne, if_neg hne', buildExpression, hdetect, hdetect', Except.map]
    exact .refl failure
  · exact absurd hdecode hclaims.decode_ne_none
  · rw [hdecode] at hdetect hdetect'
    simp only [compile, if_neg hne, if_neg hne', buildExpression, hdetect, hdetect', Except.map,
      Option.map]
    rcases buildListed edges .empty with ⟨_, g⟩ | ⟨failure, _⟩
    · dsimp only
      rcases g.validated with failure | g'
      · exact failure.sameKind_ofExpression _ _
      · rfl
    · exact .refl failure

/-- The two ways to write a list of edges agree. Given ends without arrows, an array of the strings
with an arrow between the ends and an array of objects with the ends under the two keys, in any
spelling, are claimed by their forms and decoded to the same edges or the same failure. They compile
to the same graph or fail in the same way. -/
theorem forms_agree {ends : List (Text × Text)} {s t : Text} (hne : ends ≠ [])
    (hfree : ∀ p ∈ ends, ArrowFree p.1 ∧ ArrowFree p.2)
    (hstrings : Document (ArrayOf Literal) (ends.map arrowBetween) s)
    (hobjects : Document (ArrayOf (Pair Edge.keys Literal)) ends t) :
    strings.decode s = objects.decode t ∧ strings.Claims s ∧ objects.Claims t ∧
      Agree (compile s) (compile t) := by
  have hstrings' := document_trim Json.uniform_literal hstrings
  have hobjects' := document_trim Json.uniform_literal.pair hobjects
  have hclaims : ∀ {u}, Document (ArrayOf Literal) (ends.map arrowBetween) u →
      strings.Claims u := by
    intro u hdoc
    refine claims_strings_iff.2 ⟨_, mt List.map_eq_nil_iff.1 hne, fun hshort => ?_, hdoc⟩
    obtain ⟨p, -, hp⟩ := List.map_eq_singleton_iff.1 hshort
    cases (List.append_eq_nil_iff.1 hp).2
  exact ⟨decode_agree hne hfree hstrings hobjects, hclaims hstrings, claims_objects hne hobjects,
    agree_of_claims (hclaims hstrings'.2) (claims_objects hne hobjects'.2) hstrings'.1 hobjects'.1
      (decode_agree hne hfree hstrings'.2 hobjects'.2)⟩

end

/-- An array of strings, the way it is written. -/
theorem document_strings (items : List Text) :
    Document (ArrayOf Literal) items (Json.array (items.map .string)).compact :=
  (Json.Written.array (List.forall₂_map_right_iff.2
    (List.forall₂_same.2 fun t _ => Json.written_string t))).document

/-- An array of objects, the way it is written. -/
theorem document_objects (ends : List (Text × Text)) :
    Document (ArrayOf (Pair Edge.keys Literal)) ends (Json.array (ends.map objectOf)).compact :=
  (Json.Written.array (List.forall₂_map_right_iff.2
    (List.forall₂_same.2 fun p _ => written_objectOf p))).document

/-- Two edges, with an end that stops like an arrow and one that starts like the rest of it. -/
theorem forms_agree_dash : ∃ s t : Text,
    s = "[\"A- -> >B\",\"C -> 2:1:D\"]".toList ∧
    t = "[\x7b\"source\":\"A-\",\"target\":\">B\"\x7d,".toList ++
      "\x7b\"source\":\"C\",\"target\":\"2:1:D\"\x7d]".toList ∧
    strings.decode s = objects.decode t ∧ strings.Claims s ∧ objects.Claims t ∧
    Agree (compile s) (compile t) := by
  have hfree : ∀ p ∈ [("A-".toList, ">B".toList), ("C".toList, "2:1:D".toList)],
      ArrowFree p.1 ∧ ArrowFree p.2 := by
    decide
  exact ⟨_, _, by decide, by decide,
    forms_agree (List.cons_ne_nil _ _) hfree (document_strings _) (document_objects _)⟩

end Form

end StageGraph
