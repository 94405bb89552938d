import Mathlib.Tactic
import StageGraph.Compile
import StageGraph.Proofs.EdgeList.Encoding
import StageGraph.Proofs.Json.Exactness

set_option autoImplicit false

/-! # Which texts are edge lists

A form claims a text when it decides what `detect` answers (`Form.Claims`). What the two forms claim
is said with the grammar of JSON, and with two things the outward shape turns away. It wants a
character between the first quote and the last one, so no form claims the array of one empty string
(`hasShape_strings`). And it wants a brace at both ends: the reader of objects takes an array of the
two ends for an item, but the form claims only the lists in which the first item and the last item
are objects (`hasShape_endsIn`). The first item also keeps a text from being of two forms, so the
order of the forms does not matter (`detect_any_order`).
-/

namespace StageGraph

namespace Json

theorem isBlank_of_isSpace {c : Char} (h : isSpace c = true) : Text.isBlank c = true := by
  simp only [isSpace, Bool.or_eq_true, decide_eq_true_eq] at h
  rcases h with ((rfl | rfl) | rfl) | rfl <;> rfl

section

variable {α : Type} {Item : α → Text → Text → Prop} {frame : α → Char × Char} {short : α → Prop}

/-- Every item stands between the two characters of its frame. There is nothing between them only if
the item is a short one. -/
def Framed (frame : α → Char × Char) (short : α → Prop) (Item : α → Text → Text → Prop) : Prop :=
  ∀ ⦃a : α⦄ ⦃s r : Text⦄, Item a s r →
    ∃ body, s = (frame a).1 :: (body ++ (frame a).2 :: r) ∧ (body = [] ↔ short a)

theorem framed_literal : Framed (fun _ => ('"', '"')) (· = []) Literal := by
  intro t s r h
  obtain ⟨body, rfl, hnil, -⟩ := h.exists_append
  exact ⟨body, rfl, hnil⟩

/-- A container that is not empty has something between its brackets. -/
theorem Enclosed.exists_inside (hbegins : Begins Item) (hitem : Uniform Item) {c : Container}
    {as : List α} {s r : Text} (h : Enclosed c Item as s r) (hne : as ≠ []) :
    ∃ body, s = c.opening :: (body ++ c.closing :: r) ∧ body ≠ [] := by
  cases h with
  | empty _ => exact absurd rfl hne
  | items hlisting =>
    obtain ⟨body, rfl, -⟩ := hlisting.exists_append hitem
    refine ⟨body, rfl, ?_⟩
    rintro rfl
    obtain ⟨d, t, hskip, hd⟩ := hbegins.listing hlisting
    have hclosing : isSpace c.closing = false := by cases c <;> rfl
    cases (skipSpace_cons hclosing r).symm.trans hskip
    exact hd.not_closing c rfl

theorem framed_pair (hitem : Uniform Item) {keys : Text × Text} :
    Framed (fun _ => ('\x7b', '\x7d')) (fun _ => False) (Pair keys Item) := by
  rintro p s r ⟨fields, henclosed, hfst, -⟩
  have hfields : fields ≠ [] := by
    rintro rfl
    cases hfst
  obtain ⟨body, rfl, hne⟩ := henclosed.exists_inside begins_field hitem.field hfields
  exact ⟨body, rfl, iff_of_false hne id⟩

/-- Framed items stand between the frame of the first one and that of the last one. -/
theorem Framed.listing (h : Framed frame short Item) {close : Char} {as : List α} {s r : Text}
    (hlisting : Listing close Item as s r) {a b : α} (hfirst : as.head? = some a)
    (hlast : as.getLast? = some b) : ∃ v body w : Text,
      (∀ c ∈ v, isSpace c = true) ∧ (∀ c ∈ w, isSpace c = true) ∧
      s = v ++ (frame a).1 :: (body ++ (frame b).2 :: (w ++ close :: r)) ∧
      (body = [] ↔ ∃ x, as = [x] ∧ short x) := by
  induction hlisting generalizing a b with
  | last hspace ha hclose =>
    obtain ⟨v, hv, rfl⟩ := hspace
    obtain ⟨body, rfl, hshort⟩ := h ha
    obtain ⟨w, hw, rfl⟩ := hclose
    cases hfirst
    cases hlast
    exact ⟨v, body, w, hv, hw, rfl, by simpa using hshort⟩
  | @more x as _ _ _ _ _ hspace ha hcomma hrest ih =>
    have hne : as ≠ [] := by
      rintro rfl
      cases hrest
    obtain ⟨v, hv, rfl⟩ := hspace
    obtain ⟨body, rfl, -⟩ := h ha
    obtain ⟨u, -, rfl⟩ := hcomma
    rw [List.getLast?_cons_of_ne_nil hne] at hlast
    obtain ⟨v', body', w, -, hw, rfl, -⟩ := ih (List.head?_eq_some_head hne) hlast
    cases hfirst
    refine ⟨v, body ++ (frame x).2 :: (u ++ ',' :: (v' ++ (frame (as.head hne)).1 :: body')), w,
      hv, hw, by simp, ?_⟩
    simp [hne]

theorem isBlank_of_spaces {w : Text} (h : ∀ c ∈ w, isSpace c = true) :
    ∀ c ∈ w, Text.isBlank c = true := fun c hc => isBlank_of_isSpace (h c hc)

/-- What stands between the brackets of an array of framed items. -/
theorem Framed.inside? (h : Framed frame short Item)
    (hblank : ∀ a, Text.isBlank (frame a).1 = false ∧ Text.isBlank (frame a).2 = false)
    {as : List α} {t : Text} (hdoc : Document (ArrayOf Item) as t) {a b : α}
    (hfirst : as.head? = some a) (hlast : as.getLast? = some b) : ∃ body,
      Form.inside? '[' ']' t = some ((frame a).1 :: body ++ [(frame b).2]) ∧
      (body = [] ↔ ∃ x, as = [x] ∧ short x) := by
  obtain ⟨s, r, ⟨v, hv, rfl⟩, henclosed, ⟨w, hw, rfl⟩⟩ := hdoc
  cases henclosed with
  | empty _ => cases hfirst
  | items hlisting =>
    obtain ⟨v', body, w', hv', hw', rfl, hshort⟩ := h.listing hlisting hfirst hlast
    have hinner := Form.trim_between (hblank a).1 (hblank b).2 (isBlank_of_spaces hv')
      (isBlank_of_spaces hw') body
    have houter := @Form.trim_between '[' ']' rfl rfl v w (isBlank_of_spaces hv)
      (isBlank_of_spaces hw) (v' ++ (((frame a).1 :: body ++ [(frame b).2]) ++ w'))
    refine ⟨body, ?_, hshort⟩
    rw [← hinner]
    apply Form.inside?_eq
    rw [← houter]
    simp [Container.opening, Container.closing]

end

end Json

open Json (ArrayOf Container Document Literal Pair)

/-- An item of an array of objects: an object with the two ends, each of them once. The reader takes
an array of the two ends as well. -/
def ReadAsEnds (ends : Text × Text) (s r : Text) : Prop :=
  Pair Edge.keys Literal ends s r ∨ ArrayOf Literal [ends.1, ends.2] s r

/-- The two ends of an item, in a container of this kind: an object with the two keys, or an array
of the two. -/
def EndsIn (item : Container × Text × Text) (s r : Text) : Prop :=
  match item.1 with
  | .object => Pair Edge.keys Literal item.2 s r
  | .array => ArrayOf Literal [item.2.1, item.2.2] s r

theorem readAsEnds_iff (ends : Text × Text) (s r : Text) :
    ReadAsEnds ends s r ↔ ∃ item : Container × Text × Text, item.2 = ends ∧ EndsIn item s r := by
  constructor
  · rintro (hobject | harray)
    · exact ⟨(.object, ends), rfl, hobject⟩
    · exact ⟨(.array, ends), rfl, harray⟩
  · rintro ⟨⟨_ | _, ends⟩, rfl, hitem⟩
    · exact .inr hitem
    · exact .inl hitem

/-- An item has the brackets of its container. -/
theorem framed_endsIn :
    Json.Framed (fun item => (item.1.opening, item.1.closing)) (fun _ => False) EndsIn := by
  rintro ⟨_ | _, ends⟩ s r hitem
  · obtain ⟨body, rfl, hne⟩ := Json.Enclosed.exists_inside Json.begins_literal
      Json.uniform_literal hitem (List.cons_ne_nil _ _)
    exact ⟨body, rfl, iff_of_false hne id⟩
  · exact Json.framed_pair Json.uniform_literal hitem

theorem uniform_readAsEnds : Json.Uniform ReadAsEnds := by
  rintro ends s r (hobject | harray)
  · obtain ⟨m, rfl, hm⟩ := Json.uniform_literal.pair hobject
    exact ⟨m, rfl, fun u => .inl (hm u)⟩
  · obtain ⟨m, rfl, hm⟩ := Json.uniform_literal.enclosed harray
    exact ⟨m, rfl, fun u => .inr (hm u)⟩

namespace Form

variable {form : Form} {t : Text}

/-! ## What a form decodes -/

theorem claim_ne_none_iff {α : Type} {readOne : α → Except Failure Edge}
    {items : Except Json.Fault (List α)} :
    claim readOne items ≠ .ok none ↔ ∃ as, items = .ok as ∧ as ≠ [] := by
  constructor
  · intro h
    unfold claim at h
    split at h
    · exact absurd rfl h
    · exact absurd rfl h
    · next as hne => exact ⟨as, rfl, fun hnil => hne (by rw [hnil])⟩
  · rintro ⟨as, rfl, hne⟩ h
    rw [claim_ok hne] at h
    obtain ⟨edges, -, hedges⟩ := map_eq_ok.1 h
    cases hedges

theorem reads_strings : (Json.Reader.list .string).Reads (ArrayOf Literal) :=
  Json.reads_string.list Json.begins_literal

theorem reads_ends : (Json.Reader.pair Edge.keys .string).Reads ReadAsEnds :=
  Json.reads_string.pair Json.begins_literal (by decide)

theorem reads_objects :
    (Json.Reader.list (.pair Edge.keys .string)).Reads (ArrayOf ReadAsEnds) :=
  reads_ends.list Json.begins_pair

theorem decode_strings_ne_none_iff : strings.decode t ≠ .ok none ↔
    ∃ items, items ≠ [] ∧ Document (ArrayOf Literal) items t := by
  show claim readItem _ ≠ .ok none ↔ _
  simp only [claim_ne_none_iff, reads_strings.read_eq_ok, and_comm]

theorem decode_objects_ne_none_iff : objects.decode t ≠ .ok none ↔
    ∃ ends, ends ≠ [] ∧ Document (ArrayOf ReadAsEnds) ends t := by
  show claim _ _ ≠ .ok none ↔ _
  simp only [claim_ne_none_iff, reads_objects.read_eq_ok, and_comm]

/-! ## What a form claims -/

/-- The form decides on the text: there is a list or a failure of one of its items, and that is the
answer of `detect`. -/
structure Claims (form : Form) (t : Text) : Prop where
  decode_ne_none : form.decode t ≠ .ok none
  detect_eq : detect t = (form.decode t).map fun edges => edges.map (form, ·)

theorem detectAmong_of_claimed {rest : List Form} (hshape : form.hasShape t = true)
    (hdecode : form.decode t ≠ .ok none) :
    detectAmong t (form :: rest) = (form.decode t).map fun edges => edges.map (form, ·) := by
  rw [detectAmong, if_pos hshape]
  split
  · next h => rw [h]; rfl
  · next h => rw [h]; rfl
  · next h => exact absurd h hdecode

theorem detectAmong_of_not_claimed {rest : List Form}
    (h : form.hasShape t = true → form.decode t = .ok none) :
    detectAmong t (form :: rest) = detectAmong t rest := by
  rw [detectAmong]
  split
  · next hshape => rw [h hshape]
  · rfl

/-- A form claims a text of its shape, unless the other form has this shape as well. -/
theorem claims_of_hasShape (hshape : form.hasShape t = true)
    (hother : ∀ other : Form, other.hasShape t = true → other = form)
    (hdecode : form.decode t ≠ .ok none) : form.Claims t := by
  refine ⟨hdecode, ?_⟩
  cases form with
  | strings => exact detectAmong_of_claimed hshape hdecode
  | objects =>
    rw [detect, detectAmong_of_not_claimed, detectAmong_of_claimed hshape hdecode]
    intro hstrings
    cases hother strings hstrings

theorem Claims.detect_ne_none (h : form.Claims t) : detect t ≠ .ok none := by
  intro hnone
  obtain ⟨edges, hedges, hmap⟩ := map_eq_ok.1 (h.detect_eq.symm.trans hnone)
  rw [Option.map_eq_none_iff.1 hmap] at hedges
  exact h.decode_ne_none hedges

theorem exists_claims_of_detect (h : detect t ≠ .ok none) :
    ∃ form : Form, form.hasShape t = true ∧ form.Claims t := by
  by_cases hstrings : strings.hasShape t = true ∧ strings.decode t ≠ .ok none
  · exact ⟨strings, hstrings.1, hstrings.2, detectAmong_of_claimed hstrings.1 hstrings.2⟩
  · have hnot : strings.hasShape t = true → strings.decode t = .ok none := by
      simpa using hstrings
    have hdetect : detect t = detectAmong t [objects] := detectAmong_of_not_claimed hnot
    by_cases hobjects : objects.hasShape t = true ∧ objects.decode t ≠ .ok none
    · exact ⟨objects, hobjects.1, hobjects.2,
        hdetect.trans (detectAmong_of_claimed hobjects.1 hobjects.2)⟩
    · refine absurd (hdetect.trans (detectAmong_of_not_claimed ?_)) h
      simpa using hobjects

/-! ## Documents of the two shapes -/

/-- An array of framed items has the outward shape of the form that begins like its first item and
ends like its last one, unless it has only one item and nothing is in that. -/
theorem hasShape_framed {α : Type} {Item : α → Text → Text → Prop} {frame : α → Char × Char}
    {short : α → Prop} (h : Json.Framed frame short Item)
    (hblank : ∀ a, Text.isBlank (frame a).1 = false ∧ Text.isBlank (frame a).2 = false)
    {as : List α} (hdoc : Document (ArrayOf Item) as t) {a b : α} (hfirst : as.head? = some a)
    (hlast : as.getLast? = some b) :
    form.hasShape t = true ↔
      form.delimiters = ((frame a).1, (frame b).2) ∧ ¬ ∃ x, as = [x] ∧ short x := by
  obtain ⟨body, hinside, hshort⟩ := h.inside? hblank hdoc hfirst hlast
  rw [hasShape_iff hinside, ← hshort, and_comm]

theorem hasShape_strings {items : List Text} (hne : items ≠ [])
    (hdoc : Document (ArrayOf Literal) items t) :
    form.hasShape t = true ↔ form = strings ∧ items ≠ [[]] := by
  have hshape : form.hasShape t = true ↔ _ := hasShape_framed Json.framed_literal
    (fun _ => ⟨rfl, rfl⟩) hdoc (List.head?_eq_some_head hne) (List.getLast?_eq_some_getLast hne)
  have hself : form.delimiters = ('"', '"') ↔ form = strings :=
    delimiters_injective.eq_iff (b := strings)
  rw [hshape, hself]
  simp

/-- An array of ends has the shape of the form of objects if objects are first and last in it, and
no shape else. -/
theorem hasShape_endsIn {items : List (Container × Text × Text)}
    (hdoc : Document (ArrayOf EndsIn) items t) {a b : Container × Text × Text}
    (hfirst : items.head? = some a) (hlast : items.getLast? = some b) :
    form.hasShape t = true ↔ form = objects ∧ a.1 = .object ∧ b.1 = .object := by
  have hblank : ∀ item : Container × Text × Text,
      Text.isBlank item.1.opening = false ∧ Text.isBlank item.1.closing = false := by
    rintro ⟨_ | _, ends⟩ <;> exact ⟨rfl, rfl⟩
  have hshape : form.hasShape t = true ↔ _ :=
    hasShape_framed framed_endsIn hblank hdoc hfirst hlast
  have hbrackets : ∀ c d : Container, form.delimiters = (c.opening, d.closing) ↔
      form = objects ∧ c = .object ∧ d = .object := by
    intro c d
    cases form <;> cases c <;> cases d <;> decide
  rw [hshape, hbrackets]
  simp

theorem claims_strings_iff : strings.Claims t ↔
    ∃ items, items ≠ [] ∧ items ≠ [[]] ∧ Document (ArrayOf Literal) items t := by
  constructor
  · intro h
    obtain ⟨items, hne, hdoc⟩ := decode_strings_ne_none_iff.1 h.decode_ne_none
    obtain ⟨form, hshape, -⟩ := exists_claims_of_detect h.detect_ne_none
    exact ⟨items, hne, ((hasShape_strings hne hdoc).1 hshape).2, hdoc⟩
  · rintro ⟨items, hne, hlong, hdoc⟩
    refine claims_of_hasShape ((hasShape_strings hne hdoc).2 ⟨rfl, hlong⟩) ?_
      (decode_strings_ne_none_iff.2 ⟨items, hne, hdoc⟩)
    exact fun other hother => ((hasShape_strings hne hdoc).1 hother).1

/-- An array of objects and arrays is read as an array of ends. -/
theorem document_readAsEnds {ends : List (Text × Text)} :
    Document (ArrayOf ReadAsEnds) ends t ↔
      ∃ items, items.map Prod.snd = ends ∧ Document (ArrayOf EndsIn) items t := by
  constructor
  · rintro ⟨s, r, hspace, henclosed, hend⟩
    obtain ⟨items, hitems, henclosed⟩ := Json.Enclosed.exists_map
      (fun ends s r => (readAsEnds_iff ends s r).1) henclosed
    exact ⟨items, hitems, s, r, hspace, henclosed, hend⟩
  · rintro ⟨items, rfl, hdoc⟩
    exact hdoc.imp fun _ _ => Json.Enclosed.map fun item s r hitem =>
      (readAsEnds_iff _ s r).2 ⟨item, rfl, hitem⟩

/-- The form of objects claims exactly the arrays of ends in which objects are first and last. -/
theorem claims_objects_iff : objects.Claims t ↔ ∃ items first last,
    items.head? = some (.object, first) ∧ items.getLast? = some (.object, last) ∧
      Document (ArrayOf EndsIn) items t := by
  constructor
  · intro h
    obtain ⟨ends, hne, hdoc⟩ := decode_objects_ne_none_iff.1 h.decode_ne_none
    obtain ⟨items, rfl, hitems⟩ := document_readAsEnds.1 hdoc
    have hne : items ≠ [] := mt List.map_eq_nil_iff.2 hne
    obtain ⟨⟨c, first⟩, hfirst⟩ : ∃ a, items.head? = some a := ⟨_, List.head?_eq_some_head hne⟩
    obtain ⟨⟨d, last⟩, hlast⟩ : ∃ b, items.getLast? = some b :=
      ⟨_, List.getLast?_eq_some_getLast hne⟩
    obtain ⟨form, hshape, -⟩ := exists_claims_of_detect h.detect_ne_none
    obtain ⟨-, rfl, rfl⟩ := (hasShape_endsIn hitems hfirst hlast).1 hshape
    exact ⟨items, first, last, hfirst, hlast, hitems⟩
  · rintro ⟨items, first, last, hfirst, hlast, hdoc⟩
    have hshape : ∀ form : Form, form.hasShape t = true ↔ form = objects := by
      intro form
      rw [hasShape_endsIn hdoc hfirst hlast]
      simp
    have hne : items.map Prod.snd ≠ [] := by
      rw [Ne, List.map_eq_nil_iff]
      rintro rfl
      cases hfirst
    exact claims_of_hasShape ((hshape objects).2 rfl) (fun other => (hshape other).1)
      (decode_objects_ne_none_iff.2 ⟨_, hne, document_readAsEnds.2 ⟨items, rfl, hdoc⟩⟩)

/-- An array of objects is an array of ends with nothing but objects in it. -/
theorem document_endsIn {ends : List (Text × Text)}
    (hdoc : Document (ArrayOf (Pair Edge.keys Literal)) ends t) :
    Document (ArrayOf EndsIn) (ends.map (Prod.mk .object)) t :=
  hdoc.imp fun _ _ => Json.Enclosed.map (f := Prod.mk Container.object) fun _ _ _ h => h

theorem document_ends {ends : List (Text × Text)}
    (hdoc : Document (ArrayOf (Pair Edge.keys Literal)) ends t) :
    Document (ArrayOf ReadAsEnds) ends t :=
  document_readAsEnds.2 ⟨_, by simp, document_endsIn hdoc⟩

theorem claims_objects {ends : List (Text × Text)} (hne : ends ≠ [])
    (hdoc : Document (ArrayOf (Pair Edge.keys Literal)) ends t) : objects.Claims t :=
  claims_objects_iff.2 ⟨_, ends.head hne, ends.getLast hne,
    by simp [List.head?_eq_some_head hne], by simp [List.getLast?_eq_some_getLast hne],
    document_endsIn hdoc⟩

/-- The form of strings claims exactly the JSON arrays of one or more strings, but for the array of
one empty string. The form of objects claims exactly the JSON arrays of objects and arrays with two
ends in which the first item and the last item are objects, and so all arrays of one or more
objects. A text that neither form claims is a plain expression. -/
theorem claims_documents (t : Text) :
    (strings.Claims t ↔
      ∃ items, items ≠ [] ∧ items ≠ [[]] ∧ Document (ArrayOf Literal) items t) ∧
    (objects.Claims t ↔ ∃ items first last,
      items.head? = some (.object, first) ∧ items.getLast? = some (.object, last) ∧
        Document (ArrayOf EndsIn) items t) ∧
    ((∃ ends, ends ≠ [] ∧ Document (ArrayOf (Pair Edge.keys Literal)) ends t) →
      objects.Claims t) ∧
    ((∃ form : Form, form.Claims t) ∨
      detect t = .ok none ∧ buildExpression t = buildPlain t) := by
  refine ⟨claims_strings_iff, claims_objects_iff, ?_, ?_⟩
  · rintro ⟨ends, hne, hdoc⟩
    exact claims_objects hne hdoc
  · by_cases h : detect t = .ok none
    · right
      refine ⟨h, funext fun graph => ?_⟩
      rw [buildExpression, h]
    · left
      obtain ⟨form, -, hclaims⟩ := exists_claims_of_detect h
      exact ⟨form, hclaims⟩

/-- The ends of an edge as an object, the way it is written. -/
def objectOf (ends : Text × Text) : Json :=
  .object [(Edge.keys.1, .string ends.1), (Edge.keys.2, .string ends.2)]

theorem written_objectOf (ends : Text × Text) :
    Json.Written (Pair Edge.keys Literal) ends (objectOf ends) :=
  .pair (by decide) (Json.written_string _) (Json.written_string _)

theorem skipSpace_of_pair {ends : Text × Text} {s s₁ s₂ : Text} (hspace : Json.Spaces s s₁)
    (h : Pair Edge.keys Literal ends s₁ s₂) : ∃ u, Json.skipSpace s = '\x7b' :: u := by
  obtain ⟨body, rfl, -⟩ := Json.framed_pair Json.uniform_literal h
  exact ⟨_, hspace.skipSpace_cons rfl⟩

/-- No array stands behind the first item of a listing of objects. -/
theorem not_listing_pair {all : List (Text × Text)} {ends : Text × Text} {s s₁ s₂ s₃ r : Text}
    (hfirst : Pair Edge.keys Literal ends s s₁) (hcomma : Json.skipSpace s₁ = ',' :: s₂)
    (harray : Json.skipSpace s₂ = '[' :: s₃) :
    ¬ Json.Listing ']' (Pair Edge.keys Literal) all s r := by
  -- the reader takes one thing only, so every pair at the front ends where this one does
  have hrun : ∀ {p s' u}, Json.Spaces s s' → Pair Edge.keys Literal p s' u → u = s₁ := by
    intro p s' u hspace hpair
    have hone := reads_ends.run_eq_ok.2 ⟨s, .refl _, .inl hfirst⟩
    have hother := reads_ends.run_eq_ok.2 ⟨s', hspace, .inl hpair⟩
    cases hone.symm.trans hother
    rfl
  have hbehind : ¬ ∃ u, Json.skipSpace s₂ = '\x7b' :: u := by
    rintro ⟨u, hu⟩
    cases harray.symm.trans hu
  intro hlisting
  cases hlisting with
  | last hspace hpair hclose =>
    cases hrun hspace hpair
    cases hcomma.symm.trans (hclose.skipSpace_cons rfl)
  | more hspace hpair hcomma' hrest =>
    cases hrun hspace hpair
    cases hcomma.symm.trans (hcomma'.skipSpace_cons rfl)
    cases hrest with
    | last hspace hpair _ => exact hbehind (skipSpace_of_pair hspace hpair)
    | more hspace hpair _ _ => exact hbehind (skipSpace_of_pair hspace hpair)

/-- Two objects with the two ends, and an array of two ends between them. -/
def mixedEnds : Text :=
  "[\x7b\"source\":\"A\",\"target\":\"B\"\x7d,[\"C\",\"D\"],".toList ++
    "\x7b\"source\":\"E\",\"target\":\"F\"\x7d]".toList

/-- The array of one empty string is not claimed, and an array is that has an array as an item. -/
theorem claims_not_documents :
    (Document (ArrayOf Literal) [[]] "[\"\"]".toList ∧ detect "[\"\"]".toList = .ok none) ∧
    objects.Claims mixedEnds ∧
    ¬ ∃ ends, Document (ArrayOf (Pair Edge.keys Literal)) ends mixedEnds := by
  have hwritten : mixedEnds = (Json.array [objectOf (['A'], ['B']),
      .array [.string ['C'], .string ['D']], objectOf (['E'], ['F'])]).compact := by
    decide
  have hobject : ∀ ends, Json.Written EndsIn (.object, ends) (objectOf ends) := written_objectOf
  have harray : Json.Written EndsIn (.array, ['C'], ['D'])
      (.array [.string ['C'], .string ['D']]) :=
    Json.Written.array (.cons (Json.written_string _) (.cons (Json.written_string _) .nil))
  have hitems : Document (ArrayOf EndsIn)
      [(.object, ['A'], ['B']), (.array, ['C'], ['D']), (.object, ['E'], ['F'])] mixedEnds := by
    rw [hwritten]
    exact (Json.Written.array (.cons (hobject _) (.cons harray (.cons (hobject _) .nil)))).document
  refine ⟨⟨?_, rfl⟩, claims_objects_iff.2 ⟨_, _, _, rfl, rfl, hitems⟩, ?_⟩
  · exact (Json.Written.array (.cons (Json.written_string []) .nil)).document
  · rintro ⟨ends, s, r, hspace, henclosed, -⟩
    have hfront : mixedEnds = '[' :: ((objectOf (['A'], ['B'])).compact ++ ',' ::
        "[\"C\",\"D\"],\x7b\"source\":\"E\",\"target\":\"F\"\x7d]".toList) := by
      decide
    rw [hfront] at hspace
    cases henclosed with
    | empty hclose =>
      cases hspace.skipSpace_cons rfl
      cases hclose.skipSpace_cons rfl
    | items hlisting =>
      cases hspace.skipSpace_cons rfl
      exact not_listing_pair (written_objectOf (['A'], ['B']) _) rfl rfl hlisting

/-! ## The order of the forms

Nothing in the definition of `detectAmong` keeps a text from being of several forms. What does is
the first item: a string begins with a quote, and the ends of an edge begin with a brace or a
bracket.
-/

/-- Behind the bracket of an array that is not empty comes its first item. -/
theorem exists_first_item {α : Type} {Item : α → Text → Text → Prop} {as : List α}
    (hne : as ≠ []) (hdoc : Document (ArrayOf Item) as t) :
    ∃ a s s' r, Json.skipSpace t = '[' :: s ∧ Json.Spaces s s' ∧ Item a s' r := by
  obtain ⟨u, r, hspace, henclosed, -⟩ := hdoc
  cases henclosed with
  | empty _ => exact absurd rfl hne
  | items hlisting =>
    have hopen := hspace.skipSpace_cons (show Json.isSpace '[' = false from rfl)
    cases hlisting with
    | last hspace ha _ => exact ⟨_, _, _, _, hopen, hspace, ha⟩
    | more hspace ha _ _ => exact ⟨_, _, _, _, hopen, hspace, ha⟩

/-- No quote begins the two ends of an edge. -/
theorem skipSpace_of_readAsEnds {ends : Text × Text} {s s' r : Text} (hspace : Json.Spaces s s')
    (h : ReadAsEnds ends s' r) : ∃ c u, Json.skipSpace s = c :: u ∧ c ≠ '"' := by
  rcases h with hobject | harray
  · obtain ⟨u, hu⟩ := skipSpace_of_pair hspace hobject
    exact ⟨_, u, hu, by decide⟩
  · cases harray with
    | items _ => exact ⟨_, _, hspace.skipSpace_cons rfl, by decide⟩

theorem decode_objects_of_strings (h : strings.decode t ≠ .ok none) :
    objects.decode t = .ok none := by
  by_contra hobjects
  obtain ⟨items, hitems, hstrings⟩ := decode_strings_ne_none_iff.1 h
  obtain ⟨ends, hends, hobjects⟩ := decode_objects_ne_none_iff.1 hobjects
  obtain ⟨_, s, _, _, hs, hspace, ⟨_⟩⟩ := exists_first_item hitems hstrings
  obtain ⟨_, u, _, _, hu, hspace', hread⟩ := exists_first_item hends hobjects
  -- both find their first item behind the same bracket
  cases hs.symm.trans hu
  obtain ⟨c, v, hc, hne⟩ := skipSpace_of_readAsEnds hspace' hread
  cases hc.symm.trans (hspace.skipSpace_cons rfl)
  exact hne rfl

/-- A text is decoded in one form at most. -/
theorem eq_of_decode_ne_none {form' : Form} (h : form.decode t ≠ .ok none)
    (h' : form'.decode t ≠ .ok none) : form = form' := by
  cases form with
  | strings =>
    cases form' with
    | strings => rfl
    | objects => exact absurd (decode_objects_of_strings h) h'
  | objects =>
    cases form' with
    | strings => exact absurd (decode_objects_of_strings h') h
    | objects => rfl

/-- The form that claims a text answers, wherever it stands among the forms. -/
theorem detectAmong_of_mem {forms : List Form} (hmem : form ∈ forms)
    (hshape : form.hasShape t = true) (hdecode : form.decode t ≠ .ok none) :
    detectAmong t forms = (form.decode t).map fun edges => edges.map (form, ·) := by
  induction forms with
  | nil => cases hmem
  | cons first rest ih =>
    by_cases hfirst : first.decode t = .ok none
    · rw [detectAmong_of_not_claimed fun _ => hfirst]
      rcases List.mem_cons.1 hmem with rfl | hmem
      · exact absurd hfirst hdecode
      · exact ih hmem
    · cases eq_of_decode_ne_none hfirst hdecode
      exact detectAmong_of_claimed hshape hdecode

theorem detectAmong_of_forall {forms : List Form}
    (h : ∀ form ∈ forms, form.hasShape t = true → form.decode t = .ok none) :
    detectAmong t forms = .ok none := by
  induction forms with
  | nil => rfl
  | cons first rest ih =>
    rw [List.forall_mem_cons] at h
    rw [detectAmong_of_not_claimed h.1]
    exact ih h.2

/-- What is detected depends on which forms are tried, but not on their order. -/
theorem detectAmong_congr {forms forms' : List Form} (h : ∀ form, form ∈ forms ↔ form ∈ forms') :
    detectAmong t forms = detectAmong t forms' := by
  by_cases hclaimed : ∃ form ∈ forms, form.hasShape t = true ∧ form.decode t ≠ .ok none
  · obtain ⟨form, hmem, hshape, hdecode⟩ := hclaimed
    rw [detectAmong_of_mem hmem hshape hdecode,
      detectAmong_of_mem ((h form).1 hmem) hshape hdecode]
  · have hnone : ∀ form ∈ forms, form.hasShape t = true → form.decode t = .ok none := by
      simpa using hclaimed
    rw [detectAmong_of_forall hnone,
      detectAmong_of_forall fun form hmem => hnone form ((h form).2 hmem)]

/-- At most one form decodes a text to a list or to the failure of an item, even where the outward
shape is not asked for. So the two forms may be tried in either order, and as often as one likes:
the answer is the same form with the same edges, the same failure, or none. -/
theorem detect_any_order (t : Text) :
    (∀ form form' : Form, form.decode t ≠ .ok none → form'.decode t ≠ .ok none → form = form') ∧
    detectAmong t [objects, strings] = detect t ∧
    ∀ forms, strings ∈ forms → objects ∈ forms → detectAmong t forms = detect t := by
  have hany : ∀ forms, strings ∈ forms → objects ∈ forms → detectAmong t forms = detect t := by
    intro forms hstrings hobjects
    refine detectAmong_congr fun form => ?_
    cases form with
    | strings => simp [hstrings]
    | objects => simp [hobjects]
  exact ⟨fun _ _ => eq_of_decode_ne_none, hany _ (by simp) (by simp), hany⟩

end Form

end StageGraph
