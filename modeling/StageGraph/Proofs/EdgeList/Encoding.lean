import Mathlib.Tactic
import StageGraph.EdgeList.Form
import StageGraph.Proofs.Json.RoundTrip
import StageGraph.Proofs.Node.Text
import StageGraph.Proofs.Plain.Token

set_option autoImplicit false

/-! # Encoded edge lists are detected

What a form encodes is claimed by that form, with the same edges (`Form.detect_encode`). An array of
objects may hold any edges without loops; in an array of strings no name may contain an arrow, which
would be taken for the one between the two nodes.
-/

namespace StageGraph

/-! ## Nodes -/

theorem afterDigits?_append {ds : Text} (h : Text.Decimal ds) (t : Text) :
    afterDigits? (ds ++ ':' :: t) = some t := by
  have hcolon : Text.isDecimalDigit ':' = false := by decide
  rw [afterDigits?, List.dropWhile_append_of_pos h.digits,
    List.dropWhile_cons_of_neg (by simp [hcolon]), List.takeWhile_append_of_pos h.digits,
    List.takeWhile_cons_of_neg (by simp [hcolon]), List.append_nil]
  exact if_neg h.ne_nil

/-- Two numbers and a name look like a node if the name is not blank. -/
theorem looksLikeNode_append {i j : Text} (hi : Text.Decimal i) (hj : Text.Decimal j)
    (name : Text) :
    looksLikeNode (i ++ ':' :: (j ++ ':' :: name)) = name.any fun c => !Text.isBlank c := by
  rw [looksLikeNode, afterDigits?_append hi, Option.bind_some, afterDigits?_append hj]

theorem looksLikeNode_text (n : Node) : looksLikeNode n.text = true := by
  rw [Node.text, List.append_assoc, List.cons_append,
    looksLikeNode_append (Text.decimal_ofNat _) (Text.decimal_ofNat _), List.any_eq_true]
  obtain ⟨c, t, hc⟩ := List.exists_cons_of_ne_nil n.name_ne_nil
  have hblank := n.trimmed_name.1 c (by rw [hc]; rfl)
  exact ⟨c, hc ▸ List.mem_cons_self, by rw [hblank]; rfl⟩

/-- The text of a node is read as the node. -/
theorem readEndpoint_text (n : Node) : readEndpoint n.text = .ok n := by
  have hne : n.text ≠ [] := by
    obtain ⟨d, t, hd, -⟩ := n.text_eq_cons
    rw [hd]
    exact List.cons_ne_nil d t
  simp only [readEndpoint, Text.trim_eq_self_of_trimmed n.trimmed_text, if_neg hne,
    looksLikeNode_text, if_true, n.read_text]

theorem readEndpoint_congr {s t : Text} (h : Text.trim s = Text.trim t) :
    readEndpoint s = readEndpoint t := by
  simp only [readEndpoint, h]

theorem Edge.between_of_ne {e : Edge} (h : e.source ≠ e.target) :
    Edge.between e.source e.target = .ok e := if_neg h

theorem readEnds_text (e : Edge) :
    readEnds e.source.text e.target.text = Edge.between e.source e.target := by
  simp only [readEnds, readEndpoint_text]
  rfl

/-! ## Arrows -/

/-- No arrow occurs in the text. -/
def ArrowFree (t : Text) : Prop := ¬ Mark.arrow.text <:+: t

instance : DecidablePred ArrowFree := fun t => inferInstanceAs (Decidable (¬ _ <:+: t))

namespace ArrowFree

theorem of_cons {c : Char} {t : Text} (h : ArrowFree (c :: t)) : ArrowFree t :=
  fun hmem => h (List.infix_cons hmem)

/-- A character that begins no arrow leaves a text without arrows. -/
theorem cons_of_ne {c : Char} {t : Text} (harrow : c = '-' → ∀ more, t ≠ '>' :: more)
    (h : ArrowFree t) : ArrowFree (c :: t) := by
  intro hmem
  rcases List.infix_cons_iff.1 hmem with ⟨u, hu⟩ | hmem
  · cases hu
    exact harrow rfl u rfl
  · exact h hmem

theorem cons {c : Char} {t : Text} (hc : c ≠ '-') (h : ArrowFree t) : ArrowFree (c :: t) :=
  h.cons_of_ne fun hdash => absurd hdash hc

theorem of_part {s t : Text} (h : ArrowFree t) (hs : s <:+: t) : ArrowFree s :=
  fun hmem => h (hmem.trans hs)

theorem append {s t : Text} (hs : '-' ∉ s) (h : ArrowFree t) : ArrowFree (s ++ t) := by
  induction s with
  | nil => exact h
  | cons c s ih =>
    rw [List.mem_cons, not_or] at hs
    exact (ih hs.2).cons (Ne.symm hs.1)

/-- A text without a dash has no arrow. -/
theorem of_not_mem {t : Text} (h : '-' ∉ t) : ArrowFree t := by
  simpa using append h (t := []) (by decide)

theorem ne_arrow {c : Char} {t : Text} (h : ArrowFree (c :: t)) (hc : c = '-') (more : Text) :
    t ≠ '>' :: more := by
  rintro rfl
  exact h ⟨[], more, by rw [hc]; rfl⟩

/-- A character that begins no arrow begins none in front of another text, which does not start
with the tip of an arrow. -/
theorem ne_arrow_append {c : Char} {s t : Text} (hs : ArrowFree (c :: s))
    (ht : ∀ more, t ≠ '>' :: more) : c = '-' → ∀ more, s ++ t ≠ '>' :: more := by
  intro hc more h
  cases s with
  | nil => exact ht more h
  | cons d s =>
    cases h
    exact hs.ne_arrow hc _ rfl

theorem append_of_ne {s t : Text} (hs : ArrowFree s) (h : ArrowFree t)
    (ht : ∀ more, t ≠ '>' :: more) : ArrowFree (s ++ t) := by
  induction s with
  | nil => exact h
  | cons c s ih => exact (ih hs.of_cons).cons_of_ne (hs.ne_arrow_append ht)

end ArrowFree

theorem arrowFree_text {n : Node} (h : ArrowFree n.name) : ArrowFree n.text := by
  have hdash : ∀ m, '-' ∉ Text.ofNat m := fun m => Text.not_mem_ofNat rfl
  rw [Node.text, List.append_assoc]
  exact ((h.cons (by decide)).append (hdash _)).cons (by decide) |>.append (hdash _)

namespace Marked

/-- A character that begins no arrow belongs to the first piece. -/
theorem read_cons_arrow {c : Char} {rest : Text} (harrow : c = '-' → ∀ more, rest ≠ '>' :: more) :
    read (· == .arrow) (c :: rest) = pushChar c (read (· == .arrow) rest) := by
  cases hc : Mark.ofChar? c with
  | none => exact read_cons _ hc harrow
  | some k =>
    have hk : k ≠ .arrow := by
      rintro rfl
      have htext := text_ofChar? hc
      cases htext
    rw [read_mark _ hc, if_neg (by simpa using hk)]

/-- A text without an arrow belongs to the first piece. -/
theorem read_arrowFree_append {s t : Text} (hs : ArrowFree s) (ht : ∀ more, t ≠ '>' :: more) :
    read (· == .arrow) (s ++ t) =
      ⟨s ++ (read (· == .arrow) t).first, (read (· == .arrow) t).rest⟩ := by
  induction s with
  | nil => rfl
  | cons c s ih =>
    rw [List.cons_append, read_cons_arrow (hs.ne_arrow_append ht), ih hs.of_cons]
    rfl

theorem read_arrowFree {s : Text} (hs : ArrowFree s) : read (· == .arrow) s = ⟨s, []⟩ := by
  simpa [read, none] using read_arrowFree_append hs (t := []) (by simp)

end Marked

/-- A text with one arrow in it is cut at this arrow. -/
theorem Marked.read_one_arrow {s t : Text} (hs : ArrowFree s) (ht : ArrowFree t) :
    read (· == .arrow) (s ++ (Mark.arrow.text ++ t)) = ⟨s, [(.arrow, t)]⟩ := by
  have hrest : read (· == .arrow) (Mark.arrow.text ++ t) = ⟨[], [(.arrow, t)]⟩ := by
    show read (· == .arrow) ('-' :: '>' :: t) = _
    rw [read_arrow, if_pos (by rfl), read_arrowFree ht]
    rfl
  rw [read_arrowFree_append hs (by simp [Mark.text]), hrest, List.append_nil]

/-- An item is read as the ends around its one arrow. -/
theorem readItem_one_arrow {s t : Text} (hs : ArrowFree s) (ht : ArrowFree t) :
    readItem (s ++ (Mark.arrow.text ++ t)) = readEnds s t := by
  rw [readItem, Marked.read_one_arrow hs ht]
  rfl

/-- The white space that is written around an arrow does not count. -/
theorem readItem_arrow {s t : Text} (hs : ArrowFree s) (ht : ArrowFree t) :
    readItem (s ++ (Edge.arrow ++ t)) = readEnds s t := by
  have hblank : ∀ c ∈ [' '], Text.isBlank c = true := List.forall_mem_singleton.2 rfl
  have hs' : ArrowFree (s ++ [' ']) := hs.append_of_ne (.of_not_mem (by decide)) (by simp)
  have hsource : readEndpoint (s ++ [' ']) = readEndpoint s :=
    readEndpoint_congr (Text.trim_append_blank hblank s)
  have htarget : readEndpoint (' ' :: t) = readEndpoint t :=
    readEndpoint_congr (Text.trim_blank_append hblank t)
  calc readItem (s ++ (Edge.arrow ++ t))
      = readItem ((s ++ [' ']) ++ (Mark.arrow.text ++ ' ' :: t)) := by
        rw [List.append_assoc]
        rfl
    _ = readEnds (s ++ [' ']) (' ' :: t) := readItem_one_arrow hs' (ht.cons (by decide))
    _ = readEnds s t := by rw [readEnds, hsource, htarget]; rfl

/-- The text of an edge is read as the edge if the one arrow in it is that between the nodes. -/
theorem readItem_text {e : Edge} (hsource : ArrowFree e.source.name)
    (htarget : ArrowFree e.target.name) : readItem e.text = Edge.between e.source e.target := by
  rw [Edge.text, List.append_assoc,
    readItem_arrow (arrowFree_text hsource) (arrowFree_text htarget), readEnds_text]

namespace Form

variable {form : Form} {edges : List Edge}

/-- The form can carry the edge. -/
structure Carries (form : Form) (e : Edge) : Prop where
  not_loop : e.source ≠ e.target
  arrowFree : form = strings → ArrowFree e.source.name ∧ ArrowFree e.target.name

theorem readAll_map {α : Type} {readOne : α → Except Failure Edge} {write : Edge → α}
    (h : ∀ e ∈ edges, readOne (write e) = .ok e) :
    readAll readOne (edges.map write) = .ok edges := by
  induction edges with
  | nil => rfl
  | cons e edges ih =>
    rw [List.forall_mem_cons] at h
    rw [List.map_cons, readAll, h.1, ih h.2]
    rfl

theorem claim_ok {α : Type} {readOne : α → Except Failure Edge} {items : List α}
    (hne : items ≠ []) : claim readOne (.ok items) = (readAll readOne items).map some := by
  unfold claim
  split
  · next hitems => cases hitems
  · next hitems => exact absurd (Except.ok.inj hitems) hne
  · next hitems =>
    cases hitems
    rfl

theorem claim_map {α : Type} {readOne : α → Except Failure Edge} {write : Edge → α}
    (hne : edges ≠ []) (h : ∀ e ∈ edges, readOne (write e) = .ok e) :
    claim readOne (.ok (edges.map write)) = .ok (some edges) := by
  rw [claim_ok (mt List.map_eq_nil_iff.1 hne), readAll_map h]
  rfl

theorem decode_strings_encode (edges : List Edge) :
    strings.decode (strings.encode edges) = claim readItem (.ok (edges.map Edge.text)) := by
  have hread := Json.undoes_string.list.read_eq (edges.map Edge.text)
  rw [List.map_map] at hread
  exact congrArg (claim readItem) hread

theorem decode_objects_encode (edges : List Edge) :
    objects.decode (objects.encode edges) =
      claim (fun ends => readEnds ends.1 ends.2)
        (.ok (edges.map fun e => (e.source.text, e.target.text))) := by
  have hkeys : Edge.keys.2 ≠ Edge.keys.1 := by decide
  have hread := (Json.undoes_string.pair hkeys).list.read_eq
    (edges.map fun e => (e.source.text, e.target.text))
  rw [List.map_map] at hread
  exact congrArg (claim fun ends => readEnds ends.1 ends.2) hread

/-- What a form encodes it decodes. -/
theorem decode_encode (hne : edges ≠ []) (h : ∀ e ∈ edges, form.Carries e) :
    form.decode (form.encode edges) = .ok (some edges) := by
  cases form with
  | strings =>
    rw [decode_strings_encode]
    refine claim_map hne fun e he => ?_
    obtain ⟨hsource, htarget⟩ := (h e he).arrowFree rfl
    rw [readItem_text hsource htarget, Edge.between_of_ne (h e he).not_loop]
  | objects =>
    rw [decode_objects_encode]
    refine claim_map hne fun e he => ?_
    rw [readEnds_text, Edge.between_of_ne (h e he).not_loop]

/-! ## The outward shape -/

/-- The text stands between two characters and is more than these. -/
def Enclosed (first last : Char) (t : Text) : Prop :=
  ∃ body, body ≠ [] ∧ t = first :: body ++ [last]

theorem enclosed_itemOf (form : Form) (e : Edge) :
    Enclosed form.delimiters.1 form.delimiters.2 (form.itemOf e).compact := by
  cases form with
  | strings =>
    obtain ⟨d, t, hd, hdigit⟩ := e.source.text_eq_cons
    refine ⟨e.text.flatMap Json.escapeChar, ?_, by rw [itemOf, Json.compact]; rfl⟩
    have hescape : Json.escapeChar d ≠ [] := by
      unfold Json.escapeChar
      split_ifs <;> exact List.cons_ne_nil _ _
    rw [Edge.text, hd, List.cons_append, List.cons_append, List.flatMap_cons]
    exact List.append_ne_nil_of_left_ne_nil hescape _
  | objects =>
    refine ⟨_, ?_, by rw [itemOf, Edge.toJson, Json.compact]; rfl⟩
    simp [Json.compactFields, Json.writeString]

theorem enclosed_compactItems {first last : Char} {items : List Json} (hne : items ≠ [])
    (h : ∀ j ∈ items, Enclosed first last j.compact) :
    Enclosed first last (Json.compactItems items) := by
  induction items with
  | nil => exact absurd rfl hne
  | cons j items ih =>
    rw [List.forall_mem_cons] at h
    obtain ⟨body, hbody, hj⟩ := h.1
    by_cases hnil : items = []
    · subst hnil
      exact ⟨body, hbody, by rw [Json.compactItems, hj]⟩
    · obtain ⟨rest, -, hrest⟩ := ih hnil h.2
      refine ⟨body ++ last :: ',' :: first :: rest, by simp, ?_⟩
      rw [Json.compactItems_cons hnil, hj, hrest]
      simp

theorem trimmed_between {first last : Char} (hfirst : Text.isBlank first = false)
    (hlast : Text.isBlank last = false) (body : Text) : Text.Trimmed (first :: body ++ [last]) := by
  refine ⟨fun c hc => ?_, fun c hc => ?_⟩
  · cases hc
    exact hfirst
  · rw [List.getLast?_append_of_ne_nil _ (List.cons_ne_nil _ _)] at hc
    cases hc
    exact hlast

theorem trimmed_of_enclosed {first last : Char} {t : Text} (h : Enclosed first last t)
    (hfirst : Text.isBlank first = false) (hlast : Text.isBlank last = false) :
    Text.Trimmed t := by
  obtain ⟨body, -, rfl⟩ := h
  exact trimmed_between hfirst hlast body

/-- White space around a text that stands between two characters is trimmed. -/
theorem trim_between {first last : Char} (hfirst : Text.isBlank first = false)
    (hlast : Text.isBlank last = false) {v w : Text} (hv : ∀ c ∈ v, Text.isBlank c = true)
    (hw : ∀ c ∈ w, Text.isBlank c = true) (body : Text) :
    Text.trim (v ++ ((first :: body ++ [last]) ++ w)) = first :: body ++ [last] := by
  rw [Text.trim_blank_append hv, Text.trim_append_blank hw,
    Text.trim_eq_self_of_trimmed (trimmed_between hfirst hlast body)]

/-- The items of an encoded list, and the list itself, stand between their delimiters. -/
theorem enclosed_encode (form : Form) (hne : edges ≠ []) : ∃ items,
    Enclosed form.delimiters.1 form.delimiters.2 items ∧
      form.encode edges = '[' :: items ++ [']'] := by
  have hitems : ∀ j ∈ edges.map form.itemOf,
      Enclosed form.delimiters.1 form.delimiters.2 j.compact := by
    intro j hj
    obtain ⟨e, -, rfl⟩ := List.mem_map.1 hj
    exact enclosed_itemOf form e
  exact ⟨_, enclosed_compactItems (mt List.map_eq_nil_iff.1 hne) hitems,
    by rw [encode, Json.compact]⟩

theorem trimmed_encode (form : Form) (hne : edges ≠ []) : Text.Trimmed (form.encode edges) := by
  obtain ⟨items, ⟨body, -, rfl⟩, hencode⟩ := enclosed_encode form hne
  exact trimmed_of_enclosed ⟨_, by simp, hencode⟩ rfl rfl

theorem inside?_eq {first last : Char} {t body : Text}
    (h : Text.trim t = first :: body ++ [last]) : inside? first last t = some (Text.trim body) := by
  have hlast : (first :: body ++ [last]).getLast? = some last := List.getLast?_concat
  rw [inside?, h, hlast]
  simp

/-- What stands between the brackets has the shape of the form with its delimiters, unless there is
nothing between these. -/
theorem hasShape_iff {first last : Char} {t body : Text}
    (h : inside? '[' ']' t = some (first :: body ++ [last])) :
    form.hasShape t = true ↔ body ≠ [] ∧ form.delimiters = (first, last) := by
  have hlast : (first :: body ++ [last]).getLast? = some last := List.getLast?_concat
  have hlength : 3 ≤ (first :: body ++ [last]).length ↔ body ≠ [] := by
    rw [← List.length_pos_iff]
    simp only [List.cons_append, List.length_cons, List.length_append, List.length_nil]
    omega
  have hfirst : (first :: body ++ [last]).head? = some first := rfl
  simp only [hasShape, h, hfirst, hlast, Bool.and_eq_true, decide_eq_true_eq, hlength, beq_iff_eq,
    Option.some.injEq, Prod.ext_iff, and_assoc]
  exact and_congr_right fun _ => and_congr eq_comm eq_comm

theorem delimiters_injective : Function.Injective delimiters := by
  rintro (_ | _) (_ | _) h
  · rfl
  · cases h
  · cases h
  · rfl

/-- An encoded list has the outward shape of its own form only. -/
theorem hasShape_encode (other : Form) (hne : edges ≠ []) :
    other.hasShape (form.encode edges) = decide (other = form) := by
  have htrim := Text.trim_eq_self_of_trimmed (trimmed_encode form hne)
  obtain ⟨items, hitems, hencode⟩ := enclosed_encode form hne
  have hblank : Text.isBlank form.delimiters.1 = false ∧
      Text.isBlank form.delimiters.2 = false := by
    cases form <;> decide
  have hself := Text.trim_eq_self_of_trimmed (trimmed_of_enclosed hitems hblank.1 hblank.2)
  have hinside : inside? '[' ']' (form.encode edges) = some items := by
    rw [inside?_eq (htrim.trans hencode), hself]
  obtain ⟨body, hbody, rfl⟩ := hitems
  rw [Bool.eq_iff_iff, hasShape_iff hinside, decide_eq_true_eq]
  constructor
  · rintro ⟨-, hsame⟩
    exact delimiters_injective hsame
  · rintro rfl
    exact ⟨hbody, rfl⟩

/-- What a form encodes is claimed by that form, with the same edges. -/
theorem detect_encode (hne : edges ≠ []) (h : ∀ e ∈ edges, form.Carries e) :
    detect (form.encode edges) = .ok (some (form, edges)) := by
  have hdecode := decode_encode hne h
  cases form with
  | strings =>
    rw [detect, detectAmong, hasShape_encode _ hne, if_pos (by decide), hdecode]
  | objects =>
    rw [detect, detectAmong, hasShape_encode _ hne, if_neg (by decide), detectAmong,
      hasShape_encode _ hne, if_pos (by decide), hdecode]

end Form

end StageGraph
