import Mathlib.Data.List.DropRight
import Mathlib.Tactic
import StageGraph.Proofs.EdgeList.Agreement
import StageGraph.Proofs.Thumbnail.Stability

set_option autoImplicit false

/-! # White space around the text of a thumbnail

An expression is compiled without the white space around it, while its thumbnail is made from the
text as it is. To a plain text this makes no difference (`plainThumbnail_trim`), since every name is
trimmed anyway. An edge list is read as JSON, and JSON has four kinds of white space only: with any
other kind around it a list still has its outward shape, but is no document, and so is treated as
plain text (`detect_margins`). The thumbnail of a text is that of the trimmed text unless this
happens to a list between stages (`thumbnail_margins`).
-/

namespace StageGraph

/-- The white space in front of a text, and then that behind it. -/
def Text.margins (t : Text) : Text := t.takeWhile isBlank ++ t.rtakeWhile isBlank

/-- The white space around the text is white space in JSON. -/
def Json.SpacesAround (t : Text) : Prop := ∀ c ∈ Text.margins t, isSpace c = true

instance (t : Text) : Decidable (Json.SpacesAround t) := List.decidableBAll _ _

theorem Text.margins_between {first last : Char} (hfirst : isBlank first = false)
    (hlast : isBlank last = false) {v w : Text} (hv : ∀ c ∈ v, isBlank c = true)
    (hw : ∀ c ∈ w, isBlank c = true) (body : Text) :
    margins (v ++ ((first :: body ++ [last]) ++ w)) = v ++ w := by
  have hfront : (v ++ ((first :: body ++ [last]) ++ w)).takeWhile isBlank = v := by
    rw [List.takeWhile_append_of_pos hv]
    simp [hfirst]
  have hback : (v ++ ((first :: body ++ [last]) ++ w)).rtakeWhile isBlank = w := by
    rw [List.rtakeWhile, ← List.append_assoc, List.reverse_append,
      List.takeWhile_append_of_pos fun c hc => hw c (List.mem_reverse.1 hc)]
    simp [hlast]
  rw [margins, hfront, hback]

/-! ## Documents -/

/-- A text is a document of an array exactly if the text without the white space around it is one
and this is white space of JSON. -/
theorem document_iff_trim {α : Type} {Item : α → Text → Text → Prop} (hitem : Json.Uniform Item)
    {as : List α} {t : Text} :
    Json.Document (Json.ArrayOf Item) as t ↔
      Json.SpacesAround t ∧ Json.Document (Json.ArrayOf Item) as (Text.trim t) := by
  constructor
  · intro hdoc
    refine ⟨?_, (document_trim hitem hdoc).2⟩
    obtain ⟨v, body, w, hv, hw, rfl, -⟩ := (document_iff_exists hitem).1 hdoc
    rw [Json.SpacesAround, Text.margins_between rfl rfl (Json.isBlank_of_spaces hv)
      (Json.isBlank_of_spaces hw)]
    exact List.forall_mem_append.2 ⟨hv, hw⟩
  · rintro ⟨hspaces, hdoc⟩
    obtain ⟨v', body, w', hv', hw', hinner, harray⟩ := (document_iff_exists hitem).1 hdoc
    -- what is trimmed has no white space around the brackets
    have htrim : Text.trim t = '[' :: body ++ [']'] := by
      rw [← Text.trim_trim, hinner, Form.trim_between rfl rfl (Json.isBlank_of_spaces hv')
        (Json.isBlank_of_spaces hw')]
    obtain ⟨v, w, hv, hw, ht⟩ := Text.exists_blank_around t
    rw [htrim] at ht
    rw [ht, Json.SpacesAround, Text.margins_between rfl rfl hv hw, List.forall_mem_append]
      at hspaces
    exact (document_iff_exists hitem).2 ⟨v, body, w, hspaces.1, hspaces.2, ht, harray⟩

/-! ## What the forms claim -/

namespace Form

theorem claim_congr {α : Type} {readOne : α → Except Failure Edge}
    {items items' : Except Json.Fault (List α)} (h : ∀ as, items = .ok as ↔ items' = .ok as) :
    claim readOne items = claim readOne items' := by
  cases items with
  | ok as => rw [(h as).1 rfl]
  | error fault =>
    cases items' with
    | ok as => cases (h as).2 rfl
    | error fault' => rfl

/-- The shape of a text does not depend on white space around it. -/
theorem hasShape_trim (form : Form) (t : Text) : form.hasShape (Text.trim t) = form.hasShape t := by
  simp only [hasShape, inside?, Text.trim_trim]

theorem claim_margins {α : Type} {Item : α → Text → Text → Prop} {reader : Json.Reader (List α)}
    (hreads : reader.Reads (Json.ArrayOf Item)) (hitem : Json.Uniform Item)
    (readOne : α → Except Failure Edge) (t : Text) : claim readOne (reader.read t) =
      if Json.SpacesAround t then claim readOne (reader.read (Text.trim t)) else .ok none := by
  by_cases hspaces : Json.SpacesAround t
  · rw [if_pos hspaces]
    refine claim_congr fun as => ?_
    rw [hreads.read_eq_ok, hreads.read_eq_ok, document_iff_trim hitem, and_iff_right hspaces]
  · rw [if_neg hspaces]
    by_contra hclaim
    obtain ⟨as, has, -⟩ := claim_ne_none_iff.1 hclaim
    exact hspaces ((document_iff_trim hitem).1 (hreads.read_eq_ok.1 has)).1

/-- With white space of JSON around it a text is decoded like the trimmed text, and with any other
white space not at all. -/
theorem decode_margins (form : Form) (t : Text) : form.decode t =
    if Json.SpacesAround t then form.decode (Text.trim t) else .ok none := by
  cases form with
  | strings => exact claim_margins reads_strings Json.uniform_literal readItem t
  | objects =>
    exact claim_margins reads_objects uniform_readAsEnds (fun ends => readEnds ends.1 ends.2) t

theorem detectAmong_margins (t : Text) (forms : List Form) : detectAmong t forms =
    if Json.SpacesAround t then detectAmong (Text.trim t) forms else .ok none := by
  induction forms with
  | nil => exact (ite_self _).symm
  | cons form rest ih =>
    rw [detectAmong, detectAmong, hasShape_trim, decode_margins, ih]
    by_cases hspaces : Json.SpacesAround t
    · simp only [if_pos hspaces]
    · simp only [if_neg hspaces, ite_self]

/-- With white space of JSON around it a text is claimed like the trimmed text, and with any other
white space not at all. -/
theorem detect_margins (t : Text) :
    detect t = if Json.SpacesAround t then detect (Text.trim t) else .ok none :=
  detectAmong_margins t _

end Form

/-! ## Plain texts -/

theorem relabelled_trim (r : Renaming) (t : Text) :
    relabelled r (Text.trim t) = relabelled r t := by
  rw [relabelled, Text.trim_trim, relabelled]

theorem Marked.rename_trimAll (r : Renaming) (m : Marked) : m.trimAll.rename r = m.rename r := by
  simp only [trimAll, rename, relabelled_trim, List.map_map, Function.comp_def]

/-- White space around a plain text does not change its thumbnail. -/
theorem plainThumbnail_trim (t : Text) : plainThumbnail (Text.trim t) = plainThumbnail t := by
  rw [plainThumbnail_eq, tokensOf_trim, ← Marked.rename_trimAll, Marked.trimAll_read_trim,
    Marked.rename_trimAll, ← plainThumbnail_eq]

/-! ## Thumbnails -/

/-- The thumbnail is that of a plain text unless the text is a list between stages. -/
theorem thumbnail_eq_plain_iff {t : Text} : thumbnail t = plainThumbnail t ↔
    ∀ form edges, Form.detect t = .ok (some (form, edges)) → ¬ StagesOnly edges := by
  constructor
  · intro hplain form edges hdetect hstages
    have hlist := thumbnail_of_detect hdetect hstages (Form.of_detect hdetect).2
    refine not_mem_plainThumbnail t ?_
    rw [← hplain, hlist, Form.encode, Json.compact]
    exact List.mem_cons_self
  · intro hnot
    rcases hdetect : Form.detect t with failure | _ | ⟨form, edges⟩
    · rw [thumbnail, hdetect]
    · rw [thumbnail, hdetect]
    · cases hrelabel : relabelEdges [] edges with
      | error failure => simp only [thumbnail, hdetect, hrelabel]
      | ok edges' =>
        exact absurd (stagesOnly_of_relabelEdges hrelabel) (hnot form edges hdetect)

/-- White space around a text is no obstacle to its forms and does not change its thumbnail as long
as it is white space of JSON. With any other, no form claims the text and its thumbnail is that of
the trimmed text as a plain one. So the two thumbnails differ exactly for a list between stages with
white space around it that JSON does not have. -/
theorem thumbnail_margins (t : Text) :
    (Form.detect t =
      if Json.SpacesAround t then Form.detect (Text.trim t) else .ok none) ∧
    (thumbnail t =
      if Json.SpacesAround t then thumbnail (Text.trim t) else plainThumbnail (Text.trim t)) ∧
    (thumbnail t = thumbnail (Text.trim t) ↔ Json.SpacesAround t ∨
      ∀ form edges, Form.detect (Text.trim t) = .ok (some (form, edges)) →
        ¬ StagesOnly edges) := by
  have hdetect := Form.detect_margins t
  have hthumbnail : thumbnail t =
      if Json.SpacesAround t then thumbnail (Text.trim t) else plainThumbnail (Text.trim t) := by
    by_cases hspaces : Json.SpacesAround t
    · rw [if_pos hspaces] at hdetect
      rw [if_pos hspaces, thumbnail, thumbnail, hdetect, plainThumbnail_trim]
    · rw [if_neg hspaces] at hdetect
      rw [if_neg hspaces, thumbnail, hdetect, plainThumbnail_trim]
  refine ⟨hdetect, hthumbnail, ?_⟩
  rw [hthumbnail, ← thumbnail_eq_plain_iff]
  by_cases hspaces : Json.SpacesAround t
  · exact ⟨fun _ => .inl hspaces, fun _ => if_pos hspaces⟩
  · rw [if_neg hspaces, or_iff_right hspaces, eq_comm]

/-- The edge between two stages in an array of strings. -/
def oneEdge : Text := "[\"1:1:A -> 1:1:B\"]".toList

theorem plainThumbnail_oneEdge : plainThumbnail oneEdge = "A->B".toList := by
  have hread : Marked.read (fun _ => true) oneEdge =
      ⟨"[\"1:1:A ".toList, [(.arrow, " 1:1:B\"]".toList)]⟩ := by
    decide
  have hfirst : relabelName [] "[\"1:1:A ".toList = ("A".toList, ["[\"1:1:A".toList]) := by
    show (letters 0, _) = _
    rw [letters_of_lt (by decide)]
    rfl
  have hrest : relabelPieces ["[\"1:1:A".toList] [(.arrow, " 1:1:B\"]".toList)] =
      "->B".toList := by
    show Mark.arrow.text ++ letters 1 ++ [] = _
    rw [letters_of_lt (by decide)]
    rfl
  rw [plainThumbnail, hread]
  simp only [hfirst, hrest]
  rfl

/-- The one edge compiles, and has the letters of its nodes already. -/
theorem thumbnail_oneEdge : (∃ g, compile oneEdge = .ok g) ∧ thumbnail oneEdge = oneEdge := by
  obtain ⟨edge, hedge⟩ : ∃ edge : Edge, edge = ⟨letterStage 'A' rfl, letterStage 'B' rfl⟩ :=
    ⟨_, rfl⟩
  have hencode : oneEdge = Form.strings.encode [edge] := by subst hedge; decide
  have hcarries : Form.strings.Carries edge := by
    subst hedge
    exact ⟨letterStage_ne rfl rfl (by decide), fun _ => by
      constructor <;> exact ArrowFree.of_not_mem (by decide)⟩
  have hstage : edge.namesSentinel = false := by subst hedge; rfl
  have hletters : [edge].map (lettering (namesIn [edge])).edge = [edge] := by
    subst hedge
    exact congrArg (fun e => [e]) (congrArg₂ Edge.mk
      (Renaming.node_eq_self _ (letters_of_lt (by decide)))
      (Renaming.node_eq_self _ (letters_of_lt (by decide))))
  have hdetect := Form.detect_encode (List.cons_ne_nil edge [])
    (List.forall_mem_singleton.2 hcarries)
  have hthumbnail := thumbnail_of_detect hdetect (List.forall_mem_singleton.2 hstage)
    (List.forall_mem_singleton.2 hcarries.not_loop)
  rw [hletters, ← hencode] at hthumbnail
  exact ⟨hencode ▸ exists_compile_encode .strings hcarries hstage, hthumbnail⟩

/-- A no-break space in front of an edge list goes away before the list is compiled, but makes its
thumbnail that of a plain text. -/
theorem thumbnail_ne_trim : ∃ t : Text, t = '\xa0' :: oneEdge ∧ (∃ g, compile t = .ok g) ∧
    thumbnail t = "A->B".toList ∧ thumbnail (Text.trim t) = oneEdge ∧
    thumbnail t ≠ thumbnail (Text.trim t) := by
  obtain ⟨⟨g, hcompile⟩, hlist⟩ := thumbnail_oneEdge
  have htrim : Text.trim ('\xa0' :: oneEdge) = oneEdge := by decide
  have hplain : thumbnail ('\xa0' :: oneEdge) = "A->B".toList := by
    have hdetect := Form.detect_margins ('\xa0' :: oneEdge)
    rw [if_neg (by decide)] at hdetect
    rw [thumbnail, hdetect, ← plainThumbnail_oneEdge, ← htrim]
    exact (plainThumbnail_trim _).symm
  refine ⟨_, rfl, ⟨g, ?_⟩, hplain, htrim ▸ hlist, ?_⟩
  · rw [compile_eq_ok_iff, htrim]
    exact compile_eq_ok_iff.1 hcompile
  · rw [hplain, htrim, hlist]
    decide

end StageGraph
