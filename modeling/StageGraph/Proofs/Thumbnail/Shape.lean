import Mathlib.Tactic
import StageGraph.Proofs.EdgeList.Encoding
import StageGraph.Proofs.EdgeList.Renaming
import StageGraph.Proofs.Thumbnail.Plain

set_option autoImplicit false

/-! # Thumbnails compile to the same shape

The thumbnail of an expression that compiles does so as well, and to the same graph with other names
for the stages (`compile_thumbnail`). For an edge list this goes through its encoding: the letters
hold no arrow, so the form that claims the list claims its thumbnail, with the renamed edges.
-/

namespace StageGraph

/-! ## Edge lists -/

/-- The names of the listed nodes, with repetition. -/
def namesIn (edges : List Edge) : List Text := edges.flatMap fun e => [e.source.name, e.target.name]

section

variable {edges : List Edge}

theorem StagesOnly.ne_ends {e : Edge} (h : StagesOnly edges) (he : e ∈ edges) :
    (e.source ≠ .start ∧ e.source ≠ .finish) ∧ e.target ≠ .start ∧ e.target ≠ .finish :=
  ⟨h.ne_sentinel (mem_listedNodes.2 ⟨e, he, .inl rfl⟩),
    h.ne_sentinel (mem_listedNodes.2 ⟨e, he, .inr rfl⟩)⟩

/-- Edges between different stages are relabelled with letters for all their names. -/
theorem relabelEdges_eq (met : List Text) (hstages : StagesOnly edges)
    (hloops : ∀ e ∈ edges, e.source ≠ e.target) :
    relabelEdges met.eraseDups edges =
      .ok (edges.map (lettering (met ++ namesIn edges)).edge) := by
  induction edges generalizing met with
  | nil => rfl
  | cons e rest ih =>
    obtain ⟨⟨hstart, hfinish⟩, hstart', hfinish'⟩ := hstages.ne_ends List.mem_cons_self
    rw [List.forall_mem_cons] at hloops
    have hnames : namesIn (e :: rest) = e.source.name :: e.target.name :: namesIn rest := rfl
    have hsource := lettersFor_eq met e.source.name (e.target.name :: namesIn rest)
    have htarget := lettersFor_eq (met ++ [e.source.name]) e.target.name (namesIn rest)
    have hrest := ih (met ++ [e.source.name] ++ [e.target.name])
      (fun d hd => hstages d (List.mem_cons_of_mem _ hd)) hloops.2
    have hall : met ++ [e.source.name] ++ [e.target.name] ++ namesIn rest =
        met ++ e.source.name :: e.target.name :: namesIn rest := by simp
    rw [← List.append_cons] at htarget
    rw [hall] at hrest
    rw [hnames]
    set r := lettering (met ++ e.source.name :: e.target.name :: namesIn rest)
    have hne : r.node e.source ≠ r.node e.target := fun heq => hloops.1 (r.node_injective heq)
    simp only [relabelEdges, hsource, htarget, r.renamed_eq hstart hfinish,
      r.renamed_eq hstart' hfinish', bind, Except.bind, Edge.between, if_neg hne, hrest]
    rfl

/-- The letters are no obstacle to any form. -/
theorem carries_lettering (form : Form) (hstages : StagesOnly edges)
    (hloops : ∀ e ∈ edges, e.source ≠ e.target) :
    ∀ e ∈ edges.map (lettering (namesIn edges)).edge, form.Carries e := by
  have harrow : ∀ n : Node, n ≠ .start → n ≠ .finish → n.name ∈ namesIn edges →
      ArrowFree ((lettering (namesIn edges)).node n).name := by
    intro n hstart hfinish hn
    rw [Renaming.name_node _ hstart hfinish]
    refine ArrowFree.of_not_mem fun hdash => ?_
    exact absurd (isLetter_of_mem_rename hn hdash) (by unfold IsLetter; decide)
  intro e' he'
  obtain ⟨e, he, rfl⟩ := List.mem_map.1 he'
  obtain ⟨⟨hstart, hfinish⟩, hstart', hfinish'⟩ := hstages.ne_ends he
  have hnames : e.source.name ∈ namesIn edges ∧ e.target.name ∈ namesIn edges :=
    ⟨List.mem_flatMap.2 ⟨e, he, by simp⟩, List.mem_flatMap.2 ⟨e, he, by simp⟩⟩
  exact ⟨fun heq => hloops e he ((lettering (namesIn edges)).node_injective heq), fun _ =>
    ⟨harrow _ hstart hfinish hnames.1, harrow _ hstart' hfinish' hnames.2⟩⟩

/-- An encoded list compiles to the graph that the list builds. -/
theorem compile_encode {form : Form} {g : Graph} (hcarries : ∀ e ∈ edges, form.Carries e)
    (hbuild : buildListed edges .empty = .ok () g) (hvalid : g.validate = .ok ()) :
    compile (form.encode edges) = .ok g := by
  have hne := ne_nil_of_buildListed hbuild hvalid
  have htrim := Text.trim_eq_self_of_trimmed (Form.trimmed_encode form hne)
  refine compile_eq_ok_iff.2 ⟨?_, ?_, hvalid⟩
  · rw [htrim, Form.encode, Json.compact]
    exact List.cons_ne_nil _ _
  · rw [htrim, buildExpression, Form.detect_encode hne hcarries]
    exact hbuild

/-- The thumbnail of an edge list is encoded in the form of the list. -/
theorem thumbnail_of_detect {t : Text} {form : Form}
    (hdetect : Form.detect t = .ok (some (form, edges))) (hstages : StagesOnly edges)
    (hloops : ∀ e ∈ edges, e.source ≠ e.target) :
    thumbnail t = form.encode (edges.map (lettering (namesIn edges)).edge) := by
  have hrelabel := relabelEdges_eq [] hstages hloops
  rw [List.eraseDups_nil, List.nil_append] at hrelabel
  simp only [thumbnail, hdetect, hrelabel]

end

/-! ## Reserved names -/

theorem not_reserved_of_isLetter {name : Text} (h : ∀ c ∈ name, IsLetter c) : ¬ Reserved name := by
  rintro (rfl | rfl)
  · exact absurd (h 't' (by decide)) (by unfold IsLetter; decide)
  · exact absurd (h 'n' (by decide)) (by unfold IsLetter; decide)

theorem not_reserved_lettering {t n : Text} (hn : Token.name n ∈ tokensOf t) :
    ¬ Reserved ((lettering (namesOf (tokensOf t))).rename n) :=
  not_reserved_of_isLetter fun _ => isLetter_of_mem_rename (mem_namesOf.2 hn)

/-! ## The shape -/

/-- A trimmed expression that compiles has a thumbnail that compiles to the same graph under other
names. If it is a plain one without reserved names, its thumbnail compiles only if it does. -/
theorem compile_thumbnail {t : Text} (ht : Text.Trimmed t) :
    (∀ g, compile t = .ok g →
      ∃ h, compile (thumbnail t) = .ok h ∧ ∃ r : Renaming, g.RenamedBy r h) ∧
    (Form.detect t = .ok none → (∀ n, Token.name n ∈ tokensOf t → ¬ Reserved n) →
      ∀ h, compile (thumbnail t) = .ok h → ∃ g, compile t = .ok g) := by
  have htrim : Text.trim t = t := Text.trim_eq_self_of_trimmed ht
  have hplain : Form.detect t = .ok none → thumbnail t = plainThumbnail t := fun hdetect => by
    rw [thumbnail, hdetect]
  constructor
  · intro g hok
    obtain ⟨-, hbuild, hvalid⟩ := compile_eq_ok_iff.1 hok
    rw [htrim, buildExpression] at hbuild
    rcases hdetect : Form.detect t with failure | _ | ⟨form, edges⟩
    · rw [hdetect] at hbuild
      cases hbuild
    · rw [hplain hdetect]
      obtain ⟨h, hok', hrenamed⟩ := exists_compile_of_renamed (by rwa [htrim])
        (detect_plainThumbnail t) (tokensOf_plainThumbnail t) (fun n => not_reserved_lettering) hok
      exact ⟨h, hok', _, hrenamed⟩
    · rw [hdetect] at hbuild
      have hstages := stagesOnly_of_buildListed hbuild
      have hloops := not_loop_of_buildListed hbuild
      obtain ⟨h, hbuild', hvalid', hrenamed⟩ :=
        exists_buildListed_of_renamed hbuild hvalid (lettering (namesIn edges))
      rw [thumbnail_of_detect hdetect hstages hloops]
      exact ⟨h, compile_encode (carries_lettering form hstages hloops) hbuild' hvalid', _, hrenamed⟩
  · intro hdetect hlegal h hok
    rw [hplain hdetect] at hok
    exact exists_compile_of_rename (by rwa [htrim]) (detect_plainThumbnail t)
      (tokensOf_plainThumbnail t) (fun n hn => ⟨hlegal n hn, not_reserved_lettering hn⟩) hok

/-- A list of one edge, in any form, is an expression that compiles. -/
theorem exists_compile_encode (form : Form) {e : Edge} (hcarries : form.Carries e)
    (hsentinel : e.namesSentinel = false) : ∃ g, compile (form.encode [e]) = .ok g := by
  obtain ⟨g, hbuild, hvalid⟩ := exists_valid_of_edge hsentinel hcarries.not_loop
  exact ⟨g, compile_encode (List.forall_mem_singleton.2 hcarries) hbuild hvalid⟩

/-- A series of two stages, and the edge between two stages in an array of strings. -/
theorem compile_thumbnail_series :
    (∃ g h, ∃ r : Renaming, compile "Load->Sort".toList = .ok g ∧
      compile (thumbnail "Load->Sort".toList) = .ok h ∧ g.RenamedBy r h) ∧
    (∃ h, compile (thumbnail "Load->Sort".toList) = .ok h ∧
      ∃ g, compile "Load->Sort".toList = .ok g) ∧
    ∃ t g h, ∃ r : Renaming,
      t = Form.strings.encode [⟨letterStage 'x' rfl, letterStage 'y' rfl⟩] ∧
      compile t = .ok g ∧ compile (thumbnail t) = .ok h ∧ g.RenamedBy r h := by
  have hlegal : ¬ Reserved "Load".toList ∧ ¬ Reserved "Sort".toList := by decide
  obtain ⟨g, -, hok, -⟩ := compile_of_spells (t := "Load->Sort".toList) (by decide) rfl
    (SpellsAll.of_spells (Spells.series false hlegal.1 hlegal.2))
  have htrimmed : Text.Trimmed "Load->Sort".toList :=
    ⟨by rintro _ ⟨⟩; rfl, by rintro _ ⟨⟩; rfl⟩
  obtain ⟨hto, hfrom⟩ := compile_thumbnail htrimmed
  obtain ⟨h, hok', r, hrenamed⟩ := hto g hok
  have hnames : ∀ n, Token.name n ∈ tokensOf "Load->Sort".toList → ¬ Reserved n := by
    intro n hn
    have hmem : n ∈ ["Load".toList, "Sort".toList] := mem_namesOf.2 hn
    simp only [List.mem_cons, List.not_mem_nil, or_false] at hmem
    rcases hmem with rfl | rfl
    · exact hlegal.1
    · exact hlegal.2
  refine ⟨⟨g, h, r, hok, hok', hrenamed⟩, ⟨h, hok', hfrom rfl hnames h hok'⟩, ?_⟩
  obtain ⟨e, he⟩ : ∃ e : Edge, e = ⟨letterStage 'x' rfl, letterStage 'y' rfl⟩ := ⟨_, rfl⟩
  have hcarries : Form.strings.Carries e := by
    subst he
    exact ⟨letterStage_ne rfl rfl (by decide), fun _ => by
      constructor <;> exact ArrowFree.of_not_mem (by decide)⟩
  obtain ⟨g, hok⟩ := exists_compile_encode .strings hcarries (by subst he; rfl)
  have htrimmed := Form.trimmed_encode .strings (List.cons_ne_nil e [])
  obtain ⟨h, hok', r, hrenamed⟩ := (compile_thumbnail htrimmed).1 g hok
  exact ⟨_, g, h, r, by rw [← he], hok, hok', hrenamed⟩

end StageGraph
