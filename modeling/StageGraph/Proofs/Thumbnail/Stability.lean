import Mathlib.Tactic
import StageGraph.Proofs.EdgeList.RoundTrip
import StageGraph.Proofs.Thumbnail.Shape

set_option autoImplicit false

/-! # A thumbnail is its own thumbnail

The letters of an expression are met in the order of the alphabet, so each of them gets itself again
(`lettering_again`). It remains that a thumbnail is read in the way it was written: one of a plain
text is claimed by no form and cut into the pieces it was put together from
(`plainThumbnail_again`), and one of an edge list is claimed by its form, with the edges that were
encoded (`thumbnail_encode`). Every thumbnail is one of the two (`thumbnail_cases`).
-/

namespace StageGraph

/-- Letters get themselves again. -/
theorem lettering_again {names : List Text} {name : Text} (h : name ∈ names) :
    (lettering (names.map (lettering names).rename)).rename ((lettering names).rename name) =
      (lettering names).rename name := by
  have hinj := (lettering names).injective
  have hplace : (names.map (lettering names).rename).eraseDups.idxOf
      ((lettering names).rename name) = names.eraseDups.idxOf name := by
    rw [eraseDups_map fun _ _ _ _ heq => hinj heq, idxOf_map fun _ _ heq => hinj heq]
  calc (lettering (names.map (lettering names).rename)).rename ((lettering names).rename name)
      = letters ((names.map (lettering names).rename).eraseDups.idxOf
          ((lettering names).rename name)) := if_pos (List.mem_map_of_mem h)
    _ = letters (names.eraseDups.idxOf name) := by rw [hplace]
    _ = (lettering names).rename name := (if_pos h).symm

/-! ## Plain texts -/

theorem namesOf_rename (f : Text → Text) (ts : List Token) :
    namesOf (ts.map (Token.rename f)) = (namesOf ts).map f := by
  induction ts with
  | nil => rfl
  | cons token ts ih =>
    cases token with
    | mark k => exact ih
    | name n => exact congrArg (f n :: ·) ih

/-- A piece under its other name is one that keeps its name. -/
theorem relabelled_again {r r' : Renaming} {t : Text}
    (h : Text.trim t ≠ [] → r'.rename (r.rename (Text.trim t)) = r.rename (Text.trim t)) :
    relabelled r' (relabelled r t) = relabelled r t := by
  by_cases hblank : Text.trim t = []
  · have hnil : relabelled r t = [] := if_pos hblank
    rw [hnil]
    rfl
  · have hpiece : relabelled r t = r.rename (Text.trim t) := if_neg hblank
    have htrim : Text.trim (r.rename (Text.trim t)) = r.rename (Text.trim t) :=
      Text.trim_eq_self_of_trimmed (r.trimmed (Text.trimmed_trim t))
    rw [hpiece, relabelled, htrim, if_neg (r.ne_nil hblank)]
    exact h hblank

theorem Marked.rename_again {r r' : Renaming} {m : Marked}
    (h : ∀ p ∈ m.texts, Text.trim p ≠ [] →
      r'.rename (r.rename (Text.trim p)) = r.rename (Text.trim p)) :
    (m.rename r).rename r' = m.rename r := by
  obtain ⟨first, rest⟩ := m
  obtain ⟨hfirst, hrest⟩ := List.forall_mem_cons.1 h
  have hpieces : ∀ piece ∈ rest,
      (piece.1, relabelled r' (relabelled r piece.2)) = (piece.1, relabelled r piece.2) :=
    fun piece hpiece => congrArg (Prod.mk piece.1)
      (relabelled_again (hrest _ (List.mem_map_of_mem hpiece)))
  simp only [rename, relabelled_again hfirst, List.map_map]
  congr 1
  exact List.map_congr_left hpieces

/-- The thumbnail of a plain text is cut into the pieces it was put together from, and these keep
their letters. -/
theorem plainThumbnail_again (t : Text) : plainThumbnail (plainThumbnail t) = plainThumbnail t := by
  have hnames : namesOf (tokensOf (plainThumbnail t)) =
      (namesOf (tokensOf t)).map (lettering (namesOf (tokensOf t))).rename := by
    rw [tokensOf_plainThumbnail, namesOf_rename]
  have hpieces : Marked.read (fun _ => true) (plainThumbnail t) =
      (Marked.read (fun _ => true) t).rename (lettering (namesOf (tokensOf t))) := by
    rw [plainThumbnail_eq, Marked.read_text fun p hp => isLetter_of_mem_texts hp]
  rw [plainThumbnail_eq (plainThumbnail t), hnames, hpieces, Marked.rename_again,
    ← plainThumbnail_eq]
  intro p hp hne
  exact lettering_again (mem_namesOf.2 (Marked.mem_tokens hp hne))

theorem thumbnail_plainThumbnail (t : Text) : thumbnail (plainThumbnail t) = plainThumbnail t := by
  rw [thumbnail, detect_of_not_mem (not_mem_plainThumbnail t)]
  exact plainThumbnail_again t

/-! ## Edge lists -/

section

variable {edges : List Edge}

theorem namesIn_rename (hstages : StagesOnly edges) (r : Renaming) :
    namesIn (edges.map r.edge) = (namesIn edges).map r.rename := by
  rw [namesIn, List.flatMap_map, namesIn, List.map_flatMap]
  refine List.flatMap_congr fun e he => ?_
  obtain ⟨⟨hstart, hfinish⟩, hstart', hfinish'⟩ := hstages.ne_ends he
  show [(r.node e.source).name, (r.node e.target).name] =
    [r.rename e.source.name, r.rename e.target.name]
  rw [r.name_node hstart hfinish, r.name_node hstart' hfinish']

/-- A node keeps its name under a renaming that keeps this name. -/
theorem Renaming.node_eq_self (r : Renaming) {n : Node} (h : r.rename n.name = n.name) :
    r.node n = n := by
  cases n with
  | start | finish => rfl
  | stage s => exact Node.eq_of_parts (r.topology_node _) (r.ordinal_node _) h

theorem edge_again (hstages : StagesOnly edges) {e : Edge} (he : e ∈ edges) :
    (lettering ((namesIn edges).map (lettering (namesIn edges)).rename)).edge
      ((lettering (namesIn edges)).edge e) = (lettering (namesIn edges)).edge e := by
  have hnode : ∀ n : Node, n ≠ .start → n ≠ .finish → n.name ∈ namesIn edges →
      (lettering ((namesIn edges).map (lettering (namesIn edges)).rename)).node
        ((lettering (namesIn edges)).node n) = (lettering (namesIn edges)).node n := by
    intro n hstart hfinish hn
    apply Renaming.node_eq_self
    rw [Renaming.name_node _ hstart hfinish]
    exact lettering_again hn
  obtain ⟨⟨hstart, hfinish⟩, hstart', hfinish'⟩ := hstages.ne_ends he
  have hsource : e.source.name ∈ namesIn edges := List.mem_flatMap.2 ⟨e, he, by simp⟩
  have htarget : e.target.name ∈ namesIn edges := List.mem_flatMap.2 ⟨e, he, by simp⟩
  exact congrArg₂ Edge.mk (hnode _ hstart hfinish hsource) (hnode _ hstart' hfinish' htarget)

/-- The thumbnail of an edge list is claimed by its form, and its edges keep their letters. -/
theorem thumbnail_encode {form : Form} (hne : edges ≠ []) (hstages : StagesOnly edges)
    (hloops : ∀ e ∈ edges, e.source ≠ e.target) :
    thumbnail (form.encode (edges.map (lettering (namesIn edges)).edge)) =
      form.encode (edges.map (lettering (namesIn edges)).edge) := by
  have hcarries := carries_lettering form hstages hloops
  have hdetect := Form.detect_encode (by simpa using hne) hcarries
  have hnames := namesIn_rename hstages (lettering (namesIn edges))
  rw [thumbnail_of_detect hdetect (hstages.rename _) fun e he => (hcarries e he).not_loop, hnames,
    List.map_map]
  congr 1
  exact List.map_congr_left fun e he => edge_again hstages he

/-- Edges can be relabelled only if none of them names a sentinel. -/
theorem stagesOnly_of_relabelEdges {names : List Text} {edges' : List Edge}
    (h : relabelEdges names edges = .ok edges') : StagesOnly edges := by
  have hstage : ∀ {n m : Node} {label : Text}, n.renamed label = .ok m → n.isSentinel = false := by
    intro n m label hn
    cases n with
    | start | finish => cases hn
    | stage s => rfl
  induction edges generalizing names edges' with
  | nil => exact fun e he => absurd he List.not_mem_nil
  | cons e rest ih =>
    obtain ⟨source, hsource, h⟩ := bind_eq_ok.1 h
    obtain ⟨target, htarget, h⟩ := bind_eq_ok.1 h
    obtain ⟨edge, -, h⟩ := bind_eq_ok.1 h
    obtain ⟨others, hrest, -⟩ := bind_eq_ok.1 h
    refine List.forall_mem_cons.2 ⟨?_, ih hrest⟩
    rw [Edge.namesSentinel, hstage hsource, hstage htarget]
    rfl

end

/-! ## Thumbnails -/

/-- A thumbnail is that of a plain text or that of an edge list between stages. -/
theorem thumbnail_cases (t : Text) : thumbnail t = plainThumbnail t ∨
    ∃ (form : Form) (edges : List Edge), edges ≠ [] ∧ StagesOnly edges ∧
      (∀ e ∈ edges, e.source ≠ e.target) ∧
      thumbnail t = form.encode (edges.map (lettering (namesIn edges)).edge) := by
  rcases hdetect : Form.detect t with failure | _ | ⟨form, edges⟩
  · left
    rw [thumbnail, hdetect]
  · left
    rw [thumbnail, hdetect]
  · obtain ⟨hne, hloops⟩ := Form.of_detect hdetect
    cases hrelabel : relabelEdges [] edges with
    | error failure =>
      left
      simp only [thumbnail, hdetect, hrelabel]
    | ok edges' =>
      have hstages := stagesOnly_of_relabelEdges hrelabel
      exact .inr ⟨form, edges, hne, hstages, hloops, thumbnail_of_detect hdetect hstages hloops⟩

/-- A thumbnail is its own thumbnail, whatever text it was made from. -/
theorem thumbnail_thumbnail (t : Text) : thumbnail (thumbnail t) = thumbnail t := by
  rcases thumbnail_cases t with hplain | ⟨form, edges, hne, hstages, hloops, hlist⟩
  · rw [hplain]
    exact thumbnail_plainThumbnail t
  · rw [hlist]
    exact thumbnail_encode hne hstages hloops

end StageGraph
