import Mathlib.Tactic
import StageGraph.Proofs.Plain.Renaming
import StageGraph.Proofs.Thumbnail.Letters

set_option autoImplicit false

/-! # Thumbnails of plain expressions

The thumbnail of a plain text is the text cut at all its marks and written again, with letters for
the names between them (`plainThumbnail_eq`). Letters are no marks, so its tokens are those of the
text under other names (`tokensOf_plainThumbnail`); and since it has no bracket, no form of an edge
list claims it (`detect_plainThumbnail`).
-/

namespace StageGraph

/-! ## Pieces with letters -/

/-- The other name of the name that a piece is, unless it is blank. -/
def relabelled (r : Renaming) (t : Text) : Text :=
  if Text.trim t = [] then [] else r.rename (Text.trim t)

/-- The pieces with other names between the marks. -/
def Marked.rename (r : Renaming) (m : Marked) : Marked :=
  ⟨relabelled r m.first, m.rest.map fun piece => (piece.1, relabelled r piece.2)⟩

theorem nameTokens_relabelled (r : Renaming) (t : Text) :
    nameTokens (relabelled r t) = (nameTokens t).map (Token.rename r.rename) := by
  unfold relabelled
  by_cases hblank : Text.trim t = []
  · rw [if_pos hblank, nameTokens_of_blank hblank]
    rfl
  · have htrim : Text.trim (r.rename (Text.trim t)) = r.rename (Text.trim t) :=
      Text.trim_eq_self_of_trimmed (r.trimmed (Text.trimmed_trim t))
    have hne : Text.trim (r.rename (Text.trim t)) ≠ [] := by
      rw [htrim]
      exact r.ne_nil hblank
    rw [if_neg hblank, nameTokens_of_ne_nil hblank, nameTokens_of_ne_nil hne, htrim]
    rfl

theorem Marked.tokens_rename (r : Renaming) (m : Marked) :
    (m.rename r).tokens = m.tokens.map (Token.rename r.rename) := by
  simp only [rename, tokens, nameTokens_relabelled, List.map_append, List.map_flatMap,
    List.flatMap_map, List.map_cons, Token.rename]

/-! ## The text that a thumbnail is -/

theorem relabelName_eq (met : List Text) (t : Text) (more : List Text) :
    relabelName met.eraseDups t =
      (relabelled (lettering (met ++ (namesOf (nameTokens t) ++ more))) t,
        (met ++ namesOf (nameTokens t)).eraseDups) := by
  unfold relabelName relabelled
  by_cases hblank : Text.trim t = []
  · rw [if_pos hblank, if_pos hblank, nameTokens_of_blank hblank]
    simp [namesOf]
  · rw [if_neg hblank, if_neg hblank, nameTokens_of_ne_nil hblank]
    exact lettersFor_eq met (Text.trim t) more

/-- The tokens of marks and of the pieces behind them. -/
def tokensBehind (rest : List (Mark × Text)) : List Token :=
  rest.flatMap fun piece => .mark piece.1 :: nameTokens piece.2

theorem relabelPieces_eq (met : List Text) (rest : List (Mark × Text)) :
    relabelPieces met.eraseDups rest = rest.flatMap fun piece => piece.1.text ++
      relabelled (lettering (met ++ namesOf (tokensBehind rest))) piece.2 := by
  induction rest generalizing met with
  | nil => rfl
  | cons piece rest ih =>
    obtain ⟨k, t⟩ := piece
    have hnames : namesOf (tokensBehind ((k, t) :: rest)) =
        namesOf (nameTokens t) ++ namesOf (tokensBehind rest) := by simp [tokensBehind]
    rw [hnames, relabelPieces, relabelName_eq met t (namesOf (tokensBehind rest)),
      List.flatMap_cons]
    simp only [ih, List.append_assoc]

/-- A plain text is cut at its marks and written again with letters for its names. -/
theorem plainThumbnail_eq (t : Text) : plainThumbnail t =
    ((Marked.read (fun _ => true) t).rename (lettering (namesOf (tokensOf t)))).text := by
  have hnames : namesOf (tokensOf t) =
      namesOf (nameTokens (Marked.read (fun _ => true) t).first) ++
        namesOf (tokensBehind (Marked.read (fun _ => true) t).rest) := namesOf_append _ _
  have hfirst := relabelName_eq [] (Marked.read (fun _ => true) t).first
    (namesOf (tokensBehind (Marked.read (fun _ => true) t).rest))
  rw [List.nil_append, List.nil_append, List.eraseDups_nil, ← hnames] at hfirst
  simp only [plainThumbnail, hfirst, relabelPieces_eq, ← hnames, Marked.text, Marked.rename,
    List.flatMap_map]

/-! ## Its tokens -/

theorem not_mark_of_isLetter {c : Char} (h : IsLetter c) : Mark.ofChar? c = none ∧ c ≠ '-' := by
  have hne : ∀ d : Char, ¬ IsLetter d → c ≠ d := by
    rintro d hd rfl
    exact hd h
  have hcomma := hne ',' (by unfold IsLetter; decide)
  have hopen := hne '(' (by unfold IsLetter; decide)
  have hclose := hne ')' (by unfold IsLetter; decide)
  have hsemi := hne ';' (by unfold IsLetter; decide)
  refine ⟨?_, hne '-' (by unfold IsLetter; decide)⟩
  rw [Mark.ofChar?, if_neg hcomma, if_neg hopen, if_neg hclose, if_neg hsemi]

namespace Marked

theorem read_markText (k : Mark) (t : Text) :
    read (fun _ => true) (k.text ++ t) = pushMark k (read (fun _ => true) t) := by
  cases k with
  | arrow => exact (read_arrow _ t).trans (if_pos rfl)
  | comma | opening | closing | semicolon => exact (read_mark _ rfl).trans (if_pos rfl)

theorem read_letters_append {s : Text} (h : ∀ c ∈ s, IsLetter c) (t : Text) :
    read (fun _ => true) (s ++ t) =
      ⟨s ++ (read (fun _ => true) t).first, (read (fun _ => true) t).rest⟩ := by
  induction s with
  | nil => rfl
  | cons c s ih =>
    rw [List.forall_mem_cons] at h
    obtain ⟨hmark, hdash⟩ := not_mark_of_isLetter h.1
    rw [List.cons_append, read_cons _ hmark (fun hc => absurd hc hdash), ih h.2]
    rfl

/-- Pieces of letters are what their text is cut into. -/
theorem read_text {m : Marked} (h : ∀ p ∈ m.texts, ∀ c ∈ p, IsLetter c) :
    read (fun _ => true) m.text = m := by
  obtain ⟨first, rest⟩ := m
  induction rest generalizing first with
  | nil =>
    have hfirst := read_letters_append (h first List.mem_cons_self) []
    simpa [text, read, none] using hfirst
  | cons piece rest ih =>
    obtain ⟨k, t⟩ := piece
    rw [texts, List.forall_mem_cons] at h
    have hrest := ih t (by simpa [texts] using h.2)
    have htext : text ⟨first, (k, t) :: rest⟩ = first ++ (k.text ++ text ⟨t, rest⟩) := by
      simp [text]
    rw [htext, read_letters_append h.1, read_markText, hrest]
    simp [pushMark]

end Marked

theorem Marked.mem_tokens {m : Marked} {p : Text} (hp : p ∈ m.texts) (hne : Text.trim p ≠ []) :
    Token.name (Text.trim p) ∈ m.tokens := by
  have hself : Token.name (Text.trim p) ∈ nameTokens p := by
    rw [nameTokens_of_ne_nil hne]
    exact List.mem_singleton_self _
  rw [tokens, List.mem_append, List.mem_flatMap]
  rcases List.mem_cons.1 hp with rfl | hp
  · exact .inl hself
  · obtain ⟨piece, hpiece, rfl⟩ := List.mem_map.1 hp
    exact .inr ⟨piece, hpiece, List.mem_cons_of_mem _ hself⟩

/-- A thumbnail has nothing but letters between its marks. -/
theorem isLetter_of_mem_texts {t p : Text} (hp : p ∈ ((Marked.read (fun _ => true) t).rename
    (lettering (namesOf (tokensOf t)))).texts) : ∀ c ∈ p, IsLetter c := by
  obtain ⟨q, hq, rfl⟩ : ∃ q ∈ (Marked.read (fun _ => true) t).texts,
      relabelled (lettering (namesOf (tokensOf t))) q = p := by
    rcases List.mem_cons.1 hp with rfl | hp
    · exact ⟨_, List.mem_cons_self, rfl⟩
    · simp only [Marked.rename, List.map_map, List.mem_map] at hp
      obtain ⟨piece, hpiece, rfl⟩ := hp
      exact ⟨_, List.mem_cons_of_mem _ (List.mem_map_of_mem hpiece), rfl⟩
  unfold relabelled
  split
  · exact fun c hc => absurd hc List.not_mem_nil
  · next hne => exact fun c => isLetter_of_mem_rename (mem_namesOf.2 (Marked.mem_tokens hq hne))

/-- The tokens of a thumbnail are those of the text, with letters for the names. -/
theorem tokensOf_plainThumbnail (t : Text) : tokensOf (plainThumbnail t) =
    (tokensOf t).map (Token.rename (lettering (namesOf (tokensOf t))).rename) := by
  rw [plainThumbnail_eq]
  conv_lhs => rw [tokensOf, Marked.read_text fun p hp => isLetter_of_mem_texts hp]
  exact Marked.tokens_rename _ _

/-! ## It is no edge list -/

theorem detect_of_not_mem {t : Text} (h : '[' ∉ t) : Form.detect t = .ok none := by
  have hshape : ∀ form : Form, form.hasShape t = false := by
    intro form
    have hinside : Form.inside? '[' ']' t = none := by
      refine if_neg fun hboth => h (Text.mem_of_mem_trim (List.mem_of_mem_head? ?_))
      exact hboth.2.1
    rw [Form.hasShape, hinside]
  simp only [Form.detect, Form.detectAmong, hshape, Bool.false_eq_true, if_false]

theorem not_mem_plainThumbnail (t : Text) : '[' ∉ plainThumbnail t := by
  have hletter : ∀ p : Text, (∀ c ∈ p, IsLetter c) → '[' ∉ p := fun p hp hmem =>
    absurd (hp _ hmem) (by unfold IsLetter; decide)
  have hmark : ∀ k : Mark, '[' ∉ k.text := fun k => by cases k <;> decide
  rw [plainThumbnail_eq, Marked.text, List.mem_append, List.mem_flatMap]
  rintro (hmem | ⟨piece, hpiece, hmem⟩)
  · exact hletter _ (isLetter_of_mem_texts List.mem_cons_self) hmem
  · rcases List.mem_append.1 hmem with hmem | hmem
    · exact hmark _ hmem
    · exact hletter _ (isLetter_of_mem_texts (List.mem_cons_of_mem _ (List.mem_map_of_mem hpiece)))
        hmem

/-- No form of an edge list claims the thumbnail of a plain text. -/
theorem detect_plainThumbnail (t : Text) :
    Form.detect (Text.trim (plainThumbnail t)) = .ok none :=
  detect_of_not_mem fun hmem => not_mem_plainThumbnail t (Text.mem_of_mem_trim hmem)

end StageGraph
