import Mathlib.Data.List.Basic
import Mathlib.Tactic
import StageGraph.Proofs.Plain.Reading
import StageGraph.Proofs.Plain.Row

set_option autoImplicit false

/-! # Reading texts

What pieces spell depends on their texts only (`Reads.of_texts`), so it may be said of texts:
`ReadsAs xs e v` is about the first stage `e` that the texts `xs` spell and the stages `v` behind
it. A row reads as its parts do (`readsAs_text_iff`), however many parentheses there are around it.
-/

namespace StageGraph

/-! ## Texts decide -/

theorem map_text_cutAlong_eq {p p' : Piece} (h : p.text = p'.text) (bs : List Nat) :
    (p.cutAlong bs).map Piece.text = (p'.cutAlong bs).map Piece.text := by
  have hspan : (Span.mk 0 p.text).text = p.text := rfl
  rw [← map_text_cutAlong_span hspan bs .new, map_text_cutAlong_span (hspan.trans h) bs .new]

/-- The texts of a piece's parts depend on its text only. -/
theorem parts_of_text_eq {p p' : Piece} {ps : List Piece} (h : p.text = p'.text)
    (hparts : p.parts = .ok ps) :
    ∃ ps', p'.parts = .ok ps' ∧ ps'.map Piece.text = ps.map Piece.text := by
  fun_induction Piece.parts p generalizing p' with
  | case1 p hatom =>
    cases hparts
    exact ⟨[p'], Piece.parts_of_isAtomic (by rwa [← h]), by simp [h]⟩
  | case2 => cases hparts
  | case3 p hatom hin tree hout =>
    cases hparts
    refine ⟨_, Piece.parts_of_outline (by simpa [h] using hatom) (by rwa [← h]) (by rwa [← h]), ?_⟩
    exact (map_text_cutAlong_eq h _).symm
  | case4 p hatom hin hout ih =>
    rw [Piece.parts_of_outline_none (by simpa [h] using hatom) (by rwa [← h]) (by rwa [← h])]
    exact ih (by rw [Piece.wrap, Piece.wrap, h]) hparts
  | case5 p hatom hin ih =>
    rw [Piece.parts_of_not_isEnclosed (by simpa [h] using hatom) (by simpa [h] using hin)]
    exact ih (by rw [Piece.wrap, Piece.wrap, h]) hparts

/-- The names of a tree of pieces. -/
def Tree.texts (t : Tree Piece) : Tree Text := t.map Piece.text

theorem Tree.texts_followedBy (s : Tree Piece) (u : Option (Tree Piece)) :
    (s.followedBy u).texts = s.texts.followedBy (u.map texts) :=
  map_followedBy Piece.text s u

/-- Pieces with the same texts spell trees of the same names. -/
theorem Reads.of_texts {ps ps' : List Piece} {s : Tree Piece} {u : Option (Tree Piece)}
    (h : Reads ps s u) (htexts : ps'.map Piece.text = ps.map Piece.text) :
    ∃ s' u', Reads ps' s' u' ∧ s'.texts = s.texts ∧
      u'.map Tree.texts = u.map Tree.texts := by
  induction h generalizing ps' with
  | @name p q hparts hatom hlegal =>
    obtain ⟨p', rfl, hp⟩ := List.map_eq_singleton_iff.1 htexts
    obtain ⟨qs, hparts', hqs⟩ := parts_of_text_eq hp.symm hparts
    obtain ⟨q', rfl, hq⟩ := List.map_eq_singleton_iff.1 hqs
    refine ⟨.atom q', none, .name hparts' (by rwa [hq]) (by rwa [hq]), ?_, rfl⟩
    simp only [Tree.texts, Tree.map, hq]
  | @nest p ps s u hparts hopen h ih =>
    obtain ⟨p', rfl, hp⟩ := List.map_eq_singleton_iff.1 htexts
    obtain ⟨qs, hparts', hqs⟩ := parts_of_text_eq hp.symm hparts
    obtain ⟨s', u', hreads, hs, hu⟩ := ih hqs
    refine ⟨s'.followedBy u', none, .nest hparts' ?_ hreads, ?_, rfl⟩
    · rintro q' rfl
      obtain ⟨q, rfl, hq⟩ := List.map_eq_singleton_iff.1 hqs.symm
      rw [← hq]
      exact hopen q rfl
    · rw [Tree.texts_followedBy, Tree.texts_followedBy, hs, hu]
  | @comma p y ps t s u ht hy h iht ih =>
    obtain ⟨p', qs, rfl, hp, hqs⟩ := List.map_eq_cons_iff.1 htexts
    obtain ⟨y', ps', rfl, hy', hps⟩ := List.map_eq_cons_iff.1 hqs
    have hterm : [p'].map Piece.text = [p].map Piece.text := congrArg ([·]) hp
    obtain ⟨t', v, ht', htext, hv⟩ := iht hterm
    obtain ⟨s', u', hreads, hs, hu⟩ := ih hps
    obtain rfl : v = none := by simpa using hv
    refine ⟨.par t' s', u', .comma ht' (by rw [hy', hy]) hreads, ?_, hu⟩
    simp only [Tree.texts, Tree.map] at htext hs ⊢
    rw [htext, hs]
  | @arrow p y ps t s u ht hy h iht ih =>
    obtain ⟨p', qs, rfl, hp, hqs⟩ := List.map_eq_cons_iff.1 htexts
    obtain ⟨y', ps', rfl, hy', hps⟩ := List.map_eq_cons_iff.1 hqs
    have hterm : [p'].map Piece.text = [p].map Piece.text := congrArg ([·]) hp
    obtain ⟨t', v, ht', htext, hv⟩ := iht hterm
    obtain ⟨s', u', hreads, hs, hu⟩ := ih hps
    obtain rfl : v = none := by simpa using hv
    refine ⟨t', some (s'.followedBy u'), .arrow ht' (by rw [hy', hy]) hreads, htext, ?_⟩
    rw [Option.map_some, Option.map_some, Tree.texts_followedBy, Tree.texts_followedBy, hs, hu]

/-- The texts, alternately terms and separators, spell a first stage and the stages behind it. -/
def ReadsAs (xs : List Text) (e : Tree Text) (v : Option (Tree Text)) : Prop :=
  ∃ ps s u, ps.map Piece.text = xs ∧ Reads ps s u ∧ s.texts = e ∧ u.map Tree.texts = v

namespace ReadsAs

variable {xs ys : List Text} {x y : Text} {d e : Tree Text} {v : Option (Tree Text)}

/-- Any pieces with these texts will do. -/
theorem reads (h : ReadsAs xs e v) {ps : List Piece} (hps : ps.map Piece.text = xs) :
    ∃ s u, Reads ps s u ∧ s.texts = e ∧ u.map Tree.texts = v := by
  obtain ⟨qs, s, u, hqs, hreads, rfl, rfl⟩ := h
  exact hreads.of_texts (hps.trans hqs.symm)

/-- A single term, as any piece with its text. -/
theorem reads_term (h : ReadsAs [x] e none) {p : Piece} (hp : p.text = x) :
    ∃ t, Reads [p] t none ∧ t.texts = e := by
  have hterm : [p].map Piece.text = [x] := congrArg ([·]) hp
  obtain ⟨t, u, ht, htext, hu⟩ := h.reads hterm
  obtain rfl : u = none := by simpa using hu
  exact ⟨t, ht, htext⟩

theorem ne_nil (h : ReadsAs xs e v) : xs ≠ [] := by
  obtain ⟨ps, s, u, rfl, hreads, -, -⟩ := h
  simpa using hreads.ne_nil

theorem comma (ht : ReadsAs [x] d none) (h : ReadsAs xs e v) :
    ReadsAs (x :: Mark.comma.text :: xs) (.par d e) v := by
  obtain ⟨t, hterm, rfl⟩ := ht.reads_term (p := ⟨.root, x⟩) rfl
  obtain ⟨ps, s, u, rfl, hreads, rfl, rfl⟩ := h
  exact ⟨⟨.root, x⟩ :: ⟨.root, Mark.comma.text⟩ :: ps, .par t s, u, rfl, .comma hterm rfl hreads,
    rfl, rfl⟩

/-- Terms side by side in front of other stages. -/
theorem append_arrow (h : ReadsAs xs d none) (h' : ReadsAs ys e v) :
    ReadsAs (xs ++ Mark.arrow.text :: ys) d (some (e.followedBy v)) := by
  obtain ⟨ps, s, u, rfl, hreads, rfl, hu⟩ := h
  obtain rfl : u = none := by simpa using hu
  obtain ⟨qs, s', u', rfl, hreads', rfl, rfl⟩ := h'
  refine ⟨ps ++ Piece.arrow :: qs, s, some (s'.followedBy u'), by simp [Piece.arrow],
    hreads.append_arrow hreads', rfl, ?_⟩
  rw [Option.map_some, Tree.texts_followedBy]

/-- What begins a list is a term, and behind it stands a separator, if anything does. -/
theorem uncons (h : ReadsAs (x :: xs) e v) :
    (∃ d, ReadsAs [x] d none) ∧ (xs = [] ∨ ∃ y ys, xs = y :: ys ∧ isSeparator y = true ∧
      ∃ e' v', ReadsAs ys e' v') := by
  obtain ⟨ps, s, u, hps, hreads, -, -⟩ := h
  cases hreads with
  | @name p q hparts hatom hlegal =>
    obtain ⟨rfl, rfl⟩ := List.cons.inj hps
    exact ⟨⟨_, [p], _, _, rfl, .name hparts hatom hlegal, rfl, rfl⟩, .inl rfl⟩
  | @nest p ps s u hparts hopen h =>
    obtain ⟨rfl, rfl⟩ := List.cons.inj hps
    exact ⟨⟨_, [p], _, _, rfl, .nest hparts hopen h, rfl, rfl⟩, .inl rfl⟩
  | @comma p y ps t s u ht hy h =>
    obtain ⟨rfl, rfl⟩ := List.cons.inj hps
    refine ⟨⟨_, [p], _, _, rfl, ht, rfl, rfl⟩, .inr ⟨y.text, _, rfl, by rw [hy]; rfl, ?_⟩⟩
    exact ⟨_, _, ps, _, _, rfl, h, rfl, rfl⟩
  | @arrow p y ps t s u ht hy h =>
    obtain ⟨rfl, rfl⟩ := List.cons.inj hps
    refine ⟨⟨_, [p], _, _, rfl, ht, rfl, rfl⟩, .inr ⟨y.text, _, rfl, by rw [hy]; rfl, ?_⟩⟩
    exact ⟨_, _, ps, _, _, rfl, h, rfl, rfl⟩

end ReadsAs

/-! ## Names, separators and rows -/

/-- A name spells itself unless it is reserved. -/
theorem readsAs_name {n : Text} (hn : isAtomic n = true) (hlegal : ¬ Reserved n) :
    ReadsAs [n] (.atom n) none :=
  ⟨[⟨.root, n⟩], _, _, rfl, .name (Piece.parts_of_isAtomic hn) hn hlegal, rfl, rfl⟩

theorem legal_of_readsAs {n : Text} (hn : isAtomic n = true) {e : Tree Text}
    (h : ReadsAs [n] e none) : ¬ Reserved n := by
  obtain ⟨t, ht, -⟩ := h.reads_term (p := ⟨.root, n⟩) rfl
  exact (reads_of_isAtomic (Piece.parts_of_isAtomic hn) hn ht).2

/-- Separators are no term, however many there are. -/
theorem not_readsAs_gapText {gap : List Separator} (hgap : gap ≠ []) {e : Tree Text} :
    ¬ ReadsAs [gapText gap] e none := by
  intro h
  obtain ⟨t, ht, -⟩ := h.reads_term (p := ⟨.root, gapText gap⟩) rfl
  have hne : Row.done gap ≠ .done [] := by simpa using hgap
  obtain ⟨ps, hparts, hps⟩ := Row.parts_of_row (p := ⟨.root, gapText gap⟩) (r := .done gap) trivial
    hne (by rintro _ ⟨⟩) (Row.text_done gap).symm
  rw [Row.parts, Row.gapParts, if_neg hgap] at hps
  obtain ⟨q, rfl, hq⟩ := List.map_eq_singleton_iff.1 hps
  refine not_reads_of_parts hparts ?_ ?_ ht
  · rw [hq, ← Row.text_done]
    exact Row.isAtomic_text hne
  · rw [hq]
    exact (open_gapText gap).1

/-- A list of one text has nothing behind it. -/
theorem ReadsAs.eq_none {x : Text} {e : Tree Text} {v : Option (Tree Text)}
    (h : ReadsAs [x] e v) : v = none := by
  obtain ⟨ps, s, u, hps, hreads, -, rfl⟩ := h
  obtain ⟨p, rfl, -⟩ := List.map_eq_singleton_iff.1 hps
  cases hreads <;> rfl

/-- What a part of a row can be. -/
inductive IsPart (x : Text) : Prop where
  | name (h : IsName x)
  | gap (gap : List Separator) (hne : gap ≠ []) (h : x = gapText gap)
  | compound (h : '(' ∈ x)

theorem isPart_of_mem_gapParts {gap : List Separator} {x : Text} (h : x ∈ Row.gapParts gap) :
    IsPart x := by
  unfold Row.gapParts at h
  split at h
  · cases h
  · next hne => exact .gap gap hne (List.mem_singleton.1 h)

theorem Row.mem_text {r : Row} (h : ∀ gap, r ≠ done gap) : '(' ∈ r.text := by
  cases r with
  | done gap => exact absurd rfl (h gap)
  | leaf gap n rest => simp [text_leaf]
  | group gap inside rest => simp [text_group]

theorem Row.isPart_text {r : Row} (hne : r ≠ done []) : IsPart r.text := by
  by_cases hdone : ∃ gap, r = done gap
  · obtain ⟨gap, rfl⟩ := hdone
    exact .gap gap (by rintro rfl; exact hne rfl) (text_done gap)
  · exact .compound (mem_text fun gap hgap => hdone ⟨gap, hgap⟩)

theorem Row.isPart_of_mem_parts {r : Row} (hr : r.Named) {x : Text} (h : x ∈ r.parts) :
    IsPart x := by
  induction r with
  | done gap => exact isPart_of_mem_gapParts h
  | leaf gap n rest ih =>
    rcases List.mem_append.1 h with h | h
    · exact isPart_of_mem_gapParts h
    · rcases List.mem_cons.1 h with rfl | h
      · exact .name hr.1
      · exact ih hr.2 h
  | group gap inside rest _ ih =>
    rcases List.mem_append.1 h with h | h
    · rcases List.mem_append.1 h with h | h
      · exact isPart_of_mem_gapParts h
      · split at h
        · cases h
        · next hne =>
          rw [List.mem_singleton.1 h]
          exact isPart_text hne
    · exact ih hr.2 h

/-- A piece reads as its parts do, if these are parts of a row. -/
theorem readsAs_iff_of_parts {p : Piece} {ps : List Piece} (hparts : p.parts = .ok ps)
    (hpart : ∀ x ∈ ps.map Piece.text, IsPart x) {e : Tree Text} :
    ReadsAs [p.text] e none ↔
      ∃ d v, ReadsAs (ps.map Piece.text) d v ∧ e = d.followedBy v := by
  by_cases hone : ∃ q, ps = [q] ∧ '(' ∉ q.text
  -- a single part that is not compound: a name, or separators, which cannot be read
  · obtain ⟨q, rfl, hopen⟩ := hone
    rcases hpart q.text (List.mem_singleton_self _) with hname | ⟨gap, hne, hgap⟩ | hopen'
    · constructor
      · intro h
        obtain ⟨t, ht, rfl⟩ := h.reads_term rfl
        obtain ⟨rfl, hlegal⟩ := reads_of_isAtomic hparts hname.atomic ht
        exact ⟨_, _, readsAs_name hname.atomic hlegal, rfl⟩
      · rintro ⟨d, v, h, rfl⟩
        obtain rfl := h.eq_none
        obtain ⟨t, ht, rfl⟩ := h.reads_term (p := q) rfl
        obtain ⟨rfl, hlegal⟩ :=
          reads_of_isAtomic (Piece.parts_of_isAtomic hname.atomic) hname.atomic ht
        exact ⟨[p], _, none, rfl, .name hparts hname.atomic hlegal, rfl, rfl⟩
    · constructor
      · intro h
        obtain ⟨t, ht, -⟩ := h.reads_term rfl
        refine absurd ht (not_reads_of_parts hparts ?_ hopen)
        rw [hgap, ← Row.text_done]
        exact Row.isAtomic_text (by simpa using hne)
      · rintro ⟨d, v, h, -⟩
        obtain rfl := h.eq_none
        rw [List.map_singleton, hgap] at h
        exact absurd h (not_readsAs_gapText hne)
    · exact absurd hopen' hopen
  -- a compound part or several parts, which the walk takes in place of the piece
  · have hopen : ∀ q, ps = [q] → '(' ∈ q.text := by
      intro q hq
      by_contra hno
      exact hone ⟨q, hq, hno⟩
    constructor
    · intro h
      obtain ⟨t, ht, rfl⟩ := h.reads_term rfl
      obtain ⟨s, u, hreads, rfl⟩ := reads_of_parts hparts hopen ht
      exact ⟨_, _, ⟨ps, s, u, rfl, hreads, rfl, rfl⟩, Tree.texts_followedBy s u⟩
    · rintro ⟨d, v, h, rfl⟩
      obtain ⟨s, u, hreads, rfl, rfl⟩ := h.reads rfl
      exact ⟨[p], _, none, rfl, .nest hparts hopen hreads, Tree.texts_followedBy s u, rfl⟩

/-- A row that is not a single group reads as its parts do. -/
theorem readsAs_text_iff_of_not_group {r : Row} (hr : r.Named) (hne : r ≠ .done [])
    (hsingle : ∀ inside, r ≠ .group [] inside (.done [])) {e : Tree Text} :
    ReadsAs [r.text] e none ↔ ∃ d v, ReadsAs r.parts d v ∧ e = d.followedBy v := by
  obtain ⟨ps, hparts, hps⟩ := Row.parts_of_row (p := ⟨.root, r.text⟩) hr hne hsingle rfl
  rw [← hps]
  refine readsAs_iff_of_parts hparts fun x hx => ?_
  rw [hps] at hx
  exact Row.isPart_of_mem_parts hr hx

/-- A row reads as its parts do. -/
theorem readsAs_text_iff {r : Row} (hr : r.Named) (hne : r ≠ .done []) {e : Tree Text} :
    ReadsAs [r.text] e none ↔ ∃ d v, ReadsAs r.parts d v ∧ e = d.followedBy v := by
  induction r generalizing e with
  | done gap => exact readsAs_text_iff_of_not_group hr hne (by rintro _ ⟨⟩)
  | leaf gap n rest => exact readsAs_text_iff_of_not_group hr hne (by rintro _ ⟨⟩)
  | group gap inside rest ih =>
    by_cases hsingle : gap = [] ∧ rest = .done []
    · obtain ⟨rfl, rfl⟩ := hsingle
      -- the parentheses around a single group go at once, those around its parts one by one
      obtain ⟨ps, hparts, hps⟩ := Row.parts_of_group
        (p := ⟨.root, (Row.group [] inside (.done [])).text⟩) hr.1 rfl
      have hinside : ReadsAs [(Row.group [] inside (.done [])).text] e none ↔
          ∃ d v, ReadsAs inside.parts d v ∧ e = d.followedBy v := by
        rw [← hps]
        refine readsAs_iff_of_parts hparts fun x hx => ?_
        rw [hps] at hx
        exact Row.isPart_of_mem_parts hr.1 hx
      rw [hinside]
      by_cases hnil : inside = .done []
      · subst hnil
        rfl
      · rw [← ih hr.1 hnil, Row.parts, if_neg hnil]
        constructor
        · intro h
          exact ⟨e, none, h, rfl⟩
        · rintro ⟨d, v, h, rfl⟩
          obtain rfl := h.eq_none
          exact h
    · refine readsAs_text_iff_of_not_group hr hne ?_
      rintro inside' heq
      cases heq
      exact hsingle ⟨rfl, rfl⟩

end StageGraph
