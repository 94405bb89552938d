import Mathlib.Logic.Relation
import Mathlib.Tactic
import StageGraph.Plain.Walk
import StageGraph.Proofs.Plain.Place
import StageGraph.Proofs.Plain.Recursion

set_option autoImplicit false

/-! # Reading a list of pieces

`Reads ps s u` says that the pieces, alternately terms and separators, spell the tree `s` as their
first stage and the tree `u` as the stages behind it. It follows the walk in what it takes apart,
but knows nothing of frames, spans or nodes.

* `divide` finds the first stage of whatever can be read (`Reads.divides`, `reads_of_divides`);
* parts spliced in front of other stages are read if and only if both are (`Reads.splice`,
  `reads_of_splice`);
* the atoms of what is read lie apart (`Reads.apart`), so no two of them share a span.
-/

namespace StageGraph

/-- The name is that of a sentinel. -/
def Reserved (name : Text) : Prop := name = Node.startName ∨ name = Node.finishName

instance (name : Text) : Decidable (Reserved name) := inferInstanceAs (Decidable (_ ∨ _))

/-- The pieces spell a first stage and the stages behind it. -/
inductive Reads : List Piece → Tree Piece → Option (Tree Piece) → Prop where
  /-- A term whose only part is a name. -/
  | name {p q : Piece} (hparts : p.parts = .ok [q]) (hatom : isAtomic q.text = true)
      (hlegal : ¬ Reserved q.text) : Reads [p] (.atom q) none
  /-- A term whose parts can be read. -/
  | nest {p : Piece} {ps : List Piece} {s : Tree Piece} {u : Option (Tree Piece)}
      (hparts : p.parts = .ok ps) (hopen : ∀ q, ps = [q] → '(' ∈ q.text) (h : Reads ps s u) :
      Reads [p] (s.followedBy u) none
  /-- A term and the rest of its stage. -/
  | comma {p y : Piece} {ps : List Piece} {t s : Tree Piece} {u : Option (Tree Piece)}
      (ht : Reads [p] t none) (hy : y.text = Mark.comma.text) (h : Reads ps s u) :
      Reads (p :: y :: ps) (.par t s) u
  /-- A term and the stages behind its stage. -/
  | arrow {p y : Piece} {ps : List Piece} {t s : Tree Piece} {u : Option (Tree Piece)}
      (ht : Reads [p] t none) (hy : y.text = Mark.arrow.text) (h : Reads ps s u) :
      Reads (p :: y :: ps) t (some (s.followedBy u))

theorem Reads.ne_nil {ps : List Piece} {s : Tree Piece} {u : Option (Tree Piece)}
    (h : Reads ps s u) : ps ≠ [] := by
  cases h <;> exact List.cons_ne_nil _ _

/-! ## Separators are no terms -/

theorem isAtomic_eq_false_of_mem {t : Text} (h : '(' ∈ t) : isAtomic t = false := by
  fun_induction isAtomic t with
  | case1 => cases h
  | case2 => rfl
  | case3 c rest _ ih =>
    rcases List.mem_cons.1 h with rfl | h
    · simp
    · rw [ih h, Bool.and_false]

/-- A separator is put into parentheses, and is its own only part there. -/
theorem parts_of_isSeparator {p : Piece} (h : isSeparator p.text = true) :
    ∃ q, p.parts = .ok [q] ∧ q.text = p.text := by
  obtain ⟨place, t⟩ := p
  have ht : t = Mark.arrow.text ∨ t = Mark.comma.text := by simpa [isSeparator] using h
  rcases ht with rfl | rfl
  · refine ⟨⟨.slice (.wrapping place) 1 3, Mark.arrow.text⟩, ?_, rfl⟩
    have hout : outline (SpanStore.wrapped Mark.arrow.text) = .ok (some ⟨⟨0, 3⟩, []⟩) := rfl
    rw [Piece.parts_of_not_isEnclosed rfl rfl, Piece.parts_of_outline rfl rfl hout]
    rfl
  · refine ⟨⟨.slice (.wrapping place) 1 2, Mark.comma.text⟩, ?_, rfl⟩
    have hout : outline (SpanStore.wrapped Mark.comma.text) = .ok (some ⟨⟨0, 2⟩, []⟩) := rfl
    rw [Piece.parts_of_not_isEnclosed rfl rfl, Piece.parts_of_outline rfl rfl hout]
    rfl

theorem not_mem_of_isSeparator {t : Text} (h : isSeparator t = true) :
    isAtomic t = false ∧ '(' ∉ t := by
  have ht : t = Mark.arrow.text ∨ t = Mark.comma.text := by simpa [isSeparator] using h
  rcases ht with rfl | rfl
  · decide
  · decide

/-- What cannot be a term by its parts: one part that is neither a name nor compound. -/
theorem not_reads_of_parts {p q : Piece} (hparts : p.parts = .ok [q])
    (hatom : isAtomic q.text = false) (hopen : '(' ∉ q.text) {t : Tree Piece} :
    ¬ Reads [p] t none := by
  intro h
  cases h with
  | name hparts' hatom' _ =>
    rw [hparts] at hparts'
    cases hparts'
    rw [hatom] at hatom'
    cases hatom'
  | nest hparts' hopen' _ =>
    rw [hparts] at hparts'
    cases hparts'
    exact hopen (hopen' q rfl)

theorem not_reads_of_isSeparator {p : Piece} (h : isSeparator p.text = true) {t : Tree Piece} :
    ¬ Reads [p] t none := by
  obtain ⟨q, hparts, htext⟩ := parts_of_isSeparator h
  obtain ⟨hatom, hopen⟩ := not_mem_of_isSeparator h
  exact not_reads_of_parts hparts (by rw [htext, hatom]) (by rwa [htext])

/-- What is read where a term has a name as its only part. -/
theorem reads_of_isAtomic {p q : Piece} (hparts : p.parts = .ok [q])
    (hatom : isAtomic q.text = true) {t : Tree Piece} (h : Reads [p] t none) :
    t = .atom q ∧ ¬ Reserved q.text := by
  cases h with
  | name hparts' hatom' hlegal =>
    rw [hparts] at hparts'
    cases hparts'
    exact ⟨rfl, hlegal⟩
  | nest hparts' hopen' _ =>
    rw [hparts] at hparts'
    cases hparts'
    rw [isAtomic_eq_false_of_mem (hopen' q rfl)] at hatom
    cases hatom

/-- What is read where a term is compound. -/
theorem reads_of_parts {p : Piece} {ps : List Piece} (hparts : p.parts = .ok ps)
    (hopen : ∀ q, ps = [q] → '(' ∈ q.text) {t : Tree Piece} (h : Reads [p] t none) :
    ∃ s u, Reads ps s u ∧ t = s.followedBy u := by
  cases h with
  | @name _ q hparts' hatom' hlegal =>
    rw [hparts] at hparts'
    cases hparts'
    rw [isAtomic_eq_false_of_mem (hopen q rfl)] at hatom'
    cases hatom'
  | nest hparts' _ h =>
    rw [hparts] at hparts'
    cases hparts'
    exact ⟨_, _, h, rfl⟩

/-- A list that can be read begins and ends with a term. -/
theorem Reads.ends {ps : List Piece} {s : Tree Piece} {u : Option (Tree Piece)}
    (h : Reads ps s u) :
    (∀ p ∈ ps.head?, ∃ t, Reads [p] t none) ∧ ∀ p ∈ ps.getLast?, ∃ t, Reads [p] t none := by
  induction h with
  | @name p q hparts hatom hlegal =>
    have hread : Reads [p] (.atom q) none := .name hparts hatom hlegal
    constructor
    · rintro _ ⟨⟩
      exact ⟨_, hread⟩
    · rintro _ ⟨⟩
      exact ⟨_, hread⟩
  | @nest p ps s u hparts hopen h _ =>
    have hread : Reads [p] (s.followedBy u) none := .nest hparts hopen h
    constructor
    · rintro _ ⟨⟩
      exact ⟨_, hread⟩
    · rintro _ ⟨⟩
      exact ⟨_, hread⟩
  | @comma p y ps t s u ht hy h _ ih =>
    refine ⟨?_, ?_⟩
    · rintro _ ⟨⟩
      exact ⟨t, ht⟩
    · intro q hq
      rw [List.getLast?_cons_cons, List.getLast?_cons_of_ne_nil h.ne_nil] at hq
      exact ih.2 q hq
  | @arrow p y ps t s u ht hy h _ ih =>
    refine ⟨?_, ?_⟩
    · rintro _ ⟨⟩
      exact ⟨t, ht⟩
    · intro q hq
      rw [List.getLast?_cons_cons, List.getLast?_cons_of_ne_nil h.ne_nil] at hq
      exact ih.2 q hq

/-! ## The first stage -/

/-- `heads` are the terms of the first stage, and `tail` is what stands behind it. -/
inductive Divides : List Piece → List Piece → Option (List Piece) → Prop where
  | last (p : Piece) : Divides [p] [p] none
  | comma {p y : Piece} {rest heads : List Piece} {tail : Option (List Piece)}
      (hy : y.text = Mark.comma.text) (h : Divides rest heads tail) :
      Divides (p :: y :: rest) (p :: heads) tail
  | arrow {p y : Piece} {rest : List Piece} (hy : y.text = Mark.arrow.text) (hne : rest ≠ []) :
      Divides (p :: y :: rest) [p] (some rest)

theorem Divides.tail_ne_nil {ps heads us : List Piece} (h : Divides ps heads (some us)) :
    us ≠ [] := by
  generalize htail : some us = tail at h
  induction h with
  | last p => cases htail
  | comma hy h ih => exact ih htail
  | arrow hy hne =>
    cases htail
    exact hne

/-- A term of the first stage and the stages behind it come in the order of the list. -/
theorem Divides.sublist {ps heads : List Piece} {tail : Option (List Piece)}
    (h : Divides ps heads tail) {p : Piece} (hp : p ∈ heads) :
    (p :: tail.getD []).Sublist ps := by
  induction h generalizing p with
  | last q =>
    rw [List.mem_singleton.1 hp]
    exact List.Sublist.refl _
  | @comma q y rest heads tail hy h ih =>
    rcases List.mem_cons.1 hp with rfl | hp
    · obtain ⟨q', hq'⟩ : ∃ q', q' ∈ heads := by
        cases h with
        | last q' => exact ⟨q', List.mem_cons_self⟩
        | comma => exact ⟨_, List.mem_cons_self⟩
        | arrow => exact ⟨_, List.mem_cons_self⟩
      exact List.Sublist.cons_cons p (((List.sublist_cons_self _ _).trans (ih hq')).cons y)
    · exact ((ih hp).cons y).cons q
  | @arrow q y rest hy hne =>
    rw [List.mem_singleton.1 hp]
    exact List.Sublist.cons_cons q (List.sublist_cons_self _ _)

/-- A list is divided in one way. -/
theorem Divides.unique {ps heads heads' : List Piece} {tail tail' : Option (List Piece)}
    (h : Divides ps heads tail) (h' : Divides ps heads' tail') : heads = heads' ∧ tail = tail' := by
  induction h generalizing heads' tail' with
  | last p =>
    cases h'
    exact ⟨rfl, rfl⟩
  | comma hy h ih =>
    cases h' with
    | comma _ h' =>
      obtain ⟨rfl, rfl⟩ := ih h'
      exact ⟨rfl, rfl⟩
    | arrow hy' _ =>
      rw [hy] at hy'
      cases hy'
  | arrow hy hne =>
    cases h' with
    | comma hy' _ =>
      rw [hy] at hy'
      cases hy'
    | arrow _ _ => exact ⟨rfl, rfl⟩

/-- Terms side by side spell a tree. -/
inductive HeadsRead : List Piece → Tree Piece → Prop where
  | one {p : Piece} {t : Tree Piece} (ht : Reads [p] t none) : HeadsRead [p] t
  | more {p : Piece} {ps : List Piece} {t s : Tree Piece} (ht : Reads [p] t none)
      (h : HeadsRead ps s) : HeadsRead (p :: ps) (.par t s)

/-- The stages behind the first one spell a tree, if there are any. -/
inductive TailReads : Option (List Piece) → Option (Tree Piece) → Prop where
  | none : TailReads none none
  | some {ps : List Piece} {s : Tree Piece} {u : Option (Tree Piece)} (h : Reads ps s u) :
      TailReads (some ps) (some (s.followedBy u))

/-- A list that can be read is divided into parts that can be read. -/
theorem Reads.divides {ps : List Piece} {s : Tree Piece} {u : Option (Tree Piece)}
    (h : Reads ps s u) :
    ∃ heads tail, Divides ps heads tail ∧ HeadsRead heads s ∧ TailReads tail u := by
  induction h with
  | @name p q hparts hatom hlegal =>
    exact ⟨[p], none, .last p, .one (.name hparts hatom hlegal), .none⟩
  | @nest p ps s u hparts hopen h _ =>
    exact ⟨[p], none, .last p, .one (.nest hparts hopen h), .none⟩
  | @comma p y ps t s u ht hy h _ ih =>
    obtain ⟨heads, tail, hdiv, hheads, htail⟩ := ih
    exact ⟨p :: heads, tail, .comma hy hdiv, .more ht hheads, htail⟩
  | @arrow p y ps t s u ht hy h _ _ =>
    exact ⟨[p], some ps, .arrow hy h.ne_nil, .one ht, .some h⟩

/-- If a list is divided into parts that can be read, it can be read itself. -/
theorem reads_of_divides {ps heads : List Piece} {tail : Option (List Piece)} {s : Tree Piece}
    {u : Option (Tree Piece)} (hdiv : Divides ps heads tail) (hheads : HeadsRead heads s)
    (htail : TailReads tail u) : Reads ps s u := by
  induction hdiv generalizing s with
  | last p =>
    cases htail
    cases hheads with
    | one ht => exact ht
    | more _ h => cases h
  | @comma p y rest heads tail hy hdiv ih =>
    cases hheads with
    | one ht => cases hdiv
    | more ht h => exact .comma ht hy (ih h htail)
  | @arrow p y rest hy hne =>
    cases htail with
    | some h =>
      cases hheads with
      | one ht => exact .arrow ht hy h
      | more _ h' => cases h'

section Spans

variable {R : Span → Piece → Prop}

theorem exists_mem_head?_of_forall₂ {terms : List Span} {ps : List Piece}
    (h : List.Forall₂ R terms ps) {span : Span} (hspan : span ∈ terms.head?) :
    ∃ p ∈ ps.head?, R span p := by
  cases h with
  | nil => cases hspan
  | cons hp _ =>
    cases hspan
    exact ⟨_, rfl, hp⟩

theorem exists_mem_getLast?_of_forall₂ {terms : List Span} {ps : List Piece}
    (h : List.Forall₂ R terms ps) {span : Span} (hspan : span ∈ terms.getLast?) :
    ∃ p ∈ ps.getLast?, R span p := by
  rw [← List.head?_reverse] at hspan
  rw [← List.head?_reverse]
  exact exists_mem_head?_of_forall₂ (List.forall₂_reverse_iff.2 h) hspan

theorem divides_of_divideFrom (hR : ∀ {span p}, R span p → span.text = p.text)
    {whole terms : List Span} {ps : List Piece} {d : Division}
    (hshown : List.Forall₂ R terms ps) (h : divideFrom whole terms = .ok d) (hne : terms ≠ [])
    (hlast : ∀ span ∈ terms.getLast?, isSeparator span.text = false) :
    ∃ heads tail, Divides ps heads tail ∧ List.Forall₂ R d.head heads ∧
      Option.Rel (List.Forall₂ R) d.tail tail := by
  -- the list goes on behind a separator
  have hmore : ∀ {term separator : Span} {rest : List Span}, isSeparator separator.text = true →
      (∀ span ∈ (term :: separator :: rest).getLast?, isSeparator span.text = false) →
      rest ≠ [] := by
    rintro term separator rest hsep hlast rfl
    rw [hlast separator rfl] at hsep
    cases hsep
  fun_induction divideFrom whole terms generalizing ps d with
  | case1 => exact absurd rfl hne
  | case2 term =>
    cases h
    obtain ⟨p, rest, hp, hrest, rfl⟩ := List.forall₂_cons_left_iff.1 hshown
    cases hrest
    exact ⟨[p], none, .last p, .cons hp .nil, .none⟩
  | case3 term separator rest harrow =>
    cases h
    obtain ⟨p, ps', hp, hshown', rfl⟩ := List.forall₂_cons_left_iff.1 hshown
    obtain ⟨y, ps, hy, hrest, rfl⟩ := List.forall₂_cons_left_iff.1 hshown'
    have hne' := hmore (by simp [harrow, isSeparator]) hlast
    refine ⟨[p], some ps, .arrow (by rw [← hR hy, harrow]) ?_, .cons hp .nil, .some hrest⟩
    rintro rfl
    cases hrest
    exact hne' rfl
  | case4 term separator rest harrow hcomma ih =>
    obtain ⟨p, ps', hp, hshown', rfl⟩ := List.forall₂_cons_left_iff.1 hshown
    obtain ⟨y, ps, hy, hrest, rfl⟩ := List.forall₂_cons_left_iff.1 hshown'
    have hne' := hmore (by simp [hcomma, isSeparator]) hlast
    cases hd : divideFrom whole rest with
    | error failure => rw [hd] at h; cases h
    | ok e =>
      rw [hd] at h
      cases h
      rw [List.getLast?_cons_cons, List.getLast?_cons_of_ne_nil hne'] at hlast
      obtain ⟨heads, tail, hdiv, hheads, htail⟩ := ih hrest hd hne' hlast
      exact ⟨p :: heads, tail, .comma (by rw [← hR hy, hcomma]) hdiv, .cons hp hheads, htail⟩
  | case5 => cases h

theorem divideFrom_of_divides (hR : ∀ {span p}, R span p → span.text = p.text)
    (whole : List Span) {terms : List Span} {ps heads : List Piece}
    {tail : Option (List Piece)} (hshown : List.Forall₂ R terms ps)
    (h : Divides ps heads tail) :
    ∃ d, divideFrom whole terms = .ok d ∧ List.Forall₂ R d.head heads ∧
      Option.Rel (List.Forall₂ R) d.tail tail := by
  induction h generalizing terms with
  | last p =>
    obtain ⟨term, rest, hp, hrest, rfl⟩ := List.forall₂_cons_right_iff.1 hshown
    cases hrest
    exact ⟨⟨[term], none⟩, rfl, .cons hp .nil, .none⟩
  | @comma p y rest heads tail hy hdiv ih =>
    obtain ⟨term, terms', hp, hshown', rfl⟩ := List.forall₂_cons_right_iff.1 hshown
    obtain ⟨separator, terms, hsep, hrest, rfl⟩ := List.forall₂_cons_right_iff.1 hshown'
    obtain ⟨d, hd, hheads, htail⟩ := ih hrest
    refine ⟨⟨term :: d.head, d.tail⟩, ?_, .cons hp hheads, htail⟩
    have htext : separator.text = Mark.comma.text := by rw [hR hsep, hy]
    rw [divideFrom, if_neg (by rw [htext]; decide), if_pos htext, hd]
    rfl
  | @arrow p y rest hy hne =>
    obtain ⟨term, terms', hp, hshown', rfl⟩ := List.forall₂_cons_right_iff.1 hshown
    obtain ⟨separator, terms, hsep, hrest, rfl⟩ := List.forall₂_cons_right_iff.1 hshown'
    refine ⟨⟨[term], some terms⟩, ?_, .cons hp .nil, .some hrest⟩
    rw [divideFrom, if_pos (by rw [hR hsep, hy])]

theorem divideFrom_error {whole terms : List Span} {failure : Failure}
    (h : divideFrom whole terms = .error failure) : ∃ cause, failure = .malformed cause := by
  fun_induction divideFrom whole terms with
  | case1 => cases h
  | case2 => cases h
  | case3 => cases h
  | case4 term separator rest harrow hcomma ih =>
    cases hd : divideFrom whole rest with
    | error failure' =>
      rw [hd] at h
      cases h
      exact ih hd
    | ok d => rw [hd] at h; cases h
  | case5 => cases h; exact ⟨_, rfl⟩

/-- A list with a first and a last term is divided unless one of these is a separator. -/
theorem divide_eq {terms : List Span} {first last : Span} (hfirst : terms.head? = some first)
    (hlast : terms.getLast? = some last) :
    divide terms = if isSeparator first.text || isSeparator last.text then
        .error (.malformed (.danglingSeparator (joinedText terms)))
      else (divideFrom terms terms).map some := by
  unfold divide
  rw [hfirst, hlast]

/-- What `divide` can come to: a failure for a malformed list, nothing for an empty list, or the
first stage and what stands behind it. -/
theorem divide_cases (hR : ∀ {span p}, R span p → span.text = p.text) {terms : List Span}
    {ps : List Piece} (hshown : List.Forall₂ R terms ps) :
    (∃ cause, divide terms = .error (.malformed cause)) ∨ ps = [] ∨
      ∃ d heads tail, divide terms = .ok (some d) ∧ Divides ps heads tail ∧
        List.Forall₂ R d.head heads ∧ Option.Rel (List.Forall₂ R) d.tail tail := by
  by_cases hnil : terms = []
  · rw [hnil] at hshown
    cases hshown
    exact .inr (.inl rfl)
  · have hfirst := List.head?_eq_some_head hnil
    have hlast := List.getLast?_eq_some_getLast hnil
    rw [divide_eq hfirst hlast]
    by_cases hsep : (isSeparator (terms.head hnil).text ||
        isSeparator (terms.getLast hnil).text) = true
    · rw [if_pos hsep]
      exact .inl ⟨_, rfl⟩
    · rw [if_neg hsep]
      rw [Bool.or_eq_true, not_or, Bool.not_eq_true, Bool.not_eq_true] at hsep
      cases hd : divideFrom terms terms with
      | error failure =>
        obtain ⟨cause, rfl⟩ := divideFrom_error hd
        exact .inl ⟨cause, rfl⟩
      | ok d =>
        obtain ⟨heads, tail, hdiv, hheads, htail⟩ := divides_of_divideFrom hR hshown hd hnil
          (by rw [hlast]; rintro _ ⟨⟩; exact hsep.2)
        exact .inr (.inr ⟨d, heads, tail, rfl, hdiv, hheads, htail⟩)

/-- What can be read is divided. -/
theorem divide_of_reads (hR : ∀ {span p}, R span p → span.text = p.text) {terms : List Span}
    {ps : List Piece} {s : Tree Piece} {u : Option (Tree Piece)}
    (hshown : List.Forall₂ R terms ps) (h : Reads ps s u) :
    ∃ d heads tail, divide terms = .ok (some d) ∧ List.Forall₂ R d.head heads ∧
      Option.Rel (List.Forall₂ R) d.tail tail ∧ Divides ps heads tail ∧ HeadsRead heads s ∧
      TailReads tail u := by
  obtain ⟨heads, tail, hdiv, hheads, htail⟩ := h.divides
  obtain ⟨d, hd, hshown₁, hshown₂⟩ := divideFrom_of_divides hR terms hshown hdiv
  refine ⟨d, heads, tail, ?_, hshown₁, hshown₂, hdiv, hheads, htail⟩
  have hnil : terms ≠ [] := by
    rintro rfl
    cases hshown
    exact h.ne_nil rfl
  have hfirst := List.head?_eq_some_head hnil
  have hlast := List.getLast?_eq_some_getLast hnil
  -- a piece that is read is no separator, and neither is the span that shows it
  have hterm : ∀ {span : Span} {p : Piece}, R span p → (∃ t, Reads [p] t none) →
      isSeparator span.text = false := by
    rintro span p hp ⟨t, ht⟩
    rw [hR hp, ← Bool.not_eq_true]
    exact fun hsep => not_reads_of_isSeparator hsep ht
  obtain ⟨p, hp, hshown_p⟩ := exists_mem_head?_of_forall₂ hshown hfirst
  obtain ⟨q, hq, hshown_q⟩ := exists_mem_getLast?_of_forall₂ hshown hlast
  rw [divide_eq hfirst hlast, hterm hshown_p (h.ends.1 p hp), hterm hshown_q (h.ends.2 q hq), hd]
  rfl

end Spans

/-! ## Parts in front of other stages -/

/-- Parts that can be read can be read in front of other stages, with the same first stage. -/
theorem Reads.splice {ps us : List Piece} {s s' : Tree Piece} {u u' : Option (Tree Piece)}
    (h : Reads ps s u) (h' : Reads us s' u') :
    ∃ v, Reads (ps ++ Piece.arrow :: us) s (some v) ∧
      v.flatten = ((s'.followedBy u').behind u).flatten := by
  induction h with
  | @name p q hparts hatom hlegal =>
    exact ⟨_, .arrow (.name hparts hatom hlegal) rfl h', rfl⟩
  | @nest p ps s u hparts hopen h _ =>
    exact ⟨_, .arrow (.nest hparts hopen h) rfl h', rfl⟩
  | @comma p y ps t s u ht hy h _ ih =>
    obtain ⟨v, hv, hflat⟩ := ih
    exact ⟨v, .comma ht hy hv, hflat⟩
  | @arrow p y ps t s u ht hy h _ ih =>
    obtain ⟨v, hv, hflat⟩ := ih
    exact ⟨.seq s v, .arrow ht hy hv, Tree.flatten_behind s hflat⟩

/-- Nothing is spliced where the parts are a single stage. -/
theorem Reads.append_arrow {ps us : List Piece} {s s' : Tree Piece} {u' : Option (Tree Piece)}
    (h : Reads ps s none) (h' : Reads us s' u') :
    Reads (ps ++ Piece.arrow :: us) s (some (s'.followedBy u')) := by
  generalize hu : none = u at h
  induction h with
  | name hparts hatom hlegal => exact .arrow (.name hparts hatom hlegal) rfl h'
  | nest hparts hopen h _ => exact .arrow (.nest hparts hopen h) rfl h'
  | comma ht hy h _ ih => exact .comma ht hy (ih hu)
  | arrow => cases hu

/-- If parts can be read in front of other stages, both can be read by themselves. -/
theorem reads_of_splice {ps us : List Piece} {s : Tree Piece} {u : Option (Tree Piece)}
    (h : Reads (ps ++ Piece.arrow :: us) s u) :
    (∃ s₁ u₁, Reads ps s₁ u₁) ∧ ∃ s₂ u₂, Reads us s₂ u₂ := by
  match ps with
  -- an arrow can be read as a separator only
  | [] =>
    obtain ⟨t, ht⟩ := h.ends.1 Piece.arrow rfl
    exact absurd ht (not_reads_of_isSeparator rfl)
  | [p] =>
    cases h with
    | comma _ hy _ => cases hy
    | arrow ht _ h => exact ⟨⟨_, _, ht⟩, _, _, h⟩
  | p :: y :: ps =>
    cases h with
    | comma ht hy h =>
      obtain ⟨⟨s₁, u₁, h₁⟩, h₂⟩ := reads_of_splice h
      exact ⟨⟨_, _, .comma ht hy h₁⟩, h₂⟩
    | arrow ht hy h =>
      obtain ⟨⟨s₁, u₁, h₁⟩, h₂⟩ := reads_of_splice h
      exact ⟨⟨_, _, .arrow ht hy h₁⟩, h₂⟩

/-! ## What is read lies apart -/

/-- A text without white space at its ends, and not blank. -/
def Piece.Neat (p : Piece) : Prop := p.text ≠ [] ∧ Text.Trimmed p.text

/-- All pieces but arrows come from the text of the topology, and lie apart. -/
structure Spread (ps : List Piece) : Prop where
  origin : ∀ p ∈ ps, p = Piece.arrow ∨ (Place.Within p.place .root ∧ p.Neat)
  apart : ps.Pairwise fun p q => p = Piece.arrow ∨ Place.Apart p.place q.place

theorem Spread.sublist {ps qs : List Piece} (h : Spread ps) (hsub : qs.Sublist ps) : Spread qs :=
  ⟨fun p hp => h.origin p (hsub.subset hp), h.apart.sublist hsub⟩

theorem neat_of_mem_cutAlong {p q : Piece} {bs : List Nat} (h : q ∈ p.cutAlong bs) : q.Neat := by
  refine ⟨Piece.text_ne_nil_of_mem_cutAlong h, ?_⟩
  fun_induction Piece.cutAlong p bs with
  | case1 start stop rest hblank ih => exact ih h
  | case2 start stop rest hblank ih =>
    rcases List.mem_cons.1 h with rfl | h
    · exact Text.trimmed_trim _
    · exact ih h
  | case3 => cases h

theorem neat_of_mem_parts {p q : Piece} {ps : List Piece}
    (hp : isAtomic p.text = true → p.Neat) (h : p.parts = .ok ps) (hq : q ∈ ps) : q.Neat := by
  fun_induction Piece.parts p with
  | case1 p hatom =>
    cases h
    rw [List.mem_singleton.1 hq]
    exact hp hatom
  | case2 => cases h
  | case3 p hatom hin tree hout =>
    cases h
    exact neat_of_mem_cutAlong hq
  | case4 p hatom hin hout ih => exact ih (by simp [Piece.wrap, isAtomic_wrapped]) h
  | case5 p hatom hin ih => exact ih (by simp [Piece.wrap, isAtomic_wrapped]) h

/-- The arrow has no part that could be a name or compound. -/
theorem ne_arrow_of_parts {p : Piece} {ps : List Piece} (hparts : p.parts = .ok ps)
    (hterm : ∀ q, ps = [q] → isAtomic q.text = true ∨ '(' ∈ q.text) : p ≠ Piece.arrow := by
  rintro rfl
  obtain ⟨q, hq, htext⟩ := parts_of_isSeparator (p := Piece.arrow) rfl
  obtain ⟨hatom, hopen⟩ := not_mem_of_isSeparator (t := Piece.arrow.text) rfl
  rw [hq] at hparts
  cases hparts
  rw [← htext] at hatom hopen
  rcases hterm q rfl with h | h
  · rw [hatom] at h
    cases h
  · exact hopen h

theorem Spread.within_head {p : Piece} {us : List Piece} (h : Spread (p :: us))
    (hp : p ≠ Piece.arrow) : Place.Within p.place .root ∧ p.Neat :=
  (h.origin p List.mem_cons_self).resolve_left hp

theorem Spread.apart_head {p q : Piece} {us : List Piece} (h : Spread (p :: us))
    (hp : p ≠ Piece.arrow) (hq : q ∈ us) : Place.Apart p.place q.place :=
  (List.rel_of_pairwise_cons h.apart hq).resolve_left hp

/-- The parts of a term are spread. -/
theorem Spread.parts {p : Piece} {ps us : List Piece} (h : Spread (p :: us))
    (hp : p ≠ Piece.arrow) (hparts : p.parts = .ok ps) : Spread ps := by
  obtain ⟨hwithin, hneat⟩ := h.within_head hp
  obtain ⟨hinside, hapart⟩ := Piece.parts_apart hparts
  constructor
  · intro q hq
    exact .inr ⟨(hinside q hq).trans hwithin, neat_of_mem_parts (fun _ => hneat) hparts hq⟩
  · exact hapart.imp fun hqr => .inr hqr

/-- So are the parts with an arrow and the stages behind the term after them. -/
theorem Spread.splice {p : Piece} {ps us : List Piece} (h : Spread (p :: us))
    (hp : p ≠ Piece.arrow) (hparts : p.parts = .ok ps) :
    Spread (ps ++ Piece.arrow :: us) := by
  have hspread := h.parts hp hparts
  have hus : Spread us := h.sublist (List.sublist_cons_self _ _)
  obtain ⟨hinside, -⟩ := Piece.parts_apart hparts
  constructor
  · intro q hq
    rcases List.mem_append.1 hq with hq | hq
    · exact hspread.origin q hq
    · rcases List.mem_cons.1 hq with rfl | hq
      · exact .inl rfl
      · exact hus.origin q hq
  · refine List.pairwise_append.2 ⟨hspread.apart, .cons (fun r _ => .inl rfl) hus.apart, ?_⟩
    intro q hq r hr
    have hwithin := (hinside q hq).trans (h.within_head hp).1
    -- the arrow in between is a place of its own, and the stages behind lie apart from the term
    rcases List.mem_cons.1 hr with rfl | hr
    · exact .inr (Place.apart_arrow hwithin)
    · exact .inr ((h.apart_head hp hr).within (hinside q hq) (.refl _))

/-- The piece may be the name of a stage. -/
structure Nameable (q : Piece) : Prop where
  within : Place.Within q.place .root
  neat : q.Neat
  atomic : isAtomic q.text = true
  legal : ¬ Reserved q.text

theorem ne_arrow_of_reads {p : Piece} {t : Tree Piece} (h : Reads [p] t none) :
    p ≠ Piece.arrow := by
  rintro rfl
  exact not_reads_of_isSeparator rfl h

/-- Names that lie within the pieces, apart from each other. -/
structure NamesWithin (ps names : List Piece) : Prop where
  nameable : ∀ q ∈ names, Nameable q
  within : ∀ q ∈ names, ∃ p ∈ ps, Place.Within q.place p.place
  apart : names.Pairwise fun q r => Place.Apart q.place r.place

/-- The names of a term stand apart from those behind it. -/
theorem NamesWithin.append {p y : Piece} {ps names names' : List Piece}
    (hspread : Spread (p :: y :: ps)) (hp : p ≠ Piece.arrow) (h : NamesWithin [p] names)
    (h' : NamesWithin ps names') : NamesWithin (p :: y :: ps) (names ++ names') where
  nameable q hq := (List.mem_append.1 hq).elim (h.nameable q) (h'.nameable q)
  within q hq := by
    rcases List.mem_append.1 hq with hq | hq
    · obtain ⟨r, hr, hwithin⟩ := h.within q hq
      rw [List.mem_singleton.1 hr] at hwithin
      exact ⟨p, List.mem_cons_self, hwithin⟩
    · obtain ⟨r, hr, hwithin⟩ := h'.within q hq
      exact ⟨r, List.mem_cons_of_mem _ (List.mem_cons_of_mem _ hr), hwithin⟩
  apart := by
    refine List.pairwise_append.2 ⟨h.apart, h'.apart, ?_⟩
    intro q hq q' hq'
    obtain ⟨r, hr, hwithin⟩ := h.within q hq
    obtain ⟨r', hr', hwithin'⟩ := h'.within q' hq'
    rw [List.mem_singleton.1 hr] at hwithin
    exact (hspread.apart_head hp (List.mem_cons_of_mem _ hr')).within hwithin hwithin'

/-- The atoms of what is read are names within the pieces, and lie apart from each other. -/
theorem Reads.namesWithin {ps : List Piece} {s : Tree Piece} {u : Option (Tree Piece)}
    (h : Reads ps s u) (hspread : Spread ps) : NamesWithin ps (s.followedBy u).atoms := by
  induction h with
  | @name p q hparts hatom hlegal =>
    have hp := ne_arrow_of_reads (.name hparts hatom hlegal)
    have hq := List.mem_singleton_self q
    obtain ⟨hwithin, hneat⟩ := hspread.within_head hp
    have hinside := (Piece.parts_apart hparts).1 q hq
    refine ⟨?_, ?_, List.pairwise_singleton _ _⟩
    · intro r hr
      rw [List.mem_singleton.1 hr]
      exact ⟨hinside.trans hwithin, neat_of_mem_parts (fun _ => hneat) hparts hq, hatom, hlegal⟩
    · intro r hr
      rw [List.mem_singleton.1 hr]
      exact ⟨p, List.mem_singleton_self p, hinside⟩
  | @nest p ps s u hparts hopen h ih =>
    have hp := ne_arrow_of_reads (.nest hparts hopen h)
    have hnames := ih (hspread.parts hp hparts)
    refine ⟨hnames.nameable, ?_, hnames.apart⟩
    intro q hq
    obtain ⟨r, hr, hwithin⟩ := hnames.within q hq
    exact ⟨p, List.mem_singleton_self p, hwithin.trans ((Piece.parts_apart hparts).1 r hr)⟩
  | @comma p y ps t s u ht hy h iht ih =>
    have hterm : Spread [p] :=
      hspread.sublist (List.singleton_sublist.2 List.mem_cons_self)
    have hrest : Spread ps := hspread.sublist ((List.sublist_cons_self _ _).cons _)
    rw [Tree.atoms_followedBy_par]
    exact (iht hterm).append hspread (ne_arrow_of_reads ht) (ih hrest)
  | @arrow p y ps t s u ht hy h iht ih =>
    have hterm : Spread [p] :=
      hspread.sublist (List.singleton_sublist.2 List.mem_cons_self)
    have hrest : Spread ps := hspread.sublist ((List.sublist_cons_self _ _).cons _)
    exact (iht hterm).append hspread (ne_arrow_of_reads ht) (ih hrest)

end StageGraph
