import Mathlib.Tactic
import StageGraph.Proofs.Plain.Token

set_option autoImplicit false

/-! # Taking balanced terms apart

A balanced text is laid out around its outermost pairs (`exists_layout`), so that a balanced term
that holds marks has an outline, at the latest when it is put into brackets once. Every cut along an
outline is between two characters (`isChain_sliceable`), and the parts carry what the term carries:
all its characters but white space and parentheses, in their order (`flatMap_solid_partTexts`).

How often a term is put into brackets before it is cut is counted by `Wraps`.
-/

namespace StageGraph

/-! ## Laying out a balanced text -/

/-- What is open beside `depth` other pairs is closed at some place, and the text up to there closes
the others. -/
theorem exists_closing {depth : Nat} {t : Text} (h : depthAfter (depth + 1) t = some 0) :
    ∃ inner rest, t = inner ++ ')' :: rest ∧ depthAfter depth inner = some 0 ∧
      depthAfter 0 rest = some 0 := by
  induction t generalizing depth with
  | nil => cases h
  | cons c t ih =>
    rw [depthAfter_cons] at h
    by_cases hopen : c = '('
    · rw [if_pos hopen] at h
      obtain ⟨inner, rest, rfl, hinner, hrest⟩ := ih h
      exact ⟨c :: inner, rest, rfl, by rw [depthAfter_cons, if_pos hopen, hinner], hrest⟩
    rw [if_neg hopen] at h
    by_cases hclose : c = ')'
    · rw [if_pos hclose] at h
      cases depth with
      -- this is the bracket that closes the last pair
      | zero => exact ⟨[], t, by rw [hclose]; rfl, rfl, h⟩
      | succ depth =>
        obtain ⟨inner, rest, rfl, hinner, hrest⟩ := ih h
        refine ⟨c :: inner, rest, rfl, ?_, hrest⟩
        rw [depthAfter_cons, if_neg hopen, if_pos hclose]
        exact hinner
    · rw [if_neg hclose] at h
      obtain ⟨inner, rest, rfl, hinner, hrest⟩ := ih h
      refine ⟨c :: inner, rest, rfl, ?_, hrest⟩
      rw [depthAfter_cons, if_neg hopen, if_neg hclose, hinner]

theorem isBalanced_iff {t : Text} : isBalanced t = true ↔ depthAfter 0 t = some 0 := by
  simp [isBalanced]

/-- Every balanced text is laid out around its outermost pairs. -/
theorem exists_layout {t : Text} (h : isBalanced t = true) : ∃ l : Layout, l.Laid ∧ l.text = t := by
  induction hlength : t.length using Nat.strong_induction_on generalizing t with
  | _ n ih =>
  subst hlength
  cases t with
  | nil => exact ⟨⟨[], []⟩, ⟨⟨by simp, by simp⟩, by simp, by simp⟩, rfl⟩
  | cons c t =>
    rw [isBalanced_iff, depthAfter_cons] at h
    by_cases hopen : c = '('
    -- the text starts with a pair, and what is behind the pair is laid out
    · rw [if_pos hopen] at h
      obtain ⟨inner, rest, rfl, hinner, hrest⟩ := exists_closing h
      obtain ⟨l, hl, htext⟩ := ih _ (by simp; omega) (isBalanced_iff.2 hrest) rfl
      refine ⟨⟨[], (inner, l.front) :: l.pairs⟩, ⟨⟨by simp, by simp⟩, ?_, ?_⟩, ?_⟩
      · exact List.forall_mem_cons.2 ⟨isBalanced_iff.2 hinner, hl.inner⟩
      · exact List.forall_mem_cons.2 ⟨hl.front_open, hl.behind_open⟩
      · rw [Layout.text, Layout.pairsText_cons, ← Layout.text, htext, hopen]
        rfl
    rw [if_neg hopen] at h
    by_cases hclose : c = ')'
    · rw [if_pos hclose] at h
      cases h
    · rw [if_neg hclose] at h
      obtain ⟨l, hl, htext⟩ := ih _ (by simp) (isBalanced_iff.2 h) rfl
      refine ⟨⟨c :: l.front, l.pairs⟩, ⟨⟨?_, ?_⟩, hl.inner, hl.behind_open⟩, ?_⟩
      · simpa [Ne.symm hopen] using hl.front_open.1
      · simpa [Ne.symm hclose] using hl.front_open.2
      · rw [← htext]
        rfl

/-! ## What a text carries -/

/-- The character is neither white space nor a parenthesis. -/
def isSolid (c : Char) : Bool := !Text.isBlank c && c != '(' && c != ')'

/-- The characters of the text other than white space and parentheses, in order. -/
def solid (t : Text) : Text := t.filter isSolid

theorem solid_append (s t : Text) : solid (s ++ t) = solid s ++ solid t := List.filter_append _ _

theorem solid_of_blank {w : Text} (hw : ∀ c ∈ w, Text.isBlank c = true) : solid w = [] := by
  rw [solid, List.filter_eq_nil_iff]
  intro c hc
  simp [isSolid, hw c hc]

theorem solid_trim (t : Text) : solid (Text.trim t) = solid t := by
  obtain ⟨v, w, hv, hw, ht⟩ := Text.exists_blank_around t
  conv_rhs => rw [ht, solid_append, solid_append, solid_of_blank hv, solid_of_blank hw]
  simp

/-- Leaving out white space and blank texts does not leave out anything that counts. -/
theorem flatMap_solid_trim (ts : List Text) :
    ((ts.map Text.trim).filter (· ≠ [])).flatMap solid = ts.flatMap solid := by
  induction ts with
  | nil => rfl
  | cons t ts ih =>
    rw [List.map_cons, List.filter_cons]
    split
    · rw [List.flatMap_cons, List.flatMap_cons, solid_trim, ih]
    · next hblank =>
      have hnil : solid t = [] := by
        rw [← solid_trim, show Text.trim t = [] by simpa using hblank]
        rfl
      rw [List.flatMap_cons, hnil, ih]
      rfl

theorem isBalanced_trim {t : Text} (h : isBalanced t = true) : isBalanced (Text.trim t) = true := by
  rw [isBalanced, depthAfter_eq_tokens, tokensOf_trim, ← depthAfter_eq_tokens]
  exact h

namespace Layout

theorem solid_pairsText (pairs : List (Text × Text)) :
    solid (pairsText pairs) = pairs.flatMap fun pair => solid pair.1 ++ solid pair.2 := by
  have hopen : solid ['('] = [] := by decide
  have hclose : solid [')'] = [] := by decide
  induction pairs with
  | nil => rfl
  | cons pair pairs ih =>
    obtain ⟨inner, behind⟩ := pair
    have hsplit : pairsText ((inner, behind) :: pairs) =
        ['('] ++ (inner ++ ([')'] ++ (behind ++ pairsText pairs))) := by
      rw [pairsText_cons]
      simp
    rw [hsplit, solid_append, solid_append, solid_append, solid_append, hopen, hclose, ih]
    simp

/-- The texts of a layout carry what the whole carries. -/
theorem flatMap_solid_partTexts (l : Layout) : l.partTexts.flatMap solid = solid l.text := by
  rw [partTexts, flatMap_solid_trim, List.flatMap_cons, List.flatMap_assoc, text, solid_append,
    solid_pairsText]
  simp

/-- The texts of a layout have no white space around them, are not blank and are balanced. -/
theorem Laid.of_mem_partTexts {l : Layout} (h : l.Laid) {x : Text} (hx : x ∈ l.partTexts) :
    Text.Trimmed x ∧ x ≠ [] ∧ StageGraph.isBalanced x = true := by
  have hopen : ∀ {t : Text}, Open t → StageGraph.isBalanced t = true := fun ht =>
    isBalanced_iff.2 (depthAfter_of_open ht 0)
  have hall : ∀ t ∈ l.front :: l.pairs.flatMap (fun pair => [pair.1, pair.2]),
      StageGraph.isBalanced t = true := by
    intro t ht
    rcases List.mem_cons.1 ht with rfl | ht
    · exact hopen h.front_open
    · obtain ⟨pair, hpair, ht⟩ := List.mem_flatMap.1 ht
      rcases List.mem_pair.1 ht with rfl | rfl
      · exact h.inner pair hpair
      · exact hopen (h.behind_open pair hpair)
  obtain ⟨hx, hne⟩ := List.mem_filter.1 hx
  obtain ⟨t, ht, rfl⟩ := List.mem_map.1 hx
  exact ⟨Text.trimmed_trim t, by simpa using hne, isBalanced_trim (hall t ht)⟩

end Layout

/-- A balanced text that opens nothing closes nothing. -/
theorem open_of_not_mem {t : Text} (h : isBalanced t = true) (hmem : '(' ∉ t) : Layout.Open t := by
  obtain ⟨⟨front, pairs⟩, hl, rfl⟩ := exists_layout h
  cases pairs with
  | nil => simpa [Layout.text, Layout.pairsText] using hl.front_open
  | cons pair pairs => exact absurd (by simp [Layout.text, Layout.pairsText]) hmem

/-! ## Where a term is cut -/

/-- Both offsets lie between characters of the text or at its ends, the second one not before the
first. -/
def Text.Sliceable (t : Text) (start stop : Nat) : Prop :=
  ∃ before between behind, t = before ++ (between ++ behind) ∧ Text.bytes before = start ∧
    Text.bytes before + Text.bytes between = stop

theorem sliceable_of_le {t a b c d : Text} (hab : t = a ++ b) (hcd : t = c ++ d)
    (h : Text.bytes a ≤ Text.bytes c) : Text.Sliceable t (Text.bytes a) (Text.bytes c) := by
  rcases List.append_eq_append_iff.1 (hab.symm.trans hcd) with ⟨x, rfl, rfl⟩ | ⟨x, rfl, rfl⟩
  · exact ⟨a, x, d, hab, rfl, by simp⟩
  -- the shorter one is in front, so nothing is between the two
  · have hx : x = [] := by
      by_contra hne
      have := Text.bytes_pos_of_ne_nil hne
      simp only [Text.bytes_append] at h
      omega
    subst hx
    exact ⟨c, [], b, by simpa using hab, by simp, by simp⟩

/-- A bracket is a character of one byte at its place. -/
theorem exists_at_position {position depth : Nat} {t : Text} {b : Bracket}
    (h : b ∈ bracketsFrom position depth t) :
    ∃ before c behind, t = before ++ c :: behind ∧ position + Text.bytes before = b.position ∧
      c.utf8Size = 1 := by
  induction t generalizing position depth with
  | nil => cases h
  | cons c t ih =>
    have hlater : ∀ depth', b ∈ bracketsFrom (position + c.utf8Size) depth' t →
        ∃ before d behind, c :: t = before ++ d :: behind ∧
          position + Text.bytes before = b.position ∧ d.utf8Size = 1 := by
      intro depth' h
      obtain ⟨before, d, behind, ht, hpos, hsize⟩ := ih h
      exact ⟨c :: before, d, behind, by rw [ht]; rfl, by rw [Text.bytes_cons]; omega, hsize⟩
    rw [bracketsFrom] at h
    split at h
    · next hc =>
      rcases List.mem_cons.1 h with rfl | h
      · exact ⟨[], c, t, rfl, rfl, by rw [hc]; rfl⟩
      · exact hlater _ h
    split at h
    · next hc =>
      rcases List.mem_cons.1 h with rfl | h
      · exact ⟨[], c, t, rfl, rfl, by rw [hc]; rfl⟩
      · exact hlater _ h
    · exact hlater _ h

/-- A term is cut at its brackets only. -/
theorem exists_bracket_of_mem_boundaries {t : Text} {tree : BracketTree}
    (h : outline t = .ok (some tree)) {n : Nat} (hn : n ∈ tree.boundaries) :
    ∃ b ∈ bracketsFrom 0 0 t, b.position = n := by
  have facts := outline_eq_some h
  have hroot : ∀ n ∈ [0, Text.bytes t - 1], ∃ b ∈ bracketsFrom 0 0 t, b.position = n := by
    intro n hn
    rw [← facts.roots] at hn
    obtain ⟨b, hb, hpos⟩ := List.mem_map.1 hn
    exact ⟨b, List.mem_of_mem_filter hb, hpos⟩
  rw [BracketTree.boundaries, facts.root_eq, facts.children_eq] at hn
  rcases List.mem_append.1 hn with hn | hn
  · rcases List.mem_cons.1 hn with rfl | hn
    · exact hroot _ (by simp)
    · obtain ⟨b, hb, hpos⟩ := List.mem_map.1 ((pairUp_ends_sublist _).subset hn)
      exact ⟨b, List.mem_of_mem_filter hb, hpos⟩
  · rw [List.mem_singleton.1 hn]
    exact hroot _ (by simp)

/-- From behind one boundary up to the next one is a slice of the text. -/
theorem isChain_sliceable {t : Text} {tree : BracketTree} (h : outline t = .ok (some tree)) :
    tree.boundaries.IsChain fun start stop => Text.Sliceable t (start + 1) stop := by
  have hbetween : tree.boundaries.Pairwise fun start stop => Text.Sliceable t (start + 1) stop := by
    refine (outline_eq_some h).ascending.imp_of_mem ?_
    intro start stop hstart hstop hlt
    obtain ⟨b, hb, rfl⟩ := exists_bracket_of_mem_boundaries h hstart
    obtain ⟨b', hb', rfl⟩ := exists_bracket_of_mem_boundaries h hstop
    obtain ⟨before, c, behind, ht, hpos, hsize⟩ := exists_at_position hb
    obtain ⟨before', c', behind', ht', hpos', -⟩ := exists_at_position hb'
    have hnext : Text.bytes (before ++ [c]) = b.position + 1 := by
      rw [Text.bytes_append, Text.bytes_cons, Text.bytes_nil]
      omega
    have := sliceable_of_le (a := before ++ [c]) (by simpa using ht) ht' (by omega)
    rwa [hnext, show Text.bytes before' = b'.position by omega] at this
  exact hbetween.isChain

/-! ## Putting a term into brackets -/

/-- Taking the first term apart comes down to taking the second one apart, which is the first one
put into brackets `n` times. -/
inductive Wraps : Nat → Span → SpanStore → Span → SpanStore → Prop where
  | stay (term : Span) (store : SpanStore) : Wraps 0 term store term store
  /-- The term does not start and end with a parenthesis. -/
  | bare {n : Nat} {term source : Span} {store store' : SpanStore}
      (hmark : isAtomic term.text = false) (hin : isEnclosed term.text = false)
      (h : Wraps n (store.wrap term).1 (store.wrap term).2 source store') :
      Wraps (n + 1) term store source store'
  /-- The term is several pairs side by side. -/
  | several {n : Nat} {term source : Span} {store store' : SpanStore}
      (hmark : isAtomic term.text = false) (hin : isEnclosed term.text = true)
      (hout : outline term.text = .ok none)
      (h : Wraps n (store.wrap term).1 (store.wrap term).2 source store') :
      Wraps (n + 1) term store source store'

theorem Wraps.resolve_eq {n : Nat} {term source : Span} {store store' : SpanStore}
    (h : Wraps n term store source store') : resolve term store = resolve source store' := by
  induction h with
  | stay => rfl
  | bare hmark hin _ ih => rw [resolve_of_not_isEnclosed hmark hin, ih]
  | several hmark hin hout _ ih => rw [resolve_of_outline_none hmark hin hout, ih]

/-! ## The parts of a balanced term -/

/-- A term in brackets is cut into the texts of what is inside. -/
theorem map_text_cutAlong_of_wrapped {source : Span} {l : Layout} (h : l.Laid)
    (htext : source.text = SpanStore.wrapped l.text) {tree : BracketTree}
    (htree : outline source.text = .ok (some tree)) (store : SpanStore) :
    (cutAlong source tree.boundaries store).1.map Span.text = l.partTexts := by
  obtain ⟨ps, hps, htexts⟩ := Layout.parts_of_wrapped (p := ⟨.root, source.text⟩) h htext
  rw [Piece.parts_of_outline (by rw [htext]; exact isAtomic_wrapped _)
    (by rw [htext]; exact isEnclosed_wrapped _) htree] at hps
  cases hps
  rw [map_text_cutAlong_span (p := ⟨.root, source.text⟩) rfl, htexts]

/-- The parts of a term whose text is `t`: none is blank or starts or ends with white space, every
one is balanced, they carry what the text carries, and they are together shorter, unless there is
nothing to take apart. -/
structure PartsOf (t : Text) (parts : List Span) : Prop where
  each : ∀ part ∈ parts, Text.Trimmed part.text ∧ part.text ≠ [] ∧ isBalanced part.text = true
  carry : (parts.flatMap fun part => solid part.text) = solid t
  shorter : spanBytes parts < Text.bytes t ∨
    ∃ part, parts = [part] ∧ part.text = Text.trim t ∧ Layout.Open t

/-- A balanced term that holds marks is a pair of brackets around a layout, at the latest when it is
put into brackets once. -/
theorem exists_wraps {term : Span} (store : SpanStore) (hbal : isBalanced term.text = true)
    (hmark : isAtomic term.text = false) :
    ∃ n source store', ∃ l : Layout, n ≤ 1 ∧ Wraps n term store source store' ∧ l.Laid ∧
      source.text = SpanStore.wrapped l.text ∧ solid l.text = solid term.text := by
  obtain ⟨l, hl, htext⟩ := exists_layout hbal
  have hwrap : (store.wrap term).1.text = SpanStore.wrapped l.text := by
    rw [SpanStore.text_wrap, htext]
  by_cases hin : isEnclosed term.text = true
  · have hshape := Layout.single_or_pairs_of_isEnclosed hl (by rwa [htext])
    rcases hshape with ⟨hfront, inner, hpairs⟩ | hpairs
    -- the term is one pair, and what is inside is laid out again
    · have hone : term.text = SpanStore.wrapped inner := by
        rw [← htext, Layout.text, hfront, hpairs]
        simp [Layout.pairsText, SpanStore.wrapped]
      have hinner : isBalanced inner = true := hl.inner (inner, []) (by rw [hpairs]; simp)
      obtain ⟨l', hl', rfl⟩ := exists_layout hinner
      refine ⟨0, term, store, l', Nat.zero_le _, .stay _ _, hl', hone, ?_⟩
      rw [hone, SpanStore.wrapped, ← List.singleton_append, solid_append, solid_append]
      simp [show solid ['('] = [] by decide, show solid [')'] = [] by decide]
    · have hout := Layout.outline_eq_none_of_pairs hl hpairs
      rw [htext] at hout
      exact ⟨1, _, _, l, le_refl _, .several hmark hin hout (.stay _ _), hl, hwrap, by rw [htext]⟩
  · exact ⟨1, _, _, l, le_refl _, .bare hmark (by simpa using hin) (.stay _ _), hl, hwrap,
      by rw [htext]⟩

/-- How a term that holds marks is taken apart: put into brackets `n` times it is the source, which
is cut along the tree. -/
structure Resolution (n : Nat) (term : Span) (store : SpanStore) (source : Span)
    (store' : SpanStore) (tree : BracketTree) : Prop where
  wraps : Wraps n term store source store'
  enclosed : isEnclosed source.text = true
  outline_eq : outline source.text = .ok (some tree)
  /-- No cut falls within a character. -/
  sliceable : tree.boundaries.IsChain fun start stop => Text.Sliceable source.text (start + 1) stop
  resolve_eq : resolve term store = .ok (cutAlong source tree.boundaries store').1
    (cutAlong source tree.boundaries store').2
  parts : PartsOf term.text (cutAlong source tree.boundaries store').1

/-- A balanced term that holds marks is put into brackets at most once and then cut. -/
theorem exists_resolution {term : Span} (store : SpanStore) (h : isBalanced term.text = true)
    (hmark : isAtomic term.text = false) :
    ∃ n source store' tree, n ≤ 1 ∧ Resolution n term store source store' tree := by
  obtain ⟨n, source, store', l, hn, hwraps, hl, hsource, hsolid⟩ := exists_wraps store h hmark
  have hin : isEnclosed source.text = true := by rw [hsource]; exact isEnclosed_wrapped _
  have hout := Layout.outline_wrapped hl
  rw [← hsource] at hout
  have hresolve := hwraps.resolve_eq
  rw [resolve_of_outline (by rw [hsource]; exact isAtomic_wrapped _) hin hout] at hresolve
  have htexts := map_text_cutAlong_of_wrapped hl hsource hout store'
  refine ⟨n, source, store', _, hn, hwraps, hin, hout, isChain_sliceable hout, hresolve, ?_, ?_, ?_⟩
  · intro part hpart
    refine hl.of_mem_partTexts ?_
    rw [← htexts]
    exact List.mem_map_of_mem hpart
  · rw [← hsolid, ← l.flatMap_solid_partTexts, ← htexts, List.flatMap_map]
  · rcases spanBytes_resolve hresolve with ⟨hatom, -⟩ | hlt | hnil | ⟨part, hone, htext, hmem⟩
    · rw [hmark] at hatom
      cases hatom
    · exact .inl hlt
    · left
      rw [hnil]
      refine Text.bytes_pos_of_ne_nil ?_
      intro hempty
      rw [hempty] at hmark
      cases hmark
    · exact .inr ⟨part, hone, htext, open_of_not_mem h hmem⟩

/-- A balanced term is taken apart, whatever the store holds. A bare name is its own only part. Any
other term is put into brackets at most once before it has an outline, no cut along the outline
falls within a character, and the parts carry what the term carries. -/
theorem resolve_of_isBalanced (term : Span) (store : SpanStore)
    (h : isBalanced term.text = true) :
    (isAtomic term.text = true → resolve term store = .ok [term] store) ∧
    (isAtomic term.text = false → ∃ n source store' tree, n ≤ 1 ∧
      Resolution n term store source store' tree) :=
  ⟨resolve_of_isAtomic, exists_resolution store h⟩

/-- Two pairs side by side, with a name of two bytes, are put into brackets and taken apart. -/
theorem resolve_two_pairs : isBalanced "(é , B) , ((C))".toList = true ∧
    ∃ parts store', resolve ⟨1, "(é , B) , ((C))".toList⟩ .new = .ok parts store' ∧
      PartsOf "(é , B) , ((C))".toList parts := by
  have hbal : isBalanced "(é , B) , ((C))".toList = true := by decide
  obtain ⟨_, _, _, _, -, hresolution⟩ :=
    (resolve_of_isBalanced ⟨1, "(é , B) , ((C))".toList⟩ .new hbal).2 (by decide)
  exact ⟨hbal, _, _, hresolution.resolve_eq, hresolution.parts⟩

end StageGraph
