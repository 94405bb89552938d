import StageGraph.Plain.Bracket
import StageGraph.Plain.Span

set_option autoImplicit false

/-! # The parts of a term

A term that holds marks is taken apart along its outermost brackets: what stands before, inside and
between the pairs directly within the outermost one are its parts.

    ((A)->((B),(C))->(D))    has the parts    A   ->   (B),(C)   ->   D

A term that is not one pair of brackets from end to end is put into brackets first, and once more
if it turns out to be several pairs side by side. Blank parts are left out, though they get a
number in the store like all others.

`spanBytes_resolve` says why taking apart comes to an end: the parts are together shorter than the
term, unless the term has no parentheses.
-/

namespace StageGraph

/-- The text starts with an opening and ends with a closing bracket. -/
def isEnclosed (t : Text) : Bool := t.head? == some '(' && t.getLast? == some ')'

/-- The parts between neighbouring boundaries of a span, blank ones left out. -/
def cutAlong (term : Span) : List Nat → SpanStore → List Span × SpanStore
  | start :: stop :: rest, store =>
    let (part, store) := store.cut term (start + 1) stop
    let (parts, store) := cutAlong term (stop :: rest) store
    (if part.text = [] then parts else part :: parts, store)
  | _, store => ([], store)

/-- How often a text still has to be put into brackets. -/
def wrapsNeeded (t : Text) : Nat :=
  if isEnclosed t then
    match outline t with
    | .ok none => 1
    | _ => 0
  else 2

theorem isEnclosed_wrapped (t : Text) : isEnclosed (SpanStore.wrapped t) = true := by
  have hlast : (SpanStore.wrapped t).getLast? = some ')' :=
    List.getLast?_concat (l := '(' :: t)
  simp only [isEnclosed, hlast]
  rfl

theorem wrapsNeeded_wrapped_le (t : Text) : wrapsNeeded (SpanStore.wrapped t) ≤ 1 := by
  unfold wrapsNeeded
  rw [if_pos (isEnclosed_wrapped t)]
  split <;> decide

theorem wrapsNeeded_wrapped_eq_zero {t : Text} (h : outline t = .ok none) :
    wrapsNeeded (SpanStore.wrapped t) = 0 := by
  unfold wrapsNeeded
  rw [if_pos (isEnclosed_wrapped t)]
  split
  · next hnone => exact absurd hnone (outline_wrapped_ne_none (outline_eq_none h).1)
  · rfl

/-- The parts of a term, in order. A bare name is its own only part. -/
def resolve (term : Span) (store : SpanStore) :
    EStateM.Result Failure SpanStore (List Span) :=
  if isAtomic term.text then .ok [term] store
  else if _ : isEnclosed term.text then
    match _ : outline term.text with
    | .error failure => .error failure store
    | .ok (some tree) =>
      let (parts, store) := cutAlong term tree.boundaries store
      .ok parts store
    -- several pairs side by side: within brackets of its own the term is a single pair
    | .ok none => resolve (store.wrap term).1 (store.wrap term).2
  else resolve (store.wrap term).1 (store.wrap term).2
termination_by wrapsNeeded term.text
decreasing_by
  -- in brackets of its own the term has one outermost pair
  · rw [SpanStore.text_wrap, wrapsNeeded_wrapped_eq_zero (by assumption)]
    simp [wrapsNeeded, *]
  -- in brackets the term needs at most one pair more
  · rw [SpanStore.text_wrap]
    have := wrapsNeeded_wrapped_le term.text
    simp only [wrapsNeeded, *]
    exact Nat.lt_succ_of_le this

/-! ## How long the parts are -/

theorem spanBytes_cutAlong (term : Span) (b last : Nat) (bs : List Nat) (store : SpanStore)
    (hasc : (b :: bs).Pairwise (· < ·)) (hlast : (b :: bs).getLast? = some last) :
    spanBytes (cutAlong term (b :: bs) store).1 + bs.length + b ≤ last := by
  induction bs generalizing b store with
  | nil =>
    cases hlast
    simp [cutAlong, spanBytes]
  | cons c bs ih =>
    have hbc : b < c := List.rel_of_pairwise_cons hasc List.mem_cons_self
    have hcut := Text.bytes_trim_le (Text.slice term.text (b + 1) c)
    have hslice := Text.bytes_slice_le term.text (b + 1) c
    have hrest := ih c (store.cut term (b + 1) c).2 hasc.of_cons (by simpa using hlast)
    simp only [cutAlong, List.length_cons]
    split
    · omega
    · simp only [spanBytes, SpanStore.text_cut] at hrest ⊢
      omega

theorem length_boundaries (tree : BracketTree) :
    tree.boundaries.length = 2 * tree.children.length + 2 := by
  have h : ∀ pairs : List BracketPair,
      (pairs.flatMap fun pair => [pair.opening, pair.closing]).length = 2 * pairs.length := by
    intro pairs
    induction pairs with
    | nil => rfl
    | cons p pairs ih =>
      simp only [List.flatMap_cons, List.length_append, ih, List.length_cons, List.length_nil]
      omega
  simp [BracketTree.boundaries, h]

/-- Every bracket that is cut away counts. -/
theorem spanBytes_of_outline {term : Span} {tree : BracketTree}
    (h : outline term.text = .ok (some tree)) (store : SpanStore) :
    spanBytes (cutAlong term tree.boundaries store).1 + 2 * tree.children.length + 2 ≤
      Text.bytes term.text := by
  have facts := outline_eq_some h
  have hlen := length_boundaries tree
  have hlast : tree.boundaries.getLast? = some (Text.bytes term.text - 1) := by
    have : tree.root.closing = Text.bytes term.text - 1 := by rw [facts.root_eq]
    rw [← this]
    exact List.getLast?_concat
  have hhead : tree.boundaries = 0 :: tree.boundaries.tail := by
    have : tree.root.opening = 0 := by rw [facts.root_eq]
    simp [BracketTree.boundaries, this]
  have hasc := facts.ascending
  rw [hhead] at hlast hasc hlen ⊢
  have := spanBytes_cutAlong term 0 _ _ store hasc hlast
  simp only [List.length_cons] at hlen
  omega

theorem length_children {t : Text} {tree : BracketTree} (h : outline t = .ok (some tree)) :
    tree.children.length = (atDepth 2 (bracketsFrom 0 0 t)).length / 2 := by
  rw [(outline_eq_some h).children_eq, length_pairUp]

theorem isAtomic_wrapped (t : Text) : isAtomic (SpanStore.wrapped t) = false := by
  simp [SpanStore.wrapped, isAtomic]

/-- A term in brackets is cut along its outline, or wrapped once more. -/
theorem resolve_enclosed {term : Span} {store store' : SpanStore} {parts : List Span}
    (hmark : isAtomic term.text = false) (hin : isEnclosed term.text = true)
    (h : resolve term store = .ok parts store') :
    (∃ tree, outline term.text = .ok (some tree) ∧
      cutAlong term tree.boundaries store = (parts, store')) ∨
    (outline term.text = .ok none ∧
      resolve (store.wrap term).1 (store.wrap term).2 = .ok parts store') := by
  rw [resolve, if_neg (by simp [hmark]), dif_pos hin] at h
  split at h
  · cases h
  · next tree htree =>
    refine .inl ⟨tree, htree, ?_⟩
    cases h
    rfl
  · next hnone => exact .inr ⟨hnone, h⟩

/-- A term in brackets of its own, which has a single outermost pair, and whose inside is not a
pair from end to end, has a child for its first inner bracket. -/
theorem children_of_wrapped {t : Text} {tree : BracketTree}
    (h : outline (SpanStore.wrapped t) = .ok (some tree)) (hmem : '(' ∈ t) :
    1 ≤ tree.children.length := by
  have facts := outline_eq_some h
  have hbytes : Text.bytes (SpanStore.wrapped t) - 1 = 1 + Text.bytes t := by
    simp only [SpanStore.wrapped, List.cons_append, Text.bytes_cons, Text.bytes_append,
      Text.bytes_nil, show Char.utf8Size '(' = 1 from rfl, show Char.utf8Size ')' = 1 from rfl]
    omega
  obtain ⟨d, hd⟩ := bracketsFrom_append 1 1 t [')']
  have hall : bracketsFrom 0 0 (SpanStore.wrapped t) =
      ⟨0, 1⟩ :: (bracketsFrom 1 1 t ++ bracketsFrom (1 + Text.bytes t) d [')']) := by
    rw [← hd]
    rfl
  have hone : ∀ b ∈ bracketsFrom 1 1 t, b.depth ≠ 1 := by
    intro b hb hdepth
    have hbound := position_bounds hb
    have hb' : b.position ∈
        (atDepth 1 (bracketsFrom 0 0 (SpanStore.wrapped t))).map Bracket.position := by
      refine List.mem_map_of_mem ?_
      simp only [atDepth, List.mem_filter, decide_eq_true_eq]
      refine ⟨?_, hdepth⟩
      rw [hall]
      exact List.mem_cons_of_mem _ (List.mem_append_left _ hb)
    rw [facts.roots, hbytes] at hb'
    simp only [List.mem_cons, List.not_mem_nil, or_false] at hb'
    omega
  -- there is a bracket of depth 2, so by parity there are two of them
  obtain ⟨b, hb, htwo⟩ := exists_atDepth_two hmem hone
  have hpos : 0 < (atDepth 2 (bracketsFrom 0 0 (SpanStore.wrapped t))).length := by
    apply List.length_pos_of_mem (a := b)
    simp only [atDepth, List.mem_filter, decide_eq_true_eq]
    refine ⟨?_, htwo⟩
    rw [hall]
    exact List.mem_cons_of_mem _ (List.mem_append_left _ hb)
  have hpar := atDepth_parity 0 2 (depthAfter_of_isBalanced facts.balanced)
  simp only [show (0 : Nat) < 2 from by decide, if_true] at hpar
  rw [length_children h]
  omega

theorem slice_wrapped (t : Text) :
    Text.slice (SpanStore.wrapped t) 1 (Text.bytes (SpanStore.wrapped t) - 1) = t := by
  have h := Text.slice_append ['('] t [')']
  have hbytes : Text.bytes (SpanStore.wrapped t) - 1 = Text.bytes ['('] + Text.bytes t := by
    simp only [SpanStore.wrapped, List.cons_append, Text.bytes_cons, Text.bytes_append,
      Text.bytes_nil, show Char.utf8Size ')' = 1 from rfl]
    omega
  rw [hbytes]
  exact h

/-- A text without parentheses, put into brackets, has at most one part: the text itself. -/
theorem cutAlong_wrapped {u : Span} {t : Text} {tree : BracketTree} (store : SpanStore)
    (hu : u.text = SpanStore.wrapped t) (h : outline u.text = .ok (some tree)) (hmem : '(' ∉ t) :
    ∀ parts, parts = (cutAlong u tree.boundaries store).1 →
      parts = [] ∨ ∃ p, parts = [p] ∧ p.text = Text.trim t := by
  have facts := outline_eq_some h
  have hnone : atDepth 2 (bracketsFrom 0 0 u.text) = [] := by
    rw [atDepth, List.filter_eq_nil_iff]
    intro b hb
    have hle : b.depth ≤ 1 := by
      rw [hu, show bracketsFrom 0 0 (SpanStore.wrapped t) =
        ⟨0, 1⟩ :: bracketsFrom 1 1 (t ++ [')']) from rfl] at hb
      rcases List.mem_cons.1 hb with rfl | hb
      · exact Nat.le_refl _
      · exact depth_le_of_not_mem (by simp [hmem]) hb
    simp only [decide_eq_true_eq]
    omega
  have hbound : tree.boundaries = [0, Text.bytes u.text - 1] := by
    simp only [BracketTree.boundaries, facts.children_eq, hnone, facts.root_eq]
    rfl
  intro parts hparts
  rw [hbound] at hparts
  simp only [cutAlong, SpanStore.text_cut, hu] at hparts
  split at hparts
  · exact .inl hparts
  · exact .inr ⟨_, hparts, by rw [SpanStore.text_cut, hu, Nat.zero_add, slice_wrapped]⟩

/-- Taking apart makes shorter: a term is a bare name, or its parts are together shorter, or it has
no parentheses and is its own only part. -/
theorem spanBytes_resolve {term : Span} {store store' : SpanStore} {parts : List Span}
    (h : resolve term store = .ok parts store') :
    (isAtomic term.text = true ∧ parts = [term]) ∨
    spanBytes parts < Text.bytes term.text ∨
    parts = [] ∨
    ∃ p, parts = [p] ∧ p.text = Text.trim term.text ∧ '(' ∉ term.text := by
  have hwrap : ∀ t, Text.bytes (SpanStore.wrapped t) = Text.bytes t + 2 := by
    intro t
    simp only [SpanStore.wrapped, List.cons_append, Text.bytes_cons, Text.bytes_append,
      Text.bytes_nil, show Char.utf8Size '(' = 1 from rfl, show Char.utf8Size ')' = 1 from rfl]
    omega
  -- several outermost pairs become children, and each child's brackets are cut away
  have hseveral : ∀ (u : Span) (s : SpanStore), outline u.text = .ok none →
      resolve (s.wrap u).1 (s.wrap u).2 = .ok parts store' →
      spanBytes parts + 4 ≤ Text.bytes u.text := by
    intro u s hnone hres
    obtain ⟨hbal, hcount⟩ := outline_eq_none hnone
    rcases resolve_enclosed (by rw [SpanStore.text_wrap]; exact isAtomic_wrapped _)
      (by rw [SpanStore.text_wrap]; exact isEnclosed_wrapped _) hres with
      ⟨tree, htree, hcut⟩ | ⟨hnone', _⟩
    · have hbytes := spanBytes_of_outline htree (s.wrap u).2
      have hchildren := length_children htree
      rw [hcut, SpanStore.text_wrap, hwrap] at hbytes
      rw [SpanStore.text_wrap, SpanStore.wrapped, length_atDepth_two_wrapped hbal] at hchildren
      simp only at hbytes
      omega
    · rw [SpanStore.text_wrap] at hnone'
      exact absurd hnone' (outline_wrapped_ne_none hbal)
  by_cases hatom : isAtomic term.text = true
  · rw [resolve, if_pos hatom] at h
    cases h
    exact .inl ⟨hatom, rfl⟩
  right
  rw [Bool.not_eq_true] at hatom
  by_cases hin : isEnclosed term.text = true
  -- the term is one pair, or several side by side
  · left
    rcases resolve_enclosed hatom hin h with ⟨tree, htree, hcut⟩ | ⟨hnone, hres⟩
    · have hbytes := spanBytes_of_outline htree store
      rw [hcut] at hbytes
      simp only at hbytes
      omega
    · have := hseveral term store hnone hres
      omega
  -- the term is put into brackets: what that adds is cut away again, and more if it has its own
  · rw [resolve, if_neg (by simp [hatom]), dif_neg hin] at h
    rcases resolve_enclosed (by rw [SpanStore.text_wrap]; exact isAtomic_wrapped _)
      (by rw [SpanStore.text_wrap]; exact isEnclosed_wrapped _) h with
      ⟨tree, htree, hcut⟩ | ⟨hnone, hres⟩
    · by_cases hmem : '(' ∈ term.text
      · left
        have hbytes := spanBytes_of_outline htree (store.wrap term).2
        rw [SpanStore.text_wrap] at htree
        have hchildren := children_of_wrapped htree hmem
        rw [hcut, SpanStore.text_wrap, hwrap] at hbytes
        simp only at hbytes
        omega
      · right
        rcases cutAlong_wrapped (store.wrap term).2 (SpanStore.text_wrap store term) htree hmem
          parts (by rw [hcut]) with hp | ⟨p, hp, htext⟩
        · exact .inl hp
        · exact .inr ⟨p, hp, htext, hmem⟩
    · left
      have := hseveral _ _ hnone hres
      rw [SpanStore.text_wrap, hwrap] at this
      omega

end StageGraph
