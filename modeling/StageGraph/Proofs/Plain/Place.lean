import Mathlib.Logic.Relation
import Mathlib.Tactic
import StageGraph.Plain.Parts

set_option autoImplicit false

/-! # Places instead of numbers

A span's number depends on what the store has made before it. Its place does not: it says how the
span comes from the text of the topology. Taking a term apart can be said in terms of places alone
(`Piece.parts`), and `resolve` does the same with numbers, whatever its store holds by then
(`resolve_of_shows`).

A store gives different numbers to different places (`SpanStore.Rooted.place_unique`). Pieces that
were cut from different places stay `Place.Apart`, however far they are taken apart.
-/

namespace StageGraph

/-- How a span comes from the text of a topology. -/
inductive Place where
  /-- The arrow that joins the parts of a term to the stages behind it. -/
  | arrow
  /-- The whole topology. -/
  | root
  /-- Another place in parentheses. -/
  | wrapping (p : Place)
  /-- What stands between two byte offsets of another place. -/
  | slice (p : Place) (start stop : Nat)
deriving DecidableEq

/-- A text at a place. -/
structure Piece where
  place : Place
  text : Text
deriving DecidableEq

/-! ## Where places come from -/

namespace Place

/-- The first place is the second one or comes from it. -/
inductive Within : Place → Place → Prop where
  | refl (p : Place) : Within p p
  | wrapping {q p : Place} (h : Within q p) : Within (wrapping q) p
  | slice {q p : Place} (start stop : Nat) (h : Within q p) : Within (slice q start stop) p

/-- Nothing comes from both places. -/
def Apart (p q : Place) : Prop := ∀ r, Within r p → ¬ Within r q

/-- How many steps lead to the place. -/
def depth : Place → Nat
  | arrow => 0
  | root => 0
  | wrapping p => p.depth + 1
  | slice p _ _ => p.depth + 1

theorem Within.trans {r q p : Place} (hrq : Within r q) (hqp : Within q p) : Within r p := by
  induction hrq with
  | refl => exact hqp
  | wrapping _ ih => exact (ih hqp).wrapping
  | slice start stop _ ih => exact (ih hqp).slice start stop

theorem Within.depth_le {q p : Place} (h : Within q p) : p.depth ≤ q.depth := by
  induction h with
  | refl => exact Nat.le_refl _
  | wrapping _ ih => exact Nat.le_succ_of_le ih
  | slice _ _ _ ih => exact Nat.le_succ_of_le ih

/-- What comes from two places that are equally many steps away comes from one. -/
theorem Within.eq_of_depth_eq {r p q : Place} (hp : Within r p) (hq : Within r q)
    (h : p.depth = q.depth) : p = q := by
  induction hp with
  | refl =>
    cases hq with
    | refl => rfl
    | wrapping hq =>
      have := hq.depth_le
      rw [Place.depth] at h
      omega
    | slice start stop hq =>
      have := hq.depth_le
      rw [Place.depth] at h
      omega
  | wrapping hp ih =>
    cases hq with
    | refl =>
      have := hp.depth_le
      rw [Place.depth] at h
      omega
    | wrapping hq => exact ih hq h
  | slice start stop hp ih =>
    cases hq with
    | refl =>
      have := hp.depth_le
      rw [Place.depth] at h
      omega
    | slice _ _ hq => exact ih hq h

theorem apart_of_depth_eq {p q : Place} (h : p.depth = q.depth) (hne : p ≠ q) : Apart p q :=
  fun _ hp hq => hne (hp.eq_of_depth_eq hq h)

theorem Apart.within {p q p' q' : Place} (h : Apart p q) (hp : Within p' p) (hq : Within q' q) :
    Apart p' q' := fun r hrp hrq => h r (hrp.trans hp) (hrq.trans hq)

theorem Apart.ne {p q : Place} (h : Apart p q) : p ≠ q := by
  rintro rfl
  exact h p (.refl p) (.refl p)

/-- Nothing in a topology comes from the arrow. -/
theorem apart_arrow {p : Place} (h : Within p root) : Apart p arrow := by
  refine (apart_of_depth_eq (p := root) (q := arrow) rfl ?_).within h (.refl _)
  rintro ⟨⟩

end Place

/-! ## The parts of a piece -/

theorem outline_error {t : Text} {failure : Failure} (h : outline t = .error failure) :
    ∃ cause, failure = .malformed cause := by
  have houter : ∀ {failure}, outerBrackets t = .error failure →
      ∃ cause, failure = .malformed cause := by
    intro failure h
    unfold outerBrackets at h
    split at h
    · cases h
    · cases h
      exact ⟨_, rfl⟩
  have htree : ∀ {brackets : List Bracket} {failure},
      BracketTree.ofBrackets brackets = .error failure → ∃ cause, failure = .malformed cause := by
    intro brackets failure h
    unfold BracketTree.ofBrackets at h
    split at h
    · cases h
    · cases h
      exact ⟨_, rfl⟩
  unfold outline at h
  cases hb : outerBrackets t with
  | error failure' =>
    rw [hb] at h
    cases h
    exact houter hb
  | ok brackets =>
    rw [hb] at h
    simp only [bind, Except.bind, pure, Except.pure, throw, throwThe, MonadExceptOf.throw] at h
    split at h
    · cases h
    split at h
    · cases h
      exact ⟨_, rfl⟩
    cases ht : BracketTree.ofBrackets brackets with
    | error failure' =>
      rw [ht] at h
      cases h
      exact htree ht
    | ok tree =>
      rw [ht] at h
      simp only at h
      split at h
      · cases h
      · cases h
        exact ⟨_, rfl⟩

namespace Piece

/-- The piece that joins the parts of a term to the stages behind it. -/
def arrow : Piece := ⟨.arrow, Mark.arrow.text⟩

/-- The piece in parentheses. -/
def wrap (p : Piece) : Piece := ⟨.wrapping p.place, SpanStore.wrapped p.text⟩

/-- The part of the piece between two byte offsets, without white space around it. -/
def cut (p : Piece) (start stop : Nat) : Piece :=
  ⟨.slice p.place start stop, Text.trim (Text.slice p.text start stop)⟩

/-- The parts between neighbouring boundaries, blank ones left out. -/
def cutAlong (p : Piece) : List Nat → List Piece
  | start :: stop :: rest =>
    if (p.cut (start + 1) stop).text = [] then p.cutAlong (stop :: rest)
    else p.cut (start + 1) stop :: p.cutAlong (stop :: rest)
  | _ => []

/-- The parts of a term, in order. A bare name is its own only part. -/
def parts (p : Piece) : Except Failure (List Piece) :=
  if isAtomic p.text then .ok [p]
  else if _ : isEnclosed p.text then
    match _ : outline p.text with
    | .error failure => .error failure
    | .ok (some tree) => .ok (p.cutAlong tree.boundaries)
    | .ok none => p.wrap.parts
  else p.wrap.parts
termination_by wrapsNeeded p.text
decreasing_by
  · rw [show p.wrap.text = SpanStore.wrapped p.text from rfl,
      wrapsNeeded_wrapped_eq_zero (by assumption)]
    simp [wrapsNeeded, *]
  · have := wrapsNeeded_wrapped_le p.text
    simp only [wrap, wrapsNeeded, *]
    exact Nat.lt_succ_of_le this

theorem parts_of_isAtomic {p : Piece} (h : isAtomic p.text = true) : p.parts = .ok [p] := by
  rw [parts, if_pos h]

theorem parts_of_outline {p : Piece} {tree : BracketTree} (hatom : isAtomic p.text = false)
    (hin : isEnclosed p.text = true) (hout : outline p.text = .ok (some tree)) :
    p.parts = .ok (p.cutAlong tree.boundaries) := by
  rw [parts, if_neg (by simp [hatom]), dif_pos hin]
  split
  · next hout' => cases hout.symm.trans hout'
  · next hout' => cases hout.symm.trans hout'; rfl
  · next hout' => cases hout.symm.trans hout'

theorem parts_of_outline_none {p : Piece} (hatom : isAtomic p.text = false)
    (hin : isEnclosed p.text = true) (hout : outline p.text = .ok none) :
    p.parts = p.wrap.parts := by
  rw [parts, if_neg (by simp [hatom]), dif_pos hin]
  split
  · next hout' => cases hout.symm.trans hout'
  · next hout' => cases hout.symm.trans hout'
  · rfl

theorem parts_of_not_isEnclosed {p : Piece} (hatom : isAtomic p.text = false)
    (hin : isEnclosed p.text = false) : p.parts = p.wrap.parts := by
  rw [parts, if_neg (by simp [hatom]), dif_neg (by simp [hin])]

theorem parts_error {p : Piece} {failure : Failure} (h : p.parts = .error failure) :
    ∃ cause, failure = .malformed cause := by
  fun_induction parts p with
  | case1 => cases h
  | case2 p hatom hin failure' hout =>
    cases h
    exact outline_error hout
  | case3 => cases h
  | case4 p hatom hin hout ih => exact ih h
  | case5 p hatom hin ih => exact ih h

/-! ## Parts lie apart -/

theorem place_of_mem_cutAlong {p q : Piece} {bs : List Nat} (h : q ∈ p.cutAlong bs) :
    ∃ start stop, q.place = .slice p.place start stop := by
  fun_induction cutAlong p bs with
  | case1 start stop rest hblank ih => exact ih h
  | case2 start stop rest hblank ih =>
    rcases List.mem_cons.1 h with rfl | h
    · exact ⟨start + 1, stop, rfl⟩
    · exact ih h
  | case3 => cases h

theorem lt_of_mem_cutAlong {p q : Piece} {b start stop : Nat} {bs : List Nat}
    (hasc : (b :: bs).Pairwise (· < ·)) (h : q ∈ p.cutAlong (b :: bs))
    (hplace : q.place = .slice p.place start stop) : b < start := by
  induction bs generalizing b with
  | nil => cases h
  | cons c bs ih =>
    have hbc : b < c := List.rel_of_pairwise_cons hasc List.mem_cons_self
    rw [cutAlong] at h
    have hrest : q ∈ p.cutAlong (c :: bs) → b < start := fun h =>
      Nat.lt_trans hbc (ih hasc.of_cons h)
    split at h
    · exact hrest h
    · rcases List.mem_cons.1 h with rfl | h
      · cases hplace
        exact Nat.lt_succ_self b
      · exact hrest h

/-- Parts cut along rising boundaries lie apart. -/
theorem pairwise_cutAlong (p : Piece) {bs : List Nat} (hasc : bs.Pairwise (· < ·)) :
    (p.cutAlong bs).Pairwise fun q r => Place.Apart q.place r.place := by
  fun_induction cutAlong p bs with
  | case1 start stop rest hblank ih => exact ih hasc.of_cons
  | case2 start stop rest hblank ih =>
    refine List.Pairwise.cons (fun r hr => ?_) (ih hasc.of_cons)
    obtain ⟨start', stop', hplace⟩ := place_of_mem_cutAlong hr
    have hlt : stop < start' := lt_of_mem_cutAlong hasc.of_cons hr hplace
    have hstart : start < stop := List.rel_of_pairwise_cons hasc List.mem_cons_self
    rw [hplace]
    refine Place.apart_of_depth_eq rfl ?_
    rintro heq
    rw [show (p.cut (start + 1) stop).place = .slice p.place (start + 1) stop from rfl] at heq
    cases heq
    omega
  | case3 => exact List.Pairwise.nil

/-- The parts of a piece come from its place, and lie apart from each other. -/
theorem parts_apart {p : Piece} {ps : List Piece} (h : p.parts = .ok ps) :
    (∀ q ∈ ps, Place.Within q.place p.place) ∧
      ps.Pairwise fun q r => Place.Apart q.place r.place := by
  fun_induction parts p with
  | case1 p hatom =>
    cases h
    refine ⟨?_, List.pairwise_singleton _ _⟩
    intro q hq
    rw [List.mem_singleton.1 hq]
    exact .refl _
  | case2 => cases h
  | case3 p hatom hin tree htree =>
    cases h
    refine ⟨?_, pairwise_cutAlong p (outline_eq_some htree).ascending⟩
    intro q hq
    obtain ⟨start, stop, hplace⟩ := place_of_mem_cutAlong hq
    rw [hplace]
    exact (Place.Within.refl _).slice start stop
  | case4 p hatom hin hnone ih =>
    obtain ⟨hwithin, hapart⟩ := ih h
    exact ⟨fun q hq => (hwithin q hq).trans (Place.Within.wrapping (.refl _)), hapart⟩
  | case5 p hatom hin ih =>
    obtain ⟨hwithin, hapart⟩ := ih h
    exact ⟨fun q hq => (hwithin q hq).trans (Place.Within.wrapping (.refl _)), hapart⟩

theorem text_ne_nil_of_mem_cutAlong {p q : Piece} {bs : List Nat} (h : q ∈ p.cutAlong bs) :
    q.text ≠ [] := by
  fun_induction cutAlong p bs with
  | case1 start stop rest hblank ih => exact ih h
  | case2 start stop rest hblank ih =>
    rcases List.mem_cons.1 h with rfl | h
    · exact hblank
    · exact ih h
  | case3 => cases h

end Piece

/-! ## The numbers of places -/

namespace SpanStore

/-- The number that the store has for a place of the topology whose span is number `root`. -/
def idOf? (store : SpanStore) (root : Nat) : Place → Option Nat
  | .arrow => some 0
  | .root => some root
  | .wrapping p => (store.idOf? root p).bind fun id => store.derived[Origin.wrapping id]?
  | .slice p start stop =>
    (store.idOf? root p).bind fun id => store.derived[Origin.slice id start stop]?

/-- Every derived span has a number of its own, which is not that of the arrow. -/
structure Sound (store : SpanStore) : Prop where
  origin_unique : ∀ {o o' : Origin} {id : Nat},
    store.derived[o]? = some id → store.derived[o']? = some id → o = o'
  derived_pos : ∀ {o : Origin} {id : Nat}, store.derived[o]? = some id → 0 < id
  derived_lt : ∀ {o : Origin} {id : Nat}, store.derived[o]? = some id → id < store.texts.size
  size_pos : 0 < store.texts.size

/-- The store is sound, and the span with this number was not derived. -/
structure Rooted (store : SpanStore) (root : Nat) : Prop extends store.Sound where
  root_pos : 0 < root
  root_lt : root < store.texts.size
  not_derived : ∀ {o : Origin}, store.derived[o]? ≠ some root

/-- The second store still has all that was derived in the first. -/
def Extends (store store' : SpanStore) : Prop :=
  ∀ (o : Origin) (id : Nat), store.derived[o]? = some id → store'.derived[o]? = some id

theorem Extends.refl (store : SpanStore) : store.Extends store := fun _ _ h => h

theorem Extends.trans {s s' s'' : SpanStore} (h : s.Extends s') (h' : s'.Extends s'') :
    s.Extends s'' := fun o id ho => h' o id (h o id ho)

theorem Extends.idOf? {store store' : SpanStore} (h : store.Extends store') {root : Nat}
    {p : Place} {id : Nat} (hp : store.idOf? root p = some id) :
    store'.idOf? root p = some id := by
  induction p generalizing id with
  | arrow => exact hp
  | root => exact hp
  | wrapping p ih =>
    obtain ⟨i, hi, hid⟩ := Option.bind_eq_some_iff.1 hp
    exact Option.bind_eq_some_iff.2 ⟨i, ih hi, h _ _ hid⟩
  | slice p start stop ih =>
    obtain ⟨i, hi, hid⟩ := Option.bind_eq_some_iff.1 hp
    exact Option.bind_eq_some_iff.2 ⟨i, ih hi, h _ _ hid⟩

/-- Different places have different numbers. -/
theorem Rooted.place_unique {store : SpanStore} {root : Nat} (h : store.Rooted root)
    {p q : Place} {id : Nat} (hp : store.idOf? root p = some id)
    (hq : store.idOf? root q = some id) : p = q := by
  induction p generalizing q id with
  -- no derived span has the number of the arrow or that of the root
  | arrow =>
    cases hp
    cases q with
    | arrow => rfl
    | root => cases hq; exact absurd h.root_pos (Nat.lt_irrefl 0)
    | wrapping q =>
      obtain ⟨i, -, hid⟩ := Option.bind_eq_some_iff.1 hq
      exact absurd (h.derived_pos hid) (Nat.lt_irrefl 0)
    | slice q start stop =>
      obtain ⟨i, -, hid⟩ := Option.bind_eq_some_iff.1 hq
      exact absurd (h.derived_pos hid) (Nat.lt_irrefl 0)
  | root =>
    cases hp
    cases q with
    | arrow => cases hq; exact absurd h.root_pos (Nat.lt_irrefl 0)
    | root => rfl
    | wrapping q =>
      obtain ⟨i, -, hid⟩ := Option.bind_eq_some_iff.1 hq
      exact absurd hid h.not_derived
    | slice q start stop =>
      obtain ⟨i, -, hid⟩ := Option.bind_eq_some_iff.1 hq
      exact absurd hid h.not_derived
  -- a derived span has one origin only, so the places it comes from have the same number too
  | wrapping p ih =>
    obtain ⟨i, hi, hid⟩ := Option.bind_eq_some_iff.1 hp
    cases q with
    | arrow => cases hq; exact absurd (h.derived_pos hid) (Nat.lt_irrefl 0)
    | root => cases hq; exact absurd hid h.not_derived
    | wrapping q =>
      obtain ⟨j, hj, hid'⟩ := Option.bind_eq_some_iff.1 hq
      cases h.origin_unique hid hid'
      rw [ih hi hj]
    | slice q start stop =>
      obtain ⟨j, hj, hid'⟩ := Option.bind_eq_some_iff.1 hq
      cases h.origin_unique hid hid'
  | slice p start stop ih =>
    obtain ⟨i, hi, hid⟩ := Option.bind_eq_some_iff.1 hp
    cases q with
    | arrow => cases hq; exact absurd (h.derived_pos hid) (Nat.lt_irrefl 0)
    | root => cases hq; exact absurd hid h.not_derived
    | wrapping q =>
      obtain ⟨j, hj, hid'⟩ := Option.bind_eq_some_iff.1 hq
      cases h.origin_unique hid hid'
    | slice q start' stop' =>
      obtain ⟨j, hj, hid'⟩ := Option.bind_eq_some_iff.1 hq
      cases h.origin_unique hid hid'
      rw [ih hi hj]

/-! ## Stores grow -/

theorem sound_new : new.Sound where
  origin_unique h := by simp [new] at h
  derived_pos h := by simp [new] at h
  derived_lt h := by simp [new] at h
  size_pos := by decide

/-- The text of a further topology is not derived from anything. -/
theorem Sound.rooted_add {store : SpanStore} (h : store.Sound) (t : Text) :
    (store.add t).2.Rooted (store.add t).1.id where
  origin_unique := h.origin_unique
  derived_pos := h.derived_pos
  derived_lt ho := by
    have := h.derived_lt ho
    simp only [add, Array.size_push]
    omega
  size_pos := by simp [add]
  root_pos := h.size_pos
  root_lt := by simp [add]
  not_derived ho := Nat.lt_irrefl _ (h.derived_lt ho)

theorem getElem?_insert_derived (store : SpanStore) (o o' : Origin) (id : Nat) :
    (store.derived.insert o id)[o']? = if o = o' then some id else store.derived[o']? := by
  rw [Std.HashMap.getElem?_insert]
  by_cases heq : o = o'
  · simp [heq]
  · simp [heq]

/-- A number that was given before is not the next one. -/
theorem Sound.insert {store : SpanStore} (h : store.Sound) (o : Origin) (t : Text) :
    Sound { texts := store.texts.push t, derived := store.derived.insert o store.texts.size } where
  origin_unique := by
    intro o₁ o₂ id h₁ h₂
    simp only [getElem?_insert_derived] at h₁ h₂
    split at h₁
    · next heq₁ =>
      cases h₁
      split at h₂
      · next heq₂ => rw [← heq₁, heq₂]
      · exact absurd (h.derived_lt h₂) (Nat.lt_irrefl _)
    · split at h₂
      · cases h₂
        exact absurd (h.derived_lt h₁) (Nat.lt_irrefl _)
      · exact h.origin_unique h₁ h₂
  derived_pos := by
    intro o₁ id h₁
    simp only [getElem?_insert_derived] at h₁
    split at h₁
    · cases h₁
      exact h.size_pos
    · exact h.derived_pos h₁
  derived_lt := by
    intro o₁ id h₁
    simp only [getElem?_insert_derived, Array.size_push] at h₁ ⊢
    split at h₁
    · cases h₁
      exact Nat.lt_succ_self _
    · exact Nat.lt_succ_of_lt (h.derived_lt h₁)
  size_pos := by simp

theorem extends_derive (store : SpanStore) (o : Origin) (t : Text) :
    store.Extends (store.derive o t).2 := by
  unfold SpanStore.derive
  cases ho : store.derived[o]? with
  | some id => exact Extends.refl _
  | none =>
    intro o₁ id h₁
    simp only [add, getElem?_insert_derived]
    split
    · next heq =>
      rw [← heq, ho] at h₁
      cases h₁
    · exact h₁

/-- From then on the store has the number of the derived span. -/
theorem derived_derive (store : SpanStore) (o : Origin) (t : Text) :
    (store.derive o t).2.derived[o]? = some (store.derive o t).1.id := by
  unfold SpanStore.derive
  cases ho : store.derived[o]? with
  | some id => exact ho
  | none => rw [getElem?_insert_derived, if_pos rfl]

theorem Sound.derive {store : SpanStore} (h : store.Sound) (o : Origin) (t : Text) :
    (store.derive o t).2.Sound := by
  unfold SpanStore.derive
  cases store.derived[o]? with
  | some id => exact h
  | none => exact h.insert o t

/-- Deriving a span leaves the store rooted, and from then on it has the span's number. -/
theorem Rooted.derive {store : SpanStore} {root : Nat} (h : store.Rooted root) (o : Origin)
    (t : Text) :
    (store.derive o t).2.Rooted root ∧ store.Extends (store.derive o t).2 ∧
      (store.derive o t).2.derived[o]? = some (store.derive o t).1.id := by
  refine ⟨⟨h.toSound.derive o t, h.root_pos, ?_, ?_⟩, extends_derive _ _ _, derived_derive _ _ _⟩
  · have := h.root_lt
    unfold SpanStore.derive
    cases store.derived[o]? with
    | some id => exact h.root_lt
    | none => simp only [add, Array.size_push]; omega
  · intro o₁ h₁
    unfold SpanStore.derive at h₁
    cases ho : store.derived[o]? with
    | some id =>
      rw [ho] at h₁
      exact h.not_derived h₁
    | none =>
      rw [ho] at h₁
      simp only [add, getElem?_insert_derived] at h₁
      split at h₁
      · cases h₁
        exact Nat.lt_irrefl _ h.root_lt
      · exact h.not_derived h₁

/-! ## Spans show pieces -/

/-- The span is the one that the store has for the piece. -/
structure Shows (store : SpanStore) (root : Nat) (span : Span) (p : Piece) : Prop where
  id_eq : store.idOf? root p.place = some span.id
  text_eq : span.text = p.text

theorem Shows.mono {store store' : SpanStore} (h : store.Extends store') {root : Nat}
    {span : Span} {p : Piece} (hs : store.Shows root span p) : store'.Shows root span p :=
  ⟨h.idOf? hs.id_eq, hs.text_eq⟩

theorem shows_arrow (store : SpanStore) (root : Nat) : store.Shows root arrow Piece.arrow :=
  ⟨rfl, rfl⟩

theorem shows_root (store : SpanStore) (t : Text) :
    (store.add t).2.Shows (store.add t).1.id (store.add t).1 ⟨.root, t⟩ :=
  ⟨rfl, rfl⟩

theorem Rooted.wrap {store : SpanStore} {root : Nat} (h : store.Rooted root) {span : Span}
    {p : Piece} (hs : store.Shows root span p) :
    (store.wrap span).2.Rooted root ∧ store.Extends (store.wrap span).2 ∧
      (store.wrap span).2.Shows root (store.wrap span).1 p.wrap := by
  obtain ⟨hrooted, hext, hid⟩ := h.derive (.wrapping span.id) (wrapped span.text)
  refine ⟨hrooted, hext, ?_, ?_⟩
  · exact Option.bind_eq_some_iff.2 ⟨span.id, hext.idOf? hs.id_eq, hid⟩
  · rw [text_wrap, hs.text_eq]
    rfl

theorem Rooted.cut {store : SpanStore} {root : Nat} (h : store.Rooted root) {span : Span}
    {p : Piece} (hs : store.Shows root span p) (start stop : Nat) :
    (store.cut span start stop).2.Rooted root ∧ store.Extends (store.cut span start stop).2 ∧
      (store.cut span start stop).2.Shows root (store.cut span start stop).1
        (p.cut start stop) := by
  obtain ⟨hrooted, hext, hid⟩ := h.derive (.slice span.id start stop)
    (Text.trim (Text.slice span.text start stop))
  refine ⟨hrooted, hext, ?_, ?_⟩
  · exact Option.bind_eq_some_iff.2 ⟨span.id, hext.idOf? hs.id_eq, hid⟩
  · rw [text_cut, hs.text_eq]
    rfl

end SpanStore

/-! ## Taking terms apart by their numbers -/

/-- The spans are the parts that the pieces say, in a store that still has all it had before. -/
structure Resolved (store store' : SpanStore) (root : Nat) (spans : List Span)
    (ps : List Piece) : Prop where
  rooted : store'.Rooted root
  grows : store.Extends store'
  shown : List.Forall₂ (store'.Shows root) spans ps

theorem Resolved.of_grows {s s' s'' : SpanStore} {root : Nat} {spans : List Span}
    {ps : List Piece} (hext : s.Extends s') (h : Resolved s' s'' root spans ps) :
    Resolved s s'' root spans ps :=
  ⟨h.rooted, hext.trans h.grows, h.shown⟩

/-- Between fewer than two boundaries there is nothing. -/
theorem cutAlong_of_few (span : Span) (store : SpanStore) {bs : List Nat}
    (h : ∀ start stop rest, bs = start :: stop :: rest → False) :
    cutAlong span bs store = ([], store) := by
  rcases bs with _ | ⟨start, _ | ⟨stop, rest⟩⟩
  · rfl
  · rfl
  · exact absurd rfl (h start stop rest)

/-- The parts' texts depend on the text only, not on the numbers that the store gives. -/
theorem map_text_cutAlong_span {span : Span} {p : Piece} (h : span.text = p.text) (bs : List Nat)
    (store : SpanStore) :
    (cutAlong span bs store).1.map Span.text = (p.cutAlong bs).map Piece.text := by
  fun_induction Piece.cutAlong p bs generalizing store with
  | case1 start stop rest hblank ih =>
    have hcut : (store.cut span (start + 1) stop).1.text = [] := by
      rw [SpanStore.text_cut, h]
      exact hblank
    simp only [cutAlong, if_pos hcut]
    exact ih _
  | case2 start stop rest hblank ih =>
    have hcut : ¬ (store.cut span (start + 1) stop).1.text = [] := by
      rw [SpanStore.text_cut, h]
      exact hblank
    simp only [cutAlong]
    rw [if_neg hcut, List.map_cons, List.map_cons, ih, SpanStore.text_cut, h, Piece.cut]
  | case3 bs hne =>
    rw [cutAlong_of_few span store hne]
    rfl

theorem resolved_cutAlong {store : SpanStore} {root : Nat} (h : store.Rooted root) {span : Span}
    {p : Piece} (hs : store.Shows root span p) (bs : List Nat) :
    Resolved store (cutAlong span bs store).2 root (cutAlong span bs store).1 (p.cutAlong bs) := by
  fun_induction Piece.cutAlong p bs generalizing store with
  | case1 start stop rest hblank ih =>
    obtain ⟨hrooted, hext, hcut⟩ := h.cut hs (start + 1) stop
    have hrest := (ih hrooted (hs.mono hext)).of_grows hext
    rw [cutAlong]
    simp only [hcut.text_eq, hblank, if_true]
    exact hrest
  | case2 start stop rest hblank ih =>
    obtain ⟨hrooted, hext, hcut⟩ := h.cut hs (start + 1) stop
    have hrest := ih hrooted (hs.mono hext)
    rw [cutAlong]
    simp only [hcut.text_eq, hblank, if_false]
    exact ⟨hrest.rooted, hext.trans hrest.grows, .cons (hcut.mono hrest.grows) hrest.shown⟩
  | case3 bs hne =>
    rw [cutAlong_of_few span store hne]
    exact ⟨h, SpanStore.Extends.refl _, .nil⟩

section

variable {span : Span} {store : SpanStore}

theorem resolve_of_isAtomic (hatom : isAtomic span.text = true) :
    resolve span store = .ok [span] store := by
  rw [resolve, if_pos hatom]

theorem resolve_of_outline_error {failure : Failure} (hatom : isAtomic span.text = false)
    (hin : isEnclosed span.text = true) (hout : outline span.text = .error failure) :
    resolve span store = .error failure store := by
  rw [resolve, if_neg (by simp [hatom]), dif_pos hin]
  split
  · next hout' => cases hout.symm.trans hout'; rfl
  · next hout' => cases hout.symm.trans hout'
  · next hout' => cases hout.symm.trans hout'

theorem resolve_of_outline {tree : BracketTree} (hatom : isAtomic span.text = false)
    (hin : isEnclosed span.text = true) (hout : outline span.text = .ok (some tree)) :
    resolve span store =
      .ok (cutAlong span tree.boundaries store).1 (cutAlong span tree.boundaries store).2 := by
  rw [resolve, if_neg (by simp [hatom]), dif_pos hin]
  split
  · next hout' => cases hout.symm.trans hout'
  · next hout' => cases hout.symm.trans hout'; rfl
  · next hout' => cases hout.symm.trans hout'

theorem resolve_of_outline_none (hatom : isAtomic span.text = false)
    (hin : isEnclosed span.text = true) (hout : outline span.text = .ok none) :
    resolve span store = resolve (store.wrap span).1 (store.wrap span).2 := by
  rw [resolve, if_neg (by simp [hatom]), dif_pos hin]
  split
  · next hout' => cases hout.symm.trans hout'
  · next hout' => cases hout.symm.trans hout'
  · rfl

theorem resolve_of_not_isEnclosed (hatom : isAtomic span.text = false)
    (hin : isEnclosed span.text = false) :
    resolve span store = resolve (store.wrap span).1 (store.wrap span).2 := by
  rw [resolve, if_neg (by simp [hatom]), dif_neg (by simp [hin])]

end

/-- What taking a term apart by its number may come to, as taking its piece apart does. -/
def ResolvesAs (store : SpanStore) (root : Nat) (parts : Except Failure (List Piece))
    (result : EStateM.Result Failure SpanStore (List Span)) : Prop :=
  (∃ failure store', parts = .error failure ∧ result = .error failure store') ∨
    ∃ ps spans store', parts = .ok ps ∧ result = .ok spans store' ∧
      Resolved store store' root spans ps

theorem ResolvesAs.of_grows {s s' : SpanStore} {root : Nat} {parts : Except Failure (List Piece)}
    {result : EStateM.Result Failure SpanStore (List Span)} (hext : s.Extends s')
    (h : ResolvesAs s' root parts result) : ResolvesAs s root parts result := by
  rcases h with herror | ⟨ps, spans, store', hps, hok, hresolved⟩
  · exact .inl herror
  · exact .inr ⟨ps, spans, store', hps, hok, hresolved.of_grows hext⟩

/-- Taking a term apart by its number gives the parts of its piece. -/
theorem resolve_of_shows {store : SpanStore} {root : Nat} (h : store.Rooted root) {span : Span}
    {p : Piece} (hs : store.Shows root span p) :
    ResolvesAs store root p.parts (resolve span store) := by
  fun_induction Piece.parts p generalizing store span with
  | case1 p hatom =>
    rw [resolve_of_isAtomic (by rwa [hs.text_eq])]
    exact .inr ⟨[p], [span], store, rfl, rfl, h, SpanStore.Extends.refl _, .cons hs .nil⟩
  | case2 p hatom hin failure hout =>
    rw [← hs.text_eq] at hatom hin hout
    rw [resolve_of_outline_error (Bool.eq_false_iff.2 hatom) hin hout]
    exact .inl ⟨failure, store, rfl, rfl⟩
  | case3 p hatom hin tree hout =>
    rw [← hs.text_eq] at hatom hin hout
    rw [resolve_of_outline (Bool.eq_false_iff.2 hatom) hin hout]
    exact .inr ⟨_, _, _, rfl, rfl, resolved_cutAlong h hs tree.boundaries⟩
  | case4 p hatom hin hout ih =>
    obtain ⟨hrooted, hext, hwrap⟩ := h.wrap hs
    rw [← hs.text_eq] at hatom hin hout
    rw [resolve_of_outline_none (Bool.eq_false_iff.2 hatom) hin hout]
    exact (ih hrooted hwrap).of_grows hext
  | case5 p hatom hin ih =>
    obtain ⟨hrooted, hext, hwrap⟩ := h.wrap hs
    rw [← hs.text_eq] at hatom hin
    rw [resolve_of_not_isEnclosed (Bool.eq_false_iff.2 hatom) (Bool.eq_false_iff.2 hin)]
    exact (ih hrooted hwrap).of_grows hext

end StageGraph
