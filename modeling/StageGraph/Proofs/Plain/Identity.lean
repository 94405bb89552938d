import Mathlib.Tactic
import StageGraph.Proofs.Plain.Place
import StageGraph.Proofs.Plain.Resolution

set_option autoImplicit false

/-! # What tells spans apart

A store is asked for spans in four ways: for a new text, for a span in parentheses, for a slice of a
span, and for the parts of a span. Whatever it is asked for, in whatever order, a number keeps its
text, the same question about a span has the same answer, and different questions have different
answers (`request_identity`).

All of this comes from one fact: a store only ever grows by texts that come from nothing and by
spans that say what their origin says (`Later`). Every request is answered in that way
(`Request.later_after`), and what growing keeps is an induction over it.
-/

namespace StageGraph

/-- The number of the span that a derived span comes from. -/
def Origin.source : Origin → Nat
  | wrapping id => id
  | slice id _ _ => id

namespace SpanStore

/-- What a span of this origin says. -/
def spell (store : SpanStore) : Origin → Text
  | .wrapping id => wrapped (store.find id).text
  | .slice id start stop => Text.trim (Text.slice (store.find id).text start stop)

/-- The span is one of the store's. -/
structure Has (store : SpanStore) (span : Span) : Prop where
  id_lt : span.id < store.texts.size
  find_eq : store.find span.id = span

/-- Every derived span comes from a span of the store and says what its origin says. -/
structure Faithful (store : SpanStore) : Prop extends store.Sound where
  source_lt : ∀ {o : Origin} {id : Nat}, store.derived[o]? = some id →
    o.source < store.texts.size
  text_eq : ∀ {o : Origin} {id : Nat}, store.derived[o]? = some id →
    (store.find id).text = store.spell o

/-- The second store is the first one at some later time. -/
inductive Later (store : SpanStore) : SpanStore → Prop where
  | now : Later store store
  | add {store' : SpanStore} (h : Later store store') (t : Text) : Later store (store'.add t).2
  | derive {store' : SpanStore} (h : Later store store') {o : Origin}
      (ho : o.source < store'.texts.size) : Later store (store'.derive o (store'.spell o)).2

theorem Later.trans {s s' s'' : SpanStore} (h : s.Later s') (h' : s'.Later s'') : s.Later s'' := by
  induction h' with
  | now => exact h
  | add _ t ih => exact ih.add t
  | derive _ ho ih => exact ih.derive ho

theorem has_find {store : SpanStore} {id : Nat} (h : id < store.texts.size) :
    store.Has (store.find id) := ⟨h, rfl⟩

/-! ## One more span -/

theorem find_push {store : SpanStore} {id : Nat} (h : id < store.texts.size) (t : Text)
    (derived : Std.HashMap Origin Nat) :
    find ⟨store.texts.push t, derived⟩ id = store.find id := by
  simp only [find, Array.getD_eq_getD_getElem?]
  rw [Array.getElem?_push_lt h, Array.getElem?_eq_getElem h]

theorem find_push_size (store : SpanStore) (t : Text) (derived : Std.HashMap Origin Nat) :
    find ⟨store.texts.push t, derived⟩ store.texts.size = ⟨store.texts.size, t⟩ := by
  simp [find, Array.getD_eq_getD_getElem?]

theorem has_add (store : SpanStore) (t : Text) : (store.add t).2.Has (store.add t).1 :=
  ⟨by simp [add], find_push_size store t store.derived⟩

/-- Deriving a span either finds it or adds it. -/
theorem derive_cases (store : SpanStore) (o : Origin) (t : Text) :
    (∃ id, store.derived[o]? = some id ∧ store.derive o t = (⟨id, t⟩, store)) ∨
    store.derived[o]? = none ∧ store.derive o t = (⟨store.texts.size, t⟩,
      ⟨store.texts.push t, store.derived.insert o store.texts.size⟩) := by
  unfold SpanStore.derive
  cases ho : store.derived[o]? with
  | some id => exact .inl ⟨id, rfl, rfl⟩
  | none => exact .inr ⟨rfl, rfl⟩

theorem size_le_derive (store : SpanStore) (o : Origin) (t : Text) :
    store.texts.size ≤ (store.derive o t).2.texts.size := by
  obtain ⟨id, -, heq⟩ | ⟨-, heq⟩ := store.derive_cases o t
  · rw [heq]
  · rw [heq, Array.size_push]
    exact Nat.le_succ _

theorem find_derive {store : SpanStore} {id : Nat} (h : id < store.texts.size) (o : Origin)
    (t : Text) : (store.derive o t).2.find id = store.find id := by
  obtain ⟨_, -, heq⟩ | ⟨-, heq⟩ := store.derive_cases o t
  · rw [heq]
  · rw [heq, find_push h]

/-- What an origin says hangs on its source only. -/
theorem spell_congr {store store' : SpanStore} {o : Origin}
    (h : store'.find o.source = store.find o.source) : store'.spell o = store.spell o := by
  cases o with
  | wrapping id => exact congrArg (fun span => wrapped span.text) h
  | slice id start stop =>
    exact congrArg (fun span => Text.trim (Text.slice span.text start stop)) h

theorem Faithful.add {store : SpanStore} (h : store.Faithful) (t : Text) :
    (store.add t).2.Faithful where
  toSound := (h.rooted_add t).toSound
  source_lt ho := by
    have := h.source_lt ho
    simp only [SpanStore.add, Array.size_push]
    omega
  text_eq ho := by
    have hsource := find_push (h.source_lt ho) t store.derived
    have hid := find_push (h.derived_lt ho) t store.derived
    exact (congrArg Span.text hid).trans ((h.text_eq ho).trans (spell_congr hsource).symm)

theorem Faithful.derive {store : SpanStore} (h : store.Faithful) {o : Origin}
    (ho : o.source < store.texts.size) : (store.derive o (store.spell o)).2.Faithful := by
  have hsound := h.toSound.derive o (store.spell o)
  obtain ⟨_, -, heq⟩ | ⟨-, heq⟩ := store.derive_cases o (store.spell o)
  · rw [heq]
    exact h
  rw [heq] at hsound ⊢
  refine ⟨hsound, fun {o' id} ho' => ?_, fun {o' id} ho' => ?_⟩
  · rw [Array.size_push]
    rw [getElem?_insert_derived] at ho'
    split at ho'
    · next hsame => exact hsame ▸ Nat.lt_succ_of_lt ho
    · exact Nat.lt_succ_of_lt (h.source_lt ho')
  · rw [getElem?_insert_derived] at ho'
    split at ho'
    -- this is the new span
    · next hsame =>
      cases ho'
      rw [← hsame, spell_congr (find_push ho _ _), find_push_size]
    · rw [spell_congr (find_push (h.source_lt ho') _ _), find_push (h.derived_lt ho'),
        h.text_eq ho']

/-- A derived span is one of the store's from then on. -/
theorem Faithful.has_derive {store : SpanStore} (h : store.Faithful) {o : Origin}
    (ho : o.source < store.texts.size) :
    (store.derive o (store.spell o)).2.Has (store.derive o (store.spell o)).1 := by
  have hid := derived_derive store o (store.spell o)
  have hafter := h.derive ho
  refine ⟨hafter.derived_lt hid, ?_⟩
  have htext : ((store.derive o (store.spell o)).2.find
      (store.derive o (store.spell o)).1.id).text = (store.derive o (store.spell o)).1.text := by
    rw [hafter.text_eq hid, spell_congr (find_derive ho o _), text_derive]
  exact congrArg (Span.mk _) htext

/-! ## What growing keeps -/

section

variable {store store' : SpanStore}

theorem Later.size_le (h : store.Later store') : store.texts.size ≤ store'.texts.size := by
  induction h with
  | now => exact Nat.le_refl _
  | add _ t ih => exact ih.trans (by simp [SpanStore.add])
  | derive _ ho ih => exact ih.trans (size_le_derive _ _ _)

/-- A number keeps its text. -/
theorem Later.find_eq (h : store.Later store') {id : Nat} (hid : id < store.texts.size) :
    store'.find id = store.find id := by
  induction h with
  | now => rfl
  | add h t ih => exact (find_push (Nat.lt_of_lt_of_le hid h.size_le) t _).trans ih
  | derive h ho ih => exact (find_derive (Nat.lt_of_lt_of_le hid h.size_le) _ _).trans ih

theorem Later.has (h : store.Later store') {span : Span} (hs : store.Has span) :
    store'.Has span :=
  ⟨Nat.lt_of_lt_of_le hs.id_lt h.size_le, (h.find_eq hs.id_lt).trans hs.find_eq⟩

theorem Later.extends (h : store.Later store') : store.Extends store' := by
  induction h with
  | now => exact Extends.refl _
  | add _ t ih => exact ih
  | derive _ ho ih => exact ih.trans (extends_derive _ _ _)

theorem Later.faithful (h : store.Later store') (hs : store.Faithful) : store'.Faithful := by
  induction h with
  | now => exact hs
  | add _ t ih => exact ih.add t
  | derive _ ho ih => exact ih.derive ho

theorem Rooted.add {root : Nat} (h : store.Rooted root) (t : Text) :
    (store.add t).2.Rooted root where
  toSound := (h.rooted_add t).toSound
  root_pos := h.root_pos
  root_lt := by
    have := h.root_lt
    simp only [SpanStore.add, Array.size_push]
    omega
  not_derived := h.not_derived

/-- What was not derived at first is not derived later. -/
theorem Later.rooted (h : store.Later store') {root : Nat} (hs : store.Rooted root) :
    store'.Rooted root := by
  induction h with
  | now => exact hs
  | add _ t ih => exact ih.add t
  | derive _ ho ih => exact (ih.derive _ _).1

end

theorem faithful_new : new.Faithful where
  toSound := sound_new
  source_lt h := by simp [new] at h
  text_eq h := by simp [new] at h

/-! ## Taking a span apart, and again -/

/-- Deriving a span that says what its origin says only lets the store grow. -/
theorem Faithful.later_derive {store : SpanStore} (h : store.Faithful) {o : Origin} {t : Text}
    (ho : o.source < store.texts.size) (ht : t = store.spell o) :
    store.Later (store.derive o t).2 ∧ (store.derive o t).2.Has (store.derive o t).1 := by
  subst ht
  exact ⟨Later.now.derive ho, h.has_derive ho⟩

theorem Faithful.later_wrap {store : SpanStore} (h : store.Faithful) {span : Span}
    (hs : store.Has span) :
    store.Later (store.wrap span).2 ∧ (store.wrap span).2.Has (store.wrap span).1 :=
  h.later_derive hs.id_lt (by rw [spell, hs.find_eq])

theorem Faithful.later_cut {store : SpanStore} (h : store.Faithful) {span : Span}
    (hs : store.Has span) (start stop : Nat) :
    store.Later (store.cut span start stop).2 ∧
      (store.cut span start stop).2.Has (store.cut span start stop).1 :=
  h.later_derive hs.id_lt (by rw [spell, hs.find_eq])

/-- What was derived before is found again, and nothing new is made. -/
theorem derive_again {store later : SpanStore} {o : Origin} {t : Text}
    (h : (store.derive o t).2.Extends later) :
    later.derive o t = ((store.derive o t).1, later) := by
  have hid := h o _ (derived_derive store o t)
  obtain ⟨id, hsome, heq⟩ | ⟨hnone, -⟩ := later.derive_cases o t
  · rw [hid] at hsome
    cases hsome
    rw [heq]
    exact congrArg (fun u => ((⟨_, u⟩ : Span), later)) (text_derive store o t).symm
  · rw [hid] at hnone
    cases hnone

end SpanStore

open SpanStore (Later Has Faithful Extends)

theorem extends_cutAlong (span : Span) (bs : List Nat) (store : SpanStore) :
    store.Extends (cutAlong span bs store).2 := by
  fun_induction cutAlong span bs store with
  | case1 start stop rest store part store' hcut parts store'' hrest ih =>
    rw [hrest] at ih
    have hext : store.Extends store' := by
      have := SpanStore.extends_derive store (.slice span.id (start + 1) stop)
        (Text.trim (Text.slice span.text (start + 1) stop))
      rwa [← SpanStore.cut, hcut] at this
    exact hext.trans ih
  | case2 => exact Extends.refl _

theorem later_cutAlong {store : SpanStore} (h : store.Faithful) {span : Span}
    (hs : store.Has span) (bs : List Nat) :
    store.Later (cutAlong span bs store).2 ∧
      ∀ p ∈ (cutAlong span bs store).1, (cutAlong span bs store).2.Has p := by
  fun_induction cutAlong span bs store with
  | case1 start stop rest store part store' hcut parts store'' hrest ih =>
    obtain ⟨hlater, hpart⟩ := h.later_cut hs (start + 1) stop
    rw [hcut] at hlater hpart
    rw [hrest] at ih
    obtain ⟨hlater', hparts⟩ := ih (hlater.faithful h) (hlater.has hs)
    refine ⟨hlater.trans hlater', fun p hp => ?_⟩
    split at hp
    · exact hparts p hp
    · rcases List.mem_cons.1 hp with rfl | hp
      · exact hlater'.has hpart
      · exact hparts p hp
  | case2 => exact ⟨.now, by simp⟩

theorem cutAlong_again {span : Span} {bs : List Nat} {store later : SpanStore}
    (h : (cutAlong span bs store).2.Extends later) :
    cutAlong span bs later = ((cutAlong span bs store).1, later) := by
  fun_induction cutAlong span bs store with
  | case1 start stop rest store part store' hcut parts store'' hrest ih =>
    rw [hrest] at ih
    have hext := extends_cutAlong span (stop :: rest) store'
    rw [hrest] at hext
    have hagain : later.cut span (start + 1) stop = (part, later) := by
      have hcut' := hcut
      rw [SpanStore.cut] at hcut' ⊢
      rw [SpanStore.derive_again (by rw [hcut']; exact hext.trans h), hcut']
    simp only [cutAlong, hagain, ih h]
  | case2 bs store hfew => exact cutAlong_of_few span later hfew

/-- What taking a span apart answers, and the store that it leaves behind. -/
def outcome : EStateM.Result Failure SpanStore (List Span) → Except Failure (List Span) × SpanStore
  | .ok parts store => (.ok parts, store)
  | .error failure store => (.error failure, store)

theorem extends_resolve (span : Span) (store : SpanStore) :
    store.Extends (outcome (resolve span store)).2 := by
  fun_induction resolve span store with
  | case1 => exact Extends.refl _
  | case2 => exact Extends.refl _
  | case3 span store hatom hin tree hout parts store' hcut =>
    have := extends_cutAlong span tree.boundaries store
    rwa [hcut] at this
  | case4 span store hatom hin hout ih => exact (SpanStore.extends_derive _ _ _).trans ih
  | case5 span store hatom hin ih => exact (SpanStore.extends_derive _ _ _).trans ih

theorem later_resolve {store : SpanStore} (h : store.Faithful) {span : Span}
    (hs : store.Has span) :
    store.Later (outcome (resolve span store)).2 ∧
      ∀ parts, (outcome (resolve span store)).1 = .ok parts →
        ∀ p ∈ parts, (outcome (resolve span store)).2.Has p := by
  fun_induction resolve span store with
  | case1 span store hatom =>
    refine ⟨.now, fun parts hparts p hp => ?_⟩
    cases hparts
    rwa [List.mem_singleton.1 hp]
  | case2 => exact ⟨.now, by rintro _ ⟨⟩⟩
  | case3 span store hatom hin tree hout parts store' hcut =>
    have := later_cutAlong h hs tree.boundaries
    rw [hcut] at this
    refine ⟨this.1, fun parts hparts => ?_⟩
    cases hparts
    exact this.2
  | case4 span store hatom hin hout ih =>
    obtain ⟨hlater, hwrap⟩ := h.later_wrap hs
    obtain ⟨hlater', hparts⟩ := ih (hlater.faithful h) hwrap
    exact ⟨hlater.trans hlater', hparts⟩
  | case5 span store hatom hin ih =>
    obtain ⟨hlater, hwrap⟩ := h.later_wrap hs
    obtain ⟨hlater', hparts⟩ := ih (hlater.faithful h) hwrap
    exact ⟨hlater.trans hlater', hparts⟩

/-- A span that was taken apart before has the same parts, or fails in the same way, and nothing new
is made. -/
theorem resolve_again {span : Span} {store later : SpanStore}
    (h : (outcome (resolve span store)).2.Extends later) :
    outcome (resolve span later) = ((outcome (resolve span store)).1, later) := by
  have hwrapped : ∀ {span : Span} {store : SpanStore},
      (outcome (resolve (store.wrap span).1 (store.wrap span).2)).2.Extends later →
      later.wrap span = ((store.wrap span).1, later) := fun hext =>
    SpanStore.derive_again ((extends_resolve _ _).trans hext)
  fun_induction resolve span store with
  | case1 span store hatom => rw [resolve_of_isAtomic hatom]; rfl
  | case2 span store hatom hin failure hout =>
    rw [resolve_of_outline_error (Bool.eq_false_iff.2 hatom) hin hout]
    rfl
  | case3 span store hatom hin tree hout parts store' hcut =>
    have hagain : cutAlong span tree.boundaries later =
        ((cutAlong span tree.boundaries store).1, later) :=
      cutAlong_again (by rw [hcut]; exact h)
    rw [resolve_of_outline (Bool.eq_false_iff.2 hatom) hin hout, hagain, hcut]
    rfl
  | case4 span store hatom hin hout ih =>
    rw [resolve_of_outline_none (Bool.eq_false_iff.2 hatom) hin hout, hwrapped h]
    exact ih h
  | case5 span store hatom hin ih =>
    rw [resolve_of_not_isEnclosed (Bool.eq_false_iff.2 hatom) (Bool.eq_false_iff.2 hin),
      hwrapped h]
    exact ih h

/-! ## Requests -/

/-- What a store may be asked for. -/
inductive Request where
  /-- A new span for a text. -/
  | add (t : Text)
  /-- A span in parentheses. -/
  | wrap (id : Nat)
  /-- What stands between two byte offsets of a span, without white space around it. -/
  | cut (id start stop : Nat)
  /-- The parts of a span. -/
  | resolve (id : Nat)
deriving DecidableEq

namespace Request

/-- The answer to a request, and the store that it leaves behind. -/
def run (store : SpanStore) : Request → Except Failure (List Span) × SpanStore
  | add t => (.ok [(store.add t).1], (store.add t).2)
  | wrap id => (.ok [(store.wrap (store.find id)).1], (store.wrap (store.find id)).2)
  | cut id start stop =>
    (.ok [(store.cut (store.find id) start stop).1], (store.cut (store.find id) start stop).2)
  | resolve id => outcome (StageGraph.resolve (store.find id) store)

/-- The answer to a request. -/
def answer (store : SpanStore) (r : Request) : Except Failure (List Span) := (r.run store).1

/-- The store that a request leaves behind. -/
def after (store : SpanStore) (r : Request) : SpanStore := (r.run store).2

/-- The request is about a span of the store and, if it cuts the span, about two offsets between its
characters. -/
def Fits (store : SpanStore) : Request → Prop
  | add _ => True
  | wrap id => id < store.texts.size
  | cut id start stop => id < store.texts.size ∧ (store.find id).text.Sliceable start stop
  | resolve id => id < store.texts.size

/-- Where the span that is asked for comes from; nothing if that is a new text, or if the parts of a
span are asked for. -/
def origin? : Request → Option Origin
  | wrap id => some (.wrapping id)
  | cut id start stop => some (.slice id start stop)
  | add _ => none
  | resolve _ => none

/-- The requests fit one after the other. -/
def AllFit (store : SpanStore) : List Request → Prop
  | [] => True
  | r :: rs => r.Fits store ∧ AllFit (r.after store) rs

/-- The store that the requests leave behind. -/
def afterAll (store : SpanStore) (rs : List Request) : SpanStore := rs.foldl after store

/-- In a later store, the answer is what was asked for. -/
def Answers (store later : SpanStore) (answer : Except Failure (List Span)) : Request → Prop
  | add t => ∃ span, answer = .ok [span] ∧ later.Has span ∧ span.text = t ∧
      span.id = store.texts.size
  | wrap id => ∃ span, answer = .ok [span] ∧ later.Has span ∧
      span.text = '(' :: (later.find id).text ++ [')']
  | cut id start stop => ∃ span, answer = .ok [span] ∧ later.Has span ∧
      ∃ before between behind, (later.find id).text = before ++ (between ++ behind) ∧
        Text.bytes before = start ∧ Text.bytes before + Text.bytes between = stop ∧
        span.text = Text.trim between
  | resolve _ => ∀ parts, answer = .ok parts → ∀ p ∈ parts, later.Has p

/-! ## What requests keep -/

section

variable {store later : SpanStore} {r : Request}

/-- A request only lets the store grow. -/
theorem later_after (h : store.Faithful) (hr : r.Fits store) : store.Later (r.after store) := by
  cases r with
  | add t => exact Later.now.add t
  | wrap id => exact (h.later_wrap (SpanStore.has_find hr)).1
  | cut id start stop => exact (h.later_cut (SpanStore.has_find hr.1) start stop).1
  | resolve id => exact (later_resolve h (SpanStore.has_find hr)).1

/-- What fits once fits from then on. -/
theorem Fits.mono (hr : r.Fits store) (h : store.Later later) : r.Fits later := by
  cases r with
  | add t => trivial
  | wrap id => exact Nat.lt_of_lt_of_le hr h.size_le
  | cut id start stop =>
    exact ⟨Nat.lt_of_lt_of_le hr.1 h.size_le, by rw [h.find_eq hr.1]; exact hr.2⟩
  | resolve id => exact Nat.lt_of_lt_of_le hr h.size_le

theorem later_afterAll {rs : List Request} (h : store.Faithful) (hrs : AllFit store rs) :
    store.Later (afterAll store rs) := by
  induction rs generalizing store with
  | nil => exact .now
  | cons r rs ih =>
    have hlater := later_after h hrs.1
    exact hlater.trans (ih (hlater.faithful h) hrs.2)

theorem allFit_append {rs rs' : List Request} :
    AllFit store (rs ++ rs') ↔ AllFit store rs ∧ AllFit (afterAll store rs) rs' := by
  induction rs generalizing store with
  | nil => simp [AllFit, afterAll]
  | cons r rs ih => simp only [List.cons_append, AllFit, ih, and_assoc, afterAll, List.foldl_cons]

/-- What is answered is among the store's spans from then on. -/
theorem has_of_answer (h : store.Faithful) (hr : r.Fits store)
    (hlater : (r.after store).Later later) {spans : List Span}
    (hspans : r.answer store = .ok spans) :
    ∀ span ∈ spans, later.Has span := by
  intro span hmem
  refine hlater.has ?_
  cases r with
  | add t =>
    cases hspans
    rw [List.mem_singleton.1 hmem]
    exact store.has_add t
  | wrap id =>
    cases hspans
    rw [List.mem_singleton.1 hmem]
    exact (h.later_wrap (SpanStore.has_find hr)).2
  | cut id start stop =>
    cases hspans
    rw [List.mem_singleton.1 hmem]
    exact (h.later_cut (SpanStore.has_find hr.1) start stop).2
  | resolve id => exact (later_resolve h (SpanStore.has_find hr)).2 spans hspans span hmem

/-- The answer to a request, seen from a later store. -/
theorem answers (h : store.Faithful) (hr : r.Fits store) (hlater : (r.after store).Later later) :
    r.Answers store later (r.answer store) := by
  have hfrom := (later_after h hr).trans hlater
  have hhas : ∀ {spans}, r.answer store = .ok spans → ∀ span ∈ spans, later.Has span :=
    has_of_answer h hr hlater
  cases r with
  | add t => exact ⟨_, rfl, hhas rfl _ List.mem_cons_self, rfl, rfl⟩
  | wrap id =>
    refine ⟨_, rfl, hhas rfl _ List.mem_cons_self, ?_⟩
    rw [SpanStore.text_wrap, hfrom.find_eq hr]
    rfl
  | cut id start stop =>
    obtain ⟨hid, before, between, behind, htext, rfl, rfl⟩ := hr
    refine ⟨_, rfl, hhas rfl _ List.mem_cons_self, before, between, behind, ?_, rfl, rfl, ?_⟩
    · rw [hfrom.find_eq hid, htext]
    · rw [SpanStore.text_cut, htext, Text.slice_append]
  | resolve id => exact fun parts hparts => hhas hparts

/-- A request for a derived span, or for parts, that is made again has the same answer, and nothing
new is made. -/
theorem run_again (h : store.Faithful) (hr : r.Fits store) (hlater : (r.after store).Later later)
    (hadd : ∀ t, r ≠ add t) : r.run later = (r.answer store, later) := by
  have hfrom := (later_after h hr).trans hlater
  cases r with
  | add t => exact absurd rfl (hadd t)
  | wrap id =>
    have := SpanStore.derive_again hlater.extends
    rw [run, hfrom.find_eq hr, SpanStore.wrap, this]
    rfl
  | cut id start stop =>
    have := SpanStore.derive_again hlater.extends
    rw [run, hfrom.find_eq hr.1, SpanStore.cut, this]
    rfl
  | resolve id =>
    rw [run, hfrom.find_eq hr]
    exact resolve_again hlater.extends

/-- From then on the store has the number of the answer for its origin. -/
theorem derived_after {o : Origin} {span : Span} (ho : r.origin? = some o)
    (hspan : r.answer store = .ok [span]) : (r.after store).derived[o]? = some span.id := by
  cases r with
  | add t => cases ho
  | wrap id => cases ho; cases hspan; exact SpanStore.derived_derive _ _ _
  | cut id start stop => cases ho; cases hspan; exact SpanStore.derived_derive _ _ _
  | resolve id => cases ho

/-- A request for one span is for a new text or for a span of some origin. -/
theorem origin?_cases (hres : ∀ id, r ≠ resolve id) :
    (∃ t, r = add t ∧ r.origin? = none) ∨ ∃ o, r.origin? = some o := by
  cases r with
  | add t => exact .inl ⟨t, rfl, rfl⟩
  | wrap id => exact .inr ⟨_, rfl⟩
  | cut id start stop => exact .inr ⟨_, rfl⟩
  | resolve id => exact absurd rfl (hres id)

theorem eq_of_origin? {r' : Request} {o : Origin} (h : r.origin? = some o)
    (h' : r'.origin? = some o) : r' = r := by
  cases r <;> cases h <;> cases r' <;> cases h' <;> rfl

/-- Requests for one span each that have answers of the same number are the same request, and not
for a new text. -/
theorem eq_of_id_eq {r' : Request} {span span' : Span} (h : store.Faithful) (hr : r.Fits store)
    (hlater : (r.after store).Later later) (hr' : r'.Fits later) (hres : ∀ id, r ≠ resolve id)
    (hres' : ∀ id, r' ≠ resolve id) (hspan : r.answer store = .ok [span])
    (hspan' : r'.answer later = .ok [span']) (hid : span.id = span'.id) :
    r' = r ∧ ∀ t, r ≠ add t := by
  have hfaithful := (hlater.faithful ((later_after h hr).faithful h))
  have hnext := later_after hfaithful hr'
  have hold := (has_of_answer h hr hlater hspan span List.mem_cons_self).id_lt
  -- a new text has a number that no earlier answer has
  obtain ⟨t', rfl, -⟩ | ⟨o', ho'⟩ := origin?_cases hres'
  · cases hspan'
    exact absurd hid (Nat.ne_of_lt hold)
  have hderived' := derived_after ho' hspan'
  obtain ⟨t, rfl, -⟩ | ⟨o, ho⟩ := origin?_cases hres
  -- and no derived span has it later
  · cases hspan
    have hrooted := (hlater.trans hnext).rooted (h.rooted_add t)
    exact absurd (hid ▸ hderived') hrooted.not_derived
  · have hderived := (hlater.trans hnext).extends _ _ (derived_after ho hspan)
    rw [hid] at hderived
    cases (hnext.faithful hfaithful).origin_unique hderived hderived'
    refine ⟨eq_of_origin? ho ho', fun t hadd => ?_⟩
    rw [hadd] at ho
    cases ho

end

/-- Whatever a store is asked for, and in whatever order: a number keeps its text; an answer is what
was asked for and stays so; a request about the same span, be it for one span or for parts, has the
same answer or fails in the same way, and leaves the store as it is; and two requests for one span
have the same number only if they are the same request, and not for a new text. -/
theorem request_identity (earlier between : List Request) (r : Request)
    (h : AllFit .new (earlier ++ r :: between)) :
    let store := afterAll .new earlier
    let later := afterAll (r.after store) between
    (∀ id < store.texts.size, later.Has (store.find id)) ∧
    r.Answers store later (r.answer store) ∧
    ((∀ t, r ≠ add t) → r.answer later = r.answer store ∧ r.after later = later) ∧
    ∀ r' : Request, r'.Fits later → (∀ id, r ≠ resolve id) → (∀ id, r' ≠ resolve id) →
      ∀ span span', r.answer store = .ok [span] → r'.answer later = .ok [span'] →
        span.id = span'.id → r' = r ∧ ∀ t, r ≠ add t := by
  intro store later
  obtain ⟨hearlier, hr, hbetween⟩ := allFit_append.1 h
  have hfaithful : store.Faithful := (later_afterAll SpanStore.faithful_new hearlier).faithful
    SpanStore.faithful_new
  have hafter : store.Later (r.after store) := later_after hfaithful hr
  have hlater : (r.after store).Later later := later_afterAll (hafter.faithful hfaithful) hbetween
  refine ⟨fun id hid => (hafter.trans hlater).has (SpanStore.has_find hid),
    answers hfaithful hr hlater, fun hadd => ?_, ?_⟩
  · have hrun := run_again hfaithful hr hlater hadd
    rw [answer, after, hrun]
    exact ⟨rfl, rfl⟩
  · intro r' hr' hres hres' span span'
    exact eq_of_id_eq hfaithful hr hlater hr' hres hres'

/-- The theorem about `(A)->(A)`: its two names say the same and are different spans, whatever is
taken apart in between. -/
theorem request_identity_twice : ∃ store later : SpanStore,
    store = afterAll .new [add "(A)->(A)".toList] ∧
    later = afterAll ((cut 1 1 2).after store) [resolve 1] ∧
    AllFit .new [add "(A)->(A)".toList, cut 1 1 2, resolve 1] ∧
    ∃ first second : Span, (cut 1 1 2).answer store = .ok [first] ∧
      (cut 1 6 7).answer later = .ok [second] ∧ (cut 1 1 2).answer later = .ok [first] ∧
      first.text = ['A'] ∧ second.text = ['A'] ∧ first.id ≠ second.id := by
  obtain ⟨store, hstore⟩ : ∃ s, s = afterAll .new [add "(A)->(A)".toList] := ⟨_, rfl⟩
  have hsize : 1 < store.texts.size := by rw [hstore]; decide
  have htext : (store.find 1).text = "(A)->(A)".toList := by rw [hstore]; rfl
  have hfaithful : store.Faithful := by rw [hstore]; exact SpanStore.faithful_new.add _
  have hfirst : (cut 1 1 2).Fits store :=
    ⟨hsize, ['('], ['A'], ")->(A)".toList, by rw [htext]; decide, rfl, rfl⟩
  have hsecond : (cut 1 6 7).Fits store :=
    ⟨hsize, "(A)->(".toList, ['A'], [')'], by rw [htext]; decide, rfl, rfl⟩
  have hcut := later_after hfaithful hfirst
  have hparts : (resolve 1).Fits ((cut 1 1 2).after store) := Fits.mono (r := resolve 1) hsize hcut
  have hresolve := later_after (hcut.faithful hfaithful) hparts
  have hfit : AllFit .new [add "(A)->(A)".toList, cut 1 1 2, resolve 1] := by
    rw [hstore] at hfirst hparts
    exact ⟨trivial, hfirst, hparts, trivial⟩
  obtain ⟨hkeeps, -, hagain, hdiffer⟩ :=
    request_identity [add "(A)->(A)".toList] [resolve 1] (cut 1 1 2) hfit
  rw [← hstore] at hkeeps hagain hdiffer
  refine ⟨store, _, hstore, rfl, hfit, _, _, rfl, rfl, (hagain (by rintro _ ⟨⟩)).1, ?_, ?_, ?_⟩
  · rw [SpanStore.text_cut, htext]
    decide
  · have hkept : (afterAll ((cut 1 1 2).after store) [resolve 1]).find 1 = store.find 1 :=
      (hkeeps 1 hsize).find_eq
    rw [SpanStore.text_cut, hkept, htext]
    decide
  · intro hid
    have := (hdiffer (cut 1 6 7) (hsecond.mono (hcut.trans hresolve)) (by rintro _ ⟨⟩)
      (by rintro _ ⟨⟩) _ _ rfl rfl hid).1
    exact absurd this (by decide)

end Request

end StageGraph
