import Mathlib.Tactic
import StageGraph.Proofs.Json.Skipping

set_option autoImplicit false

/-! # Readers take what the grammar has

A reader is exact for a production (`Reader.Reads`) if it succeeds just where the production has
something at the front of a text, and leaves what the production leaves. Strings are read exactly
(`reads_string`), and lists and pairs are if their items are (`Reads.list`, `Reads.pair`). An exact
reader reads the documents of its production and nothing else (`Reads.read_eq_ok`), among them what
is written for it (`Written.document`).
-/

namespace StageGraph.Json

/-- The reader takes from the front of a text exactly what the production has there. -/
structure Reader.Reads {α : Type} (reader : Reader α) (Item : α → Text → Text → Prop) : Prop where
  run_eq_ok : ∀ {a : α} {s r : Text},
    reader.run s = .ok (a, r) ↔ ∃ s', Spaces s s' ∧ Item a s' r

theorem reads_string : Reader.string.Reads Literal := by
  refine ⟨fun {t s r} => ?_⟩
  constructor
  · intro h
    unfold Reader.string at h
    dsimp only at h
    split at h
    · next rest hskip => exact ⟨_, spaces_of_skipSpace hskip, run_spelledString_iff.1 h⟩
    · cases h
  · rintro ⟨s', hspace, ⟨h⟩⟩
    have hskip := hspace.skipSpace_cons (show isSpace '"' = false from rfl)
    simp only [Reader.string, hskip]
    exact run_spelledString_iff.2 (.quoted h)

section

variable {α : Type} {item : Reader α} {Item : α → Text → Text → Prop}

/-- What the production has begins like a value. -/
def Begins (Item : α → Text → Text → Prop) : Prop :=
  ∀ ⦃a : α⦄ ⦃s r : Text⦄, Item a s r → ∃ c t, s = c :: t ∧ BeginsValue c

theorem begins_literal : Begins Literal := by
  rintro t s r ⟨h⟩
  exact ⟨'"', _, rfl, by decide⟩

theorem begins_field {keys : Text × Text} : Begins (Field keys Item) := by
  intro field s r h
  cases h with
  | kept _ h _ _ _ => exact begins_literal h
  | other _ h _ _ _ => exact begins_literal h

theorem begins_enclosed {c : Container} : Begins (Enclosed c Item) := by
  intro as s r h
  cases h with
  | @empty s _ _ => exact ⟨c.opening, s, rfl, by cases c <;> decide⟩
  | @items _ s _ _ => exact ⟨c.opening, s, rfl, by cases c <;> decide⟩

/-- Behind the white space at the start of a listing a value begins. -/
theorem Begins.listing (h : Begins Item) {close : Char} {as : List α} {s r : Text}
    (hlisting : Listing close Item as s r) : ∃ c t, skipSpace s = c :: t ∧ BeginsValue c := by
  cases hlisting with
  | last hspace ha _ =>
    obtain ⟨c, t, rfl, hc⟩ := h ha
    exact ⟨c, t, hspace.skipSpace_cons hc.not_space, hc⟩
  | more hspace ha _ _ =>
    obtain ⟨c, t, rfl, hc⟩ := h ha
    exact ⟨c, t, hspace.skipSpace_cons hc.not_space, hc⟩

namespace Reader.Reads

theorem read_eq_ok {reader : Reader α} (h : reader.Reads Item) {a : α} {t : Text} :
    reader.read t = .ok a ↔ Document Item a t := by
  constructor
  · intro hread
    unfold Reader.read at hread
    split at hread
    · cases hread
    next rest hrun =>
    split at hread
    · next hend =>
      cases hread
      obtain ⟨s, hspace, ha⟩ := h.run_eq_ok.1 hrun
      exact ⟨s, rest, hspace, ha, spaces_of_skipSpace hend⟩
    · cases hread
  · rintro ⟨s, r, hspace, ha, hend⟩
    have hrun := h.run_eq_ok.2 ⟨s, hspace, ha⟩
    simp only [Reader.read, hrun, hend.skipSpace_eq]
    rfl

/-! ## Lists -/

theorem listRest_eq_ok (h : item.Reads Item) {as : List α} {s r : Text} :
    listRest item s = .ok (as, r) ↔ Listing ']' Item as s r := by
  constructor
  · intro hrun
    fun_induction listRest item s generalizing as r with
    | case1 | case2 | case5 => cases hrun
    | case3 s a rest hitem rest' hskip =>
      cases hrun
      obtain ⟨s', hspace, ha⟩ := h.run_eq_ok.1 hitem
      exact .last hspace ha (spaces_of_skipSpace hskip)
    | case4 s a rest hitem rest' hskip _ ih =>
      obtain ⟨⟨as, r⟩, hrest, hfound⟩ := map_eq_ok.1 hrun
      cases hfound
      obtain ⟨s', hspace, ha⟩ := h.run_eq_ok.1 hitem
      exact .more hspace ha (spaces_of_skipSpace hskip) (ih hrest)
  · intro hlisting
    induction hlisting with
    | last hspace ha hclose =>
      exact listRest_last (h.run_eq_ok.2 ⟨_, hspace, ha⟩) (hclose.skipSpace_cons rfl)
    | more hspace ha hcomma _ ih =>
      rw [listRest_more (h.run_eq_ok.2 ⟨_, hspace, ha⟩) (hcomma.skipSpace_cons rfl), ih]
      rfl

theorem list (h : item.Reads Item) (hbegins : Begins Item) :
    (Reader.list item).Reads (ArrayOf Item) := by
  refine ⟨fun {as s r} => ?_⟩
  constructor
  · intro hrun
    unfold Reader.list at hrun
    dsimp only at hrun
    split at hrun
    · next rest hopen =>
      split at hrun
      · next hclose =>
        cases hrun
        exact ⟨_, spaces_of_skipSpace hopen, .empty (spaces_of_skipSpace hclose)⟩
      · exact ⟨_, spaces_of_skipSpace hopen, .items (h.listRest_eq_ok.1 hrun)⟩
    · cases hrun
  · rintro ⟨s', hspace, henclosed⟩
    cases henclosed with
    | @empty s r hclose =>
      have hopen : skipSpace _ = '[' :: s := hspace.skipSpace_cons rfl
      have hclose : skipSpace s = ']' :: r := hclose.skipSpace_cons rfl
      simp only [Reader.list, hopen, hclose]
    | @items as s r hlisting =>
      have hopen : skipSpace _ = '[' :: s := hspace.skipSpace_cons rfl
      obtain ⟨c, t, hfirst, hc⟩ := hbegins.listing hlisting
      simp only [Reader.list, hopen, hfirst]
      split
      · next heq => exact absurd (List.cons.inj heq).1 (hc.not_closing .array)
      · exact h.listRest_eq_ok.2 hlisting

end Reader.Reads

/-! ## Pairs -/

theorem afterColon_eq_ok {value : Reader α} {a : α} {s r : Text} :
    value.afterColon.run s = .ok (a, r) ↔
      ∃ s', Spaces s (':' :: s') ∧ value.run s' = .ok (a, r) := by
  have hcolon : ∀ {s' : Text}, colon s = .ok s' ↔ Spaces s (':' :: s') := by
    intro s'
    constructor
    · intro h
      unfold colon at h
      split at h
      · cases h
      next c rest hskip =>
      split at h
      · next hc =>
        cases h
        exact spaces_of_skipSpace (hc ▸ hskip)
      · cases h
    · intro h
      simp only [colon, h.skipSpace_cons (show isSpace ':' = false from rfl), if_true]
  constructor
  · intro h
    unfold Reader.afterColon at h
    dsimp only at h
    split at h
    · cases h
    · next s' hs' => exact ⟨s', hcolon.1 hs', h⟩
  · rintro ⟨s', hspace, h⟩
    simp only [Reader.afterColon, hcolon.2 hspace, h]

/-- The place where a field is due: at once if it is the first one, and behind a comma otherwise. -/
def FieldDue (isFirst : Bool) (s s' : Text) : Prop :=
  if isFirst then s = s' else Spaces s (',' :: s')

theorem keyAt_iff {isFirst : Bool} {key s r : Text} : KeyAt isFirst key s r ↔
    ∃ s₁ s₂, FieldDue isFirst s s₁ ∧ Spaces s₁ s₂ ∧ Literal key s₂ r := by
  constructor
  · rintro ⟨c, rest, rest', hskip, -, hstart, hkey⟩
    have hliteral := run_spelledString_iff.1 hkey
    unfold keyStart at hstart
    split_ifs at hstart with hfirst hquote hcomma
    · cases hstart
      subst hfirst
      exact ⟨s, _, rfl, spaces_of_skipSpace (hquote ▸ hskip), hliteral⟩
    · split at hstart
      · cases hstart
      next hskip' =>
      split_ifs at hstart with hquote
      cases hstart
      refine ⟨rest, _, ?_, spaces_of_skipSpace (hquote ▸ hskip'), hliteral⟩
      rw [FieldDue, if_neg hfirst]
      exact spaces_of_skipSpace (hcomma ▸ hskip)
  · rintro ⟨s₁, s₂, hdue, hspace, ⟨h⟩⟩
    have hkey := run_spelledString_iff.2 (.quoted h)
    have hquote := hspace.skipSpace_cons (show isSpace '"' = false from rfl)
    cases isFirst with
    | true =>
      cases hdue
      exact ⟨_, _, _, hquote, by decide, rfl, hkey⟩
    | false =>
      refine ⟨',', s₁, _, hdue.skipSpace_cons rfl, by decide, ?_, hkey⟩
      rw [keyStart, if_neg Bool.false_ne_true, if_pos rfl, hquote]
      rfl

/-- With what has been read before, the key occurs exactly once. -/
def Held (key : Text) (found : Option α) (a : α) (fields : List (Text × Option α)) : Prop :=
  (found.map fun x => (key, some x)).toList ++ fields.filter (·.1 = key) = [(key, some a)]

theorem held_nil {key : Text} {found : Option α} {a : α} :
    Held key found a [] ↔ found = some a := by
  cases found <;> simp [Held]

theorem held_kept {key : Text} {found : Option α} {a v : α} {fields : List (Text × Option α)} :
    Held key found a ((key, some v) :: fields) ↔ found = none ∧ Held key (some v) a fields := by
  cases found <;> simp [Held]

theorem held_other {key : Text} {found : Option α} {a : α} {field : Text × Option α}
    {fields : List (Text × Option α)} (h : field.1 ≠ key) :
    Held key found a (field :: fields) ↔ Held key found a fields := by
  simp [Held, h]

/-- The fields of an object from where the next one is due, or its end. -/
def FieldsFrom (Item : α → Text → Text → Prop) (isFirst : Bool) (as : List α) (s r : Text) : Prop :=
  (as = [] ∧ Spaces s ('\x7d' :: r)) ∨ ∃ s', FieldDue isFirst s s' ∧ Listing '\x7d' Item as s' r

theorem FieldsFrom.cons {isFirst : Bool} {a : α} {as : List α} {s s₁ s₂ s₃ r : Text}
    (hdue : FieldDue isFirst s s₁) (hspace : Spaces s₁ s₂) (ha : Item a s₂ s₃)
    (h : FieldsFrom Item false as s₃ r) : FieldsFrom Item isFirst (a :: as) s r := by
  right
  rcases h with ⟨rfl, hclose⟩ | ⟨s', hcomma, hlisting⟩
  · exact ⟨s₁, hdue, .last hspace ha hclose⟩
  · exact ⟨s₁, hdue, .more hspace ha hcomma hlisting⟩

theorem exists_kept_iff (h : item.Reads Item) {keys : Text × Text} {isFirst : Bool} {key : Text}
    {v : α} {s r : Text} (hkey : key = keys.1 ∨ key = keys.2) :
    (∃ s', KeyAt isFirst key s s' ∧ item.afterColon.run s' = .ok (v, r)) ↔
      ∃ s₁ s₂, FieldDue isFirst s s₁ ∧ Spaces s₁ s₂ ∧ Field keys Item (key, some v) s₂ r := by
  constructor
  · rintro ⟨s', hat, hrun⟩
    obtain ⟨s₁, s₂, hdue, hspace, hliteral⟩ := keyAt_iff.1 hat
    obtain ⟨s₃, hcolon, hrun⟩ := afterColon_eq_ok.1 hrun
    obtain ⟨s₄, hspace', hv⟩ := h.run_eq_ok.1 hrun
    exact ⟨s₁, s₂, hdue, hspace, .kept hkey hliteral hcolon hspace' hv⟩
  · rintro ⟨s₁, s₂, hdue, hspace, ⟨-, hliteral, hcolon, hspace', hv⟩⟩
    exact ⟨_, keyAt_iff.2 ⟨s₁, s₂, hdue, hspace, hliteral⟩,
      afterColon_eq_ok.2 ⟨_, hcolon, h.run_eq_ok.2 ⟨_, hspace', hv⟩⟩⟩

/-- What is read from the fields of an object are the values of the two keys. -/
theorem fields_of_fieldsRest (h : item.Reads Item) {keys : Text × Text} (hkeys : keys.2 ≠ keys.1)
    {isFirst : Bool} {a b : Option α} {s r : Text} {p : α × α}
    (hrun : fieldsRest keys item isFirst a b s = .ok (p, r)) :
    ∃ fields, FieldsFrom (Field keys Item) isFirst fields s r ∧ Held keys.1 a p.1 fields ∧
      Held keys.2 b p.2 fields := by
  -- three cases read a field: the first key, the second one, and any other
  fun_induction fieldsRest keys item isFirst a b s with
  | case1 | case3 | case4 | case5 | case6 | case7 | case9 | case10 | case12 => cases hrun
  | case2 isFirst s rest a b hskip =>
    cases hrun
    exact ⟨[], .inl ⟨rfl, spaces_of_skipSpace hskip⟩, held_nil.2 rfl, held_nil.2 rfl⟩
  | case8 isFirst a b s c rest hskip hc rest' hstart s' hfound v s₂ hv hkey ih =>
    obtain ⟨fields, hfields, ha, hb⟩ := ih hrun
    obtain ⟨s₁, s₂, hdue, hspace, hfield⟩ := (exists_kept_iff h (.inl rfl)).1
      ⟨s', ⟨c, rest, rest', hskip, hc, hstart, hkey⟩, hv⟩
    refine ⟨_, hfields.cons hdue hspace hfield, held_kept.2 ⟨by simpa using hfound, ha⟩, ?_⟩
    exact (held_other (Ne.symm hkeys)).2 hb
  | case11 isFirst a b s c rest hskip hc rest' hstart s' hfound v s₂ hv hkey _ ih =>
    obtain ⟨fields, hfields, ha, hb⟩ := ih hrun
    obtain ⟨s₁, s₂, hdue, hspace, hfield⟩ := (exists_kept_iff h (.inr rfl)).1
      ⟨s', ⟨c, rest, rest', hskip, hc, hstart, hkey⟩, hv⟩
    refine ⟨_, hfields.cons hdue hspace hfield, (held_other hkeys).2 ha, ?_⟩
    exact held_kept.2 ⟨by simpa using hfound, hb⟩
  | case13 isFirst a b s c rest hskip hc rest' hstart key s' hkey hfst hsnd u s₂ hskipped ih =>
    obtain ⟨fields, hfields, ha, hb⟩ := ih hrun
    obtain ⟨s₁, s₂, hdue, hspace, hliteral⟩ := keyAt_iff.1
      ⟨c, rest, rest', hskip, hc, hstart, hkey⟩
    obtain ⟨s₃, hcolon, hskipped⟩ := afterColon_eq_ok.1 hskipped
    obtain ⟨s₄, hspace', hvalue⟩ := wellformed_of_skip hskipped
    exact ⟨_, hfields.cons hdue hspace (.other ⟨hfst, hsnd⟩ hliteral hcolon hspace' hvalue),
      (held_other hfst).2 ha, (held_other hsnd).2 hb⟩

/-- A field at the front is taken, and with it the value of its key. -/
theorem exists_fieldsRest_eq (h : item.Reads Item) {keys : Text × Text} (hkeys : keys.2 ≠ keys.1)
    {isFirst : Bool} {a b : Option α} {s s₁ s₂ s₃ : Text} {p : α × α} {field : Text × Option α}
    {fields : List (Text × Option α)} (hdue : FieldDue isFirst s s₁) (hspace : Spaces s₁ s₂)
    (hfield : Field keys Item field s₂ s₃) (hstops : Stops s₃)
    (ha : Held keys.1 a p.1 (field :: fields)) (hb : Held keys.2 b p.2 (field :: fields)) :
    ∃ a' b', fieldsRest keys item isFirst a b s = fieldsRest keys item false a' b' s₃ ∧
      Held keys.1 a' p.1 fields ∧ Held keys.2 b' p.2 fields := by
  cases hfield with
  | @kept key v _ _ _ _ _ hkey hliteral hcolon hspace' hv =>
    obtain ⟨s', hat, hrun⟩ := (exists_kept_iff h hkey).2
      ⟨s₁, s₂, hdue, hspace, .kept hkey hliteral hcolon hspace' hv⟩
    rcases hkey with rfl | rfl
    · obtain ⟨rfl, hrest⟩ := held_kept.1 ha
      exact ⟨some v, b, fieldsRest_first hat hrun, hrest, (held_other (Ne.symm hkeys)).1 hb⟩
    · obtain ⟨rfl, hrest⟩ := held_kept.1 hb
      exact ⟨a, some v, fieldsRest_second hkeys hat hrun, (held_other hkeys).1 ha, hrest⟩
  | other hkey hliteral hcolon hspace' hvalue =>
    have hskipped := afterColon_eq_ok.2 ⟨_, hcolon, hvalue.run_skip hspace' hstops⟩
    refine ⟨a, b, ?_, (held_other hkey.1).1 ha, (held_other hkey.2).1 hb⟩
    rw [fieldsRest_keyAt (keyAt_iff.2 ⟨s₁, s₂, hdue, hspace, hliteral⟩), if_neg hkey.1,
      if_neg hkey.2, hskipped]
    rfl

theorem fieldsRest_eq_ok (h : item.Reads Item) {keys : Text × Text} (hkeys : keys.2 ≠ keys.1)
    {isFirst : Bool} {a b : Option α} {s s₁ r : Text} {p : α × α}
    {fields : List (Text × Option α)} (hdue : FieldDue isFirst s s₁)
    (hlisting : Listing '\x7d' (Field keys Item) fields s₁ r) (ha : Held keys.1 a p.1 fields)
    (hb : Held keys.2 b p.2 fields) : fieldsRest keys item isFirst a b s = .ok (p, r) := by
  induction hlisting generalizing isFirst a b s with
  | last hspace hfield hclose =>
    obtain ⟨a', b', hrest, ha, hb⟩ := exists_fieldsRest_eq h hkeys hdue hspace hfield
      (.of_spaces hclose (.inr ⟨.object, rfl⟩)) ha hb
    cases held_nil.1 ha
    cases held_nil.1 hb
    rw [hrest, fieldsRest_end false _ _ (hclose.skipSpace_cons rfl)]
  | more hspace hfield hcomma _ ih =>
    obtain ⟨a', b', hrest, ha, hb⟩ := exists_fieldsRest_eq h hkeys hdue hspace hfield
      (.of_spaces hcomma (.inl rfl)) ha hb
    have hdue : FieldDue false _ _ := hcomma
    rw [hrest, ih hdue ha hb]

theorem itemsRest_eq_ok (h : item.Reads Item) (hbegins : Begins Item) {p : α × α} {s r : Text} :
    itemsRest item s = .ok (p, r) ↔ Listing ']' Item [p.1, p.2] s r := by
  constructor
  · intro hrun
    unfold itemsRest at hrun
    split at hrun
    · cases hrun
    split at hrun
    · cases hrun
    next a s₁ ha =>
    split at hrun
    · cases hrun
    next c s₂ hskip =>
    split_ifs at hrun with hclose hcomma
    split at hrun
    · cases hrun
    next b s₃ hb =>
    split at hrun
    · cases hrun
    next d s₄ hskip' =>
    split_ifs at hrun with hclose'
    cases hrun
    obtain ⟨s₁, hspace, ha⟩ := h.run_eq_ok.1 ha
    obtain ⟨s₃, hspace', hb⟩ := h.run_eq_ok.1 hb
    exact .more hspace ha (spaces_of_skipSpace (hcomma ▸ hskip))
      (.last hspace' hb (spaces_of_skipSpace (hclose' ▸ hskip')))
  · intro hlisting
    obtain ⟨c, t, hfirst, hc⟩ := hbegins.listing hlisting
    cases hlisting with
    | more hspace ha hcomma hrest =>
      cases hrest with
      | last hspace' hb hclose =>
        have ha := h.run_eq_ok.2 ⟨_, hspace, ha⟩
        have hb := h.run_eq_ok.2 ⟨_, hspace', hb⟩
        have hcomma := hcomma.skipSpace_cons (show isSpace ',' = false from rfl)
        have hclose := hclose.skipSpace_cons (show isSpace ']' = false from rfl)
        unfold itemsRest
        split
        · next heq =>
          cases hfirst.symm.trans heq
          exact absurd rfl (hc.not_closing .array)
        · simp [ha, hb, hcomma, hclose]
      | more _ _ _ hrest => cases hrest

/-- Pairs are read from objects with the two keys, and from arrays of the two items. -/
theorem Reader.Reads.pair (h : item.Reads Item) (hbegins : Begins Item) {keys : Text × Text}
    (hkeys : keys.2 ≠ keys.1) : (Reader.pair keys item).Reads fun p s r =>
      Pair keys Item p s r ∨ ArrayOf Item [p.1, p.2] s r := by
  refine ⟨fun {p s r} => ?_⟩
  constructor
  · intro hrun
    unfold Reader.pair at hrun
    dsimp only at hrun
    split at hrun
    · next rest hskip =>
      exact ⟨_, spaces_of_skipSpace hskip,
        .inr (.items ((itemsRest_eq_ok h hbegins).1 hrun))⟩
    · next rest hskip =>
      obtain ⟨fields, hfields, ha, hb⟩ := fields_of_fieldsRest h hkeys hrun
      rcases hfields with ⟨rfl, -⟩ | ⟨s', rfl, hlisting⟩
      · cases held_nil.1 ha
      · exact ⟨_, spaces_of_skipSpace hskip, .inl ⟨fields, .items hlisting, ha, hb⟩⟩
    · cases hrun
  · rintro ⟨s', hspace, ⟨fields, henclosed, ha, hb⟩ | henclosed⟩
    · cases henclosed with
      | empty _ => cases ha
      | @items _ s _ hlisting =>
        have hskip : skipSpace _ = '\x7b' :: s := hspace.skipSpace_cons rfl
        simp only [Reader.pair, hskip]
        have hdue : FieldDue true s s := rfl
        exact fieldsRest_eq_ok h hkeys hdue hlisting ha hb
    · cases henclosed with
      | @items _ s _ hlisting =>
        have hskip : skipSpace _ = '[' :: s := hspace.skipSpace_cons rfl
        simp only [Reader.pair, hskip]
        exact (itemsRest_eq_ok h hbegins).2 hlisting

theorem begins_pair {keys : Text × Text} : Begins fun p s r =>
    Pair keys Item p s r ∨ ArrayOf Item [p.1, p.2] s r := by
  rintro p s r (⟨fields, henclosed, -⟩ | henclosed)
  · exact begins_enclosed henclosed
  · exact begins_enclosed henclosed

/-! ## Values made of what is read -/

/-- What is read may be turned into another value. -/
theorem Reader.Reads.andThen {β : Type} (h : item.Reads Item) (f : α → Except Fault β) :
    (item.andThen f).Reads fun b s r => ∃ a, Item a s r ∧ f a = .ok b := by
  refine ⟨fun {b s r} => ?_⟩
  constructor
  · intro hrun
    unfold Reader.andThen at hrun
    dsimp only at hrun
    split at hrun
    · cases hrun
    next a rest ha =>
    obtain ⟨b, hb, hfound⟩ := map_eq_ok.1 hrun
    cases hfound
    obtain ⟨s', hspace, hitem⟩ := h.run_eq_ok.1 ha
    exact ⟨s', hspace, a, hitem, hb⟩
  · rintro ⟨s', hspace, a, hitem, hb⟩
    have ha := h.run_eq_ok.2 ⟨s', hspace, hitem⟩
    simp only [Reader.andThen, ha]
    exact map_eq_ok.2 ⟨b, hb, rfl⟩

/-! ## What is written -/

/-- The production takes the value as it is written. -/
def Written (Item : α → Text → Text → Prop) (a : α) (j : Json) : Prop :=
  ∀ s, Item a (j.compact ++ s) s

theorem written_string (t : Text) : Written Literal t (.string t) := by
  intro s
  have hliteral := run_spelledString_iff.1 (run_spelledString t s)
  rw [compact, writeString]
  simpa using hliteral

theorem Written.listing {close : Char} {as : List α} {js : List Json}
    (h : List.Forall₂ (Written Item) as js) (hne : as ≠ []) (s : Text) :
    Listing close Item as (compactItems js ++ close :: s) s := by
  induction h with
  | nil => exact absurd rfl hne
  | @cons a j as js ha hrest ih =>
    cases hrest with
    | nil =>
      rw [compactItems]
      exact .last (.refl _) (ha _) (.refl _)
    | cons _ _ =>
      rw [compactItems_cons (List.cons_ne_nil _ _), List.append_assoc]
      exact .more (.refl _) (ha _) (.refl _) (ih (List.cons_ne_nil _ _))

theorem Written.array {as : List α} {js : List Json} (h : List.Forall₂ (Written Item) as js) :
    Written (ArrayOf Item) as (.array js) := by
  intro s
  rw [compact, List.cons_append, List.cons_append, List.append_assoc]
  by_cases hne : as = []
  · subst hne
    cases h
    exact .empty (.refl _)
  · exact .items (Written.listing h hne s)

theorem Written.pair {keys : Text × Text} (hkeys : keys.2 ≠ keys.1) {p : α × α} {j k : Json}
    (ha : Written Item p.1 j) (hb : Written Item p.2 k) :
    Written (Pair keys Item) p (.object [(keys.1, j), (keys.2, k)]) := by
  intro s
  have hlisting : Listing '\x7d' (Field keys Item) [(keys.1, some p.1), (keys.2, some p.2)]
      (writeString keys.1 ++ ':' :: (j.compact ++ ',' :: (writeString keys.2 ++
        ':' :: (k.compact ++ '\x7d' :: s)))) s :=
    .more (.refl _) (.kept (.inl rfl) (written_string _ _) (.refl _) (.refl _) (ha _)) (.refl _)
      (.last (.refl _) (.kept (.inr rfl) (written_string _ _) (.refl _) (.refl _) (hb _)) (.refl _))
  have hobject : (object [(keys.1, j), (keys.2, k)]).compact ++ s =
      '\x7b' :: (writeString keys.1 ++ ':' :: (j.compact ++ ',' :: (writeString keys.2 ++
        ':' :: (k.compact ++ '\x7d' :: s)))) := by
    rw [compact]
    simp [compactFields]
  rw [hobject]
  exact ⟨_, .items hlisting, by simp [Once, hkeys], by simp [Once, Ne.symm hkeys]⟩

/-- What a production takes is a whole text as well. -/
theorem Written.document {a : α} {j : Json} (h : Written Item a j) :
    Document Item a j.compact := by
  have hwhole := h []
  rw [List.append_nil] at hwhole
  exact ⟨_, [], .refl _, hwhole, .refl _⟩

end

end StageGraph.Json
