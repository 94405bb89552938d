import Mathlib.Tactic
import StageGraph.Proofs.Json.Exactness

set_option autoImplicit false

/-! # Printed documents are read back

A document that is printed with a line for each member differs from the compact one in white space
only, so the productions take it as well: it is JSON as a whole (`wellformed_pretty`), and what is
printed at a place for items, arrays or pairs is taken there (`Printed`).

A field of an object may also be taken as it stands, without a look at what it says (`Reader.raw`).
The two fields of a printed object are the printed values, one level further in (`read_raw_pair`).
-/

namespace StageGraph.Json

/-! ## Lines -/

theorem spaces_newLine (level : Nat) (s : Text) : Spaces (newLine level ++ s) s := by
  refine ⟨newLine level, fun c hc => ?_, rfl⟩
  rcases List.mem_cons.1 hc with rfl | hc
  · rfl
  · rw [List.eq_of_mem_replicate hc]
    rfl

theorem spaces_blank (s : Text) : Spaces (' ' :: s) s :=
  ⟨[' '], by simp [isSpace], rfl⟩

theorem prettyItems_cons {level : Nat} {j : Json} {items : List Json} (h : items ≠ []) :
    prettyItems level (j :: items) =
      newLine level ++ (j.pretty level ++ ',' :: prettyItems level items) := by
  cases items with
  | nil => exact absurd rfl h
  | cons k items =>
    rw [prettyItems]
    · exact List.append_assoc _ _ _
    · exact List.cons_ne_nil k items

theorem prettyFields_cons {level : Nat} {key : Text} {j : Json} {fields : List (Text × Json)}
    (h : fields ≠ []) : prettyFields level ((key, j) :: fields) = newLine level ++
      (writeString key ++ ':' :: ' ' :: (j.pretty level ++ ',' :: prettyFields level fields)) := by
  cases fields with
  | nil => exact absurd rfl h
  | cons field fields =>
    rw [prettyFields]
    · simp
    · exact List.cons_ne_nil field fields

theorem pretty_array {items : List Json} (h : items ≠ []) (level : Nat) (s : Text) :
    (array items).pretty level ++ s =
      '[' :: (prettyItems (level + 1) items ++ (newLine level ++ ']' :: s)) := by
  rw [pretty]
  · simp
  · exact h

theorem pretty_object {fields : List (Text × Json)} (h : fields ≠ []) (level : Nat) (s : Text) :
    (object fields).pretty level ++ s =
      '\x7b' :: (prettyFields (level + 1) fields ++ (newLine level ++ '\x7d' :: s)) := by
  rw [pretty]
  · simp
  · exact h

/-! ## What is printed is JSON -/

/-- Halves that come in a pair need not do so. -/
theorem Body.raw {t s r : Text} (h : Body Escape id t s r) :
    ∃ us, Body RawEscape (fun _ => ()) us s r := by
  induction h with
  | close => exact ⟨[], .close⟩
  | plain hquote hslash hcontrol _ ih =>
    obtain ⟨us, hus⟩ := ih
    exact ⟨_, .plain hquote hslash hcontrol hus⟩
  | escape hescape _ ih =>
    obtain ⟨us, hus⟩ := ih
    cases hescape with
    | short h => exact ⟨_, .escape (.short h) hus⟩
    | unit h => exact ⟨_, .escape (.unit h) hus⟩
    | pair _ _ _ hhigh hlow => exact ⟨_, .escape (.unit hhigh) (.escape (.unit hlow) hus)⟩

theorem Literal.raw {t s r : Text} (h : Literal t s r) : RawLiteral s r := by
  obtain ⟨h⟩ := h
  obtain ⟨us, hus⟩ := h.raw
  exact .quoted hus

theorem literal_writeString (t s : Text) : Literal t (writeString t ++ s) s := by
  have hliteral := written_string t s
  rwa [compact] at hliteral


mutual

/-- Every printed document is JSON, whatever stands behind it. -/
theorem wellformed_pretty (level : Nat) (s : Text) :
    ∀ j : Json, Wellformed .value (j.pretty level ++ s) s
  | .string t => by
    rw [pretty]
    exact .scalar (.string (literal_writeString t s).raw)
  | .array [] => .empty (c := .array) (.refl _)
  | .array (item :: items) => by
    rw [pretty_array (List.cons_ne_nil _ _)]
    exact .container (c := .array) (wellformed_prettyItems (level + 1) (spaces_newLine level _)
      (item :: items) (List.cons_ne_nil _ _))
  | .object [] => .empty (c := .object) (.refl _)
  | .object (field :: fields) => by
    rw [pretty_object (List.cons_ne_nil _ _)]
    exact .container (c := .object) (wellformed_prettyFields (level + 1) (spaces_newLine level _)
      (field :: fields) (List.cons_ne_nil _ _))

theorem wellformed_prettyItems (level : Nat) {s r : Text} (hclose : Spaces s (']' :: r)) :
    ∀ items : List Json, items ≠ [] → Wellformed (.entries .array) (prettyItems level items ++ s) r
  | [], h => absurd rfl h
  | [item], _ => by
    rw [prettyItems, List.append_assoc]
    exact .last (spaces_newLine level _) (.item (wellformed_pretty level _ item)) hclose
  | item :: other :: items, _ => by
    rw [prettyItems_cons (List.cons_ne_nil _ _), List.append_assoc, List.append_assoc]
    exact .more (spaces_newLine level _) (.item (wellformed_pretty level _ item)) (.refl _)
      (wellformed_prettyItems level hclose (other :: items) (List.cons_ne_nil _ _))

theorem wellformed_prettyFields (level : Nat) {s r : Text} (hclose : Spaces s ('\x7d' :: r)) :
    ∀ fields : List (Text × Json), fields ≠ [] →
      Wellformed (.entries .object) (prettyFields level fields ++ s) r
  | [], h => absurd rfl h
  | [(key, j)], _ => by
    rw [prettyFields, List.append_assoc, List.append_assoc]
    exact .last (spaces_newLine level _) (.field (literal_writeString key _).raw (.refl _)
      (spaces_blank _) (wellformed_pretty level _ j)) hclose
  | (key, j) :: other :: fields, _ => by
    rw [prettyFields_cons (List.cons_ne_nil _ _), List.append_assoc, List.append_assoc,
      List.cons_append, List.cons_append, List.append_assoc]
    exact .more (spaces_newLine level _) (.field (literal_writeString key _).raw (.refl _)
      (spaces_blank _) (wellformed_pretty level _ j)) (.refl _)
      (wellformed_prettyFields level hclose (other :: fields) (List.cons_ne_nil _ _))

end

/-! ## What is printed is taken -/

section

variable {α : Type} {Item : α → Text → Text → Prop}

/-- The production takes the value as it is printed, on any level. -/
def Printed (Item : α → Text → Text → Prop) (a : α) (j : Json) : Prop :=
  ∀ level s, Item a (j.pretty level ++ s) s

theorem printed_string (t : Text) : Printed Literal t (.string t) := by
  intro level s
  rw [pretty]
  exact literal_writeString t s

theorem Printed.listing {as : List α} {js : List Json} (h : List.Forall₂ (Printed Item) as js)
    (hne : as ≠ []) (level : Nat) {close : Char} {s r : Text} (hclose : Spaces s (close :: r)) :
    Listing close Item as (prettyItems level js ++ s) r := by
  induction h with
  | nil => exact absurd rfl hne
  | @cons a j as js ha hrest ih =>
    cases hrest with
    | nil =>
      rw [prettyItems, List.append_assoc]
      exact .last (spaces_newLine level _) (ha level _) hclose
    | cons _ _ =>
      rw [prettyItems_cons (List.cons_ne_nil _ _), List.append_assoc, List.append_assoc]
      exact .more (spaces_newLine level _) (ha level _) (.refl _) (ih (List.cons_ne_nil _ _))

theorem Printed.array {as : List α} {js : List Json} (h : List.Forall₂ (Printed Item) as js) :
    Printed (ArrayOf Item) as (.array js) := by
  intro level s
  cases h with
  | nil => exact .empty (.refl _)
  | cons ha hrest =>
    rw [pretty_array (List.cons_ne_nil _ _)]
    exact .items (Printed.listing (.cons ha hrest) (List.cons_ne_nil _ _) (level + 1)
      (spaces_newLine level _))

/-- What a production takes is a whole text as well. -/
theorem Printed.document {a : α} {j : Json} (h : Printed Item a j) (level : Nat) :
    Document Item a (j.pretty level) := by
  have hwhole := h level []
  rw [List.append_nil] at hwhole
  exact ⟨_, [], .refl _, hwhole, .refl _⟩

/-- An object of two fields, field by field. -/
theorem pretty_pair (keys : Text × Text) (j k : Json) (level : Nat) (s : Text) :
    (object [(keys.1, j), (keys.2, k)]).pretty level ++ s =
      '\x7b' :: (newLine (level + 1) ++ (writeString keys.1 ++ ':' :: ' ' ::
        (j.pretty (level + 1) ++ ',' :: (newLine (level + 1) ++ (writeString keys.2 ++ ':' :: ' ' ::
          (k.pretty (level + 1) ++ (newLine level ++ '\x7d' :: s))))))) := by
  rw [pretty_object (List.cons_ne_nil _ _), prettyFields_cons (List.cons_ne_nil _ _), prettyFields]
  simp

theorem Printed.field {a : α} {j : Json} (h : Printed Item a j) (keys : Text × Text) {key : Text}
    (hkey : key = keys.1 ∨ key = keys.2) (level : Nat) (s : Text) :
    Field keys Item (key, some a) (writeString key ++ ':' :: ' ' :: (j.pretty level ++ s)) s :=
  .kept hkey (literal_writeString key _) (.refl _) (spaces_blank _) (h level s)

theorem Printed.pair {keys : Text × Text} (hkeys : keys.2 ≠ keys.1) {p : α × α} {j k : Json}
    (ha : Printed Item p.1 j) (hb : Printed Item p.2 k) :
    Printed (Pair keys Item) p (.object [(keys.1, j), (keys.2, k)]) := by
  intro level s
  rw [pretty_pair]
  have hsecond := Listing.last (spaces_newLine (level + 1) _)
    (hb.field keys (.inr rfl) (level + 1) _) (spaces_newLine level ('\x7d' :: s))
  have hfields := Listing.more (spaces_newLine (level + 1) _)
    (ha.field keys (.inl rfl) (level + 1) _) (.refl _) hsecond
  exact ⟨_, .items hfields, by simp [Once, hkeys], by simp [Once, Ne.symm hkeys]⟩

end

/-! ## Values as they stand -/

/-- Takes a value of any kind and answers with its text. -/
def Reader.raw : Reader Text where
  run s := (skipValue s).map fun rest =>
    ((skipSpace s).take ((skipSpace s).length - rest.length), rest)
  shrinks {s r t} h := by
    obtain ⟨rest, hskip, hfound⟩ := map_eq_ok.1 h
    cases hfound
    exact (length_skipThrough hskip).2 rfl

theorem Wellformed.eq_cons {s r : Text} (h : Wellformed .value s r) :
    ∃ c t, s = c :: t ∧ BeginsValue c := by
  cases h with
  | scalar h =>
    obtain ⟨c, t, rfl, hbegins, -⟩ := h.exists_cons
    exact ⟨c, t, rfl, hbegins⟩
  | @empty c s _ h => exact ⟨c.opening, s, rfl, by cases c <;> decide⟩
  | @container c s _ h => exact ⟨c.opening, s, rfl, by cases c <;> decide⟩

/-- A value is taken from behind the white space in front of it, and its text is all of it. -/
theorem Wellformed.run_raw {m r s : Text} (h : Wellformed .value (m ++ r) r)
    (hspace : Spaces s (m ++ r)) (hr : Stops r) : Reader.raw.run s = .ok (m, r) := by
  obtain ⟨rest, hskip, hrest⟩ := map_eq_ok.1 (h.run_skip hspace hr)
  cases hrest
  obtain ⟨c, t, heq, hbegins⟩ := h.eq_cons
  have hstart : skipSpace s = m ++ r := by
    rw [heq] at hspace ⊢
    exact hspace.skipSpace_cons hbegins.not_space
  refine map_eq_ok.2 ⟨r, hskip, ?_⟩
  rw [hstart]
  simp

theorem run_afterColon_raw (j : Json) (level : Nat) {s : Text} (hs : Stops s) :
    Reader.raw.afterColon.run (':' :: ' ' :: (j.pretty level ++ s)) = .ok (j.pretty level, s) :=
  afterColon_eq_ok.2
    ⟨_, .refl _, (wellformed_pretty level s j).run_raw (spaces_blank _) hs⟩

/-- The two fields of a printed object are its values, printed one level further in. -/
theorem read_raw_pair {keys : Text × Text} (hkeys : keys.2 ≠ keys.1) (j k : Json) :
    (Reader.pair keys .raw).read ((object [(keys.1, j), (keys.2, k)]).pretty 0) =
      .ok (j.pretty 1, k.pretty 1) := by
  have htext := pretty_pair keys j k 0 []
  rw [List.append_nil] at htext
  have hend : Spaces (newLine 0 ++ ['\x7d']) ['\x7d'] := spaces_newLine 0 _
  have hfirst := run_afterColon_raw j 1 (s := ',' :: (newLine 1 ++ (writeString keys.2 ++
    ':' :: ' ' :: (k.pretty 1 ++ (newLine 0 ++ ['\x7d']))))) (.of_spaces (.refl _) (.inl rfl))
  have hsecond := run_afterColon_raw k 1 (.of_spaces hend (.inr ⟨.object, rfl⟩))
  have hkey : ∀ (isFirst : Bool) (key : Text) {s s' : Text},
      FieldDue isFirst s (newLine 1 ++ (writeString key ++ s')) → KeyAt isFirst key s s' :=
    fun isFirst key s s' hdue =>
      keyAt_iff.2 ⟨_, _, hdue, spaces_newLine 1 _, literal_writeString key s'⟩
  have hopen : skipSpace ((object [(keys.1, j), (keys.2, k)]).pretty 0) =
      (object [(keys.1, j), (keys.2, k)]).pretty 0 := by
    rw [htext]
    exact skipSpace_cons rfl _
  have hrun : (Reader.pair keys .raw).run ((object [(keys.1, j), (keys.2, k)]).pretty 0) =
      .ok ((j.pretty 1, k.pretty 1), []) := by
    simp only [Reader.pair, hopen]
    rw [htext]
    calc fieldsRest keys .raw true none none _
        = fieldsRest keys .raw false (some (j.pretty 1)) none _ :=
          fieldsRest_first (hkey true keys.1 rfl) hfirst
      _ = fieldsRest keys .raw false (some (j.pretty 1)) (some (k.pretty 1)) _ :=
          fieldsRest_second hkeys (hkey false keys.2 (Spaces.refl _)) hsecond
      _ = .ok ((j.pretty 1, k.pretty 1), []) := fieldsRest_end false _ _ (hend.skipSpace_cons rfl)
  simp only [Reader.read, hrun]
  rfl

end StageGraph.Json
