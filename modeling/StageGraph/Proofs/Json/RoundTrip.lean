import Mathlib.Tactic
import StageGraph.Json.Shape
import StageGraph.Json.Writing

set_option autoImplicit false

/-! # Written JSON is read back

A reader undoes a way of writing when it takes from the front of a text what was written there and
leaves the rest of the text alone (`Reader.Undoes`). Strings are read back character by character,
escapes included (`undoes_string`); from there the property is handed on to lists (`Undoes.list`)
and to pairs under two keys (`Undoes.pair`).
-/

namespace StageGraph

section

variable {ε α β : Type} {x : Except ε α} {b : β}

/-- A computation of two steps succeeds by a success of each. -/
theorem bind_eq_ok {f : α → Except ε β} :
    (x >>= f) = .ok b ↔ ∃ a, x = .ok a ∧ f a = .ok b := by
  constructor
  · intro h
    cases x with
    | error e => cases h
    | ok a => exact ⟨a, rfl, h⟩
  · rintro ⟨a, rfl, h⟩
    exact h

theorem map_eq_ok {f : α → β} : x.map f = .ok b ↔ ∃ a, x = .ok a ∧ f a = b := by
  constructor
  · intro h
    cases x with
    | error e => cases h
    | ok a =>
      cases h
      exact ⟨a, rfl, rfl⟩
  · rintro ⟨a, rfl, rfl⟩
    rfl

end

namespace Json

theorem skipSpace_cons {c : Char} (hc : isSpace c = false) (s : Text) :
    skipSpace (c :: s) = c :: s := by
  rw [skipSpace, List.dropWhile_cons_of_neg (by simp [hc])]

/-! ## Strings -/

theorem run_escape_simple {c d : Char} (hu : c ≠ 'u') (h : simpleEscape? c = some d) (s : Text) :
    spelledEscape.run (c :: s) = .ok (d, s) := by
  simp only [spelledEscape, escape, if_neg hu, h, id]

theorem hexValue4?_digitChar {n : Nat} (hn : n < 0x20) :
    hexValue4? '0' '0' (Nat.digitChar (n / 16)) (Nat.digitChar (n % 16)) = some n := by
  revert n
  decide

theorem run_escape_control {c : Char} (hc : c.toNat < 0x20) (s : Text) :
    spelledEscape.run ('u' :: '0' :: '0' :: Nat.digitChar (c.toNat / 16) ::
      Nat.digitChar (c.toNat % 16) :: s) = .ok (c, s) := by
  have hhalf : isLowHalf c.toNat = false ∧ isHighHalf c.toNat = false := by
    simp only [isLowHalf, isHighHalf, Bool.and_eq_false_iff, decide_eq_false_iff_not]
    omega
  simp only [spelledEscape, escape, if_pos, codePoint, codeUnit, hexValue4?_digitChar hc, hhalf,
    Bool.false_eq_true, if_false, Char.ofNat_toNat]

theorem stringRest_backslash {α : Type} {reader : Reader α} {plain : Char → α} {s s' : Text} {a : α}
    (h : reader.run s = .ok (a, s')) :
    stringRest reader plain ('\\' :: s) =
      (stringRest reader plain s').map fun found => (a :: found.1, found.2) := by
  rw [stringRest, if_neg (by decide), if_pos rfl]
  split
  · next hrun => cases h.symm.trans hrun
  · next hrun => cases h.symm.trans hrun; rfl

/-- The spelling of a character is read as the character. -/
theorem stringRest_escapeChar (c : Char) (s : Text) :
    stringRest spelledEscape id (escapeChar c ++ s) =
      (stringRest spelledEscape id s).map fun found => (c :: found.1, found.2) := by
  have hsimple : ∀ {d e : Char}, d ≠ 'u' → simpleEscape? d = some e →
      stringRest spelledEscape id (['\\', d] ++ s) =
        (stringRest spelledEscape id s).map fun found => (e :: found.1, found.2) :=
    fun hd he => stringRest_backslash (run_escape_simple hd he s)
  unfold escapeChar
  split_ifs with hquote hslash hb hf hn hr ht hcontrol
  · exact hquote ▸ @hsimple '"' '"' (by decide) rfl
  · exact hslash ▸ @hsimple '\\' '\\' (by decide) rfl
  · exact hb ▸ hsimple (by decide) rfl
  · exact hf ▸ hsimple (by decide) rfl
  · exact hn ▸ hsimple (by decide) rfl
  · exact hr ▸ hsimple (by decide) rfl
  · exact ht ▸ hsimple (by decide) rfl
  · exact stringRest_backslash (run_escape_control hcontrol s)
  · rw [List.singleton_append, stringRest, if_neg hquote, if_neg hslash, if_neg hcontrol]
    rfl

/-- A spelled text is read up to its closing quote. -/
theorem run_spelledString (t s : Text) :
    spelledString.run (t.flatMap escapeChar ++ '"' :: s) = .ok (t, s) := by
  show stringRest spelledEscape id _ = _
  induction t with
  | nil => rw [List.flatMap_nil, List.nil_append, stringRest, if_pos rfl]
  | cons c t ih =>
    rw [List.flatMap_cons, List.append_assoc, stringRest_escapeChar, ih]
    rfl

/-! ## Readers that undo writers -/

/-- The reader takes what has been written from the front of a text, whatever stands behind it. -/
def Reader.Undoes {α : Type} (reader : Reader α) (write : α → Json) : Prop :=
  ∀ a s, reader.run ((write a).compact ++ s) = .ok (a, s)

theorem undoes_string : Reader.string.Undoes .string := by
  intro t s
  have hskip : skipSpace ((string t).compact ++ s) =
      '"' :: (t.flatMap escapeChar ++ '"' :: s) := by
    rw [compact, writeString, List.cons_append, List.cons_append, List.append_assoc,
      skipSpace_cons (by decide)]
    rfl
  simp only [Reader.string, hskip, run_spelledString]

/-- A whole text that was written is read back. -/
theorem Reader.Undoes.read_eq {α : Type} {reader : Reader α} {write : α → Json}
    (h : reader.Undoes write) (a : α) : reader.read (write a).compact = .ok a := by
  have hrun := h a []
  rw [List.append_nil] at hrun
  simp only [Reader.read, hrun]
  rfl

/-- Every value begins with a character that neither is white space nor ends an array. -/
theorem compact_eq_cons (j : Json) :
    ∃ c t, j.compact = c :: t ∧ isSpace c = false ∧ c ≠ ']' := by
  cases j with
  | string t => exact ⟨'"', _, by rw [compact, writeString]; rfl, by decide, by decide⟩
  | array items => exact ⟨'[', _, by rw [compact]; rfl, by decide, by decide⟩
  | object fields => exact ⟨'\x7b', _, by rw [compact]; rfl, by decide, by decide⟩

theorem compactItems_cons {j : Json} {items : List Json} (h : items ≠ []) :
    compactItems (j :: items) = j.compact ++ ',' :: compactItems items := by
  cases items with
  | nil => exact absurd rfl h
  | cons k items => rw [compactItems]; simp

section

variable {α : Type} {item : Reader α} {write : α → Json}

theorem listRest_last {s s₁ s' : Text} {a : α} (h : item.run s = .ok (a, s₁))
    (hclose : skipSpace s₁ = ']' :: s') : listRest item s = .ok ([a], s') := by
  rw [listRest]
  split
  · next hrun => cases h.symm.trans hrun
  · next hrun =>
    cases h.symm.trans hrun
    split
    · next hskip => cases hclose.symm.trans hskip
    · next hskip =>
      cases hclose.symm.trans hskip
      rw [if_pos rfl]

theorem listRest_more {s s₁ s' : Text} {a : α} (h : item.run s = .ok (a, s₁))
    (hcomma : skipSpace s₁ = ',' :: s') :
    listRest item s = (listRest item s').map fun found => (a :: found.1, found.2) := by
  rw [listRest]
  split
  · next hrun => cases h.symm.trans hrun
  · next hrun =>
    cases h.symm.trans hrun
    split
    · next hskip => cases hcomma.symm.trans hskip
    · next hskip =>
      cases hcomma.symm.trans hskip
      rw [if_neg (by decide), if_pos rfl]

/-- Items with commas between them are read up to the end of the array. -/
theorem Reader.Undoes.listRest_eq (h : item.Undoes write) {as : List α} (hne : as ≠ [])
    (s : Text) : listRest item (compactItems (as.map write) ++ ']' :: s) = .ok (as, s) := by
  induction as with
  | nil => exact absurd rfl hne
  | cons a as ih =>
    by_cases hnil : as = []
    · subst hnil
      exact listRest_last (h a _) (skipSpace_cons (by decide) s)
    · have hmore := listRest_more (h a (',' :: (compactItems (as.map write) ++ ']' :: s)))
        (skipSpace_cons (by decide) _)
      rw [List.map_cons, compactItems_cons (by simpa using hnil), List.append_assoc,
        List.cons_append, hmore, ih hnil]
      rfl

/-- Arrays are read back if their items are. -/
theorem Reader.Undoes.list (h : item.Undoes write) :
    (Reader.list item).Undoes fun as => .array (as.map write) := by
  intro as s
  have hopen : skipSpace ((array (as.map write)).compact ++ s) =
      '[' :: (compactItems (as.map write) ++ ']' :: s) := by
    rw [compact, List.cons_append, List.cons_append, List.append_assoc,
      skipSpace_cons (by decide)]
    rfl
  cases as with
  | nil =>
    simp only [Reader.list, hopen]
    rfl
  | cons a as =>
    obtain ⟨c, t, hc, hspace, hclose⟩ := compact_eq_cons (write a)
    have hitems : ∃ t', compactItems ((a :: as).map write) ++ ']' :: s = c :: t' := by
      by_cases hnil : as = []
      · subst hnil
        exact ⟨_, by rw [List.map_singleton, compactItems, hc]; rfl⟩
      · exact ⟨_, by rw [List.map_cons, compactItems_cons (by simpa using hnil), hc]; rfl⟩
    obtain ⟨t', ht'⟩ := hitems
    have hrest := h.listRest_eq (List.cons_ne_nil a as) s
    simp only [Reader.list, hopen]
    rw [ht'] at hrest ⊢
    split
    · next hskip =>
      rw [skipSpace_cons hspace] at hskip
      cases hskip
      exact absurd rfl hclose
    · exact hrest

/-! ## Pairs -/

theorem colon_cons (s : Text) : colon (':' :: s) = .ok s := by
  simp only [colon, skipSpace_cons (show isSpace ':' = false from rfl), if_true]

theorem Reader.Undoes.afterColon_run (h : item.Undoes write) (a : α) (s : Text) :
    item.afterColon.run (':' :: ((write a).compact ++ s)) = .ok (a, s) := by
  simp only [Reader.afterColon, colon_cons, h a s]

/-- A key stands at the front of a text, behind a comma unless it is the first one. -/
def KeyAt (isFirst : Bool) (key s s' : Text) : Prop :=
  ∃ c rest rest', skipSpace s = c :: rest ∧ c ≠ '\x7d' ∧ keyStart isFirst c rest = .ok rest' ∧
    spelledString.run rest' = .ok (key, s')

theorem keyAt_written (isFirst : Bool) (key s : Text) :
    KeyAt isFirst key ((if isFirst then [] else [',']) ++ writeString key ++ s) s := by
  have hread := run_spelledString key s
  have hquote : writeString key ++ s = '"' :: (key.flatMap escapeChar ++ '"' :: s) := by
    rw [writeString, List.cons_append, List.cons_append, List.append_assoc]
    rfl
  rw [List.append_assoc, hquote]
  cases isFirst with
  | true => exact ⟨_, _, _, skipSpace_cons (by decide) _, by decide, rfl, hread⟩
  | false =>
    refine ⟨_, _, _, skipSpace_cons (by decide) _, by decide, ?_, hread⟩
    rw [keyStart, if_neg Bool.false_ne_true, if_pos rfl, List.append_eq, List.nil_append,
      skipSpace_cons (by decide)]
    rfl

theorem fieldsRest_end {keys : Text × Text} (isFirst : Bool) (a b : α) {s s' : Text}
    (h : skipSpace s = '\x7d' :: s') :
    fieldsRest keys item isFirst (some a) (some b) s = .ok ((a, b), s') := by
  rw [fieldsRest]
  split
  · next hskip => cases h.symm.trans hskip
  · next hskip =>
    cases h.symm.trans hskip
    rw [if_pos rfl]

/-- What is read behind a key. -/
theorem fieldsRest_keyAt {keys : Text × Text} {isFirst : Bool} {a b : Option α} {key s s' : Text}
    (h : KeyAt isFirst key s s') : fieldsRest keys item isFirst a b s =
      if key = keys.1 then
        if a.isSome then .error .unfit
        else item.afterColon.run s' >>= fun found =>
          fieldsRest keys item false (some found.1) b found.2
      else if key = keys.2 then
        if b.isSome then .error .unfit
        else item.afterColon.run s' >>= fun found =>
          fieldsRest keys item false a (some found.1) found.2
      else Reader.skip.afterColon.run s' >>= fun found =>
        fieldsRest keys item false a b found.2 := by
  obtain ⟨c, rest, rest', hskip, hc, hstart, hkey⟩ := h
  rw [fieldsRest]
  split
  · next hskip' => cases hskip.symm.trans hskip'
  · next hskip' =>
    cases hskip.symm.trans hskip'
    rw [if_neg hc]
    split
    · next hstart' => cases hstart.symm.trans hstart'
    · next hstart' =>
      cases hstart.symm.trans hstart'
      split
      · next hkey' => cases hkey.symm.trans hkey'
      · next hkey' =>
        cases hkey.symm.trans hkey'
        generalize item.afterColon.run s' = found, Reader.skip.afterColon.run s' = skipped
        cases found <;> cases skipped <;> rfl

theorem fieldsRest_first {keys : Text × Text} {isFirst : Bool} {a : α} {b : Option α}
    {s s₁ s₂ : Text} (h : KeyAt isFirst keys.1 s s₁)
    (hitem : item.afterColon.run s₁ = .ok (a, s₂)) :
    fieldsRest keys item isFirst none b s = fieldsRest keys item false (some a) b s₂ := by
  rw [fieldsRest_keyAt h, if_pos rfl, hitem]
  rfl

theorem fieldsRest_second {keys : Text × Text} (hkeys : keys.2 ≠ keys.1) {isFirst : Bool}
    {a : Option α} {b : α} {s s₁ s₂ : Text} (h : KeyAt isFirst keys.2 s s₁)
    (hitem : item.afterColon.run s₁ = .ok (b, s₂)) :
    fieldsRest keys item isFirst a none s = fieldsRest keys item false a (some b) s₂ := by
  rw [fieldsRest_keyAt h, if_neg hkeys, if_pos rfl, hitem]
  rfl

/-- Pairs under two different keys are read back if their members are. -/
theorem Reader.Undoes.pair (h : item.Undoes write) {keys : Text × Text} (hkeys : keys.2 ≠ keys.1) :
    (Reader.pair keys item).Undoes fun p =>
      .object [(keys.1, write p.1), (keys.2, write p.2)] := by
  rintro ⟨a, b⟩ s
  have hopen : skipSpace ((object [(keys.1, write a), (keys.2, write b)]).compact ++ s) =
      '\x7b' :: (writeString keys.1 ++ ':' :: ((write a).compact ++ ',' :: (writeString keys.2 ++
        ':' :: ((write b).compact ++ '\x7d' :: s)))) := by
    rw [compact, List.cons_append, List.cons_append, skipSpace_cons (by decide)]
    simp [compactFields]
  have hfst := fieldsRest_first (b := none) (keyAt_written true keys.1 _) (h.afterColon_run a
    (',' :: (writeString keys.2 ++ ':' :: ((write b).compact ++ '\x7d' :: s))))
  have hsnd := fieldsRest_second hkeys (a := some a) (keyAt_written false keys.2 _)
    (h.afterColon_run b ('\x7d' :: s))
  simp only [Reader.pair, hopen]
  exact hfst.trans (hsnd.trans (fieldsRest_end _ _ _ (skipSpace_cons (by decide) s)))

end

end Json

end StageGraph
