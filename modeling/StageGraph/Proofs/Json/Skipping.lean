import Mathlib.Tactic
import StageGraph.Proofs.Json.Scanning

set_option autoImplicit false

/-! # What is skipped is a value

A value that nobody reads is passed over with a stack of the containers that are still open. Each
step of this is one production of the grammar (`skipThrough_scalar` to `skipThrough_comma`), so a
value is passed over whatever containers are open around it (`Wellformed.skipped`). Back from a run
that succeeds, the stack says what has still been found behind the value (`Closes`).
-/

namespace StageGraph.Json

/-! ## Scalars -/

theorem literalRest?_eq_some {c : Char} {word : Text} :
    literalRest? c = some word ↔ c :: word ∈ words := by
  constructor
  · intro h
    unfold literalRest? at h
    split_ifs at h with hn ht hf
    all_goals
      subst c
      cases h
      decide
  · intro h
    simp only [words, List.mem_cons, List.not_mem_nil, or_false] at h
    rcases h with h | h | h <;> cases h <;> rfl

theorem scalar_of_skipScalar {c : Char} {s r : Text} (h : skipScalar c s = .ok r) :
    Scalar (c :: s) r := by
  unfold skipScalar at h
  split_ifs at h with hquote hnumeral
  · obtain ⟨⟨us, r'⟩, hrun, hrest⟩ := map_eq_ok.1 h
    cases hrest
    exact .string (hquote ▸ run_skippedString_iff.1 ⟨us, hrun⟩)
  · unfold skipNumeral at h
    split at h
    · cases h
    · next hscan =>
      cases h
      exact .number (number_of_scanNumeral hscan)
  · split at h
    · next word hword =>
      rw [literal_eq_ok.1 h]
      exact .word (literalRest?_eq_some.1 hword)
    · cases h

/-- The character begins a value: it is no white space, and neither ends a container. -/
structure BeginsValue (c : Char) : Prop where
  not_space : isSpace c = false
  not_closing : ∀ container : Container, c ≠ container.closing

instance : DecidablePred BeginsValue := fun c =>
  decidable_of_iff (isSpace c = false ∧ c ≠ ']' ∧ c ≠ '\x7d')
    ⟨fun h => ⟨h.1, fun container => by cases container <;> simp [Container.closing, h.2]⟩,
      fun h => ⟨h.1, h.2 .array, h.2 .object⟩⟩

theorem ne_of_startsNumeral {c d : Char} (h : startsNumeral c = true)
    (hd : startsNumeral d = false) : c ≠ d := by
  rintro rfl
  cases h.symm.trans hd

theorem beginsValue_of_startsNumeral {c : Char} (h : startsNumeral c = true) : BeginsValue c := by
  have hne : ∀ d : Char, startsNumeral d = false → c ≠ d := fun _ => ne_of_startsNumeral h
  refine ⟨?_, fun container => ?_⟩
  · simp [isSpace, hne ' ' rfl, hne '\t' rfl, hne '\n' rfl, hne '\r' rfl]
  · cases container <;> exact hne _ rfl

theorem Number.exists_cons {s r : Text} (h : Number s r) :
    ∃ c t, s = c :: t ∧ startsNumeral c = true := by
  obtain ⟨hminus, hinteger, -, -⟩ := h
  obtain ⟨c, t, rfl, hdigit⟩ := hinteger.exists_cons
  rcases hminus with rfl | rfl
  · exact ⟨c, t, rfl, by simp [startsNumeral, hdigit]⟩
  · exact ⟨'-', _, rfl, rfl⟩

theorem Scalar.exists_cons {s r : Text} (h : Scalar s r) : ∃ c t, s = c :: t ∧ BeginsValue c ∧
    ∀ container : Container, c ≠ container.opening := by
  cases h with
  | string h =>
    obtain ⟨h⟩ := h
    exact ⟨'"', _, rfl, by decide, fun container => by cases container <;> decide⟩
  | number h =>
    obtain ⟨c, t, rfl, hstart⟩ := h.exists_cons
    refine ⟨c, t, rfl, beginsValue_of_startsNumeral hstart, fun container => ?_⟩
    cases container <;> exact ne_of_startsNumeral hstart rfl
  | word h =>
    simp only [words, List.mem_cons, List.not_mem_nil, or_false] at h
    rcases h with rfl | rfl | rfl
    · exact ⟨'n', _, rfl, by decide, fun container => by cases container <;> decide⟩
    · exact ⟨'t', _, rfl, by decide, fun container => by cases container <;> decide⟩
    · exact ⟨'f', _, rfl, by decide, fun container => by cases container <;> decide⟩

/-- A scalar is passed over where no numeral goes on behind it. -/
theorem Scalar.skipScalar_eq {c : Char} {s r : Text} (h : Scalar (c :: s) r) (hr : Stops r) :
    skipScalar c s = .ok r := by
  generalize ht : c :: s = t at h
  cases h with
  | string h =>
    obtain ⟨h⟩ := h
    cases ht
    obtain ⟨us, hrun⟩ := run_skippedString_iff.2 (.quoted h)
    rw [skipScalar, if_pos rfl]
    exact map_eq_ok.2 ⟨_, hrun, rfl⟩
  | number h =>
    obtain ⟨d, t', rfl, hstart⟩ := h.exists_cons
    cases ht
    obtain ⟨n, hscan⟩ := exists_scanNumeral h hr
    rw [skipScalar, if_neg (ne_of_startsNumeral hstart rfl), if_pos hstart, skipNumeral, hscan]
  | word h =>
    simp only [words, List.mem_cons, List.not_mem_nil, or_false] at h
    rcases h with rfl | rfl | rfl <;> cases ht <;> exact literal_eq_ok.2 rfl

/-! ## The steps -/

/-- The place where the value of the next entry is due. -/
def enter : Container → Text → Except Fault Text
  | .array, s => .ok s
  | .object, s => skipKey s

section

variable {c : Container} {outer : List Container} {s s₁ s₂ r : Text}

theorem skipThrough_scalar {d : Char} (h : Spaces s (d :: s₁)) (hd : isSpace d = false)
    (hcontainer : ∀ container : Container, d ≠ container.opening)
    (hscalar : skipScalar d s₁ = .ok r) :
    skipThrough false outer s = skipThrough true outer r := by
  have hskip := h.skipSpace_cons hd
  rw [skipThrough]
  split
  · next hs => cases hskip.symm.trans hs
  · next hs =>
    cases hskip.symm.trans hs
    rw [if_neg (show d ≠ '[' from hcontainer .array),
      if_neg (show d ≠ '\x7b' from hcontainer .object)]
    split
    · next hs => cases hscalar.symm.trans hs
    · next hs =>
      cases hscalar.symm.trans hs
      rfl

theorem Container.isSpace_opening (c : Container) : isSpace c.opening = false := by
  cases c <;> rfl

theorem Container.isSpace_closing (c : Container) : isSpace c.closing = false := by
  cases c <;> rfl

theorem skipThrough_empty (h : Spaces s (c.opening :: s₁)) (hclose : Spaces s₁ (c.closing :: r)) :
    skipThrough false outer s = skipThrough true outer r := by
  have hskip := h.skipSpace_cons c.isSpace_opening
  have hskip' := hclose.skipSpace_cons c.isSpace_closing
  rw [skipThrough]
  split
  · next hs => cases hskip.symm.trans hs
  · next hs =>
    cases hskip.symm.trans hs
    cases c with
    | array =>
      rw [if_pos (by rfl)]
      split
      · next hs =>
        cases hskip'.symm.trans hs
        rfl
      · next hs => exact absurd hskip' (hs r)
    | object =>
      rw [if_neg (by decide), if_pos (by rfl)]
      split
      · next hs =>
        cases hskip'.symm.trans hs
        rfl
      · next hs => exact absurd hskip' (hs r)

theorem skipThrough_open (h : Spaces s (c.opening :: s₁))
    (hclose : ∀ r, skipSpace s₁ ≠ c.closing :: r) (henter : enter c s₁ = .ok r) :
    skipThrough false outer s = skipThrough false (c :: outer) r := by
  have hskip := h.skipSpace_cons c.isSpace_opening
  rw [skipThrough]
  split
  · next hs => cases hskip.symm.trans hs
  · next hs =>
    cases hskip.symm.trans hs
    cases c with
    | array =>
      cases henter
      rw [if_pos (by rfl)]
      split
      · next hs => exact absurd hs (hclose _)
      · rfl
    | object =>
      rw [if_neg (by decide), if_pos (by rfl)]
      split
      · next hs => exact absurd hs (hclose _)
      · split
        · next hs => cases henter.symm.trans hs
        · next hs =>
          cases henter.symm.trans hs
          rfl

theorem skipThrough_close (h : Spaces s (c.closing :: r)) :
    skipThrough true (c :: outer) s = skipThrough true outer r := by
  have hskip := h.skipSpace_cons c.isSpace_closing
  rw [skipThrough]
  split
  · next hs => cases hskip.symm.trans hs
  · next hs =>
    cases hskip.symm.trans hs
    rw [if_pos rfl]

theorem skipThrough_comma (h : Spaces s (',' :: s₁)) (henter : enter c s₁ = .ok r) :
    skipThrough true (c :: outer) s = skipThrough false (c :: outer) r := by
  have hskip := h.skipSpace_cons (show isSpace ',' = false from rfl)
  rw [skipThrough]
  split
  · next hs => cases hskip.symm.trans hs
  · next hs =>
    cases hskip.symm.trans hs
    cases c with
    | array =>
      cases henter
      rw [if_neg (by decide), if_pos rfl, if_pos rfl]
    | object =>
      rw [if_neg (by decide), if_pos rfl, if_neg (by decide)]
      split
      · next hs => cases henter.symm.trans hs
      · next hs =>
        cases henter.symm.trans hs
        rfl

end

/-! ## Values are skipped -/

/-- Every part but white space begins with the character of a value. -/
theorem Wellformed.exists_begins {part : Part} {s r : Text} (h : Wellformed part s r) :
    ∃ c t, Spaces s (c :: t) ∧ BeginsValue c := by
  induction h with
  | scalar h =>
    obtain ⟨c, t, rfl, hbegins, -⟩ := h.exists_cons
    exact ⟨c, t, .refl _, hbegins⟩
  | @empty c s r h => exact ⟨c.opening, s, .refl _, by cases c <;> decide⟩
  | @container c s r h ih => exact ⟨c.opening, s, .refl _, by cases c <;> decide⟩
  | item h ih => exact ih
  | field hkey hcolon hspace h ih =>
    obtain ⟨hkey⟩ := hkey
    exact ⟨'"', _, .refl _, by decide⟩
  | last hspace h hclose ih =>
    obtain ⟨c, t, hs, hbegins⟩ := ih
    exact ⟨c, t, hspace.trans hs, hbegins⟩
  | more hspace h hcomma hrest ih _ =>
    obtain ⟨c, t, hs, hbegins⟩ := ih
    exact ⟨c, t, hspace.trans hs, hbegins⟩

theorem Stops.of_spaces {c : Char} {s r : Text} (h : Spaces s (c :: r))
    (hc : c = ',' ∨ ∃ container : Container, c = container.closing) : Stops s := by
  have hend : Stops (c :: r) := by
    rintro _ ⟨⟩
    rcases hc with rfl | ⟨container, rfl⟩
    · decide
    · cases container <;> decide
  obtain ⟨w, hw, rfl⟩ := h
  cases w with
  | nil => exact hend
  | cons d w =>
    rintro _ ⟨⟩
    have hspace := hw d List.mem_cons_self
    simp only [isSpace, Bool.or_eq_true, decide_eq_true_eq] at hspace
    rcases hspace with ((rfl | rfl) | rfl) | rfl <;> decide

theorem skipKey_eq_ok {s s₁ s₂ r : Text} (hspace : Spaces s s₁) (hkey : RawLiteral s₁ s₂)
    (hcolon : Spaces s₂ (':' :: r)) : skipKey s = .ok r := by
  obtain ⟨hkey⟩ := hkey
  obtain ⟨us, hrun⟩ := run_skippedString_iff.2 (.quoted hkey)
  simp only [skipKey, hspace.skipSpace_cons (show isSpace '"' = false from rfl), if_true, hrun,
    colon, hcolon.skipSpace_cons (show isSpace ':' = false from rfl)]

/-- What it is to pass over a part, whatever containers are open around it. -/
def Skipped : Part → Text → Text → Prop
  | .value, s, r => Stops r → ∀ outer s₀, Spaces s₀ s →
      skipThrough false outer s₀ = skipThrough true outer r
  | .entry c, s, r => Stops r → ∀ outer s₀, Spaces s₀ s → ∃ s', enter c s₀ = .ok s' ∧
      skipThrough false (c :: outer) s' = skipThrough true (c :: outer) r
  | .entries c, s, r => ∀ outer, ∃ s', enter c s = .ok s' ∧
      skipThrough false (c :: outer) s' = skipThrough true outer r

/-- What is well-formed is passed over. -/
theorem Wellformed.skipped {part : Part} {s r : Text} (h : Wellformed part s r) :
    Skipped part s r := by
  induction h with
  | scalar h =>
    intro hr outer s₀ hspace
    obtain ⟨c, t, rfl, hbegins, hcontainer⟩ := h.exists_cons
    exact skipThrough_scalar hspace hbegins.not_space hcontainer (h.skipScalar_eq hr)
  | empty h => exact fun _ outer s₀ hspace => skipThrough_empty hspace h
  | @container c s r h ih =>
    intro _ outer s₀ hspace
    obtain ⟨d, t, hd, hbegins⟩ := h.exists_begins
    obtain ⟨s', henter, hskip⟩ := ih outer
    -- the container is not closed at once: the first entry is in between
    refine (skipThrough_open hspace (fun r hclose => ?_) henter).trans hskip
    rw [hd.skipSpace_cons hbegins.not_space] at hclose
    exact hbegins.not_closing c (List.cons.inj hclose).1
  | item h ih => exact fun hr outer s₀ hspace => ⟨s₀, rfl, ih hr _ s₀ hspace⟩
  | field hkey hcolon hspace' h ih =>
    exact fun hr outer s₀ hspace => ⟨_, skipKey_eq_ok hspace hkey hcolon, ih hr _ _ hspace'⟩
  | last hspace h hclose ih =>
    intro outer
    obtain ⟨s', henter, hskip⟩ := ih (.of_spaces hclose (.inr ⟨_, rfl⟩)) outer _ hspace
    exact ⟨s', henter, hskip.trans (skipThrough_close hclose)⟩
  | more hspace h hcomma hrest ih ihrest =>
    intro outer
    obtain ⟨s', henter, hskip⟩ := ih (.of_spaces hcomma (.inl rfl)) outer _ hspace
    obtain ⟨s'', henter', hskip'⟩ := ihrest outer
    exact ⟨s', henter, hskip.trans ((skipThrough_comma hcomma henter').trans hskip')⟩

/-! ## Only values are skipped -/

/-- The rest of a container from the end of an entry on. -/
def ClosesOne (c : Container) (s r : Text) : Prop :=
  Spaces s (c.closing :: r) ∨ ∃ s', Spaces s (',' :: s') ∧ Wellformed (.entries c) s' r

/-- The rests of all open containers, the innermost one first. -/
def Closes : List Container → Text → Text → Prop
  | [], s, r => s = r
  | c :: outer, s, r => ∃ s', ClosesOne c s s' ∧ Closes outer s' r

theorem of_skipKey {s r : Text} (h : skipKey s = .ok r) :
    ∃ s₁ s₂, Spaces s s₁ ∧ RawLiteral s₁ s₂ ∧ Spaces s₂ (':' :: r) := by
  unfold skipKey at h
  split at h
  · cases h
  next c rest hskip =>
  split at h
  · next hc =>
    subst hc
    split at h
    · cases h
    next us rest' hrun =>
    unfold colon at h
    split at h
    · cases h
    next d rest'' hskip' =>
    split at h
    · next hd =>
      cases h
      exact ⟨_, rest', spaces_of_skipSpace hskip, run_skippedString_iff.1 ⟨us, hrun⟩,
        spaces_of_skipSpace (hd ▸ hskip')⟩
    · cases h
  · cases h

/-- Entries are found from where the value of the first one is due. -/
theorem Wellformed.entries_of_enter {c : Container} {s s₁ s₂ s₃ r : Text}
    (henter : enter c s = .ok s₁) (hspace : Spaces s₁ s₂) (h : Wellformed .value s₂ s₃)
    (hclose : ClosesOne c s₃ r) : Wellformed (.entries c) s r := by
  obtain ⟨s₀, hspace₀, hentry⟩ : ∃ s₀, Spaces s s₀ ∧ Wellformed (.entry c) s₀ s₃ := by
    cases c with
    | array =>
      cases henter
      exact ⟨s₂, hspace, .item h⟩
    | object =>
      obtain ⟨s₀, s', hspace₀, hkey, hcolon⟩ := of_skipKey henter
      exact ⟨s₀, hspace₀, .field hkey hcolon hspace h⟩
  rcases hclose with hclose | ⟨s', hcomma, hrest⟩
  · exact .last hspace₀ hentry hclose
  · exact .more hspace₀ hentry hcomma hrest

/-- What is found from where a value is due, when containers are open around it. -/
def ValueCloses (outer : List Container) (s r : Text) : Prop :=
  ∃ s₁ s₂, Spaces s s₁ ∧ Wellformed .value s₁ s₂ ∧ Closes outer s₂ r

theorem entries_of_valueCloses {c : Container} {outer : List Container} {s s₁ r : Text}
    (henter : enter c s = .ok s₁) (h : ValueCloses (c :: outer) s₁ r) :
    ∃ s', Wellformed (.entries c) s s' ∧ Closes outer s' r := by
  obtain ⟨s₂, s₃, hspace, hvalue, s', hclose, hrest⟩ := h
  exact ⟨s', .entries_of_enter henter hspace hvalue hclose, hrest⟩

theorem closes_of_comma {c : Container} {outer : List Container} {s s₁ s₂ r : Text}
    (hcomma : skipSpace s = ',' :: s₁) (henter : enter c s₁ = .ok s₂)
    (h : ValueCloses (c :: outer) s₂ r) : Closes (c :: outer) s r := by
  obtain ⟨s', hentries, hrest⟩ := entries_of_valueCloses henter h
  exact ⟨s', .inr ⟨s₁, spaces_of_skipSpace hcomma, hentries⟩, hrest⟩

theorem valueCloses_of_open {c : Container} {outer : List Container} {s s₁ s₂ r : Text}
    (hopen : skipSpace s = c.opening :: s₁) (henter : enter c s₁ = .ok s₂)
    (h : ValueCloses (c :: outer) s₂ r) : ValueCloses outer s r := by
  obtain ⟨s', hentries, hrest⟩ := entries_of_valueCloses henter h
  exact ⟨_, s', spaces_of_skipSpace hopen, .container hentries, hrest⟩

/-- What is passed over is a value with the rests of the open containers, or these rests alone. -/
theorem closes_of_skipThrough {ended : Bool} {outer : List Container} {s r : Text}
    (h : skipThrough ended outer s = .ok r) :
    if ended then Closes outer s r else ValueCloses outer s r := by
  have hempty : ∀ {c : Container} {outer : List Container} {s s₁ s₂ : Text},
      skipSpace s = c.opening :: s₁ → skipSpace s₁ = c.closing :: s₂ → Closes outer s₂ r →
      ValueCloses outer s r := fun hopen hclose hrest =>
    ⟨_, _, spaces_of_skipSpace hopen, .empty (spaces_of_skipSpace hclose), hrest⟩
  fun_induction skipThrough ended outer s with
  | case1 => exact Except.ok.inj h
  | case2 | case5 | case7 | case8 | case12 | case14 => cases h
  | case3 s container outer rest hskip ih =>
    exact ⟨rest, .inl (spaces_of_skipSpace hskip), ih h⟩
  | case4 s outer rest hskip _ ih => exact closes_of_comma hskip rfl (ih h)
  | case6 s container outer rest hobject rest' hkey hskip _ ih =>
    -- only in an object a key is read behind the comma
    have hcontainer : container = .object := by
      cases container with
      | array => exact absurd rfl hobject
      | object => rfl
    subst hcontainer
    exact closes_of_comma hskip hkey (ih h)
  | case9 s outer rest rest' hclose hskip ih => exact hempty (c := .array) hskip hclose (ih h)
  | case10 s outer rest _ hskip ih =>
    exact valueCloses_of_open (c := .array) hskip rfl (ih h)
  | case11 s outer rest rest' hclose hskip _ ih =>
    exact hempty (c := .object) hskip hclose (ih h)
  | case13 s outer rest rest' hkey _ hskip _ ih =>
    exact valueCloses_of_open (c := .object) hskip hkey (ih h)
  | case15 s outer c rest hskip _ _ rest' hscalar ih =>
    exact ⟨_, rest', spaces_of_skipSpace hskip, .scalar (scalar_of_skipScalar hscalar), ih h⟩

theorem wellformed_of_skip {s r : Text} (h : Reader.skip.run s = .ok ((), r)) :
    ∃ s', Spaces s s' ∧ Wellformed .value s' r := by
  obtain ⟨r', hskip, hrest⟩ := map_eq_ok.1 h
  cases hrest
  obtain ⟨s₁, s₂, hspace, hvalue, hclose⟩ := closes_of_skipThrough hskip
  exact ⟨s₁, hspace, hclose ▸ hvalue⟩

theorem Wellformed.run_skip {s s' r : Text} (h : Wellformed .value s' r) (hspace : Spaces s s')
    (hr : Stops r) : Reader.skip.run s = .ok ((), r) := by
  have hskip : skipValue s = .ok r := by
    rw [skipValue, h.skipped hr [] s hspace, skipThrough]
  exact map_eq_ok.2 ⟨r, hskip, rfl⟩

end StageGraph.Json
