import Mathlib.Tactic
import StageGraph.Proofs.Plain.Reading

set_option autoImplicit false

/-! # Where a list of terms is divided

Separators are told by their place: they stand at the odd places of a list. A list is refused if it
starts or ends with a separator, or if something else than a comma stands at an odd place in front
of the first arrow at such a place (`Dangling`, `Misjoined`). All others are divided at that arrow
(`Division.SplitsAt`), behind which there is always something left.
-/

namespace StageGraph

/-- What the term at this place says. -/
def textAt (terms : List Span) (i : Nat) : Option Text := terms[i]?.map Span.text

/-- The list starts or ends with a separator. -/
def Dangling (terms : List Span) : Prop :=
  ∃ s, (terms.head? = some s ∨ terms.getLast? = some s) ∧ isSeparator s.text = true

/-- Something else than a comma stands at an odd place, and no arrow at an odd place up to there. -/
def Misjoined (terms : List Span) : Prop :=
  ∃ k x, textAt terms (2 * k + 1) = some x ∧ x ≠ Mark.comma.text ∧
    ∀ j ≤ k, textAt terms (2 * j + 1) ≠ some Mark.arrow.text

namespace Division

/-- The texts of the list that was divided: those of the first stage with commas between them, then
an arrow and the stages behind it, if there are any. -/
def rejoined (d : Division) : List Text :=
  (d.head.map Span.text).intersperse Mark.comma.text ++
    d.tail.elim [] fun tail => Mark.arrow.text :: tail.map Span.text

/-- The first stage takes the places 0, 2, …, 2m of the list, with commas between them. Either an
arrow follows and then the stages behind it, or nothing follows. -/
structure SplitsAt (d : Division) (terms : List Span) (m : Nat) : Prop where
  length_head : d.head.length = m + 1
  head : ∀ i ≤ m, d.head[i]? = terms[2 * i]?
  commas : ∀ i < m, textAt terms (2 * i + 1) = some Mark.comma.text
  tail : (d.tailIndex terms.length = some (2 * m + 2) ∧ d.tail = some (terms.drop (2 * m + 2)) ∧
      textAt terms (2 * m + 1) = some Mark.arrow.text ∧ 2 * m + 2 < terms.length) ∨
    (d.tailIndex terms.length = none ∧ d.tail = none ∧ terms.length = 2 * m + 1)
  rejoined : d.rejoined = terms.map Span.text

end Division

section

variable {term separator : Span} {rest terms whole : List Span}

theorem textAt_one : textAt (term :: separator :: rest) 1 = some separator.text := rfl

theorem textAt_later (i : Nat) :
    textAt (term :: separator :: rest) (2 * (i + 1) + 1) = textAt rest (2 * i + 1) := rfl

/-- A first term and separator are joined well if the separator is the arrow, or if it is a comma
and the rest is. -/
theorem misjoined_cons_iff : Misjoined (term :: separator :: rest) ↔
    separator.text ≠ Mark.arrow.text ∧ (separator.text ≠ Mark.comma.text ∨ Misjoined rest) := by
  constructor
  · rintro ⟨k, x, hx, hne, hnone⟩
    have hfirst : separator.text ≠ Mark.arrow.text := by simpa [textAt_one] using hnone 0 (by omega)
    refine ⟨hfirst, ?_⟩
    cases k with
    | zero =>
      cases hx
      exact .inl hne
    | succ k =>
      rw [textAt_later] at hx
      refine .inr ⟨k, x, hx, hne, fun j hj => ?_⟩
      rw [← textAt_later]
      exact hnone (j + 1) (by omega)
  · rintro ⟨hfirst, hcomma | ⟨k, x, hx, hne, hnone⟩⟩
    · refine ⟨0, _, textAt_one, hcomma, fun j hj => ?_⟩
      obtain rfl : j = 0 := by omega
      simpa [textAt_one] using hfirst
    · refine ⟨k + 1, x, (textAt_later k).trans hx, hne, fun j hj => ?_⟩
      cases j with
      | zero => simpa [textAt_one] using hfirst
      | succ j =>
        rw [textAt_later]
        exact hnone j (by omega)

theorem not_misjoined_of_length_le (h : terms.length ≤ 1) : ¬ Misjoined terms := by
  rintro ⟨k, x, hx, -⟩
  rw [textAt, List.getElem?_eq_none (by omega)] at hx
  cases hx

theorem divideFrom_error_iff (whole terms : List Span) :
    (∃ failure, divideFrom whole terms = .error failure) ↔ Misjoined terms := by
  fun_induction divideFrom whole terms with
  | case1 => exact iff_of_false (by simp) (not_misjoined_of_length_le (by simp))
  | case2 => exact iff_of_false (by simp) (not_misjoined_of_length_le (by simp))
  | case3 term separator rest harrow =>
    rw [misjoined_cons_iff]
    exact iff_of_false (by simp) fun h => h.1 harrow
  | case4 term separator rest harrow hcomma ih =>
    rw [misjoined_cons_iff, and_iff_right harrow, ← ih]
    cases divideFrom whole rest with
    | error failure => simp [Except.map]
    | ok d => simp [Except.map, hcomma]
  | case5 term separator rest harrow hcomma =>
    rw [misjoined_cons_iff]
    exact iff_of_true ⟨_, rfl⟩ ⟨harrow, .inl hcomma⟩

/-! ## The parts -/

theorem Division.SplitsAt.single : Division.SplitsAt ⟨[term], none⟩ [term] 0 where
  length_head := rfl
  head i hi := by
    obtain rfl : i = 0 := by omega
    rfl
  commas i hi := by omega
  tail := .inr ⟨rfl, rfl, rfl⟩
  rejoined := rfl

theorem Division.SplitsAt.arrow (harrow : separator.text = Mark.arrow.text) (hne : rest ≠ []) :
    Division.SplitsAt ⟨[term], some rest⟩ (term :: separator :: rest) 0 where
  length_head := rfl
  head i hi := by
    obtain rfl : i = 0 := by omega
    rfl
  commas i hi := by omega
  tail := by
    have := List.length_pos_of_ne_nil hne
    refine .inl ⟨?_, rfl, congrArg some harrow, ?_⟩
    · simp only [tailIndex, Option.map_some, List.length_cons, Option.some.injEq]
      omega
    · simp only [List.length_cons]
      omega
  rejoined := by simp [Division.rejoined, harrow]

theorem Division.SplitsAt.comma {d : Division} {m : Nat} (h : d.SplitsAt rest m)
    (hcomma : separator.text = Mark.comma.text) :
    Division.SplitsAt ⟨term :: d.head, d.tail⟩ (term :: separator :: rest) (m + 1) where
  length_head := congrArg (· + 1) h.length_head
  head i hi := by
    cases i with
    | zero => rfl
    | succ i => exact h.head i (by omega)
  commas i hi := by
    cases i with
    | zero => exact congrArg some hcomma
    | succ i => exact h.commas i (by omega)
  tail := by
    rcases h.tail with ⟨hindex, htail, harrow, hlength⟩ | ⟨hindex, htail, hlength⟩
    · refine .inl ⟨?_, htail, harrow, ?_⟩
      · rw [tailIndex, htail, Option.map_some] at hindex ⊢
        simp only [Option.some.injEq, List.length_drop, List.length_cons] at hindex ⊢
        omega
      · simp only [List.length_cons]
        omega
    · refine .inr ⟨?_, htail, ?_⟩
      · rw [tailIndex, htail]
        rfl
      · simp only [List.length_cons]
        omega
  rejoined := by
    obtain ⟨first, others, hhead⟩ := List.exists_cons_of_ne_nil
      (List.ne_nil_of_length_eq_add_one h.length_head)
    have hrest := h.rejoined
    simp only [Division.rejoined, hhead, List.map_cons, List.intersperse_cons_cons,
      List.cons_append, hcomma] at hrest ⊢
    rw [hrest]

/-- What is divided and does not end with a separator is split. -/
theorem exists_splitsAt {d : Division} (h : divideFrom whole terms = .ok d) (hne : terms ≠ [])
    (hlast : ∀ s, terms.getLast? = some s → isSeparator s.text = false) :
    ∃ m, d.SplitsAt terms m := by
  fun_induction divideFrom whole terms generalizing d with
  | case1 => exact absurd rfl hne
  | case2 term =>
    cases h
    exact ⟨0, .single⟩
  | case3 term separator rest harrow =>
    cases h
    have hrest : rest ≠ [] := by
      rintro rfl
      have hsep := hlast separator rfl
      simp [isSeparator, harrow] at hsep
    exact ⟨0, .arrow harrow hrest⟩
  | case4 term separator rest _ hcomma ih =>
    cases hd : divideFrom whole rest with
    | error failure => rw [hd] at h; cases h
    | ok d' =>
      rw [hd] at h
      cases h
      cases rest with
      | nil =>
        have hsep := hlast separator rfl
        simp [isSeparator, hcomma] at hsep
      | cons first others =>
        obtain ⟨m, hm⟩ := ih hd (List.cons_ne_nil _ _) hlast
        exact ⟨m + 1, hm.comma hcomma⟩
  | case5 => cases h

/-! ## The whole list -/

theorem dangling_iff {first last : Span} (hfirst : terms.head? = some first)
    (hlast : terms.getLast? = some last) :
    Dangling terms ↔ (isSeparator first.text || isSeparator last.text) = true := by
  rw [Dangling, hfirst, hlast, Bool.or_eq_true]
  constructor
  · rintro ⟨s, hs | hs, hsep⟩
    · cases hs
      exact .inl hsep
    · cases hs
      exact .inr hsep
  · rintro (hsep | hsep)
    · exact ⟨first, .inl rfl, hsep⟩
    · exact ⟨last, .inr rfl, hsep⟩

theorem not_dangling_nil : ¬ Dangling [] := by
  rintro ⟨s, hs | hs, -⟩
  · cases hs
  · cases hs

theorem divide_eq_none_iff : divide terms = .ok none ↔ terms = [] := by
  constructor
  · intro h
    by_contra hne
    rw [divide_eq (List.head?_eq_some_head hne) (List.getLast?_eq_some_getLast hne)] at h
    split at h
    · cases h
    · cases hd : divideFrom terms terms with
      | error failure => rw [hd] at h; cases h
      | ok d => rw [hd] at h; cases h
  · rintro rfl
    rfl

theorem divide_error_iff :
    (∃ failure, divide terms = .error failure) ↔ Dangling terms ∨ Misjoined terms := by
  by_cases hne : terms = []
  · rw [hne]
    exact iff_of_false nofun
      (not_or.2 ⟨not_dangling_nil, not_misjoined_of_length_le (Nat.zero_le _)⟩)
  have hfirst := List.head?_eq_some_head hne
  have hlast := List.getLast?_eq_some_getLast hne
  rw [divide_eq hfirst hlast, dangling_iff hfirst hlast, ← divideFrom_error_iff terms]
  by_cases hends : (isSeparator (terms.head hne).text ||
      isSeparator (terms.getLast hne).text) = true
  · rw [if_pos hends]
    exact iff_of_true ⟨_, rfl⟩ (.inl hends)
  rw [if_neg hends, or_iff_right hends]
  cases divideFrom terms terms with
  | error failure => exact iff_of_true ⟨_, rfl⟩ ⟨_, rfl⟩
  | ok d => exact iff_of_false nofun nofun

theorem splitsAt_of_divide {d : Division} (h : divide terms = .ok (some d)) :
    ∃ m, d.SplitsAt terms m := by
  have hne : terms ≠ [] := by
    rintro rfl
    cases h
  have hlast := List.getLast?_eq_some_getLast hne
  rw [divide_eq (List.head?_eq_some_head hne) hlast] at h
  split at h
  · cases h
  next hends =>
    rw [Bool.not_eq_true, Bool.or_eq_false_iff] at hends
    cases hd : divideFrom terms terms with
    | error failure => rw [hd] at h; cases h
    | ok d' =>
      rw [hd] at h
      cases h
      refine exists_splitsAt hd hne fun s hs => ?_
      cases hlast.symm.trans hs
      exact hends.2

end

/-- A list of terms comes to nothing exactly if it is empty. It is refused exactly if it starts or
ends with a separator, or has something else than a comma at an odd place in front of the first
arrow at such a place. Any other list is split at that arrow, or is a single stage if there is
none. -/
theorem divide_splits (terms : List Span) :
    (divide terms = .ok none ↔ terms = []) ∧
    ((∃ failure, divide terms = .error failure) ↔ Dangling terms ∨ Misjoined terms) ∧
    (terms ≠ [] → ¬ (Dangling terms ∨ Misjoined terms) →
      ∃ d m, divide terms = .ok (some d) ∧ d.SplitsAt terms m) := by
  refine ⟨divide_eq_none_iff, divide_error_iff, fun hne hfine => ?_⟩
  cases hd : divide terms with
  | error failure => exact absurd (divide_error_iff.1 ⟨failure, hd⟩) hfine
  | ok result =>
    cases result with
    | none => exact absurd (divide_eq_none_iff.1 hd) hne
    | some d =>
      obtain ⟨m, hm⟩ := splitsAt_of_divide hd
      exact ⟨d, m, rfl, hm⟩

/-- The terms of `A,(B->C)->D`. Only the arrow between its stages is at an odd place. -/
def twoStages : List Span :=
  [⟨1, ['A']⟩, ⟨2, Mark.comma.text⟩, ⟨3, "(B->C)".toList⟩, SpanStore.arrow, ⟨4, ['D']⟩]

theorem divide_splits_two_stages : twoStages ≠ [] ∧ ¬ (Dangling twoStages ∨ Misjoined twoStages) ∧
    ∃ d, divide twoStages = .ok (some d) ∧ d.SplitsAt twoStages 1 := by
  have hdivide : divide twoStages =
      .ok (some ⟨[⟨1, ['A']⟩, ⟨3, "(B->C)".toList⟩], some [⟨4, ['D']⟩]⟩) := rfl
  have hne : twoStages ≠ [] := List.cons_ne_nil _ _
  have hfine : ¬ (Dangling twoStages ∨ Misjoined twoStages) := by
    rw [← (divide_splits twoStages).2.1, hdivide]
    rintro ⟨failure, hfailure⟩
    cases hfailure
  obtain ⟨d, m, hd, hm⟩ := (divide_splits twoStages).2.2 hne hfine
  cases hdivide.symm.trans hd
  obtain rfl : 1 = m := Nat.succ.inj hm.length_head
  exact ⟨hne, hfine, _, hdivide, hm⟩

end StageGraph
