import Mathlib.Data.List.TakeWhile
import Mathlib.Tactic
import StageGraph.Proofs.Json.Grammar
import StageGraph.Proofs.Json.RoundTrip

set_option autoImplicit false

/-! # The scanners follow the grammar

White space, escapes, strings and numerals are scanned exactly as the grammar has them. A numeral
ends where the scanner finds nothing more to add to it, so it is found in front of such a place
only (`Stops`), and every place behind a value is one.
-/

namespace StageGraph.Json

/-! ## White space -/

theorem spaces_skipSpace (s : Text) : Spaces s (skipSpace s) :=
  ⟨s.takeWhile isSpace, fun _ hc => List.mem_takeWhile_imp hc,
    List.takeWhile_append_dropWhile.symm⟩

theorem Spaces.skipSpace_eq {s r : Text} (h : Spaces s r) : skipSpace s = skipSpace r := by
  obtain ⟨w, hw, rfl⟩ := h
  exact List.dropWhile_append_of_pos hw

theorem Spaces.skipSpace_cons {c : Char} {s r : Text} (h : Spaces s (c :: r))
    (hc : isSpace c = false) : skipSpace s = c :: r :=
  h.skipSpace_eq.trans (Json.skipSpace_cons hc r)

theorem spaces_of_skipSpace {s r : Text} (h : skipSpace s = r) : Spaces s r :=
  h ▸ spaces_skipSpace s

theorem Spaces.refl (s : Text) : Spaces s s := ⟨[], by simp, rfl⟩

theorem Spaces.trans {s r u : Text} (h : Spaces s r) (h' : Spaces r u) : Spaces s u := by
  obtain ⟨w, hw, rfl⟩ := h
  obtain ⟨v, hv, rfl⟩ := h'
  refine ⟨w ++ v, fun c hc => ?_, by simp⟩
  exact (List.mem_append.1 hc).elim (hw c) (hv c)

/-! ## Escapes -/

theorem simpleEscape?_eq_some {c d : Char} : simpleEscape? c = some d ↔ (c, d) ∈ shortEscapes := by
  constructor
  · intro h
    unfold simpleEscape? at h
    split_ifs at h with hsame hb hf hn hr ht
    · rcases hsame with rfl | rfl | rfl <;> cases h <;> decide
    all_goals
      subst c
      cases h
      decide
  · have htable : ∀ p ∈ shortEscapes, simpleEscape? p.1 = some p.2 := by decide
    exact htable (c, d)

/-- Digits that follow each other have values that follow each other. -/
theorem mem_hexDigits_of_range {c first last : Char} {value : Nat} (hc : first ≤ c ∧ c ≤ last)
    (htable : ∀ k ≤ last.toNat - first.toNat,
      (Char.ofNat (first.toNat + k), k + value) ∈ hexDigits) :
    (c, c.toNat - first.toNat + value) ∈ hexDigits := by
  have hfirst : first.toNat ≤ c.toNat := hc.1
  have hlast : c.toNat ≤ last.toNat := hc.2
  have hmem := htable (c.toNat - first.toNat) (by omega)
  rwa [Nat.add_sub_cancel' hfirst, Char.ofNat_toNat] at hmem

theorem hexValue?_eq_some {c : Char} {n : Nat} : hexValue? c = some n ↔ (c, n) ∈ hexDigits := by
  constructor
  · intro h
    unfold hexValue? at h
    split_ifs at h with hdigit hlower hupper <;> cases h
    · exact @mem_hexDigits_of_range c '0' '9' 0 hdigit (by decide)
    · exact mem_hexDigits_of_range hlower (by decide)
    · exact mem_hexDigits_of_range hupper (by decide)
  · have htable : ∀ p ∈ hexDigits, hexValue? p.1 = some p.2 := by decide
    exact htable (c, n)

theorem hexValue4?_eq_some {a b c d : Char} {n : Nat} : hexValue4? a b c d = some n ↔
    ∃ i j k l, (a, i) ∈ hexDigits ∧ (b, j) ∈ hexDigits ∧ (c, k) ∈ hexDigits ∧
      (d, l) ∈ hexDigits ∧ 4096 * i + 256 * j + 16 * k + l = n := by
  have hsum : ∀ i j k l : Nat,
      4096 * i + 256 * j + 16 * k + l = ((i * 16 + j) * 16 + k) * 16 + l := by
    intro i j k l
    ring
  simp [hexValue4?, Option.bind_eq_some_iff, hexValue?_eq_some, hsum, ← exists_and_left]

theorem codeUnit_eq_ok {n : Nat} {s r : Text} : codeUnit s = .ok (n, r) ↔ CodeUnit n s r := by
  constructor
  · intro h
    unfold codeUnit at h
    split at h
    · split at h
      · next hvalue =>
        cases h
        obtain ⟨i, j, k, l, ha, hb, hc, hd, rfl⟩ := hexValue4?_eq_some.1 hvalue
        exact .digits ha hb hc hd
      · cases h
    · split at h <;> cases h
  · rintro ⟨ha, hb, hc, hd⟩
    rw [codeUnit, hexValue4?_eq_some.2 ⟨_, _, _, _, ha, hb, hc, hd, rfl⟩]

theorem CodeUnit.lt {n : Nat} {s r : Text} (h : CodeUnit n s r) : n < 0x10000 := by
  have htable : ∀ p ∈ hexDigits, p.2 < 16 := by decide
  obtain ⟨ha, hb, hc, hd⟩ := h
  have := htable _ ha
  have := htable _ hb
  have := htable _ hc
  have := htable _ hd
  simp only at *
  omega

theorem toNat_ofNat {n : Nat} (h : n.isValidChar) : (Char.ofNat n).toNat = n := by
  rw [Char.ofNat, dif_pos h]
  rfl

theorem lowHalf_eq_ok {n : Nat} {s r : Text} : lowHalf s = .ok (n, r) ↔
    ∃ s', s = '\\' :: 'u' :: s' ∧ CodeUnit n s' r ∧ 0xDC00 ≤ n ∧ n ≤ 0xDFFF := by
  constructor
  · intro h
    unfold lowHalf at h
    split at h
    · cases h
    · cases h
    · next s' =>
      split at h
      · cases h
      · next hunit =>
        split at h
        · next hlow =>
          cases h
          exact ⟨s', rfl, codeUnit_eq_ok.1 hunit, by simpa [isLowHalf] using hlow⟩
        · cases h
    · cases h
  · rintro ⟨s', rfl, hunit, hlow⟩
    have hhalf : isLowHalf n = true := by simpa [isLowHalf] using hlow
    rw [lowHalf, codeUnit_eq_ok.2 hunit]
    simp only [hhalf, if_true]

theorem not_mem_shortEscapes (d : Char) : ('u', d) ∉ shortEscapes := by
  simp [shortEscapes]

theorem codePoint_eq_ok {d : Char} {s r : Text} :
    codePoint s = .ok (d, r) ↔ Escape d ('u' :: s) r := by
  constructor
  · intro h
    unfold codePoint at h
    split at h
    · cases h
    next n rest hunit =>
    have hunit := codeUnit_eq_ok.1 hunit
    split_ifs at h with hlow hhigh
    · split at h
      · cases h
      next low rest' hlow' =>
      obtain ⟨s', rfl, hunit', hrange⟩ := lowHalf_eq_ok.1 hlow'
      have hhigh : 0xD800 ≤ n ∧ n ≤ 0xDBFF := by simpa [isHighHalf] using hhigh
      obtain ⟨rfl, rfl⟩ := Prod.mk.inj (Except.ok.inj h)
      refine .pair hhigh hrange ?_ hunit hunit'
      rw [joinHalves, toNat_ofNat (by unfold Nat.isValidChar; omega)]
      omega
    · obtain ⟨rfl, rfl⟩ := Prod.mk.inj (Except.ok.inj h)
      -- a number of four digits that is neither half is the number of a character
      have hlt := hunit.lt
      simp only [isLowHalf, isHighHalf, Bool.and_eq_true, decide_eq_true_eq] at hlow hhigh
      have hvalue : (Char.ofNat n).toNat = n := toNat_ofNat (by unfold Nat.isValidChar; omega)
      exact .unit (hvalue.symm ▸ hunit)
  · intro h
    cases h with
    | short h => exact absurd h (not_mem_shortEscapes _)
    | unit h =>
      have hvalid : d.toNat < 0xD800 ∨ 0xDFFF < d.toNat ∧ d.toNat < 0x110000 := d.valid
      have hlow : isLowHalf d.toNat = false := by
        simp only [isLowHalf, Bool.and_eq_false_iff, decide_eq_false_iff_not]
        omega
      have hhigh : isHighHalf d.toNat = false := by
        simp only [isHighHalf, Bool.and_eq_false_iff, decide_eq_false_iff_not]
        omega
      simp only [codePoint, codeUnit_eq_ok.2 h, hlow, hhigh, Bool.false_eq_true, if_false,
        Char.ofNat_toNat]
    | @pair _ high low _ s' _ hhigh hlow hd h h' =>
      have hnot : isLowHalf high = false := by
        simp only [isLowHalf, Bool.and_eq_false_iff, decide_eq_false_iff_not]
        omega
      have hhalf : isHighHalf high = true := by simpa [isHighHalf] using hhigh
      have hrest : lowHalf ('\\' :: 'u' :: s') = .ok (low, r) :=
        lowHalf_eq_ok.2 ⟨s', rfl, h', hlow⟩
      have hjoin : joinHalves high low = d := by
        refine Char.toNat_inj.1 ?_
        rw [joinHalves, toNat_ofNat (by unfold Nat.isValidChar; omega)]
        omega
      simp only [codePoint, codeUnit_eq_ok.2 h, hnot, hhalf, hrest, hjoin, Bool.false_eq_true,
        if_false, if_true]

/-- What is read behind a backslash is one of two characters or has a number in it. -/
theorem escape_eq_ok {α : Type} {unicode : Text → Except Fault (α × Text)} {simple : Char → α}
    {a : α} {s r : Text} : escape unicode simple s = .ok (a, r) ↔
      (∃ s', s = 'u' :: s' ∧ unicode s' = .ok (a, r)) ∨
      ∃ c d, s = c :: r ∧ (c, d) ∈ shortEscapes ∧ simple d = a := by
  constructor
  · intro h
    unfold escape at h
    split at h
    · cases h
    next c rest =>
    split at h
    · next hc =>
      exact .inl ⟨rest, by rw [hc], h⟩
    · split at h
      · next d hd =>
        cases h
        exact .inr ⟨c, d, rfl, simpleEscape?_eq_some.1 hd, rfl⟩
      · cases h
  · rintro (⟨s', rfl, h⟩ | ⟨c, d, rfl, hd, rfl⟩)
    · rw [escape, if_pos rfl, h]
    · have hu : c ≠ 'u' := by
        rintro rfl
        exact not_mem_shortEscapes d hd
      simp only [escape, if_neg hu, simpleEscape?_eq_some.2 hd]

theorem run_spelledEscape {d : Char} {s r : Text} :
    spelledEscape.run s = .ok (d, r) ↔ Escape d s r := by
  show escape codePoint id s = _ ↔ _
  rw [escape_eq_ok]
  constructor
  · rintro (⟨s', rfl, h⟩ | ⟨c, d, rfl, hd, rfl⟩)
    · exact codePoint_eq_ok.1 h
    · exact .short hd
  · intro h
    cases h with
    | short h => exact .inr ⟨_, d, rfl, h, rfl⟩
    | unit h => exact .inl ⟨_, rfl, codePoint_eq_ok.2 (.unit h)⟩
    | pair hhigh hlow hd h h' => exact .inl ⟨_, rfl, codePoint_eq_ok.2 (.pair hhigh hlow hd h h')⟩

theorem run_skippedEscape {u : Unit} {s r : Text} :
    skippedEscape.run s = .ok (u, r) ↔ RawEscape u s r := by
  show escape _ _ s = _ ↔ _
  rw [escape_eq_ok]
  constructor
  · rintro (⟨s', rfl, h⟩ | ⟨c, d, rfl, hd, rfl⟩)
    · obtain ⟨⟨n, _⟩, h, hrest⟩ := map_eq_ok.1 h
      cases hrest
      exact .unit (codeUnit_eq_ok.1 h)
    · exact .short hd
  · intro h
    cases h with
    | short h => exact .inr ⟨_, _, rfl, h, rfl⟩
    | unit h => exact .inl ⟨_, rfl, map_eq_ok.2 ⟨_, codeUnit_eq_ok.2 h, rfl⟩⟩

/-! ## Strings -/

/-- Strings are scanned exactly if their escapes are. -/
theorem stringRest_eq_ok {α : Type} {reader : Reader α} {plain : Char → α}
    {Escape : α → Text → Text → Prop}
    (hescape : ∀ {a s r}, reader.run s = .ok (a, r) ↔ Escape a s r) {as : List α} {s r : Text} :
    stringRest reader plain s = .ok (as, r) ↔ Body Escape plain as s r := by
  constructor
  · intro h
    fun_induction stringRest reader plain s generalizing as r with
    | case1 | case3 | case5 => cases h
    | case2 =>
      cases h
      exact .close
    | case4 rest a rest' ha _ ih =>
      obtain ⟨⟨as, r⟩, hrest, hfound⟩ := map_eq_ok.1 h
      cases hfound
      exact .escape (hescape.1 ha) (ih hrest)
    | case6 c rest hquote hslash hcontrol ih =>
      obtain ⟨⟨as, r⟩, hrest, hfound⟩ := map_eq_ok.1 h
      cases hfound
      exact .plain hquote hslash (by omega) (ih hrest)
  · intro h
    induction h with
    | close => rw [stringRest, if_pos rfl]
    | plain hquote hslash hcontrol _ ih =>
      rw [stringRest, if_neg hquote, if_neg hslash, if_neg (by omega), ih]
      rfl
    | escape ha _ ih => exact (stringRest_backslash (hescape.2 ha)).trans (by rw [ih]; rfl)

theorem run_spelledString_iff {t s r : Text} :
    spelledString.run s = .ok (t, r) ↔ Literal t ('"' :: s) r := by
  constructor
  · intro h
    exact .quoted ((stringRest_eq_ok run_spelledEscape).1 h)
  · rintro ⟨h⟩
    exact (stringRest_eq_ok run_spelledEscape).2 h

theorem run_skippedString_iff {s r : Text} :
    (∃ us, skippedString.run s = .ok (us, r)) ↔ RawLiteral ('"' :: s) r := by
  constructor
  · rintro ⟨us, h⟩
    exact .quoted ((stringRest_eq_ok run_skippedEscape).1 h)
  · rintro ⟨h⟩
    exact ⟨_, (stringRest_eq_ok run_skippedEscape).2 h⟩

/-! ## Numerals -/

/-- No numeral goes on with the text. -/
def Stops (r : Text) : Prop := ∀ c ∈ r.head?, c.isDigit = false ∧ c ≠ '.' ∧ c ≠ 'e' ∧ c ≠ 'E'

theorem digits_of_someDigits {ds s r : Text} (h : someDigits s = .ok (ds, r)) :
    ds ≠ [] ∧ (∀ c ∈ ds, c.isDigit = true) ∧ s = ds ++ r := by
  unfold someDigits spanDigits at h
  dsimp only at h
  split at h
  · cases h
  · next hne =>
    cases h
    exact ⟨hne, fun _ hc => List.mem_takeWhile_imp hc, List.takeWhile_append_dropWhile.symm⟩

theorem someDigits_append {ds r : Text} (hne : ds ≠ []) (hds : ∀ c ∈ ds, c.isDigit = true)
    (hr : ∀ c ∈ r.head?, c.isDigit = false) : someDigits (ds ++ r) = .ok (ds, r) := by
  have hspan : spanDigits (ds ++ r) = (ds, r) := by
    rw [spanDigits, List.takeWhile_append_of_pos hds, List.dropWhile_append_of_pos hds]
    cases r with
    | nil => simp
    | cons c r => simp [hr c rfl]
  simp only [someDigits, hspan, if_neg hne]

theorem integer_of_scanInteger {ds s r : Text} (h : scanInteger s = .ok (ds, r)) :
    Integer s r := by
  obtain ⟨⟨ds', r'⟩, hsome, hrest⟩ := bind_eq_ok.1 h
  obtain ⟨hne, hds, rfl⟩ := digits_of_someDigits hsome
  dsimp only at hrest
  split at hrest
  · cases hrest
  · next hzero =>
    cases hrest
    by_cases hfirst : ds.head? = some '0'
    · obtain ⟨more, rfl⟩ := List.head?_eq_some_iff.1 hfirst
      cases more with
      | nil => exact .zero
      | cons c more => exact absurd rfl (hzero c more)
    · refine .digits ⟨ds, hne, hds, rfl⟩ ?_
      rwa [List.head?_append_of_ne_nil _ hne]

theorem exists_scanInteger {s r : Text} (h : Integer s r)
    (hr : ∀ c ∈ r.head?, c.isDigit = false) : ∃ ds, scanInteger s = .ok (ds, r) := by
  cases h with
  | zero =>
    have hsome := @someDigits_append ['0'] _ (by simp) (by simp) hr
    exact ⟨['0'], bind_eq_ok.2 ⟨_, hsome, rfl⟩⟩
  | digits h hzero =>
    obtain ⟨ds, hne, hds, rfl⟩ := h
    rw [List.head?_append_of_ne_nil _ hne] at hzero
    refine ⟨ds, bind_eq_ok.2 ⟨_, someDigits_append hne hds hr, ?_⟩⟩
    dsimp only
    split
    · exact absurd rfl hzero
    · rfl

theorem fraction_of_scanFraction {ds s r : Text} (h : scanFraction s = .ok (ds, r)) :
    Fraction s r := by
  unfold scanFraction at h
  split at h
  · exact .some ⟨ds, digits_of_someDigits h⟩
  · cases h
    exact .none

theorem exists_scanFraction {s r : Text} (h : Fraction s r)
    (hr : ∀ c ∈ r.head?, c.isDigit = false ∧ c ≠ '.') : ∃ ds, scanFraction s = .ok (ds, r) := by
  cases h with
  | none =>
    refine ⟨[], ?_⟩
    unfold scanFraction
    split
    · exact absurd rfl (hr '.' rfl).2
    · rfl
  | some h =>
    obtain ⟨ds, hne, hds, rfl⟩ := h
    exact ⟨ds, someDigits_append hne hds fun c hc => (hr c hc).1⟩

theorem exponent_of_scanExponent {e : Int} {s r : Text} (h : scanExponent s = .ok (e, r)) :
    Exponent s r := by
  have hdigits : ∀ {value : Text × Text → Int} {s' : Text},
      (someDigits s').map (fun found => (value found, found.2)) = .ok (e, r) → Digits s' r := by
    intro value s' h
    obtain ⟨⟨ds, r'⟩, hsome, hfound⟩ := map_eq_ok.1 h
    cases hfound
    exact ⟨ds, digits_of_someDigits hsome⟩
  unfold scanExponent at h
  split at h
  · next c rest =>
    split at h
    · next hc =>
      split at h
      · exact .some hc .minus (hdigits h)
      · exact .some hc .plus (hdigits h)
      · exact .some hc .none (hdigits h)
    · cases h
      exact .none
  · cases h
    exact .none

theorem Digits.exists_cons {s r : Text} (h : Digits s r) :
    ∃ c t, s = c :: t ∧ c.isDigit = true := by
  obtain ⟨ds, hne, hds, rfl⟩ := h
  obtain ⟨c, more, rfl⟩ := List.exists_cons_of_ne_nil hne
  exact ⟨c, more ++ r, rfl, hds c List.mem_cons_self⟩

theorem exists_scanExponent {s r : Text} (h : Exponent s r) (hr : Stops r) :
    ∃ e, scanExponent s = .ok (e, r) := by
  cases h with
  | none =>
    refine ⟨0, ?_⟩
    unfold scanExponent
    split
    · next c rest =>
      obtain ⟨-, -, he, hE⟩ := hr c rfl
      rw [if_neg (by simp [he, hE])]
    · rfl
  | some hc hsign h =>
    obtain ⟨d, t, hd, hdigit⟩ := h.exists_cons
    obtain ⟨ds, hne, hds, rfl⟩ := h
    have hsome := someDigits_append hne hds fun c hc => (hr c hc).1
    -- without a sign the exponent begins with a digit, so it is not taken for a signed one
    unfold scanExponent
    simp only [if_pos hc]
    cases hsign with
    | plus => exact ⟨_, map_eq_ok.2 ⟨_, hsome, rfl⟩⟩
    | minus => exact ⟨_, map_eq_ok.2 ⟨_, hsome, rfl⟩⟩
    | none =>
      have hsign : d ≠ '-' ∧ d ≠ '+' := by
        constructor <;> (rintro rfl; cases hdigit)
      rw [hd] at hsome ⊢
      split
      · next h => exact absurd (List.cons.inj h).1 hsign.1
      · next h => exact absurd (List.cons.inj h).1 hsign.2
      · exact ⟨_, map_eq_ok.2 ⟨_, hsome, rfl⟩⟩

theorem number_of_scanNumeral {n : Numeral} {s r : Text} (h : scanNumeral s = .ok (n, r)) :
    Number s r := by
  have hminus : s = afterMinus s ∨ s = '-' :: afterMinus s := by
    unfold afterMinus
    split
    · exact .inr rfl
    · exact .inl rfl
  obtain ⟨⟨integer, s₂⟩, hinteger, h⟩ := bind_eq_ok.1 h
  obtain ⟨⟨fraction, s₃⟩, hfraction, h⟩ := bind_eq_ok.1 h
  obtain ⟨⟨exponent, r'⟩, hexponent, h⟩ := bind_eq_ok.1 h
  cases h
  exact .parts hminus (integer_of_scanInteger hinteger) (fraction_of_scanFraction hfraction)
    (exponent_of_scanExponent hexponent)

theorem Integer.exists_cons {s r : Text} (h : Integer s r) :
    ∃ c t, s = c :: t ∧ c.isDigit = true := by
  cases h with
  | zero => exact ⟨'0', r, rfl, rfl⟩
  | digits h _ => exact h.exists_cons

theorem exists_scanNumeral {s r : Text} (h : Number s r) (hr : Stops r) :
    ∃ n, scanNumeral s = .ok (n, r) := by
  obtain @⟨s₁, s₂, s₃, _, hminus, hinteger, hfraction, hexponent⟩ := h
  have hs₃ : ∀ c ∈ s₃.head?, c.isDigit = false ∧ c ≠ '.' := by
    cases hexponent with
    | none => exact fun c hc => ⟨(hr c hc).1, (hr c hc).2.1⟩
    | some hc =>
      rintro _ ⟨⟩
      rcases hc with rfl | rfl <;> decide
  have hs₂ : ∀ c ∈ s₂.head?, c.isDigit = false := by
    cases hfraction with
    | none => exact fun c hc => (hs₃ c hc).1
    | some _ =>
      rintro _ ⟨⟩
      rfl
  have hafter : afterMinus s = s₁ := by
    rcases hminus with rfl | rfl
    · obtain ⟨c, t, rfl, hdigit⟩ := hinteger.exists_cons
      have hc : c ≠ '-' := by
        rintro rfl
        cases hdigit
      unfold afterMinus
      split
      · next h => exact absurd (List.cons.inj h).1 hc
      · rfl
    · rfl
  obtain ⟨integer, hinteger⟩ := exists_scanInteger hinteger hs₂
  obtain ⟨fraction, hfraction⟩ := exists_scanFraction hfraction hs₃
  obtain ⟨exponent, hexponent⟩ := exists_scanExponent hexponent hr
  refine ⟨⟨integer, fraction, exponent⟩, ?_⟩
  rw [scanNumeral, hafter]
  exact bind_eq_ok.2 ⟨_, hinteger, bind_eq_ok.2 ⟨_, hfraction, bind_eq_ok.2 ⟨_, hexponent, rfl⟩⟩⟩

/-! ## Words -/

theorem literal_eq_ok {word s r : Text} : literal word s = .ok r ↔ s = word ++ r := by
  induction word generalizing s with
  | nil => simp [literal]
  | cons c word ih =>
    cases s with
    | nil => simp [literal]
    | cons d s =>
      rw [literal]
      split_ifs with hc
      · simp [ih, hc]
      · simp [Ne.symm hc]

end StageGraph.Json
