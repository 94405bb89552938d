import Mathlib.Data.List.Shortlex
import Mathlib.Data.Set.Card
import Mathlib.Tactic
import StageGraph.Proofs.Thumbnail.Stability

set_option autoImplicit false

/-! # The words of letters in order

Words of letters are ordered by their length, and words of one length alphabetically. In this order
`letters` goes through all of them: a later place has a later word (`shortlex_letters_iff`), and
every word has a place (`exists_letters`), so that as many words come before a word as its place
says (`encard_before`). Each time the last letter of a word is split off, as it is when the word is
written (`letters_turns`).

The names that a thumbnail meets are given the first words in this order, each name a word of its
own (`Labels`). `letters_enumerate` puts all of this together.
-/

namespace StageGraph

/-- One or more letters from `A` to `Z`. -/
def IsWord (w : Text) : Prop := w ≠ [] ∧ ∀ c ∈ w, IsLetter c

theorem isWord_letters (place : Nat) : IsWord (letters place) :=
  ⟨letters_ne_nil place, fun _ => isLetter_of_mem_letters⟩

/-! ## Written from behind -/

/-- The place of what stands in front of the last letter of a word that has several. -/
def carry (place : Nat) : Nat := place / 26 - 1

/-- A word is written from behind, one letter in each turn, with a place for what stands in front
carried from turn to turn. The turns end with the first that finds a place below 26. -/
theorem letters_turns (place : Nat) : ∃ k, (∀ i < k, 26 ≤ carry^[i] place) ∧
    carry^[k] place < 26 ∧
    (letters place).reverse = (List.range (k + 1)).map fun i => letter (carry^[i] place % 26) := by
  induction place using letters.induct with
  | case1 place hlt =>
    refine ⟨0, fun i hi => absurd hi (Nat.not_lt_zero i), hlt, ?_⟩
    rw [letters_of_lt hlt]
    show [letter place] = [letter (place % 26)]
    rw [Nat.mod_eq_of_lt hlt]
  | case2 place hlt ih =>
    -- after the first turn it goes on as for the word in front
    obtain ⟨k, hmore, hlast, hword⟩ := ih
    refine ⟨k + 1, fun i hi => ?_, hlast, ?_⟩
    · cases i with
      | zero => exact Nat.le_of_not_lt hlt
      | succ i => exact hmore i (Nat.lt_of_succ_lt_succ hi)
    · rw [letters_of_not_lt hlt, List.reverse_append, hword, List.range_succ_eq_map (n := k + 1),
        List.map_cons, List.map_map]
      rfl

/-! ## The order of words -/

theorem letter_lt_letter {i j : Nat} (h : i < j) (hj : j < 26) : letter i < letter j := by
  have hlt : (letter i).toNat < (letter j).toNat := by
    rw [toNat_letter (Nat.lt_trans h hj), toNat_letter hj]
    omega
  exact hlt

/-- Words of one length are told apart by their fronts first. -/
theorem lex_append_of_length_eq {v w : Text} (h : List.Lex (· < ·) v w)
    (hlen : v.length = w.length) (s t : Text) : List.Lex (· < ·) (v ++ s) (w ++ t) := by
  induction h with
  | nil => cases hlen
  | rel hlt => exact .rel hlt
  | cons _ ih => exact .cons (ih (Nat.succ.inj hlen))

theorem shortlex_concat {v w : Text} (h : List.Shortlex (· < ·) v w) (c d : Char) :
    List.Shortlex (· < ·) (v ++ [c]) (w ++ [d]) := by
  rcases List.shortlex_def.1 h with hlt | ⟨hlen, hlex⟩
  · apply List.Shortlex.of_length_lt
    simpa using hlt
  · apply List.Shortlex.of_lex
    · simpa using hlen
    · exact lex_append_of_length_eq hlex hlen [c] [d]

theorem shortlex_letters {m n : Nat} (h : m < n) :
    List.Shortlex (· < ·) (letters m) (letters n) := by
  induction n using letters.induct generalizing m with
  | case1 n hn =>
    rw [letters_of_lt (Nat.lt_trans h hn), letters_of_lt hn, List.shortlex_singleton_iff]
    exact letter_lt_letter h hn
  | case2 n hn ih =>
    rw [letters_of_not_lt hn]
    by_cases hm : m < 26
    · apply List.Shortlex.of_length_lt
      have hpos : 0 < (letters (n / 26 - 1)).length := List.length_pos_of_ne_nil (letters_ne_nil _)
      rw [letters_of_lt hm, List.length_append, List.length_singleton, List.length_singleton]
      omega
    · rw [letters_of_not_lt hm]
      by_cases hfront : m / 26 - 1 < n / 26 - 1
      · exact shortlex_concat (ih hfront) _ _
      -- the fronts are the same, so the last letters decide
      · have hsame : m / 26 - 1 = n / 26 - 1 := by omega
        have hlast : m % 26 < n % 26 := by omega
        rw [hsame]
        apply List.Shortlex.append_left
        rw [List.shortlex_singleton_iff]
        exact letter_lt_letter hlast (Nat.mod_lt _ (by decide))

/-- A place is later exactly if its word is. -/
theorem shortlex_letters_iff {m n : Nat} :
    List.Shortlex (· < ·) (letters m) (letters n) ↔ m < n := by
  constructor
  · intro h
    by_contra hle
    rcases Nat.lt_or_eq_of_le (Nat.le_of_not_lt hle) with hlt | rfl
    · exact Std.Asymm.asymm _ _ h (shortlex_letters hlt)
    · exact Std.Asymm.asymm _ _ h h
  · exact shortlex_letters

/-- The last word of two letters is followed by the first of three. -/
example : letters 701 = "ZZ".toList ∧ letters 702 = "AAA".toList := ⟨by cbv, by cbv⟩

/-! ## Every word has a place -/

theorem letter_toNat_sub {c : Char} (h : IsLetter c) :
    c.toNat - 65 < 26 ∧ letter (c.toNat - 65) = c := by
  obtain ⟨hlow, hhigh⟩ := h
  have hcode : 'A'.toNat + (c.toNat - 65) = c.toNat := by
    have hA : 'A'.toNat = 65 := rfl
    omega
  refine ⟨by omega, ?_⟩
  rw [letter, hcode, Char.ofNat_toNat]

theorem exists_letters {w : Text} (h : IsWord w) : ∃ place, letters place = w := by
  induction w using List.reverseRecOn with
  | nil => exact absurd rfl h.1
  | append_singleton v c ih =>
    obtain ⟨hlt, hletter⟩ := letter_toNat_sub (h.2 c (by simp))
    by_cases hv : v = []
    · subst hv
      exact ⟨c.toNat - 65, by rw [letters_of_lt hlt, hletter]; rfl⟩
    · obtain ⟨front, hfront⟩ := ih ⟨hv, fun d hd => h.2 d (List.mem_append_left _ hd)⟩
      refine ⟨26 * (front + 1) + (c.toNat - 65), ?_⟩
      have hdiv : (26 * (front + 1) + (c.toNat - 65)) / 26 - 1 = front := by omega
      have hmod : (26 * (front + 1) + (c.toNat - 65)) % 26 = c.toNat - 65 := by omega
      rw [letters_of_not_lt (by omega), hdiv, hmod, hfront, hletter]

theorem bijOn_letters : Set.BijOn letters Set.univ {w | IsWord w} := by
  refine ⟨fun place _ => isWord_letters place, letters_injective.injOn, fun w hw => ?_⟩
  obtain ⟨place, rfl⟩ := exists_letters hw
  exact ⟨place, Set.mem_univ place, rfl⟩

/-- As many words come before a word as its place says. -/
theorem encard_before (place : Nat) :
    {w | IsWord w ∧ List.Shortlex (· < ·) w (letters place)}.encard = place := by
  have hbefore : {w | IsWord w ∧ List.Shortlex (· < ·) w (letters place)} =
      letters '' (Finset.range place : Set Nat) := by
    ext w
    constructor
    · rintro ⟨hword, hlt⟩
      obtain ⟨earlier, rfl⟩ := exists_letters hword
      exact ⟨earlier, Finset.mem_coe.2 (Finset.mem_range.2 (shortlex_letters_iff.1 hlt)), rfl⟩
    · rintro ⟨earlier, hmem, rfl⟩
      have hlt := Finset.mem_range.1 (Finset.mem_coe.1 hmem)
      exact ⟨isWord_letters earlier, shortlex_letters hlt⟩
  rw [hbefore, letters_injective.encard_image, Set.encard_coe_eq_coe_finsetCard,
    Finset.card_range]

/-! ## Words for names -/

/-- The words that names are given when they are met one after the other. -/
def lettersForAll (met : List Text) : List Text → List Text
  | [] => []
  | name :: names => (lettersFor met name).1 :: lettersForAll (lettersFor met name).2 names

/-- These words are given to these names, one after the other: a name has the same word wherever it
occurs, which is no other name's, and the names have the words of the places 0, 1 and so on in the
order in which they are first met. -/
structure Labels (names words : List Text) : Prop where
  length_eq : words.length = names.length
  word_eq : ∀ {place : Nat} {name : Text}, names.eraseDups[place]? = some name →
    ∀ {i : Nat}, names[i]? = some name → words[i]? = some (letters place)
  same_iff : ∀ {i j : Nat}, i < names.length → j < names.length →
    (words[i]? = words[j]? ↔ names[i]? = names[j]?)

theorem labels_map (names : List Text) : Labels names (names.map (lettering names).rename) where
  length_eq := List.length_map _
  word_eq {place name} hfirst i hi := by
    obtain ⟨hlt, hget⟩ := List.getElem?_eq_some_iff.1 hfirst
    have hplace : names.eraseDups.idxOf name = place := by
      rw [← hget, (nodup_eraseDups names).idxOf_getElem]
    have hword : (lettering names).rename name = letters (names.eraseDups.idxOf name) :=
      if_pos (List.mem_of_getElem? hi)
    rw [List.getElem?_map, hi, Option.map_some, hword, hplace]
  same_iff {i j} hi hj := by
    simp only [List.getElem?_map, List.getElem?_eq_getElem hi, List.getElem?_eq_getElem hj,
      Option.map_some, Option.some.injEq]
    exact (lettering names).injective.eq_iff

theorem lettersForAll_eq (met names : List Text) : lettersForAll met.eraseDups names =
    names.map (lettering (met ++ names)).rename := by
  induction names generalizing met with
  | nil => rfl
  | cons name names ih =>
    have hall : met ++ [name] ++ names = met ++ name :: names :=
      (List.append_cons met name names).symm
    rw [lettersForAll, lettersFor_eq met name names, ih, hall, List.map_cons]

theorem labels_lettersForAll (names : List Text) : Labels names (lettersForAll [] names) := by
  have hwords := lettersForAll_eq [] names
  rw [List.eraseDups_nil, List.nil_append] at hwords
  rw [hwords]
  exact labels_map names

theorem labels_plainThumbnail (t : Text) :
    Labels (namesOf (tokensOf t)) (namesOf (tokensOf (plainThumbnail t))) := by
  rw [tokensOf_plainThumbnail, namesOf_rename]
  exact labels_map _

theorem labels_relabelEdges {edges edges' : List Edge} (hloops : ∀ e ∈ edges, e.source ≠ e.target)
    (h : relabelEdges [] edges = .ok edges') : Labels (namesIn edges) (namesIn edges') := by
  have hstages := stagesOnly_of_relabelEdges h
  have hrelabel := relabelEdges_eq [] hstages hloops
  rw [List.eraseDups_nil, List.nil_append, h] at hrelabel
  cases hrelabel
  rw [namesIn_rename hstages]
  exact labels_map _

/-- A thumbnail has the names of a plain text or those of an edge list, under their words. -/
theorem labels_thumbnail (t : Text) :
    (thumbnail t = plainThumbnail t ∧
      Labels (namesOf (tokensOf t)) (namesOf (tokensOf (thumbnail t)))) ∨
    ∃ (form : Form) (edges edges' : List Edge), Form.detect t = .ok (some (form, edges)) ∧
      thumbnail t = form.encode edges' ∧ Labels (namesIn edges) (namesIn edges') := by
  have hplain : thumbnail t = plainThumbnail t → thumbnail t = plainThumbnail t ∧
      Labels (namesOf (tokensOf t)) (namesOf (tokensOf (thumbnail t))) := by
    intro heq
    refine ⟨heq, ?_⟩
    rw [heq]
    exact labels_plainThumbnail t
  rcases hdetect : Form.detect t with failure | _ | ⟨form, edges⟩
  · exact .inl (hplain (by rw [thumbnail, hdetect]))
  · exact .inl (hplain (by rw [thumbnail, hdetect]))
  · cases hrelabel : relabelEdges [] edges with
    | error failure => exact .inl (hplain (by simp only [thumbnail, hdetect, hrelabel]))
    | ok edges' =>
      obtain ⟨-, hloops⟩ := Form.of_detect hdetect
      exact .inr ⟨form, edges, edges', rfl, by simp only [thumbnail, hdetect, hrelabel],
        labels_relabelEdges hloops hrelabel⟩

/-- The places go through the words of letters in order. The word of a place is written in finitely
many turns; as many words come before it as the place says; and every word is the word of one place.
Names that are met one after the other are given these words in turn, each name its own, and so are
the names in a thumbnail, be it one of a plain text or one of an edge list. -/
theorem letters_enumerate :
    (∀ place, ∃ k, (∀ i < k, 26 ≤ carry^[i] place) ∧ carry^[k] place < 26 ∧
      (letters place).reverse =
        (List.range (k + 1)).map fun i => letter (carry^[i] place % 26)) ∧
    (∀ place, IsWord (letters place) ∧
      {w | IsWord w ∧ List.Shortlex (· < ·) w (letters place)}.encard = place) ∧
    Set.BijOn letters Set.univ {w | IsWord w} ∧
    (∀ names, Labels names (lettersForAll [] names)) ∧
    ∀ t, (thumbnail t = plainThumbnail t ∧
        Labels (namesOf (tokensOf t)) (namesOf (tokensOf (thumbnail t)))) ∨
      ∃ (form : Form) (edges edges' : List Edge), Form.detect t = .ok (some (form, edges)) ∧
        thumbnail t = form.encode edges' ∧ Labels (namesIn edges) (namesIn edges') :=
  ⟨letters_turns, fun place => ⟨isWord_letters place, encard_before place⟩, bijOn_letters,
    labels_lettersForAll, labels_thumbnail⟩

end StageGraph
