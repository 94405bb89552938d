import Mathlib.Tactic
import StageGraph.Proofs.Appearance
import StageGraph.Proofs.Node.Text
import StageGraph.Proofs.Renaming
import StageGraph.Thumbnail

set_option autoImplicit false

/-! # Letters in place of names

Different places have different words (`letters_injective`), and a name gets the word of its place
among the first appearances (`lettersFor_eq`). So the letters are a renaming of the names of an
expression, `lettering`; names that do not occur are kept out of its way.
-/

namespace StageGraph

/-! ## Words of letters -/

/-- The character is one of the letters from `A` to `Z`. -/
def IsLetter (c : Char) : Prop := 65 ≤ c.toNat ∧ c.toNat ≤ 90

theorem toNat_letter {place : Nat} (h : place < 26) : (letter place).toNat = 65 + place := by
  have hvalid : ('A'.toNat + place).isValidChar := .inl (by have : 'A'.toNat = 65 := rfl; omega)
  rw [letter, Char.ofNat, dif_pos hvalid]
  rfl

theorem letters_of_lt {place : Nat} (h : place < 26) : letters place = [letter place] := by
  rw [letters, if_pos h]

theorem letters_of_not_lt {place : Nat} (h : ¬ place < 26) :
    letters place = letters (place / 26 - 1) ++ [letter (place % 26)] := by
  rw [letters, if_neg h]

theorem isLetter_of_mem_letters {place : Nat} {c : Char} (h : c ∈ letters place) : IsLetter c := by
  induction place using letters.induct with
  | case1 place hlt =>
    rw [letters_of_lt hlt, List.mem_singleton] at h
    rw [h, IsLetter, toNat_letter hlt]
    omega
  | case2 place hlt ih =>
    rw [letters_of_not_lt hlt, List.mem_append, List.mem_singleton] at h
    rcases h with h | rfl
    · exact ih h
    · rw [IsLetter, toNat_letter (Nat.mod_lt _ (by decide))]
      omega

theorem letters_ne_nil (place : Nat) : letters place ≠ [] := by
  rw [letters]
  split
  · exact List.cons_ne_nil _ _
  · simp

/-- Different places have different words. -/
theorem letters_injective : Function.Injective letters := by
  have hletter : ∀ {i j : Nat}, i < 26 → j < 26 → letter i = letter j → i = j := by
    intro i j hi hj h
    have := congrArg Char.toNat h
    rw [toNat_letter hi, toNat_letter hj] at this
    omega
  -- a word of one letter is none of several
  have hshort : ∀ {i j : Nat}, letters (j / 26 - 1) ++ [letter (j % 26)] ≠ [letter i] := by
    intro i j h
    rw [List.append_eq_singleton_iff] at h
    simp [letters_ne_nil] at h
  intro i
  induction i using letters.induct with
  | case1 i hi =>
    intro j h
    rw [letters_of_lt hi] at h
    by_cases hj : j < 26
    · rw [letters_of_lt hj] at h
      exact hletter hi hj (List.singleton_inj.1 h)
    · rw [letters_of_not_lt hj] at h
      exact absurd h.symm hshort
  | case2 i hi ih =>
    intro j h
    rw [letters_of_not_lt hi] at h
    by_cases hj : j < 26
    · rw [letters_of_lt hj] at h
      exact absurd h hshort
    · rw [letters_of_not_lt hj] at h
      obtain ⟨hfront, hlast⟩ := List.append_inj' h rfl
      have hmod : i % 26 = j % 26 := hletter (Nat.mod_lt _ (by decide)) (Nat.mod_lt _ (by decide))
        (List.singleton_inj.1 hlast)
      have hdiv := ih hfront
      omega

/-! ## Letters for names -/

/-- The letters for names when all of these are met, in this order. Other names are written in
another way, which is never used. -/
def wordFor (names : List Text) (name : Text) : Text :=
  if name ∈ names then letters (names.eraseDups.idxOf name) else 'a' :: name

theorem wordFor_injective (names : List Text) : Function.Injective (wordFor names) := by
  have hother : ∀ place (name : Text), letters place ≠ 'a' :: name := by
    intro place name h
    have hletter : IsLetter 'a' := isLetter_of_mem_letters (h ▸ List.mem_cons_self)
    exact absurd hletter (by unfold IsLetter; decide)
  intro m n h
  unfold wordFor at h
  by_cases hm : m ∈ names
  · rw [if_pos hm] at h
    by_cases hn : n ∈ names
    · rw [if_pos hn] at h
      exact (List.idxOf_inj (List.mem_eraseDups.2 hm)).1 (letters_injective h)
    · rw [if_neg hn] at h
      exact absurd h (hother _ _)
  · rw [if_neg hm] at h
    by_cases hn : n ∈ names
    · rw [if_pos hn] at h
      exact absurd h.symm (hother _ _)
    · rw [if_neg hn] at h
      exact (List.cons.inj h).2

theorem isBlank_of_isLetter {c : Char} (h : IsLetter c) : Text.isBlank c = false := by
  unfold IsLetter at h
  exact Text.isBlank_of_graphic (by omega)

/-- The renaming by letters in an expression in which these names are met. -/
def lettering (names : List Text) : Renaming where
  rename := wordFor names
  injective := wordFor_injective names
  ne_nil {name} _ := by
    unfold wordFor
    split
    · exact letters_ne_nil _
    · exact List.cons_ne_nil _ _
  trimmed {name} hname := by
    unfold wordFor
    split
    · exact Text.trimmed_of_forall fun c hc => isBlank_of_isLetter (isLetter_of_mem_letters hc)
    · refine ⟨by rintro _ ⟨⟩; rfl, fun c hc => ?_⟩
      by_cases hnil : name = []
      · subst hnil
        cases hc
        rfl
      · rw [List.getLast?_cons_of_ne_nil hnil] at hc
        exact hname.2 c hc

theorem isLetter_of_mem_rename {names : List Text} {name : Text} (hname : name ∈ names) {c : Char}
    (hc : c ∈ (lettering names).rename name) : IsLetter c := by
  have hword : (lettering names).rename name = letters (names.eraseDups.idxOf name) := if_pos hname
  exact isLetter_of_mem_letters (hword ▸ hc)

/-- A name gets the letters of its place among the first appearances, also those that come after
it. -/
theorem lettersFor_eq (met : List Text) (name : Text) (more : List Text) :
    lettersFor met.eraseDups name =
      ((lettering (met ++ name :: more)).rename name, (met ++ [name]).eraseDups) := by
  have hword : (lettering (met ++ name :: more)).rename name =
      letters ((met ++ [name]).eraseDups.idxOf name) := by
    have hall : met ++ name :: more = met ++ [name] ++ more := List.append_cons met name more
    have hmem : name ∈ (met ++ [name]).eraseDups := List.mem_eraseDups.2 (by simp)
    refine (if_pos (by simp)).trans ?_
    rw [hall, List.eraseDups_append, List.idxOf_append_of_mem hmem]
  rw [hword, eraseDups_concat, lettersFor]
  by_cases hmet : name ∈ met
  · rw [idxOf?_of_mem (List.mem_eraseDups.2 hmet), if_pos hmet]
  · have hnone := List.idxOf?_eq_none_iff.2 (mt List.mem_eraseDups.1 hmet)
    have hnew : name ∉ met.eraseDups := mt List.mem_eraseDups.1 hmet
    rw [hnone, if_neg hmet, List.idxOf_append_of_notMem hnew, List.idxOf_cons_self, Nat.add_zero]

end StageGraph
