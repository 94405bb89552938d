import Mathlib.Data.List.Chain
import Mathlib.Tactic
import StageGraph.Proofs.Plain.Reading
import StageGraph.Proofs.Plain.Row

set_option autoImplicit false

/-! # The grammar of plain expressions

What a plain expression should look like, told by its tokens and without regard to how it is read:

    expression = list (';' list)*        stage = term (',' term)*
    list = stage ('->' stage)*           term = name | '(' list ')'

`Spells` is this grammar with the tree that a phrase spells, and `Phrase` is the same grammar
without trees and stages. Both take a flag for *slack*: with it, an empty pair of parentheses may
stand next to a term, and a separator may stand in parentheses of its own. A phrase has no need of
the slack if and only if it is tidy (`Phrase.strict_iff`).
-/

namespace StageGraph

/-- A separator of terms: the mark itself or, with slack, the mark in parentheses. -/
inductive Separates (slack : Bool) (s : Separator) : List Token → Prop where
  | bare : Separates slack s [.mark s.mark]
  | paired (hslack : slack = true) :
      Separates slack s [.mark .opening, .mark s.mark, .mark .closing]

/-- The three kinds of phrases that spell a tree. -/
inductive Level where
  | term
  | stage
  | list

/-- The tokens are a phrase of this level and spell this tree. -/
inductive Spells (slack : Bool) : Level → List Token → Tree Text → Prop where
  | name {n : Text} (hlegal : ¬ Reserved n) : Spells slack .term [.name n] (.atom n)
  | group {ts : List Token} {e : Tree Text} (h : Spells slack .list ts e) :
      Spells slack .term (.mark .opening :: (ts ++ [.mark .closing])) e
  | pairBefore {ts : List Token} {e : Tree Text} (hslack : slack = true)
      (h : Spells slack .term ts e) :
      Spells slack .term (.mark .opening :: .mark .closing :: ts) e
  | pairBehind {ts : List Token} {e : Tree Text} (hslack : slack = true)
      (h : Spells slack .term ts e) :
      Spells slack .term (ts ++ [.mark .opening, .mark .closing]) e
  | stage {ts : List Token} {e : Tree Text} (h : Spells slack .term ts e) :
      Spells slack .stage ts e
  | comma {ts ms us : List Token} {d e : Tree Text} (h : Spells slack .term ts d)
      (hm : Separates slack .comma ms) (h' : Spells slack .stage us e) :
      Spells slack .stage (ts ++ (ms ++ us)) (.par d e)
  | list {ts : List Token} {e : Tree Text} (h : Spells slack .stage ts e) :
      Spells slack .list ts e
  | arrow {ts ms us : List Token} {d e : Tree Text} (h : Spells slack .stage ts d)
      (hm : Separates slack .arrow ms) (h' : Spells slack .list us e) :
      Spells slack .list (ts ++ (ms ++ us)) (.seq d e)

/-- The tokens are a list, or a single term of one. -/
inductive Phrase (slack : Bool) : (single : Bool) → List Token → Prop where
  | name {n : Text} (hlegal : ¬ Reserved n) : Phrase slack true [.name n]
  | group {ts : List Token} (h : Phrase slack false ts) :
      Phrase slack true (.mark .opening :: (ts ++ [.mark .closing]))
  | pairBefore {ts : List Token} (hslack : slack = true) (h : Phrase slack true ts) :
      Phrase slack true (.mark .opening :: .mark .closing :: ts)
  | pairBehind {ts : List Token} (hslack : slack = true) (h : Phrase slack true ts) :
      Phrase slack true (ts ++ [.mark .opening, .mark .closing])
  | one {ts : List Token} (h : Phrase slack true ts) : Phrase slack false ts
  | more {ts ms us : List Token} {s : Separator} (h : Phrase slack true ts)
      (hm : Separates slack s ms) (h' : Phrase slack false us) :
      Phrase slack false (ts ++ (ms ++ us))

/-- The tokens are lists with semicolons between them, and spell these trees. -/
def SpellsAll (slack : Bool) (ts : List Token) (es : List (Tree Text)) : Prop :=
  ∃ tss, tss ≠ [] ∧ ts = joinSections tss ∧ List.Forall₂ (Spells slack .list) tss es

/-- The tokens are lists with semicolons between them. -/
def Grammatical (slack : Bool) (ts : List Token) : Prop :=
  ∃ tss, tss ≠ [] ∧ ts = joinSections tss ∧ ∀ us ∈ tss, Phrase slack false us

variable {slack : Bool}

theorem SpellsAll.of_spells {ts : List Token} {e : Tree Text} (h : Spells slack .list ts e) :
    SpellsAll slack ts [e] :=
  ⟨[ts], List.cons_ne_nil _ _, by simp [joinSections], .cons h .nil⟩

theorem Grammatical.of_phrase {ts : List Token} (h : Phrase slack false ts) :
    Grammatical slack ts :=
  ⟨[ts], List.cons_ne_nil _ _, by simp [joinSections], List.forall_mem_singleton.2 h⟩

theorem Spells.single (slack : Bool) {n : Text} (hn : ¬ Reserved n) :
    Spells slack .list [.name n] (.atom n) := .list (.stage (.name hn))

/-- Two names with an arrow between them. -/
theorem Spells.series (slack : Bool) {m n : Text} (hm : ¬ Reserved m) (hn : ¬ Reserved n) :
    Spells slack .list [.name m, .mark .arrow, .name n] (.seq (.atom m) (.atom n)) :=
  .arrow (.stage (.name hm)) .bare (.list (.stage (.name hn)))

/-! ## Names and semicolons -/

theorem Separates.namesOf_eq {s : Separator} {ms : List Token} (h : Separates slack s ms) :
    namesOf ms = [] := by
  cases h <;> rfl

theorem Separates.not_mem {s : Separator} {ms : List Token} (h : Separates slack s ms) :
    Token.mark .semicolon ∉ ms := by
  cases h <;> cases s <;> decide

/-- The atoms of the tree are the names of the phrase, in their order. -/
theorem Spells.atoms_eq {level : Level} {ts : List Token} {e : Tree Text}
    (h : Spells slack level ts e) : e.atoms = namesOf ts := by
  induction h with
  | name hlegal => rfl
  | group h ih => simp [ih, namesOf]
  | pairBefore hslack h ih => simp [ih]
  | pairBehind hslack h ih => simp [ih, namesOf]
  | stage h ih => exact ih
  | comma h hm h' ih ih' => simp [Tree.atoms, ih, ih', hm.namesOf_eq]
  | list h ih => exact ih
  | arrow h hm h' ih ih' => simp [Tree.atoms, ih, ih', hm.namesOf_eq]

theorem SpellsAll.atoms_eq {ts : List Token} {es : List (Tree Text)} (h : SpellsAll slack ts es) :
    es.flatMap Tree.atoms = namesOf ts := by
  obtain ⟨tss, -, rfl, hspells⟩ := h
  rw [namesOf_joinSections]
  induction hspells with
  | nil => rfl
  | cons hd _ ih => rw [List.flatMap_cons, List.flatMap_cons, hd.atoms_eq, ih]

/-- No name of a phrase is reserved. -/
theorem Spells.not_reserved {level : Level} {ts : List Token} {e : Tree Text}
    (h : Spells slack level ts e) {n : Text} (hn : n ∈ e.atoms) : ¬ Reserved n := by
  induction h with
  | name hlegal =>
    cases List.mem_singleton.1 hn
    exact hlegal
  | group h ih => exact ih hn
  | pairBefore hslack h ih => exact ih hn
  | pairBehind hslack h ih => exact ih hn
  | stage h ih => exact ih hn
  | comma h hm h' ih ih' => exact (List.mem_append.1 hn).elim ih ih'
  | list h ih => exact ih hn
  | arrow h hm h' ih ih' => exact (List.mem_append.1 hn).elim ih ih'

theorem SpellsAll.not_reserved {ts : List Token} {es : List (Tree Text)}
    (h : SpellsAll slack ts es) {e : Tree Text} (he : e ∈ es) {n : Text} (hn : n ∈ e.atoms) :
    ¬ Reserved n := by
  obtain ⟨tss, -, -, hspells⟩ := h
  induction hspells with
  | nil => cases he
  | cons hd _ ih =>
    rcases List.mem_cons.1 he with rfl | he
    · exact hd.not_reserved hn
    · exact ih he

theorem Spells.not_mem {level : Level} {ts : List Token} {e : Tree Text}
    (h : Spells slack level ts e) : Token.mark .semicolon ∉ ts := by
  induction h with
  | name hlegal => simp
  | group h ih => simp [ih]
  | pairBefore hslack h ih => simp [ih]
  | pairBehind hslack h ih => simp [ih]
  | stage h ih => exact ih
  | comma h hm h' ih ih' => simp [ih, ih', hm.not_mem]
  | list h ih => exact ih
  | arrow h hm h' ih ih' => simp [ih, ih', hm.not_mem]

/-! ## Every phrase spells a tree -/

/-- A term in front of a list spells a list with it, whatever stands between the two. -/
theorem Spells.cons_list {s : Separator} {ts ms us : List Token} {d e : Tree Text}
    (h : Spells slack .term ts d) (hm : Separates slack s ms) (h' : Spells slack .list us e) :
    ∃ e', Spells slack .list (ts ++ (ms ++ us)) e' := by
  cases s with
  | arrow => exact ⟨_, .arrow (.stage h) hm h'⟩
  | comma =>
    cases h' with
    | list h' => exact ⟨_, .list (.comma h hm h')⟩
    -- the comma binds the term to the first stage of the list
    | arrow h₁ hm' h₂ =>
      have := Spells.arrow (Spells.comma h hm h₁) hm' h₂
      simp only [List.append_assoc] at this
      exact ⟨_, this⟩

/-- Every phrase spells a tree. -/
theorem Phrase.spells {single : Bool} {ts : List Token} (h : Phrase slack single ts) :
    ∃ e, Spells slack (if single then .term else .list) ts e := by
  induction h with
  | name hlegal => exact ⟨_, .name hlegal⟩
  | group h ih =>
    obtain ⟨e, he⟩ := ih
    exact ⟨e, .group he⟩
  | pairBefore hslack h ih =>
    obtain ⟨e, he⟩ := ih
    exact ⟨e, .pairBefore hslack he⟩
  | pairBehind hslack h ih =>
    obtain ⟨e, he⟩ := ih
    exact ⟨e, .pairBehind hslack he⟩
  | one h ih =>
    obtain ⟨e, he⟩ := ih
    exact ⟨e, .list (.stage he)⟩
  | more h hm h' ih ih' =>
    obtain ⟨d, hd⟩ := ih
    obtain ⟨e, he⟩ := ih'
    exact hd.cons_list hm he

theorem Phrase.not_mem {single : Bool} {ts : List Token} (h : Phrase slack single ts) :
    Token.mark .semicolon ∉ ts := by
  obtain ⟨e, he⟩ := h.spells
  exact he.not_mem

/-- A grammatical expression spells trees. -/
theorem Grammatical.spellsAll {ts : List Token} (h : Grammatical slack ts) :
    ∃ es, SpellsAll slack ts es := by
  obtain ⟨tss, hne, rfl, hphrases⟩ := h
  have hspells : ∃ es, List.Forall₂ (Spells slack .list) tss es := by
    clear hne
    induction tss with
    | nil => exact ⟨[], .nil⟩
    | cons us tss ih =>
      rw [List.forall_mem_cons] at hphrases
      obtain ⟨e, he⟩ := hphrases.1.spells
      obtain ⟨es, hes⟩ := ih hphrases.2
      exact ⟨e :: es, .cons he hes⟩
  obtain ⟨es, hes⟩ := hspells
  exact ⟨es, tss, hne, rfl, hes⟩

/-! ## Without slack -/

/-- An opening parenthesis is followed by what could not begin a list. -/
def Idle (a b : Token) : Prop :=
  a = .mark .opening ∧ (b = .mark .closing ∨ ∃ s : Separator, b = .mark s.mark)

/-- No parenthesis opens in vain. -/
def Tidy (ts : List Token) : Prop := ts.IsChain fun a b => ¬ Idle a b

theorem Tidy.of_append {ts us : List Token} (h : Tidy (ts ++ us)) : Tidy ts ∧ Tidy us :=
  ⟨(List.isChain_append.1 h).1, (List.isChain_append.1 h).2.1⟩

/-- Tokens the last of which opens nothing are tidy in front of other tidy tokens. -/
theorem Tidy.append {ts us : List Token} (h : Tidy ts) (h' : Tidy us)
    (hlast : ∀ a ∈ ts.getLast?, a ≠ .mark .opening) : Tidy (ts ++ us) :=
  List.isChain_append.2 ⟨h, h', fun a ha _ _ hidle => hlast a ha hidle.1⟩

theorem Phrase.ne_nil {single : Bool} {ts : List Token} (h : Phrase slack single ts) : ts ≠ [] := by
  induction h with
  | name hlegal => exact List.cons_ne_nil _ _
  | group h ih => exact List.cons_ne_nil _ _
  | pairBefore hslack h ih => exact List.cons_ne_nil _ _
  | pairBehind hslack h ih => simp
  | one h ih => exact ih
  | more h hm h' ih ih' => simp [ih]

theorem not_idle_name (a : Token) (n : Text) : ¬ Idle a (.name n) := by
  rintro ⟨-, h | ⟨s, h⟩⟩ <;> cases h

theorem not_idle_opening (a : Token) : ¬ Idle a (.mark .opening) := by
  rintro ⟨-, h | ⟨s, h⟩⟩
  · cases h
  · cases s <;> cases h

/-- A phrase begins with a name or an opening parenthesis. -/
theorem Phrase.head {single : Bool} {ts : List Token} (h : Phrase slack single ts) (a : Token) :
    ∀ b ∈ ts.head?, ¬ Idle a b := by
  induction h with
  | name hlegal =>
    rintro _ ⟨⟩
    exact not_idle_name a _
  | group h ih =>
    rintro _ ⟨⟩
    exact not_idle_opening a
  | pairBefore hslack h ih =>
    rintro _ ⟨⟩
    exact not_idle_opening a
  | pairBehind hslack h ih => rwa [List.head?_append_of_ne_nil _ h.ne_nil]
  | one h ih => exact ih
  | more h hm h' ih ih' => rwa [List.head?_append_of_ne_nil _ h.ne_nil]

/-- A phrase ends with a name or a closing parenthesis. -/
theorem Phrase.last {single : Bool} {ts : List Token} (h : Phrase slack single ts) :
    ∀ a ∈ ts.getLast?, a ≠ .mark .opening := by
  induction h with
  | name hlegal => rintro _ ⟨⟩ ⟨⟩
  | group h ih =>
    rw [← List.cons_append, List.getLast?_concat]
    rintro _ ⟨⟩ ⟨⟩
  | pairBefore hslack h ih =>
    rwa [List.getLast?_cons_cons, List.getLast?_cons_of_ne_nil h.ne_nil]
  | @pairBehind ts hslack h ih =>
    rw [List.getLast?_append]
    rintro _ ⟨⟩ ⟨⟩
  | one h ih => exact ih
  | more h hm h' ih ih' =>
    rwa [← List.append_assoc, List.getLast?_append_of_ne_nil _ h'.ne_nil]

/-- A phrase of the grammar is tidy. -/
theorem Phrase.tidy {single : Bool} {ts : List Token} (h : Phrase false single ts) : Tidy ts := by
  induction h with
  | name hlegal => exact List.isChain_singleton _
  -- the list inside begins with a term, so the parenthesis does not open in vain
  | @group ts h ih =>
    have hinside : Tidy (ts ++ [.mark .closing]) := ih.append (List.isChain_singleton _) h.last
    refine List.isChain_cons.2 ⟨fun b hb => ?_, hinside⟩
    rw [List.head?_append_of_ne_nil _ h.ne_nil] at hb
    exact h.head _ b hb
  | pairBefore hslack h ih => cases hslack
  | pairBehind hslack h ih => cases hslack
  | one h ih => exact ih
  | @more ts ms us s h hm h' ih ih' =>
    cases hm with
    | bare =>
      refine ih.append (List.isChain_cons.2 ⟨?_, ih'⟩) h.last
      rintro b - ⟨hs, -⟩
      cases s <;> cases hs
    | paired hslack => cases hslack

theorem Phrase.weaken {single : Bool} {ts : List Token} (h : Phrase false single ts) :
    Phrase slack single ts := by
  induction h with
  | name hlegal => exact .name hlegal
  | group h ih => exact .group ih
  | pairBefore hslack h ih => cases hslack
  | pairBehind hslack h ih => cases hslack
  | one h ih => exact .one ih
  | more h hm h' ih ih' =>
    cases hm with
    | bare => exact .more ih .bare ih'
    | paired hslack => cases hslack

/-- A tidy phrase has no need of slack. -/
theorem Phrase.of_tidy {single : Bool} {ts : List Token} (h : Phrase slack single ts)
    (htidy : Tidy ts) : Phrase false single ts := by
  induction h with
  | name hlegal => exact .name hlegal
  | group h ih =>
    have hinside := Tidy.of_append (List.IsChain.of_cons htidy)
    exact .group (ih hinside.1)
  | pairBefore hslack h ih =>
    exact absurd ⟨rfl, .inl rfl⟩ (List.isChain_cons_cons.1 htidy).1
  | pairBehind hslack h ih =>
    exact absurd ⟨rfl, .inl rfl⟩ (List.isChain_cons_cons.1 htidy.of_append.2).1
  | one h ih => exact .one (ih htidy)
  | @more ts ms us s h hm h' ih ih' =>
    obtain ⟨hts, hrest⟩ := htidy.of_append
    obtain ⟨hms, hus⟩ := Tidy.of_append hrest
    cases hm with
    | bare => exact .more (ih hts) .bare (ih' hus)
    | paired hslack => exact absurd ⟨rfl, .inr ⟨s, rfl⟩⟩ (List.isChain_cons_cons.1 hms).1

/-- The grammar is what is left of the slack one when only tidy phrases count. -/
theorem Phrase.strict_iff {single : Bool} {ts : List Token} :
    Phrase false single ts ↔ Phrase true single ts ∧ Tidy ts :=
  ⟨fun h => ⟨h.weaken, h.tidy⟩, fun h => h.1.of_tidy h.2⟩

theorem tidy_append_semicolon {ts us : List Token} :
    Tidy (ts ++ .mark .semicolon :: us) ↔ Tidy ts ∧ Tidy us := by
  constructor
  · intro h
    exact ⟨h.of_append.1, List.IsChain.of_cons h.of_append.2⟩
  · rintro ⟨hts, hus⟩
    refine List.isChain_append.2 ⟨hts, List.isChain_cons.2 ⟨?_, hus⟩, ?_⟩
    · rintro b - ⟨⟨⟩, -⟩
    · rintro a - _ ⟨⟩ ⟨-, h | ⟨s, h⟩⟩
      · cases h
      · cases s <;> cases h

theorem tidy_joinSections (tss : List (List Token)) :
    Tidy (joinSections tss) ↔ ∀ ts ∈ tss, Tidy ts := by
  match tss with
  | [] => simp [joinSections, Tidy]
  | [ts] => simp [joinSections]
  | ts :: us :: more =>
    have ih := tidy_joinSections (us :: more)
    rw [joinSections] at ih
    rw [joinSections, List.intercalate_cons_cons, List.append_assoc, List.singleton_append,
      tidy_append_semicolon, ih]
    exact List.forall_mem_cons.symm

/-- The same for whole expressions. -/
theorem Grammatical.strict_iff {ts : List Token} :
    Grammatical false ts ↔ Grammatical true ts ∧ Tidy ts := by
  constructor
  · rintro ⟨tss, hne, rfl, h⟩
    have hslack := fun us hus => Phrase.strict_iff.1 (h us hus)
    exact ⟨⟨tss, hne, rfl, fun us hus => (hslack us hus).1⟩,
      (tidy_joinSections tss).2 fun us hus => (hslack us hus).2⟩
  · rintro ⟨⟨tss, hne, rfl, h⟩, htidy⟩
    rw [tidy_joinSections] at htidy
    exact ⟨tss, hne, rfl, fun us hus => Phrase.strict_iff.2 ⟨h us hus, htidy us hus⟩⟩

end StageGraph
