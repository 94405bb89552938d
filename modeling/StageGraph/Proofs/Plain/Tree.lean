import Mathlib.Data.List.Basic
import Mathlib.Tactic

set_option autoImplicit false

/-! # Series-parallel trees

What a plain expression says, apart from how it is written: single stages, put side by side by
commas and one behind the other by arrows. Parentheses leave no trace in a tree, save that a union
in a union or a series in a series keeps its place.

* `first` and `last` are the atoms at the two ends, `links` the edges within;
* `Joins prev next` adds the edges that lead into the tree from `prev` and out of it to `next`;
* `joins_seq_par` and `joins_seq_atom` take the first stage of a series apart, term by term.
-/

namespace StageGraph

/-- An expression over atoms. -/
inductive Tree (α : Type) where
  /-- A single stage. -/
  | atom (a : α)
  /-- Two expressions side by side. -/
  | par (s t : Tree α)
  /-- Two expressions one behind the other. -/
  | seq (s t : Tree α)

namespace Tree

variable {α β : Type}

/-- The occurrences of atoms, from left to right. -/
def atoms : Tree α → List α
  | atom a => [a]
  | par s t => s.atoms ++ t.atoms
  | seq s t => s.atoms ++ t.atoms

/-- The atoms that come first. -/
def first : Tree α → List α
  | atom a => [a]
  | par s t => s.first ++ t.first
  | seq s _ => s.first

/-- The atoms that come last. -/
def last : Tree α → List α
  | atom a => [a]
  | par s t => s.last ++ t.last
  | seq _ t => t.last

/-- The edges between the atoms: in a series all of the last atoms lead to all of the first ones
behind them. -/
def links : Tree α → List (α × α)
  | atom _ => []
  | par s t => s.links ++ t.links
  | seq s t => s.links ++ s.last.product t.first ++ t.links

/-- The same expression over other atoms. -/
def map (f : α → β) : Tree α → Tree β
  | atom a => atom (f a)
  | par s t => par (s.map f) (t.map f)
  | seq s t => seq (s.map f) (t.map f)

/-- There is an edge from `a` to `b` when the tree stands between `prev` and `next`. -/
def Joins (prev next : α) (t : Tree α) (a b : α) : Prop :=
  (a = prev ∧ b ∈ t.first) ∨ (a, b) ∈ t.links ∨ (a ∈ t.last ∧ b = next)

/-! ## Atoms and edges -/

theorem mem_links_seq {s t : Tree α} {a b : α} :
    (a, b) ∈ (seq s t).links ↔
      (a, b) ∈ s.links ∨ (a ∈ s.last ∧ b ∈ t.first) ∨ (a, b) ∈ t.links := by
  simp only [links, List.mem_append, List.pair_mem_product, or_assoc]

theorem exists_mem_first (t : Tree α) : ∃ a, a ∈ t.first := by
  induction t with
  | atom a => exact ⟨a, List.mem_singleton_self a⟩
  | par s t ihs _ =>
    obtain ⟨a, ha⟩ := ihs
    exact ⟨a, List.mem_append_left _ ha⟩
  | seq s t ihs _ => exact ihs

theorem exists_mem_last (t : Tree α) : ∃ a, a ∈ t.last := by
  induction t with
  | atom a => exact ⟨a, List.mem_singleton_self a⟩
  | par s t ihs _ =>
    obtain ⟨a, ha⟩ := ihs
    exact ⟨a, List.mem_append_left _ ha⟩
  | seq s t _ iht => exact iht

theorem mem_atoms_of_first {t : Tree α} {a : α} (h : a ∈ t.first) : a ∈ t.atoms := by
  induction t with
  | atom b => exact h
  | par s t ihs iht => exact List.mem_append.2 ((List.mem_append.1 h).imp ihs iht)
  | seq s t ihs _ => exact List.mem_append_left _ (ihs h)

theorem mem_atoms_of_last {t : Tree α} {a : α} (h : a ∈ t.last) : a ∈ t.atoms := by
  induction t with
  | atom b => exact h
  | par s t ihs iht => exact List.mem_append.2 ((List.mem_append.1 h).imp ihs iht)
  | seq s t _ iht => exact List.mem_append_right _ (iht h)

/-- An edge leads from an atom to one further to the right. -/
theorem sublist_of_mem_links {t : Tree α} {a b : α} (h : (a, b) ∈ t.links) :
    [a, b].Sublist t.atoms := by
  induction t with
  | atom c => simp [links] at h
  | par s t ihs iht =>
    rcases List.mem_append.1 h with h | h
    · exact (ihs h).trans (List.sublist_append_left _ _)
    · exact (iht h).trans (List.sublist_append_right _ _)
  | seq s t ihs iht =>
    rcases mem_links_seq.1 h with h | ⟨ha, hb⟩ | h
    · exact (ihs h).trans (List.sublist_append_left _ _)
    · exact List.Sublist.append (List.singleton_sublist.2 (mem_atoms_of_last ha))
        (List.singleton_sublist.2 (mem_atoms_of_first hb))
    · exact (iht h).trans (List.sublist_append_right _ _)

theorem mem_atoms_of_links {t : Tree α} {a b : α} (h : (a, b) ∈ t.links) :
    a ∈ t.atoms ∧ b ∈ t.atoms := by
  have hsub := (sublist_of_mem_links h).subset
  exact ⟨hsub (by simp), hsub (by simp)⟩

/-- Every atom is one of the first, or an edge leads to it. -/
theorem entered_of_mem_atoms {t : Tree α} {a : α} (h : a ∈ t.atoms) :
    a ∈ t.first ∨ ∃ b, (b, a) ∈ t.links := by
  induction t with
  | atom c => exact Or.inl h
  | par s t ihs iht =>
    rcases List.mem_append.1 h with h | h
    · rcases ihs h with hfirst | ⟨b, hb⟩
      · exact Or.inl (List.mem_append_left _ hfirst)
      · exact Or.inr ⟨b, List.mem_append_left _ hb⟩
    · rcases iht h with hfirst | ⟨b, hb⟩
      · exact Or.inl (List.mem_append_right _ hfirst)
      · exact Or.inr ⟨b, List.mem_append_right _ hb⟩
  | seq s t ihs iht =>
    rcases List.mem_append.1 h with h | h
    · rcases ihs h with hfirst | ⟨b, hb⟩
      · exact Or.inl hfirst
      · exact Or.inr ⟨b, mem_links_seq.2 (Or.inl hb)⟩
    · rcases iht h with hfirst | ⟨b, hb⟩
      -- what comes first behind `s` is entered from the last atoms of `s`
      · obtain ⟨b, hb⟩ := exists_mem_last s
        exact Or.inr ⟨b, mem_links_seq.2 (Or.inr (Or.inl ⟨hb, hfirst⟩))⟩
      · exact Or.inr ⟨b, mem_links_seq.2 (Or.inr (Or.inr hb))⟩

/-- Every atom is one of the last, or an edge leads on from it. -/
theorem left_of_mem_atoms {t : Tree α} {a : α} (h : a ∈ t.atoms) :
    a ∈ t.last ∨ ∃ b, (a, b) ∈ t.links := by
  induction t with
  | atom c => exact Or.inl h
  | par s t ihs iht =>
    rcases List.mem_append.1 h with h | h
    · rcases ihs h with hlast | ⟨b, hb⟩
      · exact Or.inl (List.mem_append_left _ hlast)
      · exact Or.inr ⟨b, List.mem_append_left _ hb⟩
    · rcases iht h with hlast | ⟨b, hb⟩
      · exact Or.inl (List.mem_append_right _ hlast)
      · exact Or.inr ⟨b, List.mem_append_right _ hb⟩
  | seq s t ihs iht =>
    rcases List.mem_append.1 h with h | h
    · rcases ihs h with hlast | ⟨b, hb⟩
      -- what comes last in `s` leads on to the first atoms of `t`
      · obtain ⟨b, hb⟩ := exists_mem_first t
        exact Or.inr ⟨b, mem_links_seq.2 (Or.inr (Or.inl ⟨hlast, hb⟩))⟩
      · exact Or.inr ⟨b, mem_links_seq.2 (Or.inl hb)⟩
    · rcases iht h with hlast | ⟨b, hb⟩
      · exact Or.inl hlast
      · exact Or.inr ⟨b, mem_links_seq.2 (Or.inr (Or.inr hb))⟩

/-- Every edge lies between atoms or leads to an end. -/
theorem Joins.mem {prev next a b : α} {t : Tree α} (h : t.Joins prev next a b) :
    (a = prev ∨ a ∈ t.atoms) ∧ (b = next ∨ b ∈ t.atoms) := by
  rcases h with ⟨rfl, hb⟩ | hlink | ⟨ha, rfl⟩
  · exact ⟨.inl rfl, .inr (mem_atoms_of_first hb)⟩
  · exact ⟨.inr (mem_atoms_of_links hlink).1, .inr (mem_atoms_of_links hlink).2⟩
  · exact ⟨.inr (mem_atoms_of_last ha), .inl rfl⟩

/-- Edges lead to and from every atom. -/
theorem exists_joins_of_mem_atoms (prev next : α) {t : Tree α} {a : α} (h : a ∈ t.atoms) :
    (∃ b, t.Joins prev next b a) ∧ ∃ b, t.Joins prev next a b := by
  constructor
  · rcases entered_of_mem_atoms h with hfirst | ⟨b, hb⟩
    · exact ⟨prev, .inl ⟨rfl, hfirst⟩⟩
    · exact ⟨b, .inr (.inl hb)⟩
  · rcases left_of_mem_atoms h with hlast | ⟨b, hb⟩
    · exact ⟨next, .inr (.inr ⟨hlast, rfl⟩)⟩
    · exact ⟨b, .inr (.inl hb)⟩

/-- So they do from the one end and to the other. -/
theorem exists_joins_ends (prev next : α) (t : Tree α) :
    (∃ b, t.Joins prev next prev b) ∧ ∃ a, t.Joins prev next a next := by
  obtain ⟨b, hb⟩ := t.exists_mem_first
  obtain ⟨a, ha⟩ := t.exists_mem_last
  exact ⟨⟨b, .inl ⟨rfl, hb⟩⟩, a, .inr (.inr ⟨ha, rfl⟩)⟩

/-! ## Other atoms -/

@[simp] theorem atoms_map (f : α → β) (t : Tree α) : (t.map f).atoms = t.atoms.map f := by
  induction t with
  | atom a => rfl
  | par s t ihs iht => simp [map, atoms, ihs, iht]
  | seq s t ihs iht => simp [map, atoms, ihs, iht]

theorem map_map {γ : Type} (f : α → β) (g : β → γ) (t : Tree α) :
    (t.map f).map g = t.map (g ∘ f) := by
  induction t with
  | atom a => rfl
  | par s t ihs iht => simp [map, ihs, iht]
  | seq s t ihs iht => simp [map, ihs, iht]

theorem map_congr {f g : α → β} {t : Tree α} (h : ∀ a ∈ t.atoms, f a = g a) :
    t.map f = t.map g := by
  induction t with
  | atom a => rw [map, map, h a (List.mem_singleton_self a)]
  | par s t ihs iht =>
    rw [map, map, ihs fun a ha => h a (List.mem_append_left _ ha),
      iht fun a ha => h a (List.mem_append_right _ ha)]
  | seq s t ihs iht =>
    rw [map, map, ihs fun a ha => h a (List.mem_append_left _ ha),
      iht fun a ha => h a (List.mem_append_right _ ha)]

theorem map_eq_self {f : α → α} {t : Tree α} (h : ∀ a ∈ t.atoms, f a = a) : t.map f = t := by
  induction t with
  | atom a => rw [map, h a (List.mem_singleton_self a)]
  | par s t ihs iht =>
    rw [map, ihs fun a ha => h a (List.mem_append_left _ ha),
      iht fun a ha => h a (List.mem_append_right _ ha)]
  | seq s t ihs iht =>
    rw [map, ihs fun a ha => h a (List.mem_append_left _ ha),
      iht fun a ha => h a (List.mem_append_right _ ha)]

/-- Maps of the one part and of the other, where no atom is in both. -/
theorem exists_map_append {s t : Tree α} {f : α → β} {g g' : α → α}
    (hdisjoint : List.Disjoint s.atoms t.atoms) (hg : ∀ a ∈ s.atoms, f (g a) = f a)
    (hg' : ∀ a ∈ t.atoms, f (g' a) = f a) :
    ∃ k : α → α, s.map k = s.map g ∧ t.map k = t.map g' ∧
      (∀ a ∈ s.atoms ++ t.atoms, f (k a) = f a) ∧ ∀ a ∉ s.atoms ++ t.atoms, k a = a := by
  classical
  refine ⟨fun a => if a ∈ s.atoms then g a else if a ∈ t.atoms then g' a else a,
    map_congr fun a ha => if_pos ha, map_congr fun a ha => ?_, fun a ha => ?_, fun a ha => ?_⟩
  · rw [if_neg fun hs => hdisjoint hs ha, if_pos ha]
  · by_cases hs : a ∈ s.atoms
    · simp only [if_pos hs, hg a hs]
    · have ht := (List.mem_append.1 ha).resolve_left hs
      simp only [if_neg hs, if_pos ht, hg' a ht]
  · rw [List.mem_append, not_or] at ha
    simp only [if_neg ha.1, if_neg ha.2]

/-- Trees that look alike through `f` differ in their atoms only. -/
theorem exists_map_of_map_eq {s t : Tree α} {f : α → β} (h : s.map f = t.map f)
    (hs : s.atoms.Nodup) : ∃ g : α → α, t = s.map g ∧ (∀ a ∈ s.atoms, f (g a) = f a) ∧
      ∀ a ∉ s.atoms, g a = a := by
  classical
  induction s generalizing t with
  | atom a =>
    cases t with
    | atom b =>
      refine ⟨fun c => if c = a then b else c, by simp [map], fun c hc => ?_, fun c hc => ?_⟩
      · rw [List.mem_singleton.1 hc]
        simpa using (atom.inj h).symm
      · exact if_neg fun hca => hc (List.mem_singleton.2 hca)
    | par => cases h
    | seq => cases h
  | par s s' ih ih' =>
    cases t with
    | par t t' =>
      obtain ⟨hl, hr⟩ := par.inj h
      obtain ⟨hnodup, hnodup', hdisjoint⟩ := List.nodup_append'.1 hs
      obtain ⟨g, rfl, hg, -⟩ := ih hl hnodup
      obtain ⟨g', rfl, hg', -⟩ := ih' hr hnodup'
      obtain ⟨k, hk, hk', hin, hout⟩ := exists_map_append hdisjoint hg hg'
      exact ⟨k, by rw [map, hk, hk'], hin, hout⟩
    | atom => cases h
    | seq => cases h
  | seq s s' ih ih' =>
    cases t with
    | seq t t' =>
      obtain ⟨hl, hr⟩ := seq.inj h
      obtain ⟨hnodup, hnodup', hdisjoint⟩ := List.nodup_append'.1 hs
      obtain ⟨g, rfl, hg, -⟩ := ih hl hnodup
      obtain ⟨g', rfl, hg', -⟩ := ih' hr hnodup'
      obtain ⟨k, hk, hk', hin, hout⟩ := exists_map_append hdisjoint hg hg'
      exact ⟨k, by rw [map, hk, hk'], hin, hout⟩
    | atom => cases h
    | par => cases h

/-! ## Taking the edges apart -/

theorem joins_atom {prev next x a b : α} :
    (atom x).Joins prev next a b ↔ (a = prev ∧ b = x) ∨ (a = x ∧ b = next) := by
  simp [Joins, first, last, links]

theorem joins_par {prev next a b : α} {s t : Tree α} :
    (par s t).Joins prev next a b ↔ s.Joins prev next a b ∨ t.Joins prev next a b := by
  simp only [Joins, first, last, links, List.mem_append]
  tauto

/-- A stage that stands first leads to all that follows. -/
theorem joins_seq_atom {prev next x a b : α} {u : Tree α} :
    (seq (atom x) u).Joins prev next a b ↔ (a = prev ∧ b = x) ∨ u.Joins x next a b := by
  simp only [Joins, mem_links_seq]
  simp only [first, last, links, List.mem_singleton, List.not_mem_nil, false_or]
  tauto

/-- Each of two expressions side by side is followed by all that follows both. -/
theorem joins_seq_par {prev next a b : α} {s t u : Tree α} :
    (seq (par s t) u).Joins prev next a b ↔
      (seq s u).Joins prev next a b ∨ (seq t u).Joins prev next a b := by
  simp only [Joins, mem_links_seq]
  simp only [first, last, links, List.mem_append]
  grind

/-! ## Edges lead to the right -/

theorem idxOf_lt_of_sublist [DecidableEq α] {l : List α} {a b : α} (hl : l.Nodup)
    (h : [a, b].Sublist l) : l.idxOf a < l.idxOf b := by
  induction l with
  | nil => cases h
  | cons c l ih =>
    obtain ⟨hc, hl⟩ := List.nodup_cons.1 hl
    cases h with
    | cons _ h =>
      have ha : c ≠ a := fun hca => hc (hca ▸ h.subset (by simp))
      have hb : c ≠ b := fun hcb => hc (hcb ▸ h.subset (by simp))
      rw [List.idxOf_cons_ne _ ha, List.idxOf_cons_ne _ hb]
      exact Nat.succ_lt_succ (ih hl h)
    | cons_cons _ h =>
      have hb : a ≠ b := fun hab => hc (hab ▸ h.subset (by simp))
      rw [List.idxOf_cons_self, List.idxOf_cons_ne _ hb]
      exact Nat.succ_pos _

/-- When all atoms differ, an edge leads from one place to a later one. -/
theorem idxOf_lt_of_mem_links [DecidableEq α] {t : Tree α} {a b : α} (ht : t.atoms.Nodup)
    (h : (a, b) ∈ t.links) : t.atoms.idxOf a < t.atoms.idxOf b :=
  idxOf_lt_of_sublist ht (sublist_of_mem_links h)

end Tree

end StageGraph
