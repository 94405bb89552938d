import Mathlib.Data.List.Basic
import Mathlib.Tactic

set_option autoImplicit false

/-! # First appearances

`List.eraseDups` keeps the first appearance of every member. Both a graph and the ordinals of a
topology go by first appearances, so what has to be known of them is what happens when one more
member comes last (`eraseDups_concat`), when members are picked out (`filter_eraseDups`) and when
they are given other names (`eraseDups_map`), and that they are in the order of their places
(`pairwise_eraseDups`), so that the place of one counts those before it (`idxOf_eq_countP`).
-/

namespace StageGraph

variable {α β : Type} [BEq α] [LawfulBEq α] [BEq β] [LawfulBEq β]

/-- A member that comes last counts only if it has not come before. -/
theorem eraseDups_concat (l : List α) (a : α) :
    (l ++ [a]).eraseDups = if a ∈ l then l.eraseDups else l.eraseDups ++ [a] := by
  rw [List.eraseDups_append]
  by_cases ha : a ∈ l
  · simp [ha, List.removeAll]
  · simp [ha, List.removeAll, List.eraseDups_cons]

theorem nodup_eraseDups (l : List α) : l.eraseDups.Nodup := by
  induction l using List.reverseRecOn with
  | nil => exact List.nodup_nil
  | append_singleton l a ih =>
    rw [eraseDups_concat]
    by_cases ha : a ∈ l
    · rwa [if_pos ha]
    · rw [if_neg ha]
      exact ih.append (List.nodup_singleton a)
        (List.disjoint_singleton.2 fun h => ha (List.mem_eraseDups.1 h))

theorem eraseDups_of_nodup {l : List α} (h : l.Nodup) : l.eraseDups = l := by
  induction l using List.reverseRecOn with
  | nil => rfl
  | append_singleton l a ih =>
    obtain ⟨hl, -, hdisjoint⟩ := List.nodup_append'.1 h
    have ha : a ∉ l := fun hmem => hdisjoint hmem (List.mem_singleton_self a)
    rw [eraseDups_concat, if_neg ha, ih hl]

/-- First appearances come in the order of their places. -/
theorem pairwise_eraseDups (l : List α) :
    l.eraseDups.Pairwise fun a b => l.idxOf a < l.idxOf b := by
  induction l using List.reverseRecOn with
  | nil => exact List.Pairwise.nil
  | append_singleton l a ih =>
    have hold : l.eraseDups.Pairwise fun b c => (l ++ [a]).idxOf b < (l ++ [a]).idxOf c := by
      refine ih.imp_of_mem fun {b c} hb hc hlt => ?_
      rwa [List.idxOf_append_of_mem (List.mem_eraseDups.1 hb),
        List.idxOf_append_of_mem (List.mem_eraseDups.1 hc)]
    rw [eraseDups_concat]
    by_cases ha : a ∈ l
    · rwa [if_pos ha]
    · rw [if_neg ha]
      refine List.pairwise_append.2 ⟨hold, List.pairwise_singleton _ _, fun b hb c hc => ?_⟩
      have hmem := List.mem_eraseDups.1 hb
      rw [List.mem_singleton.1 hc, List.idxOf_append_of_mem hmem, List.idxOf_append_of_notMem ha]
      exact Nat.lt_add_right _ (List.idxOf_lt_length_of_mem hmem)

/-- The search for a member finds its place. -/
theorem idxOf?_of_mem {l : List α} {a : α} (h : a ∈ l) : l.idxOf? a = some (l.idxOf a) := by
  obtain ⟨place, hplace⟩ := Option.isSome_iff_exists.1 (List.isSome_idxOf?.2 h)
  have hidx : l.idxOf a = place := by
    rw [List.idxOf_eq_getD_idxOf?, hplace]
    rfl
  rw [hplace, hidx]

/-- In a list that goes up the place of a member counts the members below it. -/
theorem idxOf_eq_countP {key : α → Nat} {l : List α}
    (h : l.Pairwise fun a b => key a < key b) {a : α} (ha : a ∈ l) :
    l.idxOf a = l.countP fun b => key b < key a := by
  induction l with
  | nil => cases ha
  | cons c l ih =>
    obtain ⟨hc, hl⟩ := List.pairwise_cons.1 h
    by_cases hca : c = a
    · subst hca
      have hnone : l.countP (fun b => key b < key c) = 0 :=
        List.countP_eq_zero.2 fun b hb => by simpa using Nat.le_of_lt (hc b hb)
      rw [List.idxOf_cons_self, List.countP_cons_of_neg (by simp), hnone]
    · have hmem : a ∈ l := (List.mem_cons.1 ha).resolve_left (Ne.symm hca)
      rw [List.idxOf_cons_ne _ hca, List.countP_cons_of_pos (by simpa using hc a hmem),
        ih hl hmem]

/-- What only `a` is mapped to has the place of `a`. -/
theorem idxOf_map {f : α → β} {l : List α} {a : α} (hf : ∀ b ∈ l, f b = f a → b = a) :
    (l.map f).idxOf (f a) = l.idxOf a := by
  induction l with
  | nil => rfl
  | cons b l ih =>
    obtain ⟨hb, hl⟩ := List.forall_mem_cons.1 hf
    by_cases hba : b = a
    · rw [List.map_cons, hba, List.idxOf_cons_self, List.idxOf_cons_self]
    · rw [List.map_cons, List.idxOf_cons_ne _ fun heq => hba (hb heq), List.idxOf_cons_ne _ hba,
        ih hl]

theorem filter_eraseDups (p : α → Bool) (l : List α) :
    l.eraseDups.filter p = (l.filter p).eraseDups := by
  induction l using List.reverseRecOn with
  | nil => rfl
  | append_singleton l a ih =>
    rw [eraseDups_concat, List.filter_append]
    by_cases hp : p a = true
    · have hmem : a ∈ l.filter p ↔ a ∈ l := by simp [hp]
      have hone : [a].filter p = [a] := by simp [hp]
      rw [hone, eraseDups_concat]
      by_cases ha : a ∈ l
      · rw [if_pos ha, if_pos (hmem.2 ha), ih]
      · rw [if_neg ha, if_neg fun h => ha (hmem.1 h), List.filter_append, hone, ih]
    -- `a` is not picked out, whether or not it has come before
    · have hnone : [a].filter p = [] := by simp [hp]
      rw [hnone, List.append_nil, ← ih]
      by_cases ha : a ∈ l
      · rw [if_pos ha]
      · rw [if_neg ha, List.filter_append, hnone, List.append_nil]

/-- Different members stay different under `f`, so they appear first where they did before. -/
theorem eraseDups_map {f : α → β} {l : List α} (hf : ∀ a ∈ l, ∀ b ∈ l, f a = f b → a = b) :
    (l.map f).eraseDups = l.eraseDups.map f := by
  induction l using List.reverseRecOn with
  | nil => rfl
  | append_singleton l a ih =>
    have ih := ih fun x hx y hy => hf x (List.mem_append_left _ hx) y (List.mem_append_left _ hy)
    have hmem : f a ∈ l.map f ↔ a ∈ l := by
      constructor
      · intro h
        obtain ⟨b, hb, heq⟩ := List.mem_map.1 h
        rwa [← hf b (List.mem_append_left _ hb) a (by simp) heq]
      · exact List.mem_map_of_mem
    rw [List.map_append, List.map_singleton, eraseDups_concat, eraseDups_concat, ih]
    by_cases ha : a ∈ l
    · rw [if_pos ha, if_pos (hmem.2 ha)]
    · rw [if_neg ha, if_neg fun h => ha (hmem.1 h), List.map_append, List.map_singleton]

end StageGraph
