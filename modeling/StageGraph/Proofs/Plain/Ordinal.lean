import Mathlib.Data.List.Basic
import Mathlib.Tactic
import StageGraph.Plain.Ordinal
import StageGraph.Proofs.Appearance

set_option autoImplicit false

/-! # Ordinals do not change

Once a span has been met under a name its place among the spans of that name stays the same, so its
ordinal does too (`Ordinals.Grows`). Places count below `2 ^ 32`, so different spans of a name have
different ordinals, none of which is 0; a span that would be one too many gets the ordinal 0
(`allocated`).
-/

namespace StageGraph

namespace Ordinals

/-- No span has been met twice, and there are ordinals for all. -/
structure Valid (o : Ordinals) : Prop where
  nodup : ∀ name, (o.metAs name).Nodup
  length_lt : ∀ name, (o.metAs name).length < 2 ^ 32

/-- Spans are only met anew, behind those met before. -/
def Grows (o o' : Ordinals) : Prop := ∀ name, o.metAs name <+: o'.metAs name

theorem Grows.refl (o : Ordinals) : o.Grows o := fun _ => List.prefix_rfl

theorem Grows.trans {o o' o'' : Ordinals} (h : o.Grows o') (h' : o'.Grows o'') : o.Grows o'' :=
  fun name => (h name).trans (h' name)

theorem Grows.getElem? {o o' : Ordinals} (h : o.Grows o') {name : Text} {k span : Nat}
    (hk : (o.metAs name)[k]? = some span) : (o'.metAs name)[k]? = some span := by
  obtain ⟨more, hmore⟩ := h name
  rw [← hmore, List.getElem?_append_left (List.getElem?_eq_some_iff.1 hk).1, hk]

theorem valid_empty : empty.Valid where
  nodup name := by simp [empty, metAs]
  length_lt name := by simp [empty, metAs]

theorem metAs_insert (o : Ordinals) (name : Text) (spans : List Nat) (n : Text) :
    (⟨o.met.insert name spans⟩ : Ordinals).metAs n = if name = n then spans else o.metAs n := by
  simp only [metAs, Std.HashMap.getD_insert]
  by_cases h : name = n
  · simp [h]
  · simp [h]

/-! ## Looking a span up -/

section

variable {o : Ordinals} {name : Text} {span : Nat}

/-- A span that has been met is given the place it has. -/
theorem allocate_of_mem (h : span ∈ o.metAs name) :
    o.allocate name span = (UInt32.ofNat ((o.metAs name).idxOf span + 1), o) := by
  rw [allocate, idxOf?_of_mem h]

/-- A span that has not been met comes behind those that have. -/
theorem allocate_of_not_mem (h : span ∉ o.metAs name) :
    o.allocate name span = (UInt32.ofNat ((o.metAs name).length + 1),
      ⟨o.met.insert name (o.metAs name ++ [span])⟩) := by
  rw [allocate, List.idxOf?_eq_none_iff.2 h]

theorem metAs_allocate_self (o : Ordinals) (name : Text) (span : Nat) :
    (o.allocate name span).2.metAs name =
      if span ∈ o.metAs name then o.metAs name else o.metAs name ++ [span] := by
  by_cases hmem : span ∈ o.metAs name
  · rw [allocate_of_mem hmem, if_pos hmem]
  · rw [allocate_of_not_mem hmem, if_neg hmem, metAs_insert, if_pos rfl]

theorem metAs_allocate_of_ne {n : Text} (h : name ≠ n) (o : Ordinals) (span : Nat) :
    (o.allocate name span).2.metAs n = o.metAs n := by
  by_cases hmem : span ∈ o.metAs name
  · rw [allocate_of_mem hmem]
  · rw [allocate_of_not_mem hmem, metAs_insert, if_neg h]

theorem mem_metAs_allocate {n : Text} {i : Nat} :
    i ∈ (o.allocate name span).2.metAs n ↔ i ∈ o.metAs n ∨ (n = name ∧ i = span) := by
  by_cases hn : name = n
  · subst hn
    rw [metAs_allocate_self]
    by_cases hmem : span ∈ o.metAs name
    · rw [if_pos hmem]
      constructor
      · exact Or.inl
      · rintro (hi | ⟨-, rfl⟩)
        · exact hi
        · exact hmem
    · rw [if_neg hmem, List.mem_append, List.mem_singleton, and_iff_right rfl]
  · rw [metAs_allocate_of_ne hn]
    constructor
    · exact Or.inl
    · rintro (hi | ⟨rfl, -⟩)
      · exact hi
      · exact absurd rfl hn

/-- A span is given its place among the spans that have been met from then on. -/
theorem allocate_fst (o : Ordinals) (name : Text) (span : Nat) : (o.allocate name span).1 =
    UInt32.ofNat (((o.allocate name span).2.metAs name).idxOf span + 1) := by
  by_cases hmem : span ∈ o.metAs name
  · rw [allocate_of_mem hmem]
  · rw [allocate_of_not_mem hmem, metAs_insert, if_pos rfl, List.idxOf_append_of_notMem hmem,
      List.idxOf_cons_self, Nat.add_zero]

theorem grows_allocate (o : Ordinals) (name : Text) (span : Nat) :
    o.Grows (o.allocate name span).2 := by
  intro n
  by_cases hn : name = n
  · subst hn
    rw [metAs_allocate_self]
    by_cases hmem : span ∈ o.metAs name
    · rw [if_pos hmem]
    · rw [if_neg hmem]
      exact List.prefix_append _ _
  · rw [metAs_allocate_of_ne hn]

/-- One more span can be numbered unless the ordinals have been used up. -/
theorem Valid.allocate (ho : o.Valid) (hroom : span ∈ o.metAs name ∨
    (o.metAs name).length + 1 < 2 ^ 32) : (o.allocate name span).2.Valid := by
  by_cases hmem : span ∈ o.metAs name
  · rw [allocate_of_mem hmem]
    exact ho
  constructor
  · intro n
    by_cases hn : name = n
    · subst hn
      rw [metAs_allocate_self, if_neg hmem]
      exact (ho.nodup name).append (List.nodup_singleton span) (List.disjoint_singleton.2 hmem)
    · rw [metAs_allocate_of_ne hn]
      exact ho.nodup n
  · intro n
    by_cases hn : name = n
    · subst hn
      rw [metAs_allocate_self, if_neg hmem, List.length_append, List.length_singleton]
      exact hroom.resolve_left hmem
    · rw [metAs_allocate_of_ne hn]
      exact ho.length_lt n

end

/-! ## Ordinals of spans -/

/-- The span has been met under the name, and that is its ordinal. -/
def HasOrdinal (o : Ordinals) (name : Text) (span : Nat) (ordinal : UInt32) : Prop :=
  ∃ k, (o.metAs name)[k]? = some span ∧ ordinal = UInt32.ofNat (k + 1)

theorem HasOrdinal.mono {o o' : Ordinals} (h : o.Grows o') {name : Text} {span : Nat}
    {ordinal : UInt32} (hk : o.HasOrdinal name span ordinal) : o'.HasOrdinal name span ordinal := by
  obtain ⟨k, hk, hordinal⟩ := hk
  exact ⟨k, h.getElem? hk, hordinal⟩

theorem toNat_ofNat_succ {o : Ordinals} (ho : o.Valid) {name : Text} {k span : Nat}
    (hk : (o.metAs name)[k]? = some span) : (UInt32.ofNat (k + 1)).toNat = k + 1 := by
  have hlt := (List.getElem?_eq_some_iff.1 hk).1
  have := ho.length_lt name
  rw [UInt32.toNat_ofNat', Nat.mod_eq_of_lt (by omega)]

/-- A span has one ordinal. -/
theorem HasOrdinal.ordinal_unique {o : Ordinals} (ho : o.Valid) {name : Text} {span : Nat}
    {a b : UInt32} (ha : o.HasOrdinal name span a) (hb : o.HasOrdinal name span b) : a = b := by
  obtain ⟨j, hj, rfl⟩ := ha
  obtain ⟨k, hk, rfl⟩ := hb
  have hlt := (List.getElem?_eq_some_iff.1 hj).1
  rw [(List.getElem?_inj hlt (ho.nodup name)).1 (hj.trans hk.symm)]

/-- An ordinal belongs to one span. -/
theorem HasOrdinal.span_unique {o : Ordinals} (ho : o.Valid) {name : Text} {i j : Nat}
    {ordinal : UInt32} (hi : o.HasOrdinal name i ordinal) (hj : o.HasOrdinal name j ordinal) :
    i = j := by
  obtain ⟨k, hk, rfl⟩ := hi
  obtain ⟨l, hl, heq⟩ := hj
  have : k = l := by
    have := congrArg UInt32.toNat heq
    rw [toNat_ofNat_succ ho hk, toNat_ofNat_succ ho hl] at this
    omega
  subst this
  exact Option.some.inj (hk.symm.trans hl)

/-- What comes of looking a span up under a name. -/
structure Allocated (o o' : Ordinals) (name : Text) (span : Nat) (ordinal : UInt32) : Prop where
  grows : o.Grows o'
  hasOrdinal : o'.HasOrdinal name span ordinal
  mem_iff : ∀ n i, i ∈ o'.metAs n ↔ i ∈ o.metAs n ∨ (n = name ∧ i = span)
  /-- The ordinals go on unless they have been used up. -/
  valid : ordinal ≠ 0 → o'.Valid
  full : ordinal = 0 → span ∉ o.metAs name ∧ (o.metAs name).length + 1 = 2 ^ 32

theorem hasOrdinal_allocate (o : Ordinals) (name : Text) (span : Nat) :
    (o.allocate name span).2.HasOrdinal name span (o.allocate name span).1 := by
  have hmem : span ∈ (o.allocate name span).2.metAs name :=
    mem_metAs_allocate.2 (Or.inr ⟨rfl, rfl⟩)
  refine ⟨_, ?_, allocate_fst o name span⟩
  rw [List.getElem?_eq_getElem (List.idxOf_lt_length_of_mem hmem), List.getElem_idxOf]

/-- Only the ordinal after the last one is 0. -/
theorem allocate_fst_eq_zero_iff {o : Ordinals} (ho : o.Valid) {name : Text} {span : Nat} :
    (o.allocate name span).1 = 0 ↔
      span ∉ o.metAs name ∧ (o.metAs name).length + 1 = 2 ^ 32 := by
  have hlt := ho.length_lt name
  have hword : ∀ k, UInt32.ofNat k = 0 ↔ k % 2 ^ 32 = 0 := by
    intro k
    rw [← UInt32.toNat_inj, UInt32.toNat_ofNat']
    rfl
  by_cases hmem : span ∈ o.metAs name
  · have hplace := List.idxOf_lt_length_of_mem hmem
    rw [allocate_of_mem hmem, hword]
    constructor
    · intro hzero
      omega
    · intro hnew
      exact absurd hmem hnew.1
  · rw [allocate_of_not_mem hmem, hword, and_iff_right hmem]
    omega

theorem allocated {o : Ordinals} (ho : o.Valid) (name : Text) (span : Nat) :
    Allocated o (o.allocate name span).2 name span (o.allocate name span).1 where
  grows := grows_allocate o name span
  hasOrdinal := hasOrdinal_allocate o name span
  mem_iff _ _ := mem_metAs_allocate
  valid hne := by
    have hlt := ho.length_lt name
    apply ho.allocate
    by_contra hfull
    rw [not_or] at hfull
    exact hne ((allocate_fst_eq_zero_iff ho).2 ⟨hfull.1, by omega⟩)
  full := (allocate_fst_eq_zero_iff ho).1

end Ordinals

end StageGraph
