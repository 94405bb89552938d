import Mathlib.Tactic
import StageGraph.Proofs.Plain.Ordinal

set_option autoImplicit false

/-! # The spans of a name are numbered

Spans are looked up one after the other, each under some name, in any order and with repetition.
What is remembered under a name are the spans looked up under it in the order of their first
appearances (`Remembers`), whatever has been looked up under other names in between; and a span
is answered with its place in that list. So among all the answers under one name every span has its
own ordinal, the same one each time, and the ordinals are 1, 2 and so on in the order in which the
spans first appear (`answersUnder_numbered`).
-/

namespace StageGraph

namespace Ordinals

variable {o : Ordinals} {calls : List (Text × Nat)} {name : Text} {span : Nat}

/-- The ordinals that spans are given when they are looked up one after the other, each under the
name in front of it. -/
def allocateAll (o : Ordinals) : List (Text × Nat) → List UInt32
  | [] => []
  | (name, span) :: calls =>
    (o.allocate name span).1 :: (o.allocate name span).2.allocateAll calls

/-- The spans that are looked up under this name, in order. -/
def spansUnder (name : Text) (calls : List (Text × Nat)) : List Nat :=
  (calls.filter fun call => call.1 = name).map Prod.snd

/-- The spans that are looked up under this name, each with the ordinal it is given. -/
def answersUnder (name : Text) (calls : List (Text × Nat)) : List (Nat × UInt32) :=
  ((calls.zip (empty.allocateAll calls)).filter fun answer => answer.1.1 = name).map
    fun answer => (answer.1.2, answer.2)

/-! ## One more call -/

theorem spansUnder_append (name : Text) (earlier later : List (Text × Nat)) :
    spansUnder name (earlier ++ later) = spansUnder name earlier ++ spansUnder name later := by
  simp [spansUnder]

theorem spansUnder_concat_self (name : Text) (span : Nat) (calls : List (Text × Nat)) :
    spansUnder name (calls ++ [(name, span)]) = spansUnder name calls ++ [span] := by
  simp [spansUnder]

theorem spansUnder_concat_of_ne {other : Text} (h : other ≠ name) (span : Nat)
    (calls : List (Text × Nat)) :
    spansUnder name (calls ++ [(other, span)]) = spansUnder name calls := by
  simp [spansUnder, h]

/-- The calls that have been made are these. -/
def Remembers (o : Ordinals) (calls : List (Text × Nat)) : Prop :=
  ∀ name, o.metAs name = (spansUnder name calls).eraseDups

theorem remembers_empty : empty.Remembers [] := by
  intro name
  simp [empty, metAs, spansUnder]

theorem Remembers.allocate (h : o.Remembers calls) (name : Text) (span : Nat) :
    (o.allocate name span).2.Remembers (calls ++ [(name, span)]) := by
  intro n
  by_cases hn : name = n
  · subst hn
    rw [metAs_allocate_self, spansUnder_concat_self, eraseDups_concat, h name]
    simp only [List.mem_eraseDups]
  · rw [metAs_allocate_of_ne hn, spansUnder_concat_of_ne hn, h n]

/-! ## A sequence of calls -/

/-- The place of a span among the spans of a name, counted from 1 in the order in which they first
appear. -/
def numberIn (calls : List (Text × Nat)) (name : Text) (span : Nat) : Nat :=
  (spansUnder name calls).eraseDups.idxOf span + 1

/-- A span that has been looked up keeps its number. -/
theorem numberIn_append (name : Text) (span : Nat) (later : List (Text × Nat))
    (h : span ∈ spansUnder name calls) :
    numberIn (calls ++ later) name span = numberIn calls name span := by
  rw [numberIn, spansUnder_append, List.eraseDups_append,
    List.idxOf_append_of_mem (List.mem_eraseDups.2 h), numberIn]

theorem Remembers.allocateAll_eq (h : o.Remembers calls) (later : List (Text × Nat)) :
    o.allocateAll later =
      later.map fun call => UInt32.ofNat (numberIn (calls ++ later) call.1 call.2) := by
  -- what is remembered changes with every call, but all calls together stay the same
  induction later generalizing o calls with
  | nil => rfl
  | cons call later ih =>
    obtain ⟨name, span⟩ := call
    have hnext := h.allocate name span
    have hall : calls ++ (name, span) :: later = calls ++ [(name, span)] ++ later :=
      List.append_cons calls (name, span) later
    have hmem : span ∈ spansUnder name (calls ++ [(name, span)]) := by
      rw [spansUnder_concat_self]
      exact List.mem_append_right _ (List.mem_singleton_self span)
    have hnumber : (o.allocate name span).1 =
        UInt32.ofNat (numberIn (calls ++ (name, span) :: later) name span) := by
      rw [allocate_fst, hnext name, hall, numberIn_append name span later hmem, numberIn]
    rw [allocateAll, hnumber, ih hnext, ← hall, List.map_cons]

/-- A span is given its number each time. -/
theorem answersUnder_eq (name : Text) (calls : List (Text × Nat)) :
    answersUnder name calls = (spansUnder name calls).map fun span =>
      (span, UInt32.ofNat (numberIn calls name span)) := by
  have hzip : calls.zip (empty.allocateAll calls) = calls.map fun call =>
      (call, UInt32.ofNat (numberIn calls call.1 call.2)) := by
    rw [remembers_empty.allocateAll_eq, List.nil_append]
    exact List.map_prod_left_eq_zip.symm
  rw [answersUnder, hzip, List.filter_map, List.map_map, spansUnder, List.map_map]
  refine List.map_congr_left fun call hcall => ?_
  have hname : call.1 = name := by simpa using (List.mem_filter.1 hcall).2
  simp [hname]

/-! ## Numbers as ordinals -/

theorem toNat_numberIn (hfew : (spansUnder name calls).eraseDups.length < 2 ^ 32)
    (h : span ∈ spansUnder name calls) :
    (UInt32.ofNat (numberIn calls name span)).toNat = numberIn calls name span := by
  have hlt := List.idxOf_lt_length_of_mem (List.mem_eraseDups.2 h)
  have hnumber : numberIn calls name span < 2 ^ 32 := by
    rw [numberIn]
    omega
  rw [UInt32.toNat_ofNat', Nat.mod_eq_of_lt hnumber]

/-- Different spans have different numbers. -/
theorem numberIn_inj {other : Nat} (h : span ∈ spansUnder name calls) :
    numberIn calls name span = numberIn calls name other ↔ span = other := by
  rw [numberIn, numberIn, Nat.add_right_cancel_iff]
  exact List.idxOf_inj (List.mem_eraseDups.2 h)

/-- The numbers count up in the order of first appearances. -/
theorem map_numberIn (name : Text) (calls : List (Text × Nat)) :
    (spansUnder name calls).eraseDups.map (fun span => (span, numberIn calls name span)) =
      (spansUnder name calls).eraseDups.zipIdx 1 := by
  apply List.ext_getElem
  · rw [List.length_map, List.length_zipIdx]
  · intro k hk hk'
    rw [List.getElem_map, List.getElem_zipIdx, numberIn,
      (nodup_eraseDups _).idxOf_getElem, Nat.add_comm]

/-- Every call under a name is answered. Among the answers the same span has the same ordinal each
time and different spans have different ones; the spans have the ordinals 1, 2 and so on in the
order in which they first appear; and calls under other names make no difference. -/
theorem answersUnder_numbered (calls : List (Text × Nat)) (name : Text)
    (hfew : (spansUnder name calls).eraseDups.length < 2 ^ 32) :
    (answersUnder name calls).map Prod.fst = spansUnder name calls ∧
    (∀ a ∈ answersUnder name calls, ∀ b ∈ answersUnder name calls, a.1 = b.1 ↔ a.2 = b.2) ∧
    (answersUnder name calls).eraseDups.map (Prod.map id UInt32.toNat) =
      (spansUnder name calls).eraseDups.zipIdx 1 ∧
    ∀ calls' : List (Text × Nat), spansUnder name calls' = spansUnder name calls →
      answersUnder name calls' = answersUnder name calls := by
  refine ⟨?_, ?_, ?_, ?_⟩
  · rw [answersUnder_eq, List.map_map]
    exact List.map_id _
  · rw [answersUnder_eq]
    intro a ha b hb
    obtain ⟨i, hi, rfl⟩ := List.mem_map.1 ha
    obtain ⟨j, hj, rfl⟩ := List.mem_map.1 hb
    show i = j ↔ UInt32.ofNat (numberIn calls name i) = UInt32.ofNat (numberIn calls name j)
    rw [← UInt32.toNat_inj, toNat_numberIn hfew hi, toNat_numberIn hfew hj, numberIn_inj hi]
  · have hfirst : (answersUnder name calls).eraseDups = (spansUnder name calls).eraseDups.map
        fun span => (span, UInt32.ofNat (numberIn calls name span)) := by
      rw [answersUnder_eq]
      exact eraseDups_map fun _ _ _ _ heq => (Prod.mk.inj heq).1
    rw [hfirst, List.map_map, ← map_numberIn]
    apply List.map_congr_left
    intro i hi
    exact congrArg (Prod.mk i) (toNat_numberIn hfew (List.mem_eraseDups.1 hi))
  · intro calls' hsame
    simp only [answersUnder_eq, numberIn, hsame]

/-- The theorem for `A`, with two spans of which the first is looked up twice, and once under `B` in
between. -/
theorem answersUnder_two_spans : ∃ calls : List (Text × Nat),
    calls = [("A".toList, 5), ("A".toList, 7), ("B".toList, 5), ("A".toList, 5)] ∧
    (spansUnder "A".toList calls).eraseDups.length < 2 ^ 32 ∧
    (answersUnder "A".toList calls).map Prod.fst = [5, 7, 5] ∧
    (answersUnder "A".toList calls).eraseDups.map (Prod.map id UInt32.toNat) = [(5, 1), (7, 2)] ∧
    answersUnder "A".toList [("A".toList, 5), ("A".toList, 7), ("A".toList, 5)] =
      answersUnder "A".toList calls := by
  refine ⟨_, rfl, ?_⟩
  set calls := [("A".toList, 5), ("A".toList, 7), ("B".toList, 5), ("A".toList, 5)]
  have hspans : spansUnder "A".toList calls = [5, 7, 5] := by decide
  have hfew : (spansUnder "A".toList calls).eraseDups.length < 2 ^ 32 := by
    rw [hspans]
    decide
  obtain ⟨hall, -, hnumbered, hsame⟩ := answersUnder_numbered calls "A".toList hfew
  refine ⟨hfew, hall.trans hspans, ?_, hsame _ (by decide)⟩
  rw [hnumbered, hspans]
  rfl

end Ordinals

end StageGraph
