import Mathlib.Tactic
import StageGraph.Proofs.EdgeList.Attachment
import StageGraph.Proofs.EdgeList.Recognition
import StageGraph.Proofs.EdgeList.RoundTrip
import StageGraph.Proofs.Plain.Reading

set_option autoImplicit false

/-! # The ends of listed edges

An edge list is a list of pairs of texts, whichever form it has: the edges are what is read from
these pairs (`Form.exists_lists`). An end is read as a sentinel exactly if it is written with both
numbers, each of them some spelling of zero, and a reserved name (`readEndpoint_sentinel_iff`). A
reserved name without numbers is read as a stage of this name (`readEndpoint_reserved`).
-/

namespace StageGraph

open Json (ArrayOf Document Literal)

/-! ## The ends that a text lists -/

namespace Form

/-- The text lists these pairs of ends: around the one arrow of a string each, or as the two fields
of an object each. -/
def Lists (form : Form) (ends : List (Text × Text)) (t : Text) : Prop :=
  match form with
  | strings => Document (ArrayOf Literal) (ends.map fun p => p.1 ++ (Mark.arrow.text ++ p.2)) t ∧
      ∀ p ∈ ends, ArrowFree p.1 ∧ ArrowFree p.2
  | objects => Document (ArrayOf ReadAsEnds) ends t

variable {ends : List (Text × Text)} {edges : List Edge}

/-- Items that are all read are pairs of ends that are read. -/
theorem exists_ends_of_readAll {items : List Text} (h : readAll readItem items = .ok edges) :
    ∃ ends : List (Text × Text), items = ends.map (fun p => p.1 ++ (Mark.arrow.text ++ p.2)) ∧
      (∀ p ∈ ends, ArrowFree p.1 ∧ ArrowFree p.2) ∧
      readAll (fun p => readEnds p.1 p.2) ends = .ok edges := by
  induction items generalizing edges with
  | nil => exact ⟨[], rfl, by simp, h⟩
  | cons item items ih =>
    obtain ⟨e, he, h⟩ := bind_eq_ok.1 h
    obtain ⟨rest, hrest, h⟩ := bind_eq_ok.1 h
    cases h
    obtain ⟨ends, rfl, hfree, hread⟩ := ih hrest
    rcases readItem_cases item with ⟨s, t, hs, ht, rfl, hends⟩ | herror
    · refine ⟨(s, t) :: ends, rfl, List.forall_mem_cons.2 ⟨⟨hs, ht⟩, hfree⟩, ?_⟩
      rw [readAll, hread, ← hends, he]
      rfl
    · cases herror.symm.trans he

/-- The edges of a claimed text are what is read from the ends that it lists. -/
theorem exists_lists {form : Form} {t : Text} (h : detect t = .ok (some (form, edges))) :
    ∃ ends, form.Lists ends t ∧ readAll (fun p => readEnds p.1 p.2) ends = .ok edges := by
  have hdecode := decode_of_detect h
  cases form with
  | strings =>
    obtain ⟨items, hitems, -, hread⟩ := exists_items_of_claim hdecode
    obtain ⟨ends, rfl, hfree, hread'⟩ := exists_ends_of_readAll hread
    exact ⟨ends, ⟨reads_strings.read_eq_ok.1 hitems, hfree⟩, hread'⟩
  | objects =>
    obtain ⟨ends, hends, -, hread⟩ := exists_items_of_claim hdecode
    exact ⟨ends, reads_objects.read_eq_ok.1 hends, hread⟩

/-- The nodes that a list names are those read from its ends. -/
theorem mem_listedNodes_of_readAll (h : readAll (fun p => readEnds p.1 p.2) ends = .ok edges)
    {n : Node} : n ∈ listedNodes edges ↔
      ∃ p ∈ ends, readEndpoint p.1 = .ok n ∨ readEndpoint p.2 = .ok n := by
  obtain ⟨-, hfrom, hto⟩ := of_readAll h
  rw [mem_listedNodes]
  constructor
  · rintro ⟨e, he, hn⟩
    obtain ⟨p, hp, hread⟩ := hfrom e he
    obtain ⟨hsource, htarget, -⟩ := Edge.of_readEnds hread
    rcases hn with rfl | rfl
    · exact ⟨p, hp, .inl hsource⟩
    · exact ⟨p, hp, .inr htarget⟩
  · rintro ⟨p, hp, hn⟩
    obtain ⟨e, he, hread⟩ := hto p hp
    obtain ⟨hsource, htarget, -⟩ := Edge.of_readEnds hread
    rcases hn with hn | hn
    · exact ⟨e, he, .inl (Except.ok.inj (hn.symm.trans hsource))⟩
    · exact ⟨e, he, .inr (Except.ok.inj (hn.symm.trans htarget))⟩

end Form

/-! ## Zeros -/

namespace Text

/-- Some spelling of the number 0. -/
structure Zeros (t : Text) : Prop where
  ne_nil : t ≠ []
  eq_zero : ∀ c ∈ t, c = '0'

theorem Zeros.decimal {t : Text} (h : Zeros t) : Decimal t :=
  ⟨h.ne_nil, fun c hc => by rw [h.eq_zero c hc]; decide⟩

/-- White space and the digits of all scripts keep apart. -/
theorem isBlank_of_isDecimalDigit {c : Char} (h : isDecimalDigit c = true) :
    isBlank c = false := by
  have hapart : ∀ first ∈ digitZeros, ∀ blank ∈
      [(9, 13), (0x20, 0x20), (0x85, 0x85), (0xA0, 0xA0), (0x1680, 0x1680), (0x2000, 0x200A),
        (0x2028, 0x2029), (0x202F, 0x202F), (0x205F, 0x205F), (0x3000, 0x3000)],
      first + 9 < blank.1 ∨ blank.2 < first := by decide
  obtain ⟨first, hfirst, hrange⟩ := List.any_eq_true.1 h
  have hblanks := hapart first hfirst
  simp only [List.forall_mem_cons, List.not_mem_nil, false_implies, implies_true,
    and_true] at hblanks
  simp only [Bool.and_eq_true, decide_eq_true_eq] at hrange
  simp only [isBlank, Bool.or_eq_false_iff, Bool.and_eq_false_iff, decide_eq_false_iff_not,
    beq_eq_false_iff_ne]
  omega

theorem Decimal.trim_eq {t : Text} (h : Decimal t) : trim t = t :=
  trim_eq_self_of_trimmed (trimmed_of_forall fun c hc => isBlank_of_isDecimalDigit (h.digits c hc))

/-- The number that digits write is 0 only if all of them are. -/
theorem digitsValue_eq_zero_iff {t : Text} (hdigits : ∀ c ∈ t, c.isDigit = true) :
    digitsValue t = 0 ↔ ∀ c ∈ t, c = '0' := by
  have hfold : ∀ n, t.foldl (fun n c => 10 * n + (c.toNat - '0'.toNat)) n = 0 ↔
      n = 0 ∧ ∀ c ∈ t, c = '0' := by
    induction t with
    | nil => simp
    | cons c t ih =>
      intro n
      rw [List.forall_mem_cons] at hdigits
      have hc : c.toNat - '0'.toNat = 0 ↔ c = '0' := by
        have hrange : 48 ≤ c.toNat ∧ c.toNat ≤ 57 := Char.isDigit_iff_toNat.1 hdigits.1
        rw [← Char.toNat_inj]
        have hzero : '0'.toNat = 48 := rfl
        omega
      have hsum : 10 * n + (c.toNat - '0'.toNat) = 0 ↔ n = 0 ∧ c = '0' := by
        rw [← hc]
        omega
      rw [List.foldl_cons, ih hdigits.2, hsum, and_assoc, List.forall_mem_cons]
  rw [digitsValue, hfold, and_iff_right rfl]

/-- A run of digits is read as the number 0 exactly if it is a spelling of it. -/
theorem word?_eq_zero_iff {t : Text} (h : Decimal t) : word? t = some 0 ↔ Zeros t := by
  rw [word?_of_decimal h, Option.ite_none_right_eq_some, Option.some.injEq]
  constructor
  · rintro ⟨⟨hdigits, hsize⟩, hvalue⟩
    have hzero : digitsValue t = 0 := by
      have := congrArg UInt32.toNat hvalue
      rwa [UInt32.toNat_ofNat_of_lt' hsize] at this
    exact ⟨h.ne_nil, (digitsValue_eq_zero_iff (List.all_eq_true.1 hdigits)).1 hzero⟩
  · intro hzeros
    have hdigits : ∀ c ∈ t, c.isDigit = true := fun c hc => by
      rw [hzeros.eq_zero c hc]
      rfl
    have hzero := (digitsValue_eq_zero_iff hdigits).2 hzeros.eq_zero
    rw [hzero]
    exact ⟨⟨List.all_eq_true.2 hdigits, by decide⟩, rfl⟩

end Text

/-! ## Ends that are sentinels -/

/-- The text spells a sentinel: zero, zero and a reserved name. -/
def SpellsSentinel (t : Text) : Prop :=
  ∃ i j name, Text.Zeros i ∧ Text.Zeros j ∧ Reserved name ∧
    Text.trim t = i ++ ':' :: (j ++ ':' :: name)

theorem readNumber_eq_zero_iff {part : NumberPart} {t whole : Text} (h : Text.Decimal t) :
    Node.readNumber part t whole = .ok 0 ↔ Text.Zeros t := by
  rw [← Text.word?_eq_zero_iff h, Node.readNumber, h.trim_eq]
  cases Text.word? t with
  | none => simp
  | some n => simp

/-- The numbers 0 and 0 with a reserved name make a sentinel, and nothing else does. -/
theorem isSentinel_ofNumbers_iff {topology ordinal : UInt32} {name : Text} :
    (∃ n, Node.ofNumbers topology ordinal name = .ok n ∧ n.isSentinel = true) ↔
      topology = 0 ∧ ordinal = 0 ∧ Reserved name := by
  constructor
  · rintro ⟨n, hn, hsentinel⟩
    unfold Node.ofNumbers at hn
    split at hn
    · next hstart => exact ⟨hstart.1, hstart.2.1, .inl hstart.2.2⟩
    split at hn
    · next hfinish => exact ⟨hfinish.1, hfinish.2.1, .inr hfinish.2.2⟩
    · obtain ⟨s, rfl, -⟩ := Node.exists_stage_of_ofParts hn
      cases hsentinel
  · rintro ⟨rfl, rfl, rfl | rfl⟩
    · exact ⟨.start, rfl, rfl⟩
    · exact ⟨.finish, rfl, rfl⟩

/-- What looks like a node is two numbers and a name that is not blank. -/
theorem exists_append_of_looksLikeNode {t : Text} (h : looksLikeNode t = true) :
    ∃ i j name, Text.Decimal i ∧ Text.Decimal j ∧ t = i ++ ':' :: (j ++ ':' :: name) := by
  have hafter : ∀ {u rest : Text}, afterDigits? u = some rest →
      ∃ ds, Text.Decimal ds ∧ u = ds ++ ':' :: rest := by
    intro u rest hu
    have happend := List.takeWhile_append_dropWhile (p := Text.isDecimalDigit) (l := u)
    unfold afterDigits? at hu
    split at hu
    · next tail hdrop =>
      split at hu
      · cases hu
      · next hne =>
        cases hu
        rw [hdrop] at happend
        exact ⟨_, ⟨hne, fun c hc => List.mem_takeWhile_imp hc⟩, happend.symm⟩
    · cases hu
  unfold looksLikeNode at h
  split at h
  · next name hname =>
    obtain ⟨rest, hrest, hrest'⟩ := Option.bind_eq_some_iff.1 hname
    obtain ⟨i, hi, rfl⟩ := hafter hrest
    obtain ⟨j, hj, rfl⟩ := hafter hrest'
    exact ⟨i, j, name, hi, hj, rfl⟩
  · cases h

/-- An end that looks like a node is read as two numbers and a name. -/
theorem readEndpoint_append {t i j name : Text} (hi : Text.Decimal i) (hj : Text.Decimal j)
    (htrim : Text.trim t = i ++ ':' :: (j ++ ':' :: name))
    (hlooks : looksLikeNode (Text.trim t) = true) :
    readEndpoint t = (do
      let topology ← Node.readNumber .topology i (Text.trim t)
      let ordinal ← Node.readNumber .ordinal j (Text.trim t)
      Node.ofNumbers topology ordinal name) := by
  have hcolon : Text.isDecimalDigit ':' = false := by decide
  have hne : Text.trim t ≠ [] := by
    rw [htrim]
    simp
  simp only [readEndpoint, if_neg hne, hlooks, if_true]
  rw [htrim]
  exact Node.read_append (hi.not_mem hcolon) (hj.not_mem hcolon) name

/-- Any other end is the name of a stage with the numbers 1 and 1. -/
theorem readEndpoint_bare {t : Text} (hne : Text.trim t ≠ [])
    (hlooks : looksLikeNode (Text.trim t) = false) :
    readEndpoint t = Node.ofNumbers 1 1 (Text.trim t) := by
  have hone : ':' ∉ ['1'] := by decide
  have hread := Node.read_append hone hone (Text.trim t)
  simp only [readEndpoint, if_neg hne, hlooks, Bool.false_eq_true, if_false]
  exact hread

/-- An end is a sentinel exactly if it spells one. -/
theorem readEndpoint_sentinel_iff {t : Text} :
    (∃ n, readEndpoint t = .ok n ∧ n.isSentinel = true) ↔ SpellsSentinel t := by
  constructor
  · rintro ⟨n, hn, hsentinel⟩
    by_cases hne : Text.trim t = []
    · simp only [readEndpoint, if_pos hne] at hn
      cases hn
    cases hlooks : looksLikeNode (Text.trim t) with
    | true =>
      obtain ⟨i, j, name, hi, hj, htrim⟩ := exists_append_of_looksLikeNode hlooks
      rw [readEndpoint_append hi hj htrim hlooks] at hn
      obtain ⟨topology, htopology, hn⟩ := bind_eq_ok.1 hn
      obtain ⟨ordinal, hordinal, hn⟩ := bind_eq_ok.1 hn
      obtain ⟨rfl, rfl, hname⟩ := isSentinel_ofNumbers_iff.1 ⟨n, hn, hsentinel⟩
      exact ⟨i, j, name, (readNumber_eq_zero_iff hi).1 htopology,
        (readNumber_eq_zero_iff hj).1 hordinal, hname, htrim⟩
    | false =>
      rw [readEndpoint_bare hne hlooks] at hn
      cases (isSentinel_ofNumbers_iff.1 ⟨n, hn, hsentinel⟩).1
  · rintro ⟨i, j, name, hi, hj, hname, htrim⟩
    have hlooks : looksLikeNode (Text.trim t) = true := by
      rw [htrim, looksLikeNode_append hi.decimal hj.decimal]
      rcases hname with rfl | rfl <;> decide
    rw [readEndpoint_append hi.decimal hj.decimal htrim hlooks,
      (readNumber_eq_zero_iff hi.decimal).2 hi, (readNumber_eq_zero_iff hj.decimal).2 hj]
    exact isSentinel_ofNumbers_iff.2 ⟨rfl, rfl, hname⟩

/-- A reserved name without numbers is read as a stage of this name. -/
theorem readEndpoint_reserved {t : Text} (h : Reserved (Text.trim t)) :
    ∃ n, readEndpoint t = .ok n ∧ n.name = Text.trim t ∧ n.isSentinel = false := by
  have hbare : ∀ name, Reserved name → name ≠ [] ∧ looksLikeNode name = false ∧
      ∃ n, Node.ofNumbers 1 1 name = .ok n ∧ n.name = name ∧ n.isSentinel = false := by
    rintro _ (rfl | rfl) <;> exact ⟨by decide, by decide, _, rfl, rfl, rfl⟩
  obtain ⟨hne, hlooks, hnode⟩ := hbare _ h
  rwa [readEndpoint_bare hne hlooks]

end StageGraph
