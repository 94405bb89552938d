import Mathlib.Tactic
import StageGraph.Proofs.EdgeList.Ends

set_option autoImplicit false

/-! # Explicit ids and bare names

Two readers meet in the ends of listed edges. `Node.read` takes a text apart at its first two colons
and is generous with the numbers: it drops white space around them and takes a plus sign. An end is
handed to it only if it is an explicit id (`ExplicitId`), with nothing but digits in front of the
two colons and a name that is not blank; every other end is a bare name (`exists_bare`).

So the readers agree on explicit ids, failures included (`ExplicitId.readEndpoint_eq`). They differ
on texts whose numbers are decorated with a sign or white space: `Node.read` takes these for nodes,
and as ends they are names (`readEndpoint_eq_of_read_iff`).
-/

namespace StageGraph

/-! ## The parts of a node text -/

/-- What the text has in front of its first colon, between its first two colons and behind them. -/
structure NodeParts (t i j name : Text) : Prop where
  text_eq : t = i ++ ':' :: (j ++ ':' :: name)
  topology_free : ':' ∉ i
  ordinal_free : ':' ∉ j

/-- The text is an explicit id: two runs of decimal digits, of whatever script, with colons behind
them, and a name that is not blank. -/
structure ExplicitId (t i j name : Text) : Prop where
  text_eq : t = i ++ ':' :: (j ++ ':' :: name)
  topology : Text.Decimal i
  ordinal : Text.Decimal j
  named : Text.trim name ≠ []

section

variable {t i j name i' j' name' : Text}

theorem ExplicitId.parts (h : ExplicitId t i j name) : NodeParts t i j name where
  text_eq := h.text_eq
  topology_free := h.topology.not_mem (by decide)
  ordinal_free := h.ordinal.not_mem (by decide)

/-- There is only one way to take a text apart at its first two colons. -/
theorem NodeParts.unique (h : NodeParts t i j name) (h' : NodeParts t i' j' name') :
    i = i' ∧ j = j' ∧ name = name' := by
  have hfst := Text.cutAt_append h.topology_free (j ++ ':' :: name)
  rw [← h.text_eq, h'.text_eq, Text.cutAt_append h'.topology_free] at hfst
  obtain ⟨rfl, hrest⟩ := Prod.mk.inj (Option.some.inj hfst)
  have hsnd := Text.cutAt_append h.ordinal_free name
  rw [← hrest, Text.cutAt_append h'.ordinal_free] at hsnd
  obtain ⟨rfl, rfl⟩ := Prod.mk.inj (Option.some.inj hsnd)
  exact ⟨rfl, rfl, rfl⟩

theorem Text.trim_ne_nil_iff : Text.trim t ≠ [] ↔ (t.any fun c => !Text.isBlank c) = true := by
  rw [← not_iff_not, not_not, Bool.not_eq_true, List.any_eq_false]
  simp only [Bool.not_eq_true', Bool.not_eq_false]
  constructor
  · intro h
    obtain ⟨v, w, hv, hw, ht⟩ := Text.exists_blank_around t
    rw [h, List.nil_append] at ht
    rw [ht]
    intro c hc
    exact (List.mem_append.1 hc).elim (hv c) (hw c)
  · intro h
    rw [Text.trim, Text.trimStart, List.dropWhile_eq_nil_iff.2 h]
    rfl

/-- The shape test finds the explicit ids. -/
theorem looksLikeNode_iff : looksLikeNode t = true ↔ ∃ i j name, ExplicitId t i j name := by
  constructor
  · intro h
    obtain ⟨i, j, name, hi, hj, rfl⟩ := exists_append_of_looksLikeNode h
    rw [looksLikeNode_append hi hj, ← Text.trim_ne_nil_iff] at h
    exact ⟨i, j, name, rfl, hi, hj, h⟩
  · rintro ⟨i, j, name, rfl, hi, hj, hname⟩
    rw [looksLikeNode_append hi hj, ← Text.trim_ne_nil_iff]
    exact hname

/-! ## Numbers -/

/-- The text writes a number between 1 and 2^32 - 1 in ASCII digits. -/
structure Text.Counts (t : Text) : Prop where
  digits : ∀ c ∈ t, c.isDigit = true
  pos : 0 < Text.digitsValue t
  lt : Text.digitsValue t < UInt32.size

/-- A run of digits is read as a number other than 0 exactly if it writes one that fits. -/
theorem Node.readNumber_counts_iff {part : NumberPart} {whole : Text} (h : Text.Decimal t) :
    (∃ n, Node.readNumber part t whole = .ok n ∧ n ≠ 0) ↔ Text.Counts t := by
  rw [Node.readNumber, h.trim_eq, Text.word?_of_decimal h]
  by_cases hfits : t.all Char.isDigit = true ∧ Text.digitsValue t < UInt32.size
  · rw [if_pos hfits]
    have hzero : UInt32.ofNat (Text.digitsValue t) ≠ 0 ↔ 0 < Text.digitsValue t := by
      rw [ne_eq, ← UInt32.toNat_inj, UInt32.toNat_ofNat_of_lt' hfits.2, UInt32.toNat_zero]
      omega
    constructor
    · rintro ⟨n, hn, hne⟩
      cases hn
      exact ⟨List.all_eq_true.1 hfits.1, hzero.1 hne, hfits.2⟩
    · intro hcounts
      exact ⟨_, rfl, hzero.2 hcounts.pos⟩
  · rw [if_neg hfits]
    constructor
    · rintro ⟨n, hn, -⟩
      cases hn
    · intro hcounts
      exact absurd ⟨List.all_eq_true.2 hcounts.digits, hcounts.lt⟩ hfits

/-- The text holds neither a plus sign nor white space. -/
def Text.Undecorated (t : Text) : Prop := ∀ c ∈ t, c ≠ '+' ∧ Text.isBlank c = false

theorem Text.Decimal.undecorated (h : Text.Decimal t) : Text.Undecorated t := by
  intro c hc
  have hdigit := h.digits c hc
  refine ⟨?_, Text.isBlank_of_isDecimalDigit hdigit⟩
  rintro rfl
  exact absurd hdigit (by decide)

/-- A number that is read is a run of digits, but for what decorates it. -/
theorem Text.Undecorated.decimal {n : UInt32} (h : Text.Undecorated t)
    (hword : Text.word? (Text.trim t) = some n) : Text.Decimal t := by
  rw [Text.trim_eq_self_of_trimmed (Text.trimmed_of_forall fun c hc => (h c hc).2)] at hword
  have hplus : ∀ rest, t ≠ '+' :: rest := by
    rintro rest rfl
    exact (h '+' List.mem_cons_self).1 rfl
  have hword : (if t ≠ [] ∧ t.all Char.isDigit = true ∧ Text.digitsValue t < UInt32.size then
      some (UInt32.ofNat (Text.digitsValue t)) else none) = some n := by
    -- `hplus` rules out the branch that drops a sign
    simpa [Text.word?, hplus] using hword
  obtain ⟨⟨hne, hdigits, -⟩, -⟩ := Option.ite_none_right_eq_some.1 hword
  exact ⟨hne, fun c hc => Text.isDecimalDigit_of_isDigit (List.all_eq_true.1 hdigits c hc)⟩

/-! ## Nodes -/

theorem Node.word?_of_readNumber {part : NumberPart} {whole : Text} {n : UInt32}
    (h : Node.readNumber part t whole = .ok n) : Text.word? (Text.trim t) = some n := by
  unfold Node.readNumber at h
  split at h
  · next hword => cases h; exact hword
  · cases h

theorem NodeParts.read_eq (h : NodeParts t i j name) : Node.read t = (do
    let topology ← Node.readNumber .topology i t
    let ordinal ← Node.readNumber .ordinal j t
    Node.ofNumbers topology ordinal name) := by
  rw [h.text_eq]
  exact Node.read_append h.topology_free h.ordinal_free name

/-- What makes a node has a name. -/
theorem Node.trim_ne_nil_of_ofNumbers {topology ordinal : UInt32} {n : Node}
    (h : Node.ofNumbers topology ordinal name = .ok n) : Text.trim name ≠ [] := by
  unfold Node.ofNumbers at h
  split at h
  · next hstart => rw [hstart.2.2]; decide
  split at h
  · next hfinish => rw [hfinish.2.2]; decide
  · obtain ⟨s, -, -, -, hname⟩ := Node.exists_stage_of_ofParts h
    rw [← hname]
    exact s.name_ne_nil

/-- Numbers other than 0 make a stage of any name that is not blank. -/
theorem Node.exists_stage_of_ne_zero {topology ordinal : UInt32} (ht : topology ≠ 0)
    (ho : ordinal ≠ 0) (hname : Text.trim name ≠ []) :
    ∃ s : Stage, Node.ofNumbers topology ordinal name = .ok (.stage s) ∧
      s.topology = topology ∧ s.ordinal = ordinal ∧ s.name = Text.trim name := by
  refine ⟨⟨topology, ordinal, Text.trim name, ht, ho, hname, Text.trimmed_trim name⟩, ?_,
    rfl, rfl, rfl⟩
  simp [Node.ofNumbers, Node.ofParts, ht, ho, hname]

/-- The numbers of a stage are not 0. -/
theorem Node.ne_zero_of_ofNumbers {topology ordinal : UInt32} {n : Node}
    (h : Node.ofNumbers topology ordinal name = .ok n) (hstage : n.isSentinel = false) :
    topology ≠ 0 ∧ ordinal ≠ 0 := by
  unfold Node.ofNumbers at h
  split at h
  · cases h; cases hstage
  split at h
  · cases h; cases hstage
  · obtain ⟨s, -, rfl, rfl, -⟩ := Node.exists_stage_of_ofParts h
    exact ⟨s.topology_ne_zero, s.ordinal_ne_zero⟩

/-- A text that is read as a node is an explicit id if nothing decorates its numbers. -/
theorem NodeParts.explicitId {n : Node} (h : NodeParts t i j name) (hread : Node.read t = .ok n)
    (hi : Text.Undecorated i) (hj : Text.Undecorated j) : ExplicitId t i j name := by
  rw [h.read_eq] at hread
  obtain ⟨topology, htopology, hread⟩ := bind_eq_ok.1 hread
  obtain ⟨ordinal, hordinal, hread⟩ := bind_eq_ok.1 hread
  exact ⟨h.text_eq, hi.decimal (Node.word?_of_readNumber htopology),
    hj.decimal (Node.word?_of_readNumber hordinal), Node.trim_ne_nil_of_ofNumbers hread⟩

end

/-! ## Ends -/

section

variable {t i j name : Text}

/-- Explicit ids are read alike by both readers. -/
theorem ExplicitId.readEndpoint_eq (h : ExplicitId (Text.trim t) i j name) :
    readEndpoint t = Node.read (Text.trim t) := by
  rw [readEndpoint_append h.topology h.ordinal h.text_eq (looksLikeNode_iff.2 ⟨i, j, name, h⟩),
    h.parts.read_eq]

/-- Any other end is a bare name. -/
theorem exists_bare (hne : Text.trim t ≠ [])
    (h : ¬ ∃ i j name, ExplicitId (Text.trim t) i j name) :
    ∃ s : Stage, readEndpoint t = .ok (.stage s) ∧ s.topology = 1 ∧ s.ordinal = 1 ∧
      s.name = Text.trim t := by
  have hlooks : looksLikeNode (Text.trim t) = false := by
    rwa [← Bool.not_eq_true, looksLikeNode_iff]
  rw [readEndpoint_bare hne hlooks]
  have hname : Text.trim (Text.trim t) ≠ [] := by rwa [Text.trim_trim]
  have hstage := Node.exists_stage_of_ne_zero (show (1 : UInt32) ≠ 0 by decide)
    (show (1 : UInt32) ≠ 0 by decide) hname
  rwa [Text.trim_trim] at hstage

/-- What is read as a node is the same node as an end exactly if nothing decorates its numbers. -/
theorem readEndpoint_eq_of_read_iff {n : Node} (hparts : NodeParts (Text.trim t) i j name)
    (hread : Node.read (Text.trim t) = .ok n) :
    readEndpoint t = .ok n ↔ Text.Undecorated i ∧ Text.Undecorated j := by
  constructor
  · intro hend
    by_cases hexplicit : ∃ i j name, ExplicitId (Text.trim t) i j name
    · obtain ⟨i', j', name', hid⟩ := hexplicit
      obtain ⟨rfl, rfl, rfl⟩ := hparts.unique hid.parts
      exact ⟨hid.topology.undecorated, hid.ordinal.undecorated⟩
    -- a bare name is longer than the name behind the two colons
    · have hne : Text.trim t ≠ [] := by
        rw [hparts.text_eq]
        simp
      obtain ⟨s, hs, -, -, hname⟩ := exists_bare hne hexplicit
      cases hs.symm.trans hend
      rw [hparts.read_eq] at hread
      obtain ⟨topology, -, hread⟩ := bind_eq_ok.1 hread
      obtain ⟨ordinal, -, hread⟩ := bind_eq_ok.1 hread
      have hlength : (Text.trim t).length ≤ name.length := by
        rw [← hname]
        exact (Node.name_ofNumbers hread).length_le
      rw [hparts.text_eq] at hlength
      simp only [List.length_append, List.length_cons] at hlength
      omega
  · rintro ⟨hi, hj⟩
    rw [(hparts.explicitId hread hi hj).readEndpoint_eq, hread]

/-- An explicit id comes to nothing exactly if it is no sentinel and one of its numbers is not from
1 to 2^32 - 1, written in ASCII digits. -/
theorem ExplicitId.readEndpoint_error_iff (h : ExplicitId (Text.trim t) i j name) :
    (∃ failure, readEndpoint t = .error failure) ↔
      ¬ SpellsSentinel t ∧ ¬ (Text.Counts i ∧ Text.Counts j) := by
  have heq := h.readEndpoint_eq.trans h.parts.read_eq
  rw [← readEndpoint_sentinel_iff]
  constructor
  · rintro ⟨failure, hfailure⟩
    refine ⟨?_, ?_⟩
    · rintro ⟨n, hn, -⟩
      cases hn.symm.trans hfailure
    · rintro ⟨hi, hj⟩
      obtain ⟨topology, htopology, ht⟩ := (Node.readNumber_counts_iff h.topology).2 hi
      obtain ⟨ordinal, hordinal, ho⟩ := (Node.readNumber_counts_iff h.ordinal).2 hj
      obtain ⟨s, hs, -⟩ := Node.exists_stage_of_ne_zero ht ho h.named
      rw [htopology, hordinal] at heq
      cases (heq.trans hs).symm.trans hfailure
  · rintro ⟨hsentinel, hcounts⟩
    cases hend : readEndpoint t with
    | error failure => exact ⟨failure, rfl⟩
    | ok n =>
      refine absurd ?_ hcounts
      rw [hend] at heq
      obtain ⟨topology, htopology, hread⟩ := bind_eq_ok.1 heq.symm
      obtain ⟨ordinal, hordinal, hread⟩ := bind_eq_ok.1 hread
      have hstage : n.isSentinel = false := by
        rw [← Bool.not_eq_true]
        exact fun htrue => hsentinel ⟨n, hend, htrue⟩
      obtain ⟨ht, ho⟩ := Node.ne_zero_of_ofNumbers hread hstage
      exact ⟨(Node.readNumber_counts_iff h.topology).1 ⟨topology, htopology, ht⟩,
        (Node.readNumber_counts_iff h.ordinal).1 ⟨ordinal, hordinal, ho⟩⟩

end

/-- How the two readers agree on an end that is not blank. What is read as a node is the same node
as an end exactly if there is neither a plus sign nor white space at its numbers. An explicit id is
read alike by both, failures included, and any other end is a bare name, whether or not it would be
read as a node. So an end fails exactly if it is an explicit id, but no sentinel, with a number that
is 0, or too large, or not in ASCII digits. -/
theorem readEndpoint_agrees {t : Text} (hne : Text.trim t ≠ []) :
    (∀ i j name n, NodeParts (Text.trim t) i j name → Node.read (Text.trim t) = .ok n →
      (readEndpoint t = .ok n ↔ Text.Undecorated i ∧ Text.Undecorated j)) ∧
    ((∃ i j name, ExplicitId (Text.trim t) i j name) →
      readEndpoint t = Node.read (Text.trim t)) ∧
    ((¬ ∃ i j name, ExplicitId (Text.trim t) i j name) → ∃ s : Stage,
      readEndpoint t = .ok (.stage s) ∧ s.topology = 1 ∧ s.ordinal = 1 ∧ s.name = Text.trim t) ∧
    ((∃ failure, readEndpoint t = .error failure) ↔ ∃ i j name,
      ExplicitId (Text.trim t) i j name ∧ ¬ SpellsSentinel t ∧
        ¬ (Text.Counts i ∧ Text.Counts j)) := by
  refine ⟨fun i j name n hparts hread => readEndpoint_eq_of_read_iff hparts hread,
    fun ⟨i, j, name, hid⟩ => hid.readEndpoint_eq, exists_bare hne, ?_, ?_⟩
  · rintro ⟨failure, hfailure⟩
    by_cases hexplicit : ∃ i j name, ExplicitId (Text.trim t) i j name
    · obtain ⟨i, j, name, hid⟩ := hexplicit
      exact ⟨i, j, name, hid, hid.readEndpoint_error_iff.1 ⟨failure, hfailure⟩⟩
    · obtain ⟨s, hs, -⟩ := exists_bare hne hexplicit
      cases hs.symm.trans hfailure
  · rintro ⟨i, j, name, hid, hrest⟩
    exact hid.readEndpoint_error_iff.2 hrest

/-- The end ` 01:2: B:C` is the stage `B:C` with the numbers 1 and 2. -/
theorem readEndpoint_agrees_spaced : Text.trim " 01:2: B:C".toList ≠ [] ∧ ∃ n : Node,
    Node.read (Text.trim " 01:2: B:C".toList) = .ok n ∧
    readEndpoint " 01:2: B:C".toList = .ok n := by
  have hne : Text.trim " 01:2: B:C".toList ≠ [] := by decide
  have hparts : NodeParts (Text.trim " 01:2: B:C".toList) ['0', '1'] ['2'] " B:C".toList :=
    ⟨by decide, by decide, by decide⟩
  have htopology : Text.Decimal ['0', '1'] := ⟨by decide, List.all_eq_true.1 rfl⟩
  have hordinal : Text.Decimal ['2'] := ⟨by decide, List.all_eq_true.1 rfl⟩
  refine ⟨hne, _, rfl, ?_⟩
  exact ((readEndpoint_agrees hne).1 _ _ _ _ hparts rfl).2
    ⟨htopology.undecorated, hordinal.undecorated⟩

/-- A text that begins with a digit of another script than ASCII. -/
def foreignId : Text := ['\u0661', ':', '1', ':', 'A']

/-- The two readers part on a sign: `+1:1:A` is read as the stage `A`, and as an end it is a name of
six characters. A text with a digit of another script is no explicit id in ASCII digits and is not
read as a node, and still it is no bare name as an end. -/
theorem readEndpoint_decorated :
    (Node.read "+1:1:A".toList = .ok (letterStage 'A' rfl) ∧
      readEndpoint "+1:1:A".toList ≠ .ok (letterStage 'A' rfl)) ∧
    ((∀ i j name, foreignId = i ++ ':' :: (j ++ ':' :: name) → ∃ c ∈ i, c.isDigit = false) ∧
      (∃ failure, Node.read foreignId = .error failure) ∧
      ∀ n, readEndpoint foreignId ≠ .ok n) := by
  refine ⟨⟨rfl, by decide⟩, ?_, ⟨_, rfl⟩, ?_⟩
  · intro i j name h
    cases i with
    | nil => exact absurd (List.cons.inj h).1 (by decide)
    | cons c i => exact ⟨c, List.mem_cons_self, by rw [← (List.cons.inj h).1]; decide⟩
  · intro n h
    cases h

end StageGraph
