import Mathlib.Tactic
import StageGraph.Node.Text

set_option autoImplicit false

/-! # The text of a node is read as the node

The numbers of a node are written in ASCII digits, so the first two colons of the text are those
behind the numbers, and the name may hold what it likes (`Node.read_text`).
-/

namespace StageGraph

namespace Text

theorem cutAt_append {c : Char} {s : Text} (hc : c ∉ s) (t : Text) :
    cutAt c (s ++ c :: t) = some (s, t) := by
  induction s with
  | nil => rw [List.nil_append, cutAt, if_pos rfl]
  | cons d s ih =>
    rw [List.mem_cons, not_or] at hc
    obtain ⟨hd, hs⟩ := hc
    rw [List.cons_append, cutAt, if_neg (Ne.symm hd), ih hs]
    rfl

theorem trimmed_of_forall {t : Text} (h : ∀ c ∈ t, isBlank c = false) : Trimmed t :=
  ⟨fun c hc => h c (List.mem_of_mem_head? hc), fun c hc => h c (List.mem_of_getLast? hc)⟩

/-- The graphic characters of ASCII are not white space. -/
theorem isBlank_of_graphic {c : Char} (h : 0x21 ≤ c.toNat ∧ c.toNat ≤ 0x7E) :
    isBlank c = false := by
  simp only [isBlank, Bool.or_eq_false_iff, Bool.and_eq_false_iff, decide_eq_false_iff_not,
    beq_eq_false_iff_ne]
  omega

/-! ## Written numbers -/

theorem isDigit_of_mem_ofNat {n : Nat} {c : Char} (h : c ∈ ofNat n) : c.isDigit = true :=
  Nat.isDigit_of_mem_toDigits (by decide) (by decide) h

theorem ofNat_ne_nil (n : Nat) : ofNat n ≠ [] := Nat.toDigits_ne_nil

theorem isBlank_of_isDigit {c : Char} (h : c.isDigit = true) : isBlank c = false := by
  have hrange : 48 ≤ c.toNat ∧ c.toNat ≤ 57 := Char.isDigit_iff_toNat.1 h
  exact isBlank_of_graphic (by omega)

/-- ASCII digits are digits by the shape test as well. -/
theorem isDecimalDigit_of_isDigit {c : Char} (h : c.isDigit = true) : isDecimalDigit c = true := by
  have hrange : 48 ≤ c.toNat ∧ c.toNat ≤ 57 := Char.isDigit_iff_toNat.1 h
  rw [isDecimalDigit, List.any_eq_true]
  exact ⟨0x30, List.mem_cons_self, by simpa using hrange⟩

/-- The text is a run of digits by the shape test. -/
structure Decimal (t : Text) : Prop where
  ne_nil : t ≠ []
  digits : ∀ c ∈ t, isDecimalDigit c = true

theorem Decimal.not_mem {t : Text} {c : Char} (h : Decimal t) (hc : isDecimalDigit c = false) :
    c ∉ t := by
  intro hmem
  rw [h.digits c hmem] at hc
  cases hc

theorem decimal_ofNat (n : Nat) : Decimal (ofNat n) :=
  ⟨ofNat_ne_nil n, fun _ hc => isDecimalDigit_of_isDigit (isDigit_of_mem_ofNat hc)⟩

theorem digitsValue_ofNat (n : Nat) : digitsValue (ofNat n) = n := by
  rw [digitsValue, ← Nat.ofDigitChars_eq_foldl, ofNat, Nat.ofDigitChars_ten_toDigits]

/-- No sign stands in front of a run of digits. -/
theorem word?_of_decimal {t : Text} (h : Decimal t) :
    word? t = if t.all Char.isDigit = true ∧ digitsValue t < UInt32.size then
      some (UInt32.ofNat (digitsValue t)) else none := by
  have hplus : ∀ rest, t ≠ '+' :: rest := by
    rintro rest rfl
    exact h.not_mem (by decide) List.mem_cons_self
  -- `hplus` rules out the branch that drops a sign
  simp [word?, h.ne_nil]

theorem word?_ofNat (n : UInt32) : word? (ofNat n.toNat) = some n := by
  have hdigits : (ofNat n.toNat).all Char.isDigit = true :=
    List.all_eq_true.2 fun c hc => isDigit_of_mem_ofNat hc
  rw [word?_of_decimal (decimal_ofNat _), digitsValue_ofNat, if_pos ⟨hdigits, n.toNat_lt⟩,
    UInt32.ofNat_toNat]

theorem trim_ofNat (n : Nat) : trim (ofNat n) = ofNat n :=
  trim_eq_self_of_trimmed
    (trimmed_of_forall fun _ hc => isBlank_of_isDigit (isDigit_of_mem_ofNat hc))

theorem not_mem_ofNat {n : Nat} {c : Char} (hc : c.isDigit = false) : c ∉ ofNat n := by
  intro hmem
  rw [isDigit_of_mem_ofNat hmem] at hc
  cases hc

end Text

namespace Node

theorem name_ne_nil : ∀ n : Node, n.name ≠ []
  | start | finish => by decide
  | stage s => s.name_ne_nil

theorem trimmed_name : ∀ n : Node, Text.Trimmed n.name
  | start | finish => ⟨by rintro _ ⟨⟩; rfl, by rintro _ ⟨⟩; rfl⟩
  | stage s => s.name_trimmed

theorem readNumber_ofNat (part : NumberPart) (n : UInt32) (whole : Text) :
    readNumber part (Text.ofNat n.toNat) whole = .ok n := by
  rw [readNumber, Text.trim_ofNat, Text.word?_ofNat]

/-- Parts that make a node make a stage of these parts. -/
theorem exists_stage_of_ofParts {topology ordinal : UInt32} {name : Text} {n : Node}
    (h : ofParts topology ordinal name = .ok n) : ∃ s : Stage, n = stage s ∧
      s.topology = topology ∧ s.ordinal = ordinal ∧ s.name = Text.trim name := by
  unfold ofParts at h
  split at h
  · cases h
  split at h
  · cases h
  split at h
  · cases h
  · cases h
    exact ⟨_, rfl, rfl, rfl, rfl⟩

/-- The parts of a node make the node. -/
theorem ofNumbers_parts : ∀ n : Node, ofNumbers n.topology n.ordinal n.name = .ok n
  | start | finish => rfl
  | stage s => by
    have hzero : ¬ s.topology = 0 := s.topology_ne_zero
    have htrim : Text.trim s.name = s.name := Text.trim_eq_self_of_trimmed s.name_trimmed
    simp only [ofNumbers, topology, ordinal, name, hzero, false_and, if_false, ofParts, dite_false,
      s.ordinal_ne_zero, htrim, s.name_ne_nil]

/-- A text with two colons is read as the two numbers in front of them, and a name. -/
theorem read_append {i j : Text} (hi : ':' ∉ i) (hj : ':' ∉ j) (name : Text) :
    read (i ++ ':' :: (j ++ ':' :: name)) = (do
      let topology ← readNumber .topology i (i ++ ':' :: (j ++ ':' :: name))
      let ordinal ← readNumber .ordinal j (i ++ ':' :: (j ++ ':' :: name))
      ofNumbers topology ordinal name) := by
  simp only [read, Text.cutAt_append hi, Text.cutAt_append hj]

/-- The text of a node is read as the node. -/
theorem read_text (n : Node) : read n.text = .ok n := by
  have hcolon : ∀ m, ':' ∉ Text.ofNat m := fun m => Text.not_mem_ofNat rfl
  rw [text, List.append_assoc, List.cons_append, read_append (hcolon _) (hcolon _),
    readNumber_ofNat, readNumber_ofNat]
  exact n.ofNumbers_parts

/-- Different nodes have different texts. -/
theorem text_injective : Function.Injective text := by
  intro m n h
  have hread := m.read_text
  rw [h, n.read_text] at hread
  exact (Except.ok.inj hread).symm

/-- The text of a node starts with a digit. -/
theorem text_eq_cons (n : Node) : ∃ d t, n.text = d :: t ∧ d.isDigit = true := by
  obtain ⟨d, t, hd⟩ := List.exists_cons_of_ne_nil (Text.ofNat_ne_nil n.topology.toNat)
  refine ⟨d, _, by rw [text, hd]; rfl, ?_⟩
  exact Text.isDigit_of_mem_ofNat (hd ▸ List.mem_cons_self)

theorem trimmed_text (n : Node) : Text.Trimmed n.text := by
  obtain ⟨d, t, hd, hdigit⟩ := n.text_eq_cons
  constructor
  · intro c hc
    rw [hd] at hc
    cases hc
    exact Text.isBlank_of_isDigit hdigit
  · intro c hc
    rw [text, List.append_cons, List.getLast?_append_of_ne_nil _ n.name_ne_nil] at hc
    exact n.trimmed_name.2 c hc

end Node

/-! ## Stages of one letter -/

/-- The stage that a bare name of one letter stands for. -/
def letterStage (c : Char) (hc : Text.isBlank c = false) : Node :=
  .stage ⟨1, 1, [c], by decide, by decide, List.cons_ne_nil _ _, by simp [hc], by simp [hc]⟩

theorem letterStage_ne {c d : Char} (hc : Text.isBlank c = false) (hd : Text.isBlank d = false)
    (hne : c ≠ d) : letterStage c hc ≠ letterStage d hd := by
  intro h
  have hname : [c] = [d] := congrArg Node.name h
  exact hne (List.cons.inj hname).1

end StageGraph
