set_option autoImplicit false

/-! # Texts, white space and byte offsets

A text is the list of its characters. Offsets into a text count bytes of its UTF-8 form, so
`slice` and `bytes` go by the width of each character and not by its index.

White space is the Unicode property White_Space. A text is *trimmed* when it neither starts nor
ends with white space; `trim` makes a text trimmed and leaves a trimmed text alone.
-/

namespace StageGraph

/-- A text, as the list of its characters. -/
abbrev Text := List Char

/-- Texts hash as lists of characters do, whatever other instances are in scope. -/
instance : Hashable Text := @instHashableList Char instHashableChar

namespace Text

/-! ## Bytes -/

/-- How many bytes the text takes in UTF-8. -/
def bytes : Text → Nat
  | [] => 0
  | c :: rest => c.utf8Size + bytes rest

/-- The longest opening part of the text that fits into `n` bytes. -/
def takeBytes : Nat → Text → Text
  | _, [] => []
  | n, c :: rest => if c.utf8Size ≤ n then c :: takeBytes (n - c.utf8Size) rest else []

/-- What is left of the text once the characters that start in its first `n` bytes are gone. -/
def dropBytes : Nat → Text → Text
  | 0, t => t
  | _ + 1, [] => []
  | n + 1, c :: rest => dropBytes (n + 1 - c.utf8Size) rest

/-- The characters between the byte offsets `start` and `stop`. -/
def slice (t : Text) (start stop : Nat) : Text :=
  takeBytes (stop - start) (dropBytes start t)

@[simp] theorem bytes_nil : bytes [] = 0 := rfl

@[simp] theorem bytes_cons (c : Char) (t : Text) : bytes (c :: t) = c.utf8Size + bytes t := rfl

@[simp] theorem bytes_append (s t : Text) : bytes (s ++ t) = bytes s + bytes t := by
  induction s with
  | nil => simp
  | cons c s ih => simp [ih, Nat.add_assoc]

theorem bytes_reverse (t : Text) : bytes t.reverse = bytes t := by
  induction t with
  | nil => rfl
  | cons c t ih => simp [ih, Nat.add_comm]

theorem bytes_pos_of_ne_nil {t : Text} (h : t ≠ []) : 0 < bytes t := by
  cases t with
  | nil => exact absurd rfl h
  | cons c t => have := c.utf8Size_pos; simp only [bytes_cons]; omega

theorem bytes_takeBytes_le (n : Nat) (t : Text) : bytes (takeBytes n t) ≤ n := by
  induction t generalizing n with
  | nil => simp [takeBytes]
  | cons c t ih =>
    unfold takeBytes
    split
    · have := ih (n - c.utf8Size)
      simp only [bytes_cons]
      omega
    · simp

theorem bytes_slice_le (t : Text) (start stop : Nat) : bytes (slice t start stop) ≤ stop - start :=
  bytes_takeBytes_le _ _

theorem dropBytes_cons (c : Char) (n : Nat) (t : Text) :
    dropBytes (c.utf8Size + n) (c :: t) = dropBytes n t := by
  have hpos := c.utf8Size_pos
  obtain ⟨k, hk⟩ : ∃ k, c.utf8Size + n = k + 1 := ⟨c.utf8Size + n - 1, by omega⟩
  rw [hk, dropBytes, ← hk, Nat.add_sub_cancel_left]

@[simp] theorem dropBytes_zero (t : Text) : dropBytes 0 t = t := by
  cases t <;> rfl

theorem dropBytes_append (s t : Text) : dropBytes (bytes s) (s ++ t) = t := by
  induction s with
  | nil => exact dropBytes_zero t
  | cons c s ih => rw [bytes_cons, List.cons_append, dropBytes_cons, ih]

theorem takeBytes_append (s t : Text) : takeBytes (bytes s) (s ++ t) = s := by
  induction s with
  | nil =>
    cases t with
    | nil => rfl
    | cons c t =>
      have hpos := c.utf8Size_pos
      have hc : ¬ c.utf8Size ≤ 0 := by omega
      simp [takeBytes, hc]
  | cons c s ih =>
    simp only [bytes_cons, List.cons_append, takeBytes, Nat.le_add_right, if_true,
      Nat.add_sub_cancel_left, ih]

/-- The slice between the end of one part and the end of the next is the next part. -/
theorem slice_append (a b c : Text) : slice (a ++ (b ++ c)) (bytes a) (bytes a + bytes b) = b := by
  rw [slice, dropBytes_append, Nat.add_sub_cancel_left, takeBytes_append]

/-! ## White space -/

/-- The Unicode property White_Space. -/
def isBlank (c : Char) : Bool :=
  let n := c.toNat
  (9 ≤ n && n ≤ 13) || n == 0x20 || n == 0x85 || n == 0xA0 || n == 0x1680 ||
    (0x2000 ≤ n && n ≤ 0x200A) || n == 0x2028 || n == 0x2029 || n == 0x202F || n == 0x205F ||
    n == 0x3000

/-- The text without its leading white space. -/
def trimStart (t : Text) : Text := t.dropWhile isBlank

/-- The text without its trailing white space. -/
def trimEnd (t : Text) : Text := (t.reverse.dropWhile isBlank).reverse

/-- The text without white space at either end. -/
def trim (t : Text) : Text := trimEnd (trimStart t)

/-- Neither the first nor the last character of the text is white space. -/
def Trimmed (t : Text) : Prop :=
  (∀ c ∈ t.head?, isBlank c = false) ∧ (∀ c ∈ t.getLast?, isBlank c = false)

theorem head?_trimStart (t : Text) : ∀ c ∈ (trimStart t).head?, isBlank c = false := by
  intro c hc
  have h := List.head?_dropWhile_not isBlank t
  rw [show (List.dropWhile isBlank t).head? = some c from hc] at h
  exact h

theorem exists_trimEnd_append (t : Text) : ∃ rest, trimEnd t ++ rest = t := by
  obtain ⟨rest, hrest⟩ := List.dropWhile_suffix isBlank (l := t.reverse)
  refine ⟨rest.reverse, ?_⟩
  rw [trimEnd, ← List.reverse_append, hrest, List.reverse_reverse]

theorem trimmed_trim (t : Text) : Trimmed (trim t) := by
  refine ⟨fun c hc => ?_, fun c hc => ?_⟩
  · obtain ⟨rest, hrest⟩ := exists_trimEnd_append (trimStart t)
    apply head?_trimStart t c
    rw [← hrest, List.head?_append, show (trimEnd (trimStart t)).head? = some c from hc]
    rfl
  · have h := List.head?_dropWhile_not isBlank (trimStart t).reverse
    have hc' : (List.dropWhile isBlank (trimStart t).reverse).head? = some c := by
      simpa [trim, trimEnd] using hc
    rw [hc'] at h
    exact h

theorem dropWhile_eq_self_of_head {t : Text} (h : ∀ c ∈ t.head?, isBlank c = false) :
    t.dropWhile isBlank = t := by
  cases t with
  | nil => rfl
  | cons c t => simp [h c rfl]

/-- Trimming changes nothing about a trimmed text. -/
theorem trim_eq_self_of_trimmed {t : Text} (h : Trimmed t) : trim t = t := by
  have hs : trimStart t = t := dropWhile_eq_self_of_head h.1
  have he : t.reverse.dropWhile isBlank = t.reverse :=
    dropWhile_eq_self_of_head fun c hc => h.2 c (by simpa using hc)
  simp [trim, hs, trimEnd, he]

@[simp] theorem trim_trim (t : Text) : trim (trim t) = trim t :=
  trim_eq_self_of_trimmed (trimmed_trim t)

theorem bytes_dropWhile_le (p : Char → Bool) (t : Text) : bytes (t.dropWhile p) ≤ bytes t := by
  induction t with
  | nil => simp
  | cons c t ih =>
    rw [List.dropWhile_cons]
    split
    · simp only [bytes_cons]; omega
    · exact Nat.le_refl _

theorem bytes_trim_le (t : Text) : bytes (trim t) ≤ bytes t := by
  have hs := bytes_dropWhile_le isBlank t
  have he := bytes_dropWhile_le isBlank (trimStart t).reverse
  simp only [bytes_reverse] at he
  simp only [trim, trimEnd, bytes_reverse]
  exact Nat.le_trans he hs

theorem mem_of_mem_trim {c : Char} {t : Text} (h : c ∈ trim t) : c ∈ t := by
  obtain ⟨rest, hrest⟩ := exists_trimEnd_append (trimStart t)
  have h1 : c ∈ trimStart t := hrest ▸ List.mem_append_left rest h
  exact (List.dropWhile_suffix isBlank).subset h1

/-! ## Cutting at a character -/

/-- What stands before and after the first `c` of the text; nothing when `c` does not occur. -/
def cutAt (c : Char) : Text → Option (Text × Text)
  | [] => none
  | d :: rest =>
    if d = c then some ([], rest)
    else (cutAt c rest).map fun parts => (d :: parts.1, parts.2)

theorem eq_append_of_cutAt {c : Char} {t before after : Text}
    (h : cutAt c t = some (before, after)) : t = before ++ c :: after ∧ c ∉ before := by
  induction t generalizing before with
  | nil => simp [cutAt] at h
  | cons d t ih =>
    unfold cutAt at h
    split at h
    · next hd => cases h; exact ⟨by simp [hd], by simp⟩
    · next hd =>
      obtain ⟨⟨b, a⟩, hcut, hparts⟩ := Option.map_eq_some_iff.1 h
      cases hparts
      obtain ⟨ht, hb⟩ := ih hcut
      refine ⟨by simp [ht], fun hmem => ?_⟩
      rcases List.mem_cons.1 hmem with hc | hc
      · exact hd hc.symm
      · exact hb hc

end Text

end StageGraph
