import Mathlib.Data.List.TakeWhile
import Mathlib.Tactic
import StageGraph.Plain.Completion
import StageGraph.Proofs.Plain.Layout

set_option autoImplicit false

/-! # Tokens

A text is read as marks and names: a name is what stands between two marks, without white space
around it, unless it is blank. White space around a whole text does not change its tokens
(`tokensOf_trim`), a text cut at some marks only has the tokens of its pieces
(`tokens_of_read`), and whether a text is balanced shows in its tokens (`depthAfter_eq_tokens`).
-/

namespace StageGraph

/-- A mark or a name of an expression. -/
inductive Token where
  | mark (k : Mark)
  | name (n : Text)
deriving DecidableEq

/-- The name that a piece of text is, unless it is blank. -/
def nameTokens (t : Text) : List Token :=
  if Text.trim t = [] then [] else [.name (Text.trim t)]

/-- The tokens of a text that has been cut at all its marks. -/
def Marked.tokens (m : Marked) : List Token :=
  nameTokens m.first ++ m.rest.flatMap fun piece => .mark piece.1 :: nameTokens piece.2

/-- The tokens of a text. -/
def tokensOf (t : Text) : List Token := (Marked.read (fun _ => true) t).tokens

/-! ## White space around a text -/

namespace Text

theorem trimStart_blank_append {w : Text} (hw : ∀ c ∈ w, isBlank c = true) (t : Text) :
    trimStart (w ++ t) = trimStart t := List.dropWhile_append_of_pos hw

theorem trimEnd_append_blank {w : Text} (hw : ∀ c ∈ w, isBlank c = true) (t : Text) :
    trimEnd (t ++ w) = trimEnd t := by
  rw [trimEnd, List.reverse_append,
    List.dropWhile_append_of_pos fun c hc => hw c (List.mem_reverse.1 hc)]
  rfl

theorem trim_blank_append {w : Text} (hw : ∀ c ∈ w, isBlank c = true) (t : Text) :
    trim (w ++ t) = trim t := by
  rw [trim, trimStart_blank_append hw]
  rfl

theorem trim_append_blank {w : Text} (hw : ∀ c ∈ w, isBlank c = true) (t : Text) :
    trim (t ++ w) = trim t := by
  by_cases ht : ∀ c ∈ t, isBlank c = true
  · have hnil : ∀ {v : Text}, (∀ c ∈ v, isBlank c = true) → trim v = [] := by
      intro v hv
      rw [trim, trimStart, List.dropWhile_eq_nil_iff.2 hv]
      rfl
    rw [hnil ht, hnil]
    intro c hc
    exact (List.mem_append.1 hc).elim (ht c) (hw c)
  · have hstart : trimStart (t ++ w) = trimStart t ++ w := by
      rw [trimStart, List.dropWhile_append, if_neg]
      · rfl
      · rw [List.isEmpty_iff, List.dropWhile_eq_nil_iff]
        exact ht
    rw [trim, hstart, trimEnd_append_blank hw]
    rfl

/-- A text is its trimmed text with white space around it. -/
theorem exists_blank_around (t : Text) :
    ∃ v w : Text, (∀ c ∈ v, isBlank c = true) ∧ (∀ c ∈ w, isBlank c = true) ∧
      t = v ++ (trim t ++ w) := by
  refine ⟨t.takeWhile isBlank, ((trimStart t).reverse.takeWhile isBlank).reverse, ?_, ?_, ?_⟩
  · intro c hc
    exact List.mem_takeWhile_imp hc
  · intro c hc
    exact List.mem_takeWhile_imp (List.mem_reverse.1 hc)
  · have hend : trim t ++ ((trimStart t).reverse.takeWhile isBlank).reverse = trimStart t := by
      rw [trim, trimEnd, ← List.reverse_append, List.takeWhile_append_dropWhile,
        List.reverse_reverse]
    rw [hend, trimStart, List.takeWhile_append_dropWhile]

end Text

theorem ofChar?_eq_none_of_isBlank {c : Char} (h : Text.isBlank c = true) :
    Mark.ofChar? c = none ∧ c ≠ '-' ∧ c ≠ '>' := by
  have hne : ∀ d : Char, Text.isBlank d = false → c ≠ d := by
    rintro d hd rfl
    rw [h] at hd
    cases hd
  refine ⟨?_, hne _ (by decide), hne _ (by decide)⟩
  rw [Mark.ofChar?, if_neg (hne _ (by decide)), if_neg (hne _ (by decide)),
    if_neg (hne _ (by decide)), if_neg (hne _ (by decide))]

namespace Marked

/-- A character that is neither a mark nor the start of an arrow belongs to the text before the
first mark. -/
theorem read_cons (accept : Mark → Bool) {c : Char} {rest : Text}
    (hc : Mark.ofChar? c = Option.none) (harrow : c = '-' → ∀ more, rest ≠ '>' :: more) :
    read accept (c :: rest) = pushChar c (read accept rest) := by
  rw [read.eq_def]
  split
  · next h => cases h
  · next h =>
    cases h
    exact absurd rfl (harrow rfl _)
  · next h =>
    cases h
    rw [hc]

/-- A character that is a mark of its own. -/
theorem read_mark (accept : Mark → Bool) {c : Char} {rest : Text} {k : Mark}
    (hc : Mark.ofChar? c = some k) :
    read accept (c :: rest) =
      if accept k then pushMark k (read accept rest) else pushChar c (read accept rest) := by
  rw [read.eq_def]
  split
  · next h => cases h
  · next h =>
    cases h
    cases hc
  · next h =>
    cases h
    rw [hc]

theorem read_arrow (accept : Mark → Bool) (rest : Text) :
    read accept ('-' :: '>' :: rest) =
      if accept .arrow then pushMark .arrow (read accept rest)
      else pushChar '-' (pushChar '>' (read accept rest)) := by
  rw [read]
  by_cases h : accept .arrow = true
  · rw [if_pos h, if_pos h]
  · rw [if_neg h, if_neg h, read_cons accept (by decide) (by rintro ⟨⟩)]

/-- The pieces without white space around each of them. -/
def trimAll (m : Marked) : Marked :=
  ⟨Text.trim m.first, m.rest.map fun piece => (piece.1, Text.trim piece.2)⟩

theorem tokens_trimAll (m : Marked) : m.trimAll.tokens = m.tokens := by
  simp only [trimAll, tokens, nameTokens, Text.trim_trim, List.flatMap_map]

theorem trimAll_pushBlank {c : Char} (hc : Text.isBlank c = true) (m : Marked) :
    (pushChar c m).trimAll = m.trimAll := by
  have : Text.trim (c :: m.first) = Text.trim m.first :=
    Text.trim_blank_append (w := [c]) (by simpa using hc) m.first
  simp only [trimAll, pushChar, this]

theorem trimAll_read_blank_append (accept : Mark → Bool) {w : Text}
    (hw : ∀ c ∈ w, Text.isBlank c = true) (t : Text) :
    (read accept (w ++ t)).trimAll = (read accept t).trimAll := by
  induction w with
  | nil => rfl
  | cons c w ih =>
    rw [List.forall_mem_cons] at hw
    obtain ⟨hmark, hdash, -⟩ := ofChar?_eq_none_of_isBlank hw.1
    rw [List.cons_append, read_cons _ hmark fun h => absurd h hdash, trimAll_pushBlank hw.1]
    exact ih hw.2

/-- The pieces with a text at the end of the last one. -/
def pushEnd (w : Text) : Text → List (Mark × Text) → Marked
  | first, [] => ⟨first ++ w, []⟩
  | first, (k, next) :: rest =>
    ⟨first, (k, (pushEnd w next rest).first) :: (pushEnd w next rest).rest⟩

theorem pushEnd_pushChar (w : Text) (c : Char) (m : Marked) :
    pushEnd w (pushChar c m).first (pushChar c m).rest =
      pushChar c (pushEnd w m.first m.rest) := by
  obtain ⟨first, rest⟩ := m
  cases rest with
  | nil => rfl
  | cons piece rest => rfl

theorem trimAll_pushEnd {w : Text} (hw : ∀ c ∈ w, Text.isBlank c = true) (m : Marked) :
    (pushEnd w m.first m.rest).trimAll = m.trimAll := by
  obtain ⟨first, rest⟩ := m
  induction rest generalizing first with
  | nil => simp only [pushEnd, trimAll, Text.trim_append_blank hw]
  | cons piece rest ih =>
    obtain ⟨k, next⟩ := piece
    have := ih next
    simp only [trimAll, Marked.mk.injEq] at this
    simp only [pushEnd, trimAll, List.map_cons, this]

theorem read_append_blank (accept : Mark → Bool) {w : Text}
    (hw : ∀ c ∈ w, Text.isBlank c = true) (t : Text) :
    read accept (t ++ w) = pushEnd w (read accept t).first (read accept t).rest := by
  fun_induction read accept t with
  | case1 =>
    induction w with
    | nil => rfl
    | cons c w ih =>
      rw [List.forall_mem_cons] at hw
      obtain ⟨hmark, hdash, -⟩ := ofChar?_eq_none_of_isBlank hw.1
      rw [List.nil_append] at ih ⊢
      rw [read_cons _ hmark fun h => absurd h hdash, ih hw.2]
      rfl
  | case2 rest h ih =>
    rw [List.cons_append, List.cons_append, read_arrow, if_pos h, ih]
    rfl
  | case3 rest h ih =>
    rw [List.cons_append, List.cons_append, read, if_neg h, ← List.cons_append, ih,
      pushEnd_pushChar]
  | case4 c rest _ k hk h ih =>
    rw [List.cons_append, read_mark _ hk, if_pos h, ih]
    rfl
  | case5 c rest _ k hk h ih =>
    rw [List.cons_append, read_mark _ hk, if_neg h, ih, pushEnd_pushChar]
  | case6 c rest hne hk ih =>
    rw [List.cons_append, read_cons _ hk, ih, pushEnd_pushChar]
    -- the white space does not complete an arrow either
    rintro rfl more hmore
    cases rest with
    | nil =>
      rw [List.nil_append] at hmore
      rw [hmore] at hw
      exact (ofChar?_eq_none_of_isBlank (hw '>' List.mem_cons_self)).2.2 rfl
    | cons d rest =>
      cases hmore
      exact hne rest rfl rfl

/-- White space around a text is white space around its first and its last piece. -/
theorem trimAll_read_trim (t : Text) :
    (read (fun _ => true) (Text.trim t)).trimAll = (read (fun _ => true) t).trimAll := by
  obtain ⟨v, w, hv, hw, ht⟩ := Text.exists_blank_around t
  calc (read (fun _ => true) (Text.trim t)).trimAll
      = (read (fun _ => true) (Text.trim t ++ w)).trimAll := by
        rw [read_append_blank _ hw, trimAll_pushEnd hw]
    _ = (read (fun _ => true) (v ++ (Text.trim t ++ w))).trimAll :=
        (trimAll_read_blank_append _ hv _).symm
    _ = (read (fun _ => true) t).trimAll := by rw [← ht]

end Marked

/-- White space around a text does not change its tokens. -/
theorem tokensOf_trim (t : Text) : tokensOf (Text.trim t) = tokensOf t := by
  rw [tokensOf, ← Marked.tokens_trimAll, Marked.trimAll_read_trim, Marked.tokens_trimAll, tokensOf]

example : tokensOf " A ->(B, C)".toList =
    [.name ['A'], .mark .arrow, .mark .opening, .name ['B'], .mark .comma, .name ['C'],
      .mark .closing] := by decide

/-! ## Reading again -/

namespace Marked

/-- The pieces read again at all their marks. -/
def expand (m : Marked) : Marked :=
  ⟨(read (fun _ => true) m.first).first, (read (fun _ => true) m.first).rest ++
    m.rest.flatMap fun piece =>
      (piece.1, (read (fun _ => true) piece.2).first) :: (read (fun _ => true) piece.2).rest⟩

theorem expand_pushMark (k : Mark) (m : Marked) : (pushMark k m).expand = pushMark k m.expand := by
  simp [pushMark, expand, read, none]

/-- A character that belongs to the first piece both times. -/
theorem expand_pushChar {c : Char} {m : Marked} (h : read (fun _ => true) (c :: m.first) =
    pushChar c (read (fun _ => true) m.first)) : (pushChar c m).expand = pushChar c m.expand := by
  rw [expand, show (pushChar c m).first = c :: m.first from rfl, h]
  rfl

/-- A character that is cut at the second time only. -/
theorem expand_pushChar_mark {c : Char} {k : Mark} {m : Marked}
    (h : read (fun _ => true) (c :: m.first) = pushMark k (read (fun _ => true) m.first)) :
    (pushChar c m).expand = pushMark k m.expand := by
  rw [expand, show (pushChar c m).first = c :: m.first from rfl, h]
  rfl

theorem expand_arrow (m : Marked) :
    (pushChar '-' (pushChar '>' m)).expand = pushMark .arrow m.expand := by
  rw [expand, show (pushChar '-' (pushChar '>' m)).first = '-' :: '>' :: m.first from rfl,
    read_arrow, if_pos rfl]
  rfl

theorem exists_eq_cons_of_first {accept : Mark → Bool} {t x : Text}
    (h : (read accept t).first = '>' :: x) : ∃ y, t = '>' :: y := by
  fun_induction read accept t with
  | case1 => cases h
  | case2 => cases h
  | case3 => cases h
  | case4 => cases h
  | case5 c rest => cases h; exact ⟨rest, rfl⟩
  | case6 c rest => cases h; exact ⟨rest, rfl⟩

/-- Cutting at some marks first and at all marks then is cutting at all marks. -/
theorem expand_read (accept : Mark → Bool) (t : Text) :
    (read accept t).expand = read (fun _ => true) t := by
  fun_induction read (fun _ => true) t with
  | case1 => rfl
  | case2 rest _ ih =>
    rw [read_arrow, ← ih]
    by_cases h : accept .arrow = true
    · rw [if_pos h, expand_pushMark]
    · rw [if_neg h, expand_arrow]
  | case3 rest h => exact absurd rfl h
  | case4 c rest _ k hk _ ih =>
    rw [read_mark _ hk, ← ih]
    by_cases h : accept k = true
    · rw [if_pos h, expand_pushMark]
    · rw [if_neg h, expand_pushChar_mark]
      rw [read_mark _ hk, if_pos rfl]
  | case5 c rest _ k hk h => exact absurd rfl h
  | case6 c rest hne hk ih =>
    rw [read_cons _ hk fun h more hmore => hne more h hmore, ← ih, expand_pushChar]
    -- an arrow at the start of the first piece would be one at the start of the text
    refine read_cons _ hk fun hc more hmore => ?_
    obtain ⟨y, hy⟩ := exists_eq_cons_of_first hmore
    exact hne y hc hy

theorem tokens_expand (m : Marked) :
    m.expand.tokens = tokensOf m.first ++
      m.rest.flatMap fun piece => .mark piece.1 :: tokensOf piece.2 := by
  have hrest : ∀ rest : List (Mark × Text),
      (rest.flatMap fun piece => (piece.1, (read (fun _ => true) piece.2).first) ::
        (read (fun _ => true) piece.2).rest).flatMap
          (fun piece => Token.mark piece.1 :: nameTokens piece.2) =
      rest.flatMap fun piece => Token.mark piece.1 :: tokensOf piece.2 := by
    intro rest
    induction rest with
    | nil => rfl
    | cons piece rest ih =>
      rw [List.flatMap_cons, List.flatMap_append, ih, List.flatMap_cons, List.flatMap_cons]
      simp [tokensOf, tokens]
  rw [expand, tokens, List.flatMap_append, hrest, ← List.append_assoc]
  rfl

end Marked

/-- A text cut at some marks has the tokens of its pieces, with these marks between them. -/
theorem tokensOf_eq (accept : Mark → Bool) (t : Text) :
    tokensOf t = tokensOf (Marked.read accept t).first ++
      (Marked.read accept t).rest.flatMap fun piece => .mark piece.1 :: tokensOf piece.2 := by
  calc tokensOf t = (Marked.read accept t).expand.tokens := by rw [Marked.expand_read, tokensOf]
    _ = _ := Marked.tokens_expand _

/-! ## What pieces hold -/

theorem isAtomic_cons {c : Char} {t : Text} (hc : Mark.ofChar? c = none ∨ c = ';')
    (harrow : c = '-' → ∀ more, t ≠ '>' :: more) (ht : isAtomic t = true) :
    isAtomic (c :: t) = true := by
  have hne : c ≠ ',' ∧ c ≠ '(' ∧ c ≠ ')' := by
    refine ⟨?_, ?_, ?_⟩ <;> (rintro rfl; revert hc; decide)
  rw [isAtomic.eq_def]
  split
  · rfl
  · next h =>
    cases h
    exact absurd rfl (harrow rfl _)
  · next h =>
    cases h
    simp [hne, ht]

theorem isAtomic_of_suffix {s t : Text} (h : isAtomic (s ++ t) = true) : isAtomic t = true := by
  induction s with
  | nil => exact h
  | cons c s ih =>
    rw [List.cons_append, isAtomic.eq_def] at h
    split at h
    · next h' => cases h'
    · cases h
    · next h' =>
      cases h'
      simp only [Bool.and_eq_true] at h
      exact ih h.2

theorem isAtomic_of_prefix {s t : Text} (h : isAtomic (s ++ t) = true) : isAtomic s = true := by
  fun_induction isAtomic s with
  | case1 => rfl
  | case2 rest => cases h
  | case3 c rest hne ih =>
    rw [List.cons_append, isAtomic.eq_def] at h
    split at h
    · next h' => cases h'
    · cases h
    · next h' =>
      cases h'
      simp only [Bool.and_eq_true] at h ⊢
      exact ⟨h.1, ih h.2⟩

theorem isAtomic_trim {t : Text} (h : isAtomic t = true) : isAtomic (Text.trim t) = true := by
  obtain ⟨v, w, -, -, ht⟩ := Text.exists_blank_around t
  rw [ht] at h
  exact isAtomic_of_prefix (isAtomic_of_suffix h)

theorem open_of_isAtomic {t : Text} (h : isAtomic t = true) : Layout.Open t := by
  fun_induction isAtomic t with
  | case1 => exact ⟨List.not_mem_nil, List.not_mem_nil⟩
  | case2 => cases h
  | case3 c rest hne ih =>
    simp only [Bool.and_eq_true, bne_iff_ne] at h
    obtain ⟨hopen, hclose⟩ := ih h.2
    exact ⟨by simp [hopen, Ne.symm h.1.1.2], by simp [hclose, Ne.symm h.1.2]⟩

/-- The name of a token is trimmed, not blank, and holds no mark. -/
structure IsName (n : Text) : Prop where
  ne_nil : n ≠ []
  trimmed : Text.Trimmed n
  atomic : isAtomic n = true

section

variable {accept : Mark → Bool} (haccept : ∀ k : Mark, k.isInner = true → accept k = true)

include haccept

/-- Where a text is cut at all inner marks, the pieces hold none of them. -/
theorem Marked.isAtomic_of_mem_texts {t p : Text} (h : p ∈ (read accept t).texts) :
    isAtomic p = true := by
  fun_induction read accept t generalizing p with
  | case1 =>
    rw [List.mem_singleton.1 h]
    rfl
  | case2 rest _ ih =>
    rcases List.mem_cons.1 h with rfl | h
    · rfl
    · exact ih h
  | case3 rest hno => exact absurd (haccept .arrow rfl) hno
  | case4 c rest _ k hk _ ih =>
    rcases List.mem_cons.1 h with rfl | h
    · rfl
    · exact ih h
  | case5 c rest hne k hk hno ih =>
    -- the only mark that may be left is the semicolon
    have hc : c = ';' := by
      cases k with
      | semicolon => simpa [Mark.text] using (text_ofChar? hk).symm
      | arrow | comma | opening | closing => exact absurd (haccept _ rfl) hno
    rcases List.mem_cons.1 h with rfl | h
    · exact isAtomic_cons (.inr hc) (by rw [hc]; rintro ⟨⟩) (ih List.mem_cons_self)
    · exact ih (List.mem_cons_of_mem _ h)
  | case6 c rest hne hk ih =>
    rcases List.mem_cons.1 h with rfl | h
    · refine isAtomic_cons (.inl hk) (fun hc more hmore => ?_) (ih List.mem_cons_self)
      obtain ⟨y, hy⟩ := exists_eq_cons_of_first hmore
      exact hne y hc hy
    · exact ih (List.mem_cons_of_mem _ h)

end

theorem mem_nameTokens {t n : Text} (h : Token.name n ∈ nameTokens t) :
    n = Text.trim t ∧ Text.trim t ≠ [] := by
  unfold nameTokens at h
  split at h
  · cases h
  · next hblank =>
    cases List.mem_singleton.1 h
    exact ⟨rfl, hblank⟩

theorem not_mem_nameTokens {t : Text} (k : Mark) : Token.mark k ∉ nameTokens t := by
  unfold nameTokens
  split
  · exact List.not_mem_nil
  · intro h
    cases List.mem_singleton.1 h

theorem isName_of_mem_tokens {accept : Mark → Bool}
    (haccept : ∀ k : Mark, k.isInner = true → accept k = true) {t n : Text}
    (h : Token.name n ∈ (Marked.read accept t).tokens) : IsName n := by
  have hpiece : ∀ p ∈ (Marked.read accept t).texts, Token.name n ∈ nameTokens p → IsName n := by
    intro p hp hn
    obtain ⟨rfl, hblank⟩ := mem_nameTokens hn
    exact ⟨hblank, Text.trimmed_trim p, isAtomic_trim (Marked.isAtomic_of_mem_texts haccept hp)⟩
  rcases List.mem_append.1 h with h | h
  · exact hpiece _ List.mem_cons_self h
  · obtain ⟨piece, hp, hn⟩ := List.mem_flatMap.1 h
    rcases List.mem_cons.1 hn with hn | hn
    · cases hn
    · exact hpiece _ (List.mem_cons_of_mem _ (List.mem_map_of_mem hp)) hn

theorem isName_of_mem_tokensOf {t n : Text} (h : Token.name n ∈ tokensOf t) : IsName n :=
  isName_of_mem_tokens (fun _ _ => rfl) h

/-! ## Sections -/

/-- A text without a semicolon has no such token. -/
theorem not_mem_tokensOf {t : Text} (h : ';' ∉ t) : Token.mark .semicolon ∉ tokensOf t := by
  intro hmem
  rcases List.mem_append.1 hmem with hmem | hmem
  · exact not_mem_nameTokens _ hmem
  · obtain ⟨⟨k, p⟩, hp, hk⟩ := List.mem_flatMap.1 hmem
    rcases List.mem_cons.1 hk with hk | hk
    · cases hk
      refine h ?_
      rw [← Marked.text_read (fun _ => true) t]
      exact List.mem_append_right _ (List.mem_flatMap.2 ⟨_, hp, List.mem_cons_self⟩)
    · exact not_mem_nameTokens _ hk

/-- The tokens of several sections, with a semicolon between any two. -/
def joinSections (tss : List (List Token)) : List Token := [Token.mark .semicolon].intercalate tss

theorem joinSections_cons (ts : List Token) (tss : List (List Token)) :
    joinSections (ts :: tss) = ts ++ tss.flatMap fun us => .mark .semicolon :: us := by
  induction tss generalizing ts with
  | nil => simp [joinSections]
  | cons us tss ih =>
    rw [joinSections, List.intercalate_cons_cons, ← joinSections, ih, List.flatMap_cons]
    simp

/-- Sections without semicolons are told by their tokens. -/
theorem joinSections_inj {tss uss : List (List Token)} (hne : tss ≠ []) (hne' : uss ≠ [])
    (hts : ∀ ts ∈ tss, Token.mark .semicolon ∉ ts) (hus : ∀ us ∈ uss, Token.mark .semicolon ∉ us)
    (h : joinSections tss = joinSections uss) : tss = uss := by
  rw [← List.splitOn_intercalate (.mark .semicolon) hts hne, ← joinSections, h, joinSections,
    List.splitOn_intercalate (.mark .semicolon) hus hne']

namespace Marked

theorem accept_of_mem_rest {accept : Mark → Bool} {t : Text} {piece : Mark × Text}
    (h : piece ∈ (read accept t).rest) : accept piece.1 = true := by
  fun_induction read accept t with
  | case1 => cases h
  | case2 rest hk ih =>
    rcases List.mem_cons.1 h with rfl | h
    · exact hk
    · exact ih h
  | case3 rest _ ih => exact ih h
  | case4 c rest _ k _ hk ih =>
    rcases List.mem_cons.1 h with rfl | h
    · exact hk
    · exact ih h
  | case5 c rest _ k _ _ ih => exact ih h
  | case6 c rest _ _ ih => exact ih h

theorem not_mem_pushChar {c d : Char} {m : Marked} (hc : c ≠ d) (h : ∀ q ∈ m.texts, d ∉ q)
    {p : Text} (hp : p ∈ (pushChar c m).texts) : d ∉ p := by
  rcases List.mem_cons.1 hp with rfl | hp
  · show d ∉ c :: m.first
    rw [List.mem_cons, not_or]
    exact ⟨Ne.symm hc, h _ List.mem_cons_self⟩
  · exact h p (List.mem_cons_of_mem _ hp)

/-- No section holds a semicolon. -/
theorem not_mem_of_mem_texts {t p : Text} (h : p ∈ (read (· == .semicolon) t).texts) :
    ';' ∉ p := by
  fun_induction read (· == .semicolon) t generalizing p with
  | case1 =>
    rw [List.mem_singleton.1 h]
    exact List.not_mem_nil
  | case2 rest hk => cases hk
  | case3 rest _ ih => exact not_mem_pushChar (by decide) (fun q hq => ih hq) h
  | case4 c rest _ k _ _ ih =>
    rcases List.mem_cons.1 h with rfl | h
    · exact List.not_mem_nil
    · exact ih h
  | case5 c rest _ k hk hno ih =>
    refine not_mem_pushChar ?_ (fun q hq => ih hq) h
    rintro rfl
    cases hk
    exact hno rfl
  | case6 c rest _ hk ih =>
    refine not_mem_pushChar ?_ (fun q hq => ih hq) h
    rintro rfl
    cases hk

end Marked

/-- The tokens of a text are those of its sections. -/
theorem tokensOf_eq_joinSections (t : Text) :
    tokensOf t = joinSections ((Marked.read (· == .semicolon) t).texts.map tokensOf) := by
  rw [Marked.texts, List.map_cons, joinSections_cons, tokensOf_eq (· == .semicolon) t,
    List.map_map, List.flatMap_map]
  congr 1
  refine List.flatMap_congr fun piece hp => ?_
  rw [show piece.1 = .semicolon from by simpa using Marked.accept_of_mem_rest hp]
  rfl

/-! ## Depth -/

/-- How many parentheses are open after the tokens when `depth` are open before them. -/
def depthTokens : Nat → List Token → Option Nat
  | depth, [] => some depth
  | depth, .mark .opening :: ts => depthTokens (depth + 1) ts
  | 0, .mark .closing :: _ => none
  | depth + 1, .mark .closing :: ts => depthTokens depth ts
  | depth, _ :: ts => depthTokens depth ts

theorem depthTokens_nameTokens (depth : Nat) (t : Text) (ts : List Token) :
    depthTokens depth (nameTokens t ++ ts) = depthTokens depth ts := by
  unfold nameTokens
  split
  · rfl
  · cases depth <;> rfl

/-- A text is as deep after its tokens as after its characters. -/
theorem depthAfter_eq_depthTokens {accept : Mark → Bool}
    (haccept : ∀ k : Mark, k.isInner = true → accept k = true) (depth : Nat) (t : Text) :
    depthAfter depth t = depthTokens depth (Marked.read accept t).tokens := by
  have hopen : ∀ p ∈ (Marked.read accept t).texts, Layout.Open p := fun p hp =>
    open_of_isAtomic (Marked.isAtomic_of_mem_texts haccept hp)
  conv_lhs => rw [← Marked.text_read accept t]
  rw [Marked.texts, List.forall_mem_cons] at hopen
  rw [Marked.text, Marked.tokens, depthAfter_append, depthAfter_of_open hopen.1,
    depthTokens_nameTokens]
  -- names leave the depth as it is, and every other character is a mark
  have hrest := hopen.2
  clear hopen
  generalize (Marked.read accept t).rest = rest at hrest
  induction rest generalizing depth with
  | nil => rfl
  | cons piece rest ih =>
    obtain ⟨k, p⟩ := piece
    rw [List.map_cons, List.forall_mem_cons] at hrest
    have hnext : ∀ d, depthAfter d (p ++ rest.flatMap fun piece => piece.1.text ++ piece.2) =
        depthTokens d (nameTokens p ++
          rest.flatMap fun piece => .mark piece.1 :: nameTokens piece.2) := by
      intro d
      rw [depthAfter_append, depthAfter_of_open hrest.1, depthTokens_nameTokens]
      exact ih d hrest.2
    rw [List.flatMap_cons, List.flatMap_cons, List.append_assoc, List.cons_append]
    show depthAfter depth _ = _
    cases k with
    | arrow => cases depth <;> exact hnext _
    | comma => cases depth <;> exact hnext _
    | opening => exact hnext _
    | closing =>
      cases depth with
      | zero => rfl
      | succ depth => exact hnext depth
    | semicolon => cases depth <;> exact hnext _

theorem depthAfter_eq_tokens (depth : Nat) (t : Text) :
    depthAfter depth t = depthTokens depth (tokensOf t) :=
  depthAfter_eq_depthTokens (fun _ _ => rfl) depth t

/-! ## Completed texts -/

/-- The mark that comes next. -/
def nextMark : List Token → Option Mark
  | .mark k :: _ => some k
  | _ => none

/-- The tokens behind the mark `before` written out, with every name in parentheses of its own. -/
def completed (before : Option Mark) : List Token → Text
  | [] => []
  | .mark k :: ts => k.text ++ completed (some k) ts
  | .name n :: ts =>
    (if before = some .opening ∧ nextMark ts = some .closing then n else '(' :: n ++ [')']) ++
      completed none ts

theorem Marked.read_isInner {t : Text} (h : ';' ∉ t) :
    read Mark.isInner t = read (fun _ => true) t := by
  fun_induction read (fun _ => true) t with
  | case1 => rfl
  | case2 rest _ ih =>
    rw [read_arrow, if_pos (show Mark.isInner .arrow = true from rfl), ih]
    intro hmem
    exact h (List.mem_cons_of_mem _ (List.mem_cons_of_mem _ hmem))
  | case3 rest hno => exact absurd rfl hno
  | case4 c rest _ k hk _ ih =>
    rw [List.mem_cons, not_or] at h
    have hinner : k.isInner = true := by
      cases k with
      | semicolon =>
        have := text_ofChar? hk
        cases this
        exact absurd rfl h.1
      | arrow | comma | opening | closing => rfl
    rw [read_mark _ hk, if_pos hinner, ih h.2]
  | case5 c rest _ k hk hno => exact absurd rfl hno
  | case6 c rest hne hk ih =>
    rw [List.mem_cons, not_or] at h
    rw [read_cons _ hk fun h more hmore => hne more h hmore, ih h.2]

theorem nameTokens_of_blank {t : Text} (h : Text.trim t = []) : nameTokens t = [] := if_pos h

theorem nameTokens_of_ne_nil {t : Text} (h : Text.trim t ≠ []) :
    nameTokens t = [.name (Text.trim t)] := if_neg h

/-- The tokens of a single topology, in which a semicolon is no mark. -/
def innerTokens (t : Text) : List Token := (Marked.read Mark.isInner t).tokens

theorem innerTokens_eq {t : Text} (h : ';' ∉ t) : innerTokens t = tokensOf t := by
  rw [innerTokens, Marked.read_isInner h, tokensOf]

/-- A completed text is told by the tokens of the topology. -/
theorem complete_eq (t : Text) : complete t = completed none (innerTokens t) := by
  have hfrom : ∀ (rest : List (Mark × Text)) (before : Option Mark) (p : Text),
      completeFrom before p rest = completed before (nameTokens p ++
        rest.flatMap fun piece => .mark piece.1 :: nameTokens piece.2) := by
    intro rest
    induction rest with
    | nil =>
      intro before p
      rw [completeFrom, completeName]
      by_cases hblank : Text.trim p = []
      · rw [nameTokens_of_blank hblank]
        simp [hblank, completed]
      · rw [nameTokens_of_ne_nil hblank]
        simp [hblank, completed, nextMark]
    | cons piece rest ih =>
      obtain ⟨k, next⟩ := piece
      intro before p
      rw [completeFrom, ih, completeName]
      by_cases hblank : Text.trim p = []
      · rw [nameTokens_of_blank hblank]
        simp [hblank, completed]
      · rw [nameTokens_of_ne_nil hblank]
        simp [hblank, completed, nextMark]
  exact hfrom _ _ _

theorem complete_eq_completed {t : Text} (h : ';' ∉ t) :
    complete t = completed none (tokensOf t) := by
  rw [complete_eq, innerTokens_eq h]

/-! ## How many names there are -/

/-- The names among the tokens. -/
def namesOf (ts : List Token) : List Text :=
  ts.filterMap fun
    | .name n => some n
    | .mark _ => none

@[simp] theorem namesOf_append (ts us : List Token) :
    namesOf (ts ++ us) = namesOf ts ++ namesOf us := List.filterMap_append

@[simp] theorem namesOf_mark (k : Mark) (ts : List Token) :
    namesOf (.mark k :: ts) = namesOf ts := rfl

theorem mem_namesOf {ts : List Token} {n : Text} : n ∈ namesOf ts ↔ Token.name n ∈ ts := by
  rw [namesOf, List.mem_filterMap]
  constructor
  · rintro ⟨a, ha, hname⟩
    cases a with
    | mark k => cases hname
    | name m =>
      cases hname
      exact ha
  · exact fun h => ⟨_, h, rfl⟩

theorem namesOf_joinSections (tss : List (List Token)) :
    namesOf (joinSections tss) = tss.flatMap namesOf := by
  have hrest : ∀ uss : List (List Token),
      namesOf (uss.flatMap fun us => .mark .semicolon :: us) = uss.flatMap namesOf := by
    intro uss
    induction uss with
    | nil => rfl
    | cons us uss ih =>
      rw [List.flatMap_cons, List.cons_append, namesOf_mark, namesOf_append, ih, List.flatMap_cons]
  cases tss with
  | nil => rfl
  | cons ts tss => rw [joinSections_cons, namesOf_append, hrest, List.flatMap_cons]

theorem length_namesOf_nameTokens_le (p : Text) :
    (namesOf (nameTokens p)).length ≤ Text.bytes p := by
  by_cases hblank : Text.trim p = []
  · rw [nameTokens_of_blank hblank]
    exact Nat.zero_le _
  · rw [nameTokens_of_ne_nil hblank]
    refine Text.bytes_pos_of_ne_nil ?_
    rintro rfl
    exact hblank rfl

/-- A text has no more names than bytes. -/
theorem length_namesOf_le (t : Text) : (namesOf (tokensOf t)).length ≤ Text.bytes t := by
  have hrest : ∀ rest : List (Mark × Text),
      (namesOf (rest.flatMap fun piece => .mark piece.1 :: nameTokens piece.2)).length ≤
        Text.bytes (rest.flatMap fun piece => piece.1.text ++ piece.2) := by
    intro rest
    induction rest with
    | nil => exact Nat.le_refl _
    | cons piece rest ih =>
      have := length_namesOf_nameTokens_le piece.2
      simp only [List.flatMap_cons, namesOf_append, namesOf_mark, List.cons_append,
        List.length_append, Text.bytes_append]
      omega
  have hfirst := length_namesOf_nameTokens_le (Marked.read (fun _ => true) t).first
  have hmore := hrest (Marked.read (fun _ => true) t).rest
  calc (namesOf (tokensOf t)).length
      ≤ Text.bytes (Marked.read (fun _ => true) t).text := by
        rw [tokensOf, Marked.tokens, namesOf_append, List.length_append, Marked.text,
          Text.bytes_append]
        omega
    _ = Text.bytes t := by rw [Marked.text_read]

end StageGraph
