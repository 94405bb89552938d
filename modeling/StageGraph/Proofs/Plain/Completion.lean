import Mathlib.Tactic
import StageGraph.Proofs.Plain.Token

set_option autoImplicit false

/-! # Completed texts are normal

Within one topology the tokens of a text are marks and names, and no two names stand side by side
(`lexed_innerTokens`). Written out with any white space between them, tokens of this kind are read
back as they are (`innerTokens_of_spaced`), since nothing that stands behind a name makes an arrow
of its last character.

Completing a text writes its tokens out with every name in parentheses of its own (`enclose`). So a
completed text has these tokens, is completed already, is as deep as the text, and does not show
where the text had white space (`complete_normal`).
-/

namespace StageGraph

/-- How the token is written. -/
def Token.text : Token → Text
  | mark k => k.text
  | name n => n

/-- The tokens one after the other, without white space. -/
def writeTokens (ts : List Token) : Text := ts.flatMap Token.text

/-- The text is these tokens, with any white space before, between and behind them. -/
inductive Spaced : List Token → Text → Prop where
  | nil {w : Text} (hw : ∀ c ∈ w, Text.isBlank c = true) : Spaced [] w
  | cons {w u : Text} {k : Token} {ts : List Token} (hw : ∀ c ∈ w, Text.isBlank c = true)
      (h : Spaced ts u) : Spaced (k :: ts) (w ++ (k.text ++ u))

/-- The tokens of a topology: names are names, and between any two of them is a mark. -/
inductive Lexed : List Token → Prop where
  | nil : Lexed []
  | mark {k : Mark} {ts : List Token} (hk : k.isInner = true) (h : Lexed ts) : Lexed (.mark k :: ts)
  | last {n : Text} (hn : IsName n) : Lexed [.name n]
  | name {n : Text} {k : Mark} {ts : List Token} (hn : IsName n) (h : Lexed (.mark k :: ts)) :
      Lexed (.name n :: .mark k :: ts)

/-- The tokens behind the mark `before`, with every name that does not stand between an opening and
a closing parenthesis put between two of its own. -/
def enclose (before : Option Mark) : List Token → List Token
  | [] => []
  | .mark k :: ts => .mark k :: enclose (some k) ts
  | .name n :: ts =>
    (if before = some .opening ∧ nextMark ts = some .closing then [.name n]
      else [.mark .opening, .name n, .mark .closing]) ++ enclose none ts

theorem writeTokens_cons (k : Token) (ts : List Token) :
    writeTokens (k :: ts) = k.text ++ writeTokens ts := rfl

theorem writeTokens_append (ts us : List Token) :
    writeTokens (ts ++ us) = writeTokens ts ++ writeTokens us := List.flatMap_append

theorem spaced_writeTokens (ts : List Token) : Spaced ts (writeTokens ts) := by
  induction ts with
  | nil => exact .nil (by simp [writeTokens])
  | cons k ts ih => exact .cons (w := []) (by simp) ih

/-! ## Reading what was written -/

namespace Marked

theorem tokens_pushMark (k : Mark) (m : Marked) : (pushMark k m).tokens = .mark k :: m.tokens := rfl

theorem read_inner_mark {k : Mark} (hk : k.isInner = true) (t : Text) :
    read Mark.isInner (k.text ++ t) = pushMark k (read Mark.isInner t) := by
  cases k with
  | arrow => exact (read_arrow _ t).trans (if_pos rfl)
  | comma | opening | closing => exact (read_mark _ rfl).trans (if_pos rfl)
  | semicolon => cases hk

theorem read_inner_cons {c : Char} {t : Text} (hne : c ≠ ',' ∧ c ≠ '(' ∧ c ≠ ')')
    (harrow : c = '-' → ∀ more, t ≠ '>' :: more) :
    read Mark.isInner (c :: t) = pushChar c (read Mark.isInner t) := by
  cases hc : Mark.ofChar? c with
  | none => exact read_cons _ hc harrow
  | some k =>
    cases k with
    | semicolon => exact (read_mark _ hc).trans (if_neg (by decide))
    | arrow | comma | opening | closing =>
      have htext := text_ofChar? hc
      simp [Mark.text, Ne.symm hne.1, Ne.symm hne.2.1, Ne.symm hne.2.2] at htext

/-- A text without inner marks belongs to the piece before the first mark, unless what comes behind
it makes an arrow of its last character. -/
theorem read_inner_append {s t : Text} (hs : isAtomic s = true)
    (ht : ∀ more, t ≠ '>' :: more) :
    read Mark.isInner (s ++ t) =
      ⟨s ++ (read Mark.isInner t).first, (read Mark.isInner t).rest⟩ := by
  fun_induction isAtomic s with
  | case1 => rfl
  | case2 => cases hs
  | case3 c rest hne ih =>
    simp only [Bool.and_eq_true, bne_iff_ne] at hs
    obtain ⟨⟨⟨hcomma, hopen⟩, hclose⟩, hrest⟩ := hs
    rw [List.cons_append, read_inner_cons ⟨hcomma, hopen, hclose⟩, ih hrest]
    · rfl
    · rintro rfl more hmore
      cases rest with
      | nil => exact ht more hmore
      | cons d rest =>
        cases hmore
        exact hne rest rfl rfl

end Marked

/-- White space in front of a text does not change its tokens. -/
theorem innerTokens_blank_append {w : Text} (hw : ∀ c ∈ w, Text.isBlank c = true) (t : Text) :
    innerTokens (w ++ t) = innerTokens t := by
  rw [innerTokens, ← Marked.tokens_trimAll, Marked.trimAll_read_blank_append _ hw,
    Marked.tokens_trimAll, innerTokens]

theorem innerTokens_mark {k : Mark} (hk : k.isInner = true) (t : Text) :
    innerTokens (k.text ++ t) = .mark k :: innerTokens t := by
  rw [innerTokens, Marked.read_inner_mark hk, Marked.tokens_pushMark, innerTokens]

theorem isAtomic_of_blank {w : Text} (hw : ∀ c ∈ w, Text.isBlank c = true) : isAtomic w = true := by
  induction w with
  | nil => rfl
  | cons c w ih =>
    rw [List.forall_mem_cons] at hw
    obtain ⟨hmark, hdash, -⟩ := ofChar?_eq_none_of_isBlank hw.1
    exact isAtomic_cons (.inl hmark) (fun h => absurd h hdash) (ih hw.2)

/-- What does not start with a greater-than sign. -/
theorem ne_greater_of_blank {w u : Text} (hw : ∀ c ∈ w, Text.isBlank c = true)
    (hu : ∀ more, u ≠ '>' :: more) : ∀ more, w ++ u ≠ '>' :: more := by
  intro more h
  cases w with
  | nil => exact hu more h
  | cons c w =>
    cases h
    exact (ofChar?_eq_none_of_isBlank (hw '>' List.mem_cons_self)).2.2 rfl

theorem markText_ne_greater (k : Mark) (t : Text) : ∀ more, k.text ++ t ≠ '>' :: more := by
  cases k <;> rintro more ⟨⟩

/-- A name and the white space behind it, up to the next mark. -/
theorem innerTokens_name {n w : Text} (hn : IsName n) (hw : ∀ c ∈ w, Text.isBlank c = true)
    {u : Text} (hu : (Marked.read Mark.isInner u).first = []) (hgreater : ∀ more, u ≠ '>' :: more) :
    innerTokens (n ++ (w ++ u)) = .name n :: innerTokens u := by
  have htrim : Text.trim (n ++ w) = n := by
    rw [Text.trim_append_blank hw, Text.trim_eq_self_of_trimmed hn.trimmed]
  have hgreater' := ne_greater_of_blank hw hgreater
  rw [innerTokens, Marked.read_inner_append hn.atomic hgreater',
    Marked.read_inner_append (isAtomic_of_blank hw) hgreater, hu, List.append_nil, innerTokens,
    Marked.tokens, Marked.tokens, hu, nameTokens_of_ne_nil (by rw [htrim]; exact hn.ne_nil), htrim]
  rfl

/-- Whatever the white space between them, tokens of a topology are read back as they are. -/
theorem innerTokens_of_spaced {ts : List Token} {u : Text} (h : Lexed ts) (hu : Spaced ts u) :
    innerTokens u = ts := by
  induction h generalizing u with
  | nil =>
    cases hu with
    | nil hw =>
      have := innerTokens_blank_append hw []
      rwa [List.append_nil] at this
  | mark hk _ ih =>
    cases hu with
    | cons hw hu =>
      rw [innerTokens_blank_append hw, Token.text, innerTokens_mark hk, ih hu]
  | last hn =>
    cases hu with
    | cons hw hu =>
      cases hu with
      | nil hw' =>
        have := innerTokens_name hn hw' (u := []) rfl (by rintro _ ⟨⟩)
        rw [List.append_nil] at this
        rw [innerTokens_blank_append hw, Token.text, this]
        rfl
  | @name n k ts hn hmark ih =>
    cases hu with
    | cons hw hu =>
      have hrest := ih hu
      cases hu with
      | cons hw' hu =>
        have hk : k.isInner = true := by
          cases hmark with
          | mark hk _ => exact hk
        rw [innerTokens_blank_append hw', Token.text] at hrest
        rw [innerTokens_blank_append hw, Token.text, Token.text,
          innerTokens_name hn hw' (by rw [Marked.read_inner_mark hk]; rfl)
            (markText_ne_greater k _), hrest]

/-! ## The tokens of a text -/

/-- A piece of text is its name, if it has one, with white space around it. -/
theorem nameTokens_cases (t : Text) :
    ((∀ c ∈ t, Text.isBlank c = true) ∧ nameTokens t = []) ∨
    ∃ v n w : Text, (∀ c ∈ v, Text.isBlank c = true) ∧ (∀ c ∈ w, Text.isBlank c = true) ∧
      t = v ++ (n ++ w) ∧ nameTokens t = [.name n] := by
  obtain ⟨v, w, hv, hw, ht⟩ := Text.exists_blank_around t
  by_cases hblank : Text.trim t = []
  · refine .inl ⟨fun c hc => ?_, nameTokens_of_blank hblank⟩
    rw [ht, hblank, List.nil_append] at hc
    exact (List.mem_append.1 hc).elim (hv c) (hw c)
  · exact .inr ⟨v, Text.trim t, w, hv, hw, ht, nameTokens_of_ne_nil hblank⟩

theorem Marked.spaced_tokens (m : Marked) : Spaced m.tokens m.text := by
  obtain ⟨first, rest⟩ := m
  -- what stands between a name and the next mark, or behind the last mark
  have hbehind : ∀ {w : Text}, (∀ c ∈ w, Text.isBlank c = true) →
      Spaced (rest.flatMap fun piece => .mark piece.1 :: nameTokens piece.2)
        (w ++ rest.flatMap fun piece => piece.1.text ++ piece.2) := by
    intro w hw
    induction rest generalizing w with
    | nil => simpa using Spaced.nil hw
    | cons piece rest ih =>
      obtain ⟨k, next⟩ := piece
      rw [List.flatMap_cons, List.flatMap_cons, List.append_assoc, List.cons_append]
      refine Spaced.cons hw ?_
      obtain ⟨hblank, hname⟩ | ⟨v, n, w', hv, hw', rfl, hname⟩ := nameTokens_cases next
      · rw [hname]
        exact ih hblank
      · rw [hname, List.append_assoc, List.append_assoc]
        exact Spaced.cons hv (ih hw')
  rw [tokens, text]
  obtain ⟨hblank, hname⟩ | ⟨v, n, w, hv, hw, rfl, hname⟩ := nameTokens_cases first
  · rw [hname]
    exact hbehind hblank
  · rw [hname, List.append_assoc, List.append_assoc]
    exact Spaced.cons hv (hbehind hw)

/-- A text is its tokens with white space between them. -/
theorem spaced_innerTokens (t : Text) : Spaced (innerTokens t) t := by
  have := (Marked.read Mark.isInner t).spaced_tokens
  rwa [Marked.text_read] at this

theorem lexed_nameTokens {p : Text} {ts : List Token}
    (hp : ∀ n, Token.name n ∈ nameTokens p → IsName n) (h : ts = [] ∨ ∃ k us, ts = .mark k :: us)
    (hts : Lexed ts) : Lexed (nameTokens p ++ ts) := by
  obtain ⟨-, hname⟩ | ⟨_, n, _, -, -, -, hname⟩ := nameTokens_cases p
  · rwa [hname]
  · have hn : IsName n := hp n (by rw [hname]; exact List.mem_cons_self)
    rw [hname]
    obtain rfl | ⟨k, us, rfl⟩ := h
    · exact .last hn
    · exact .name hn hts

theorem lexed_innerTokens (t : Text) : Lexed (innerTokens t) := by
  have hname : ∀ n, Token.name n ∈ innerTokens t → IsName n := fun n hn =>
    isName_of_mem_tokens (fun _ hk => hk) hn
  have hmark : ∀ piece ∈ (Marked.read Mark.isInner t).rest, piece.1.isInner = true :=
    fun piece hp => Marked.accept_of_mem_rest hp
  unfold innerTokens at hname ⊢
  generalize Marked.read Mark.isInner t = m at hname hmark ⊢
  obtain ⟨first, rest⟩ := m
  have hheads : ∀ rest : List (Mark × Text),
      (rest.flatMap fun piece => Token.mark piece.1 :: nameTokens piece.2) = [] ∨
        ∃ k us, (rest.flatMap fun piece => Token.mark piece.1 :: nameTokens piece.2) =
          .mark k :: us := by
    rintro (_ | ⟨⟨k, next⟩, rest⟩)
    · exact .inl rfl
    · exact .inr ⟨k, _, rfl⟩
  rw [Marked.tokens] at hname ⊢
  refine lexed_nameTokens (fun n hn => hname n (List.mem_append_left _ hn)) (hheads rest) ?_
  replace hname := fun n hn => hname n (List.mem_append_right _ hn)
  induction rest with
  | nil => exact .nil
  | cons piece rest ih =>
    obtain ⟨k, next⟩ := piece
    rw [List.forall_mem_cons] at hmark
    simp only [List.flatMap_cons, List.cons_append] at hname ⊢
    refine .mark hmark.1 (lexed_nameTokens (fun n hn => hname n ?_) (hheads rest)
      (ih hmark.2 fun n hn => hname n ?_))
    · exact List.mem_cons_of_mem _ (List.mem_append_left _ hn)
    · exact List.mem_cons_of_mem _ (List.mem_append_right _ hn)

/-! ## Putting names into parentheses -/

theorem completed_eq_writeTokens (before : Option Mark) (ts : List Token) :
    completed before ts = writeTokens (enclose before ts) := by
  induction ts generalizing before with
  | nil => rfl
  | cons k ts ih =>
    cases k with
    | mark k => rw [completed, ih, enclose, writeTokens_cons, Token.text]
    | name n =>
      rw [completed, ih, enclose, writeTokens_append]
      split
      · simp [writeTokens, Token.text]
      · simp [writeTokens, Token.text, Mark.text]

theorem complete_eq_writeTokens (t : Text) :
    complete t = writeTokens (enclose none (innerTokens t)) := by
  rw [complete_eq, completed_eq_writeTokens]

theorem lexed_enclose {ts : List Token} (h : Lexed ts) (before : Option Mark) :
    Lexed (enclose before ts) := by
  have hname : ∀ {n : Text} {us : List Token} (kept : Prop) [Decidable kept], IsName n →
      (us = [] ∨ ∃ k vs, us = .mark k :: vs) → Lexed us →
      Lexed ((if kept then [.name n] else [.mark .opening, .name n, .mark .closing]) ++ us) := by
    intro n us kept _ hn hhead hus
    split
    · obtain rfl | ⟨k, vs, rfl⟩ := hhead
      · exact .last hn
      · exact .name hn hus
    · exact .mark rfl (.name hn (.mark rfl hus))
  induction h generalizing before with
  | nil => exact .nil
  | mark hk _ ih => exact .mark hk (ih _)
  | last hn => exact hname _ hn (.inl rfl) .nil
  | name hn _ ih => exact hname _ hn (.inr ⟨_, _, rfl⟩) (ih none)

/-- Names that were put into parentheses need no others. What stands in front of the tokens counts
only where a name of theirs may use it. -/
theorem enclose_enclose {before before' : Option Mark} (ts : List Token)
    (h : before = some .opening → before' = some .opening) :
    enclose before' (enclose before ts) = enclose before ts := by
  induction ts generalizing before before' with
  | nil => rfl
  | cons k ts ih =>
    cases k with
    | mark k => rw [enclose, enclose, ih (fun hk => hk)]
    | name n =>
      rw [enclose]
      split
      -- the closing parenthesis behind the name stays there
      · next hkept =>
        have hnext : nextMark (enclose none ts) = some .closing := by
          cases ts with
          | nil => cases hkept.2
          | cons k' ts =>
            cases k' with
            | mark k' => exact hkept.2
            | name n' => cases hkept.2
        rw [List.singleton_append, enclose, if_pos ⟨h hkept.1, hnext⟩, ih (by rintro ⟨⟩)]
        rfl
      · rw [List.cons_append, List.cons_append, List.singleton_append, enclose, enclose,
          if_pos ⟨rfl, rfl⟩, enclose, ih (by rintro ⟨⟩)]
        rfl

theorem depthTokens_enclose (depth : Nat) (before : Option Mark) (ts : List Token) :
    depthTokens depth (enclose before ts) = depthTokens depth ts := by
  induction ts generalizing depth before with
  | nil => rfl
  | cons k ts ih =>
    cases k with
    | mark k =>
      rw [enclose]
      cases k with
      | arrow | comma | semicolon => cases depth <;> exact ih _ _
      | opening => exact ih _ _
      | closing =>
        cases depth with
        | zero => rfl
        | succ depth => exact ih _ _
    | name n =>
      rw [enclose]
      split
      · cases depth <;> exact ih _ _
      · cases depth <;> exact ih _ _

/-- The tokens of a text are the only ones that it writes with white space between them. Its
completed text has these tokens with every name that does not stand between parentheses put between
two of its own. Completing it again changes nothing, it is balanced if and only if the text is, and
it is the same whatever white space the text has between its tokens. -/
theorem complete_normal (t : Text) :
    (Lexed (innerTokens t) ∧ Spaced (innerTokens t) t ∧
      ∀ ts, Lexed ts → Spaced ts t → ts = innerTokens t) ∧
    innerTokens (complete t) = enclose none (innerTokens t) ∧
    complete (complete t) = complete t ∧
    isBalanced (complete t) = isBalanced t ∧
    ∀ u, Spaced (innerTokens t) u → complete u = complete t := by
  have htokens : innerTokens (complete t) = enclose none (innerTokens t) := by
    rw [complete_eq_writeTokens]
    exact innerTokens_of_spaced (lexed_enclose (lexed_innerTokens t) none) (spaced_writeTokens _)
  refine ⟨⟨lexed_innerTokens t, spaced_innerTokens t, fun ts hts hspaced => ?_⟩, htokens, ?_, ?_,
    fun u hu => ?_⟩
  · exact (innerTokens_of_spaced hts hspaced).symm
  · rw [complete_eq_writeTokens (complete t), htokens, enclose_enclose _ (fun h => h),
      ← complete_eq_writeTokens]
  · have hdepth : ∀ s : Text, depthAfter 0 s = depthTokens 0 (innerTokens s) := fun s =>
      depthAfter_eq_depthTokens (fun _ hk => hk) 0 s
    rw [isBalanced, isBalanced, hdepth, hdepth, htokens, depthTokens_enclose]
  · rw [complete_eq_writeTokens u, innerTokens_of_spaced (lexed_innerTokens t) hu,
      ← complete_eq_writeTokens]

/-- The theorem about a text with white space next to all its tokens. -/
theorem complete_normal_margins :
    Spaced (innerTokens "A->(B)".toList) " A -> ( B ) ".toList ∧
    complete " A -> ( B ) ".toList = complete "A->(B)".toList := by
  have htokens : innerTokens " A -> ( B ) ".toList = innerTokens "A->(B)".toList := by decide
  have hspaced := (complete_normal " A -> ( B ) ".toList).1.2.1
  rw [htokens] at hspaced
  exact ⟨hspaced, (complete_normal "A->(B)".toList).2.2.2.2 _ hspaced⟩

end StageGraph
