import Mathlib.Data.List.Basic
import Mathlib.Tactic
import StageGraph.Proofs.Plain.Token

set_option autoImplicit false

/-! # Rows

A row is a completed text as the walk sees it: names and groups, both in parentheses, with
separators between them. Separators that stand side by side make one part together, however many
they are, and an empty group makes no part.

The tokens of a balanced text fit a row (`exists_fits`), and the row says what the completed text is
(`Fits.completed`) and what its parts are (`parts_of_row`, `parts_of_group`).
-/

namespace StageGraph

/-- A mark between two terms. -/
inductive Separator where
  | arrow
  | comma
deriving DecidableEq

/-- The mark itself. -/
def Separator.mark : Separator → Mark
  | arrow => .arrow
  | comma => .comma

/-- Separators side by side. -/
def gapText (gap : List Separator) : Text := gap.flatMap fun s => s.mark.text

/-- A completed text: what stands between parentheses, and separators in between. -/
inductive Row where
  /-- Separators only. -/
  | done (gap : List Separator)
  /-- Separators, a name in parentheses, and the rest. -/
  | leaf (gap : List Separator) (n : Text) (rest : Row)
  /-- Separators, a group in parentheses, and the rest. -/
  | group (gap : List Separator) (inside rest : Row)
deriving DecidableEq

namespace Row

/-- How the row is laid out around its outermost parentheses. -/
def layout : Row → Layout
  | done gap => ⟨gapText gap, []⟩
  | leaf gap n rest => ⟨gapText gap, (n, rest.layout.front) :: rest.layout.pairs⟩
  | group gap inside rest =>
    ⟨gapText gap, (inside.layout.text, rest.layout.front) :: rest.layout.pairs⟩

/-- The row written out. -/
def text (r : Row) : Text := r.layout.text

/-- All names of the row are names. -/
def Named : Row → Prop
  | done _ => True
  | leaf _ n rest => IsName n ∧ rest.Named
  | group _ inside rest => inside.Named ∧ rest.Named

/-- Separators side by side are one part. -/
def gapParts (gap : List Separator) : List Text := if gap = [] then [] else [gapText gap]

/-- The parts of the row, in order. -/
def parts : Row → List Text
  | done gap => gapParts gap
  | leaf gap n rest => gapParts gap ++ n :: rest.parts
  | group gap inside rest =>
    gapParts gap ++ (if inside = done [] then [] else [inside.text]) ++ rest.parts

theorem text_done (gap : List Separator) : (done gap).text = gapText gap := List.append_nil _

theorem text_leaf (gap : List Separator) (n : Text) (rest : Row) :
    (leaf gap n rest).text = gapText gap ++ ('(' :: n ++ ')' :: rest.text) := by
  rw [text, layout, Layout.text, Layout.pairsText_cons]
  rfl

theorem text_group (gap : List Separator) (inside rest : Row) :
    (group gap inside rest).text = gapText gap ++ ('(' :: inside.text ++ ')' :: rest.text) := by
  rw [text, layout, Layout.text, Layout.pairsText_cons]
  rfl

end Row

/-! ## The ends of a row -/

theorem gapText_cons (s : Separator) (gap : List Separator) :
    gapText (s :: gap) = s.mark.text ++ gapText gap := rfl

theorem gapText_eq_nil {gap : List Separator} : gapText gap = [] ↔ gap = [] := by
  constructor
  · intro h
    cases gap with
    | nil => rfl
    | cons s gap => cases s <;> cases h
  · rintro rfl
    rfl

theorem open_gapText (gap : List Separator) : Layout.Open (gapText gap) := by
  induction gap with
  | nil => exact ⟨List.not_mem_nil, List.not_mem_nil⟩
  | cons s gap ih =>
    rw [gapText_cons]
    cases s with
    | arrow => exact ⟨by simp [Separator.mark, Mark.text, ih.1],
        by simp [Separator.mark, Mark.text, ih.2]⟩
    | comma => exact ⟨by simp [Separator.mark, Mark.text, ih.1],
        by simp [Separator.mark, Mark.text, ih.2]⟩

theorem trimmed_gapText_append (gap : List Separator) {t : Text} (h : Text.Trimmed t) :
    Text.Trimmed (gapText gap ++ t) := by
  induction gap with
  | nil => exact h
  | cons s gap ih =>
    rw [gapText_cons, List.append_assoc]
    refine ⟨?_, ?_⟩
    · cases s <;> (rintro _ ⟨⟩; rfl)
    -- the last character is that of the rest, or of the separator if there is no rest
    · intro c hc
      rw [List.getLast?_append] at hc
      cases hrest : (gapText gap ++ t).getLast? with
      | none =>
        rw [hrest] at hc
        cases s <;> (cases hc; rfl)
      | some d =>
        rw [hrest] at hc
        cases hc
        exact ih.2 _ hrest

theorem trimmed_nil : Text.Trimmed [] := by
  refine ⟨?_, ?_⟩ <;> rintro _ ⟨⟩

/-- A text in parentheses in front of a trimmed text. -/
theorem trimmed_pair {inner t : Text} (h : Text.Trimmed t) :
    Text.Trimmed ('(' :: inner ++ ')' :: t) := by
  refine ⟨?_, ?_⟩
  · rintro _ ⟨⟩
    rfl
  · intro c hc
    rw [List.getLast?_append] at hc
    cases t with
    | nil =>
      cases hc
      rfl
    | cons d t =>
      rw [List.getLast?_cons_cons] at hc
      cases hrest : (d :: t).getLast? with
      | none => simp at hrest
      | some e =>
        rw [hrest] at hc
        cases hc
        exact h.2 _ hrest

namespace Row

theorem trimmed_text (r : Row) : Text.Trimmed r.text := by
  induction r with
  | done gap =>
    have := trimmed_gapText_append gap trimmed_nil
    rwa [List.append_nil, ← text_done] at this
  | leaf gap n rest ih =>
    rw [text_leaf]
    exact trimmed_gapText_append gap (trimmed_pair ih)
  | group gap inside rest _ ih =>
    rw [text_group]
    exact trimmed_gapText_append gap (trimmed_pair ih)

theorem text_eq_nil {r : Row} : r.text = [] ↔ r = done [] := by
  constructor
  · intro h
    cases r with
    | done gap => rw [text_done, gapText_eq_nil] at h; rw [h]
    | leaf gap n rest => simp [text_leaf] at h
    | group gap inside rest => simp [text_group] at h
  · rintro rfl
    rfl

theorem laid_layout {r : Row} (h : r.Named) : r.layout.Laid := by
  induction r with
  | done gap =>
    exact ⟨open_gapText gap, fun _ hp => absurd hp List.not_mem_nil,
      fun _ hp => absurd hp List.not_mem_nil⟩
  | leaf gap n rest ih =>
    have hrest := ih h.2
    have hn : isBalanced n = true := by
      rw [isBalanced, depthAfter_of_open (open_of_isAtomic h.1.atomic)]
      rfl
    exact ⟨open_gapText gap, List.forall_mem_cons.2 ⟨hn, hrest.inner⟩,
      List.forall_mem_cons.2 ⟨hrest.front_open, hrest.behind_open⟩⟩
  | group gap inside rest ihi ih =>
    have hrest := ih h.2
    exact ⟨open_gapText gap, List.forall_mem_cons.2 ⟨(ihi h.1).isBalanced, hrest.inner⟩,
      List.forall_mem_cons.2 ⟨hrest.front_open, hrest.behind_open⟩⟩

theorem filter_gapText (gap : List Separator) :
    [Text.trim (gapText gap)].filter (· ≠ []) = gapParts gap := by
  have htrim : Text.trim (gapText gap) = gapText gap := by
    rw [← text_done]
    exact Text.trim_eq_self_of_trimmed (trimmed_text _)
  rw [htrim, gapParts, List.filter_cons]
  by_cases h : gap = []
  · subst h
    rfl
  · simp [h, gapText_eq_nil]

theorem partTexts_layout {r : Row} (h : r.Named) : r.layout.partTexts = r.parts := by
  induction r with
  | done gap =>
    show _ = gapParts gap
    rw [← filter_gapText]
    rfl
  | leaf gap n rest ih =>
    have hn : [Text.trim n].filter (· ≠ []) = [n] := by
      rw [Text.trim_eq_self_of_trimmed h.1.trimmed]
      simp [h.1.ne_nil]
    rw [layout, Layout.partTexts_cons, filter_gapText, hn, parts]
    rw [← ih h.2]
    rfl
  | group gap inside rest _ ih =>
    have hi : [Text.trim inside.text].filter (· ≠ []) =
        if inside = done [] then [] else [inside.text] := by
      rw [Text.trim_eq_self_of_trimmed (trimmed_text inside)]
      by_cases hnil : inside = done []
      · simp [hnil, text_eq_nil]
      · simp [hnil, text_eq_nil]
    rw [layout, Layout.partTexts_cons, filter_gapText, ← text, hi, parts, ← ih h.2,
      List.append_assoc]

/-! ## Parts of pieces -/

theorem isAtomic_text {r : Row} (hne : r ≠ done []) : isAtomic r.text = false := by
  have hgap : ∀ {gap : List Separator} {t : Text}, gap ≠ [] →
      isAtomic (gapText gap ++ t) = false := by
    intro gap t hgap
    cases gap with
    | nil => exact absurd rfl hgap
    | cons s gap => cases s <;> rfl
  have hopen : ∀ {t u : Text}, isAtomic (t ++ '(' :: u) = false := by
    intro t u
    rw [← Bool.not_eq_true]
    intro h
    exact (open_of_isAtomic (isAtomic_of_suffix h)).1 List.mem_cons_self
  cases r with
  | done gap =>
    rw [text_done, ← List.append_nil (gapText gap)]
    exact hgap (by rintro rfl; exact hne rfl)
  | leaf gap n rest =>
    rw [text_leaf]
    exact hopen
  | group gap inside rest =>
    rw [text_group]
    exact hopen

theorem eq_done_of_layout {r : Row} (hfront : r.layout.front = []) (hpairs : r.layout.pairs = []) :
    r = done [] := by
  cases r with
  | done gap => rw [gapText_eq_nil.1 hfront]
  | leaf gap n rest => cases hpairs
  | group gap inside rest => cases hpairs

theorem text_group_nil (inside : Row) :
    (group [] inside (done [])).text = SpanStore.wrapped inside.text := by
  rw [text_group]
  rfl

/-- The parts of a term that is a single group are those of what is inside. -/
theorem parts_of_group {p : Piece} {inside : Row} (h : inside.Named)
    (hp : p.text = (group [] inside (done [])).text) :
    ∃ ps, p.parts = .ok ps ∧ ps.map Piece.text = inside.parts := by
  rw [text_group_nil] at hp
  rw [← partTexts_layout h]
  exact Layout.parts_of_wrapped (laid_layout h) hp

/-- The parts of any other compound term are those of the row itself. -/
theorem parts_of_row {p : Piece} {r : Row} (h : r.Named) (hne : r ≠ done [])
    (hsingle : ∀ inside, r ≠ group [] inside (done [])) (hp : p.text = r.text) :
    ∃ ps, p.parts = .ok ps ∧ ps.map Piece.text = r.parts := by
  by_cases hleaf : ∃ n, r = leaf [] n (done [])
  -- a single name in parentheses is a pair too, but the name is the only part either way
  · obtain ⟨n, rfl⟩ := hleaf
    have hlaid : Layout.Laid ⟨n, []⟩ := ⟨open_of_isAtomic h.1.atomic,
      fun _ hp => absurd hp List.not_mem_nil, fun _ hp => absurd hp List.not_mem_nil⟩
    have htext : p.text = SpanStore.wrapped (Layout.text ⟨n, []⟩) := by
      rw [hp, text_leaf]
      simp [Layout.text, Layout.pairsText, SpanStore.wrapped, gapText, text_done]
    obtain ⟨ps, hparts, hps⟩ := Layout.parts_of_wrapped hlaid htext
    refine ⟨ps, hparts, ?_⟩
    rw [hps]
    simp [Layout.partTexts, Text.trim_eq_self_of_trimmed h.1.trimmed, h.1.ne_nil, parts, gapParts]
  · rw [← partTexts_layout h]
    refine Layout.parts_of_lay (laid_layout h) hp (by rw [hp]; exact isAtomic_text hne) ?_
    rintro ⟨hfront, inner, hpairs⟩
    cases r with
    | done gap => cases hpairs
    | leaf gap n rest =>
      obtain ⟨hpair, hnil⟩ := List.cons.inj hpairs
      have hrest := eq_done_of_layout (Prod.mk.inj hpair).2 hnil
      have hgap := gapText_eq_nil.1 hfront
      exact hleaf ⟨n, by rw [hrest, hgap]⟩
    | group gap inside rest =>
      obtain ⟨hpair, hnil⟩ := List.cons.inj hpairs
      have hrest := eq_done_of_layout (Prod.mk.inj hpair).2 hnil
      have hgap := gapText_eq_nil.1 hfront
      exact hsingle inside (by rw [hrest, hgap])

/-! ## Rows of tokens -/

/-- The row with one more separator in front. -/
def push (s : Separator) : Row → Row
  | done gap => done (s :: gap)
  | leaf gap n rest => leaf (s :: gap) n rest
  | group gap inside rest => group (s :: gap) inside rest

theorem text_push (s : Separator) (r : Row) : (r.push s).text = s.mark.text ++ r.text := by
  cases r with
  | done gap => rw [push, text_done, text_done, gapText_cons]
  | leaf gap n rest => rw [push, text_leaf, text_leaf, gapText_cons, List.append_assoc]
  | group gap inside rest => rw [push, text_group, text_group, gapText_cons, List.append_assoc]

theorem named_push {s : Separator} {r : Row} (h : r.Named) : (r.push s).Named := by
  cases r <;> exact h

end Row

/-- The tokens, once they are completed, are the row. -/
inductive Fits : List Token → Row → Prop where
  | nil : Fits [] (.done [])
  | sep {ts : List Token} {r : Row} (s : Separator) (h : Fits ts r) :
      Fits (.mark s.mark :: ts) (r.push s)
  /-- A name without parentheses of its own gets them. -/
  | name {ts : List Token} {r : Row} (n : Text) (h : Fits ts r) :
      Fits (.name n :: ts) (.leaf [] n r)
  /-- A name that has parentheses of its own keeps them. -/
  | wrapped {ts : List Token} {r : Row} (n : Text) (h : Fits ts r) :
      Fits (.mark .opening :: .name n :: .mark .closing :: ts) (.leaf [] n r)
  | group {us ts : List Token} {inside r : Row} (hu : Fits us inside)
      (hus : ∀ n, us ≠ [.name n]) (h : Fits ts r) :
      Fits (.mark .opening :: (us ++ .mark .closing :: ts)) (.group [] inside r)

namespace Fits

theorem named {ts : List Token} {r : Row} (h : Fits ts r)
    (hnames : ∀ n, Token.name n ∈ ts → IsName n) : r.Named := by
  induction h with
  | nil => exact trivial
  | sep s h ih => exact Row.named_push (ih fun n hn => hnames n (List.mem_cons_of_mem _ hn))
  | name n h ih =>
    exact ⟨hnames n List.mem_cons_self, ih fun m hm => hnames m (List.mem_cons_of_mem _ hm)⟩
  | wrapped n h ih =>
    exact ⟨hnames n (by simp), ih fun m hm => hnames m (by simp [hm])⟩
  | group hu hus h ihu ih =>
    exact ⟨ihu fun m hm => hnames m (by simp [hm]), ih fun m hm => hnames m (by simp [hm])⟩

theorem head_ne_closing {ts : List Token} {r : Row} (h : Fits ts r) (us : List Token) :
    ts ≠ .mark .closing :: us := by
  cases h with
  | sep s h => cases s <;> rintro ⟨⟩
  | _ => rintro ⟨⟩

/-- Tokens that fit a row leave the depth as it is. -/
theorem depth {ts : List Token} {r : Row} (h : Fits ts r) (depth : Nat) (us : List Token) :
    depthTokens depth (ts ++ us) = depthTokens depth us := by
  induction h generalizing depth us with
  | nil => rfl
  | sep s h ih => cases s <;> (cases depth <;> exact ih _ us)
  | name n h ih => cases depth <;> exact ih _ us
  | wrapped n h ih => exact ih depth us
  | group hu hus h ihu ih =>
    rw [List.cons_append, List.append_assoc, depthTokens, ihu]
    exact ih depth us

/-- Completing the tokens gives the text of the row. -/
theorem completed_append {ts : List Token} {r : Row} (h : Fits ts r) (before : Option Mark)
    (rest : List Token) (hrest : ∀ n more, rest ≠ .name n :: more)
    (hpair : before = some .opening → nextMark rest = some .closing → ∀ n, ts ≠ [.name n]) :
    completed before (ts ++ rest) = r.text ++ completed none rest := by
  induction h generalizing before rest with
  | nil =>
    cases rest with
    | nil => rfl
    | cons t rest =>
      cases t with
      | mark k => rfl
      | name n => exact absurd rfl (hrest n rest)
  | sep s h ih =>
    rw [Row.text_push, List.cons_append, completed, ih _ _ hrest, List.append_assoc]
    intro hs
    cases s <;> cases hs
  | @name ts r n h ih =>
    -- the name does not stand alone between parentheses, so it gets its own
    have hno : ¬ (before = some .opening ∧ nextMark (ts ++ rest) = some .closing) := by
      rintro ⟨hbefore, hnext⟩
      cases ts with
      | nil => exact hpair hbefore hnext n rfl
      | cons t ts =>
        cases t with
        | mark k =>
          cases hnext
          exact h.head_ne_closing ts rfl
        | name m => cases hnext
    rw [List.cons_append, completed, if_neg hno, ih none _ hrest (by rintro ⟨⟩), Row.text_leaf]
    simp [gapText]
  | wrapped n h ih =>
    have hrow := ih (some .closing) rest hrest (by rintro ⟨⟩)
    simp only [List.cons_append, completed, nextMark, and_self, if_true, hrow, Row.text_leaf]
    simp [gapText, Mark.text]
  | @group us ts inside r hu hus h ihu ih =>
    have hinside := ihu (some .opening) (.mark .closing :: (ts ++ rest))
      (by rintro n more ⟨⟩) fun _ _ => hus
    have hrow := ih (some .closing) rest hrest (by rintro ⟨⟩)
    rw [List.cons_append, List.append_assoc, List.cons_append, completed, hinside, completed, hrow,
      Row.text_group]
    simp [gapText, Mark.text]

theorem completed_eq {ts : List Token} {r : Row} (h : Fits ts r) : completed none ts = r.text := by
  have := h.completed_append none [] (by rintro n more ⟨⟩) (by rintro ⟨⟩)
  rwa [List.append_nil, completed, List.append_nil] at this

end Fits

/-- Tokens that never close more than is open fit a row up to where they do, or to their end. -/
theorem exists_fits_append {ts : List Token} {depth : Nat} (hbal : depthTokens depth ts = some 0)
    (hsemi : Token.mark .semicolon ∉ ts) :
    ∃ us rest r, ts = us ++ rest ∧ Fits us r ∧
      ((depth = 0 ∧ rest = []) ∨
        ∃ d more, depth = d + 1 ∧ rest = .mark .closing :: more ∧ depthTokens d more = some 0) := by
  match ts with
  | [] =>
    refine ⟨[], [], .done [], rfl, .nil, .inl ⟨?_, rfl⟩⟩
    cases depth with
    | zero => rfl
    | succ depth => cases hbal
  | .name n :: ts =>
    have hrest : depthTokens depth ts = some 0 := by cases depth <;> exact hbal
    obtain ⟨us, rest, r, rfl, hfits, hend⟩ := exists_fits_append hrest
      fun h => hsemi (List.mem_cons_of_mem _ h)
    exact ⟨.name n :: us, rest, _, rfl, .name n hfits, hend⟩
  | .mark .arrow :: ts =>
    have hrest : depthTokens depth ts = some 0 := by cases depth <;> exact hbal
    obtain ⟨us, rest, r, rfl, hfits, hend⟩ := exists_fits_append hrest
      fun h => hsemi (List.mem_cons_of_mem _ h)
    exact ⟨.mark .arrow :: us, rest, _, rfl, .sep .arrow hfits, hend⟩
  | .mark .comma :: ts =>
    have hrest : depthTokens depth ts = some 0 := by cases depth <;> exact hbal
    obtain ⟨us, rest, r, rfl, hfits, hend⟩ := exists_fits_append hrest
      fun h => hsemi (List.mem_cons_of_mem _ h)
    exact ⟨.mark .comma :: us, rest, _, rfl, .sep .comma hfits, hend⟩
  | .mark .opening :: ts =>
    have hinside : depthTokens (depth + 1) ts = some 0 := hbal
    have hsemi' : Token.mark .semicolon ∉ ts := fun h => hsemi (List.mem_cons_of_mem _ h)
    obtain ⟨us, rest, inside, hts, hfits, ⟨hd, -⟩ | ⟨d, more, hd, rfl, hmore⟩⟩ :=
      exists_fits_append hinside hsemi'
    · cases hd
    · cases hd
      -- what follows the group is shorter than what follows its opening parenthesis
      have hlength : more.length < ts.length + 1 := by
        rw [hts, List.length_append, List.length_cons]
        omega
      obtain ⟨us', rest', r, rfl, hfits', hend⟩ := exists_fits_append hmore fun h =>
        hsemi' (by rw [hts]; exact List.mem_append_right _ (List.mem_cons_of_mem _ h))
      by_cases hname : ∃ n, us = [.name n]
      · obtain ⟨n, rfl⟩ := hname
        exact ⟨_, rest', _, by rw [hts]; rfl, .wrapped n hfits', hend⟩
      · push Not at hname
        refine ⟨_, rest', _, ?_, .group hfits hname hfits', hend⟩
        rw [hts]
        simp
  | .mark .closing :: ts =>
    cases depth with
    | zero => cases hbal
    | succ depth => exact ⟨[], _, .done [], rfl, .nil, .inr ⟨depth, ts, rfl, rfl, hbal⟩⟩
  | .mark .semicolon :: ts => exact absurd List.mem_cons_self hsemi
termination_by ts.length

/-- Balanced tokens fit a row. -/
theorem exists_fits {ts : List Token} (hbal : depthTokens 0 ts = some 0)
    (hsemi : Token.mark .semicolon ∉ ts) : ∃ r, Fits ts r := by
  obtain ⟨us, rest, r, rfl, hfits, ⟨-, rfl⟩ | ⟨d, more, hd, -⟩⟩ := exists_fits_append hbal hsemi
  · exact ⟨r, by rwa [List.append_nil]⟩
  · cases hd

end StageGraph
