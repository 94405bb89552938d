import Mathlib.Data.List.Basic
import Mathlib.Tactic
import StageGraph.Proofs.Plain.Place

set_option autoImplicit false

/-! # Texts around outermost brackets

A balanced text is laid out around its outermost pairs: a text without parentheses, then pairs, each
with a balanced text inside and a text without parentheses behind it. In parentheses of its own such
a text has the outline that one expects (`outline_lay`), and the parts of a term are the texts of
its layout, blank ones left out: of what is inside when the term is a single pair
(`parts_of_wrapped`), and of the term itself otherwise (`parts_of_lay`).
-/

namespace StageGraph

/-- A text without parentheses, and pairs that each have a text without parentheses behind them. -/
structure Layout where
  front : Text
  pairs : List (Text × Text)

namespace Layout

/-- The pairs written out, each with the text behind it. -/
def pairsText (pairs : List (Text × Text)) : Text :=
  pairs.flatMap fun pair => '(' :: pair.1 ++ ')' :: pair.2

/-- The whole text. -/
def text (l : Layout) : Text := l.front ++ pairsText l.pairs

/-- The text has neither an opening nor a closing parenthesis. -/
def Open (t : Text) : Prop := '(' ∉ t ∧ ')' ∉ t

/-- What is between the pairs has no parentheses, and what is inside them is balanced. -/
structure Laid (l : Layout) : Prop where
  front_open : Open l.front
  inner : ∀ pair ∈ l.pairs, isBalanced pair.1 = true
  behind_open : ∀ pair ∈ l.pairs, Open pair.2

/-- The texts before, inside and between the pairs, without white space around them, blank ones left
out. -/
def partTexts (l : Layout) : List Text :=
  ((l.front :: l.pairs.flatMap fun pair => [pair.1, pair.2]).map Text.trim).filter (· ≠ [])

end Layout

/-! ## Depth and brackets -/

theorem depthAfter_cons (depth : Nat) (c : Char) (t : Text) :
    depthAfter depth (c :: t) =
      if c = '(' then depthAfter (depth + 1) t
      else if c = ')' then
        match depth with
        | 0 => none
        | depth + 1 => depthAfter depth t
      else depthAfter depth t := by
  cases depth <;> rfl

theorem depthAfter_append (depth : Nat) (s t : Text) :
    depthAfter depth (s ++ t) = (depthAfter depth s).bind fun d => depthAfter d t := by
  induction s generalizing depth with
  | nil => rfl
  | cons c s ih =>
    rw [List.cons_append, depthAfter_cons, depthAfter_cons]
    split
    · exact ih _
    split
    · cases depth with
      | zero => rfl
      | succ depth => exact ih _
    · exact ih _

theorem depthAfter_of_open {t : Text} (h : Layout.Open t) (depth : Nat) :
    depthAfter depth t = some depth := by
  induction t with
  | nil => rfl
  | cons c t ih =>
    obtain ⟨hopen, hclose⟩ := h
    rw [List.mem_cons, not_or] at hopen hclose
    rw [depthAfter_cons, if_neg (Ne.symm hopen.1), if_neg (Ne.symm hclose.1)]
    exact ih ⟨hopen.2, hclose.2⟩

/-- Inside a pair the depth after a balanced text is the depth before it. -/
theorem depthAfter_of_isBalanced' {t : Text} (h : isBalanced t = true) (depth : Nat) :
    depthAfter depth t = some depth := by
  induction depth with
  | zero => exact depthAfter_of_isBalanced h
  | succ depth ih => exact depthAfter_succ ih

theorem depthAfter_pair {inner : Text} (h : isBalanced inner = true) (depth : Nat) (t : Text) :
    depthAfter depth ('(' :: inner ++ ')' :: t) = depthAfter depth t := by
  rw [List.cons_append, depthAfter_cons, if_pos rfl, depthAfter_append, depthAfter_of_isBalanced' h]
  rfl

theorem bracketsFrom_of_open {t : Text} (h : Layout.Open t) (position depth : Nat) :
    bracketsFrom position depth t = [] := by
  induction t generalizing position with
  | nil => rfl
  | cons c t ih =>
    obtain ⟨hopen, hclose⟩ := h
    rw [List.mem_cons, not_or] at hopen hclose
    rw [bracketsFrom, if_neg (Ne.symm hopen.1), if_neg (Ne.symm hclose.1)]
    exact ih ⟨hopen.2, hclose.2⟩ _

/-- Within a balanced text at some depth all brackets lie deeper. -/
theorem atDepth_bracketsFrom_of_isBalanced {t : Text} (h : isBalanced t = true)
    (position depth : Nat) : atDepth depth (bracketsFrom position depth t) = [] := by
  rw [atDepth, List.filter_eq_nil_iff]
  intro b hb
  have hd := depthAfter_of_isBalanced h
  have := lt_depth_of_depthAfter (k := depth) hd (by rwa [Nat.zero_add])
  simp only [decide_eq_true_eq]
  omega

namespace Layout

theorem pairsText_cons (inner behind : Text) (pairs : List (Text × Text)) :
    pairsText ((inner, behind) :: pairs) =
      '(' :: inner ++ ')' :: (behind ++ pairsText pairs) := by
  simp [pairsText]

theorem depthAfter_pairsText {pairs : List (Text × Text)}
    (hin : ∀ pair ∈ pairs, isBalanced pair.1 = true) (hout : ∀ pair ∈ pairs, Open pair.2)
    (depth : Nat) : depthAfter depth (pairsText pairs) = some depth := by
  induction pairs with
  | nil => rfl
  | cons pair pairs ih =>
    obtain ⟨inner, behind⟩ := pair
    rw [List.forall_mem_cons] at hin hout
    rw [pairsText_cons, depthAfter_pair hin.1, depthAfter_append, depthAfter_of_open hout.1]
    exact ih hin.2 hout.2

theorem Laid.depthAfter {l : Layout} (h : l.Laid) (depth : Nat) :
    depthAfter depth l.text = some depth := by
  rw [text, depthAfter_append, depthAfter_of_open h.front_open]
  exact depthAfter_pairsText h.inner h.behind_open depth

theorem Laid.isBalanced {l : Layout} (h : l.Laid) : isBalanced l.text = true := by
  rw [StageGraph.isBalanced, h.depthAfter 0]
  rfl

/-- The brackets of the pairs, the first of which opens at `position`. -/
def pairBrackets (position : Nat) : List (Text × Text) → List BracketPair
  | [] => []
  | (inner, behind) :: pairs =>
    ⟨position, position + 1 + Text.bytes inner⟩ ::
      pairBrackets (position + 1 + Text.bytes inner + 1 + Text.bytes behind) pairs

theorem pairUp_atDepth_pairsText {pairs : List (Text × Text)}
    (hin : ∀ pair ∈ pairs, StageGraph.isBalanced pair.1 = true)
    (hout : ∀ pair ∈ pairs, Open pair.2) (position depth : Nat) :
    pairUp (atDepth (depth + 1) (bracketsFrom position depth (pairsText pairs))) =
      pairBrackets position pairs := by
  induction pairs generalizing position with
  | nil => rfl
  | cons pair pairs ih =>
    obtain ⟨inner, behind⟩ := pair
    rw [List.forall_mem_cons] at hin hout
    have hinner := depthAfter_of_isBalanced' hin.1 (depth + 1)
    have hbehind := depthAfter_of_open hout.1 depth
    rw [pairsText_cons, List.cons_append, bracketsFrom, if_pos rfl,
      bracketsFrom_append_of_depthAfter _ hinner, bracketsFrom, if_neg (by decide), if_pos rfl,
      Nat.add_sub_cancel, bracketsFrom_append_of_depthAfter _ hbehind,
      bracketsFrom_of_open hout.1, List.nil_append]
    simp only [show Char.utf8Size '(' = 1 from rfl, show Char.utf8Size ')' = 1 from rfl]
    -- the brackets inside the first pair lie deeper, so only its own two and those behind it count
    have hdeep := atDepth_bracketsFrom_of_isBalanced hin.1 (position + 1) (depth + 1)
    have hrest := ih hin.2 hout.2 (position + 1 + Text.bytes inner + 1 + Text.bytes behind)
    simp only [atDepth, List.filter_cons, List.filter_append, decide_true, if_true] at hdeep hrest ⊢
    rw [hdeep, List.nil_append, pairUp, hrest]
    rfl

/-! ## Cutting along the pairs -/

/-- The offsets of the pairs' brackets, in order. -/
def offsets (pairs : List BracketPair) : List Nat :=
  pairs.flatMap fun pair => [pair.opening, pair.closing]

theorem map_text_cutAlong_cons (p : Piece) (start stop : Nat) (rest : List Nat) :
    (p.cutAlong (start :: stop :: rest)).map Piece.text =
      ([Text.trim (Text.slice p.text (start + 1) stop)].filter (· ≠ [])) ++
        (p.cutAlong (stop :: rest)).map Piece.text := by
  rw [Piece.cutAlong]
  by_cases hblank : Text.trim (Text.slice p.text (start + 1) stop) = []
  · have : (p.cut (start + 1) stop).text = [] := hblank
    rw [if_pos this]
    simp [hblank]
  · have : ¬ (p.cut (start + 1) stop).text = [] := hblank
    rw [if_neg this]
    simp [hblank, Piece.cut]

theorem partTexts_cons (front inner behind : Text) (pairs : List (Text × Text)) :
    partTexts ⟨front, (inner, behind) :: pairs⟩ =
      [Text.trim front].filter (· ≠ []) ++ ([Text.trim inner].filter (· ≠ []) ++
        partTexts ⟨behind, pairs⟩) := by
  simp only [partTexts, List.flatMap_cons, List.map_cons, List.cons_append, List.nil_append,
    List.filter_cons, List.filter_nil]
  by_cases hfront : Text.trim front = []
  · by_cases hinner : Text.trim inner = []
    · simp [hfront, hinner]
    · simp [hfront, hinner]
  · by_cases hinner : Text.trim inner = []
    · simp [hfront, hinner]
    · simp [hfront, hinner]

/-- Cutting from behind a bracket along the brackets of the pairs gives the texts between. -/
theorem map_text_cutAlong {p : Piece} {before front behind : Text} {pairs : List (Text × Text)}
    (start : Nat) (hp : p.text = before ++ (front ++ (pairsText pairs ++ behind)))
    (hstart : start + 1 = Text.bytes before) :
    (p.cutAlong (start :: (offsets (pairBrackets (Text.bytes before + Text.bytes front) pairs) ++
      [Text.bytes before + Text.bytes front + Text.bytes (pairsText pairs)]))).map Piece.text =
      partTexts ⟨front, pairs⟩ := by
  have hfront : Text.slice p.text (Text.bytes before) (Text.bytes before + Text.bytes front) =
      front := by
    rw [hp]
    exact Text.slice_append _ _ _
  induction pairs generalizing before front start with
  | nil =>
    simp only [pairBrackets, offsets, pairsText, List.flatMap_nil, List.nil_append, Text.bytes_nil,
      Nat.add_zero]
    rw [map_text_cutAlong_cons, hstart, hfront]
    simp [Piece.cutAlong, partTexts, List.filter_cons]
  | cons pair pairs ih =>
    obtain ⟨inner, next⟩ := pair
    -- the brackets of the first pair stand behind `front` and behind `inner`
    have hopen : Text.bytes (before ++ front ++ ['(']) =
        Text.bytes before + Text.bytes front + 1 := by
      simp [show Char.utf8Size '(' = 1 from rfl]
      omega
    have hclose : Text.bytes (before ++ front ++ '(' :: inner ++ [')']) =
        Text.bytes before + Text.bytes front + 1 + Text.bytes inner + 1 := by
      simp [show Char.utf8Size '(' = 1 from rfl, show Char.utf8Size ')' = 1 from rfl]
      omega
    have hinner : Text.slice p.text (Text.bytes before + Text.bytes front + 1)
        (Text.bytes before + Text.bytes front + 1 + Text.bytes inner) = inner := by
      rw [hp, pairsText_cons, ← hopen]
      have := Text.slice_append (before ++ front ++ ['(']) inner
        (')' :: (next ++ pairsText pairs) ++ behind)
      simpa using this
    have hp' : p.text = (before ++ front ++ '(' :: inner ++ [')']) ++
        (next ++ (pairsText pairs ++ behind)) := by
      rw [hp, pairsText_cons]
      simp
    have hnext : Text.slice p.text (Text.bytes (before ++ front ++ '(' :: inner ++ [')']))
        (Text.bytes (before ++ front ++ '(' :: inner ++ [')']) + Text.bytes next) = next := by
      rw [hp']
      exact Text.slice_append _ _ _
    have hrest := ih (Text.bytes before + Text.bytes front + 1 + Text.bytes inner) hp'
      hclose.symm hnext
    have hend : Text.bytes before + Text.bytes front +
        Text.bytes (pairsText ((inner, next) :: pairs)) =
        Text.bytes (before ++ front ++ '(' :: inner ++ [')']) + Text.bytes next +
          Text.bytes (pairsText pairs) := by
      rw [hclose, pairsText_cons]
      simp [show Char.utf8Size '(' = 1 from rfl, show Char.utf8Size ')' = 1 from rfl]
      omega
    rw [hend]
    rw [hclose] at hrest ⊢
    simp only [pairBrackets, offsets, List.flatMap_cons, List.cons_append, List.nil_append]
    rw [map_text_cutAlong_cons, map_text_cutAlong_cons, hstart, hfront, hinner, partTexts_cons]
    exact congrArg _ (congrArg _ hrest)

end Layout

/-! ## Outlines -/

theorem isBalanced_wrapped {t : Text} (h : isBalanced t = true) :
    isBalanced (SpanStore.wrapped t) = true := by
  have hpair := depthAfter_pair h 0 []
  rw [isBalanced, SpanStore.wrapped, hpair]
  rfl

theorem bytes_wrapped (t : Text) : Text.bytes (SpanStore.wrapped t) = 1 + Text.bytes t + 1 := by
  simp [SpanStore.wrapped, show Char.utf8Size '(' = 1 from rfl,
    show Char.utf8Size ')' = 1 from rfl]
  omega

/-- The outline of a balanced text, told by its brackets of depth 1. -/
theorem outline_of_isBalanced {t : Text} (h : isBalanced t = true) :
    outline t =
      if 2 < (atDepth 1 (bracketsFrom 0 0 t)).length then .ok none
      else if (atDepth 1 (bracketsFrom 0 0 t)).length < 2 then
        .error (.malformed (.outerBrackets (atDepth 1 (bracketsFrom 0 0 t)).length t))
      else
        match BracketTree.ofBrackets ((bracketsFrom 0 0 t).filter fun b => b.depth ≤ 2) with
        | .error failure => .error failure
        | .ok tree =>
          if tree.root = ⟨0, Text.bytes t - 1⟩ then .ok (some tree)
          else .error (.malformed (.notEnclosed t)) := by
  unfold outline outerBrackets
  rw [if_pos h]
  simp only [bind, Except.bind, pure, Except.pure, throw, throwThe, MonadExceptOf.throw]
  rw [atDepth_filter_le (by decide)]
  by_cases hmany : 2 < (atDepth 1 (bracketsFrom 0 0 t)).length
  · rw [if_pos hmany, if_pos hmany]
  · rw [if_neg hmany, if_neg hmany]
    by_cases hfew : (atDepth 1 (bracketsFrom 0 0 t)).length < 2
    · rw [if_pos hfew, if_pos hfew]
    · rw [if_neg hfew, if_neg hfew]
      cases BracketTree.ofBrackets ((bracketsFrom 0 0 t).filter fun b => b.depth ≤ 2) <;> rfl

namespace Layout

/-- In parentheses of its own a laid out text is the root, and its pairs are the children. -/
theorem outline_wrapped {l : Layout} (h : l.Laid) :
    outline (SpanStore.wrapped l.text) =
      .ok (some ⟨⟨0, 1 + Text.bytes l.text⟩, pairBrackets (1 + Text.bytes l.front) l.pairs⟩) := by
  have hone := atDepth_one_wrapped h.isBalanced
  have hchildren : pairUp (atDepth 2 (bracketsFrom 0 0 (SpanStore.wrapped l.text))) =
      pairBrackets (1 + Text.bytes l.front) l.pairs := by
    have hfront := depthAfter_of_open h.front_open 1
    rw [SpanStore.wrapped, bracketsFrom_wrapped h.isBalanced, text,
      bracketsFrom_append_of_depthAfter _ hfront, bracketsFrom_of_open h.front_open,
      ← pairUp_atDepth_pairsText h.inner h.behind_open _ 1]
    simp [atDepth]
  rw [outline_of_isBalanced (isBalanced_wrapped h.isBalanced), SpanStore.wrapped, hone]
  simp only [BracketTree.ofBrackets, atDepth_filter_le (show 1 ≤ 2 by decide),
    atDepth_filter_le (show 2 ≤ 2 by decide), hone, pairUp]
  rw [← SpanStore.wrapped, hchildren, bytes_wrapped, Nat.add_sub_cancel]
  simp

/-- A text with several outermost pairs has no outline. -/
theorem outline_eq_none_of_pairs {l : Layout} (h : l.Laid) (hpairs : 2 ≤ l.pairs.length) :
    outline l.text = .ok none := by
  have hcount : ∀ {pairs : List (Text × Text)} (position : Nat),
      (pairBrackets position pairs).length = pairs.length := by
    intro pairs
    induction pairs with
    | nil => intro position; rfl
    | cons pair pairs ih => intro position; rw [pairBrackets, List.length_cons, ih]; rfl
  have hone : pairUp (atDepth 1 (bracketsFrom 0 0 l.text)) =
      pairBrackets (Text.bytes l.front) l.pairs := by
    rw [text, bracketsFrom_append_of_depthAfter _ (depthAfter_of_open h.front_open 0),
      bracketsFrom_of_open h.front_open, List.nil_append, Nat.zero_add]
    exact pairUp_atDepth_pairsText h.inner h.behind_open _ 0
  have hlength := length_pairUp (atDepth 1 (bracketsFrom 0 0 l.text))
  rw [hone, hcount] at hlength
  rw [outline_of_isBalanced h.isBalanced, if_pos (by omega)]

/-! ## Parts -/

/-- The parts of a term that is a single pair are the texts of what is inside. -/
theorem parts_of_wrapped {p : Piece} {l : Layout} (h : l.Laid)
    (hp : p.text = SpanStore.wrapped l.text) :
    ∃ ps, p.parts = .ok ps ∧ ps.map Piece.text = l.partTexts := by
  have hatom : isAtomic p.text = false := by rw [hp]; exact isAtomic_wrapped _
  have hin : isEnclosed p.text = true := by rw [hp]; exact isEnclosed_wrapped _
  refine ⟨_, Piece.parts_of_outline hatom hin (by rw [hp]; exact outline_wrapped h), ?_⟩
  have htext : p.text = ['('] ++ (l.front ++ (pairsText l.pairs ++ [')'])) := by
    rw [hp]
    simp [SpanStore.wrapped, text]
  have hcut := map_text_cutAlong 0 htext rfl
  simp only [Text.bytes_cons, Text.bytes_nil, show Char.utf8Size '(' = 1 from rfl] at hcut
  rw [← hcut, BracketTree.boundaries, text, Text.bytes_append, ← Nat.add_assoc]
  rfl

/-- The whole text is one pair. -/
def Single (l : Layout) : Prop := l.front = [] ∧ ∃ inner, l.pairs = [(inner, [])]

/-- What starts and ends with a parenthesis is one pair or several. -/
theorem single_or_pairs_of_isEnclosed {l : Layout} (h : l.Laid) (hin : isEnclosed l.text = true) :
    l.Single ∨ 2 ≤ l.pairs.length := by
  obtain ⟨hhead, hlast⟩ : l.text.head? = some '(' ∧ l.text.getLast? = some ')' := by
    simpa [isEnclosed] using hin
  obtain ⟨front, pairs⟩ := l
  have hfront : front = [] := by
    cases front with
    | nil => rfl
    | cons c front =>
      cases hhead
      exact absurd List.mem_cons_self h.front_open.1
  subst hfront
  rcases pairs with _ | ⟨⟨inner, behind⟩, _ | ⟨pair, pairs⟩⟩
  · cases hhead
  -- one pair, with nothing behind it, for the last character is a closing parenthesis
  · left
    refine ⟨rfl, inner, ?_⟩
    rcases List.eq_nil_or_concat behind with rfl | ⟨front, c, rfl⟩
    · rfl
    · have htext : text ⟨[], [(inner, front.concat c)]⟩ = '(' :: inner ++ ')' :: front ++ [c] := by
        simp [text, pairsText]
      rw [htext, List.getLast?_concat] at hlast
      cases hlast
      exact absurd (by simp) (h.behind_open _ (List.mem_singleton_self _)).2
  · right
    simp

/-- The parts of any other term are its own texts. -/
theorem parts_of_lay {p : Piece} {l : Layout} (h : l.Laid) (hp : p.text = l.text)
    (hatom : isAtomic p.text = false) (hsingle : ¬ l.Single) :
    ∃ ps, p.parts = .ok ps ∧ ps.map Piece.text = l.partTexts := by
  have hwrap := parts_of_wrapped (p := p.wrap) h (by rw [Piece.wrap, hp])
  by_cases hin : isEnclosed p.text = true
  · have hpairs := (single_or_pairs_of_isEnclosed h (by rwa [← hp])).resolve_left hsingle
    have hout := outline_eq_none_of_pairs h hpairs
    rw [Piece.parts_of_outline_none hatom hin (by rwa [hp])]
    exact hwrap
  · rw [Piece.parts_of_not_isEnclosed hatom (by simpa using hin)]
    exact hwrap

end Layout

end StageGraph
