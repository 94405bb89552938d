import StageGraph.Failure
import StageGraph.Plain.Completion

set_option autoImplicit false

/-! # Brackets by depth

Reading a text from the left, each parenthesis has a place, counted in bytes, and a depth: 1 for an
outermost pair, 2 for a pair directly inside one, and so on. A term is taken apart along the pairs
of depth 1 and 2 only; whatever lies deeper stays inside its part.

At one depth of a balanced text opening and closing brackets alternate, so the pairs of that depth
are neighbours in the list of its brackets. The outline of a term is its outermost pair together
with the pairs directly inside.
-/

namespace StageGraph

/-- A parenthesis of a text. -/
structure Bracket where
  /-- Its byte offset. -/
  position : Nat
  /-- How many pairs it belongs to or lies in. -/
  depth : Nat
deriving DecidableEq

/-- An opening bracket and the closing bracket that belongs to it, by their byte offsets. -/
structure BracketPair where
  opening : Nat
  closing : Nat
deriving DecidableEq

/-- All brackets of a text that starts at offset `position` with `depth` pairs open. -/
def bracketsFrom (position depth : Nat) : Text → List Bracket
  | [] => []
  | c :: rest =>
    if c = '(' then
      ⟨position, depth + 1⟩ :: bracketsFrom (position + c.utf8Size) (depth + 1) rest
    else if c = ')' then
      ⟨position, depth⟩ :: bracketsFrom (position + c.utf8Size) (depth - 1) rest
    else bracketsFrom (position + c.utf8Size) depth rest

/-- The brackets of depth 1 and 2 of a balanced text. -/
def outerBrackets (t : Text) : Except Failure (List Bracket) :=
  if isBalanced t then .ok ((bracketsFrom 0 0 t).filter fun b => b.depth ≤ 2)
  else .error (.malformed (.unbalanced t))

/-- The brackets of one depth. -/
def atDepth (depth : Nat) (brackets : List Bracket) : List Bracket :=
  brackets.filter fun b => b.depth = depth

/-- Neighbours joined to pairs; a last one without a neighbour is left out. -/
def pairUp : List Bracket → List BracketPair
  | a :: b :: rest => ⟨a.position, b.position⟩ :: pairUp rest
  | _ => []

/-- A pair of brackets and the pairs directly inside it. -/
structure BracketTree where
  root : BracketPair
  children : List BracketPair
deriving DecidableEq

namespace BracketTree

/-- The tree of a list of brackets, which has to have exactly one pair of depth 1. -/
def ofBrackets (brackets : List Bracket) : Except Failure BracketTree :=
  match pairUp (atDepth 1 brackets) with
  | [root] => .ok ⟨root, pairUp (atDepth 2 brackets)⟩
  | roots => .error (.malformed (.rootCount roots.length))

/-- The offsets at which a term is cut: the two ends of the root and of each child, in order. -/
def boundaries (tree : BracketTree) : List Nat :=
  tree.root.opening :: tree.children.flatMap (fun pair => [pair.opening, pair.closing]) ++
    [tree.root.closing]

end BracketTree

/-- The outermost pair of a term that starts and ends with a bracket, and the pairs directly
inside. There is none when the term has several outermost pairs. -/
def outline (t : Text) : Except Failure (Option BracketTree) := do
  let brackets ← outerBrackets t
  let count := (atDepth 1 brackets).length
  if 2 < count then return none
  if count < 2 then throw (.malformed (.outerBrackets count t))
  let tree ← BracketTree.ofBrackets brackets
  if tree.root = ⟨0, Text.bytes t - 1⟩ then return some tree
  throw (.malformed (.notEnclosed t))

/-! ## Where brackets are -/

theorem bracketsFrom_append (position depth : Nat) (s t : Text) :
    ∃ depth', bracketsFrom position depth (s ++ t) =
      bracketsFrom position depth s ++ bracketsFrom (position + Text.bytes s) depth' t := by
  induction s generalizing position depth with
  | nil => exact ⟨depth, rfl⟩
  | cons c s ih =>
    simp only [List.cons_append, bracketsFrom, Text.bytes_cons, ← Nat.add_assoc]
    split
    · obtain ⟨d, hd⟩ := ih (position + c.utf8Size) (depth + 1)
      exact ⟨d, by rw [hd, List.cons_append]⟩
    split
    · obtain ⟨d, hd⟩ := ih (position + c.utf8Size) (depth - 1)
      exact ⟨d, by rw [hd, List.cons_append]⟩
    · exact ih (position + c.utf8Size) depth

theorem bracketsFrom_append_of_depthAfter {position depth depth' : Nat} {s : Text} (t : Text)
    (h : depthAfter depth s = some depth') :
    bracketsFrom position depth (s ++ t) =
      bracketsFrom position depth s ++ bracketsFrom (position + Text.bytes s) depth' t := by
  induction s generalizing position depth with
  | nil => cases h; rfl
  | cons c s ih =>
    simp only [List.cons_append, bracketsFrom, Text.bytes_cons, ← Nat.add_assoc]
    unfold depthAfter at h
    split
    · next hc => rw [if_pos hc] at h; rw [ih h, List.cons_append]
    · next hc =>
      rw [if_neg hc] at h
      split
      · next hc' =>
        rw [if_pos hc'] at h
        cases depth with
        | zero => cases h
        | succ depth => rw [Nat.add_sub_cancel, ih h, List.cons_append]
      · next hc' => rw [if_neg hc'] at h; exact ih h

theorem position_bounds {position depth : Nat} {t : Text} {b : Bracket}
    (h : b ∈ bracketsFrom position depth t) :
    position ≤ b.position ∧ b.position < position + Text.bytes t := by
  induction t generalizing position depth with
  | nil => cases h
  | cons c t ih =>
    have hpos := c.utf8Size_pos
    simp only [bracketsFrom] at h
    simp only [Text.bytes_cons]
    split at h
    · rcases List.mem_cons.1 h with rfl | h
      · simp only; omega
      · have := ih h; omega
    split at h
    · rcases List.mem_cons.1 h with rfl | h
      · simp only; omega
      · have := ih h; omega
    · have := ih h; omega

/-- Brackets come in the order of the text. -/
theorem bracketsFrom_ascending (position depth : Nat) (t : Text) :
    (bracketsFrom position depth t).Pairwise fun a b => a.position < b.position := by
  induction t generalizing position depth with
  | nil => exact .nil
  | cons c t ih =>
    have hpos := c.utf8Size_pos
    simp only [bracketsFrom]
    split
    · refine .cons (fun b hb => ?_) (ih _ _)
      have := position_bounds hb
      simp only
      omega
    split
    · refine .cons (fun b hb => ?_) (ih _ _)
      have := position_bounds hb
      simp only
      omega
    · exact ih _ _

/-- With `k` more pairs open than the text itself needs, every bracket lies deeper than `k`. -/
theorem lt_depth_of_depthAfter {position depth depth' k : Nat} {t : Text} {b : Bracket}
    (h : depthAfter depth t = some depth') (hb : b ∈ bracketsFrom position (depth + k) t) :
    k < b.depth := by
  induction t generalizing position depth with
  | nil => cases hb
  | cons c t ih =>
    simp only [bracketsFrom] at hb
    unfold depthAfter at h
    split at hb
    · next hc =>
      rw [if_pos hc] at h
      rcases List.mem_cons.1 hb with rfl | hb
      · simp only; omega
      · exact ih h (by rwa [Nat.add_right_comm] at hb)
    · next hc =>
      rw [if_neg hc] at h
      split at hb
      · next hc' =>
        rw [if_pos hc'] at h
        cases depth with
        | zero => cases h
        | succ depth =>
          rcases List.mem_cons.1 hb with rfl | hb
          · simp only; omega
          · exact ih h (by rwa [Nat.add_right_comm, Nat.add_sub_cancel] at hb)
      · next hc' => rw [if_neg hc'] at h; exact ih h hb

/-- At each depth the brackets alternate, so their number is even unless the text starts and ends on
different sides of that depth. -/
theorem atDepth_parity (position : Nat) {depth depth' : Nat} (k : Nat) {t : Text}
    (h : depthAfter depth t = some depth') :
    ((atDepth k (bracketsFrom position depth t)).length +
      (if depth < k then 1 else 0) + (if depth' < k then 1 else 0)) % 2 = 0 := by
  induction t generalizing position depth with
  | nil => cases h; simp only [bracketsFrom, atDepth, List.filter_nil, List.length_nil]; omega
  | cons c t ih =>
    unfold depthAfter at h
    simp only [bracketsFrom]
    split
    · next hc =>
      rw [if_pos hc] at h
      have := ih (position + c.utf8Size) h
      simp only [atDepth, List.filter_cons, decide_eq_true_eq] at this ⊢
      grind
    · next hc =>
      rw [if_neg hc] at h
      split
      · next hc' =>
        rw [if_pos hc'] at h
        cases depth with
        | zero => cases h
        | succ depth =>
          have := ih (position + c.utf8Size) h
          simp only [atDepth, List.filter_cons, decide_eq_true_eq, Nat.add_sub_cancel] at this ⊢
          grind
      · next hc' =>
        rw [if_neg hc'] at h
        exact ih _ h

/-- Where no bracket of depth 1 closes, the first opening one has depth 2. -/
theorem exists_atDepth_two {position : Nat} {t : Text} (h : '(' ∈ t)
    (hone : ∀ b ∈ bracketsFrom position 1 t, b.depth ≠ 1) :
    ∃ b ∈ bracketsFrom position 1 t, b.depth = 2 := by
  induction t generalizing position with
  | nil => cases h
  | cons c t ih =>
    simp only [bracketsFrom] at hone ⊢
    split
    · exact ⟨_, List.mem_cons_self, rfl⟩
    · next hc =>
      rw [if_neg hc] at hone
      split
      · next hc' =>
        rw [if_pos hc'] at hone
        exact absurd rfl (hone _ List.mem_cons_self)
      · next hc' =>
        rw [if_neg hc'] at hone
        rcases List.mem_cons.1 h with h | h
        · exact absurd h.symm hc
        · exact ih h hone

/-- A text that opens nothing has no bracket deeper than where it starts. -/
theorem depth_le_of_not_mem {position depth : Nat} {t : Text} (h : '(' ∉ t) {b : Bracket}
    (hb : b ∈ bracketsFrom position depth t) : b.depth ≤ depth := by
  induction t generalizing position depth with
  | nil => cases hb
  | cons c t ih =>
    rw [List.mem_cons, not_or] at h
    simp only [bracketsFrom] at hb
    split at hb
    · next hc => exact absurd hc.symm h.1
    split at hb
    · rcases List.mem_cons.1 hb with rfl | hb
      · exact Nat.le_refl _
      · have := ih h.2 hb; omega
    · exact ih h.2 hb

theorem eq_of_position_eq {l : List Bracket}
    (h : l.Pairwise fun a b => a.position < b.position) {a b : Bracket} (ha : a ∈ l) (hb : b ∈ l)
    (hab : a.position = b.position) : a = b := by
  induction h with
  | nil => cases ha
  | cons hx _ ih =>
    rcases List.mem_cons.1 ha with rfl | ha
    · rcases List.mem_cons.1 hb with rfl | hb
      · rfl
      · have := hx _ hb; omega
    · rcases List.mem_cons.1 hb with hb | hb
      · have := hx _ ha; rw [hb] at hab; omega
      · exact ih ha hb

/-! ## Pairs and boundaries -/

theorem length_pairUp (l : List Bracket) : (pairUp l).length = l.length / 2 := by
  fun_induction pairUp l with
  | case1 a b rest ih => simp only [List.length_cons, ih]; omega
  | case2 l h =>
    match l, h with
    | [], _ => rfl
    | [a], _ => simp
    | a :: b :: rest, h => exact absurd rfl (h a b rest)

/-- The ends of all pairs are the places of brackets, in the same order. -/
theorem pairUp_ends_sublist (l : List Bracket) :
    ((pairUp l).flatMap fun pair => [pair.opening, pair.closing]).Sublist
      (l.map Bracket.position) := by
  fun_induction pairUp l with
  | case1 a b rest ih =>
    simp only [List.flatMap_cons, List.map_cons, List.cons_append, List.nil_append]
    exact (ih.cons_cons _).cons_cons _
  | case2 l h => exact List.nil_sublist _

/-- What an outline says about its term: the root is the whole term, and the boundaries rise
strictly from its start to its end. -/
structure OutlineFacts (t : Text) (tree : BracketTree) : Prop where
  balanced : isBalanced t = true
  root_eq : tree.root = ⟨0, Text.bytes t - 1⟩
  roots : (atDepth 1 (bracketsFrom 0 0 t)).map Bracket.position = [0, Text.bytes t - 1]
  children_eq : tree.children = pairUp (atDepth 2 (bracketsFrom 0 0 t))
  ascending : tree.boundaries.Pairwise (· < ·)

theorem atDepth_filter_le {k : Nat} (hk : k ≤ 2) (brackets : List Bracket) :
    atDepth k (brackets.filter fun b => b.depth ≤ 2) = atDepth k brackets := by
  unfold atDepth
  rw [List.filter_filter]
  apply List.filter_congr
  intro b _
  by_cases hb : b.depth = k <;> simp [hb, hk]

theorem outerBrackets_eq_ok {t : Text} {brackets : List Bracket}
    (h : outerBrackets t = .ok brackets) :
    isBalanced t = true ∧ brackets = (bracketsFrom 0 0 t).filter fun b => b.depth ≤ 2 := by
  unfold outerBrackets at h
  split at h
  · next hb => cases h; exact ⟨hb, rfl⟩
  · cases h

theorem outline_eq_some {t : Text} {tree : BracketTree} (h : outline t = .ok (some tree)) :
    OutlineFacts t tree := by
  unfold outline at h
  cases hb : outerBrackets t with
  | error f => rw [hb] at h; cases h
  | ok brackets =>
    rw [hb] at h
    obtain ⟨hbal, rfl⟩ := outerBrackets_eq_ok hb
    simp only [bind, Except.bind, pure, Except.pure, throw, throwThe,
      MonadExceptOf.throw] at h
    rw [atDepth_filter_le (by decide)] at h
    split at h
    · cases h
    split at h
    · cases h
    next hgt hlt =>
    -- exactly one outermost pair is left, with the brackets `a` and `b`
    have hcount : (atDepth 1 (bracketsFrom 0 0 t)).length = 2 := by omega
    unfold BracketTree.ofBrackets at h
    rw [atDepth_filter_le (by decide), atDepth_filter_le (by decide)] at h
    match hroots : atDepth 1 (bracketsFrom 0 0 t), hcount with
    | [a, b], _ =>
      rw [hroots] at h
      simp only [pairUp] at h
      split at h
      · next hroot =>
        cases h
        have ha : a.position = 0 := congrArg BracketPair.opening hroot
        have hb' : b.position = Text.bytes t - 1 := congrArg BracketPair.closing hroot
        refine ⟨hbal, hroot, by simp [hroots, ha, hb'], rfl, ?_⟩
        have hasc := bracketsFrom_ascending 0 0 t
        have hmem : ∀ r ∈ [a, b], r ∈ bracketsFrom 0 0 t ∧ r.depth = 1 := by
          intro r hr
          rw [← hroots] at hr
          simpa [atDepth] using hr
        -- a bracket of depth 2 is neither end of the root, so it lies strictly between them
        have hinner : ∀ p ∈ (pairUp (atDepth 2 (bracketsFrom 0 0 t))).flatMap
            (fun pair => [pair.opening, pair.closing]), 0 < p ∧ p < Text.bytes t - 1 := by
          intro p hp
          obtain ⟨c, hc, rfl⟩ := List.mem_map.1 ((pairUp_ends_sublist _).subset hp)
          obtain ⟨hc, hdepth⟩ : c ∈ bracketsFrom 0 0 t ∧ c.depth = 2 := by
            simpa [atDepth] using hc
          have hne : ∀ r ∈ [a, b], c.position ≠ r.position := by
            intro r hr heq
            rw [eq_of_position_eq hasc hc (hmem r hr).1 heq, (hmem r hr).2] at hdepth
            exact absurd hdepth (by decide)
          have h1 := hne a (by simp)
          have h2 := hne b (by simp)
          have := position_bounds hc
          omega
        have hbound := position_bounds (hmem a (by simp)).1
        have hab : a.position < b.position := by
          have hsub : List.Pairwise (fun a b => a.position < b.position) [a, b] := by
            rw [← hroots]
            exact hasc.filter _
          simpa using hsub
        -- the root opens before all else, the children rise, and the root closes after all else
        simp only [BracketTree.boundaries, List.cons_append]
        refine List.Pairwise.cons ?_ (List.pairwise_append.2 ⟨?_, by simp, ?_⟩)
        · intro p hp
          rcases List.mem_append.1 hp with hp | hp
          · rw [ha]; exact (hinner p hp).1
          · rw [List.mem_singleton.1 hp]; exact hab
        · refine List.Pairwise.sublist (pairUp_ends_sublist _) ?_
          exact List.pairwise_map.2 (hasc.filter _)
        · intro p hp q hq
          rw [List.mem_singleton.1 hq, hb']
          exact (hinner p hp).2
      · cases h

/-! ## A text in parentheses -/

theorem depthAfter_succ {depth depth' : Nat} {t : Text} (h : depthAfter depth t = some depth') :
    depthAfter (depth + 1) t = some (depth' + 1) := by
  induction t generalizing depth with
  | nil => cases h; rfl
  | cons c t ih =>
    unfold depthAfter at h ⊢
    split
    · next hc => rw [if_pos hc] at h; exact ih h
    · next hc =>
      rw [if_neg hc] at h
      split
      · next hc' =>
        rw [if_pos hc'] at h
        cases depth with
        | zero => cases h
        | succ depth => exact ih h
      · next hc' => rw [if_neg hc'] at h; exact ih h

/-- One more pair around a text moves its brackets one level down. -/
theorem length_atDepth_succ (position position' : Nat) {depth depth' : Nat} (k : Nat) {t : Text}
    (h : depthAfter depth t = some depth') :
    (atDepth (k + 1) (bracketsFrom position (depth + 1) t)).length =
      (atDepth k (bracketsFrom position' depth t)).length := by
  induction t generalizing position position' depth with
  | nil => rfl
  | cons c t ih =>
    unfold depthAfter at h
    simp only [bracketsFrom]
    split
    · next hc =>
      rw [if_pos hc] at h
      have := ih (position + c.utf8Size) (position' + c.utf8Size) h
      simp only [atDepth, List.filter_cons, decide_eq_true_eq, Nat.add_right_cancel_iff] at this ⊢
      split <;> simp [this]
    · next hc =>
      rw [if_neg hc] at h
      split
      · next hc' =>
        rw [if_pos hc'] at h
        cases depth with
        | zero => cases h
        | succ depth =>
          have := ih (position + c.utf8Size) (position' + c.utf8Size) h
          simp only [atDepth, List.filter_cons, decide_eq_true_eq, Nat.add_right_cancel_iff,
            Nat.add_sub_cancel] at this ⊢
          split <;> simp [this]
      · next hc' => rw [if_neg hc'] at h; exact ih _ _ h

theorem depthAfter_of_isBalanced {t : Text} (h : isBalanced t = true) :
    depthAfter 0 t = some 0 := by
  simpa [isBalanced] using h

theorem bracketsFrom_wrapped {t : Text} (h : isBalanced t = true) :
    bracketsFrom 0 0 ('(' :: t ++ [')']) =
      ⟨0, 1⟩ :: (bracketsFrom 1 1 t ++ [⟨1 + Text.bytes t, 1⟩]) := by
  have hd := depthAfter_succ (depthAfter_of_isBalanced h)
  simp only [List.cons_append, bracketsFrom, if_true, Nat.zero_add]
  rw [show Char.utf8Size '(' = 1 from rfl, bracketsFrom_append_of_depthAfter _ hd]
  rfl

theorem atDepth_one_wrapped {t : Text} (h : isBalanced t = true) :
    atDepth 1 (bracketsFrom 0 0 ('(' :: t ++ [')'])) = [⟨0, 1⟩, ⟨1 + Text.bytes t, 1⟩] := by
  -- inside the added pair everything lies deeper than 1
  have hnone : (bracketsFrom 1 1 t).filter (fun b => b.depth = 1) = [] := by
    rw [List.filter_eq_nil_iff]
    intro b hb
    have := lt_depth_of_depthAfter (k := 1) (depthAfter_of_isBalanced h) hb
    simp only [decide_eq_true_eq]
    omega
  rw [bracketsFrom_wrapped h]
  simp [atDepth, List.filter_append, hnone]

theorem length_atDepth_two_wrapped {t : Text} (h : isBalanced t = true) :
    (atDepth 2 (bracketsFrom 0 0 ('(' :: t ++ [')']))).length =
      (atDepth 1 (bracketsFrom 0 0 t)).length := by
  rw [bracketsFrom_wrapped h,
    ← length_atDepth_succ 1 0 1 (depthAfter_of_isBalanced h)]
  simp [atDepth, List.filter_append]

/-- A term without a single outermost pair is balanced and has at least two of them. -/
theorem outline_eq_none {t : Text} (h : outline t = .ok none) :
    isBalanced t = true ∧ 4 ≤ (atDepth 1 (bracketsFrom 0 0 t)).length := by
  unfold outline at h
  cases hb : outerBrackets t with
  | error f => rw [hb] at h; cases h
  | ok brackets =>
    rw [hb] at h
    obtain ⟨hbal, rfl⟩ := outerBrackets_eq_ok hb
    simp only [bind, Except.bind, pure, Except.pure, throw, throwThe,
      MonadExceptOf.throw] at h
    rw [atDepth_filter_le (by decide)] at h
    split at h
    · next hgt =>
      -- more than two brackets of depth 1, and an even number of them
      have hpar := atDepth_parity 0 1 (depthAfter_of_isBalanced hbal)
      simp only [Nat.lt_one_iff, if_true] at hpar
      exact ⟨hbal, by omega⟩
    split at h
    · cases h
    · cases ht : BracketTree.ofBrackets ((bracketsFrom 0 0 t).filter fun b => b.depth ≤ 2) with
      | error f => rw [ht] at h; cases h
      | ok tree =>
        rw [ht] at h
        simp only at h
        split at h <;> cases h

/-- A balanced term in parentheses has a single outermost pair. -/
theorem outline_wrapped_ne_none {t : Text} (h : isBalanced t = true) :
    outline ('(' :: t ++ [')']) ≠ .ok none := by
  intro hnone
  have := (outline_eq_none hnone).2
  rw [atDepth_one_wrapped h] at this
  simp at this

end StageGraph
