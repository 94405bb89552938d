import Mathlib.Tactic
import StageGraph.Proofs.Plain.Resolution

set_option autoImplicit false

/-! # Neighbours at one depth belong together

Brackets are paired by taking neighbours of one depth (`pairUp`). Two other accounts of what belongs
together are given here: a reader with a stack, on which every closing parenthesis finds the last
one that was opened (`matchedFrom`), and the plain fact that what stands between the two is balanced
(`Matches`). In a balanced text all three come to the same pairs, in the order of the text.

The first two agree since at one depth there is never more than one parenthesis open
(`pairUp_waiting`). What the stack finds matches, since the text between what is on the stack is
balanced (`Opened`), and neighbours miss no pair, since an even number of brackets of its depth is
in front of it (`Matches.mem_pairUp`).
-/

namespace StageGraph

/-! ## Reading with a stack -/

/-- The pairs that a reader with a stack finds in a text that starts at offset `position`, each with
its depth. An opening parenthesis is put on the stack. A closing one takes the last one off it, and
the depth of this pair is how many were on the stack. What closes nothing is passed over. -/
def matchedFrom (position : Nat) (opened : List Nat) : Text → List (Nat × BracketPair)
  | [] => []
  | c :: rest =>
    if c = '(' then matchedFrom (position + c.utf8Size) (position :: opened) rest
    else if c = ')' then
      match opened with
      | [] => matchedFrom (position + c.utf8Size) [] rest
      | opening :: outer =>
        (outer.length + 1, ⟨opening, position⟩) :: matchedFrom (position + c.utf8Size) outer rest
    else matchedFrom (position + c.utf8Size) opened rest

theorem matchedFrom_cons (position : Nat) (opened : List Nat) (c : Char) (t : Text) :
    matchedFrom position opened (c :: t) =
      if c = '(' then matchedFrom (position + c.utf8Size) (position :: opened) t
      else if c = ')' then
        match opened with
        | [] => matchedFrom (position + c.utf8Size) [] t
        | opening :: outer =>
          (outer.length + 1, ⟨opening, position⟩) :: matchedFrom (position + c.utf8Size) outer t
      else matchedFrom (position + c.utf8Size) opened t := by
  cases opened <;> rfl

/-- The pairs of one depth, in the order in which they are closed. -/
def matchedPairs (depth : Nat) (t : Text) : List BracketPair :=
  ((matchedFrom 0 [] t).filter fun found => found.1 = depth).map Prod.snd

/-- The bracket of one depth among those on the stack. There is one at most. -/
def waiting (depth : Nat) : List Nat → List Bracket
  | [] => []
  | opening :: outer =>
    if outer.length + 1 = depth then [⟨opening, depth⟩] else waiting depth outer

theorem waiting_of_length_lt {depth : Nat} {opened : List Nat} (h : opened.length < depth) :
    waiting depth opened = [] := by
  induction opened with
  | nil => rfl
  | cons opening outer ih =>
    rw [List.length_cons] at h
    rw [waiting, if_neg (by omega), ih (by omega)]

theorem pairUp_waiting_nil (depth : Nat) (opened : List Nat) :
    pairUp (waiting depth opened) = [] := by
  induction opened with
  | nil => rfl
  | cons opening outer ih =>
    rw [waiting]
    split
    · rfl
    · exact ih

/-- Neighbours of one depth are what the stack brings together. The one that is still open at this
depth is the neighbour of the first one to come. -/
theorem pairUp_waiting (depth position : Nat) (opened : List Nat) {t : Text} {k : Nat}
    (h : depthAfter opened.length t = some k) :
    pairUp (waiting depth opened ++ atDepth depth (bracketsFrom position opened.length t)) =
      ((matchedFrom position opened t).filter fun found => found.1 = depth).map Prod.snd := by
  induction t generalizing position opened with
  | nil =>
    simp only [bracketsFrom, atDepth, List.filter_nil, List.append_nil, matchedFrom, List.map_nil]
    exact pairUp_waiting_nil depth opened
  | cons c t ih =>
    rw [depthAfter_cons] at h
    rw [bracketsFrom, matchedFrom_cons]
    by_cases hopen : c = '('
    · rw [if_pos hopen] at h ⊢
      rw [if_pos hopen, ← ih _ (position :: opened) h, waiting, atDepth, List.filter_cons]
      by_cases hdepth : opened.length + 1 = depth
      · rw [if_pos hdepth, waiting_of_length_lt (by omega)]
        simp [atDepth, hdepth]
      · rw [if_neg hdepth]
        simp [atDepth, hdepth]
    rw [if_neg hopen] at h ⊢
    rw [if_neg hopen]
    by_cases hclose : c = ')'
    · rw [if_pos hclose] at h ⊢
      rw [if_pos hclose]
      cases opened with
      | nil => cases h
      | cons opening outer =>
        have hrest := ih (position + c.utf8Size) outer h
        simp only [List.length_cons, Nat.add_sub_cancel, waiting, atDepth, List.filter_cons]
        by_cases hdepth : outer.length + 1 = depth
        · rw [waiting_of_length_lt (by omega)] at hrest
          simpa [hdepth, pairUp, atDepth] using hrest
        · simpa [hdepth, atDepth] using hrest
    · rw [if_neg hclose] at h ⊢
      rw [if_neg hclose]
      exact ih _ _ h

theorem pairUp_eq_matchedPairs (depth : Nat) {t : Text} (h : isBalanced t = true) :
    pairUp (atDepth depth (bracketsFrom 0 0 t)) = matchedPairs depth t :=
  pairUp_waiting depth 0 [] (depthAfter_of_isBalanced h)

example : matchedPairs 2 "(A(,)->((B)))".toList = [⟨2, 4⟩, ⟨7, 11⟩] := rfl

/-! ## What belongs together -/

/-- The two parentheses of the text belong together: what is between them is balanced. The depth of
the pair is how many parentheses are open in front of it, and one more. -/
inductive Matches : Text → Nat → BracketPair → Prop where
  | mk {before inner : Text} {outer : Nat} (houter : depthAfter 0 before = some outer)
      (hinner : isBalanced inner = true) (behind : Text) :
      Matches (before ++ '(' :: (inner ++ ')' :: behind)) (outer + 1)
        ⟨Text.bytes before, Text.bytes before + 1 + Text.bytes inner⟩

/-- The text leaves the parentheses at these offsets open, the last one first, and is balanced
around each of them. -/
inductive Opened : Text → List Nat → Prop where
  | none {t : Text} (h : isBalanced t = true) : Opened t []
  | one {before inner : Text} {opened : List Nat} (h : Opened before opened)
      (hinner : isBalanced inner = true) :
      Opened (before ++ '(' :: inner) (Text.bytes before :: opened)

theorem isBalanced_append {s t : Text} (hs : isBalanced s = true) (ht : isBalanced t = true) :
    isBalanced (s ++ t) = true := by
  rw [isBalanced_iff] at hs ht ⊢
  rw [depthAfter_append, hs]
  exact ht

namespace Opened

variable {s t : Text} {opened : List Nat}

theorem depthAfter_eq (h : Opened s opened) : depthAfter 0 s = some opened.length := by
  induction h with
  | none h => exact depthAfter_of_isBalanced h
  | one _ hinner ih =>
    rw [depthAfter_append, ih, Option.bind_some, depthAfter_cons, if_pos rfl,
      depthAfter_of_isBalanced' hinner, List.length_cons]

theorem append (h : Opened s opened) (ht : isBalanced t = true) : Opened (s ++ t) opened := by
  cases h with
  | none h => exact .none (isBalanced_append h ht)
  | one h hinner =>
    rw [List.append_assoc, List.cons_append]
    exact .one h (isBalanced_append hinner ht)

theorem opening (h : Opened s opened) : Opened (s ++ ['(']) (Text.bytes s :: opened) :=
  .one h rfl

theorem closing {offset : Nat} (h : Opened s (offset :: opened)) : Opened (s ++ [')']) opened := by
  cases h with
  | @one before inner _ h hinner =>
    have hpair : before ++ '(' :: inner ++ [')'] = before ++ SpanStore.wrapped inner := by
      simp [SpanStore.wrapped]
    rw [hpair]
    exact h.append (isBalanced_wrapped hinner)

theorem other (h : Opened s opened) {c : Char} (hopen : c ≠ '(') (hclose : c ≠ ')') :
    Opened (s ++ [c]) opened := by
  refine h.append ?_
  rw [isBalanced_iff, depthAfter_cons, if_neg hopen, if_neg hclose]
  rfl

end Opened

theorem bytes_append_singleton {c : Char} (hc : c.utf8Size = 1) (s : Text) :
    Text.bytes (s ++ [c]) = Text.bytes s + 1 := by
  rw [Text.bytes_append, Text.bytes_cons, Text.bytes_nil, hc]

/-- What the stack finds belongs together. -/
theorem matches_of_mem_matchedFrom {s t : Text} {opened : List Nat} {k depth : Nat}
    {pair : BracketPair} (hs : Opened s opened) (ht : depthAfter opened.length t = some k)
    (h : (depth, pair) ∈ matchedFrom (Text.bytes s) opened t) : Matches (s ++ t) depth pair := by
  induction t generalizing s opened with
  | nil => cases h
  | cons c t ih =>
    rw [depthAfter_cons] at ht
    rw [matchedFrom_cons] at h
    rw [List.append_cons]
    by_cases hopen : c = '('
    · subst hopen
      rw [if_pos rfl] at ht h
      refine ih hs.opening ht ?_
      rwa [bytes_append_singleton rfl]
    rw [if_neg hopen] at ht h
    by_cases hclose : c = ')'
    · subst hclose
      rw [if_pos rfl] at ht h
      cases opened with
      | nil => cases ht
      | cons offset outer =>
        rcases List.mem_cons.1 h with h | h
        · cases h
          cases hs with
          | @one before inner _ hbefore hinner =>
            have hmatch := Matches.mk hbefore.depthAfter_eq hinner t
            simpa [Nat.add_assoc, show Char.utf8Size '(' = 1 from rfl] using hmatch
        · refine ih hs.closing ht ?_
          rwa [bytes_append_singleton rfl]
    · rw [if_neg hclose] at ht h
      refine ih (hs.other hopen hclose) ht ?_
      rwa [Text.bytes_append, Text.bytes_cons, Text.bytes_nil]

theorem pairUp_append {xs : List Bracket} (h : xs.length % 2 = 0) (ys : List Bracket) :
    pairUp (xs ++ ys) = pairUp xs ++ pairUp ys := by
  fun_induction pairUp xs with
  | case1 a b rest ih =>
    simp only [List.length_cons] at h
    rw [List.cons_append, List.cons_append, pairUp, ih (by omega)]
    rfl
  | case2 l hl =>
    rcases l with _ | ⟨a, _ | ⟨b, rest⟩⟩
    · rfl
    · cases h
    · exact absurd rfl (hl a b rest)

/-- What belongs together is found among the neighbours of its depth: there is nothing of this depth
between the two, and an even number in front of them. -/
theorem Matches.mem_pairUp {t : Text} {depth : Nat} {pair : BracketPair}
    (h : Matches t depth pair) : pair ∈ pairUp (atDepth depth (bracketsFrom 0 0 t)) := by
  cases h with
  | @mk before inner outer houter hinner behind =>
    have heven : (atDepth (outer + 1) (bracketsFrom 0 0 before)).length % 2 = 0 := by
      have hparity := atDepth_parity 0 (outer + 1) houter
      rw [if_pos (by omega), if_pos (by omega)] at hparity
      omega
    rw [bracketsFrom_append_of_depthAfter _ houter, Nat.zero_add, bracketsFrom, if_pos rfl,
      bracketsFrom_append_of_depthAfter _ (depthAfter_of_isBalanced' hinner (outer + 1)),
      bracketsFrom, if_neg (by decide), if_pos rfl]
    have hbetween := atDepth_bracketsFrom_of_isBalanced hinner
      (Text.bytes before + Char.utf8Size '(') (outer + 1)
    simp only [atDepth, List.filter_append, List.filter_cons, decide_true, if_true]
      at heven hbetween ⊢
    rw [hbetween, List.nil_append, pairUp_append heven]
    exact List.mem_append_right _ List.mem_cons_self

theorem mem_matchedPairs_iff {t : Text} (h : isBalanced t = true) {depth : Nat}
    {pair : BracketPair} : pair ∈ matchedPairs depth t ↔ Matches t depth pair := by
  constructor
  · intro hmem
    obtain ⟨⟨d, p⟩, hkept, rfl⟩ := List.mem_map.1 hmem
    obtain ⟨hfound, hdepth⟩ := List.mem_filter.1 hkept
    obtain rfl : d = depth := of_decide_eq_true hdepth
    exact matches_of_mem_matchedFrom (s := []) (.none rfl) (depthAfter_of_isBalanced h) hfound
  · intro hmatch
    rw [← pairUp_eq_matchedPairs depth h]
    exact hmatch.mem_pairUp

/-! ## The order of the pairs -/

/-- The ends of the pairs rise strictly along the text. -/
theorem ascending_pairUp {brackets : List Bracket}
    (h : brackets.Pairwise fun a b => a.position < b.position) :
    ((pairUp brackets).flatMap fun pair => [pair.opening, pair.closing]).Pairwise (· < ·) :=
  List.Pairwise.sublist (pairUp_ends_sublist brackets) (List.pairwise_map.2 h)

theorem ascending_matchedPairs (depth : Nat) {t : Text} (h : isBalanced t = true) :
    ((matchedPairs depth t).flatMap fun pair => [pair.opening, pair.closing]).Pairwise (· < ·) := by
  rw [← pairUp_eq_matchedPairs depth h]
  exact ascending_pairUp ((bracketsFrom_ascending 0 0 t).filter _)

/-- A pair is closed before the next one of its depth is opened. -/
theorem matchedPairs_in_order (depth : Nat) {t : Text} (h : isBalanced t = true) :
    (matchedPairs depth t).Pairwise fun p q => p.closing < q.opening := by
  refine (List.pairwise_flatMap.1 (ascending_matchedPairs depth h)).2.imp ?_
  intro p q hpq
  exact hpq p.closing (by simp) q.opening (by simp)

theorem nodup_matchedPairs (depth : Nat) {t : Text} (h : isBalanced t = true) :
    (matchedPairs depth t).Nodup := by
  have hends := ascending_matchedPairs depth h
  refine ((matchedPairs_in_order depth h).imp_of_mem ?_)
  rintro p _ hp - hlt rfl
  have hpair := (List.pairwise_flatMap.1 hends).1 p hp
  have hself : p.opening < p.closing := by simpa using hpair
  omega

/-! ## The tree of the outermost pair -/

theorem Matches.opening_lt {t : Text} {depth : Nat} {pair : BracketPair}
    (h : Matches t depth pair) : pair.opening < pair.closing := by
  cases h
  simp only
  omega

/-- What a text leaves open, if it closes nothing that it has not opened. -/
theorem exists_opened {t : Text} {k : Nat} (h : depthAfter 0 t = some k) :
    ∃ opened, Opened t opened ∧ opened.length = k := by
  induction t using List.reverseRecOn generalizing k with
  | nil =>
    cases h
    exact ⟨[], .none rfl, rfl⟩
  | append_singleton s c ih =>
    rw [depthAfter_append] at h
    obtain ⟨d, hd, hc⟩ := Option.bind_eq_some_iff.1 h
    obtain ⟨opened, hs, rfl⟩ := ih hd
    rw [depthAfter_cons] at hc
    by_cases hopen : c = '('
    · rw [if_pos hopen] at hc
      cases hc
      rw [hopen]
      exact ⟨_, hs.opening, rfl⟩
    rw [if_neg hopen] at hc
    by_cases hclose : c = ')'
    · rw [if_pos hclose] at hc
      cases opened with
      | nil => cases hc
      | cons offset outer =>
        cases hc
        rw [hclose]
        exact ⟨outer, hs.closing, rfl⟩
    · rw [if_neg hclose] at hc
      cases hc
      exact ⟨opened, hs.other hopen hclose, rfl⟩

/-- A pair of depth 2 lies strictly within a pair of depth 1. -/
theorem Matches.exists_outer {t : Text} {pair : BracketPair} (hbal : isBalanced t = true)
    (h : Matches t 2 pair) : ∃ outer, Matches t 1 outer ∧ outer.opening < pair.opening ∧
      pair.closing < outer.closing := by
  cases h with
  | @mk before inner _ houter hinner behind =>
    obtain ⟨opened, hopened, hlength⟩ := exists_opened houter
    cases hopened with
    | none => cases hlength
    | @one front left opened hfront hleft =>
      obtain rfl : opened = [] := List.length_eq_zero_iff.1 (Nat.succ.inj hlength)
      -- behind the pair the outer one is closed
      have hbehind : depthAfter 1 behind = some 0 := by
        have hdepth := depthAfter_of_isBalanced hbal
        have hpair := depthAfter_pair hinner 1 behind
        rw [depthAfter_append, houter, Option.bind_some] at hdepth
        rw [← hdepth, ← hpair, List.cons_append]
      obtain ⟨right, rest, rfl, hright, -⟩ := exists_closing hbehind
      have hinside : isBalanced (left ++ (SpanStore.wrapped inner ++ right)) = true :=
        isBalanced_append hleft
          (isBalanced_append (isBalanced_wrapped hinner) (isBalanced_iff.2 hright))
      have htext : front ++ '(' :: left ++ '(' :: (inner ++ ')' :: (right ++ ')' :: rest)) =
          front ++ '(' :: (left ++ (SpanStore.wrapped inner ++ right) ++ ')' :: rest) := by
        simp [SpanStore.wrapped]
      rw [htext]
      refine ⟨_, .mk hfront.depthAfter_eq hinside rest, ?_, ?_⟩
      · simp only [Text.bytes_append, Text.bytes_cons, show Char.utf8Size '(' = 1 from rfl]
        omega
      · simp only [Text.bytes_append, Text.bytes_cons, bytes_wrapped,
          show Char.utf8Size '(' = 1 from rfl]
        omega

/-- The tree of a balanced text: its root is the only pair of depth 1, and its children are the
pairs of depth 2. -/
theorem ofBrackets_eq_ok_iff {t : Text} (h : isBalanced t = true) {brackets : List Bracket}
    (hbrackets : outerBrackets t = .ok brackets) {tree : BracketTree} :
    BracketTree.ofBrackets brackets = .ok tree ↔
      matchedPairs 1 t = [tree.root] ∧ matchedPairs 2 t = tree.children := by
  obtain ⟨-, rfl⟩ := outerBrackets_eq_ok hbrackets
  rw [BracketTree.ofBrackets, atDepth_filter_le (by decide), atDepth_filter_le (by decide),
    pairUp_eq_matchedPairs 1 h, pairUp_eq_matchedPairs 2 h]
  split
  · next root hroot =>
    rw [hroot]
    constructor
    · intro htree
      cases htree
      exact ⟨rfl, rfl⟩
    · rintro ⟨htree, hchildren⟩
      cases htree
      rw [hchildren]
  · next hmany =>
    constructor
    · intro htree
      cases htree
    · rintro ⟨hroot, -⟩
      exact absurd hroot (hmany _)

theorem exists_tree_iff {t : Text} (h : isBalanced t = true) {brackets : List Bracket}
    (hbrackets : outerBrackets t = .ok brackets) :
    (∃ tree, BracketTree.ofBrackets brackets = .ok tree) ↔ ∃! pair, Matches t 1 pair := by
  simp only [ofBrackets_eq_ok_iff h hbrackets, ← mem_matchedPairs_iff h]
  constructor
  · rintro ⟨tree, hroot, -⟩
    rw [hroot]
    exact ⟨tree.root, List.mem_singleton_self _, fun _ => List.mem_singleton.1⟩
  · rintro ⟨root, hroot, hunique⟩
    refine ⟨⟨root, matchedPairs 2 t⟩, ?_, rfl⟩
    refine List.perm_singleton.1 ((List.perm_ext_iff_of_nodup (nodup_matchedPairs 1 h)
      (List.nodup_singleton _)).2 fun pair => ?_)
    rw [List.mem_singleton]
    exact ⟨hunique pair, fun hpair => hpair ▸ hroot⟩

/-- What is known of the tree of a text: root and children are the pairs of the two depths, each
child lies strictly within the root, and the boundaries rise strictly. -/
structure TreeFacts (t : Text) (tree : BracketTree) : Prop where
  root : Matches t 1 tree.root
  children : tree.children = matchedPairs 2 t
  within : ∀ child ∈ tree.children, tree.root.opening < child.opening ∧
    child.opening < child.closing ∧ child.closing < tree.root.closing
  ascending : tree.boundaries.Pairwise (· < ·)

theorem treeFacts {t : Text} (h : isBalanced t = true) {brackets : List Bracket}
    (hbrackets : outerBrackets t = .ok brackets) {tree : BracketTree}
    (htree : BracketTree.ofBrackets brackets = .ok tree) : TreeFacts t tree := by
  obtain ⟨hroot, hchildren⟩ := (ofBrackets_eq_ok_iff h hbrackets).1 htree
  have hroots : ∀ {pair}, Matches t 1 pair ↔ pair = tree.root := by
    intro pair
    rw [← mem_matchedPairs_iff h, hroot, List.mem_singleton]
  have hwithin : ∀ child ∈ tree.children, tree.root.opening < child.opening ∧
      child.opening < child.closing ∧ child.closing < tree.root.closing := by
    intro child hchild
    rw [← hchildren, mem_matchedPairs_iff h] at hchild
    obtain ⟨outer, houter, hopening, hclosing⟩ := hchild.exists_outer h
    rw [hroots.1 houter] at hopening hclosing
    exact ⟨hopening, hchild.opening_lt, hclosing⟩
  have hends : ∀ p ∈ tree.children.flatMap fun pair => [pair.opening, pair.closing],
      tree.root.opening < p ∧ p < tree.root.closing := by
    intro p hp
    obtain ⟨child, hchild, hp⟩ := List.mem_flatMap.1 hp
    have := hwithin child hchild
    rcases List.mem_pair.1 hp with rfl | rfl <;> omega
  refine ⟨hroots.2 rfl, hchildren.symm, hwithin, ?_⟩
  -- the root opens before all else, the children rise, and the root closes after all else
  rw [BracketTree.boundaries, List.cons_append]
  refine List.Pairwise.cons ?_ (List.pairwise_append.2 ⟨?_, List.pairwise_singleton _ _, ?_⟩)
  · intro p hp
    rcases List.mem_append.1 hp with hp | hp
    · exact (hends p hp).1
    · rw [List.mem_singleton.1 hp]
      exact (hroots.2 rfl).opening_lt
  · rw [← hchildren]
    exact ascending_matchedPairs 2 h
  · intro p hp q hq
    rw [List.mem_singleton.1 hq]
    exact (hends p hp).2

/-- What pairing the brackets of one depth comes to: the pairs of a reader with a stack, which are
those that belong together, in the order of the text. -/
structure Pairing (t : Text) (depth : Nat) (pairs : List BracketPair) : Prop where
  stack : pairs = matchedPairs depth t
  mem_iff : ∀ pair, pair ∈ pairs ↔ Matches t depth pair
  in_order : pairs.Pairwise fun p q => p.closing < q.opening

/-- In a balanced text, neighbours of depth 1 and of depth 2 are the pairs that belong together.
There is a tree exactly if there is one outermost pair, and then its children lie strictly within
its root and its boundaries rise strictly. -/
theorem outerBrackets_pairing {t : Text} (h : isBalanced t = true) :
    ∃ brackets, outerBrackets t = .ok brackets ∧
      Pairing t 1 (pairUp (atDepth 1 brackets)) ∧ Pairing t 2 (pairUp (atDepth 2 brackets)) ∧
      ((∃ tree, BracketTree.ofBrackets brackets = .ok tree) ↔ ∃! pair, Matches t 1 pair) ∧
      ∀ tree, BracketTree.ofBrackets brackets = .ok tree → TreeFacts t tree := by
  have hbrackets : outerBrackets t = .ok ((bracketsFrom 0 0 t).filter fun b => b.depth ≤ 2) :=
    if_pos h
  have hpairing : ∀ depth ≤ 2, Pairing t depth
      (pairUp (atDepth depth ((bracketsFrom 0 0 t).filter fun b => b.depth ≤ 2))) := by
    intro depth hdepth
    rw [atDepth_filter_le hdepth, pairUp_eq_matchedPairs depth h]
    exact ⟨rfl, fun _ => mem_matchedPairs_iff h, matchedPairs_in_order depth h⟩
  exact ⟨_, hbrackets, hpairing 1 (by decide), hpairing 2 (by decide), exists_tree_iff h hbrackets,
    fun _ => treeFacts h hbrackets⟩

/-- In a text that begins with a character of two bytes, the one outermost pair is the root. -/
theorem outerBrackets_pairing_accent : isBalanced "é(A(,)->(B))".toList = true ∧
    ∃ brackets, outerBrackets "é(A(,)->(B))".toList = .ok brackets ∧
      BracketTree.ofBrackets brackets = .ok ⟨⟨2, 12⟩, [⟨4, 6⟩, ⟨9, 11⟩]⟩ ∧
      Pairing "é(A(,)->(B))".toList 2 [⟨4, 6⟩, ⟨9, 11⟩] ∧
      TreeFacts "é(A(,)->(B))".toList ⟨⟨2, 12⟩, [⟨4, 6⟩, ⟨9, 11⟩]⟩ := by
  have h : isBalanced "é(A(,)->(B))".toList = true := by decide
  obtain ⟨brackets, hbrackets, -, htwo, -, htree⟩ := outerBrackets_pairing h
  have hlist : outerBrackets "é(A(,)->(B))".toList =
      .ok [⟨2, 1⟩, ⟨4, 2⟩, ⟨6, 2⟩, ⟨9, 2⟩, ⟨11, 2⟩, ⟨12, 1⟩] := rfl
  cases hbrackets.symm.trans hlist
  exact ⟨h, _, hlist, rfl, htwo, htree _ rfl⟩

end StageGraph
