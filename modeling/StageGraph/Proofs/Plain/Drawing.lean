import Mathlib.Data.List.Basic
import Mathlib.Tactic
import StageGraph.Plain.Expression
import StageGraph.Proofs.Plain.Agreement
import StageGraph.Proofs.Plain.Topology

set_option autoImplicit false

/-! # Whole expressions

From the walk over one topology to that over all of them, by induction on the topologies:

* topologies that are phrases are built unless the numbers do not suffice, and each of them puts
  the edges of the tree that it spells (`buildTopologies_of_spells`);
* topologies one of which is no phrase fail as malformed (`buildTopologies_cases`).

`buildPlain_of_spells` and `buildPlain_cases` say the same of an expression with its tokens. No
edge that is put on the way is a loop, whether or not the expression is built in the end
(`PlainPuts.not_loop`).
-/

namespace StageGraph

/-! ## Blank texts -/

theorem tokensOf_eq_nil_iff {t : Text} : tokensOf t = [] ↔ Text.trim t = [] := by
  constructor
  · intro h
    obtain ⟨hfirst, hrest⟩ := List.append_eq_nil_iff.1 h
    have hnil : (Marked.read (fun _ => true) t).rest = [] := by
      cases hcase : (Marked.read (fun _ => true) t).rest with
      | nil => rfl
      | cons piece rest =>
        rw [hcase] at hrest
        cases hrest
    have htext := Marked.text_read (fun _ => true) t
    rw [Marked.text, hnil, List.flatMap_nil, List.append_nil] at htext
    rw [htext] at hfirst
    by_contra hne
    rw [nameTokens_of_ne_nil hne] at hfirst
    cases hfirst
  · intro h
    rw [← tokensOf_trim, h]
    rfl

/-! ## One topology -/

section

variable {spans : SpanStore} {t : Text} {g : Graph}

theorem complete_eq_text {r : Row} (hsemi : ';' ∉ t) (hfits : Fits (tokensOf t) r) :
    complete t = r.text := by
  rw [complete_eq_completed hsemi, hfits.completed_eq]

theorem isBalanced_of_fits {r : Row} (hfits : Fits (tokensOf t) r) : isBalanced t = true := by
  have hdepth := hfits.depth 0 []
  rw [List.append_nil] at hdepth
  rw [isBalanced, depthAfter_eq_tokens, hdepth]
  rfl

theorem neat_text {r : Row} (hne : r ≠ .done []) : Piece.Neat ⟨.root, r.text⟩ :=
  ⟨fun h => hne (Row.text_eq_nil.1 h), r.trimmed_text⟩

/-- A topology that is a phrase is walked, and puts the edges of the tree that it spells, unless the
numbers do not suffice. -/
theorem walkTopology_of_spells {slack : Bool} (number : UInt32) {e : Tree Text}
    (hspans : spans.Sound) (hg : g.WellFormed) (hsemi : ';' ∉ t)
    (h : Spells slack .list (tokensOf t) e) :
    isBalanced t = true ∧
      ((∃ cause walk, walkTopology number (spans.add (complete t)).1 (spans.add (complete t)).2 g =
          .error (.malformed cause) walk ∧ ¬ Affords number e) ∨
        ∃ calls walk s, WalkCalls number [.stages [(spans.add (complete t)).1] .start .finish]
            ⟨⟨(spans.add (complete t)).2, .empty⟩, g⟩ calls walk ∧
          walk.walker.spans.Sound ∧ Affords number e ∧ Drawn number e s calls) := by
  obtain ⟨r, hfits, hne, hread⟩ := h.exists_row fun n hn => isName_of_mem_tokensOf hn
  refine ⟨isBalanced_of_fits hfits, ?_⟩
  obtain ⟨c, hc, rfl⟩ := hread.reads_term (p := ⟨.root, r.text⟩) rfl
  rw [complete_eq_text hsemi hfits]
  exact walkTopology_of_reads number hspans hg (neat_text hne) hc

theorem exists_row_of_isBalanced (hsemi : ';' ∉ t) (hbal : isBalanced t = true)
    (hne : Text.trim t ≠ []) : ∃ r, Fits (tokensOf t) r ∧ r ≠ .done [] := by
  have hdepth : depthTokens 0 (tokensOf t) = some 0 := by
    rwa [isBalanced, depthAfter_eq_tokens, beq_iff_eq] at hbal
  obtain ⟨r, hfits⟩ := exists_fits hdepth (not_mem_tokensOf hsemi)
  refine ⟨r, hfits, ?_⟩
  rintro rfl
  exact hne (tokensOf_eq_nil_iff.1 hfits.eq_of_done)

/-- The walk over a topology fails as malformed, or the topology is a phrase. -/
theorem walkTopology_phrase (number : UInt32) (hspans : spans.Sound) (hg : g.WellFormed)
    (hsemi : ';' ∉ t) (hbal : isBalanced t = true) (hne : Text.trim t ≠ []) :
    (∃ cause walk, walkTopology number (spans.add (complete t)).1 (spans.add (complete t)).2 g =
      .error (.malformed cause) walk) ∨
    ∃ walk, walkTopology number (spans.add (complete t)).1 (spans.add (complete t)).2 g =
        .ok () walk ∧
      walk.walker.spans.Sound ∧ walk.graph.WellFormed ∧ Phrase true false (tokensOf t) := by
  obtain ⟨r, hfits, hrow⟩ := exists_row_of_isBalanced hsemi hbal hne
  rw [complete_eq_text hsemi hfits]
  rcases walkTopology_cases number hspans hg (neat_text hrow) with
    herror | ⟨walk, c, hrun, hspans', hg', hc⟩
  · exact .inl herror
  · refine .inr ⟨walk, hrun, hspans', hg', ?_⟩
    have hread : ReadsAs [r.text] c.texts none := ⟨_, c, none, rfl, hc, rfl, rfl⟩
    exact hfits.phrase_of_readsAs (fun n hn => isName_of_mem_tokensOf hn) hrow hread

end

/-! ## Several topologies -/

/-- Building these topologies ends, and these edges are put on the way, in this order. -/
inductive BuildCalls :
    UInt32 → List Text → SpanStore → Graph → List (Node × Node) → Graph → Prop where
  | nil (number : UInt32) (spans : SpanStore) (g : Graph) : BuildCalls number [] spans g [] g
  | cons {number : UInt32} {t : Text} {ts : List Text} {spans : SpanStore} {g g' : Graph}
      {walk : Walk} {calls calls' : List (Node × Node)} (hbal : isBalanced t = true)
      (hwalk : WalkCalls number [.stages [(spans.add (complete t)).1] .start .finish]
        ⟨⟨(spans.add (complete t)).2, .empty⟩, g⟩ calls walk)
      (h : BuildCalls (number + 1) ts walk.walker.spans walk.graph calls' g') :
      BuildCalls number (t :: ts) spans g (calls ++ calls') g'

namespace BuildCalls

variable {number : UInt32} {ts : List Text} {spans : SpanStore} {g g' : Graph}
  {calls : List (Node × Node)}

theorem buildTopologies_eq (h : BuildCalls number ts spans g calls g') :
    buildTopologies number ts spans g = .ok () g' := by
  induction h with
  | nil => rfl
  | cons hbal hwalk h ih =>
    have hrun := hwalk.walkFrames_eq
    rw [buildTopologies, if_pos hbal]
    simp only [walkTopology, hrun, ih]

theorem putEdges_eq (h : BuildCalls number ts spans g calls g') :
    Graph.putEdges calls g = .ok () g' := by
  induction h with
  | nil => rfl
  | cons hbal hwalk h ih =>
    have hput := hwalk.putEdges_eq
    simp only at hput
    rw [Graph.putEdges_append, hput]
    exact ih

end BuildCalls

/-- The edges of topologies in the order in which they are put; the first topology has the number
`k + 1`. -/
structure DrawnAll (k : Nat) (es : List (Tree Text)) (ss : List (Tree Node))
    (calls : List (Node × Node)) : Prop where
  length_eq : ss.length = es.length
  numbers : ∀ i e (s : Tree Node), es[i]? = some e → ss[i]? = some s → s.Numbers (k + i + 1) e
  calls_eq : calls = ss.flatMap fun s => s.walk .finish none .start

namespace DrawnAll

variable {k : Nat} {es : List (Tree Text)} {ss : List (Tree Node)} {calls : List (Node × Node)}

theorem nil (k : Nat) : DrawnAll k [] [] [] where
  length_eq := rfl
  numbers i e s h := by cases h
  calls_eq := rfl

theorem cons {topology : UInt32} {e : Tree Text} {s : Tree Node} {calls' : List (Node × Node)}
    (htopology : topology.toNat = k + 1) (h : Drawn topology e s calls')
    (h' : DrawnAll (k + 1) es ss calls) :
    DrawnAll k (e :: es) (s :: ss) (calls' ++ calls) where
  length_eq := by rw [List.length_cons, List.length_cons, h'.length_eq]
  numbers i d w hd hw := by
    cases i with
    | zero =>
      cases hd
      cases hw
      rw [← htopology]
      exact h.numbers
    | succ i =>
      have := h'.numbers i d w hd hw
      rwa [show k + 1 + i + 1 = k + (i + 1) + 1 by omega] at this
  calls_eq := by rw [h.calls_eq, h'.calls_eq, List.flatMap_cons]

theorem writes (h : DrawnAll k es ss calls) (i : Nat) (e : Tree Text) (s : Tree Node)
    (he : es[i]? = some e) (hs : ss[i]? = some s) : s.Writes (k + i + 1) e :=
  (h.numbers i e s he hs).writes (Nat.succ_ne_zero _)

theorem joins (h : DrawnAll k es ss calls) (a b : Node) :
    (a, b) ∈ calls ↔ ∃ s ∈ ss, s.Joins .start .finish a b := by
  simp only [h.calls_eq, List.mem_flatMap, Tree.mem_walk, Tree.followedBy]

end DrawnAll

/-- There are numbers for topologies, the first of which has the number `k + 1`, and for all of
their stages: none of them comes round to 0. -/
structure Numerable (k : Nat) (es : List (Tree Text)) : Prop where
  length_lt : k + es.length < 2 ^ 32
  count_lt : ∀ e ∈ es, ∀ name, e.atoms.count name < 2 ^ 32

theorem toNat_ofNat_succ {k n : Nat} (h : k + (n + 1) < 2 ^ 32) :
    (UInt32.ofNat (k + 1)).toNat = k + 1 :=
  UInt32.toNat_ofNat_of_lt' (by rw [UInt32.size]; omega)

theorem ofNat_succ_ne_zero {k n : Nat} (h : k + (n + 1) < 2 ^ 32) : UInt32.ofNat (k + 1) ≠ 0 := by
  intro hzero
  have hnumber := toNat_ofNat_succ h
  rw [hzero] at hnumber
  cases hnumber

theorem Numerable.affords {k : Nat} {e : Tree Text} {es : List (Tree Text)}
    (h : Numerable k (e :: es)) : Affords (.ofNat (k + 1)) e where
  topology_ne_zero := ofNat_succ_ne_zero h.length_lt
  count_lt := h.count_lt e List.mem_cons_self

theorem numerable_cons_iff {k : Nat} {e : Tree Text} {es : List (Tree Text)} :
    Numerable k (e :: es) ↔ (∀ name, e.atoms.count name < 2 ^ 32) ∧ Numerable (k + 1) es := by
  have hlength : k + (e :: es).length = k + 1 + es.length := by rw [List.length_cons]; omega
  constructor
  · intro h
    exact ⟨h.count_lt e List.mem_cons_self, hlength ▸ h.length_lt,
      fun d hd => h.count_lt d (List.mem_cons_of_mem _ hd)⟩
  · rintro ⟨hcount, h⟩
    exact ⟨hlength ▸ h.length_lt, List.forall_mem_cons.2 ⟨hcount, h.count_lt⟩⟩

/-- Topologies that are phrases are built, and put the edges of the trees that they spell, unless
the numbers do not suffice. -/
theorem buildTopologies_of_spells {slack : Bool} {ts : List Text} {es : List (Tree Text)}
    (h : List.Forall₂ (fun t e => Spells slack .list (tokensOf t) e) ts es)
    (hsemi : ∀ t ∈ ts, ';' ∉ t) {k : Nat} (hk : k < 2 ^ 32) {spans : SpanStore} {g : Graph}
    (hspans : spans.Sound) (hg : g.WellFormed) :
    (∃ cause g', buildTopologies (.ofNat (k + 1)) ts spans g = .error (.malformed cause) g' ∧
      ¬ Numerable k es) ∨
    ∃ calls g' ss, BuildCalls (.ofNat (k + 1)) ts spans g calls g' ∧ Numerable k es ∧
      DrawnAll k es ss calls := by
  induction h generalizing k spans g with
  | nil => exact .inr ⟨[], g, [], .nil _ _ _, ⟨hk, fun e he => absurd he List.not_mem_nil⟩, .nil k⟩
  | @cons t e ts es he h ih =>
    rw [List.forall_mem_cons] at hsemi
    obtain ⟨hbal, hcases⟩ := walkTopology_of_spells (.ofNat (k + 1)) hspans hg hsemi.1 he
    rcases hcases with ⟨cause, walk, hrun, hno⟩ | ⟨calls, walk, s, hwalk, hspans', hfits, hdrawn⟩
    · refine .inl ⟨.inTopology (.ofNat (k + 1)) cause, walk.graph, ?_, fun hall => hno hall.affords⟩
      rw [buildTopologies, if_pos hbal]
      simp only [hrun]
      rfl
    -- the number has not come round to 0, so there is one more
    · have hk' : k + 1 < 2 ^ 32 := by
        refine Nat.lt_of_le_of_ne hk fun heq => hfits.topology_ne_zero ?_
        rw [heq]
        rfl
      have hnumber := toNat_ofNat_succ (n := 0) hk'
      have hg' := (Graph.grown_of_putEdges hg hwalk.putEdges_eq).wellFormed
      have hnext : UInt32.ofNat (k + 1) + 1 = .ofNat (k + 1 + 1) :=
        (UInt32.ofNat_add (k + 1) 1).symm
      rcases ih hsemi.2 hk' hspans' hg' with
        ⟨cause, g', hbuild, hno⟩ | ⟨calls', g', ss, hbuild, hall, hdrawn'⟩
      · refine .inl ⟨cause, g', ?_, fun hall => hno (numerable_cons_iff.1 hall).2⟩
        have hrun := hwalk.walkFrames_eq
        rw [buildTopologies, if_pos hbal]
        simp only [walkTopology, hrun, hnext, hbuild]
      · rw [← hnext] at hbuild
        exact .inr ⟨_, g', s :: ss, .cons hbal hwalk hbuild,
          numerable_cons_iff.2 ⟨hfits.count_lt, hall⟩, hdrawn'.cons hnumber hdrawn⟩

/-- Topologies fail as malformed, or all of them are phrases. -/
theorem buildTopologies_cases (number : UInt32) {ts : List Text} (hsemi : ∀ t ∈ ts, ';' ∉ t)
    (hne : ∀ t ∈ ts, Text.trim t ≠ []) {spans : SpanStore} {g : Graph} (hspans : spans.Sound)
    (hg : g.WellFormed) :
    (∃ cause g', buildTopologies number ts spans g = .error (.malformed cause) g') ∨
      ∀ t ∈ ts, Phrase true false (tokensOf t) := by
  induction ts generalizing number spans g with
  | nil => exact .inr fun t ht => absurd ht List.not_mem_nil
  | cons t ts ih =>
    rw [List.forall_mem_cons] at hsemi hne
    by_cases hbal : isBalanced t = true
    · rw [buildTopologies, if_pos hbal]
      rcases walkTopology_phrase number hspans hg hsemi.1 hbal hne.1 with
        ⟨cause, walk, hrun⟩ | ⟨walk, hrun, hspans', hg', hphrase⟩
      · simp only [hrun]
        exact .inl ⟨_, _, rfl⟩
      · simp only [hrun]
        rcases ih (number + 1) hsemi.2 hne.2 hspans' hg' with hmalformed | hphrases
        · exact .inl hmalformed
        · exact .inr (List.forall_mem_cons.2 ⟨hphrase, hphrases⟩)
    · rw [buildTopologies, if_neg hbal]
      exact .inl ⟨_, _, rfl⟩

/-- Building these topologies puts an edge from `a` to `b`, however it ends. -/
inductive BuildPuts : UInt32 → List Text → SpanStore → Graph → Node → Node → Prop where
  | now {number : UInt32} {t : Text} {ts : List Text} {spans : SpanStore} {g : Graph} {a b : Node}
      (hbal : isBalanced t = true)
      (h : WalkPuts number [.stages [(spans.add (complete t)).1] .start .finish]
        ⟨⟨(spans.add (complete t)).2, .empty⟩, g⟩ a b) :
      BuildPuts number (t :: ts) spans g a b
  | later {number : UInt32} {t : Text} {ts : List Text} {spans : SpanStore} {g : Graph}
      {walk : Walk} {a b : Node} (hbal : isBalanced t = true)
      (hrun : walkTopology number (spans.add (complete t)).1 (spans.add (complete t)).2 g =
        .ok () walk)
      (h : BuildPuts (number + 1) ts walk.walker.spans walk.graph a b) :
      BuildPuts number (t :: ts) spans g a b

theorem BuildPuts.ne {number : UInt32} {ts : List Text} {spans : SpanStore} {g : Graph}
    {a b : Node} (h : BuildPuts number ts spans g a b) (hsemi : ∀ t ∈ ts, ';' ∉ t)
    (hne : ∀ t ∈ ts, Text.trim t ≠ []) (hspans : spans.Sound) (hg : g.WellFormed) : a ≠ b := by
  induction h with
  | now hbal h =>
    rw [List.forall_mem_cons] at hsemi hne
    obtain ⟨r, hfits, hrow⟩ := exists_row_of_isBalanced hsemi.1 hbal hne.1
    rw [complete_eq_text hsemi.1 hfits] at h
    exact h.ne (poised_root hspans (neat_text hrow))
  | @later number _ _ _ _ _ _ _ hbal hrun h ih =>
    rw [List.forall_mem_cons] at hsemi hne
    rcases walkTopology_phrase number hspans hg hsemi.1 hbal hne.1 with
      ⟨cause, walk, hrun'⟩ | ⟨walk, hrun', hspans', hg', -⟩
    · rw [hrun] at hrun'
      cases hrun'
    · rw [hrun] at hrun'
      cases hrun'
      exact ih hsemi.2 hne.2 hspans' hg'

/-- Topologies that are built have added the edges that they put, and no others. -/
theorem adjacent_iff_of_buildTopologies {number : UInt32} {ts : List Text} {spans : SpanStore}
    {g g' : Graph} (hg : g.WellFormed) (hbuild : buildTopologies number ts spans g = .ok () g')
    (a b : Node) : g'.Adjacent a b ↔ g.Adjacent a b ∨ BuildPuts number ts spans g a b := by
  induction ts generalizing number spans g with
  | nil =>
    cases hbuild
    refine (or_iff_left ?_).symm
    rintro ⟨⟩
  | cons t ts ih =>
    rw [buildTopologies] at hbuild
    by_cases hbal : isBalanced t = true
    · rw [if_pos hbal] at hbuild
      cases hrun : walkTopology number (spans.add (complete t)).1 (spans.add (complete t)).2 g with
      | error failure walk =>
        simp only [hrun] at hbuild
        cases hbuild
      | ok u walk =>
        simp only [hrun] at hbuild
        obtain ⟨hg', hadj⟩ := adjacent_iff_of_walkFrames hg hrun
        rw [ih hg' hbuild, hadj, or_assoc]
        refine or_congr_right ⟨?_, ?_⟩
        · rintro (h | h)
          · exact .now hbal h
          · exact .later hbal hrun h
        · intro h
          cases h with
          | now _ h => exact .inl h
          | later _ hrun' h =>
            cases hrun.symm.trans hrun'
            exact .inr h
    · rw [if_neg hbal] at hbuild
      cases hbuild

/-! ## Sections of an expression -/

/-- The texts between the semicolons. -/
def sections (t : Text) : List Text := (Marked.read (· == .semicolon) t).texts

section

variable {t : Text}

theorem sum_bytes_sections_le (t : Text) : ((sections t).map Text.bytes).sum ≤ Text.bytes t := by
  have hrest : ∀ rest : List (Mark × Text), ((rest.map Prod.snd).map Text.bytes).sum ≤
      Text.bytes (rest.flatMap fun piece => piece.1.text ++ piece.2) := by
    intro rest
    induction rest with
    | nil => exact Nat.le_refl _
    | cons piece rest ih =>
      simp only [List.map_cons, List.sum_cons, List.flatMap_cons, Text.bytes_append]
      omega
  calc ((sections t).map Text.bytes).sum
      ≤ Text.bytes (Marked.read (· == .semicolon) t).text := by
        have := hrest (Marked.read (· == .semicolon) t).rest
        simp only [sections, Marked.texts, Marked.text, List.map_cons, List.sum_cons,
          Text.bytes_append]
        omega
    _ = Text.bytes t := by rw [Marked.text_read]

theorem bytes_section_le {p : Text} (hp : p ∈ sections t) : Text.bytes p ≤ Text.bytes t :=
  calc Text.bytes p ≤ ((sections t).map Text.bytes).sum :=
        List.le_sum_of_mem (List.mem_map_of_mem hp)
    _ ≤ Text.bytes t := sum_bytes_sections_le t

/-- An expression has no more sections than bytes if none of them is blank. -/
theorem length_sections_le (hne : ∀ p ∈ sections t, Text.trim p ≠ []) :
    (sections t).length ≤ Text.bytes t := by
  have hpos : ∀ n ∈ (sections t).map Text.bytes, 1 ≤ n := by
    intro n hn
    obtain ⟨p, hp, rfl⟩ := List.mem_map.1 hn
    refine Text.bytes_pos_of_ne_nil ?_
    rintro rfl
    exact hne [] hp rfl
  calc (sections t).length = ((sections t).map Text.bytes).length := (List.length_map _).symm
    _ ≤ ((sections t).map Text.bytes).sum := List.length_le_sum_of_one_le _ hpos
    _ ≤ Text.bytes t := sum_bytes_sections_le t

theorem not_mem_section {p : Text} (hp : p ∈ sections t) : ';' ∉ p := Marked.not_mem_of_mem_texts hp

/-- The tokens are joined from sections in one way. -/
theorem sections_unique {tss : List (List Token)} (hne : tss ≠ [])
    (hsemi : ∀ ts ∈ tss, Token.mark .semicolon ∉ ts) (h : tokensOf t = joinSections tss) :
    tss = (sections t).map tokensOf := by
  refine joinSections_inj hne (List.cons_ne_nil _ _) hsemi ?_ ?_
  · intro us hus
    obtain ⟨p, hp, rfl⟩ := List.mem_map.1 hus
    exact not_mem_tokensOf (not_mem_section hp)
  · rw [← h, tokensOf_eq_joinSections, sections]

theorem spellsAll_tokensOf_iff {slack : Bool} {es : List (Tree Text)} :
    SpellsAll slack (tokensOf t) es ↔
      List.Forall₂ (fun p e => Spells slack .list (tokensOf p) e) (sections t) es := by
  rw [← List.forall₂_map_left_iff (f := tokensOf)]
  constructor
  · rintro ⟨tss, hne, htokens, hspells⟩
    have hsemi := ((List.forall₂_and_left (p := fun ts => Token.mark .semicolon ∉ ts) tss es).1
      (hspells.imp fun _ _ h => ⟨h.not_mem, h⟩)).1
    rwa [← sections_unique hne hsemi htokens]
  · intro h
    exact ⟨_, List.cons_ne_nil _ _, tokensOf_eq_joinSections t, h⟩

theorem grammatical_tokensOf_iff {slack : Bool} :
    Grammatical slack (tokensOf t) ↔ ∀ p ∈ sections t, Phrase slack false (tokensOf p) := by
  constructor
  · rintro ⟨tss, hne, htokens, hphrases⟩ p hp
    obtain rfl := sections_unique hne (fun us hus => (hphrases us hus).not_mem) htokens
    exact hphrases _ (List.mem_map_of_mem hp)
  · intro h
    refine ⟨(sections t).map tokensOf, List.cons_ne_nil _ _, tokensOf_eq_joinSections t,
      fun us hus => ?_⟩
    obtain ⟨p, hp, rfl⟩ := List.mem_map.1 hus
    exact h p hp

theorem trimTopologies_cases (expression : Text) (position : Nat) (ts : List Text) :
    (∃ cause, trimTopologies expression position ts = .error (.malformed cause)) ∨
      trimTopologies expression position ts = .ok (ts.map Text.trim) := by
  induction ts generalizing position with
  | nil => exact .inr rfl
  | cons t ts ih =>
    rw [trimTopologies]
    by_cases hblank : Text.trim t = []
    · rw [if_pos hblank]
      exact .inl ⟨_, rfl⟩
    · rw [if_neg hblank]
      rcases ih (position + 1) with ⟨cause, h⟩ | h
      · exact .inl ⟨cause, by rw [h]; rfl⟩
      · exact .inr (by rw [h]; rfl)

theorem trimTopologies_eq_ok_iff (expression : Text) (position : Nat) {ts : List Text} :
    trimTopologies expression position ts = .ok (ts.map Text.trim) ↔
      ∀ t ∈ ts, Text.trim t ≠ [] := by
  induction ts generalizing position with
  | nil => simp [trimTopologies]
  | cons t ts ih =>
    rw [trimTopologies, List.forall_mem_cons]
    by_cases hblank : Text.trim t = []
    · simp [hblank]
    · rw [if_neg hblank, ← ih (position + 1)]
      rcases trimTopologies_cases expression (position + 1) ts with ⟨cause, h⟩ | h
      · simp [h, Except.map]
      · simp [h, Except.map, hblank]

theorem depthTokens_joinSections {tss : List (List Token)} (h : ∀ ts ∈ tss, ∃ r, Fits ts r)
    (depth : Nat) : depthTokens depth (joinSections tss) = some depth := by
  have hrest : ∀ uss : List (List Token), (∀ us ∈ uss, ∃ r, Fits us r) →
      depthTokens depth (uss.flatMap fun us => .mark .semicolon :: us) = some depth := by
    intro uss huss
    induction uss with
    | nil => cases depth <;> rfl
    | cons us uss ih =>
      rw [List.forall_mem_cons] at huss
      obtain ⟨⟨r, hfits⟩, huss⟩ := huss
      have hus := (hfits.depth depth _).trans (ih huss)
      rw [List.flatMap_cons, List.cons_append]
      cases depth <;> exact hus
  match tss, h with
  | [], _ => cases depth <;> rfl
  | ts :: tss, h =>
    rw [List.forall_mem_cons] at h
    obtain ⟨⟨r, hfits⟩, htss⟩ := h
    rw [joinSections_cons, hfits.depth, hrest tss htss]

end

/-! ## Plain expressions -/

theorem mem_map_trim {P : Text → Prop} {t : Text} (h : ∀ p ∈ sections t, P (Text.trim p)) :
    ∀ q ∈ (sections t).map Text.trim, P q := by
  intro q hq
  obtain ⟨p, hp, rfl⟩ := List.mem_map.1 hq
  exact h p hp

theorem not_mem_trim_section {t p : Text} (hp : p ∈ sections t) : ';' ∉ Text.trim p :=
  fun h => not_mem_section hp (Text.mem_of_mem_trim h)

theorem Spells.trim_ne_nil {slack : Bool} {level : Level} {t : Text} {e : Tree Text}
    (h : Spells slack level (tokensOf t) e) : Text.trim t ≠ [] := by
  intro hnil
  obtain ⟨a, ha⟩ := e.exists_mem_first
  have hatom := Tree.mem_atoms_of_first ha
  rw [h.atoms_eq, tokensOf_eq_nil_iff.2 hnil] at hatom
  cases hatom

/-- Building the expression ends, and these edges are put on the way, in this order. -/
def PlainCalls (t : Text) (g : Graph) (calls : List (Node × Node)) (g' : Graph) : Prop :=
  isBalanced t = true ∧ ∃ topologies, topologiesOf t = .ok topologies ∧
    BuildCalls 1 topologies .new g calls g'

namespace PlainCalls

variable {t : Text} {g g' : Graph} {calls : List (Node × Node)}

theorem buildPlain_eq (h : PlainCalls t g calls g') : buildPlain t g = .ok () g' := by
  obtain ⟨hbal, topologies, htopologies, hbuild⟩ := h
  rw [buildPlain, if_pos hbal, htopologies]
  exact hbuild.buildTopologies_eq

theorem putEdges_eq (h : PlainCalls t g calls g') : Graph.putEdges calls g = .ok () g' := by
  obtain ⟨-, topologies, -, hbuild⟩ := h
  exact hbuild.putEdges_eq

end PlainCalls

section

variable {slack : Bool} {t : Text} {es : List (Tree Text)}

theorem Spells.fits {p : Text} {e : Tree Text} (h : Spells slack .list (tokensOf p) e) :
    Text.trim p ≠ [] ∧ ∃ r, Fits (tokensOf p) r := by
  obtain ⟨r, hfits, -⟩ := h.exists_row fun n hn => isName_of_mem_tokensOf hn
  exact ⟨h.trim_ne_nil, r, hfits⟩

theorem SpellsAll.sections (h : SpellsAll slack (tokensOf t) es) :
    ∀ p ∈ StageGraph.sections t, Text.trim p ≠ [] ∧ ∃ r, Fits (tokensOf p) r :=
  ((List.forall₂_and_left (R := fun _ _ => True) _ es).1
    ((spellsAll_tokensOf_iff.1 h).imp fun _ _ he => ⟨he.fits, trivial⟩)).1

/-- Every section is balanced, and so is the whole expression. -/
theorem SpellsAll.isBalanced (h : SpellsAll slack (tokensOf t) es) : isBalanced t = true := by
  rw [StageGraph.isBalanced, depthAfter_eq_tokens, tokensOf_eq_joinSections, ← StageGraph.sections,
    depthTokens_joinSections]
  · rfl
  · intro ts hts
    obtain ⟨p, hp, rfl⟩ := List.mem_map.1 hts
    exact (h.sections p hp).2

/-- An expression whose tokens spell trees is built, and puts the edges of these trees, unless the
numbers do not suffice. -/
theorem buildPlain_spells (h : SpellsAll slack (tokensOf t) es) {g : Graph} (hg : g.WellFormed) :
    (∃ cause g', buildPlain t g = .error (.malformed cause) g' ∧ ¬ Numerable 0 es) ∨
    ∃ calls g' ss, PlainCalls t g calls g' ∧ Numerable 0 es ∧ DrawnAll 0 es ss calls := by
  have htrim : topologiesOf t = .ok ((sections t).map Text.trim) :=
    (trimTopologies_eq_ok_iff t 1).2 fun p hp => (h.sections p hp).1
  have htopologies : List.Forall₂ (fun q e => Spells slack .list (tokensOf q) e)
      ((sections t).map Text.trim) es := by
    refine List.forall₂_map_left_iff.2 ((spellsAll_tokensOf_iff.1 h).imp fun p e he => ?_)
    rwa [tokensOf_trim]
  rcases buildTopologies_of_spells htopologies (mem_map_trim fun p hp => not_mem_trim_section hp)
      (show 0 < 2 ^ 32 by decide) SpanStore.sound_new hg with
    ⟨cause, g', hbuild, hno⟩ | ⟨calls, g', ss, hbuild, hall, hdrawn⟩
  · refine .inl ⟨cause, g', ?_, hno⟩
    rw [buildPlain, if_pos h.isBalanced, htrim]
    exact hbuild
  · exact .inr ⟨calls, g', ss, ⟨h.isBalanced, _, htrim, hbuild⟩, hall, hdrawn⟩

/-- There are numbers for all that a text of less than `2 ^ 32` bytes spells. -/
theorem numerable_of_bytes (h : SpellsAll slack (tokensOf t) es) (hbytes : Text.bytes t < 2 ^ 32) :
    Numerable 0 es := by
  have hspells := spellsAll_tokensOf_iff.1 h
  constructor
  · rw [Nat.zero_add, ← hspells.length_eq]
    exact (length_sections_le fun p hp => (h.sections p hp).1).trans_lt hbytes
  · intro e he name
    obtain ⟨i, hi, rfl⟩ := List.getElem_of_mem he
    have hi' : i < (sections t).length := by rwa [hspells.length_eq]
    have hp : (sections t)[i] ∈ sections t := List.getElem_mem hi'
    have hspell := hspells.get hi' hi
    rw [List.get_eq_getElem, List.get_eq_getElem] at hspell
    generalize (sections t)[i] = p at hp hspell
    calc es[i].atoms.count name ≤ es[i].atoms.length := List.count_le_length
      _ = (namesOf (tokensOf p)).length := by rw [hspell.atoms_eq]
      _ ≤ Text.bytes p := length_namesOf_le p
      _ ≤ Text.bytes t := bytes_section_le hp
      _ < 2 ^ 32 := hbytes

/-- An expression whose tokens spell trees is built, and draws these trees. -/
theorem buildPlain_of_spells (h : SpellsAll slack (tokensOf t) es)
    (hbytes : Text.bytes t < 2 ^ 32) :
    ∃ g ss edges, buildPlain t .empty = .ok () g ∧ Graph.Grown .empty g edges ∧
      DrawnAll 0 es ss edges := by
  rcases buildPlain_spells h Graph.wellFormed_empty with
    ⟨cause, g, -, hno⟩ | ⟨calls, g, ss, hcalls, -, hdrawn⟩
  · exact absurd (numerable_of_bytes h hbytes) hno
  · exact ⟨g, ss, calls, hcalls.buildPlain_eq,
      Graph.grown_of_putEdges Graph.wellFormed_empty hcalls.putEdges_eq, hdrawn⟩

end

/-- The sections of an expression are its topologies unless one of them is blank. -/
theorem topologiesOf_cases (t : Text) :
    (∃ cause, topologiesOf t = .error (.malformed cause)) ∨
      topologiesOf t = .ok ((sections t).map Text.trim) ∧ ∀ p ∈ sections t, Text.trim p ≠ [] := by
  rw [topologiesOf, ← sections]
  rcases trimTopologies_cases t 1 (sections t) with hmalformed | htrim
  · exact .inl hmalformed
  · exact .inr ⟨htrim, (trimTopologies_eq_ok_iff t 1).1 htrim⟩

/-- An expression fails as malformed, or it is grammatical up to slack. -/
theorem buildPlain_cases {t : Text} {g : Graph} (hg : g.WellFormed) :
    (∃ cause g', buildPlain t g = .error (.malformed cause) g') ∨
      Grammatical true (tokensOf t) := by
  by_cases hbal : isBalanced t = true
  · rw [buildPlain, if_pos hbal]
    rcases topologiesOf_cases t with ⟨cause, htrim⟩ | ⟨htrim, hne⟩
    · rw [htrim]
      exact .inl ⟨_, _, rfl⟩
    · rw [htrim]
      rcases buildTopologies_cases 1 (mem_map_trim fun p hp => not_mem_trim_section hp)
        (mem_map_trim fun p hp => by rw [Text.trim_trim]; exact hne p hp) SpanStore.sound_new hg
        with ⟨cause, g, hbuild⟩ | hphrases
      · exact .inl ⟨cause, g, hbuild⟩
      · refine .inr (grammatical_tokensOf_iff.2 fun p hp => ?_)
        rw [← tokensOf_trim]
        exact hphrases _ (List.mem_map_of_mem hp)
  · rw [buildPlain, if_neg hbal]
    exact .inl ⟨_, _, rfl⟩

/-- Building the expression puts an edge from `a` to `b`, however it ends. -/
def PlainPuts (t : Text) (g : Graph) (a b : Node) : Prop :=
  isBalanced t = true ∧ ∃ topologies, topologiesOf t = .ok topologies ∧
    BuildPuts 1 topologies .new g a b

/-- No expression puts a loop. -/
theorem PlainPuts.not_loop {t : Text} {g : Graph} {a b : Node} (h : PlainPuts t g a b)
    (hg : g.WellFormed) : a ≠ b := by
  obtain ⟨-, topologies, htopologies, hputs⟩ := h
  rcases topologiesOf_cases t with ⟨cause, htrim⟩ | ⟨htrim, hne⟩
  · rw [htrim] at htopologies
    cases htopologies
  · rw [htrim] at htopologies
    cases htopologies
    exact hputs.ne (mem_map_trim fun p hp => not_mem_trim_section hp)
      (mem_map_trim fun p hp => by rw [Text.trim_trim]; exact hne p hp) SpanStore.sound_new hg

/-- An expression that is built has added the edges that it puts, and no others. -/
theorem adjacent_iff_of_buildPlain {t : Text} {g g' : Graph} (hg : g.WellFormed)
    (hbuild : buildPlain t g = .ok () g') (a b : Node) :
    g'.Adjacent a b ↔ g.Adjacent a b ∨ PlainPuts t g a b := by
  rw [buildPlain] at hbuild
  by_cases hbal : isBalanced t = true
  · rw [if_pos hbal] at hbuild
    cases htopologies : topologiesOf t with
    | error failure =>
      rw [htopologies] at hbuild
      cases hbuild
    | ok topologies =>
      rw [htopologies] at hbuild
      rw [adjacent_iff_of_buildTopologies hg hbuild]
      refine or_congr_right ⟨fun h => ⟨hbal, topologies, htopologies, h⟩, ?_⟩
      rintro ⟨-, topologies', htopologies', h⟩
      cases htopologies.symm.trans htopologies'
      exact h
  · rw [if_neg hbal] at hbuild
    cases hbuild

end StageGraph
