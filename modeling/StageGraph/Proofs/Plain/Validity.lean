import Mathlib.Algebra.Order.BigOperators.Group.List
import Mathlib.Tactic
import StageGraph.Compile
import StageGraph.Proofs.Graph.Shape
import StageGraph.Proofs.Plain.Drawing

set_option autoImplicit false

/-! # The graph of a plain expression

`Graph.Draws` says what the graph of an expression holds: the sentinels, one stage for each name
that is written, and the edges of one tree for each topology. Such a graph is valid. Its edges lead
from the left to the right in the text, so there is no cycle (`standing_lt`), and no edge passes by
all stages.
-/

namespace StageGraph

/-- The graph holds what the trees draw, and nothing else. -/
structure Graph.Draws (g : Graph) (es : List (Tree Text)) (ss : List (Tree Node)) : Prop where
  length_eq : ss.length = es.length
  /-- The tree at place `i` is that of topology `i + 1`. -/
  writes : ∀ i e (s : Tree Node), es[i]? = some e → ss[i]? = some s → s.Writes (i + 1) e
  mem_iff : ∀ n, n ∈ g.nodes ↔ n = .start ∨ n = .finish ∨ ∃ s ∈ ss, n ∈ s.atoms
  stages_iff : ∀ i (s : Tree Node), ss[i]? = some s →
    ∀ n, n ∈ s.atoms ↔ n ∈ g.nodes ∧ n.topology.toNat = i + 1
  edges_iff : ∀ e, e ∈ g.edges ↔ ∃ s ∈ ss, s.Joins .start .finish e.source e.target

/-- No tree of nodes holds a sentinel. -/
theorem Tree.Writes.ne_sentinel {s : Tree Node} {i : Nat} {e : Tree Text}
    (h : s.Writes (i + 1) e) {n : Node} (hn : n ∈ s.atoms) : n ≠ .start ∧ n ≠ .finish := by
  have htopology := h.topology_eq n hn
  constructor
  · rintro rfl
    cases htopology
  · rintro rfl
    cases htopology

/-- The trees of several topologies, the first of which has the number 1. -/
def Topologies (ss : List (Tree Node)) : Prop :=
  ∀ i (s : Tree Node), ss[i]? = some s → ∃ e, s.Writes (i + 1) e

namespace Topologies

variable {ss : List (Tree Node)}

theorem of_writes {es : List (Tree Text)} (hlength : ss.length = es.length)
    (hwrites : ∀ i e (s : Tree Node), es[i]? = some e → ss[i]? = some s → s.Writes (i + 1) e) :
    Topologies ss := by
  intro i s hs
  obtain ⟨hlt, -⟩ := List.getElem?_eq_some_iff.1 hs
  rw [hlength] at hlt
  exact ⟨es[i], hwrites i _ s (List.getElem?_eq_getElem hlt) hs⟩

theorem exists_writes (h : Topologies ss) {s : Tree Node} (hs : s ∈ ss) :
    ∃ i e, ss[i]? = some s ∧ s.Writes (i + 1) e := by
  obtain ⟨i, hi⟩ := List.mem_iff_getElem?.1 hs
  obtain ⟨e, he⟩ := h i s hi
  exact ⟨i, e, hi, he⟩

theorem ne_sentinel (h : Topologies ss) {s : Tree Node} (hs : s ∈ ss) {n : Node}
    (hn : n ∈ s.atoms) : n ≠ .start ∧ n ≠ .finish := by
  obtain ⟨i, e, -, he⟩ := h.exists_writes hs
  exact he.ne_sentinel hn

/-- The stages of different topologies differ. -/
theorem index_unique (h : Topologies ss) {s : Tree Node} (hs : s ∈ ss) {n : Node}
    (hn : n ∈ s.atoms) : ss[n.topology.toNat - 1]? = some s := by
  obtain ⟨i, e, hi, he⟩ := h.exists_writes hs
  rw [he.topology_eq n hn, Nat.add_sub_cancel]
  exact hi

end Topologies

/-- Where a node stands: the sentinels at the ends, a stage at its place in its topology. -/
def standing (ss : List (Tree Node)) (n : Node) : Nat :=
  if n = .start then 0
  else if n = .finish then (ss.map fun s => s.atoms.length).sum + 1
  else ((ss[n.topology.toNat - 1]?).elim [] Tree.atoms).idxOf n + 1

theorem standing_of_mem {ss : List (Tree Node)} (h : Topologies ss) {s : Tree Node} (hs : s ∈ ss)
    {n : Node} (hn : n ∈ s.atoms) : standing ss n = s.atoms.idxOf n + 1 := by
  obtain ⟨hstart, hfinish⟩ := h.ne_sentinel hs hn
  rw [standing, if_neg hstart, if_neg hfinish, h.index_unique hs hn]
  rfl

/-- Edges lead from the left to the right. -/
theorem standing_lt {ss : List (Tree Node)} (h : Topologies ss) {s : Tree Node} (hs : s ∈ ss)
    {a b : Node} (hjoins : s.Joins .start .finish a b) : standing ss a < standing ss b := by
  obtain ⟨i, e, -, he⟩ := h.exists_writes hs
  rcases hjoins with ⟨rfl, hb⟩ | hlink | ⟨ha, rfl⟩
  · rw [standing_of_mem h hs (Tree.mem_atoms_of_first hb)]
    exact Nat.succ_pos _
  · obtain ⟨ha, hb⟩ := Tree.mem_atoms_of_links hlink
    calc standing ss a = s.atoms.idxOf a + 1 := standing_of_mem h hs ha
      _ < s.atoms.idxOf b + 1 := Nat.succ_lt_succ (Tree.idxOf_lt_of_mem_links he.nodup hlink)
      _ = standing ss b := (standing_of_mem h hs hb).symm
  · have hmem := Tree.mem_atoms_of_last ha
    calc standing ss a = s.atoms.idxOf a + 1 := standing_of_mem h hs hmem
      _ < s.atoms.length + 1 := Nat.succ_lt_succ (List.idxOf_lt_length_of_mem hmem)
      _ ≤ (ss.map fun s => s.atoms.length).sum + 1 :=
        Nat.succ_le_succ (List.le_sum_of_mem (List.mem_map_of_mem hs))
      _ = standing ss .finish := by rw [standing, if_neg (by simp), if_pos rfl]

/-- No edge leads into the first sentinel, out of the last one, or past all stages. -/
theorem Topologies.joins_ne {ss : List (Tree Node)} (h : Topologies ss) {s : Tree Node}
    (hs : s ∈ ss) {a b : Node} (hjoins : s.Joins .start .finish a b) :
    b ≠ .start ∧ a ≠ .finish ∧ ¬ (a = .start ∧ b = .finish) := by
  rcases hjoins with ⟨rfl, hb⟩ | hlink | ⟨ha, rfl⟩
  · obtain ⟨hstart, hfinish⟩ := h.ne_sentinel hs (Tree.mem_atoms_of_first hb)
    exact ⟨hstart, by simp, fun hboth => hfinish hboth.2⟩
  · obtain ⟨ha, hb⟩ := Tree.mem_atoms_of_links hlink
    exact ⟨(h.ne_sentinel hs hb).1, (h.ne_sentinel hs ha).2, fun hboth =>
      (h.ne_sentinel hs ha).1 hboth.1⟩
  · obtain ⟨hstart, hfinish⟩ := h.ne_sentinel hs (Tree.mem_atoms_of_last ha)
    exact ⟨by simp, hfinish, fun hboth => hstart hboth.1⟩

section

variable {g : Graph} {es : List (Tree Text)} {ss : List (Tree Node)}

/-- What topologies add to the graph without nodes is all that it holds afterwards. -/
theorem DrawnAll.draws {edges : List (Node × Node)} (h : DrawnAll 0 es ss edges) (hne : ss ≠ [])
    (hgrown : Graph.Grown .empty g edges) : g.Draws es ss := by
  have hwrites : ∀ i e (s : Tree Node), es[i]? = some e → ss[i]? = some s →
      s.Writes (i + 1) e := by
    intro i e s he hs
    have := h.writes i e s he hs
    rwa [Nat.zero_add] at this
  have htopologies : Topologies ss := .of_writes h.length_eq hwrites
  have hmem : ∀ n, n ∈ g.nodes ↔ n = .start ∨ n = .finish ∨ ∃ s ∈ ss, n ∈ s.atoms := by
    intro n
    have hnone : n ∉ Graph.empty.nodes := Array.not_mem_empty n
    rw [hgrown.mem_iff, or_iff_right hnone]
    constructor
    · rintro ⟨⟨a, b⟩, hedge, hn⟩
      obtain ⟨s, hs, hjoins⟩ := (h.joins a b).1 hedge
      obtain ⟨ha, hb⟩ := hjoins.mem
      rcases hn with rfl | rfl
      · exact ha.imp_right fun ha => .inr ⟨s, hs, ha⟩
      · exact .inr (hb.imp_right fun hb => ⟨s, hs, hb⟩)
    · have hedge : ∀ {s : Tree Node} {a b : Node}, s ∈ ss → s.Joins .start .finish a b →
          (a, b) ∈ edges := fun hs hjoins => (h.joins _ _).2 ⟨_, hs, hjoins⟩
      obtain ⟨s, hs⟩ := List.exists_mem_of_ne_nil ss hne
      obtain ⟨⟨b, hb⟩, a, ha⟩ := s.exists_joins_ends Node.start Node.finish
      rintro (rfl | rfl | ⟨s', hs', hn⟩)
      · exact ⟨_, hedge hs hb, .inl rfl⟩
      · exact ⟨_, hedge hs ha, .inr rfl⟩
      · obtain ⟨-, c, hc⟩ := Tree.exists_joins_of_mem_atoms Node.start Node.finish hn
        exact ⟨_, hedge hs' hc, .inl rfl⟩
  refine ⟨h.length_eq, hwrites, hmem, fun i s hs n => ?_, fun e => ?_⟩
  · constructor
    · intro hn
      obtain ⟨e, he⟩ := htopologies i s hs
      exact ⟨(hmem n).2 (.inr (.inr ⟨s, List.mem_of_getElem? hs, hn⟩)), he.topology_eq n hn⟩
    · rintro ⟨hn, htopology⟩
      rcases (hmem n).1 hn with rfl | rfl | ⟨s', hs', hn'⟩
      · cases htopology
      · cases htopology
      · have hindex := htopologies.index_unique hs' hn'
        rw [htopology, Nat.add_sub_cancel, hs] at hindex
        cases hindex
        exact hn'
  · rw [Graph.mem_edges hgrown.wellFormed, hgrown.adjacent_iff,
      or_iff_right (Graph.not_adjacent_empty _ _), h.joins]

namespace Graph.Draws

theorem topologies (h : g.Draws es ss) : Topologies ss := .of_writes h.length_eq h.writes

theorem adjacent_iff (h : g.Draws es ss) (hg : g.WellFormed) {a b : Node} :
    g.Adjacent a b ↔ ∃ s ∈ ss, s.Joins .start .finish a b :=
  (mem_edges hg (e := ⟨a, b⟩)).symm.trans (h.edges_iff ⟨a, b⟩)

/-- `Start` is the only source of a graph that is drawn, and `End` the only sink. -/
theorem ends (h : g.Draws es ss) (hg : g.WellFormed) (hne : ss ≠ []) : g.Ends := by
  have hadj : ∀ {s : Tree Node} {a b : Node}, s ∈ ss → s.Joins .start .finish a b →
      g.Adjacent a b := fun hs hjoins => (h.adjacent_iff hg).2 ⟨_, hs, hjoins⟩
  obtain ⟨s, hs⟩ := List.exists_mem_of_ne_nil ss hne
  obtain ⟨⟨b, hb⟩, a, ha⟩ := s.exists_joins_ends Node.start Node.finish
  refine ⟨fun a ha => ?_, fun b hb => ?_, fun n hn hstart => ?_, fun n hn hfinish => ?_⟩
  · obtain ⟨s, hs, hjoins⟩ := (h.adjacent_iff hg).1 ha
    exact (h.topologies.joins_ne hs hjoins).1 rfl
  · obtain ⟨s, hs, hjoins⟩ := (h.adjacent_iff hg).1 hb
    exact (h.topologies.joins_ne hs hjoins).2.1 rfl
  · rcases (h.mem_iff n).1 hn with rfl | rfl | ⟨s', hs', hn'⟩
    · exact absurd rfl hstart
    · exact ⟨a, hadj hs ha⟩
    · obtain ⟨⟨c, hc⟩, -⟩ := Tree.exists_joins_of_mem_atoms Node.start Node.finish hn'
      exact ⟨c, hadj hs' hc⟩
  · rcases (h.mem_iff n).1 hn with rfl | rfl | ⟨s', hs', hn'⟩
    · exact ⟨b, hadj hs hb⟩
    · exact absurd rfl hfinish
    · obtain ⟨-, c, hc⟩ := Tree.exists_joins_of_mem_atoms Node.start Node.finish hn'
      exact ⟨c, hadj hs' hc⟩

/-- A graph that is drawn holds the two sentinels and a stage. -/
theorem two_lt_nodeCount (h : g.Draws es ss) (hne : ss ≠ []) : 2 < g.nodeCount := by
  obtain ⟨s, hs⟩ := List.exists_mem_of_ne_nil ss hne
  obtain ⟨n, hn⟩ := s.exists_mem_first
  have hatom := Tree.mem_atoms_of_first hn
  obtain ⟨hstart, hfinish⟩ := h.topologies.ne_sentinel hs hatom
  have hnodup : [Node.start, Node.finish, n].Nodup := by
    simp [Ne.symm hstart, Ne.symm hfinish]
  have hsub : [Node.start, Node.finish, n] ⊆ g.nodes.toList := by
    intro m hm
    rw [Array.mem_toList_iff, h.mem_iff]
    simp only [List.mem_cons, List.not_mem_nil, or_false] at hm
    rcases hm with rfl | rfl | rfl
    · exact .inl rfl
    · exact .inr (.inl rfl)
    · exact .inr (.inr ⟨s, hs, hatom⟩)
  exact (hnodup.subperm hsub).length_le

/-- A graph that is drawn is valid. -/
theorem validate (h : g.Draws es ss) (hg : g.WellFormed) (hne : ss ≠ []) :
    g.validate = .ok () := by
  refine (validate_eq_ok_iff hg).2 ⟨h.two_lt_nodeCount hne, fun hadj => ?_, ?_⟩
  · obtain ⟨s, hs, hjoins⟩ := (h.adjacent_iff hg).1 hadj
    exact (h.topologies.joins_ne hs hjoins).2.2 ⟨rfl, rfl⟩
  · refine acyclic_of_rank (standing ss) fun a b hadj => ?_
    obtain ⟨s, hs, hjoins⟩ := (h.adjacent_iff hg).1 hadj
    exact standing_lt h.topologies hs hjoins

end Graph.Draws

end

/-! ## Compiled expressions -/

section

variable {t : Text}

theorem compile_blank (hblank : Text.trim t = []) :
    compile t = .error (.malformed .blankExpression) := by
  rw [compile, if_pos hblank]

/-- A text that is no edge list fails as the plain expression that it is. -/
theorem compile_eq_error (hplain : Form.detect (Text.trim t) = .ok none) (hne : Text.trim t ≠ [])
    {failure : Failure} {g : Graph} (hbuild : buildPlain (Text.trim t) .empty = .error failure g) :
    compile t = .error failure := by
  simp only [compile, if_neg hne, buildExpression, hplain, hbuild]

/-- What compiles has been built and found valid. -/
theorem compile_eq_ok_iff {g : Graph} :
    compile t = .ok g ↔ Text.trim t ≠ [] ∧
      buildExpression (Text.trim t) .empty = .ok () g ∧ g.validate = .ok () := by
  rw [compile]
  by_cases hblank : Text.trim t = []
  · simp [hblank]
  · rw [if_neg hblank]
    cases hbuild : buildExpression (Text.trim t) .empty with
    | error failure g' => simp
    | ok u g' =>
      simp only [ne_eq, hblank, not_false_eq_true, true_and, EStateM.Result.ok.injEq]
      constructor
      · intro h
        cases hvalid : g'.validated with
        | error failure =>
          rw [hvalid] at h
          cases h
        | ok g'' =>
          rw [hvalid] at h
          cases h
          obtain ⟨hok, rfl⟩ := Graph.validated_eq_ok_iff.1 hvalid
          exact ⟨rfl, hok⟩
      · rintro ⟨rfl, hok⟩
        rw [Graph.validated_eq_ok_iff.2 ⟨hok, rfl⟩]
        rfl

theorem SpellsAll.ne_nil {slack : Bool} {ts : List Token} {es : List (Tree Text)}
    (h : SpellsAll slack ts es) : es ≠ [] := by
  obtain ⟨tss, hne, -, hspells⟩ := h
  rintro rfl
  cases hspells
  exact hne rfl

theorem SpellsAll.trim_ne_nil {slack : Bool} {es : List (Tree Text)}
    (h : SpellsAll slack (tokensOf t) es) : Text.trim t ≠ [] := by
  intro hnil
  rw [tokensOf_eq_nil_iff.2 hnil] at h
  obtain ⟨tss, hne, htokens, hspells⟩ := h
  match hspells with
  | .nil => exact hne rfl
  | .cons he _ =>
    rw [joinSections_cons] at htokens
    obtain ⟨rfl, -⟩ := List.append_eq_nil_iff.1 htokens.symm
    obtain ⟨a, ha⟩ := Tree.exists_mem_first _
    have hatom := Tree.mem_atoms_of_first ha
    rw [he.atoms_eq] at hatom
    cases hatom

/-- A plain text whose tokens spell trees compiles to the graph that these trees draw, unless the
numbers do not suffice. -/
theorem compile_spells {slack : Bool} {es : List (Tree Text)}
    (hplain : Form.detect (Text.trim t) = .ok none) (h : SpellsAll slack (tokensOf t) es) :
    (∃ cause, compile t = .error (.malformed cause) ∧ ¬ Numerable 0 es) ∨
    ∃ g ss calls, compile t = .ok g ∧ PlainCalls (Text.trim t) .empty calls g ∧
      Numerable 0 es ∧ DrawnAll 0 es ss calls ∧ ss ≠ [] ∧ g.Draws es ss := by
  have htrim := h.trim_ne_nil
  rw [← tokensOf_trim] at h
  rcases buildPlain_spells h Graph.wellFormed_empty with
    ⟨cause, g, hbuild, hno⟩ | ⟨calls, g, ss, hcalls, hall, hdrawn⟩
  · exact .inl ⟨cause, compile_eq_error hplain htrim hbuild, hno⟩
  · have hss : ss ≠ [] := by
      rintro rfl
      exact h.ne_nil (List.length_eq_zero_iff.1 hdrawn.length_eq.symm)
    have hgrown := Graph.grown_of_putEdges Graph.wellFormed_empty hcalls.putEdges_eq
    have hdraws := hdrawn.draws hss hgrown
    refine .inr ⟨g, ss, calls, ?_, hcalls, hall, hdrawn, hss, hdraws⟩
    refine compile_eq_ok_iff.2 ⟨htrim, ?_, hdraws.validate hgrown.wellFormed hss⟩
    rw [buildExpression, hplain]
    exact hcalls.buildPlain_eq

/-- A plain text of less than `2 ^ 32` bytes compiles if its tokens spell trees. -/
theorem compile_of_spells {slack : Bool} {es : List (Tree Text)}
    (hbytes : Text.bytes t < 2 ^ 32) (hplain : Form.detect (Text.trim t) = .ok none)
    (h : SpellsAll slack (tokensOf t) es) :
    ∃ g ss, compile t = .ok g ∧ buildPlain (Text.trim t) .empty = .ok () g ∧ g.WellFormed ∧
      ss ≠ [] ∧ g.Draws es ss := by
  rcases compile_spells hplain h with
    ⟨cause, -, hno⟩ | ⟨g, ss, calls, hok, hcalls, -, hdrawn, hss, hdraws⟩
  · exact absurd (numerable_of_bytes h hbytes) hno
  · have hgrown := Graph.grown_of_putEdges Graph.wellFormed_empty hcalls.putEdges_eq
    exact ⟨g, ss, hok, hcalls.buildPlain_eq, hgrown.wellFormed, hss, hdraws⟩

/-- A plain text fails as malformed, or is grammatical up to slack. -/
theorem compile_cases (hplain : Form.detect (Text.trim t) = .ok none) :
    (∃ cause, compile t = .error (.malformed cause)) ∨ Grammatical true (tokensOf t) := by
  by_cases hne : Text.trim t = []
  · exact .inl ⟨_, compile_blank hne⟩
  · rw [← tokensOf_trim]
    rcases buildPlain_cases (t := Text.trim t) Graph.wellFormed_empty with
      ⟨cause, g, hbuild⟩ | hgrammatical
    · exact .inl ⟨cause, compile_eq_error hplain hne hbuild⟩
    · exact .inr hgrammatical

/-- The tokens of a plain text that compiles spell trees, and its graph is what these draw. -/
theorem exists_draws_of_compile {g : Graph} (hplain : Form.detect (Text.trim t) = .ok none)
    (hok : compile t = .ok g) : ∃ es ss calls, SpellsAll true (tokensOf t) es ∧
      PlainCalls (Text.trim t) .empty calls g ∧ g.Draws es ss := by
  rcases compile_cases hplain with ⟨cause, hfail⟩ | hgrammatical
  · cases hfail.symm.trans hok
  obtain ⟨es, hspells⟩ := hgrammatical.spellsAll
  rcases compile_spells hplain hspells with
    ⟨cause, hfail, -⟩ | ⟨g', ss, calls, hok', hcalls, -, -, -, hdraws⟩
  · cases hfail.symm.trans hok
  · cases hok'.symm.trans hok
    exact ⟨es, ss, calls, hspells, hcalls, hdraws⟩

end

/-- A plain expression fails as malformed or not at all: its graph is always valid, and the walk
puts no loop. -/
theorem plain_fails_only_as_malformed (t : Text) (hbytes : Text.bytes t < 2 ^ 32) :
    (Form.detect (Text.trim t) = .ok none →
      ∀ failure, compile t = .error failure → ∃ cause, failure = .malformed cause) ∧
    (∀ g, buildPlain t .empty = .ok () g →
      g.validate = .ok () ∧ 2 < g.nodeCount ∧ ¬ g.Adjacent .start .finish ∧ g.Acyclic) ∧
    ∀ a b, PlainPuts t .empty a b → a ≠ b := by
  refine ⟨fun hplain failure herror => ?_, fun g hbuild => ?_, fun a b hputs => ?_⟩
  · rcases compile_cases hplain with ⟨cause, h⟩ | hgrammatical
    · cases h.symm.trans herror
      exact ⟨cause, rfl⟩
    · obtain ⟨es, hspells⟩ := hgrammatical.spellsAll
      obtain ⟨g, ss, hok, -⟩ := compile_of_spells hbytes hplain hspells
      cases hok.symm.trans herror
  · rcases buildPlain_cases (t := t) Graph.wellFormed_empty with ⟨cause, g', h⟩ | hgrammatical
    · cases h.symm.trans hbuild
    · obtain ⟨es, hspells⟩ := hgrammatical.spellsAll
      obtain ⟨g', ss, edges, hok, hgrown, hdrawn⟩ := buildPlain_of_spells hspells hbytes
      cases hok.symm.trans hbuild
      have hss : ss ≠ [] := by
        rintro rfl
        exact hspells.ne_nil (List.length_eq_zero_iff.1 hdrawn.length_eq.symm)
      have hvalid := (hdrawn.draws hss hgrown).validate hgrown.wellFormed hss
      exact ⟨hvalid, (Graph.validate_eq_ok_iff hgrown.wellFormed).1 hvalid⟩
  · exact hputs.not_loop Graph.wellFormed_empty

/-- The theorem about a series of two stages, which is built and puts edges, and about a text that
fails. -/
theorem plain_fails_only_as_malformed_series :
    (∃ failure cause, compile "A)".toList = .error failure ∧ failure = .malformed cause) ∧
    (∃ g, buildPlain "A->B".toList .empty = .ok () g ∧ g.validate = .ok () ∧ 2 < g.nodeCount ∧
      ¬ g.Adjacent .start .finish ∧ g.Acyclic) ∧
    ∃ a b, PlainPuts "A->B".toList .empty a b ∧ a ≠ b := by
  obtain ⟨g, ss, -, hbuild, hg, hss, hdraws⟩ :=
    compile_of_spells (t := "A->B".toList) (by decide) rfl
      (SpellsAll.of_spells (Spells.series false (by decide) (by decide)))
  have hfails : compile "A)".toList = .error (.malformed (.unbalanced "A)".toList)) :=
    compile_eq_error rfl (by decide) rfl
  obtain ⟨b, hadj⟩ : ∃ b, g.Adjacent .start b := by
    obtain ⟨s, hs⟩ := List.exists_mem_of_ne_nil ss hss
    obtain ⟨⟨b, hb⟩, -⟩ := s.exists_joins_ends Node.start Node.finish
    exact ⟨b, (hdraws.adjacent_iff hg).2 ⟨s, hs, hb⟩⟩
  have hputs : PlainPuts "A->B".toList .empty .start b :=
    ((adjacent_iff_of_buildPlain Graph.wellFormed_empty hbuild _ _).1 hadj).resolve_left
      (Graph.not_adjacent_empty _ _)
  have hseries := plain_fails_only_as_malformed "A->B".toList (by decide)
  refine ⟨?_, ⟨g, hbuild, hseries.2.1 g hbuild⟩, .start, b, hputs, hseries.2.2 _ _ hputs⟩
  obtain ⟨cause, hcause⟩ :=
    (plain_fails_only_as_malformed "A)".toList (by decide)).1 rfl _ hfails
  exact ⟨_, cause, hfails, hcause⟩

end StageGraph
