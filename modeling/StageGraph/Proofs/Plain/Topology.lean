import Mathlib.Tactic
import StageGraph.Proofs.Plain.Naming

set_option autoImplicit false

/-! # One topology

The walk over a topology that can be read puts the edges of the recursion over its tree, drawn over
the nodes that the tree numbers (`Drawn`). It fails if and only if the numbers do not suffice: when
the number of the topology has come round to 0, or there are too many stages of one name
(`walkTopology_of_reads`).
-/

namespace StageGraph

/-- What the edges of one topology are, put in this order: those of a tree over nodes that stands
for the tree `e` over names. -/
structure Drawn (topology : UInt32) (e : Tree Text) (s : Tree Node) (calls : List (Node × Node)) :
    Prop where
  numbers : s.Numbers topology.toNat e
  calls_eq : calls = s.walk .finish none .start

/-- The topology has a number, and so have all stages of one name. -/
structure Affords (topology : UInt32) (e : Tree Text) : Prop where
  topology_ne_zero : topology ≠ 0
  count_lt : ∀ name, e.atoms.count name < 2 ^ 32

/-- The nodes of a walk's names are those of a tree that stands for the names. -/
theorem Walked.drawn {topology : UInt32} {root : Nat} {c : Tree Piece} {task : Task}
    {w w' : Walker} {calls : List (Node × Node)}
    (h : Walked topology root c.atoms [(task, c)] w w' calls) (hprev : task.prev = .start)
    (hapart : c.atoms.Pairwise fun q r => Place.Apart q.place r.place)
    (hcounted : Counted topology w' (calls.map Prod.snd)) :
    Affords topology (c.map Piece.text) ∧ ∃ s, Drawn topology (c.map Piece.text) s calls := by
  classical
  have hnamed := h.named _ (List.mem_singleton_self _)
  -- every name has one node, so the nodes are a function of the names
  let ν : Piece → Node := fun q =>
    if hq : ∃ n, w'.Names topology root q n then hq.choose else .start
  have hν : ∀ q n, w'.Names topology root q n → ν q = n := by
    intro q n hn
    have hq : ∃ n, w'.Names topology root q n := ⟨n, hn⟩
    simp only [ν, dif_pos hq]
    exact hq.choose_spec.node_unique h.sane hn
  have hnode : ∀ q ∈ c.atoms, w'.Names topology root q (ν q) := by
    intro q hq
    obtain ⟨n, hn⟩ := hnamed q hq
    rwa [hν q n hn]
  have hatom : ∀ n ∈ (c.map ν).atoms, ∃ q, w'.Names topology root q n := by
    intro n hn
    rw [Tree.atoms_map] at hn
    obtain ⟨q, hq, rfl⟩ := List.mem_map.1 hn
    exact ⟨q, hnode q hq⟩
  have hnodup : (c.map ν).atoms.Nodup := by
    rw [Tree.atoms_map]
    refine List.pairwise_map.2 (List.Pairwise.imp_of_mem ?_ hapart)
    intro q r hq hr hqr heq
    refine hqr.ne ((hnode q hq).place_unique h.sane ?_)
    rw [heq]
    exact hnode r hr
  have hfinish : Node.finish ∉ (c.map ν).atoms := fun hmem => by
    obtain ⟨q, hq⟩ := hatom _ hmem
    exact hq.ne_finish h.sane rfl
  have hcalls : calls = (c.map ν).walk .finish none .start := by
    simpa [hprev] using h.calls_eq ν hν
  have hentered : calls.map Prod.snd = (c.map ν).entered := by rw [hcalls, Tree.entered]
  rw [hentered] at hcounted
  have hnumbers : (c.map ν).Numbers topology.toNat (c.map Piece.text) := by
    refine ⟨?_, hnodup, fun n hn => ?_, fun n hn => ?_⟩
    · rw [Tree.map_map]
      exact Tree.map_congr fun q hq => (hnode q hq).name_eq
    · obtain ⟨q, hq⟩ := hatom n hn
      exact congrArg UInt32.toNat hq.topology_eq
    · have hmem : n ∈ (c.map ν).entered := Tree.mem_map_snd_walk.2 (.inl hn)
      rw [hcounted.ordinal_eq hmem fun heq => hfinish (heq ▸ hn),
        idxOf_stagesNamed hnodup hfinish hn]
  refine ⟨⟨?_, fun name => ?_⟩, c.map ν, hnumbers, hcalls⟩
  · obtain ⟨q, hq⟩ := c.exists_mem_first
    have hn := hnode q (Tree.mem_atoms_of_first hq)
    rw [← hn.topology_eq]
    cases hcase : ν q with
    | start => exact absurd hcase (hn.ne_start h.sane)
    | finish => exact absurd hcase (hn.ne_finish h.sane)
    | stage s => exact s.topology_ne_zero
  · have hlength := congrArg List.length (hcounted.ordinals_eq name)
    rw [List.length_map, List.length_range'] at hlength
    calc (c.map Piece.text).atoms.count name
        = ((c.map ν).atoms.filter fun n => n.name = name).length := hnumbers.count_eq name
      _ = (stagesNamed name (c.map ν).entered).length :=
        (perm_stagesNamed hnodup hfinish name).length_eq.symm
      _ = (w'.ordinals.metAs name).length := hlength
      _ < 2 ^ 32 := h.sane.valid.length_lt name

theorem spread_root {t : Text} (hneat : Piece.Neat ⟨.root, t⟩) : Spread [⟨.root, t⟩] where
  origin p hp := by
    rw [List.mem_singleton.1 hp]
    exact .inr ⟨.refl _, hneat⟩
  apart := List.pairwise_singleton _ _

theorem ready_root {topology : UInt32} {root : Nat} {w : Walker} {t : Text}
    (hneat : Piece.Neat ⟨.root, t⟩) :
    (Task.stages [⟨.root, t⟩] .start).Ready w topology root where
  ne_nil := List.cons_ne_nil _ _
  tail_ne_nil := by rintro _ _ _ ⟨⟩
  spread := spread_root hneat
  behind := .inl rfl

/-- A walk is ready for a topology that is not blank. -/
theorem poised_root {topology : UInt32} {spans : SpanStore} {t : Text} (hspans : spans.Sound)
    (hneat : Piece.Neat ⟨.root, t⟩) :
    Poised topology (spans.add t).1.id ⟨(spans.add t).2, .empty⟩
      [.stages [(spans.add t).1] .start .finish] [.stages [⟨.root, t⟩] .start] where
  sane := ⟨hspans.rooted_add t, Ordinals.valid_empty⟩
  shown := .cons (.stages .start (.cons (SpanStore.shows_root _ _) .nil)) .nil
  ready task htask := by
    rw [List.mem_singleton.1 htask]
    exact ready_root hneat

/-- The walk over one topology fails for a malformed text, or the topology can be read. -/
theorem walkTopology_cases (topology : UInt32) {spans : SpanStore} {t : Text} {g : Graph}
    (hspans : spans.Sound) (hg : g.WellFormed) (hneat : Piece.Neat ⟨.root, t⟩) :
    (∃ cause walk, walkTopology topology (spans.add t).1 (spans.add t).2 g =
      .error (.malformed cause) walk) ∨
    ∃ walk c, walkTopology topology (spans.add t).1 (spans.add t).2 g = .ok () walk ∧
      walk.walker.spans.Sound ∧ walk.graph.WellFormed ∧ Reads [⟨.root, t⟩] c none := by
  have hcases : RunCases (spans.add t).1.id [.stages [⟨.root, t⟩] .start]
      (walkTopology topology (spans.add t).1 (spans.add t).2 g) :=
    walkFrames_cases (poised_root hspans hneat) hg
  cases hrun : walkTopology topology (spans.add t).1 (spans.add t).2 g with
  | error failure walk =>
    rw [hrun] at hcases
    obtain ⟨cause, rfl⟩ := hcases
    exact .inl ⟨cause, walk, rfl⟩
  | ok u walk =>
    rw [hrun] at hcases
    obtain ⟨hsane, hg', htasks⟩ := hcases
    obtain ⟨c, s, u, hreads, -⟩ := htasks _ (List.mem_singleton_self _)
    obtain ⟨p, hp⟩ := hreads.ends.1 _ rfl
    exact .inr ⟨walk, p, rfl, hsane.rooted.toSound, hg', hp⟩

/-- What the walk over a topology that can be read comes to. -/
theorem walkTopology_of_reads (topology : UInt32) {spans : SpanStore} {t : Text} {g : Graph}
    {c : Tree Piece} (hspans : spans.Sound) (hg : g.WellFormed)
    (hneat : Piece.Neat ⟨.root, t⟩) (h : Reads [⟨.root, t⟩] c none) :
    (∃ cause walk, walkTopology topology (spans.add t).1 (spans.add t).2 g =
        .error (.malformed cause) walk ∧ ¬ Affords topology (c.map Piece.text)) ∨
    ∃ calls walk s, WalkCalls topology [.stages [(spans.add t).1] .start .finish]
        ⟨⟨(spans.add t).2, .empty⟩, g⟩ calls walk ∧
      walk.walker.spans.Sound ∧ Affords topology (c.map Piece.text) ∧
      Drawn topology (c.map Piece.text) s calls := by
  have hpoised := @poised_root topology _ _ hspans hneat
  have hroom : Room ⟨(spans.add t).2, .empty⟩ (spans.add t).1.id c.atoms :=
    fun name id hid => by simp [Ordinals.empty, Ordinals.metAs] at hid
  have hcases : ReadCases topology (spans.add t).1.id c.atoms
      [.stages [(spans.add t).1] .start .finish] [(.stages [⟨.root, t⟩] .start, c)]
      ⟨⟨(spans.add t).2, .empty⟩, g⟩
      (walkTopology topology (spans.add t).1 (spans.add t).2 g) :=
    walkFrames_of_reads _ _ hpoised hg hroom
      (fun r hr => by rw [List.mem_singleton.1 hr]; exact ⟨c, none, h, rfl⟩)
      (fun r hr q hq => by rw [List.mem_singleton.1 hr] at hq; exact hq)
  cases hrun : walkTopology topology (spans.add t).1 (spans.add t).2 g with
  | error failure walk =>
    rw [hrun] at hcases
    obtain ⟨⟨cause, rfl⟩, hwhy⟩ := hcases
    refine .inl ⟨cause, walk, rfl, fun hfits => ?_⟩
    rcases hwhy with hzero | ⟨name, hmany⟩
    · exact hfits.topology_ne_zero hzero
    · rw [← Tree.atoms_map] at hmany
      exact absurd (hfits.count_lt name) (by omega)
  | ok u walk =>
    rw [hrun] at hcases
    obtain ⟨calls, hcalls, hwalked⟩ := hcases
    have hcounted := hcalls.counted hpoised (counted_empty topology _)
    rw [List.nil_append] at hcounted
    have hapart := (h.namesWithin (spread_root hneat)).apart
    obtain ⟨hfits, s, hdrawn⟩ := hwalked.drawn rfl hapart hcounted
    exact .inr ⟨calls, walk, s, hcalls, hwalked.sane.rooted.toSound, hfits, hdrawn⟩

/-- The walk over a topology that can be read ends well if the numbers suffice. -/
theorem exists_walk_of_affords (topology : UInt32) {spans : SpanStore} {t : Text} {g : Graph}
    {c : Tree Piece} (hspans : spans.Sound) (hg : g.WellFormed) (hneat : Piece.Neat ⟨.root, t⟩)
    (h : Reads [⟨.root, t⟩] c none) (hfits : Affords topology (c.map Piece.text)) :
    ∃ walk, walkTopology topology (spans.add t).1 (spans.add t).2 g = .ok () walk := by
  rcases walkTopology_of_reads topology hspans hg hneat h with
    ⟨_, _, _, hnot⟩ | ⟨calls, walk, s, hcalls, -⟩
  · exact absurd hfits hnot
  · exact ⟨walk, hcalls.walkFrames_eq⟩

/-- A topology whose parts are two names with an arrow between them can be walked. -/
theorem exists_walk_of_two (topology : UInt32) {spans : SpanStore} {t : Text} {g : Graph}
    {x y z : Piece} (hspans : spans.Sound) (hg : g.WellFormed) (htopology : topology ≠ 0)
    (hne : t ≠ []) (htrim : Text.trim t = t)
    (hparts : Piece.parts ⟨.root, t⟩ = .ok [x, y, z])
    (hx : isAtomic x.text = true ∧ ¬ Reserved x.text) (hy : y.text = Mark.arrow.text)
    (hz : isAtomic z.text = true ∧ ¬ Reserved z.text) :
    ∃ walk, walkTopology topology (spans.add t).1 (spans.add t).2 g = .ok () walk := by
  have hneat : Piece.Neat ⟨.root, t⟩ := ⟨hne, htrim ▸ Text.trimmed_trim t⟩
  have hname : ∀ q : Piece, isAtomic q.text = true ∧ ¬ Reserved q.text → Reads [q] (.atom q) none :=
    fun q hq => .name (Piece.parts_of_isAtomic hq.1) hq.1 hq.2
  have hreads := Reads.nest hparts (by rintro _ ⟨⟩) (.arrow (hname x hx) hy (hname z hz))
  refine exists_walk_of_affords topology hspans hg hneat hreads ⟨htopology, fun name => ?_⟩
  exact Nat.lt_of_le_of_lt List.count_le_length (by simp [Tree.followedBy, Tree.map, Tree.atoms])

end StageGraph
