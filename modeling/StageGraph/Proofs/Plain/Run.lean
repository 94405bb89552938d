import Mathlib.Logic.Relation
import Mathlib.Tactic
import StageGraph.Proofs.Plain.Step

set_option autoImplicit false

/-! # The whole walk

From single steps to runs, each time by induction along `walkFrames`:

* a walk that fails does so for a malformed text, and a walk that ends has only met tasks that can
  be read (`walkFrames_cases`);
* no edge that a walk puts is a loop, whether or not the walk ends (`WalkPuts.ne`);
* a walk over tasks that can be read ends unless the numbers do not suffice, and the edges that it
  puts are, in this order, those of the recursion over the trees that they spell
  (`walkFrames_of_reads`).

All three rest on `Poised.step`, which keeps the frames in line with the tasks that they show. For
the last one has to know which names the walker can have met (`Room`).
-/

namespace StageGraph

/-! ## One round -/

section

variable {topology : UInt32} {frame : Frame} {rest : List Frame} {walk : Walk} {move : Move}
  {failure : Failure} {w : Walker} {g : Graph}

theorem walkFrames_of_step (hstep : walk.walker.step topology frame = .ok move w)
    (hput : Graph.putEdges move.edges walk.graph = .ok () g) :
    walkFrames topology (frame :: rest) walk =
      walkFrames topology (move.frames ++ rest) ⟨w, g⟩ := by
  rw [walkFrames]
  split
  · next hstep' => cases hstep.symm.trans hstep'
  · next hstep' =>
    cases hstep.symm.trans hstep'
    simp only [hput]

theorem walkFrames_of_step_error (hstep : walk.walker.step topology frame = .error failure w) :
    walkFrames topology (frame :: rest) walk = .error failure ⟨w, walk.graph⟩ := by
  rw [walkFrames]
  split
  · next hstep' => cases hstep.symm.trans hstep'; rfl
  · next hstep' => cases hstep.symm.trans hstep'

theorem walkFrames_of_put_error (hstep : walk.walker.step topology frame = .ok move w)
    (hput : Graph.putEdges move.edges walk.graph = .error failure g) :
    walkFrames topology (frame :: rest) walk = .error failure ⟨w, g⟩ := by
  rw [walkFrames]
  split
  · next hstep' => cases hstep.symm.trans hstep'
  · next hstep' =>
    cases hstep.symm.trans hstep'
    simp only [hput]

/-- A walk that ends has done its first round. -/
theorem walkFrames_cons_ok_iff {walk' : Walk} :
    walkFrames topology (frame :: rest) walk = .ok () walk' ↔
      ∃ move w g, walk.walker.step topology frame = .ok move w ∧
        Graph.putEdges move.edges walk.graph = .ok () g ∧
        walkFrames topology (move.frames ++ rest) ⟨w, g⟩ = .ok () walk' := by
  constructor
  · intro h
    cases hstep : walk.walker.step topology frame with
    | error failure w =>
      rw [walkFrames_of_step_error hstep] at h
      cases h
    | ok move w =>
      cases hput : Graph.putEdges move.edges walk.graph with
      | error failure g =>
        rw [walkFrames_of_put_error hstep hput] at h
        cases h
      | ok u g =>
        rw [walkFrames_of_step hstep hput] at h
        exact ⟨move, w, g, rfl, hput, h⟩
  · rintro ⟨move, w, g, hstep, hput, h⟩
    rwa [walkFrames_of_step hstep hput]

end

/-! ## Steps and runs -/

/-- The frames show tasks that the walker is ready for. -/
structure Poised (topology : UInt32) (root : Nat) (w : Walker) (frames : List Frame)
    (tasks : List Task) : Prop where
  sane : w.Sane root
  shown : List.Forall₂ (Frame.Shows w.spans root) frames tasks
  ready : ∀ task ∈ tasks, task.Ready w topology root

section

variable {topology : UInt32} {root : Nat} {w w' : Walker} {frame : Frame} {rest : List Frame}
  {tasks : List Task}

/-- After a step the frames still show tasks that the walker is ready for, and the edges to be added
are no loops. -/
theorem Poised.step {move : Move} (h : Poised topology root w (frame :: rest) tasks)
    (hstep : w.step topology frame = .ok move w') :
    ∃ task more tasks', tasks = task :: more ∧ Stepped w w' topology root task move tasks' ∧
      Poised topology root w' (move.frames ++ rest) (tasks' ++ more) ∧
      ∀ e ∈ move.edges, e.1 ≠ e.2 := by
  obtain ⟨task, more, htask, hmore, rfl⟩ := List.forall₂_cons_left_iff.1 h.shown
  have htask_ready := h.ready task List.mem_cons_self
  have hcases := step_cases h.sane htask htask_ready
  rw [hstep] at hcases
  obtain ⟨tasks', hs⟩ := hcases
  obtain ⟨hready, hloop⟩ := hs.turns.ready hs.sane (htask_ready.mono hs.grows)
  refine ⟨task, more, tasks', rfl, hs, ⟨hs.sane, ?_, ?_⟩, hloop⟩
  · exact List.rel_append hs.shown (hmore.imp fun _ _ hshows => hshows.mono hs.grows.spans)
  · intro task' htask'
    rcases List.mem_append.1 htask' with htask' | htask'
    · exact hready task' htask'
    · exact (h.ready task' (List.mem_cons_of_mem _ htask')).mono hs.grows

/-- A step fails for a malformed text, or for want of numbers. -/
theorem Poised.step_error {failure : Failure} (h : Poised topology root w (frame :: rest) tasks)
    (hstep : w.step topology frame = .error failure w') :
    ∃ task more, tasks = task :: more ∧ (∃ cause, failure = .malformed cause) ∧
      ∀ t, task.Reads t → topology = 0 ∨ ∃ q, task.Enters q ∧ w.Full root q w'.spans := by
  obtain ⟨task, more, htask, hmore, rfl⟩ := List.forall₂_cons_left_iff.1 h.shown
  have hcases := step_cases h.sane htask (h.ready task List.mem_cons_self)
  rw [hstep] at hcases
  exact ⟨task, more, rfl, hcases⟩

end

/-- A walk either works through tasks that can be read, or fails for a malformed text. -/
def RunCases (root : Nat) (tasks : List Task) : EStateM.Result Failure Walk Unit → Prop
  | .error failure _ => ∃ cause, failure = .malformed cause
  | .ok () walk => walk.walker.Sane root ∧ walk.graph.WellFormed ∧
      ∀ task ∈ tasks, ∃ t, task.Reads t

theorem RunCases.imp {root : Nat} {tasks tasks' : List Task}
    {result : EStateM.Result Failure Walk Unit} (h : RunCases root tasks' result)
    (himp : (∀ task ∈ tasks', ∃ t, task.Reads t) → ∀ task ∈ tasks, ∃ t, task.Reads t) :
    RunCases root tasks result := by
  cases result with
  | error failure walk => exact h
  | ok u walk => exact ⟨h.1, h.2.1, himp h.2.2⟩

theorem walkFrames_cases {topology : UInt32} {root : Nat} {frames : List Frame} {walk : Walk}
    {tasks : List Task} (h : Poised topology root walk.walker frames tasks)
    (hg : walk.graph.WellFormed) : RunCases root tasks (walkFrames topology frames walk) := by
  fun_induction walkFrames topology frames walk generalizing tasks with
  | case1 walk =>
    cases h.shown
    exact ⟨h.sane, hg, fun task htask => absurd htask List.not_mem_nil⟩
  | case2 walk frame rest failure w hstep =>
    obtain ⟨task, more, rfl, hmalformed, -⟩ := h.step_error hstep
    exact hmalformed
  | case3 walk frame rest move w hstep failure g hput =>
    obtain ⟨task, more, tasks', rfl, -, -, hloop⟩ := h.step hstep
    obtain ⟨g', hok, -⟩ := Graph.putEdges_ok hg hloop
    rw [hput] at hok
    cases hok
  | case4 walk frame rest move w hstep g hput ih =>
    obtain ⟨task, more, tasks', rfl, hs, hpoised, -⟩ := h.step hstep
    have hg' := (Graph.grown_of_putEdges hg hput).wellFormed
    refine (ih hpoised hg').imp fun hreads task' htask' => ?_
    rcases List.mem_cons.1 htask' with rfl | htask'
    · exact hs.turns.reads_back fun r hr => hreads r (List.mem_append_left _ hr)
    · exact hreads task' (List.mem_append_right _ htask')

/-- The walk over these frames puts an edge from `a` to `b`, however it ends. -/
inductive WalkPuts (topology : UInt32) : List Frame → Walk → Node → Node → Prop where
  | now {frame : Frame} {rest : List Frame} {walk : Walk} {move : Move} {w : Walker} {a b : Node}
      (hstep : walk.walker.step topology frame = .ok move w) (h : (a, b) ∈ move.edges) :
      WalkPuts topology (frame :: rest) walk a b
  | later {frame : Frame} {rest : List Frame} {walk : Walk} {move : Move} {w : Walker} {g : Graph}
      {a b : Node} (hstep : walk.walker.step topology frame = .ok move w)
      (hput : Graph.putEdges move.edges walk.graph = .ok () g)
      (h : WalkPuts topology (move.frames ++ rest) ⟨w, g⟩ a b) :
      WalkPuts topology (frame :: rest) walk a b

/-- No walk puts a loop. -/
theorem WalkPuts.ne {topology : UInt32} {root : Nat} {frames : List Frame} {walk : Walk}
    {a b : Node} (h : WalkPuts topology frames walk a b) {tasks : List Task}
    (hpoised : Poised topology root walk.walker frames tasks) : a ≠ b := by
  induction h generalizing tasks with
  | now hstep h =>
    obtain ⟨_, _, _, _, _, _, hloop⟩ := hpoised.step hstep
    exact hloop _ h
  | later hstep hput h ih =>
    obtain ⟨_, _, _, _, _, hpoised', _⟩ := hpoised.step hstep
    exact ih hpoised'

/-- A walk that ends has added the edges that it put, and no others. -/
theorem adjacent_iff_of_walkFrames {topology : UInt32} {frames : List Frame} {walk walk' : Walk}
    (hg : walk.graph.WellFormed) (hrun : walkFrames topology frames walk = .ok () walk') :
    walk'.graph.WellFormed ∧ ∀ a b, walk'.graph.Adjacent a b ↔
      walk.graph.Adjacent a b ∨ WalkPuts topology frames walk a b := by
  fun_induction walkFrames topology frames walk with
  | case1 walk =>
    cases hrun
    refine ⟨hg, fun a b => (or_iff_left ?_).symm⟩
    rintro ⟨⟩
  | case2 walk frame rest failure w hstep => cases hrun
  | case3 walk frame rest move w hstep failure g hput => cases hrun
  | case4 walk frame rest move w hstep g hput ih =>
    have hgrown := Graph.grown_of_putEdges hg hput
    obtain ⟨hg', hadj⟩ := ih hgrown.wellFormed hrun
    refine ⟨hg', fun a b => ?_⟩
    rw [hadj, hgrown.adjacent_iff, or_assoc]
    refine or_congr_right ⟨?_, ?_⟩
    · rintro (h | h)
      · exact .now hstep h
      · exact .later hstep hput h
    · intro h
      cases h with
      | now hstep' h =>
        cases hstep.symm.trans hstep'
        exact .inl h
      | later hstep' hput' h =>
        cases hstep.symm.trans hstep'
        cases hput.symm.trans hput'
        exact .inr h

/-- The walk over these frames ends, and these edges are put on the way, in this order. -/
inductive WalkCalls (topology : UInt32) :
    List Frame → Walk → List (Node × Node) → Walk → Prop where
  | done (walk : Walk) : WalkCalls topology [] walk [] walk
  | step {frame : Frame} {rest : List Frame} {walk walk' : Walk} {move : Move} {w : Walker}
      {g : Graph} {calls : List (Node × Node)}
      (hstep : walk.walker.step topology frame = .ok move w)
      (hput : Graph.putEdges move.edges walk.graph = .ok () g)
      (h : WalkCalls topology (move.frames ++ rest) ⟨w, g⟩ calls walk') :
      WalkCalls topology (frame :: rest) walk (move.edges ++ calls) walk'

namespace WalkCalls

variable {topology : UInt32} {frames : List Frame} {walk walk' : Walk}
  {calls : List (Node × Node)}

theorem walkFrames_eq (h : WalkCalls topology frames walk calls walk') :
    walkFrames topology frames walk = .ok () walk' := by
  induction h with
  | done walk => rw [walkFrames]
  | step hstep hput h ih => rw [walkFrames_of_step hstep hput, ih]

/-- The graph has got all edges by one call after the other. -/
theorem putEdges_eq (h : WalkCalls topology frames walk calls walk') :
    Graph.putEdges calls walk.graph = .ok () walk'.graph := by
  induction h with
  | done walk => rfl
  | step hstep hput h ih =>
    rw [Graph.putEdges_append, hput]
    exact ih

end WalkCalls

theorem count_map_text (names : List Piece) (name : Text) :
    (names.map Piece.text).count name = (names.filter fun q => q.text = name).length := by
  rw [List.count_eq_countP, List.countP_map, List.countP_eq_length_filter]
  congr 2
  funext q
  simp [beq_eq_decide]

/-- All that the walker has met are some of these names. -/
def Room (w : Walker) (root : Nat) (names : List Piece) : Prop :=
  ∀ name id, id ∈ w.ordinals.metAs name →
    ∃ q ∈ names, q.text = name ∧ w.spans.idOf? root q.place = some id

/-- If no ordinal is left for one of the names, there are `2 ^ 32` names of its text. -/
theorem Room.count_of_full {w : Walker} {root : Nat} {names : List Piece} (hw : w.Sane root)
    (h : Room w root names) {q : Piece} (hq : q ∈ names) {spans : SpanStore}
    (hfull : w.Full root q spans) : 2 ^ 32 ≤ (names.map Piece.text).count q.text := by
  obtain ⟨hext, hlength, id, hid, hunmet⟩ := hfull
  have hnodup : ((id :: w.ordinals.metAs q.text).map some).Nodup :=
    (List.nodup_cons.2 ⟨hunmet, hw.valid.nodup q.text⟩).map (Option.some_injective _)
  have hsub : (id :: w.ordinals.metAs q.text).map some ⊆
      (names.filter fun r => r.text = q.text).map fun r => spans.idOf? root r.place := by
    intro i hi
    obtain ⟨j, hj, rfl⟩ := List.mem_map.1 hi
    rcases List.mem_cons.1 hj with rfl | hj
    · exact List.mem_map.2 ⟨q, by simpa using hq, hid⟩
    · obtain ⟨r, hr, hname, hrid⟩ := h q.text j hj
      exact List.mem_map.2 ⟨r, by simpa using ⟨hr, hname⟩, hext.idOf? hrid⟩
  calc 2 ^ 32 = ((id :: w.ordinals.metAs q.text).map some).length := by simp [hlength]
    _ ≤ (names.filter fun r => r.text = q.text).length := by
      simpa using (hnodup.subperm hsub).length_le
    _ = (names.map Piece.text).count q.text := (count_map_text names q.text).symm

/-- What a walk over these tasks leaves behind when these edges have been put. -/
structure Walked (topology : UInt32) (root : Nat) (names : List Piece)
    (rs : List (Task × Tree Piece)) (w w' : Walker) (calls : List (Node × Node)) : Prop where
  sane : w'.Sane root
  grows : w.Grows w'
  room : Room w' root names
  named : ∀ r ∈ rs, ∀ q ∈ r.2.atoms, ∃ n, w'.Names topology root q n
  calls_eq : ∀ ν : Piece → Node, (∀ q n, w'.Names topology root q n → ν q = n) →
    calls = rs.flatMap fun r => (r.2.map ν).walk .finish none r.1.prev

theorem room_step {topology : UInt32} {root : Nat} {names : List Piece} {w w' : Walker}
    {task : Task} {move : Move} {tasks : List Task}
    (h : Stepped w w' topology root task move tasks) (hroom : Room w root names)
    (henters : ∀ q, task.Enters q → q ∈ names) : Room w' root names := by
  intro name id hid
  rcases h.met name id hid with hold | ⟨q, hq, rfl, hqid⟩
  · obtain ⟨q, hq, hname, hqid⟩ := hroom name id hold
    exact ⟨q, hq, hname, h.grows.spans.idOf? hqid⟩
  · exact ⟨q, henters q hq, rfl, hqid⟩

/-- What the tasks that one task turns into leave behind, the task leaves behind. -/
theorem Walked.of_step {topology : UInt32} {root : Nat} {names : List Piece} {w w' w'' : Walker}
    {task : Task} {t : Tree Piece} {move : Move} {tasks : List Task}
    {rs rs' : List (Task × Tree Piece)} {calls : List (Node × Node)}
    (hstep : Stepped w w' topology root task move tasks)
    (hspelt : Task.Spelt w' topology root t task.prev task.Enters move.edges rs')
    (h : Walked topology root names (rs' ++ rs) w' w'' calls) :
    Walked topology root names ((task, t) :: rs) w w'' (move.edges ++ calls) where
  sane := h.sane
  grows := hstep.grows.trans h.grows
  room := h.room
  named r hr q hq := by
    rcases List.mem_cons.1 hr with rfl | hr
    · rcases (hspelt.mem_atoms q).1 hq with hq | ⟨r, hr, hq⟩
      · obtain ⟨n, hn⟩ := hspelt.named q hq
        exact ⟨n, hn.mono h.grows⟩
      · exact h.named r (List.mem_append_left _ hr) q hq
    · exact h.named r (List.mem_append_right _ hr) q hq
  calls_eq ν hν := by
    rw [h.calls_eq ν hν, List.flatMap_cons, List.flatMap_append,
      hspelt.walk_eq ν fun q n hn => hν q n (hn.mono h.grows), List.append_assoc]

/-- What comes of a walk over tasks that can be read: it fails as malformed for want of numbers, or
it ends and has put the edges of the trees that they spell. -/
def ReadCases (topology : UInt32) (root : Nat) (names : List Piece) (frames : List Frame)
    (rs : List (Task × Tree Piece)) (walk : Walk) : EStateM.Result Failure Walk Unit → Prop
  | .error failure _ => (∃ cause, failure = .malformed cause) ∧
      (topology = 0 ∨ ∃ name, 2 ^ 32 ≤ (names.map Piece.text).count name)
  | .ok () walk' => ∃ calls, WalkCalls topology frames walk calls walk' ∧
      Walked topology root names rs walk.walker walk'.walker calls

theorem walkFrames_of_reads {topology : UInt32} {root : Nat} {frames : List Frame} (walk : Walk)
    {names : List Piece} (rs : List (Task × Tree Piece))
    (hpoised : Poised topology root walk.walker frames (rs.map Prod.fst))
    (hg : walk.graph.WellFormed) (hroom : Room walk.walker root names)
    (hreads : ∀ r ∈ rs, r.1.Reads r.2) (hnames : ∀ r ∈ rs, ∀ q ∈ r.2.atoms, q ∈ names) :
    ReadCases topology root names frames rs walk (walkFrames topology frames walk) := by
  fun_induction walkFrames topology frames walk generalizing rs with
  | case1 walk =>
    obtain rfl : rs = [] := by
      cases rs with
      | nil => rfl
      | cons r rs => cases hpoised.shown
    exact ⟨[], .done walk, hpoised.sane, .refl _, hroom, by simp, fun ν _ => rfl⟩
  | case2 walk frame rest failure w hstep =>
    obtain ⟨task, more, hrs, hmalformed, hwant⟩ := hpoised.step_error hstep
    obtain ⟨⟨_, t⟩, rs, rfl, rfl, rfl⟩ := List.map_eq_cons_iff.1 hrs
    have ht := hreads _ List.mem_cons_self
    refine ⟨hmalformed, (hwant t ht).imp_right ?_⟩
    rintro ⟨q, henters, hfull⟩
    have hq := hnames _ List.mem_cons_self q (ht.mem_of_enters henters)
    exact ⟨q.text, hroom.count_of_full hpoised.sane hq hfull⟩
  | case3 walk frame rest move w hstep failure g hput =>
    obtain ⟨_, _, _, _, _, _, hloop⟩ := hpoised.step hstep
    obtain ⟨g', hok, -⟩ := Graph.putEdges_ok hg hloop
    rw [hput] at hok
    cases hok
  | case4 walk frame rest move w hstep g hput ih =>
    obtain ⟨task, more, tasks', hrs, hs, hpoised', -⟩ := hpoised.step hstep
    obtain ⟨⟨_, t⟩, rs, rfl, rfl, rfl⟩ := List.map_eq_cons_iff.1 hrs
    have ht := hreads _ List.mem_cons_self
    obtain ⟨rs', rfl, hspelt⟩ := hs.turns.reads_forth ht
    have hg' := (Graph.grown_of_putEdges hg hput).wellFormed
    have hatoms := hnames _ List.mem_cons_self
    rw [← List.map_append] at hpoised'
    have hrest := ih (rs' ++ rs) hpoised' hg'
      (room_step hs hroom fun q hq => hatoms q ((hspelt.mem_atoms q).2 (.inl hq)))
      (by
        intro r hr
        rcases List.mem_append.1 hr with hr | hr
        · exact hspelt.reads r hr
        · exact hreads r (List.mem_cons_of_mem _ hr))
      (by
        intro r hr q hq
        rcases List.mem_append.1 hr with hr | hr
        · exact hatoms q ((hspelt.mem_atoms q).2 (.inr ⟨r, hr, hq⟩))
        · exact hnames r (List.mem_cons_of_mem _ hr) q hq)
    cases hrun : walkFrames topology (move.frames ++ rest) ⟨w, g⟩ with
    | error failure walk' =>
      rw [hrun] at hrest
      exact hrest
    | ok u walk' =>
      rw [hrun] at hrest
      obtain ⟨calls, hcalls, hwalked⟩ := hrest
      exact ⟨_, .step hstep hput hcalls, hwalked.of_step hs hspelt⟩

end StageGraph
