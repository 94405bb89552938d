import Mathlib.Logic.Relation
import Mathlib.Tactic
import StageGraph.Proofs.Graph.Adjacency
import StageGraph.Proofs.Plain.Ordinal
import StageGraph.Proofs.Plain.Reading

set_option autoImplicit false

/-! # One step of the walk

A task is a frame told in pieces instead of spans. One step either fails for a malformed text, or
turns a task into edges and further tasks (`Task.Turns`). `step_cases` says so once for all kinds of
frames, and says when a task that can be read fails nonetheless: only when no ordinal is left.

All else about a step follows from `Task.Turns`:

* no edge is a loop, for the node before a task lies apart from all its pieces (`Turns.ready`);
* a task can be read if the tasks it turns into can (`Turns.reads_back`);
* a task that can be read puts the same edges as these, in the same order (`Turns.reads_forth`).
-/

namespace StageGraph

/-! ## Walkers -/

namespace Walker

/-- The walker's spans come from this root, and its ordinals can go on. -/
structure Sane (walker : Walker) (root : Nat) : Prop where
  rooted : walker.spans.Rooted root
  valid : walker.ordinals.Valid

/-- The walker still knows all it knew before. -/
structure Grows (w w' : Walker) : Prop where
  spans : w.spans.Extends w'.spans
  ordinals : w.ordinals.Grows w'.ordinals

theorem Grows.refl (w : Walker) : w.Grows w := ⟨SpanStore.Extends.refl _, .refl _⟩

theorem Grows.trans {w w' w'' : Walker} (h : w.Grows w') (h' : w'.Grows w'') : w.Grows w'' :=
  ⟨h.spans.trans h'.spans, h.ordinals.trans h'.ordinals⟩

/-- The node that the walker has for the span of a name. -/
structure Names (walker : Walker) (topology : UInt32) (root : Nat) (q : Piece) (n : Node) :
    Prop where
  numbered : ∃ id, walker.spans.idOf? root q.place = some id ∧
    walker.ordinals.HasOrdinal q.text id n.ordinal
  topology_eq : n.topology = topology
  name_eq : n.name = q.text

theorem Names.mono {w w' : Walker} (h : w.Grows w') {topology : UInt32} {root : Nat} {q : Piece}
    {n : Node} (hn : w.Names topology root q n) : w'.Names topology root q n := by
  obtain ⟨id, hid, hordinal⟩ := hn.numbered
  exact ⟨⟨id, h.spans.idOf? hid, hordinal.mono h.ordinals⟩, hn.topology_eq, hn.name_eq⟩

/-- A name has one node. -/
theorem Names.node_unique {w : Walker} {topology : UInt32} {root : Nat} (hw : w.Sane root)
    {q : Piece} {n n' : Node} (h : w.Names topology root q n) (h' : w.Names topology root q n') :
    n = n' := by
  obtain ⟨id, hid, hordinal⟩ := h.numbered
  obtain ⟨id', hid', hordinal'⟩ := h'.numbered
  cases hid.symm.trans hid'
  exact Node.eq_of_parts (h.topology_eq.trans h'.topology_eq.symm)
    (hordinal.ordinal_unique hw.valid hordinal') (h.name_eq.trans h'.name_eq.symm)

/-- A node belongs to one place. -/
theorem Names.place_unique {w : Walker} {topology : UInt32} {root : Nat} (hw : w.Sane root)
    {q q' : Piece} {n : Node} (h : w.Names topology root q n)
    (h' : w.Names topology root q' n) : q.place = q'.place := by
  obtain ⟨id, hid, hordinal⟩ := h.numbered
  obtain ⟨id', hid', hordinal'⟩ := h'.numbered
  rw [← h'.name_eq, h.name_eq] at hordinal'
  cases hordinal.span_unique hw.valid hordinal'
  exact hw.rooted.place_unique hid hid'

theorem Names.ordinal_ne_zero {w : Walker} {topology : UInt32} {root : Nat} (hw : w.Sane root)
    {q : Piece} {n : Node} (h : w.Names topology root q n) : n.ordinal ≠ 0 := by
  obtain ⟨id, -, k, hk, hordinal⟩ := h.numbered
  rw [hordinal]
  intro hzero
  have := congrArg UInt32.toNat hzero
  rw [Ordinals.toNat_ofNat_succ hw.valid hk] at this
  exact Nat.succ_ne_zero k this

theorem Names.ne_start {w : Walker} {topology : UInt32} {root : Nat} (hw : w.Sane root)
    {q : Piece} {n : Node} (h : w.Names topology root q n) : n ≠ .start := by
  rintro rfl
  exact h.ordinal_ne_zero hw rfl

theorem Names.ne_finish {w : Walker} {topology : UInt32} {root : Nat} (hw : w.Sane root)
    {q : Piece} {n : Node} (h : w.Names topology root q n) : n ≠ .finish := by
  rintro rfl
  exact h.ordinal_ne_zero hw rfl

/-- No ordinal is left for the name, which the walker has not met at this span. -/
structure Full (w : Walker) (root : Nat) (q : Piece) (spans : SpanStore) : Prop where
  extends_spans : w.spans.Extends spans
  length_eq : (w.ordinals.metAs q.text).length + 1 = 2 ^ 32
  unmet : ∃ id, spans.idOf? root q.place = some id ∧ id ∉ w.ordinals.metAs q.text

/-- A name gets its node, unless the name is reserved or the numbers do not suffice. -/
theorem nodeOf_cases {w : Walker} (topology : UInt32) {root : Nat} (hw : w.Sane root)
    {part : Span} {q : Piece} (hshown : w.spans.Shows root part q) (hneat : q.Neat) :
    (∃ cause ordinals, w.nodeOf topology part = .error (.malformed cause) ⟨w.spans, ordinals⟩ ∧
      (Reserved q.text ∨ topology = 0 ∨ w.Full root q w.spans)) ∨
    ∃ n ordinals, w.nodeOf topology part = .ok n ⟨w.spans, ordinals⟩ ∧ ¬ Reserved q.text ∧
      (⟨w.spans, ordinals⟩ : Walker).Sane root ∧ w.Grows ⟨w.spans, ordinals⟩ ∧
      (⟨w.spans, ordinals⟩ : Walker).Names topology root q n ∧
      ∀ name id, id ∈ ordinals.metAs name →
        id ∈ w.ordinals.metAs name ∨ (name = q.text ∧ w.spans.idOf? root q.place = some id) := by
  have hall := Ordinals.allocated hw.valid part.text part.id
  unfold nodeOf
  rw [hshown.text_eq] at hall ⊢
  by_cases hres : q.text = Node.startName ∨ q.text = Node.finishName
  · rw [if_pos hres]
    exact .inl ⟨_, _, rfl, .inl hres⟩
  · rw [if_neg hres]
    simp only
    have htrim : Text.trim q.text = q.text := Text.trim_eq_self_of_trimmed hneat.2
    by_cases ht : topology = 0
    · refine .inl ⟨.zeroNumber .topology (Text.trim q.text),
        (w.ordinals.allocate q.text part.id).2, ?_, .inr (.inl ht)⟩
      simp only [Node.ofParts, dif_pos ht]
    by_cases ho : (w.ordinals.allocate q.text part.id).1 = 0
    · refine .inl ⟨.zeroNumber .ordinal (Text.trim q.text),
        (w.ordinals.allocate q.text part.id).2, ?_, .inr (.inr ?_)⟩
      · simp only [Node.ofParts, dif_neg ht, dif_pos ho]
      · obtain ⟨hunmet, hlength⟩ := hall.full ho
        exact ⟨SpanStore.Extends.refl _, hlength, part.id, hshown.id_eq, hunmet⟩
    · have hblank : Text.trim q.text ≠ [] := by
        rw [htrim]
        exact hneat.1
      refine .inr ⟨.stage ⟨topology, (w.ordinals.allocate q.text part.id).1, Text.trim q.text, ht,
        ho, hblank, Text.trimmed_trim _⟩, (w.ordinals.allocate q.text part.id).2, ?_, hres,
        ⟨hw.rooted, hall.valid ho⟩, ⟨SpanStore.Extends.refl _, hall.grows⟩,
        ⟨⟨part.id, hshown.id_eq, hall.hasOrdinal⟩, rfl, htrim⟩, ?_⟩
      · simp only [Node.ofParts, dif_neg ht, dif_neg ho, dif_neg hblank]
      · intro name id hid
        rcases (hall.mem_iff name id).1 hid with hid | ⟨hname, rfl⟩
        · exact .inl hid
        · exact .inr ⟨hname, hshown.id_eq⟩

end Walker

/-! ## Tasks -/

/-- A frame told in pieces; what it leads to at last is always `End`. -/
inductive Task where
  | stages (ps : List Piece) (prev : Node)
  | term (p : Piece) (tail : Option (List Piece)) (prev : Node)

/-- The frame is that of the task. -/
inductive Frame.Shows (store : SpanStore) (root : Nat) : Frame → Task → Prop where
  | stages {terms : List Span} {ps : List Piece} (prev : Node)
      (h : List.Forall₂ (store.Shows root) terms ps) :
      Shows store root (.stages terms prev .finish) (.stages ps prev)
  | term {term : Span} {p : Piece} {tail : Option (List Span)} {tail' : Option (List Piece)}
      (prev : Node) (h : store.Shows root term p)
      (htail : Option.Rel (List.Forall₂ (store.Shows root)) tail tail') :
      Shows store root (.term term tail prev .finish) (.term p tail' prev)

theorem forall₂_shows_mono {s s' : SpanStore} (h : s.Extends s') {root : Nat}
    {terms : List Span} {ps : List Piece} (hs : List.Forall₂ (s.Shows root) terms ps) :
    List.Forall₂ (s'.Shows root) terms ps :=
  hs.imp fun _ _ hp => hp.mono h

theorem option_shows_mono {s s' : SpanStore} (h : s.Extends s') {root : Nat}
    {tail : Option (List Span)} {tail' : Option (List Piece)}
    (hs : Option.Rel (List.Forall₂ (s.Shows root)) tail tail') :
    Option.Rel (List.Forall₂ (s'.Shows root)) tail tail' := by
  cases hs with
  | none => exact .none
  | some hs => exact .some (forall₂_shows_mono h hs)

theorem Frame.Shows.mono {s s' : SpanStore} (h : s.Extends s') {root : Nat} {frame : Frame}
    {task : Task} (hs : frame.Shows s root task) : frame.Shows s' root task := by
  cases hs with
  | stages prev hps => exact .stages prev (forall₂_shows_mono h hps)
  | term prev hp htail => exact .term prev (hp.mono h) (option_shows_mono h htail)

namespace Task

/-- The node before the task. -/
def prev : Task → Node
  | stages _ prev => prev
  | term _ _ prev => prev

/-- The pieces that are still to be walked. -/
def pieces : Task → List Piece
  | stages ps _ => ps
  | term p tail _ => p :: tail.getD []

/-- The term of the task is nothing but this name. -/
def Enters : Task → Piece → Prop
  | stages _ _, _ => False
  | term p _ _, q => p.parts = .ok [q] ∧ isAtomic q.text = true

/-- The pieces of the task spell a tree. -/
def Reads : Task → Tree Piece → Prop
  | stages ps _, t => ∃ s u, StageGraph.Reads ps s u ∧ t = s.followedBy u
  | term p tail _, t => ∃ s u, StageGraph.Reads [p] s none ∧ TailReads tail u ∧ t = s.followedBy u

/-- What a task turns into: edges to be added, and further tasks. -/
inductive Turns (w : Walker) (topology : UInt32) (root : Nat) :
    Task → List (Node × Node) → List Task → Prop where
  /-- The terms of the first stage are taken one by one. -/
  | divide {ps heads : List Piece} {tail : Option (List Piece)} (prev : Node)
      (h : Divides ps heads tail) :
      Turns w topology root (.stages ps prev) [] (heads.map fun p => .term p tail prev)
  /-- A name without stages behind it is entered. -/
  | enter {p q : Piece} {n : Node} (prev : Node) (hparts : p.parts = .ok [q])
      (hatom : isAtomic q.text = true) (hlegal : ¬ Reserved q.text)
      (hn : w.Names topology root q n) :
      Turns w topology root (.term p none prev) [(prev, n), (n, .finish)] []
  /-- A name is entered, and the stages behind it come after its node. -/
  | pass {p q : Piece} {us : List Piece} {n : Node} (prev : Node) (hparts : p.parts = .ok [q])
      (hatom : isAtomic q.text = true) (hlegal : ¬ Reserved q.text)
      (hn : w.Names topology root q n) :
      Turns w topology root (.term p (some us) prev) [(prev, n)] [.stages us n]
  /-- A compound term is replaced by its parts. -/
  | nest {p : Piece} {ps : List Piece} (prev : Node) (hparts : p.parts = .ok ps) (hne : ps ≠ [])
      (hopen : ∀ q, ps = [q] → '(' ∈ q.text) :
      Turns w topology root (.term p none prev) [] [.stages ps prev]
  /-- A compound term is replaced by its parts in front of the stages behind it. -/
  | splice {p : Piece} {ps us : List Piece} (prev : Node) (hparts : p.parts = .ok ps)
      (hne : ps ≠ []) (hopen : ∀ q, ps = [q] → '(' ∈ q.text) :
      Turns w topology root (.term p (some us) prev) [] [.stages (ps ++ Piece.arrow :: us) prev]

/-- The task may be worked on: its pieces lie apart from each other and from what comes before. -/
structure Ready (task : Task) (w : Walker) (topology : UInt32) (root : Nat) : Prop where
  ne_nil : task.pieces ≠ []
  tail_ne_nil : ∀ p us prev, task = .term p (some us) prev → us ≠ []
  spread : Spread task.pieces
  behind : task.prev = .start ∨ ∃ q, Place.Within q.place .root ∧
    w.Names topology root q task.prev ∧ ∀ p ∈ task.pieces, Place.Apart q.place p.place

end Task

/-! ## What one step does -/

/-- What a step leaves behind when it does not fail. -/
structure Stepped (w w' : Walker) (topology : UInt32) (root : Nat) (task : Task) (move : Move)
    (tasks : List Task) : Prop where
  sane : w'.Sane root
  grows : w.Grows w'
  turns : task.Turns w' topology root move.edges tasks
  shown : List.Forall₂ (Frame.Shows w'.spans root) move.frames tasks
  met : ∀ name id, id ∈ w'.ordinals.metAs name → id ∈ w.ordinals.metAs name ∨
    ∃ q, task.Enters q ∧ name = q.text ∧ w'.spans.idOf? root q.place = some id

/-- A step either works, or fails for a malformed text; what could be read only fails for want of
numbers. -/
def StepCases (w : Walker) (topology : UInt32) (root : Nat) (task : Task) :
    EStateM.Result Failure Walker Move → Prop
  | .error failure w' => (∃ cause, failure = .malformed cause) ∧
      ∀ t, task.Reads t → topology = 0 ∨ ∃ q, task.Enters q ∧ w.Full root q w'.spans
  | .ok move w' => ∃ tasks, Stepped w w' topology root task move tasks

theorem stepCases_error {w w' : Walker} {topology : UInt32} {root : Nat} {task : Task}
    (cause : Malformed) (hno : ∀ t, ¬ task.Reads t) :
    StepCases w topology root task (.error (.malformed cause) w') :=
  ⟨⟨cause, rfl⟩, fun t ht => absurd ht (hno t)⟩

theorem stepCases_stages {w : Walker} {topology : UInt32} {root : Nat} {terms : List Span}
    {ps : List Piece} {prev : Node} (hw : w.Sane root)
    (hshown : List.Forall₂ (w.spans.Shows root) terms ps) (hne : ps ≠ []) :
    StepCases w topology root (.stages ps prev) (w.step topology (.stages terms prev .finish)) := by
  have htext : ∀ {span : Span} {p : Piece}, w.spans.Shows root span p → span.text = p.text :=
    fun h => h.text_eq
  unfold Walker.step
  rcases divide_cases htext hshown with ⟨cause, hdiv⟩ | hnil | ⟨d, heads, tail, hdiv, h⟩
  · simp only [hdiv]
    refine ⟨⟨cause, rfl⟩, ?_⟩
    rintro t ⟨s, u, hreads, -⟩
    obtain ⟨d, heads, tail, hok, -⟩ := divide_of_reads htext hshown hreads
    rw [hdiv] at hok
    cases hok
  · exact absurd hnil hne
  · obtain ⟨hdivides, hheads, htail⟩ := h
    simp only [hdiv]
    refine ⟨heads.map fun p => .term p tail prev, hw, .refl w, .divide prev hdivides, ?_,
      fun name id hid => .inl hid⟩
    simp only [List.forall₂_map_left_iff, List.forall₂_map_right_iff]
    exact hheads.imp fun span p hp => .term prev hp htail

theorem stepCases_enterName {w : Walker} {topology : UInt32} {root : Nat} {part : Span}
    {p q : Piece} {tail : Option (List Span)} {tail' : Option (List Piece)} {prev : Node}
    (hw : w.Sane root) (hparts : p.parts = .ok [q]) (hatom : isAtomic q.text = true)
    (hneat : q.Neat) (hshown : w.spans.Shows root part q)
    (htail : Option.Rel (List.Forall₂ (w.spans.Shows root)) tail tail') :
    StepCases w topology root (.term p tail' prev)
      (w.enterName topology part tail prev .finish) := by
  have henters : (Task.term p tail' prev).Enters q := ⟨hparts, hatom⟩
  unfold Walker.enterName
  rcases Walker.nodeOf_cases topology hw hshown hneat with
    ⟨cause, ordinals, hnode, hwhy⟩ | ⟨n, ordinals, hnode, hlegal, hsane, hgrows, hnames, hmet⟩
  · rw [hnode]
    refine ⟨⟨cause, rfl⟩, ?_⟩
    rintro t ⟨s, u, hreads, -, -⟩
    rcases hwhy with hres | hzero | hfull
    · exact absurd hres (reads_of_isAtomic hparts hatom hreads).2
    · exact .inl hzero
    · exact .inr ⟨q, henters, hfull⟩
  · rw [hnode]
    have hmet' : ∀ name id, id ∈ ordinals.metAs name → id ∈ w.ordinals.metAs name ∨
        ∃ r, (Task.term p tail' prev).Enters r ∧ name = r.text ∧
          w.spans.idOf? root r.place = some id := by
      intro name id hid
      rcases hmet name id hid with hold | hnew
      · exact .inl hold
      · exact .inr ⟨q, henters, hnew⟩
    cases htail with
    | none =>
      exact ⟨[], hsane, hgrows, .enter prev hparts hatom hlegal hnames, .nil, hmet'⟩
    | some htail =>
      exact ⟨[.stages _ n], hsane, hgrows, .pass prev hparts hatom hlegal hnames,
        .cons (.stages n htail) .nil, hmet'⟩

/-- What a step does to a walker that has made more spans, it does to the walker. -/
theorem StepCases.of_spans {w : Walker} {topology : UInt32} {root : Nat} {task : Task}
    {spans : SpanStore} (hext : w.spans.Extends spans)
    {result : EStateM.Result Failure Walker Move}
    (h : StepCases { w with spans } topology root task result) :
    StepCases w topology root task result := by
  cases result with
  | error failure w' =>
    refine ⟨h.1, fun t ht => ?_⟩
    rcases h.2 t ht with hzero | ⟨q, henters, hfull⟩
    · exact .inl hzero
    · exact .inr ⟨q, henters, hext.trans hfull.extends_spans, hfull.length_eq, hfull.unmet⟩
  | ok move w' =>
    obtain ⟨tasks, hstep⟩ := h
    exact ⟨tasks, hstep.sane, ⟨hext.trans hstep.grows.spans, hstep.grows.ordinals⟩, hstep.turns,
      hstep.shown, hstep.met⟩

/-- A compound term is replaced by its parts. -/
theorem stepCases_splice {w : Walker} {topology : UInt32} {root : Nat} {p : Piece}
    {parts : List Span} {ps : List Piece} {tail : Option (List Span)}
    {tail' : Option (List Piece)} {prev : Node} (hw : w.Sane root) (hparts : p.parts = .ok ps)
    (hne : ps ≠ []) (hopen : ∀ q, ps = [q] → '(' ∈ q.text)
    (hshown : List.Forall₂ (w.spans.Shows root) parts ps)
    (htail : Option.Rel (List.Forall₂ (w.spans.Shows root)) tail tail')
    (hus : ∀ us, tail' = some us → us ≠ []) :
    StepCases w topology root (.term p tail' prev)
      (.ok ⟨[], [.stages (Walker.splice parts tail) prev .finish]⟩ w) := by
  cases htail with
  | none =>
    exact ⟨[.stages ps prev], hw, .refl w, .nest prev hparts hne hopen,
      .cons (.stages prev hshown) .nil, fun name id hid => .inl hid⟩
  | @some terms us hterms =>
    have hsplice : Walker.splice parts (some terms) = parts ++ SpanStore.arrow :: terms := by
      cases hterms with
      | nil => exact absurd rfl (hus [] rfl)
      | cons _ _ => rfl
    rw [hsplice]
    refine ⟨[.stages (ps ++ Piece.arrow :: us) prev], hw, .refl w,
      .splice prev hparts hne hopen, .cons (.stages prev ?_) .nil, fun name id hid => .inl hid⟩
    exact List.rel_append hshown (.cons (SpanStore.shows_arrow _ _) hterms)

theorem stepCases_enterTerm {w : Walker} {topology : UInt32} {root : Nat} {term : Span}
    {p : Piece} {tail : Option (List Span)} {tail' : Option (List Piece)} {prev : Node}
    (hw : w.Sane root) (hneat : p.Neat) (hshown : w.spans.Shows root term p)
    (htail : Option.Rel (List.Forall₂ (w.spans.Shows root)) tail tail')
    (hus : ∀ us, tail' = some us → us ≠ []) :
    StepCases w topology root (.term p tail' prev)
      (w.enterTerm topology term tail prev .finish) := by
  have hunread : (∀ s, ¬ Reads [p] s none) → ∀ t, ¬ (Task.term p tail' prev).Reads t := by
    rintro hno t ⟨s, u, hreads, -, -⟩
    exact hno s hreads
  unfold Walker.enterTerm
  rcases resolve_of_shows hw.rooted hshown with
    ⟨failure, store', hparts, hres⟩ | ⟨ps, spans, store', hparts, hres, hresolved⟩
  · obtain ⟨cause, rfl⟩ := Piece.parts_error hparts
    rw [hres]
    refine stepCases_error cause (hunread fun s h => ?_)
    cases h with
    | name hparts' _ _ => cases hparts.symm.trans hparts'
    | nest hparts' _ _ => cases hparts.symm.trans hparts'
  · rw [hres]
    have hsane : (⟨store', w.ordinals⟩ : Walker).Sane root := ⟨hresolved.rooted, hw.valid⟩
    have htail' := option_shows_mono hresolved.grows htail
    refine StepCases.of_spans hresolved.grows ?_
    simp only
    have hshown' := hresolved.shown
    -- no part at all, a single one that is a name, compound or neither, and several parts
    match spans, ps, hshown' with
    | [], [], _ =>
      refine stepCases_error _ (hunread fun s h => ?_)
      cases h with
      | name hparts' _ _ => cases hparts.symm.trans hparts'
      | nest hparts' _ h => cases hparts.symm.trans hparts'; exact h.ne_nil rfl
    | [part], [q], .cons hpart .nil =>
      simp only [hpart.text_eq]
      by_cases hatom : isAtomic q.text = true
      · rw [if_pos hatom]
        have hq := neat_of_mem_parts (fun _ => hneat) hparts (List.mem_singleton_self q)
        exact stepCases_enterName hsane hparts hatom hq hpart htail'
      · rw [if_neg hatom]
        by_cases hopen : '(' ∈ q.text
        · rw [if_pos hopen]
          refine stepCases_splice hsane hparts (List.cons_ne_nil _ _) ?_ (.cons hpart .nil)
            htail' hus
          rintro _ ⟨⟩
          exact hopen
        · rw [if_neg hopen]
          exact stepCases_error _ (hunread fun s h =>
            not_reads_of_parts hparts (by simpa using hatom) hopen h)
    | part :: part' :: parts, q :: q' :: ps, hshown' =>
      refine stepCases_splice hsane hparts (List.cons_ne_nil _ _) ?_ hshown' htail' hus
      rintro _ ⟨⟩

theorem neat_arrow : Piece.arrow.Neat := by
  refine ⟨List.cons_ne_nil _ _, ?_, ?_⟩
  · rintro _ ⟨⟩
    rfl
  · rintro _ ⟨⟩
    rfl

/-- Every step does what `StepCases` says. -/
theorem step_cases {w : Walker} {topology : UInt32} {root : Nat} {frame : Frame} {task : Task}
    (hw : w.Sane root) (hshown : frame.Shows w.spans root task)
    (hready : task.Ready w topology root) :
    StepCases w topology root task (w.step topology frame) := by
  cases hshown with
  | stages prev hps => exact stepCases_stages hw hps hready.ne_nil
  | @term term p tail tail' prev hp htail =>
    have hneat : p.Neat := by
      rcases hready.spread.origin p List.mem_cons_self with rfl | ⟨-, hneat⟩
      · exact neat_arrow
      · exact hneat
    refine stepCases_enterTerm hw hneat hp htail ?_
    rintro us rfl
    exact hready.tail_ne_nil p us prev rfl

/-! ## What a turn keeps -/

namespace Task

variable {w w' : Walker} {topology : UInt32} {root : Nat} {task : Task}
  {edges : List (Node × Node)} {tasks : List Task}

theorem Ready.mono (h : w.Grows w') (hready : task.Ready w topology root) :
    task.Ready w' topology root := by
  refine ⟨hready.ne_nil, hready.tail_ne_nil, hready.spread, ?_⟩
  rcases hready.behind with hstart | ⟨q, hwithin, hnames, hapart⟩
  · exact .inl hstart
  · exact .inr ⟨q, hwithin, hnames.mono h, hapart⟩

/-- The node of a name within a term is not the one before the term. -/
theorem Ready.prev_ne {p q : Piece} {tail : Option (List Piece)} {prev n : Node}
    (hw : w.Sane root) (hready : (term p tail prev).Ready w topology root)
    (hwithin : Place.Within q.place p.place) (hn : w.Names topology root q n) : prev ≠ n := by
  rintro rfl
  rcases hready.behind with hstart | ⟨r, -, hr, hapart⟩
  · exact hn.ne_start hw hstart
  · have hne := ((hapart p List.mem_cons_self).within (.refl _) hwithin).ne
    exact hne (hr.place_unique hw hn)

/-- What comes before a task lies apart from all that comes from its pieces, and from arrows. -/
theorem Ready.behind_of_within (hready : task.Ready w topology root) {qs : List Piece}
    (h : ∀ r ∈ qs, r = Piece.arrow ∨ ∃ p ∈ task.pieces, Place.Within r.place p.place) :
    task.prev = .start ∨ ∃ q, Place.Within q.place .root ∧ w.Names topology root q task.prev ∧
      ∀ r ∈ qs, Place.Apart q.place r.place := by
  rcases hready.behind with hstart | ⟨q, hwithin, hnames, hapart⟩
  · exact .inl hstart
  · refine .inr ⟨q, hwithin, hnames, fun r hr => ?_⟩
    rcases h r hr with rfl | ⟨p, hp, hinside⟩
    · exact Place.apart_arrow hwithin
    · exact (hapart p hp).within (.refl _) hinside

/-- The tasks that a task turns into may be worked on, and none of its edges is a loop. -/
theorem Turns.ready (hw : w.Sane root) (hready : task.Ready w topology root)
    (h : task.Turns w topology root edges tasks) :
    (∀ task' ∈ tasks, task'.Ready w topology root) ∧ ∀ e ∈ edges, e.1 ≠ e.2 := by
  cases h with
  | @divide ps heads tail prev hdiv =>
    refine ⟨fun task' htask => ?_, fun e he => absurd he List.not_mem_nil⟩
    obtain ⟨p, hp, rfl⟩ := List.mem_map.1 htask
    have hsub := hdiv.sublist hp
    refine ⟨List.cons_ne_nil _ _, ?_, hready.spread.sublist hsub,
      hready.behind_of_within fun r hr => .inr ⟨r, hsub.subset hr, .refl _⟩⟩
    rintro _ us _ ⟨⟩
    exact hdiv.tail_ne_nil
  | @enter p q n prev hparts hatom hlegal hn =>
    have hinside := (Piece.parts_apart hparts).1 q (List.mem_singleton_self q)
    refine ⟨fun task' htask => absurd htask List.not_mem_nil, ?_⟩
    intro e he
    simp only [List.mem_cons, List.not_mem_nil, or_false] at he
    rcases he with rfl | rfl
    · exact hready.prev_ne hw hinside hn
    · exact hn.ne_finish hw
  | @pass p q us n prev hparts hatom hlegal hn =>
    have hinside := (Piece.parts_apart hparts).1 q (List.mem_singleton_self q)
    have hp : p ≠ Piece.arrow := ne_arrow_of_parts hparts (by rintro _ ⟨⟩; exact .inl hatom)
    refine ⟨?_, ?_⟩
    -- the node of the name now comes before the stages behind it, which lie apart from the name
    · intro task' htask
      rw [List.mem_singleton.1 htask]
      refine ⟨hready.tail_ne_nil p us prev rfl, ?_,
        hready.spread.sublist (List.sublist_cons_self _ _), .inr ⟨q, ?_, hn, ?_⟩⟩
      · rintro _ _ _ ⟨⟩
      · exact hinside.trans (hready.spread.within_head hp).1
      · intro r hr
        exact (hready.spread.apart_head hp hr).within hinside (.refl _)
    · intro e he
      rw [List.mem_singleton.1 he]
      exact hready.prev_ne hw hinside hn
  | @nest p ps prev hparts hne hopen =>
    have hp : p ≠ Piece.arrow := ne_arrow_of_parts hparts fun q hq => .inr (hopen q hq)
    have hinside := (Piece.parts_apart hparts).1
    refine ⟨?_, fun e he => absurd he List.not_mem_nil⟩
    intro task' htask
    rw [List.mem_singleton.1 htask]
    refine ⟨hne, ?_, hready.spread.parts hp hparts,
      hready.behind_of_within fun r hr => .inr ⟨p, List.mem_cons_self, hinside r hr⟩⟩
    rintro _ _ _ ⟨⟩
  | @splice p ps us prev hparts hne hopen =>
    have hp : p ≠ Piece.arrow := ne_arrow_of_parts hparts fun q hq => .inr (hopen q hq)
    have hinside := (Piece.parts_apart hparts).1
    refine ⟨?_, fun e he => absurd he List.not_mem_nil⟩
    intro task' htask
    rw [List.mem_singleton.1 htask]
    refine ⟨List.append_ne_nil_of_left_ne_nil hne _, ?_, hready.spread.splice hp hparts,
      hready.behind_of_within fun r hr => ?_⟩
    · rintro _ _ _ ⟨⟩
    · rcases List.mem_append.1 hr with hr | hr
      · exact .inr ⟨p, List.mem_cons_self, hinside r hr⟩
      · rcases List.mem_cons.1 hr with rfl | hr
        · exact .inl rfl
        · exact .inr ⟨r, List.mem_cons_of_mem _ hr, .refl _⟩

/-! ## What a turn reads -/

theorem exists_headsRead {heads : List Piece} {tail : Option (List Piece)} (prev : Node)
    (hne : heads ≠ []) (h : ∀ p ∈ heads, ∃ t, (term p tail prev).Reads t) :
    ∃ s u, HeadsRead heads s ∧ TailReads tail u := by
  induction heads with
  | nil => exact absurd rfl hne
  | cons p heads ih =>
    obtain ⟨t, s, u, hp, htail, -⟩ := h p List.mem_cons_self
    by_cases hnil : heads = []
    · rw [hnil]
      exact ⟨s, u, .one hp, htail⟩
    · obtain ⟨s', u', hheads, -⟩ := ih hnil fun q hq => h q (List.mem_cons_of_mem _ hq)
      exact ⟨.par s s', u, .more hp hheads, htail⟩

/-- A task can be read if all the tasks can that it turns into. -/
theorem Turns.reads_back (h : task.Turns w topology root edges tasks)
    (hreads : ∀ task' ∈ tasks, ∃ t, task'.Reads t) : ∃ t, task.Reads t := by
  cases h with
  | @divide ps heads tail prev hdiv =>
    have hne : heads ≠ [] := by
      rintro rfl
      cases hdiv
    obtain ⟨s, u, hheads, htail⟩ := exists_headsRead prev hne fun p hp =>
      hreads _ (List.mem_map_of_mem hp)
    exact ⟨s.followedBy u, s, u, reads_of_divides hdiv hheads htail, rfl⟩
  | @enter p q n prev hparts hatom hlegal hn =>
    exact ⟨.atom q, .atom q, none, .name hparts hatom hlegal, .none, rfl⟩
  | @pass p q us n prev hparts hatom hlegal hn =>
    obtain ⟨t, s, u, hus, -⟩ := hreads _ (List.mem_singleton_self _)
    exact ⟨_, .atom q, _, .name hparts hatom hlegal, .some hus, rfl⟩
  | @nest p ps prev hparts hne hopen =>
    obtain ⟨t, s, u, hps, -⟩ := hreads _ (List.mem_singleton_self _)
    exact ⟨_, _, none, .nest hparts hopen hps, .none, rfl⟩
  | @splice p ps us prev hparts hne hopen =>
    obtain ⟨t, s, u, hps, -⟩ := hreads _ (List.mem_singleton_self _)
    obtain ⟨⟨s₁, u₁, h₁⟩, s₂, u₂, h₂⟩ := reads_of_splice hps
    exact ⟨_, _, _, .nest hparts hopen h₁, .some h₂, rfl⟩

/-- The tasks with the trees that they spell, together as much as one tree after one node. -/
structure Spelt (w : Walker) (topology : UInt32) (root : Nat) (t : Tree Piece) (prev : Node)
    (entered : Piece → Prop) (edges : List (Node × Node)) (rs : List (Task × Tree Piece)) :
    Prop where
  reads : ∀ r ∈ rs, r.1.Reads r.2
  mem_atoms : ∀ q, q ∈ t.atoms ↔ entered q ∨ ∃ r ∈ rs, q ∈ r.2.atoms
  named : ∀ q, entered q → ∃ n, w.Names topology root q n
  walk_eq : ∀ ν : Piece → Node, (∀ q n, w.Names topology root q n → ν q = n) →
    (t.map ν).walk .finish none prev =
      edges ++ rs.flatMap fun r => (r.2.map ν).walk .finish none r.1.prev

/-- A single task that spells the tree, or one with the same flat form. -/
theorem spelt_of_flatten_eq (task : Task) {t v : Tree Piece} {entered : Piece → Prop}
    (hreads : task.Reads v) (hflat : v.flatten = t.flatten) (hno : ∀ q, ¬ entered q) :
    Spelt w topology root t task.prev entered [] [(task, v)] where
  reads r hr := by
    rw [List.mem_singleton.1 hr]
    exact hreads
  mem_atoms q := by simp [hno, ← t.atoms_flatten, ← hflat, v.atoms_flatten]
  named q hq := absurd hq (hno q)
  walk_eq ν _ := by
    rw [← Tree.walk_flatten, ← Tree.map_flatten, ← hflat, Tree.map_flatten, Tree.walk_flatten]
    simp

/-- The terms of a stage, each with all that is behind the stage. -/
theorem spelt_heads {heads : List Piece} {tail : Option (List Piece)} {s : Tree Piece}
    {u : Option (Tree Piece)} (prev : Node) (hheads : HeadsRead heads s)
    (htail : TailReads tail u) :
    ∃ rs, rs.map Prod.fst = (heads.map fun p => term p tail prev) ∧
      Spelt w topology root (s.followedBy u) prev (fun _ => False) [] rs := by
  induction hheads with
  | @one p t ht =>
    have hreads : (term p tail prev).Reads (t.followedBy u) := ⟨t, u, ht, htail, rfl⟩
    exact ⟨_, rfl, spelt_of_flatten_eq _ hreads rfl fun _ => id⟩
  | @more p heads t s ht hheads ih =>
    obtain ⟨rs, hrs, h⟩ := ih
    refine ⟨(term p tail prev, t.followedBy u) :: rs, by rw [List.map_cons, hrs]; rfl, ?_, ?_, ?_,
      ?_⟩
    · intro r hr
      rcases List.mem_cons.1 hr with rfl | hr
      · exact ⟨t, u, ht, htail, rfl⟩
      · exact h.reads r hr
    · intro q
      rw [Tree.mem_atoms_followedBy_par, h.mem_atoms]
      simp
    · intro q hq
      exact absurd hq id
    · intro ν hν
      have hrest := h.walk_eq ν hν
      rw [Tree.map_followedBy, List.nil_append] at hrest
      rw [Tree.map_followedBy, Tree.map, Tree.walk_followedBy_par, hrest, List.nil_append,
        List.flatMap_cons, Tree.map_followedBy]
      rfl

theorem not_enters_of_parts {p : Piece} {ps : List Piece} {tail : Option (List Piece)}
    {prev : Node} (hparts : p.parts = .ok ps) (hopen : ∀ q, ps = [q] → '(' ∈ q.text) (q : Piece) :
    ¬ (term p tail prev).Enters q := by
  rintro ⟨hparts', hatom⟩
  cases hparts.symm.trans hparts'
  rw [isAtomic_eq_false_of_mem (hopen q rfl)] at hatom
  cases hatom

theorem enters_iff {p q r : Piece} {tail : Option (List Piece)} {prev : Node}
    (hparts : p.parts = .ok [q]) (hatom : isAtomic q.text = true) :
    (term p tail prev).Enters r ↔ r = q := by
  constructor
  · rintro ⟨hparts', -⟩
    cases hparts.symm.trans hparts'
    rfl
  · rintro rfl
    exact ⟨hparts, hatom⟩

/-- The name that a task enters is an atom of the tree that the task spells. -/
theorem Reads.mem_of_enters {t : Tree Piece} (h : task.Reads t) {q : Piece}
    (hq : task.Enters q) : q ∈ t.atoms := by
  cases task with
  | stages ps prev => exact absurd hq id
  | term p tail prev =>
    obtain ⟨s, u, hp, -, rfl⟩ := h
    obtain ⟨rfl, -⟩ := reads_of_isAtomic hq.1 hq.2 hp
    cases u with
    | none => exact List.mem_singleton_self q
    | some u => exact List.mem_append_left _ (List.mem_singleton_self q)

/-- A task that can be read turns into tasks that can be read, and they put what it puts. -/
theorem Turns.reads_forth (h : task.Turns w topology root edges tasks) {t : Tree Piece}
    (ht : task.Reads t) :
    ∃ rs, rs.map Prod.fst = tasks ∧ Spelt w topology root t task.prev task.Enters edges rs := by
  cases h with
  | @divide ps heads tail prev hdiv =>
    obtain ⟨s, u, hps, rfl⟩ := ht
    obtain ⟨heads', tail', hdiv', hheads, htail⟩ := hps.divides
    obtain ⟨rfl, rfl⟩ := hdiv.unique hdiv'
    exact spelt_heads prev hheads htail
  | @enter p q n prev hparts hatom hlegal hn =>
    obtain ⟨s, u, hp, htail, rfl⟩ := ht
    obtain ⟨rfl, -⟩ := reads_of_isAtomic hparts hatom hp
    cases htail
    refine ⟨[], rfl, fun r hr => absurd hr List.not_mem_nil, ?_, ?_, ?_⟩
    · intro r
      rw [enters_iff hparts hatom]
      simp [Tree.followedBy, Tree.atoms]
    · intro r hr
      rw [enters_iff hparts hatom] at hr
      exact ⟨n, hr ▸ hn⟩
    · intro ν hν
      rw [Tree.followedBy, Tree.map, hν q n hn, Tree.walk]
      rfl
  | @pass p q us n prev hparts hatom hlegal hn =>
    obtain ⟨s, u, hp, htail, rfl⟩ := ht
    obtain ⟨rfl, -⟩ := reads_of_isAtomic hparts hatom hp
    cases htail with
    | @some _ s u hus =>
    refine ⟨[(.stages us n, s.followedBy u)], rfl, ?_, ?_, ?_, ?_⟩
    · intro r hr
      rw [List.mem_singleton.1 hr]
      exact ⟨s, u, hus, rfl⟩
    · intro r
      rw [enters_iff hparts hatom]
      simp [Tree.followedBy, Tree.atoms]
    · intro r hr
      rw [enters_iff hparts hatom] at hr
      exact ⟨n, hr ▸ hn⟩
    · intro ν hν
      rw [Tree.followedBy, Tree.map, Tree.map, Tree.walk_seq_atom, hν q n hn]
      simp [Task.prev]
  | @nest p ps prev hparts hne hopen =>
    obtain ⟨t, u, hp, htail, rfl⟩ := ht
    cases htail
    obtain ⟨s, u, hps, rfl⟩ := reads_of_parts hparts hopen hp
    exact ⟨_, rfl, spelt_of_flatten_eq (stages ps prev) ⟨s, u, hps, rfl⟩ rfl
      (not_enters_of_parts hparts hopen)⟩
  | @splice p ps us prev hparts hne hopen =>
    obtain ⟨t, u, hp, htail, rfl⟩ := ht
    cases htail with
    | @some _ s' u' hus =>
    obtain ⟨s, u, hps, rfl⟩ := reads_of_parts hparts hopen hp
    obtain ⟨v, hv, hflat⟩ := hps.splice hus
    exact ⟨_, rfl, spelt_of_flatten_eq (stages (ps ++ Piece.arrow :: us) prev)
      ⟨s, some v, hv, rfl⟩ (Tree.flatten_behind s hflat) (not_enters_of_parts hparts hopen)⟩

end Task

end StageGraph
