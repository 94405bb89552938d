import StageGraph.Graph.Validity
import StageGraph.Proofs.Graph.Adjacency

set_option autoImplicit false

/-! # The search for a cycle

The search of `Graph.validate` finds a cycle whenever there is one, and what it reports is one
(`findCycle_eq_none_iff`, `isRound_of_findCycle`).

The proof keeps the list of the nodes that the search has finished with. It is settled: each node
leads only to nodes that were finished before it, so none of them lies on a cycle. The nodes of the
current path lead one to the next, so an edge back to the path closes a cycle.
-/

namespace StageGraph

namespace Graph

/-- There is an edge from node number `s` to node number `t`. -/
def Leads (g : Graph) (s t : Nat) : Prop := t ∈ g.successorsAt s

/-- No node leads through others back to itself. -/
def Acyclic (g : Graph) : Prop := ∀ n, ¬ Relation.TransGen g.Adjacent n n

/-- Different numbers, each of which leads to the next and the last to the first. -/
def IsRound (g : Graph) : List Nat → Prop
  | [] => False
  | w :: rest => (w :: rest).Nodup ∧ List.IsChain g.Leads (w :: rest ++ [w])

/-! ## Numbers and nodes -/

theorem transGen_leads {g : Graph} (h : g.WellFormed) {a b : Node}
    (hab : Relation.TransGen g.Adjacent a b) :
    ∃ s t, g.nodes[s]? = some a ∧ g.nodes[t]? = some b ∧ Relation.TransGen g.Leads s t := by
  induction hab with
  | single hab =>
    obtain ⟨s, t, hs, ht, hst⟩ := hab
    exact ⟨s, t, hs, ht, .single hst⟩
  | tail _ hbc ih =>
    obtain ⟨s, t, hs, ht, hst⟩ := ih
    obtain ⟨t', u, ht', hu, htu⟩ := hbc
    rw [number_unique h ht' ht] at htu
    exact ⟨s, u, hs, hu, hst.tail htu⟩

theorem transGen_adjacent {g : Graph} (h : g.WellFormed) {s t : Nat}
    (hst : Relation.TransGen g.Leads s t) :
    ∃ a b, g.nodes[s]? = some a ∧ g.nodes[t]? = some b ∧ Relation.TransGen g.Adjacent a b := by
  induction hst with
  | single hst =>
    obtain ⟨hs, ht⟩ := lt_of_mem_successorsAt h hst
    obtain ⟨a, ha⟩ := exists_node hs
    obtain ⟨b, hb⟩ := exists_node ht
    exact ⟨a, b, ha, hb, .single ⟨_, _, ha, hb, hst⟩⟩
  | tail _ htu ih =>
    obtain ⟨a, b, ha, hb, hab⟩ := ih
    obtain ⟨c, hc⟩ := exists_node (lt_of_mem_successorsAt h htu).2
    exact ⟨a, c, ha, hc, hab.tail ⟨_, _, hb, hc, htu⟩⟩

theorem acyclic_iff_leads {g : Graph} (h : g.WellFormed) :
    g.Acyclic ↔ ∀ s, ¬ Relation.TransGen g.Leads s s := by
  constructor
  · intro hac s hs
    obtain ⟨a, b, ha, hb, hab⟩ := transGen_adjacent h hs
    rw [ha] at hb
    cases hb
    exact hac a hab
  · intro hac n hn
    obtain ⟨s, t, hs, ht, hst⟩ := transGen_leads h hn
    rw [number_unique h hs ht] at hst
    exact hac t hst

theorem transGen_of_isChain {g : Graph} {a b : Nat} {l : List Nat}
    (h : List.IsChain g.Leads (a :: l ++ [b])) : Relation.TransGen g.Leads a b := by
  induction l generalizing a with
  | nil => exact .single (by simpa using h)
  | cons c l ih =>
    rw [List.cons_append, List.cons_append, List.isChain_cons_cons] at h
    exact .head h.1 (ih h.2)

/-- An acyclic graph has no round. -/
theorem not_isRound_of_acyclic {g : Graph} (h : g.WellFormed) (hac : g.Acyclic) (l : List Nat) :
    ¬ g.IsRound l := by
  cases l with
  | nil => exact id
  | cons w rest =>
    rintro ⟨-, hchain⟩
    exact (acyclic_iff_leads h).1 hac w (transGen_of_isChain hchain)

/-! ## Finished nodes -/

/-- The nodes that the search has finished with, the last one first: each leads only to nodes
behind it. -/
inductive Settled (g : Graph) : List Nat → Prop where
  | nil : Settled g []
  | cons {v : Nat} {done : List Nat} (fresh : v ∉ done) (closed : ∀ w, g.Leads v w → w ∈ done)
      (rest : Settled g done) : Settled g (v :: done)

theorem Settled.leads_mem {g : Graph} {done : List Nat} (h : g.Settled done) {v w : Nat}
    (hv : v ∈ done) (hvw : Relation.TransGen g.Leads v w) : w ∈ done ∧ w ≠ v := by
  induction h generalizing v with
  | nil => cases hv
  | @cons u done fresh closed _ ih =>
    rcases List.mem_cons.1 hv with rfl | hv
    · -- the successors of `v` are behind it, and so is all they lead to
      have hw : w ∈ done := by
        obtain ⟨x, hvx, hxw⟩ := Relation.TransGen.head'_iff.1 hvw
        rcases Relation.reflTransGen_iff_eq_or_transGen.1 hxw with hxw | hxw
        · exact closed w (hxw ▸ hvx)
        · exact (ih (closed x hvx) hxw).1
      exact ⟨List.mem_cons_of_mem _ hw, fun hwv => fresh (hwv ▸ hw)⟩
    · obtain ⟨hw, hne⟩ := ih hv hvw
      exact ⟨List.mem_cons_of_mem _ hw, hne⟩

/-! ## The current path -/

/-- What is still to be looked at from each node of the path covers its successors: the others are
finished, or the next node of the path. -/
def Covers (g : Graph) (done : List Nat) : Option Nat → SearchPath → Prop
  | _, [] => True
  | next, (v, rest) :: path =>
    (∀ w, g.Leads v w → w ∈ done ∨ w ∈ rest ∨ next = some w) ∧ (∀ w ∈ rest, g.Leads v w) ∧
      (∀ w ∈ next, g.Leads v w) ∧ Covers g done (some v) path

theorem Covers.mono {g : Graph} {done done' : List Nat} (hsub : ∀ w ∈ done, w ∈ done')
    {next : Option Nat} {path : SearchPath} (h : g.Covers done next path) :
    g.Covers done' next path := by
  induction path generalizing next with
  | nil => trivial
  | cons entry path ih =>
    obtain ⟨v, rest⟩ := entry
    obtain ⟨hcov, hrest, hnext, hpath⟩ := h
    refine ⟨fun w hw => ?_, hrest, hnext, ih hpath⟩
    rcases hcov w hw with hd | hr
    · exact Or.inl (hsub w hd)
    · exact Or.inr hr

/-- Along the path each node leads to the one after it. -/
theorem Covers.isChain {g : Graph} {done : List Nat} {next : Option Nat} {path : SearchPath}
    (h : g.Covers done next path) :
    List.IsChain (fun a b => g.Leads b a) (next.toList ++ path.map Prod.fst) := by
  induction path generalizing next with
  | nil => cases next <;> simp
  | cons entry path ih =>
    obtain ⟨v, rest⟩ := entry
    obtain ⟨-, -, hnext, hpath⟩ := h
    have hv : List.IsChain (fun a b => g.Leads b a) (v :: path.map Prod.fst) := ih hpath
    cases next with
    | none => exact hv
    | some w =>
      show List.IsChain (fun a b => g.Leads b a) (w :: v :: path.map Prod.fst)
      exact List.isChain_cons_cons.2 ⟨hnext w rfl, hv⟩

/-- What the search keeps: the marks say which nodes are finished and which are on the path. -/
structure Searching (g : Graph) (marks : Array Visit) (path : SearchPath) (done : List Nat) :
    Prop where
  size : marks.size = g.nodeCount
  finished_iff : ∀ v : Nat, marks[v]? = some .finished ↔ v ∈ done
  onPath_iff : ∀ v : Nat, marks[v]? = some .onPath ↔ v ∈ path.map Prod.fst
  nodup : (path.map Prod.fst).Nodup
  settled : g.Settled done
  covers : g.Covers done none path

/-- Finishing with the last node of the path. -/
theorem Searching.finish {g : Graph} {marks : Array Visit} {path : SearchPath} {done : List Nat}
    {v : Nat} (h : Searching g marks ((v, []) :: path) done) :
    Searching g (marks.setIfInBounds v .finished) path (v :: done) := by
  have hv : marks[v]? = some .onPath := (h.onPath_iff v).2 (by simp)
  obtain ⟨hlt, -⟩ := Array.getElem?_eq_some_iff.1 hv
  have hfresh : v ∉ done := by
    intro hd
    rw [(h.finished_iff v).2 hd] at hv
    cases hv
  have hnodup := List.nodup_cons.1 h.nodup
  obtain ⟨hcov, -, -, hpath⟩ := h.covers
  refine ⟨by simp [h.size], fun u => ?_, fun u => ?_, hnodup.2, .cons hfresh ?_ h.settled, ?_⟩
  · rw [Array.getElem?_setIfInBounds]
    by_cases hu : v = u
    · simp [hu, hu ▸ hlt]
    · rw [if_neg hu, h.finished_iff, List.mem_cons]
      simp [Ne.symm hu]
  · rw [Array.getElem?_setIfInBounds]
    by_cases hu : v = u
    · subst hu
      simp [hlt, hnodup.1]
    · rw [if_neg hu, h.onPath_iff]
      simp [Ne.symm hu]
  · intro w hw
    rcases hcov w hw with hd | hr | hn
    · exact hd
    · cases hr
    · cases hn
  · -- the node before `v` on the path has `v` among the finished ones from now on
    cases path with
    | nil => trivial
    | cons entry path =>
      obtain ⟨u, rest⟩ := entry
      obtain ⟨hcov', hrest, hnext, hpath'⟩ := hpath
      refine ⟨fun w hw => ?_, hrest, by simp,
        hpath'.mono fun w hw => List.mem_cons_of_mem _ hw⟩
      rcases hcov' w hw with hd | hr | hn
      · exact Or.inl (List.mem_cons_of_mem _ hd)
      · exact Or.inr (Or.inl hr)
      · cases hn
        exact Or.inl List.mem_cons_self

/-- A node that has not been reached joins the path: no other mark changes. -/
theorem Searching.marks_enter {g : Graph} {marks : Array Visit} {path : SearchPath}
    {done : List Nat} {w : Nat} (h : Searching g marks path done)
    (hw : marks[w]? = some .unseen) :
    (∀ u : Nat, (marks.setIfInBounds w .onPath)[u]? = some .finished ↔ u ∈ done) ∧
      ∀ u : Nat, (marks.setIfInBounds w .onPath)[u]? = some .onPath ↔
        u = w ∨ u ∈ path.map Prod.fst := by
  obtain ⟨hlt, -⟩ := Array.getElem?_eq_some_iff.1 hw
  have hfresh : w ∉ done := by
    intro hd
    rw [(h.finished_iff w).2 hd] at hw
    cases hw
  constructor
  · intro u
    rw [Array.getElem?_setIfInBounds]
    by_cases hu : w = u
    · subst hu
      simp [hlt, hfresh]
    · rw [if_neg hu, h.finished_iff]
  · intro u
    rw [Array.getElem?_setIfInBounds]
    by_cases hu : w = u
    · subst hu
      simp [hlt]
    · rw [if_neg hu, h.onPath_iff, or_iff_right (Ne.symm hu)]

/-- Going on to a node that the search has not reached before. -/
theorem Searching.enter {g : Graph} {marks : Array Visit} {path : SearchPath} {done : List Nat}
    {v w : Nat} {rest : List Nat} (h : Searching g marks ((v, w :: rest) :: path) done)
    (hw : marks[w]? = some .unseen) :
    Searching g (marks.setIfInBounds w .onPath) ((w, g.successorsAt w) :: (v, rest) :: path)
      done := by
  obtain ⟨hfinished, honPath⟩ := h.marks_enter hw
  have hfresh : w ∉ ((v, w :: rest) :: path).map Prod.fst := by
    intro hmem
    rw [(h.onPath_iff w).2 hmem] at hw
    cases hw
  obtain ⟨hcov, hrest, -, hpath⟩ := h.covers
  refine ⟨by simp [h.size], hfinished, fun u => (honPath u).trans List.mem_cons.symm,
    List.nodup_cons.2 ⟨hfresh, h.nodup⟩, h.settled, fun u hu => Or.inr (Or.inl hu),
    fun u hu => hu, by simp, fun u hu => ?_, fun u hu => hrest u (List.mem_cons_of_mem _ hu), ?_,
    hpath⟩
  · rcases hcov u hu with hd | hr | hn
    · exact Or.inl hd
    · rcases List.mem_cons.1 hr with rfl | hr
      · exact Or.inr (Or.inr rfl)
      · exact Or.inr (Or.inl hr)
    · cases hn
  · intro u hu
    cases hu
    exact hrest w List.mem_cons_self

/-- Passing over a node that the search has finished with. -/
theorem Searching.skip {g : Graph} {marks : Array Visit} {path : SearchPath} {done : List Nat}
    {v w : Nat} {rest : List Nat} (h : Searching g marks ((v, w :: rest) :: path) done)
    (hw : w ∈ done) : Searching g marks ((v, rest) :: path) done := by
  obtain ⟨hcov, hrest, -, hpath⟩ := h.covers
  refine ⟨h.size, h.finished_iff, h.onPath_iff, h.nodup, h.settled, fun u hu => ?_,
    fun u hu => hrest u (List.mem_cons_of_mem _ hu), by simp, hpath⟩
  rcases hcov u hu with hd | hr | hn
  · exact Or.inl hd
  · rcases List.mem_cons.1 hr with rfl | hr
    · exact Or.inl hw
    · exact Or.inr (Or.inl hr)
  · cases hn

theorem exists_append_takeWhile_ne {w : Nat} {l : List Nat} (h : w ∈ l) :
    ∃ after, l = l.takeWhile (· ≠ w) ++ w :: after := by
  induction l with
  | nil => cases h
  | cons v l ih =>
    by_cases hv : v = w
    · subst hv
      exact ⟨l, by simp⟩
    · obtain ⟨after, hafter⟩ := ih ((List.mem_cons.1 h).resolve_left (Ne.symm hv))
      refine ⟨after, ?_⟩
      rw [List.takeWhile_cons_of_pos (by simpa using hv), List.cons_append, ← hafter]

/-- An edge back to the path closes a round. -/
theorem Searching.isRound {g : Graph} {marks : Array Visit} {path : SearchPath} {done : List Nat}
    {v w : Nat} {rest : List Nat} (h : Searching g marks ((v, w :: rest) :: path) done)
    (hw : marks[w]? = some .onPath) :
    g.IsRound (SearchPath.since w ((v, rest) :: path)) := by
  have hmem : w ∈ v :: path.map Prod.fst := (h.onPath_iff w).1 hw
  have hchain : List.IsChain (fun a b => g.Leads b a) (w :: v :: path.map Prod.fst) :=
    List.isChain_cons_cons.2 ⟨h.covers.2.1 w List.mem_cons_self, h.covers.isChain⟩
  have hnodup : (v :: path.map Prod.fst).Nodup := h.nodup
  -- the nodes of the path behind `w`, the last of which leads to `w`
  obtain ⟨before, hbefore⟩ := exists_append_takeWhile_ne hmem
  set behind := (v :: path.map Prod.fst).takeWhile (· ≠ w) with hbehind
  rw [hbefore] at hchain hnodup
  show (w :: behind.reverse).Nodup ∧ List.IsChain g.Leads (w :: behind.reverse ++ [w])
  constructor
  · have hd : (behind ++ [w]).Nodup :=
      hnodup.sublist ((List.Sublist.refl _).append (List.singleton_sublist.2 List.mem_cons_self))
    simpa using List.nodup_reverse.2 hd
  · have hc : List.IsChain (fun a b => g.Leads b a) (w :: behind ++ [w]) := by
      have hpre : w :: behind ++ [w] <+: w :: (behind ++ w :: before) :=
        ⟨before, by simp⟩
      exact hchain.prefix hpre
    have hr := List.isChain_reverse.2 hc
    simpa using hr

/-! ## The whole search -/

/-- What following a path may come to: all its nodes are finished, or a round was met. -/
def Explored (g : Graph) (path : SearchPath) (done : List Nat) :
    Except (List Nat) (Array Visit) → Prop
  | .ok marks => ∃ done', Searching g marks [] done' ∧ (∀ v ∈ done, v ∈ done') ∧
      ∀ v ∈ path.map Prod.fst, v ∈ done'
  | .error cycle => g.IsRound cycle

theorem Explored.of_more {g : Graph} {path path' : SearchPath} {done done' : List Nat}
    {result : Except (List Nat) (Array Visit)} (h : Explored g path' done' result)
    (hdone : ∀ v ∈ done, v ∈ done')
    (hpath : ∀ v ∈ path.map Prod.fst, v ∈ done' ∨ v ∈ path'.map Prod.fst) :
    Explored g path done result := by
  cases result with
  | error cycle => exact h
  | ok marks =>
    obtain ⟨last, hs, hd, hp⟩ := h
    refine ⟨last, hs, fun v hv => hd v (hdone v hv), fun v hv => ?_⟩
    rcases hpath v hv with hv | hv
    · exact hd v hv
    · exact hp v hv

theorem explored_explore {g : Graph} (hg : g.WellFormed) {marks : Array Visit} {path : SearchPath}
    {done : List Nat} (h : Searching g marks path done) :
    Explored g path done (g.explore marks path) := by
  induction marks, path using explore.induct g generalizing done with
  | case1 marks =>
    rw [explore]
    exact ⟨done, h, fun _ hv => hv, by simp⟩
  | case2 marks v path ih =>
    rw [explore]
    refine (ih h.finish).of_more (fun u hu => List.mem_cons_of_mem _ hu) fun u hu => ?_
    rcases List.mem_cons.1 hu with rfl | hu
    · exact Or.inl List.mem_cons_self
    · exact Or.inr hu
  | case3 marks v w rest path hw ih =>
    have heq : g.explore marks ((v, w :: rest) :: path) = g.explore
        (marks.setIfInBounds w .onPath) ((w, g.successorsAt w) :: (v, rest) :: path) := by
      rw [explore]
      split <;> simp_all
    rw [heq]
    exact (ih (h.enter hw)).of_more (fun u hu => hu)
      fun u hu => Or.inr (List.mem_cons_of_mem _ hu)
  | case4 marks v w rest path hw =>
    have heq : g.explore marks ((v, w :: rest) :: path) =
        .error (SearchPath.since w ((v, rest) :: path)) := by
      rw [explore]
      split <;> simp_all
    rw [heq]
    exact h.isRound hw
  | case5 marks v w rest path hw ih =>
    have heq : g.explore marks ((v, w :: rest) :: path) = g.explore marks ((v, rest) :: path) := by
      rw [explore]
      split <;> simp_all
    rw [heq]
    exact (ih (h.skip ((h.finished_iff w).1 hw))).of_more (fun u hu => hu) fun u hu => Or.inr hu
  | case6 marks v w rest path hw ih =>
    -- every successor is a node of the graph
    have hlt := (lt_of_mem_successorsAt hg (h.covers.2.1 w List.mem_cons_self)).2
    rw [Array.getElem?_eq_none_iff, h.size] at hw
    exact absurd hlt (Nat.not_lt.2 hw)

/-- Starting from a node that the search has not reached. -/
theorem Searching.start {g : Graph} {marks : Array Visit} {done : List Nat} {root : Nat}
    (h : Searching g marks [] done) (hroot : marks[root]? = some .unseen) :
    Searching g (marks.setIfInBounds root .onPath) [(root, g.successorsAt root)] done := by
  obtain ⟨hfinished, honPath⟩ := h.marks_enter hroot
  refine ⟨by simp [h.size], hfinished, fun u => (honPath u).trans List.mem_cons.symm, by simp,
    h.settled, fun u hu => Or.inr (Or.inl hu), fun u hu => hu, by simp, trivial⟩

/-- What searching from some roots may come to: they are all finished, or a round was met. -/
def Searched (g : Graph) (roots done : List Nat) : Option (List Nat) → Prop
  | none => ∃ done', g.Settled done' ∧ (∀ v ∈ done, v ∈ done') ∧
      ∀ r ∈ roots, r < g.nodeCount → r ∈ done'
  | some cycle => g.IsRound cycle

theorem searched_findCycleFrom {g : Graph} (hg : g.WellFormed) (roots : List Nat)
    {marks : Array Visit} {done : List Nat} (h : Searching g marks [] done) :
    Searched g roots done (g.findCycleFrom roots marks) := by
  induction roots generalizing marks done with
  | nil => exact ⟨done, h.settled, fun _ hv => hv, by simp⟩
  | cons root roots ih =>
    -- once `root` is finished, the other roots remain
    have hnext : ∀ {marks' : Array Visit} {done' : List Nat}, Searching g marks' [] done' →
        (∀ v ∈ done, v ∈ done') → (root < g.nodeCount → root ∈ done') →
        Searched g (root :: roots) done (g.findCycleFrom roots marks') := by
      intro marks' done' hs hdone hroot
      have hrest := ih hs
      cases hres : g.findCycleFrom roots marks' with
      | some cycle =>
        rw [hres] at hrest
        exact hrest
      | none =>
        rw [hres] at hrest
        obtain ⟨last, hsettled, hsub, hroots⟩ := hrest
        refine ⟨last, hsettled, fun v hv => hsub v (hdone v hv), fun r hr hlt => ?_⟩
        rcases List.mem_cons.1 hr with rfl | hr
        · exact hsub r (hroot hlt)
        · exact hroots r hr hlt
    rw [findCycleFrom]
    by_cases hroot : marks[root]? = some .unseen
    · rw [if_pos hroot]
      have hspec := explored_explore hg (h.start hroot)
      cases hres : g.explore (marks.setIfInBounds root .onPath) [(root, g.successorsAt root)] with
      | error cycle =>
        rw [hres] at hspec
        exact hspec
      | ok marks' =>
        rw [hres] at hspec
        obtain ⟨done', hs, hdone, hpath⟩ := hspec
        exact hnext hs hdone fun _ => hpath root (by simp)
    · rw [if_neg hroot]
      refine hnext h (fun _ hv => hv) fun hlt => ?_
      -- a node that is neither unseen nor on the path is finished
      obtain ⟨mark, hmark⟩ : ∃ mark, marks[root]? = some mark :=
        ⟨_, Array.getElem?_eq_getElem (by rw [h.size]; exact hlt)⟩
      cases mark with
      | unseen => exact absurd hmark hroot
      | onPath => exact absurd ((h.onPath_iff root).1 hmark) (by simp)
      | finished => exact (h.finished_iff root).1 hmark

/-- The search answers with a round, or there is none. -/
theorem searched_findCycle {g : Graph} (hg : g.WellFormed) :
    Searched g (List.range g.nodeCount) [] g.findCycle := by
  have hstart : Searching g (Array.replicate g.nodeCount .unseen) [] [] := by
    refine ⟨by simp, fun v => ?_, fun v => ?_, by simp, .nil, trivial⟩
    · simp [Array.getElem?_replicate]
    · simp [Array.getElem?_replicate]
  have hspec := searched_findCycleFrom hg
    ((g.index[Node.start]?).toList ++ List.range g.nodeCount) hstart
  show Searched g (List.range g.nodeCount) [] (g.findCycleFrom _ _)
  cases hres : g.findCycleFrom ((g.index[Node.start]?).toList ++ List.range g.nodeCount)
      (Array.replicate g.nodeCount .unseen) with
  | some cycle =>
    rw [hres] at hspec
    exact hspec
  | none =>
    rw [hres] at hspec
    obtain ⟨done, hsettled, hsub, hroots⟩ := hspec
    exact ⟨done, hsettled, hsub, fun r hr => hroots r (List.mem_append_right _ hr)⟩

theorem isRound_of_findCycle {g : Graph} (hg : g.WellFormed) {cycle : List Nat}
    (h : g.findCycle = some cycle) : g.IsRound cycle := by
  have := searched_findCycle hg
  rwa [h] at this

/-- The search finds a cycle exactly when there is one. -/
theorem findCycle_eq_none_iff {g : Graph} (hg : g.WellFormed) :
    g.findCycle = none ↔ g.Acyclic := by
  constructor
  · intro h
    have hspec := searched_findCycle hg
    rw [h] at hspec
    obtain ⟨done, hsettled, -, hroots⟩ := hspec
    refine (acyclic_iff_leads hg).2 fun s hs => ?_
    have hlt : s < g.nodeCount := by
      obtain ⟨a, b, ha, -, -⟩ := transGen_adjacent hg hs
      exact (Array.getElem?_eq_some_iff.1 ha).1
    have hmem : s ∈ done := hroots s (List.mem_range.2 hlt) hlt
    exact (hsettled.leads_mem hmem hs).2 rfl
  · intro hac
    cases h : g.findCycle with
    | none => rfl
    | some cycle => exact absurd (isRound_of_findCycle hg h) (not_isRound_of_acyclic hg hac cycle)

/-! ## Ranks

An acyclic graph has a rank that rises along its edges, and a graph with such a rank is acyclic. -/

theorem Settled.idxOf_lt {g : Graph} {done : List Nat} (h : g.Settled done) {v w : Nat}
    (hv : v ∈ done) (hvw : g.Leads v w) : done.idxOf v < done.idxOf w := by
  induction h with
  | nil => cases hv
  | @cons u done fresh closed _ ih =>
    have hne : w ≠ u := by
      rintro rfl
      rcases List.mem_cons.1 hv with rfl | hv
      · exact fresh (closed v hvw)
      · exact fresh (‹g.Settled done›.leads_mem hv (.single hvw)).1
    rw [List.idxOf_cons_ne _ hne.symm]
    rcases List.mem_cons.1 hv with rfl | hv
    · rw [List.idxOf_cons_self]
      exact Nat.succ_pos _
    · by_cases huv : u = v
      · subst huv
        exact absurd hv fresh
      · rw [List.idxOf_cons_ne _ huv]
        exact Nat.succ_lt_succ (ih hv)

theorem exists_rank_leads {g : Graph} (hg : g.WellFormed) (hac : g.Acyclic) :
    ∃ (rank : Nat → Nat) (bound : Nat), ∀ s t, g.Leads s t → rank s < rank t ∧ rank t ≤ bound := by
  have hspec := searched_findCycle hg
  rw [(findCycle_eq_none_iff hg).2 hac] at hspec
  obtain ⟨done, hsettled, -, hroots⟩ := hspec
  refine ⟨done.idxOf, done.length, fun s t hst => ⟨?_, List.idxOf_le_length⟩⟩
  have hs := (lt_of_mem_successorsAt hg hst).1
  exact hsettled.idxOf_lt (hroots s (List.mem_range.2 hs) hs) hst

theorem acyclic_of_rank {g : Graph} (rank : Node → Nat)
    (h : ∀ a b, g.Adjacent a b → rank a < rank b) : g.Acyclic := by
  have hlt : ∀ {a b : Node}, Relation.TransGen g.Adjacent a b → rank a < rank b := by
    intro a b hab
    induction hab with
    | single hab => exact h _ _ hab
    | tail _ hbc ih => exact Nat.lt_trans ih (h _ _ hbc)
  exact fun n hn => Nat.lt_irrefl _ (hlt hn)

theorem exists_rank {g : Graph} (hg : g.WellFormed) (hac : g.Acyclic) :
    ∃ (rank : Node → Nat) (bound : Nat),
      ∀ a b, g.Adjacent a b → rank a < rank b ∧ rank b ≤ bound := by
  obtain ⟨rank, bound, hrank⟩ := exists_rank_leads hg hac
  refine ⟨fun n => rank ((g.index[n]?).getD 0), bound, fun a b hab => ?_⟩
  obtain ⟨s, t, hs, ht, hst⟩ := hab
  simp only [(hg.index_iff a s).2 hs, (hg.index_iff b t).2 ht, Option.getD_some]
  exact hrank s t hst

/-! ## Which graphs are valid -/

theorem nodesAt_ne_nil_of_isRound {g : Graph} (hg : g.WellFormed) {cycle : List Nat}
    (h : g.IsRound cycle) : g.nodesAt cycle ≠ [] := by
  cases cycle with
  | nil => exact h.elim
  | cons w rest =>
    obtain ⟨-, hchain⟩ := h
    obtain ⟨a, b, ha, -, -⟩ := transGen_adjacent hg (transGen_of_isChain hchain)
    exact List.ne_nil_of_mem (mem_nodesAt.2 ⟨w, List.mem_cons_self, ha⟩)

theorem checkAcyclic_eq_ok_iff {g : Graph} (hg : g.WellFormed) :
    g.checkAcyclic = .ok () ↔ g.Acyclic := by
  rw [← findCycle_eq_none_iff hg]
  unfold checkAcyclic
  cases h : g.findCycle with
  | none => simp
  | some cycle =>
    have hne := nodesAt_ne_nil_of_isRound hg (isRound_of_findCycle hg h)
    cases hnodes : g.nodesAt cycle with
    | nil => exact absurd hnodes hne
    | cons first others => simp [hnodes]

theorem any_isFinish_successorsOf {g : Graph} (hg : g.WellFormed) :
    (g.successorsOf .start).any Node.isFinish = true ↔ g.Adjacent .start .finish := by
  rw [List.any_eq_true]
  constructor
  · rintro ⟨n, hn, hfin⟩
    cases n with
    | finish => exact (mem_successorsOf hg).1 hn
    | start => cases hfin
    | stage s => cases hfin
  · intro h
    exact ⟨.finish, (mem_successorsOf hg).2 h, rfl⟩

theorem any_isStart_predecessorsOf {g : Graph} (hg : g.WellFormed) :
    (g.predecessorsOf .finish).any Node.isStart = true ↔ g.Adjacent .start .finish := by
  rw [List.any_eq_true]
  constructor
  · rintro ⟨n, hn, hstart⟩
    cases n with
    | start => exact (mem_predecessorsOf hg).1 hn
    | finish => cases hstart
    | stage s => cases hstart
  · intro h
    exact ⟨.start, (mem_predecessorsOf hg).2 h, rfl⟩

/-- A graph is valid when it has a third node, no edge from `Start` to `End`, and no cycle. -/
theorem validate_eq_ok_iff {g : Graph} (hg : g.WellFormed) :
    g.validate = .ok () ↔ 2 < g.nodeCount ∧ ¬ g.Adjacent .start .finish ∧ g.Acyclic := by
  rw [← checkAcyclic_eq_ok_iff hg, ← any_isFinish_successorsOf hg]
  unfold validate
  split
  · next h => simp [Nat.not_lt.2 h]
  split
  · next h => simp [h]
  split
  · next hsucc hpred =>
    exact absurd ((any_isFinish_successorsOf hg).2 ((any_isStart_predecessorsOf hg).1 hpred)) hsucc
  · next hcount hsucc _ => simp [Nat.lt_of_not_le hcount, hsucc]

theorem validated_eq_ok_iff {g g' : Graph} :
    g.validated = .ok g' ↔ g.validate = .ok () ∧ g' = g := by
  unfold validated
  cases g.validate with
  | error failure => simp [Except.map]
  | ok u => simp [Except.map, eq_comm]

end Graph

end StageGraph
