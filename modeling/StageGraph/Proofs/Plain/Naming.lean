import Mathlib.Data.List.Nodup
import Mathlib.Tactic
import StageGraph.Proofs.Appearance
import StageGraph.Proofs.Plain.Run

set_option autoImplicit false

/-! # Which node stands for which name

Within a topology the stages of one name are numbered in the order in which the recursion over the
tree first enters them (`Tree.Numbers`). So the nodes of a topology depend on its tree alone
(`Numbers.unique`), and the numbers of a name are those from 1 to the number of its occurrences
(`Numbers.writes`).

That a walk numbers in this way is an invariant of its steps (`Counted`): for each name the nodes
entered so far, each where it comes first, carry the ordinals 1, 2, and so on, up to the number of
spans that the walker has met under the name.
-/

namespace StageGraph

/-! ## Numbers by first visit -/

/-- The nodes that the recursion over a topology comes to, in its order. -/
def Tree.entered (s : Tree Node) : List Node := (s.walk .finish none .start).map Prod.snd

/-- The tree over nodes stands for the tree `e` over names, as topology number `number`. -/
structure Tree.Numbers (s : Tree Node) (number : Nat) (e : Tree Text) : Prop where
  named : s.map Node.name = e
  /-- Every occurrence has a node of its own. -/
  nodup : s.atoms.Nodup
  topology_eq : ∀ n ∈ s.atoms, n.topology.toNat = number
  /-- The ordinal is one more than the number of stages of that name that are entered before. -/
  ordinal_eq : ∀ n ∈ s.atoms, n.ordinal.toNat = 1 + s.atoms.countP fun m =>
    m.name = n.name ∧ s.entered.idxOf m < s.entered.idxOf n

/-- The tree over nodes writes the tree `e` over names, as topology number `number`. -/
structure Tree.Writes (s : Tree Node) (number : Nat) (e : Tree Text) : Prop where
  named : s.map Node.name = e
  nodup : s.atoms.Nodup
  topology_eq : ∀ n ∈ s.atoms, n.topology.toNat = number
  /-- The stages of one name are numbered from 1. -/
  ordinals_iff : ∀ name k, (∃ n ∈ s.atoms, n.name = name ∧ n.ordinal.toNat = k) ↔
    1 ≤ k ∧ k ≤ e.atoms.count name

/-- The stages of this name among the nodes, each where it comes first. -/
def stagesNamed (name : Text) (ns : List Node) : List Node :=
  (ns.filter fun n => n ≠ .finish ∧ n.name = name).eraseDups

theorem mem_stagesNamed {name : Text} {ns : List Node} {n : Node} :
    n ∈ stagesNamed name ns ↔ n ∈ ns ∧ n ≠ .finish ∧ n.name = name := by
  simp [stagesNamed]

theorem nodup_stagesNamed (name : Text) (ns : List Node) : (stagesNamed name ns).Nodup :=
  nodup_eraseDups _

section

variable {s : Tree Node} {number : Nat} {e : Tree Text}

theorem perm_stagesNamed (hnodup : s.atoms.Nodup) (hfinish : Node.finish ∉ s.atoms)
    (name : Text) :
    (stagesNamed name s.entered).Perm (s.atoms.filter fun n => n.name = name) := by
  refine (List.perm_ext_iff_of_nodup (nodup_stagesNamed _ _) (hnodup.filter _)).2 fun n => ?_
  rw [mem_stagesNamed, Tree.entered, Tree.mem_map_snd_walk, List.mem_filter, decide_eq_true_iff]
  constructor
  · rintro ⟨hn | hn, hne, hname⟩
    · exact ⟨hn, hname⟩
    · exact absurd hn hne
  · rintro ⟨hn, hname⟩
    exact ⟨.inl hn, fun heq => hfinish (heq ▸ hn), hname⟩

/-- The place among the stages of a name counts those that are entered before. -/
theorem idxOf_stagesNamed (hnodup : s.atoms.Nodup) (hfinish : Node.finish ∉ s.atoms) {n : Node}
    (hn : n ∈ s.atoms) :
    (stagesNamed n.name s.entered).idxOf n = s.atoms.countP fun m =>
      m.name = n.name ∧ s.entered.idxOf m < s.entered.idxOf n := by
  have hperm := perm_stagesNamed hnodup hfinish n.name
  have hsorted : (stagesNamed n.name s.entered).Pairwise
      fun a b => s.entered.idxOf a < s.entered.idxOf b := by
    rw [stagesNamed, ← filter_eraseDups]
    exact (pairwise_eraseDups _).filter _
  rw [idxOf_eq_countP hsorted (hperm.mem_iff.2 (List.mem_filter.2 ⟨hn, by simp⟩)),
    hperm.countP_eq, List.countP_filter]
  congr 1
  funext m
  simp only [Bool.decide_and, Bool.and_comm]

namespace Tree.Numbers

theorem ne_sentinel (h : s.Numbers number e) (hnumber : number ≠ 0) {n : Node}
    (hn : n ∈ s.atoms) : n ≠ .start ∧ n ≠ .finish := by
  have htopology := h.topology_eq n hn
  constructor
  · rintro rfl
    exact hnumber htopology.symm
  · rintro rfl
    exact hnumber htopology.symm

theorem count_eq (h : s.Numbers number e) (name : Text) :
    e.atoms.count name = (s.atoms.filter fun n => n.name = name).length := by
  rw [← h.named, atoms_map, List.count_eq_countP, List.countP_map, List.countP_eq_length_filter]
  congr 2
  funext n
  simp [beq_eq_decide]

/-- The stages of a name have the ordinals from 1 to their number. -/
theorem writes (h : s.Numbers number e) (hnumber : number ≠ 0) : s.Writes number e := by
  have hfinish : Node.finish ∉ s.atoms := fun hmem => (h.ne_sentinel hnumber hmem).2 rfl
  have hordinal : ∀ n ∈ s.atoms,
      n.ordinal.toNat = 1 + (stagesNamed n.name s.entered).idxOf n := fun n hn => by
    rw [h.ordinal_eq n hn, idxOf_stagesNamed h.nodup hfinish hn]
  refine ⟨h.named, h.nodup, h.topology_eq, fun name k => ?_⟩
  have hperm := perm_stagesNamed h.nodup hfinish name
  have hmem : ∀ {n : Node}, n ∈ stagesNamed name s.entered ↔ n ∈ s.atoms ∧ n.name = name := by
    intro n
    rw [hperm.mem_iff, List.mem_filter, decide_eq_true_iff]
  rw [h.count_eq, ← hperm.length_eq]
  constructor
  · rintro ⟨n, hn, rfl, rfl⟩
    have := List.idxOf_lt_length_of_mem (hmem.2 ⟨hn, rfl⟩)
    rw [hordinal n hn]
    omega
  · rintro ⟨hpos, hle⟩
    obtain ⟨hn, hname⟩ := hmem.1 (List.getElem_mem (show k - 1 < _ by omega))
    refine ⟨_, hn, hname, ?_⟩
    rw [hordinal _ hn, hname, (nodup_stagesNamed _ _).idxOf_getElem]
    omega

end Tree.Numbers

/-! ## The numbers depend on the tree alone -/

theorem entered_map {g : Node → Node} (hstart : g .start = .start) (hfinish : g .finish = .finish)
    (s : Tree Node) : (s.map g).entered = s.entered.map g := by
  have hwalk := Tree.walk_map g .finish s .start
  rw [hstart, hfinish] at hwalk
  rw [Tree.entered, Tree.entered, hwalk, List.map_map, List.map_map]
  rfl

/-- Other nodes come in the same order, so as many of them are entered before. -/
theorem countP_entered_map {g : Node → Node} (hstart : g .start = .start)
    (hfinish : g .finish = .finish) {n : Node}
    (hinj : ∀ m ∈ s.entered, ∀ k ∈ s.atoms, g m = g k → m = k) (hn : n ∈ s.atoms)
    (hname : ∀ m ∈ s.atoms, (g m).name = (g n).name ↔ m.name = n.name) :
    ((s.map g).atoms.countP fun m => m.name = (g n).name ∧
        (s.map g).entered.idxOf m < (s.map g).entered.idxOf (g n)) =
      s.atoms.countP fun m => m.name = n.name ∧ s.entered.idxOf m < s.entered.idxOf n := by
  rw [Tree.atoms_map, List.countP_map, entered_map hstart hfinish]
  refine List.countP_congr fun m hm => ?_
  simp only [Function.comp_apply, decide_eq_true_eq, hname m hm,
    idxOf_map fun k hk => hinj k hk m hm, idxOf_map fun k hk => hinj k hk n hn]

namespace Tree.Numbers

/-- The numbers of a tree do not depend on how its unions and series are nested. -/
theorem flatten (h : s.Numbers number e) : s.flatten.Numbers number e.flatten := by
  have hentered : s.flatten.entered = s.entered := by
    rw [entered, entered, Tree.walk_flatten]
  refine ⟨by rw [Tree.map_flatten, h.named], ?_, ?_, ?_⟩
  · rw [Tree.atoms_flatten]
    exact h.nodup
  · rw [Tree.atoms_flatten]
    exact h.topology_eq
  · rw [Tree.atoms_flatten, hentered]
    exact h.ordinal_eq

/-- Every name has the node that its place in the tree gives it. -/
theorem unique {s' : Tree Node} (h : s.Numbers number e) (h' : s'.Numbers number e)
    (hnumber : number ≠ 0) : s = s' := by
  obtain ⟨g, rfl, hname, hrest⟩ := exists_map_of_map_eq (h.named.trans h'.named.symm) h.nodup
  have hstart : g .start = .start := hrest _ fun hmem => (h.ne_sentinel hnumber hmem).1 rfl
  have hfinish : g .finish = .finish := hrest _ fun hmem => (h.ne_sentinel hnumber hmem).2 rfl
  have hmem : ∀ {n : Node}, n ∈ s.atoms → g n ∈ (s.map g).atoms := fun hn => by
    rw [atoms_map]
    exact List.mem_map_of_mem hn
  have hinj : ∀ m ∈ s.entered, ∀ n ∈ s.atoms, g m = g n → m = n := by
    intro m hm n hn heq
    rcases mem_map_snd_walk.1 hm with hm | rfl
    · exact List.inj_on_of_nodup_map (atoms_map g s ▸ h'.nodup) hm hn heq
    · rw [hfinish] at heq
      exact absurd heq.symm (h'.ne_sentinel hnumber (hmem hn)).2
  refine (map_eq_self fun n hn => ?_).symm
  refine Node.eq_of_parts ?_ ?_ (hname n hn)
  · exact UInt32.toNat_inj.1 ((h'.topology_eq _ (hmem hn)).trans (h.topology_eq n hn).symm)
  · refine UInt32.toNat_inj.1 ?_
    rw [h'.ordinal_eq _ (hmem hn), h.ordinal_eq n hn, countP_entered_map hstart hfinish hinj hn]
    intro m hm
    rw [hname m hm, hname n hn]

end Tree.Numbers

end

/-! ## What a walker has counted -/

/-- The nodes entered so far are numbered as the walker has met their spans. -/
structure Counted (topology : UInt32) (w : Walker) (ns : List Node) : Prop where
  topology_eq : ∀ n ∈ ns, n ≠ .finish → n.topology = topology
  ordinals_eq : ∀ name, (stagesNamed name ns).map (fun n => n.ordinal.toNat) =
    List.range' 1 (w.ordinals.metAs name).length

theorem counted_empty (topology : UInt32) (spans : SpanStore) :
    Counted topology ⟨spans, .empty⟩ [] where
  topology_eq n hn := absurd hn List.not_mem_nil
  ordinals_eq name := by simp [stagesNamed, Ordinals.empty, Ordinals.metAs]

/-- What only `a` can have been added to. -/
theorem eq_or_eq_concat {α : Type} {l l' : List α} {a : α} (hbegin : l <+: l')
    (hnodup : l'.Nodup) (h : ∀ x ∈ l', x ∈ l ∨ x = a) : l' = l ∨ l' = l ++ [a] := by
  obtain ⟨more, rfl⟩ := hbegin
  obtain ⟨-, hmore, hdisjoint⟩ := List.nodup_append'.1 hnodup
  have hall : ∀ x ∈ more, x = a := fun x hx =>
    (h x (List.mem_append_right _ hx)).resolve_left fun hl => hdisjoint hl hx
  match more, hall with
  | [], _ => exact .inl (List.append_nil l)
  | [b], hall => exact .inr (by rw [hall b List.mem_cons_self])
  | b :: c :: more, hall =>
    have hbc : b = c := by rw [hall b (by simp), hall c (by simp)]
    exact absurd (hbc ▸ List.mem_cons_self) (List.nodup_cons.1 hmore).1

section

variable {topology : UInt32} {root : Nat} {w w' : Walker} {ns : List Node}

theorem Counted.le_length (h : Counted topology w ns) {n : Node} (hn : n ∈ ns)
    (hne : n ≠ .finish) : n.ordinal.toNat ≤ (w.ordinals.metAs n.name).length := by
  have hmem : n.ordinal.toNat ∈ (stagesNamed n.name ns).map fun n => n.ordinal.toNat :=
    List.mem_map_of_mem (mem_stagesNamed.2 ⟨hn, hne, rfl⟩)
  rw [h.ordinals_eq, List.mem_range'_1] at hmem
  omega

/-- Every ordinal that has been given belongs to a node that has been entered. -/
theorem Counted.exists_node (h : Counted topology w ns) {name : Text} {k : Nat}
    (hk : k < (w.ordinals.metAs name).length) :
    ∃ n ∈ ns, n ≠ .finish ∧ n.name = name ∧ n.ordinal.toNat = k + 1 := by
  have hmem : k + 1 ∈ (stagesNamed name ns).map fun n => n.ordinal.toNat := by
    rw [h.ordinals_eq, List.mem_range'_1]
    omega
  obtain ⟨n, hn, hordinal⟩ := List.mem_map.1 hmem
  obtain ⟨hn, hne, hname⟩ := mem_stagesNamed.1 hn
  exact ⟨n, hn, hne, hname, hordinal⟩

/-- The ordinal of a node tells how many of its name were entered before. -/
theorem Counted.ordinal_eq (h : Counted topology w ns) {n : Node} (hn : n ∈ ns)
    (hne : n ≠ .finish) : n.ordinal.toNat = 1 + (stagesNamed n.name ns).idxOf n := by
  have hlt := List.idxOf_lt_length_of_mem (mem_stagesNamed.2 ⟨hn, hne, rfl⟩)
  have hget := congrArg (·[(stagesNamed n.name ns).idxOf n]?) (h.ordinals_eq n.name)
  have hlength := congrArg List.length (h.ordinals_eq n.name)
  rw [List.length_map, List.length_range'] at hlength
  simp only [List.getElem?_map, List.getElem?_range' (hlength ▸ hlt),
    List.getElem?_eq_getElem hlt, List.getElem_idxOf] at hget
  simpa using hget

theorem Counted.concat_finish (h : Counted topology w ns) :
    Counted topology w (ns ++ [.finish]) where
  topology_eq n hn hne := by
    rcases List.mem_append.1 hn with hn | hn
    · exact h.topology_eq n hn hne
    · exact absurd (List.mem_singleton.1 hn) hne
  ordinals_eq name := by
    have hsame : stagesNamed name (ns ++ [.finish]) = stagesNamed name ns := by simp [stagesNamed]
    rw [hsame, h.ordinals_eq]

/-- A name is entered: its node has been entered before, or gets the next ordinal. -/
theorem Counted.concat (h : Counted topology w ns) (hw : w'.Sane root) (hgrows : w.Grows w')
    {q : Piece} {n : Node} (hn : w'.Names topology root q n)
    (hmet : ∀ name id, id ∈ w'.ordinals.metAs name → id ∈ w.ordinals.metAs name ∨
      (name = q.text ∧ w'.spans.idOf? root q.place = some id)) :
    Counted topology w' (ns ++ [n]) := by
  have hne : n ≠ .finish := hn.ne_finish hw
  obtain ⟨id, hid, k, hk, hordinal⟩ := hn.numbered
  have hnumber : n.ordinal.toNat = k + 1 := by rw [hordinal, Ordinals.toNat_ofNat_succ hw.valid hk]
  refine ⟨fun m hm hm' => ?_, fun name => ?_⟩
  · rcases List.mem_append.1 hm with hm | hm
    · exact h.topology_eq m hm hm'
    · rw [List.mem_singleton.1 hm, hn.topology_eq]
  by_cases hname : name = q.text
  · subst hname
    have hfilter : (ns ++ [n]).filter (fun m => m ≠ .finish ∧ m.name = q.text) =
        ns.filter (fun m => m ≠ .finish ∧ m.name = q.text) ++ [n] := by
      simp [List.filter_append, hne, hn.name_eq]
    have hmem : n ∈ ns.filter (fun m => m ≠ .finish ∧ m.name = q.text) ↔ n ∈ ns := by
      simp [hne, hn.name_eq]
    rw [stagesNamed, hfilter, eraseDups_concat]
    have hmet' : ∀ i ∈ w'.ordinals.metAs q.text, i ∈ w.ordinals.metAs q.text ∨ i = id := by
      intro i hi
      rcases hmet _ i hi with hold | ⟨-, hnew⟩
      · exact .inl hold
      · exact .inr (Option.some.inj (hnew.symm.trans hid))
    rcases eq_or_eq_concat (hgrows.ordinals q.text) (hw.valid.nodup _) hmet' with heq | heq
    · -- the span has been met, so a node with this ordinal has been entered, and it is `n`
      have hlt : k < (w.ordinals.metAs q.text).length := by
        rw [← heq]
        exact (List.getElem?_eq_some_iff.1 hk).1
      obtain ⟨m, hm, hm', hname, hmnumber⟩ := h.exists_node hlt
      have hmn : m = n := by
        refine Node.eq_of_parts ?_ ?_ ?_
        · rw [h.topology_eq m hm hm', hn.topology_eq]
        · exact UInt32.toNat_inj.1 (hmnumber.trans hnumber.symm)
        · rw [hname, hn.name_eq]
      rw [if_pos (hmem.2 (hmn ▸ hm)), heq]
      exact h.ordinals_eq q.text
    · have hkeq : k = (w.ordinals.metAs q.text).length := by
        have hnodup := hw.valid.nodup q.text
        rw [heq] at hk hnodup
        have hlast : (w.ordinals.metAs q.text ++ [id])[(w.ordinals.metAs q.text).length]? =
            some id := by simp
        exact (List.getElem?_inj (List.getElem?_eq_some_iff.1 hk).1 hnodup).1 (hk.trans hlast.symm)
      have hnew : n ∉ ns := by
        intro hold
        have hle := h.le_length hold hne
        rw [hn.name_eq] at hle
        omega
      rw [if_neg fun hold => hnew (hmem.1 hold), List.map_append, List.map_singleton, heq,
        List.length_append, List.length_singleton, List.range'_1_concat, hnumber, hkeq,
        Nat.add_comm]
      exact congrArg (· ++ _) (h.ordinals_eq q.text)
  · have hsame : stagesNamed name (ns ++ [n]) = stagesNamed name ns := by
      simp [stagesNamed, hn.name_eq, Ne.symm hname]
    have hsub : w'.ordinals.metAs name ⊆ w.ordinals.metAs name := by
      intro i hi
      rcases hmet name i hi with hold | ⟨hq, -⟩
      · exact hold
      · exact absurd hq hname
    have hmetAs := (hgrows.ordinals name).eq_of_length_le
      ((hw.valid.nodup name).subperm hsub).length_le
    rw [hsame, ← hmetAs, h.ordinals_eq]

theorem Counted.of_no_name (h : Counted topology w ns) (hw : w'.Sane root) (hgrows : w.Grows w')
    (hmet : ∀ name id, id ∈ w'.ordinals.metAs name → id ∈ w.ordinals.metAs name) :
    Counted topology w' ns where
  topology_eq := h.topology_eq
  ordinals_eq name := by
    rw [h.ordinals_eq, (hgrows.ordinals name).eq_of_length_le
      ((hw.valid.nodup name).subperm fun i hi => hmet name i hi).length_le]

/-- What a step enters is numbered as it should be. -/
theorem Stepped.counted {task : Task} {move : Move} {tasks : List Task}
    (hs : Stepped w w' topology root task move tasks) (h : Counted topology w ns) :
    Counted topology w' (ns ++ move.edges.map Prod.snd) := by
  have hquiet : (∀ q, ¬ task.Enters q) → Counted topology w' ns := fun hno => by
    refine h.of_no_name hs.sane hs.grows fun name id hid => ?_
    rcases hs.met name id hid with hold | ⟨q, hq, -⟩
    · exact hold
    · exact absurd hq (hno q)
  have hname : ∀ {p q : Piece} {tail : Option (List Piece)} {prev n : Node},
      task = .term p tail prev → p.parts = .ok [q] → isAtomic q.text = true →
      w'.Names topology root q n → Counted topology w' (ns ++ [n]) := by
    intro p q tail prev n htask hparts hatom hn
    refine h.concat hs.sane hs.grows hn fun name id hid => ?_
    rcases hs.met name id hid with hold | ⟨r, hr, hname, hrid⟩
    · exact .inl hold
    · subst htask
      rw [(Task.enters_iff hparts hatom).1 hr] at hname hrid
      exact .inr ⟨hname, hrid⟩
  have hturns := hs.turns
  generalize move.edges = edges at hturns ⊢
  cases hturns with
  | divide prev hdiv => simpa using hquiet fun q hq => hq
  | @enter p q n prev hparts hatom hlegal hn =>
    have := (hname rfl hparts hatom hn).concat_finish
    rwa [List.append_assoc] at this
  | pass prev hparts hatom hlegal hn => exact hname rfl hparts hatom hn
  | nest prev hparts hne hopen => simpa using hquiet (Task.not_enters_of_parts hparts hopen)
  | splice prev hparts hne hopen => simpa using hquiet (Task.not_enters_of_parts hparts hopen)

/-- And so is what a walk enters. -/
theorem WalkCalls.counted {frames : List Frame} {walk walk' : Walk}
    {calls : List (Node × Node)} (hcalls : WalkCalls topology frames walk calls walk')
    {tasks : List Task} (hpoised : Poised topology root walk.walker frames tasks)
    (h : Counted topology walk.walker ns) :
    Counted topology walk'.walker (ns ++ calls.map Prod.snd) := by
  induction hcalls generalizing ns tasks with
  | done walk => simpa using h
  | step hstep hput hcalls ih =>
    obtain ⟨_, _, _, _, hs, hpoised', _⟩ := hpoised.step hstep
    rw [List.map_append, ← List.append_assoc]
    exact ih hpoised' (hs.counted h)

end

end StageGraph
