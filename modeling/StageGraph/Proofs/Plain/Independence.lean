import Mathlib.Tactic
import StageGraph.Proofs.Graph.Insertion
import StageGraph.Proofs.Plain.Drawing

set_option autoImplicit false

/-! # Topologies do not depend on each other

The topologies of an expression share the spans and the graph, but nothing leaks from one into the
next. An expression is built if and only if each of its topologies is built on its own
(`exists_buildPlain_iff`), and then its graph is the union of theirs, each with its own number
(`buildPlain_join`). The number is all that differs: a tree over nodes that is moved to another
topology is numbered as before (`Tree.Numbers.inTopology`), and by `Tree.Numbers.unique` no other
tree is.
-/

namespace StageGraph

/-! ## Other topologies -/

/-- The node as one of another topology. The sentinels belong to all topologies, and no topology
has the number 0. -/
def Node.inTopology (number : UInt32) : Node → Node
  | .start => .start
  | .finish => .finish
  | .stage s =>
    if h : number = 0 then .stage s else .stage { s with topology := number, topology_ne_zero := h }

/-- The edge between the two ends as nodes of another topology. -/
def Edge.inTopology (number : UInt32) (e : Edge) : Edge :=
  ⟨e.source.inTopology number, e.target.inTopology number⟩

namespace Node

variable {number : UInt32}

@[simp] theorem name_inTopology (n : Node) : (n.inTopology number).name = n.name := by
  cases n with
  | start | finish => rfl
  | stage s => by_cases h : number = 0 <;> simp [inTopology, h, name]

@[simp] theorem ordinal_inTopology (n : Node) : (n.inTopology number).ordinal = n.ordinal := by
  cases n with
  | start | finish => rfl
  | stage s => by_cases h : number = 0 <;> simp [inTopology, h, ordinal]

theorem inTopology_stage (hnumber : number ≠ 0) (s : Stage) : inTopology number (.stage s) =
    .stage { s with topology := number, topology_ne_zero := hnumber } := dif_neg hnumber

theorem topology_inTopology (hnumber : number ≠ 0) {n : Node} (hstart : n ≠ .start)
    (hfinish : n ≠ .finish) : (n.inTopology number).topology = number := by
  cases n with
  | start => exact absurd rfl hstart
  | finish => exact absurd rfl hfinish
  | stage s => rw [inTopology_stage hnumber, topology]

/-- The node is a sentinel, or a stage of this topology. -/
def OfTopology (number : Nat) (n : Node) : Prop :=
  n = .start ∨ n = .finish ∨ n.topology.toNat = number

/-- Nodes of one topology stay apart in another one. -/
theorem inTopology_injOn {m : Nat} (hnumber : number ≠ 0) {a b : Node} (ha : OfTopology m a)
    (hb : OfTopology m b) (h : a.inTopology number = b.inTopology number) : a = b := by
  have hname : a.name = b.name := by
    have hnames := congrArg name h
    rwa [name_inTopology, name_inTopology] at hnames
  have hordinal : a.ordinal = b.ordinal := by
    have hordinals := congrArg ordinal h
    rwa [ordinal_inTopology, ordinal_inTopology] at hordinals
  cases a with
  | start =>
    cases b with
    | start => rfl
    | finish => cases h
    | stage t => rw [inTopology_stage hnumber] at h; cases h
  | finish =>
    cases b with
    | start => cases h
    | finish => rfl
    | stage t => rw [inTopology_stage hnumber] at h; cases h
  | stage s =>
    cases b with
    | start | finish => rw [inTopology_stage hnumber] at h; cases h
    | stage t =>
      have hs : s.topology.toNat = m := (ha.resolve_left nofun).resolve_left nofun
      have ht : t.topology.toNat = m := (hb.resolve_left nofun).resolve_left nofun
      exact eq_of_parts (UInt32.toNat_inj.1 (hs.trans ht.symm)) hordinal hname

end Node

namespace Tree

variable {s : Tree Node} {m : Nat} {e : Tree Text} {number : UInt32}

theorem Numbers.ofTopology (h : s.Numbers m e) {n : Node} (hn : n ∈ s.atoms) :
    Node.OfTopology m n := .inr (.inr (h.topology_eq n hn))

/-- The nodes that the recursion comes to belong to the topology. -/
theorem Numbers.ofTopology_entered (h : s.Numbers m e) {n : Node} (hn : n ∈ s.entered) :
    Node.OfTopology m n := by
  rcases mem_map_snd_walk.1 hn with hn | rfl
  · exact h.ofTopology hn
  · exact .inr (.inl rfl)

/-- In another topology the stages are numbered as before. -/
theorem Numbers.inTopology (h : s.Numbers m e) (hm : m ≠ 0) (hnumber : number ≠ 0) :
    (s.map (Node.inTopology number)).Numbers number.toNat e := by
  have hinj : ∀ a ∈ s.entered, ∀ b ∈ s.atoms,
      a.inTopology number = b.inTopology number → a = b := fun a ha b hb =>
    Node.inTopology_injOn hnumber (h.ofTopology_entered ha) (h.ofTopology hb)
  refine ⟨?_, ?_, ?_, ?_⟩
  · calc (s.map (Node.inTopology number)).map Node.name
        = s.map fun n => (n.inTopology number).name := Tree.map_map _ _ s
      _ = s.map Node.name := Tree.map_congr fun n _ => n.name_inTopology
      _ = e := h.named
  · rw [atoms_map]
    exact h.nodup.map_on fun a ha b hb =>
      Node.inTopology_injOn hnumber (h.ofTopology ha) (h.ofTopology hb)
  · rw [atoms_map, List.forall_mem_map]
    intro n hn
    obtain ⟨hstart, hfinish⟩ := h.ne_sentinel hm hn
    rw [Node.topology_inTopology hnumber hstart hfinish]
  · rw [atoms_map, List.forall_mem_map, ← atoms_map]
    intro n hn
    rw [Node.ordinal_inTopology, h.ordinal_eq n hn, countP_entered_map rfl rfl hinj hn]
    intro k hk
    rw [Node.name_inTopology, Node.name_inTopology]

end Tree

/-! ## Expressions that are joined -/

/-- The topologies as one expression, with semicolons between them. -/
def joinTopologies (ts : List Text) : Text := [';'].intercalate ts

theorem joinTopologies_sections (t : Text) : joinTopologies (sections t) = t := by
  have hrest : ∀ (first : Text) (rest : List (Mark × Text)),
      (∀ piece ∈ rest, piece.1 = .semicolon) →
      [';'].intercalate (first :: rest.map Prod.snd) =
        first ++ rest.flatMap fun piece => piece.1.text ++ piece.2 := by
    intro first rest hall
    induction rest generalizing first with
    | nil => simp
    | cons piece rest ih =>
      rw [List.forall_mem_cons] at hall
      rw [List.map_cons, List.intercalate_cons_cons, ih _ hall.2, List.flatMap_cons, hall.1,
        List.append_assoc, List.append_assoc]
      rfl
  have hmarks : ∀ piece ∈ (Marked.read (· == .semicolon) t).rest, piece.1 = .semicolon :=
    fun piece hp => by simpa using Marked.accept_of_mem_rest hp
  calc joinTopologies (sections t)
      = (Marked.read (· == .semicolon) t).text := hrest _ _ hmarks
    _ = t := Marked.text_read _ t

/-- Texts without semicolons are the sections of the expression that joins them. -/
theorem sections_joinTopologies {ts : List Text} (hne : ts ≠ []) (hsemi : ∀ t ∈ ts, ';' ∉ t) :
    sections (joinTopologies ts) = ts :=
  calc sections (joinTopologies ts)
      = (joinTopologies (sections (joinTopologies ts))).splitOn ';' :=
        (List.splitOn_intercalate ';' (fun _ => not_mem_section) (List.cons_ne_nil _ _)).symm
    _ = (joinTopologies ts).splitOn ';' := by rw [joinTopologies_sections]
    _ = ts := List.splitOn_intercalate ';' hsemi hne

theorem sections_of_not_mem {t : Text} (hsemi : ';' ∉ t) : sections t = [t] := by
  have hjoin := sections_joinTopologies (List.cons_ne_nil t []) (List.forall_mem_singleton.2 hsemi)
  rwa [joinTopologies, List.intercalate_singleton] at hjoin

/-- An expression of less than `2 ^ 32` bytes is built if and only if its sections are phrases. -/
theorem exists_buildPlain_iff {t : Text} (hbytes : Text.bytes t < 2 ^ 32) :
    (∃ g, buildPlain t .empty = .ok () g) ↔
      ∀ p ∈ sections t, Phrase true false (tokensOf p) := by
  rw [← grammatical_tokensOf_iff]
  constructor
  · rintro ⟨g, hok⟩
    rcases buildPlain_cases (t := t) Graph.wellFormed_empty with ⟨cause, g', hfails⟩ | h
    · cases hok.symm.trans hfails
    · exact h
  · intro h
    obtain ⟨es, hspells⟩ := h.spellsAll
    obtain ⟨g, -, -, hok, -⟩ := buildPlain_of_spells hspells hbytes
    exact ⟨g, hok⟩

/-! ## The graph of a joined expression -/

/-- What is left of several lists if every member counts once does not depend on whether members
count once in each list already. -/
theorem eraseDups_flatten {α : Type} [DecidableEq α] (ls : List (List α)) :
    (ls.map List.eraseDups).flatten.eraseDups = ls.flatten.eraseDups := by
  induction ls with
  | nil => rfl
  | cons l ls ih =>
    have hremove : ∀ m : List α, (m.removeAll l).eraseDups = m.eraseDups.removeAll l := fun m =>
      (filter_eraseDups _ m).symm
    have hsame : ∀ m : List α, m.removeAll l.eraseDups = m.removeAll l := fun m =>
      List.filter_congr fun a _ => by simp
    rw [List.map_cons, List.flatten_cons, List.flatten_cons, List.eraseDups_append,
      List.eraseDups_append, hsame, hremove, hremove, ih, eraseDups_of_nodup (nodup_eraseDups l)]

/-- A topology that is a phrase is built on its own. -/
theorem exists_drawn_of_spells {t : Text} {e : Tree Text} (hsemi : ';' ∉ t)
    (hbytes : Text.bytes t < 2 ^ 32) (h : Spells true .list (tokensOf t) e) :
    ∃ g calls s, buildPlain t .empty = .ok () g ∧ g.Holds calls ∧ DrawnAll 0 [e] [s] calls := by
  have hspells : SpellsAll true (tokensOf t) [e] := by
    rw [spellsAll_tokensOf_iff, sections_of_not_mem hsemi]
    exact .cons h .nil
  rcases buildPlain_spells hspells Graph.wellFormed_empty with
    ⟨-, -, -, hno⟩ | ⟨calls, g, ss, hcalls, -, hdrawn⟩
  · exact absurd (numerable_of_bytes hspells hbytes) hno
  · obtain ⟨s, rfl⟩ := List.length_eq_one_iff.1 hdrawn.length_eq
    exact ⟨g, calls, s, hcalls.buildPlain_eq, Graph.holds_of_putEdges hcalls.putEdges_eq, hdrawn⟩

/-- The graph of one topology is the share that the tree `s` has in the graph of an expression. -/
def Graph.Shares (g : Graph) (number : UInt32) (s : Tree Node) : Prop :=
  g.nodes.toList.map (Node.inTopology number) =
      (endsOf (s.walk .finish none .start)).eraseDups ∧
    ∀ e : Edge, e ∈ g.edges.map (Edge.inTopology number) ↔
      (e.source, e.target) ∈ s.walk .finish none .start

theorem Graph.endsOf_map (f : Node → Node) (calls : List (Node × Node)) :
    endsOf (calls.map (Prod.map f f)) = (endsOf calls).map f := by
  simp [endsOf, List.flatMap_map, List.map_flatMap]

/-- The graph of one topology is its share in an expression, under another number. -/
theorem Graph.Holds.shares {g : Graph} {s : Tree Node} {m : Nat} {e : Tree Text}
    {number : UInt32} (h : g.Holds (s.walk .finish none .start)) (hnumbers : s.Numbers m e)
    (hnumber : number ≠ 0) : g.Shares number (s.map (Node.inTopology number)) := by
  have hwalk : (s.map (Node.inTopology number)).walk .finish none .start =
      (s.walk .finish none .start).map
        (Prod.map (Node.inTopology number) (Node.inTopology number)) :=
    Tree.walk_map (Node.inTopology number) .finish s .start
  have hends : ∀ n ∈ endsOf (s.walk .finish none .start), Node.OfTopology m n := by
    intro n hn
    obtain ⟨⟨a, b⟩, hcall, hn⟩ := List.mem_flatMap.1 hn
    obtain ⟨ha, hb⟩ := (Tree.mem_walk.1 hcall).mem
    simp only [List.mem_cons, List.not_mem_nil, or_false] at hn
    rcases hn with rfl | rfl
    · exact ha.imp_right fun ha => .inr (hnumbers.topology_eq _ ha)
    · exact .inr (hb.imp_right fun hb => hnumbers.topology_eq _ hb)
  rw [Shares, hwalk]
  constructor
  · rw [h.nodes_eq, endsOf_map, eraseDups_map fun a ha b hb =>
      Node.inTopology_injOn hnumber (hends a ha) (hends b hb)]
  · rintro ⟨source, target⟩
    rw [List.mem_map, List.mem_map]
    constructor
    · rintro ⟨d, hd, hmoved⟩
      cases hmoved
      exact ⟨_, h.mem_edges.1 hd, rfl⟩
    · rintro ⟨⟨a, b⟩, hcall, hmoved⟩
      obtain ⟨rfl, rfl⟩ := Prod.mk.inj hmoved
      exact ⟨⟨a, b⟩, h.mem_edges.2 hcall, rfl⟩

/-- The graph of each topology is its share in the expression. -/
theorem DrawnAll.shares {es : List (Tree Text)} {ss : List (Tree Node)}
    {calls : List (Node × Node)} (h : DrawnAll 0 es ss calls) (hall : Numerable 0 es) {i : Nat}
    {e : Tree Text} {s : Tree Node} (he : es[i]? = some e) (hs : ss[i]? = some s) {t : Text}
    (hsemi : ';' ∉ t) (hbytes : Text.bytes t < 2 ^ 32) (hspells : Spells true .list (tokensOf t) e)
    {g : Graph} (hok : buildPlain t .empty = .ok () g) : g.Shares (.ofNat (i + 1)) s := by
  obtain ⟨g', calls', s', hok', hg, hdrawn⟩ := exists_drawn_of_spells hsemi hbytes hspells
  cases hok.symm.trans hok'
  rw [hdrawn.calls_eq, List.flatMap_singleton] at hg
  have hi : i + (0 + 1) < 2 ^ 32 := by
    have hlt := (List.getElem?_eq_some_iff.1 he).1
    have := hall.length_lt
    omega
  have hnumber := ofNat_succ_ne_zero hi
  have hsingle : s'.Numbers 1 e := hdrawn.numbers 0 e s' rfl rfl
  have hmoved := hsingle.inTopology Nat.one_ne_zero hnumber
  rw [toNat_ofNat_succ hi] at hmoved
  -- the tree in the expression and the tree that is moved have the same numbers
  have hjoined := h.numbers i e s he hs
  rw [Nat.zero_add] at hjoined
  obtain rfl := hjoined.unique hmoved (Nat.succ_ne_zero i)
  exact hg.shares hsingle hnumber

/-- An expression holds the edges of its shares, and their nodes one after the other. -/
theorem Graph.Holds.of_shares {g : Graph} {ss : List (Tree Node)} {gs : List Graph}
    (h : g.Holds (ss.flatMap fun s => s.walk .finish none .start)) (hlength : ss.length = gs.length)
    (hshares : ∀ i (hs : i < ss.length) (hh : i < gs.length), gs[i].Shares (.ofNat (i + 1)) ss[i]) :
    (∀ e, e ∈ g.edges ↔
      ∃ i, ∃ d : Graph, gs[i]? = some d ∧ e ∈ d.edges.map (Edge.inTopology (.ofNat (i + 1)))) ∧
    g.nodes.toList = (gs.mapIdx fun i d =>
      d.nodes.toList.map (Node.inTopology (.ofNat (i + 1)))).flatten.eraseDups := by
  constructor
  · intro e
    rw [h.mem_edges, List.mem_flatMap]
    constructor
    · rintro ⟨s, hs, hcall⟩
      obtain ⟨i, hi, rfl⟩ := List.getElem_of_mem hs
      have hi' : i < gs.length := hlength ▸ hi
      exact ⟨i, gs[i], List.getElem?_eq_getElem hi', ((hshares i hi hi').2 e).2 hcall⟩
    · rintro ⟨i, d, hd, he⟩
      obtain ⟨hi', rfl⟩ := List.getElem?_eq_some_iff.1 hd
      have hi : i < ss.length := hlength ▸ hi'
      exact ⟨ss[i], List.getElem_mem hi, ((hshares i hi hi').2 e).1 he⟩
  · have hparts : (gs.mapIdx fun i d => d.nodes.toList.map (Node.inTopology (.ofNat (i + 1)))) =
        (ss.map fun s => endsOf (s.walk .finish none .start)).map List.eraseDups := by
      refine List.ext_getElem (by simp [hlength]) fun i hi hi' => ?_
      rw [List.length_mapIdx] at hi
      rw [List.getElem_mapIdx, List.getElem_map, List.getElem_map]
      exact (hshares i (hlength ▸ hi) hi).1
    calc g.nodes.toList
        = (endsOf (ss.flatMap fun s => s.walk .finish none .start)).eraseDups := h.nodes_eq
      _ = (ss.map fun s => endsOf (s.walk .finish none .start)).flatten.eraseDups := by
          rw [endsOf, List.flatMap_assoc, ← List.flatMap_def]
          rfl
      _ = _ := by rw [hparts, eraseDups_flatten]

/-- Topologies without semicolons, joined to one expression, are built if and only if each of them
is built on its own. The graph of the expression has the edges of their graphs, and their nodes one
after the other, under the numbers of their places. -/
theorem buildPlain_join {ts : List Text} (hne : ts ≠ []) (hsemi : ∀ t ∈ ts, ';' ∉ t)
    (hbytes : Text.bytes (joinTopologies ts) < 2 ^ 32) :
    ((∃ g, buildPlain (joinTopologies ts) .empty = .ok () g) ↔
      ∀ t ∈ ts, ∃ g, buildPlain t .empty = .ok () g) ∧
    ∀ g gs, buildPlain (joinTopologies ts) .empty = .ok () g →
      List.Forall₂ (fun t d => buildPlain t .empty = .ok () d) ts gs →
      (∀ e, e ∈ g.edges ↔
        ∃ i, ∃ d : Graph, gs[i]? = some d ∧ e ∈ d.edges.map (Edge.inTopology (.ofNat (i + 1)))) ∧
      g.nodes.toList = (gs.mapIdx fun i d =>
        d.nodes.toList.map (Node.inTopology (.ofNat (i + 1)))).flatten.eraseDups := by
  have hsections := sections_joinTopologies hne hsemi
  have hbytes' : ∀ t ∈ ts, Text.bytes t < 2 ^ 32 := fun t ht =>
    (bytes_section_le (hsections.symm ▸ ht)).trans_lt hbytes
  have hbuilt := exists_buildPlain_iff hbytes
  rw [hsections] at hbuilt
  constructor
  · rw [hbuilt]
    refine forall₂_congr fun t ht => ?_
    rw [exists_buildPlain_iff (hbytes' t ht), sections_of_not_mem (hsemi t ht),
      List.forall_mem_singleton]
  · intro g gs hok hgs
    obtain ⟨es, hspells⟩ := (grammatical_tokensOf_iff.2
      (hsections.symm ▸ hbuilt.1 ⟨g, hok⟩ : ∀ p ∈ sections (joinTopologies ts), _)).spellsAll
    rcases buildPlain_spells hspells Graph.wellFormed_empty with
      ⟨-, -, -, hno⟩ | ⟨calls, g', ss, hcalls, hall, hdrawn⟩
    · exact absurd (numerable_of_bytes hspells hbytes) hno
    cases hok.symm.trans hcalls.buildPlain_eq
    have hholds := Graph.holds_of_putEdges hcalls.putEdges_eq
    rw [hdrawn.calls_eq] at hholds
    have hes : List.Forall₂ (fun t e => Spells true .list (tokensOf t) e) ts es := by
      rwa [spellsAll_tokensOf_iff, hsections] at hspells
    have hlength : ss.length = gs.length :=
      hdrawn.length_eq.trans (hes.length_eq.symm.trans hgs.length_eq)
    refine hholds.of_shares hlength fun i hs hh => ?_
    have ht : i < ts.length := hgs.length_eq ▸ hh
    have he : i < es.length := hes.length_eq ▸ ht
    have hmem : ts[i] ∈ ts := List.getElem_mem ht
    exact hdrawn.shares hall (List.getElem?_eq_getElem he) (List.getElem?_eq_getElem hs)
      (hsemi _ hmem) (hbytes' _ hmem) (hes.get ht he) (hgs.get ht hh)

/-- A series and a single stage of the same name behind it, which gets the ordinal 1 once more. -/
theorem buildPlain_join_repeated : ∃ g d d' : Graph,
    buildPlain "A->B".toList .empty = .ok () d ∧ buildPlain "A".toList .empty = .ok () d' ∧
    buildPlain "A->B;A".toList .empty = .ok () g ∧
    g.nodes.toList = (d.nodes.toList.map (Node.inTopology 1) ++
      d'.nodes.toList.map (Node.inTopology 2)).eraseDups := by
  have hlegal : ¬ Reserved ['A'] ∧ ¬ Reserved ['B'] := by decide
  obtain ⟨d, -, -, hd, -⟩ := exists_drawn_of_spells (t := "A->B".toList) (by decide) (by decide)
    (Spells.series true hlegal.1 hlegal.2)
  obtain ⟨d', -, -, hd', -⟩ := exists_drawn_of_spells (t := "A".toList) (by decide) (by decide)
    (.list (.stage (.name hlegal.1)))
  obtain ⟨hbuilt, hunion⟩ := @buildPlain_join ["A->B".toList, "A".toList]
    (List.cons_ne_nil _ _) (by decide) (by decide)
  obtain ⟨g, hg⟩ := hbuilt.2 (by simpa using ⟨⟨d, hd⟩, d', hd'⟩)
  obtain ⟨-, hnodes⟩ := hunion g [d, d'] hg (.cons hd (.cons hd' .nil))
  exact ⟨g, d, d', hd, hd', hg, by simpa using hnodes⟩

end StageGraph
