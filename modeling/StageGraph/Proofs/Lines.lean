import Mathlib.Tactic
import StageGraph.Graph.Listing
import StageGraph.Proofs.Graph.EdgeSet
import StageGraph.Proofs.Graph.Queue
import StageGraph.Proofs.Reserved

set_option autoImplicit false

/-! # The lines of a listing

A listing puts a line break behind every item and writes the names as they are. A name is trimmed,
but a break inside it stays, whether it comes from a plain expression or from an edge list. Such an
item takes several lines, which may look like items of their own (`compile_broken_name`).

How many lines there are is said for every graph that compiles, with the breaks of the names counted
in. Without breaks in names there is one line for each item, and only then
(`compile_listing_lines`).
-/

namespace StageGraph

/-! ## Lines of a text -/

namespace Text

/-- The lines of a text, each with the break that ends it. What stands behind the last break is a
line as well, unless it is empty. -/
def lines : Text → List Text
  | [] => []
  | c :: t =>
    if c = '\n' then [c] :: lines t
    else
      match lines t with
      | [] => [[c]]
      | line :: rest => (c :: line) :: rest

/-- Nothing is lost between the lines. -/
theorem flatten_lines (t : Text) : (lines t).flatten = t := by
  induction t with
  | nil => rfl
  | cons c t ih =>
    rw [lines]
    split
    · rw [List.flatten_cons, ih, List.singleton_append]
    · cases hlines : lines t with
      | nil => simpa [hlines] using ih
      | cons line rest => simpa [hlines] using ih

theorem exists_lines_eq_cons {t : Text} (h : t ≠ []) : ∃ line rest, lines t = line :: rest := by
  refine List.exists_cons_of_ne_nil fun hnil => h ?_
  rw [← flatten_lines t, hnil, List.flatten_nil]

/-- A break in the middle ends a line, whatever is before it. -/
theorem lines_append_break (s t : Text) :
    lines (s ++ '\n' :: t) = lines (s ++ ['\n']) ++ lines t := by
  induction s with
  | nil => simp [lines]
  | cons c s ih =>
    obtain ⟨line, rest, hlines⟩ := exists_lines_eq_cons (t := s ++ ['\n']) (by simp)
    rw [hlines] at ih
    -- `c` is a line of its own, or is put in front of the first line
    by_cases hc : c = '\n'
    · simp [lines, hc, ih, hlines]
    · simp [lines, hc, ih, hlines]

theorem length_lines_break (s : Text) : (lines (s ++ ['\n'])).length = s.count '\n' + 1 := by
  induction s with
  | nil => rfl
  | cons c s ih =>
    obtain ⟨line, rest, hlines⟩ := exists_lines_eq_cons (t := s ++ ['\n']) (by simp)
    rw [hlines, List.length_cons] at ih
    by_cases hc : c = '\n'
    · simp [lines, hc, hlines, ih]
    · simp [lines, hc, hlines, ih]

/-- Without a break inside, the text is a line. -/
theorem lines_of_not_mem {s : Text} (h : '\n' ∉ s) : lines (s ++ ['\n']) = [s ++ ['\n']] := by
  have hlength := length_lines_break s
  rw [List.count_eq_zero_of_not_mem h, Nat.zero_add] at hlength
  obtain ⟨line, hline⟩ := List.length_eq_one_iff.1 hlength
  have hflat := flatten_lines (s ++ ['\n'])
  rw [hline, List.flatten_singleton] at hflat
  rw [hline, hflat]

end Text

open Text (lines)

/-! ## Lines of several items -/

section

variable {items items' : List Text}

theorem lines_asLines (items : List Text) :
    lines (asLines items) = items.flatMap fun item => lines (item ++ ['\n']) := by
  induction items with
  | nil => rfl
  | cons item items ih =>
    rw [List.flatMap_cons, ← ih, ← Text.lines_append_break]
    simp [asLines]

theorem length_lines_asLines (items : List Text) :
    (lines (asLines items)).length = items.length + (items.map (List.count '\n')).sum := by
  calc (lines (asLines items)).length
      = (items.map fun item => (lines (item ++ ['\n'])).length).sum := by
        rw [lines_asLines, List.length_flatMap]
    _ = (items.map fun item => item.count '\n' + 1).sum := by simp only [Text.length_lines_break]
    _ = items.length + (items.map (List.count '\n')).sum := by
        rw [List.sum_map_add, List.map_const', List.sum_replicate, smul_eq_mul, Nat.mul_one,
          Nat.add_comm]

theorem lines_asLines_of_forall (h : ∀ item ∈ items, '\n' ∉ item) :
    lines (asLines items) = items.map (· ++ ['\n']) := by
  rw [lines_asLines, List.flatMap_congr fun item hitem => Text.lines_of_not_mem (h item hitem),
    ← List.map_eq_flatMap]

theorem length_lines_asLines_iff :
    (lines (asLines items)).length = items.length ↔ ∀ item ∈ items, '\n' ∉ item := by
  refine ⟨fun heq item hitem hbreak => ?_, fun h => ?_⟩
  · rw [length_lines_asLines] at heq
    have hcount := List.count_pos_iff.2 hbreak
    have hle := List.single_le_sum (fun _ _ => Nat.zero_le _) _
      (List.mem_map_of_mem (f := List.count '\n') hitem)
    omega
  · rw [lines_asLines_of_forall h, List.length_map]

/-- The items are the lines if and only if there are no breaks in them. -/
theorem lines_asLines_iff :
    lines (asLines items) = items.map (· ++ ['\n']) ↔ ∀ item ∈ items, '\n' ∉ item := by
  refine ⟨fun heq => length_lines_asLines_iff.1 ?_, lines_asLines_of_forall⟩
  rw [heq, List.length_map]

/-- Items without breaks are known from their lines. -/
theorem asLines_inj (h : ∀ item ∈ items, '\n' ∉ item) (h' : ∀ item ∈ items', '\n' ∉ item) :
    asLines items = asLines items' ↔ items = items' := by
  refine ⟨fun heq => ?_, congrArg asLines⟩
  have hlines := congrArg lines heq
  rw [lines_asLines_of_forall h, lines_asLines_of_forall h'] at hlines
  exact List.map_injective_iff.2 (List.append_left_injective ['\n']) hlines

end

/-! ## Breaks in the items of a graph -/

/-- The numbers of a node bring no break into its text. -/
theorem Node.count_text (n : Node) : n.text.count '\n' = n.name.count '\n' := by
  have hnumber : ∀ m, (Text.ofNat m).count '\n' = 0 := fun m =>
    List.count_eq_zero_of_not_mem (Text.not_mem_ofNat rfl)
  simp [text, hnumber]

theorem Edge.count_text (e : Edge) :
    e.text.count '\n' = e.source.name.count '\n' + e.target.name.count '\n' := by
  have harrow : arrow.count '\n' = 0 := rfl
  rw [text, List.count_append, List.count_append, harrow, Node.count_text, Node.count_text,
    Nat.add_zero]

theorem Node.break_mem_text {n : Node} : '\n' ∈ n.text ↔ '\n' ∈ n.name := by
  rw [← List.count_pos_iff, n.count_text, List.count_pos_iff]

theorem Edge.break_mem_text {e : Edge} :
    '\n' ∈ e.text ↔ '\n' ∈ e.source.name ∨ '\n' ∈ e.target.name := by
  rw [← List.count_pos_iff, e.count_text, Nat.add_pos_iff_pos_or_pos, List.count_pos_iff,
    List.count_pos_iff]

namespace Graph

/-- No name of a node holds a line break. -/
def Unbroken (g : Graph) : Prop := ∀ n ∈ g.nodes, '\n' ∉ n.name

variable {g : Graph}

theorem OrderFacts.unbroken_iff (h : g.OrderFacts) :
    g.Unbroken ↔ ∀ item ∈ g.topologicalOrder.map Node.text, '\n' ∉ item := by
  simp only [Unbroken, List.forall_mem_map, Node.break_mem_text, h.mem_iff]

/-- Every node is at the end of an edge, so its name is in the text of one. -/
theorem Holds.unbroken_iff {es : List (Node × Node)} (h : g.Holds es) :
    g.Unbroken ↔ ∀ item ∈ g.edges.map Edge.text, '\n' ∉ item := by
  simp only [Unbroken, List.forall_mem_map, Edge.break_mem_text, not_or]
  constructor
  · intro hall e he
    have hput := h.mem_edges.1 he
    exact ⟨hall _ ((h.mem_iff _).2 ⟨_, hput, .inl rfl⟩),
      hall _ ((h.mem_iff _).2 ⟨_, hput, .inr rfl⟩)⟩
  · intro hall n hn
    obtain ⟨p, hput, hend⟩ := (h.mem_iff n).1 hn
    obtain ⟨hsource, htarget⟩ := hall ⟨p.1, p.2⟩ (h.mem_edges.2 hput)
    rcases hend with rfl | rfl
    · exact hsource
    · exact htarget

theorem length_lines_listEdges (hg : g.WellFormed) : (lines g.listEdges).length = g.edgeCount +
    (g.edges.map fun e => e.source.name.count '\n' + e.target.name.count '\n').sum := by
  rw [listEdges, length_lines_asLines, List.length_map, List.map_map, edgeCount_eq_length hg]
  simp only [Function.comp_def, Edge.count_text]

theorem OrderFacts.length_lines_listOrder (h : g.OrderFacts) :
    (lines g.listOrder).length =
      g.nodeCount + (g.nodes.toList.map fun n => n.name.count '\n').sum := by
  calc (lines g.listOrder).length
      = g.topologicalOrder.length + (g.topologicalOrder.map fun n => n.text.count '\n').sum := by
        rw [listOrder, length_lines_asLines, List.length_map, List.map_map]
        rfl
    _ = g.topologicalOrder.length + (g.topologicalOrder.map fun n => n.name.count '\n').sum := by
        simp only [Node.count_text]
    _ = g.nodeCount + (g.nodes.toList.map fun n => n.name.count '\n').sum := by
        rw [(h.perm.map _).sum_eq, h.perm.length_eq]
        rfl

end Graph

/-! ## Compiled graphs -/

section

variable {t : Text} {g : Graph}

/-- A graph that compiles holds the edges that were put, and its order lists all its nodes. -/
theorem exists_holds_of_compile (h : compile t = .ok g) :
    ∃ es, g.Holds es ∧ g.OrderFacts := by
  obtain ⟨-, hbuild, hvalid⟩ := compile_eq_ok_iff.1 h
  obtain ⟨es, hg⟩ : ∃ es, g.Holds es := by
    rw [buildExpression] at hbuild
    cases hdetect : Form.detect (Text.trim t) with
    | error failure =>
      rw [hdetect] at hbuild
      cases hbuild
    | ok claimed =>
      rw [hdetect] at hbuild
      cases claimed with
      | some listed => exact ⟨_, holds_of_buildListed hbuild⟩
      | none =>
        obtain ⟨-, -, calls, -, hcalls, -⟩ := exists_draws_of_compile hdetect h
        exact ⟨calls, Graph.holds_of_putEdges hcalls.putEdges_eq⟩
  have hacyclic := ((Graph.validate_eq_ok_iff hg.wellFormed).1 hvalid).2.2
  exact ⟨es, hg, Graph.orderFacts_of_acyclic hg.wellFormed hacyclic⟩

/-- Every atom of the trees is the name of a node. -/
theorem Graph.Draws.exists_named {es : List (Tree Text)} {ss : List (Tree Node)}
    (h : g.Draws es ss) {e : Tree Text} (he : e ∈ es) {name : Text} (hname : name ∈ e.atoms) :
    ∃ n ∈ g.nodes, n.name = name := by
  obtain ⟨i, hi, rfl⟩ := List.getElem_of_mem he
  have hi' : i < ss.length := h.length_eq ▸ hi
  have hwrites := h.writes i _ _ (List.getElem?_eq_getElem hi) (List.getElem?_eq_getElem hi')
  rw [← hwrites.named, Tree.atoms_map] at hname
  obtain ⟨n, hn, hnamed⟩ := List.mem_map.1 hname
  exact ⟨n, (h.mem_iff n).2 (.inr (.inr ⟨_, List.getElem_mem hi', hn⟩)), hnamed⟩

theorem Node.not_break_mem_name {n : Node} (h : n.isSentinel = true) : '\n' ∉ n.name := by
  cases n with
  | start | finish => decide
  | stage s => cases h

/-- A plain expression brings breaks into its graph by its names only. -/
theorem unbroken_plain_iff (hplain : Form.detect (Text.trim t) = .ok none)
    (hok : compile t = .ok g) :
    g.Unbroken ↔ ∀ n ∈ namesOf (tokensOf t), '\n' ∉ n := by
  obtain ⟨es, ss, -, hspells, -, hdraws⟩ := exists_draws_of_compile hplain hok
  simp only [← hspells.atoms_eq, List.mem_flatMap]
  constructor
  · rintro hall name ⟨e, he, hname⟩
    obtain ⟨n, hn, rfl⟩ := hdraws.exists_named he hname
    exact hall n hn
  · intro hall n hn
    cases hsentinel : n.isSentinel with
    | true => exact Node.not_break_mem_name hsentinel
    | false => exact hall _ (hdraws.name_mem hn hsentinel)

theorem unbroken_listed_iff {form : Form} {edges : List Edge}
    (hdetect : Form.detect (Text.trim t) = .ok (some (form, edges))) (hok : compile t = .ok g) :
    g.Unbroken ↔ ∀ n ∈ listedNodes edges, '\n' ∉ n.name := by
  have hbuild := ((compile_list_eq_ok_iff hdetect).1 hok).1
  constructor
  · intro hall n hn
    have hstage := (stagesOnly_of_buildListed hbuild).isSentinel_eq hn
    exact hall n ((mem_nodes_of_buildListed hbuild hstage).2 hn)
  · intro hall n hn
    cases hsentinel : n.isSentinel with
    | true => exact Node.not_break_mem_name hsentinel
    | false => exact hall n ((mem_nodes_of_buildListed hbuild hsentinel).1 hn)

end

/-- A graph that compiles is listed on a line for each edge, or each node, and one more for each
break in a name. So the lines are the items exactly if no name holds a break, which is a matter of
the names in a plain expression and of the ends of an edge list. Two listings without breaks are the
same only if they list the same. -/
theorem compile_listing_lines {t : Text} {g : Graph} (h : compile t = .ok g) :
    (lines g.listEdges).length = g.edgeCount +
      (g.edges.map fun e => e.source.name.count '\n' + e.target.name.count '\n').sum ∧
    (lines g.listOrder).length = g.nodeCount +
      (g.nodes.toList.map fun n => n.name.count '\n').sum ∧
    g.edges.length = g.edgeCount ∧ g.topologicalOrder.Perm g.nodes.toList ∧
    (lines g.listEdges = g.edges.map (fun e => e.text ++ ['\n']) ↔ g.Unbroken) ∧
    (lines g.listOrder = g.topologicalOrder.map (fun n => n.text ++ ['\n']) ↔ g.Unbroken) ∧
    (Form.detect (Text.trim t) = .ok none →
      (g.Unbroken ↔ ∀ n ∈ namesOf (tokensOf t), '\n' ∉ n)) ∧
    (∀ form edges, Form.detect (Text.trim t) = .ok (some (form, edges)) →
      (g.Unbroken ↔ ∀ n ∈ listedNodes edges, '\n' ∉ n.name)) ∧
    ∀ t' g', compile t' = .ok g' → g.Unbroken → g'.Unbroken →
      (g.listEdges = g'.listEdges ↔ g.edges.map Edge.text = g'.edges.map Edge.text) ∧
      (g.listOrder = g'.listOrder ↔ g.topologicalOrder = g'.topologicalOrder) := by
  obtain ⟨es, hg, horder⟩ := exists_holds_of_compile h
  refine ⟨Graph.length_lines_listEdges hg.wellFormed, horder.length_lines_listOrder,
    (Graph.edgeCount_eq_length hg.wellFormed).symm, horder.perm, ?_, ?_,
    fun hplain => unbroken_plain_iff hplain h,
    fun form edges hdetect => unbroken_listed_iff hdetect h,
    fun t' g' h' hunbroken hunbroken' => ?_⟩
  · rw [hg.unbroken_iff, ← lines_asLines_iff, List.map_map]
    rfl
  · rw [horder.unbroken_iff, ← lines_asLines_iff, List.map_map]
    rfl
  · obtain ⟨es', hg', horder'⟩ := exists_holds_of_compile h'
    constructor
    · exact asLines_inj (hg.unbroken_iff.1 hunbroken) (hg'.unbroken_iff.1 hunbroken')
    · rw [Graph.listOrder, Graph.listOrder,
        asLines_inj (horder.unbroken_iff.1 hunbroken) (horder'.unbroken_iff.1 hunbroken')]
      exact (List.map_injective_iff.2 Node.text_injective).eq_iff

/-- The theorem about two plain texts without breaks, and about a list with a break in a name. -/
theorem compile_listing_lines_series :
    (∃ g h, compile "A->B".toList = .ok g ∧ compile "A".toList = .ok h ∧
      lines g.listOrder = (g.topologicalOrder.map fun n => n.text ++ ['\n']) ∧
      (g.listOrder = h.listOrder ↔ g.topologicalOrder = h.topologicalOrder)) ∧
    ∃ g, compile "[\"A\\nB -> C\"]".toList = .ok g ∧
      lines g.listEdges ≠ g.edges.map fun e => e.text ++ ['\n'] := by
  constructor
  · obtain ⟨g, -, hok, -⟩ :=
      compile_of_spells (t := "A->B".toList) (by decide) rfl
        (SpellsAll.of_spells (Spells.series false (by decide) (by decide)))
    obtain ⟨h, -, hok', -⟩ :=
      compile_of_spells (t := "A".toList) (by decide) rfl
        (SpellsAll.of_spells (Spells.single false (by decide)))
    obtain ⟨-, -, -, -, -, horder, hplain, -, hsame⟩ := compile_listing_lines hok
    obtain ⟨-, -, -, -, -, -, hplain', -⟩ := compile_listing_lines hok'
    have hunbroken : g.Unbroken := (hplain rfl).2 (by decide)
    have hunbroken' : h.Unbroken := (hplain' rfl).2 (by decide)
    exact ⟨g, h, hok, hok', horder.2 hunbroken, (hsame _ h hok' hunbroken hunbroken').2⟩
  · obtain ⟨e, hitem, hsentinel, hbreak⟩ : ∃ e, readItem "A\nB -> C".toList = .ok e ∧
        e.namesSentinel = false ∧ '\n' ∈ e.source.name := ⟨_, rfl, rfl, by decide⟩
    have hdetect : Form.detect (Text.trim "[\"A\\nB -> C\"]".toList) =
        .ok (some (.strings, [e])) := detect_of_item _ hitem rfl
    obtain ⟨g, hok⟩ := exists_compile_of_edge hsentinel hdetect
    obtain ⟨-, -, -, -, hedges, -, -, hlisted, -⟩ := compile_listing_lines hok
    refine ⟨g, hok, fun hlines => ?_⟩
    have hnames := (hlisted _ _ hdetect).1 (hedges.1 hlines)
    exact hnames e.source (mem_listedNodes.2 ⟨e, List.mem_singleton_self e, .inl rfl⟩) hbreak

/-! ## A name that is listed as two nodes -/

/-- Nodes that are a chain are listed in its order. -/
theorem Graph.Ordered.eq_of_isChain {g : Graph} (h : g.Ordered) {l : List Node}
    (hchain : List.IsChain g.Adjacent l) (hmem : ∀ n, n ∈ g.topologicalOrder ↔ n ∈ l) :
    g.topologicalOrder = l := by
  have hpath : l.Pairwise (Relation.TransGen g.Adjacent) :=
    (hchain.imp fun _ _ => Relation.TransGen.single).pairwise
  have hrises : l.Pairwise fun a b => g.topologicalOrder.idxOf a < g.topologicalOrder.idxOf b :=
    hpath.imp_of_mem fun _ hb hab => (h.transGen hab ((hmem _).2 hb)).2
  have hnodup : l.Nodup := hrises.imp fun {a b} hlt hab => by
    rw [hab] at hlt
    exact Nat.lt_irrefl _ hlt
  have hperm := (List.perm_ext_iff_of_nodup h.nodup hnodup).2 hmem
  exact hperm.eq_of_pairwise (fun a b _ _ hab hba => absurd hab (Nat.lt_asymm hba))
    (Graph.pairwise_idxOf h.nodup) hrises

theorem Tree.eq_atom_of_map {α β : Type} {f : α → β} {s : Tree α} {b : β}
    (h : s.map f = .atom b) : ∃ a, s = .atom a := by
  cases s with
  | atom a => exact ⟨a, rfl⟩
  | par | seq => cases h

/-- Stages of different names all have the ordinal 1. -/
theorem Tree.Writes.map_text {s : Tree Node} {number : Nat} {e : Tree Text}
    (h : s.Writes number e) (hnodup : e.atoms.Nodup) : s.atoms.map Node.text =
      e.atoms.map fun name => Text.ofNat number ++ ':' :: Text.ofNat 1 ++ ':' :: name := by
  rw [← h.named, Tree.atoms_map, List.map_map]
  refine List.map_congr_left fun n hn => ?_
  have hordinal := ((h.ordinals_iff n.name n.ordinal.toNat).1 ⟨n, hn, rfl, rfl⟩)
  have hone := List.nodup_iff_count_le_one.1 hnodup n.name
  rw [Function.comp_apply, Node.text, h.topology_eq n hn, show n.ordinal.toNat = 1 by omega]

/-- The order of one topology whose stages stand one behind the other. -/
theorem exists_compile_series {t : Text} {e : Tree Text} (hbytes : Text.bytes t < 2 ^ 32)
    (hplain : Form.detect (Text.trim t) = .ok none) (h : Spells false .list (tokensOf t) e)
    (hnodup : e.atoms.Nodup)
    (hchain : ∀ s : Tree Node, s.map Node.name = e →
      List.IsChain (s.Joins .start .finish) (.start :: s.atoms ++ [.finish])) :
    ∃ g, compile t = .ok g ∧ g.topologicalOrder.map Node.text =
      Node.start.text :: (e.atoms.map fun name => "1:1:".toList ++ name) ++ [Node.finish.text] := by
  obtain ⟨g, ss, hok, -, hg, -, hdraws⟩ := compile_of_spells hbytes hplain (.of_spells h)
  obtain ⟨s, rfl⟩ := List.length_eq_one_iff.1 hdraws.length_eq
  have hwrites := hdraws.writes 0 e s rfl rfl
  obtain ⟨-, -, horder⟩ := exists_holds_of_compile hok
  have heq : g.topologicalOrder = .start :: s.atoms ++ [.finish] := by
    refine (Graph.ordered_topologicalOrder hg).eq_of_isChain ?_ fun n => ?_
    · refine (hchain s hwrites.named).imp fun a b hab => ?_
      exact (hdraws.adjacent_iff hg).2 ⟨s, List.mem_singleton_self s, hab⟩
    · rw [horder.mem_iff, hdraws.mem_iff]
      simp only [List.mem_append, List.mem_cons, List.not_mem_nil, or_false, exists_eq_left]
      tauto
  refine ⟨g, hok, ?_⟩
  rw [heq, List.map_append, List.map_cons, hwrites.map_text hnodup]
  rfl

/-- A stage whose name holds a line break is listed as if it were two. -/
theorem compile_broken_name : ∃ g h,
    compile "A\n1:1:B".toList = .ok g ∧ compile "A->B".toList = .ok h ∧
    g.nodeCount = 3 ∧ (lines g.listOrder).length = 4 ∧
    (lines g.listEdges).length ≠ g.edgeCount ∧
    g.topologicalOrder.map Node.text ≠ h.topologicalOrder.map Node.text ∧
    g.listOrder = h.listOrder := by
  obtain ⟨g, hok, horder⟩ := exists_compile_series (t := "A\n1:1:B".toList) (by decide) rfl
    (Spells.single false (by decide)) (List.nodup_singleton _) fun s hs => by
      obtain ⟨n, rfl⟩ := Tree.eq_atom_of_map hs
      simp [Tree.atoms, Tree.joins_atom]
  obtain ⟨h, hok', horder'⟩ := exists_compile_series (t := "A->B".toList) (by decide) rfl
    (Spells.series false (by decide) (by decide)) (by decide) fun s hs => by
      cases s with
      | seq u v =>
        obtain ⟨hu, hv⟩ := Tree.seq.inj hs
        obtain ⟨a, rfl⟩ := Tree.eq_atom_of_map hu
        obtain ⟨b, rfl⟩ := Tree.eq_atom_of_map hv
        simp [Tree.atoms, Tree.joins_seq_atom, Tree.joins_atom]
      | atom | par => cases hs
  obtain ⟨es, hholds, hfacts⟩ := exists_holds_of_compile hok
  have hcount : g.nodeCount = 3 := by
    have hlength := congrArg List.length horder
    rw [List.length_map, hfacts.perm.length_eq] at hlength
    exact hlength
  have hbroken : ¬ g.Unbroken := fun hunbroken =>
    hfacts.unbroken_iff.1 hunbroken "1:1:A\n1:1:B".toList (by rw [horder]; decide) (by decide)
  refine ⟨g, h, hok, hok', hcount, ?_, fun hlines => hbroken (hholds.unbroken_iff.2 ?_), ?_, ?_⟩
  · rw [Graph.listOrder, horder]
    rfl
  · rw [← length_lines_asLines_iff, List.length_map, ← Graph.edgeCount_eq_length hholds.wellFormed]
    exact hlines
  · rw [horder, horder']
    decide
  · rw [Graph.listOrder, Graph.listOrder, horder, horder']
    rfl

end StageGraph
