import Mathlib.Tactic
import StageGraph.Proofs.EdgeList.Agreement
import StageGraph.Proofs.EdgeList.Ends
import StageGraph.Proofs.EdgeList.Renaming
import StageGraph.Proofs.Plain.Validity

set_option autoImplicit false

/-! # Reserved names

No stage of a plain expression has a reserved name. In an edge list it depends on the numbers in
front of it what a reserved name comes to: with two zeros it is a sentinel, for which the list is
refused, and otherwise it is the name of a stage like any other (`compile_reserved`).
-/

namespace StageGraph

section

variable {t : Text} {g : Graph}

/-! ## Plain expressions -/

/-- The nodes of a graph that is drawn are called like the atoms of the trees, sentinels apart. -/
theorem Graph.Draws.name_mem {es : List (Tree Text)} {ss : List (Tree Node)} (h : g.Draws es ss)
    {n : Node} (hn : n ∈ g.nodes) (hstage : n.isSentinel = false) : ∃ e ∈ es, n.name ∈ e.atoms := by
  rcases (h.mem_iff n).1 hn with rfl | rfl | ⟨s, hs, hatom⟩
  · cases hstage
  · cases hstage
  · obtain ⟨i, hi⟩ := List.mem_iff_getElem?.1 hs
    obtain ⟨hlt, -⟩ := List.getElem?_eq_some_iff.1 hi
    rw [h.length_eq] at hlt
    have hwrites := h.writes i es[i] s (List.getElem?_eq_getElem hlt) hi
    refine ⟨es[i], List.getElem_mem hlt, ?_⟩
    rw [← hwrites.named, Tree.atoms_map]
    exact List.mem_map_of_mem hatom

/-- In the graph of a plain expression, reserved names are those of the sentinels. -/
theorem isSentinel_of_compile_plain (hplain : Form.detect (Text.trim t) = .ok none)
    (hok : compile t = .ok g) {n : Node} (hn : n ∈ g.nodes) (hname : Reserved n.name) :
    n.isSentinel = true := by
  obtain ⟨es, ss, calls, hspells, -, hdraws⟩ := exists_draws_of_compile hplain hok
  by_contra hstage
  obtain ⟨e, he, hatom⟩ := hdraws.name_mem hn (Bool.eq_false_iff.2 hstage)
  exact hspells.not_reserved he hatom hname

/-! ## Edge lists -/

section

variable {form : Form} {edges : List Edge}

theorem trim_ne_nil_of_detect (hdetect : Form.detect (Text.trim t) = .ok (some (form, edges))) :
    Text.trim t ≠ [] := by
  intro hblank
  rw [hblank] at hdetect
  cases hdetect

/-- What a list builds is the outcome if it is valid. -/
theorem compile_list_built (hdetect : Form.detect (Text.trim t) = .ok (some (form, edges)))
    (hbuild : buildListed edges .empty = .ok () g) :
    compile t = g.validated.mapError (Failure.ofExpression (Text.trim t)) := by
  simp only [compile, if_neg (trim_ne_nil_of_detect hdetect), buildExpression, hdetect, hbuild]

theorem compile_list_failed (hdetect : Form.detect (Text.trim t) = .ok (some (form, edges)))
    {failure : Failure} (hbuild : buildListed edges .empty = .error failure g) :
    compile t = .error failure := by
  simp only [compile, if_neg (trim_ne_nil_of_detect hdetect), buildExpression, hdetect, hbuild]

theorem compile_list_eq_ok_iff (hdetect : Form.detect (Text.trim t) = .ok (some (form, edges))) :
    compile t = .ok g ↔ buildListed edges .empty = .ok () g ∧ g.validate = .ok () := by
  rw [compile_eq_ok_iff, buildExpression, hdetect,
    and_iff_right (trim_ne_nil_of_detect hdetect)]

/-- A list is refused for the first edge that names a sentinel. -/
theorem compile_sentinel_iff (hdetect : Form.detect (Text.trim t) = .ok (some (form, edges)))
    {e : Edge} : compile t = .error (.sentinelEndpoint e) ↔
      edges.find? Edge.namesSentinel = some e := by
  have hloops := (Form.of_detect hdetect).2
  have hfirst : ∀ {d}, edges.find? Edge.namesSentinel = some d →
      compile t = .error (.sentinelEndpoint d) := by
    intro d hd
    obtain ⟨g, hbuild⟩ := buildListed_of_sentinel hloops hd
    exact compile_list_failed hdetect hbuild
  refine ⟨fun herror => ?_, hfirst⟩
  cases hfind : edges.find? Edge.namesSentinel with
  | some d =>
    cases (hfirst hfind).symm.trans herror
    rfl
  | none =>
    -- a list without sentinels is built, and what is wrong with its graph is of another kind
    have hstages : StagesOnly edges := fun d hd => by simpa using List.find?_eq_none.1 hfind d hd
    obtain ⟨g, hbuild⟩ := exists_buildListed hstages hloops
    rw [compile_list_built hdetect hbuild, Graph.validated] at herror
    cases hvalid : g.validate with
    | ok u =>
      rw [hvalid] at herror
      cases herror
    | error failure =>
      obtain ⟨cause, rfl⟩ := validate_error hvalid
      rw [hvalid] at herror
      cases herror

/-- One of the edges names a sentinel if and only if one of the ends spells it. -/
theorem exists_find_iff {ends : List (Text × Text)}
    (hread : Form.readAll (fun p => readEnds p.1 p.2) ends = .ok edges) :
    (∃ e, edges.find? Edge.namesSentinel = some e) ↔
      ∃ p ∈ ends, SpellsSentinel p.1 ∨ SpellsSentinel p.2 := by
  have hlisted : (∃ e, edges.find? Edge.namesSentinel = some e) ↔
      ∃ n ∈ listedNodes edges, n.isSentinel = true := by
    rw [← Option.isSome_iff_exists, List.find?_isSome]
    simp only [Edge.namesSentinel, Bool.or_eq_true, mem_listedNodes]
    constructor
    · rintro ⟨e, he, hsource | htarget⟩
      · exact ⟨e.source, ⟨e, he, .inl rfl⟩, hsource⟩
      · exact ⟨e.target, ⟨e, he, .inr rfl⟩, htarget⟩
    · rintro ⟨n, ⟨e, he, rfl | rfl⟩, hn⟩
      · exact ⟨e, he, .inl hn⟩
      · exact ⟨e, he, .inr hn⟩
  simp only [hlisted, Form.mem_listedNodes_of_readAll hread, ← readEndpoint_sentinel_iff]
  constructor
  · rintro ⟨n, ⟨p, hp, hn | hn⟩, hsentinel⟩
    · exact ⟨p, hp, .inl ⟨n, hn, hsentinel⟩⟩
    · exact ⟨p, hp, .inr ⟨n, hn, hsentinel⟩⟩
  · rintro ⟨p, hp, ⟨n, hn, hsentinel⟩ | ⟨n, hn, hsentinel⟩⟩
    · exact ⟨n, ⟨p, hp, .inl hn⟩, hsentinel⟩
    · exact ⟨n, ⟨p, hp, .inr hn⟩, hsentinel⟩

/-- The stages in the graph of a list are the nodes that are read from its ends. -/
theorem stage_mem_iff {ends : List (Text × Text)}
    (hdetect : Form.detect (Text.trim t) = .ok (some (form, edges)))
    (hread : Form.readAll (fun p => readEnds p.1 p.2) ends = .ok edges) (hok : compile t = .ok g)
    (n : Node) : n ∈ g.nodes ∧ n.isSentinel = false ↔
      ∃ p ∈ ends, readEndpoint p.1 = .ok n ∨ readEndpoint p.2 = .ok n := by
  have hbuild := ((compile_list_eq_ok_iff hdetect).1 hok).1
  rw [← Form.mem_listedNodes_of_readAll hread]
  constructor
  · rintro ⟨hn, hstage⟩
    exact (mem_nodes_of_buildListed hbuild hstage).1 hn
  · intro hn
    have hstage := (stagesOnly_of_buildListed hbuild).isSentinel_eq hn
    exact ⟨(mem_nodes_of_buildListed hbuild hstage).2 hn, hstage⟩

/-- An array of one string lists the edge that is read from it. -/
theorem detect_of_item (item : Text) {e : Edge} (hitem : readItem item = .ok e)
    (ht : Text.trim t = (Json.array [.string item]).compact) :
    Form.detect (Text.trim t) = .ok (some (.strings, [e])) := by
  have hdoc : Json.Document (Json.ArrayOf Json.Literal) [item]
      (Json.array [.string item]).compact := Form.document_strings [item]
  have hne : item ≠ [] := by
    rintro rfl
    cases hitem
  have hclaims : Form.strings.Claims (Text.trim t) := by
    rw [ht]
    exact Form.claims_strings_iff.2 ⟨[item], by simp, by simpa using hne, hdoc⟩
  rw [hclaims.detect_eq, ht, Form.decode_strings_document hdoc, Form.claim_ok (by simp),
    Form.readAll, hitem]
  rfl

theorem exists_compile_of_edge {e : Edge} (hsentinel : e.namesSentinel = false)
    (hdetect : Form.detect (Text.trim t) = .ok (some (form, [e]))) : ∃ g, compile t = .ok g := by
  have hloop := (Form.of_detect hdetect).2 e List.mem_cons_self
  obtain ⟨g, hvalid⟩ := exists_valid_of_edge hsentinel hloop
  exact ⟨g, (compile_list_eq_ok_iff hdetect).2 hvalid⟩

end

end

/-- In the graph of a plain expression the sentinels alone have reserved names. A list of edges is
refused for the first edge that names a sentinel, and there is one exactly if an end of the list
spells a sentinel, with two zeros. The stages of any other list are the nodes that are read from its
ends, also where their names are reserved, and a reserved name without numbers is one of these. -/
theorem compile_reserved (t : Text) :
    (Form.detect (Text.trim t) = .ok none → ∀ g, compile t = .ok g →
      ∀ n ∈ g.nodes, Reserved n.name → n.isSentinel = true) ∧
    ∀ form edges, Form.detect (Text.trim t) = .ok (some (form, edges)) →
      (∀ e, compile t = .error (.sentinelEndpoint e) ↔
        edges.find? Edge.namesSentinel = some e) ∧
      ∃ ends, form.Lists ends (Text.trim t) ∧
        ((∃ e, compile t = .error (.sentinelEndpoint e)) ↔
          ∃ p ∈ ends, SpellsSentinel p.1 ∨ SpellsSentinel p.2) ∧
        ∀ g, compile t = .ok g →
          (∀ n, n ∈ g.nodes ∧ n.isSentinel = false ↔
            ∃ p ∈ ends, readEndpoint p.1 = .ok n ∨ readEndpoint p.2 = .ok n) ∧
          ∀ p ∈ ends, ∀ s, s = p.1 ∨ s = p.2 → Reserved (Text.trim s) →
            ∃ n ∈ g.nodes, n.name = Text.trim s ∧ n.isSentinel = false := by
  refine ⟨fun hplain g hok n hn hname => isSentinel_of_compile_plain hplain hok hn hname,
    fun form edges hdetect => ⟨fun e => compile_sentinel_iff hdetect, ?_⟩⟩
  obtain ⟨ends, hlists, hread⟩ := Form.exists_lists hdetect
  refine ⟨ends, hlists, ?_, fun g hok => ⟨stage_mem_iff hdetect hread hok, ?_⟩⟩
  · simp only [compile_sentinel_iff hdetect, exists_find_iff hread]
  · rintro p hp s hs hreserved
    obtain ⟨n, hn, hname, hstage⟩ := readEndpoint_reserved hreserved
    have hend : readEndpoint p.1 = .ok n ∨ readEndpoint p.2 = .ok n := by
      rcases hs with rfl | rfl
      · exact .inl hn
      · exact .inr hn
    exact ⟨n, ((stage_mem_iff hdetect hread hok n).2 ⟨p, hp, hend⟩).1, hname, hstage⟩

/-- A series of two stages, a list with a sentinel, and a list with a stage that is called like
one. -/
theorem compile_reserved_names : ∃ a, a = letterStage 'A' rfl ∧
    (∃ g, compile "A->B".toList = .ok g ∧ ∀ n ∈ g.nodes, Reserved n.name → n.isSentinel = true) ∧
    compile "[\"A -> 00:0:End\"]".toList = .error (.sentinelEndpoint ⟨a, .finish⟩) ∧
    ∃ g, compile "[\"A -> Start\"]".toList = .ok g ∧
      ∃ ends, Form.strings.Lists ends "[\"A -> Start\"]".toList ∧
        ∀ n, n ∈ g.nodes ∧ n.isSentinel = false ↔
          ∃ p ∈ ends, readEndpoint p.1 = .ok n ∨ readEndpoint p.2 = .ok n := by
  refine ⟨letterStage 'A' rfl, rfl, ?_, ?_, ?_⟩
  · obtain ⟨g, -, hok, -⟩ :=
      compile_of_spells (t := "A->B".toList) (by decide) rfl
        (SpellsAll.of_spells (Spells.series false (by decide) (by decide)))
    exact ⟨g, hok, (compile_reserved "A->B".toList).1 rfl g hok⟩
  · have hdetect : Form.detect (Text.trim "[\"A -> 00:0:End\"]".toList) =
        .ok (some (.strings, [⟨letterStage 'A' rfl, .finish⟩])) :=
      detect_of_item "A -> 00:0:End".toList rfl rfl
    exact (((compile_reserved _).2 _ _ hdetect).1 _).2 rfl
  · obtain ⟨e, hitem, hsentinel⟩ : ∃ e, readItem "A -> Start".toList = .ok e ∧
        e.namesSentinel = false := ⟨_, rfl, rfl⟩
    have hdetect : Form.detect (Text.trim "[\"A -> Start\"]".toList) =
        .ok (some (.strings, [e])) := detect_of_item _ hitem rfl
    obtain ⟨g, hok⟩ := exists_compile_of_edge hsentinel hdetect
    obtain ⟨ends, hlists, -, hstages⟩ := ((compile_reserved _).2 _ _ hdetect).2
    exact ⟨g, hok, ends, hlists, (hstages g hok).1⟩

/-- A list that compiles to a graph with a stage called `Start`. -/
theorem compile_list_names_start : ∃ g n, compile "[\"Start -> A\"]".toList = .ok g ∧
    n ∈ g.nodes ∧ n.name = Node.startName ∧ n.isSentinel = false := by
  obtain ⟨e, hitem, hsentinel, hname, hstage⟩ : ∃ e, readItem "Start -> A".toList = .ok e ∧
      e.namesSentinel = false ∧ e.source.name = Node.startName ∧ e.source.isSentinel = false :=
    ⟨_, rfl, rfl, rfl, rfl⟩
  have hdetect : Form.detect (Text.trim "[\"Start -> A\"]".toList) =
      .ok (some (.strings, [e])) := detect_of_item _ hitem rfl
  obtain ⟨g, hok⟩ := exists_compile_of_edge hsentinel hdetect
  have hbuild := ((compile_list_eq_ok_iff hdetect).1 hok).1
  have hlisted : e.source ∈ listedNodes [e] :=
    mem_listedNodes.2 ⟨e, List.mem_cons_self, .inl rfl⟩
  exact ⟨g, e.source, hok, (mem_nodes_of_buildListed hbuild hstage).2 hlisted, hname, hstage⟩

end StageGraph
