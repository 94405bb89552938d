import Mathlib.Tactic
import StageGraph.Proofs.Plain.Sequence
import StageGraph.Proofs.Renaming

set_option autoImplicit false

/-! # Plain expressions under other names

The grammar sees no more of a name than whether it is reserved, and the ordinals go by which names
are the same. So if the tokens of two texts differ by a renaming, then so do their graphs, node by
node and edge by edge (`exists_compile_of_renamed`), and one of the texts compiles only if the other
does (`exists_compile_of_rename`).
-/

namespace StageGraph

/-- The token with another name. -/
def Token.rename (f : Text → Text) : Token → Token
  | .mark k => .mark k
  | .name n => .name (f n)

/-! ## Phrases -/

section

variable {slack : Bool} {f : Text → Text}

theorem Separates.rename {s : Separator} {ms : List Token} (h : Separates slack s ms) :
    Separates slack s (ms.map (Token.rename f)) := by
  cases h with
  | bare => exact .bare
  | paired hslack => exact .paired hslack

/-- A phrase stays one under names that are not reserved. -/
theorem Spells.rename {level : Level} {ts : List Token} {e : Tree Text}
    (h : Spells slack level ts e) (hf : ∀ n, Token.name n ∈ ts → ¬ Reserved (f n)) :
    Spells slack level (ts.map (Token.rename f)) (e.map f) := by
  induction h with
  | name hlegal => exact .name (hf _ List.mem_cons_self)
  | group h ih =>
    rw [List.map_cons, List.map_append]
    exact .group (ih fun n hn => hf n (by simp [hn]))
  | pairBefore hslack h ih => exact .pairBefore hslack (ih fun n hn => hf n (by simp [hn]))
  | pairBehind hslack h ih =>
    rw [List.map_append]
    exact .pairBehind hslack (ih fun n hn => hf n (by simp [hn]))
  | stage h ih => exact .stage (ih hf)
  | comma h hm h' ih ih' =>
    rw [List.map_append, List.map_append]
    exact .comma (ih fun n hn => hf n (by simp [hn])) hm.rename
      (ih' fun n hn => hf n (by simp [hn]))
  | list h ih => exact .list (ih hf)
  | arrow h hm h' ih ih' =>
    rw [List.map_append, List.map_append]
    exact .arrow (ih fun n hn => hf n (by simp [hn])) hm.rename
      (ih' fun n hn => hf n (by simp [hn]))

theorem joinSections_rename (tss : List (List Token)) :
    joinSections (tss.map (List.map (Token.rename f))) =
      (joinSections tss).map (Token.rename f) := by
  cases tss with
  | nil => rfl
  | cons ts tss =>
    rw [List.map_cons, joinSections_cons, joinSections_cons, List.map_append, List.flatMap_map,
      List.map_flatMap]
    rfl

theorem mem_joinSections {tss : List (List Token)} {us : List Token} {a : Token} (hus : us ∈ tss)
    (ha : a ∈ us) : a ∈ joinSections tss := by
  cases tss with
  | nil => cases hus
  | cons ts tss =>
    rw [joinSections_cons, List.mem_append, List.mem_flatMap]
    rcases List.mem_cons.1 hus with rfl | hus
    · exact .inl ha
    · exact .inr ⟨us, hus, List.mem_cons_of_mem _ ha⟩

theorem SpellsAll.rename {ts : List Token} {es : List (Tree Text)} (h : SpellsAll slack ts es)
    (hf : ∀ n, Token.name n ∈ ts → ¬ Reserved (f n)) :
    SpellsAll slack (ts.map (Token.rename f)) (es.map (Tree.map f)) := by
  obtain ⟨tss, hne, rfl, hspells⟩ := h
  refine ⟨tss.map (List.map (Token.rename f)), by simpa using hne, (joinSections_rename tss).symm,
    ?_⟩
  rw [List.forall₂_map_left_iff, List.forall₂_map_right_iff]
  have hlegal : ∀ us ∈ tss, ∀ n, Token.name n ∈ us → ¬ Reserved (f n) := fun us hus n hn =>
    hf n (mem_joinSections hus hn)
  exact ((List.forall₂_and_left _ es).2 ⟨hlegal, hspells⟩).imp fun us e h => h.2.rename h.1

end

/-! ## Nodes and edges -/

section

variable (r : Renaming) {k : Nat} {es : List (Tree Text)}

theorem numerable_rename : Numerable k (es.map (Tree.map r.rename)) ↔ Numerable k es := by
  have hcount : ∀ (e : Tree Text) name,
      (e.map r.rename).atoms.count (r.rename name) = e.atoms.count name := fun e name => by
    rw [Tree.atoms_map, List.count_map_of_injective _ _ r.injective]
  constructor
  · intro h
    refine ⟨by simpa using h.length_lt, fun e he name => ?_⟩
    rw [← hcount]
    exact h.count_lt _ (List.mem_map_of_mem he) _
  · intro h
    refine ⟨by simpa using h.length_lt, fun e' he' name' => ?_⟩
    obtain ⟨e, he, rfl⟩ := List.mem_map.1 he'
    by_cases hmem : name' ∈ (e.map r.rename).atoms
    · rw [Tree.atoms_map] at hmem
      obtain ⟨name, -, rfl⟩ := List.mem_map.1 hmem
      rw [hcount]
      exact h.count_lt e he name
    · rw [List.count_eq_zero_of_not_mem hmem]
      decide

/-- The renamed stages are numbered as before. -/
theorem Tree.Numbers.rename {s : Tree Node} {number : Nat} {e : Tree Text}
    (h : s.Numbers number e) (hnumber : number ≠ 0) :
    (s.map r.node).Numbers number (e.map r.rename) := by
  have hname : ∀ n ∈ s.atoms, (r.node n).name = r.rename n.name := fun n hn => by
    obtain ⟨hstart, hfinish⟩ := h.ne_sentinel hnumber hn
    exact r.name_node hstart hfinish
  refine ⟨?_, ?_, ?_, ?_⟩
  · rw [← h.named, Tree.map_map, Tree.map_map]
    exact Tree.map_congr hname
  · rw [Tree.atoms_map]
    exact h.nodup.map r.node_injective
  · rw [Tree.atoms_map, List.forall_mem_map]
    exact fun n hn => by rw [r.topology_node, h.topology_eq n hn]
  · rw [Tree.atoms_map, List.forall_mem_map, ← Tree.atoms_map]
    intro n hn
    rw [r.ordinal_node, h.ordinal_eq n hn,
      countP_entered_map rfl rfl (fun _ _ _ _ heq => r.node_injective heq) hn]
    intro m hm
    rw [hname m hm, hname n hn, r.injective.eq_iff]

theorem DrawnAll.rename {ss : List (Tree Node)} {calls : List (Node × Node)}
    (h : DrawnAll k es ss calls) :
    DrawnAll k (es.map (Tree.map r.rename)) (ss.map (Tree.map r.node))
      (calls.map (Prod.map r.node r.node)) where
  length_eq := by rw [List.length_map, List.length_map, h.length_eq]
  numbers i e' s' he' hs' := by
    rw [List.getElem?_map, Option.map_eq_some_iff] at he' hs'
    obtain ⟨e, he, rfl⟩ := he'
    obtain ⟨s, hs, rfl⟩ := hs'
    exact (h.numbers i e s he hs).rename r (Nat.succ_ne_zero _)
  calls_eq := by
    rw [h.calls_eq, List.map_flatMap, List.flatMap_map]
    exact List.flatMap_congr fun s _ => (Tree.walk_map r.node .finish s .start).symm

end

/-! ## Graphs -/

section

variable {t t' : Text} {r : Renaming}

/-- A text with other names has the same graph with these names. -/
theorem exists_compile_of_renamed (hplain : Form.detect (Text.trim t) = .ok none)
    (hplain' : Form.detect (Text.trim t') = .ok none)
    (htokens : tokensOf t' = (tokensOf t).map (Token.rename r.rename))
    (hlegal : ∀ n, Token.name n ∈ tokensOf t → ¬ Reserved (r.rename n)) {g : Graph}
    (hok : compile t = .ok g) : ∃ h, compile t' = .ok h ∧ g.RenamedBy r h := by
  rcases compile_cases hplain with ⟨cause, hfails⟩ | hgrammatical
  · cases hok.symm.trans hfails
  obtain ⟨es, hspells⟩ := hgrammatical.spellsAll
  have hspells' := hspells.rename hlegal
  rw [← htokens] at hspells'
  rcases compile_spells hplain hspells with
    ⟨cause, hfails, -⟩ | ⟨g', ss, calls, hok', hcalls, hall, hdrawn, -⟩
  · cases hok.symm.trans hfails
  cases hok.symm.trans hok'
  rcases compile_spells hplain' hspells' with
    ⟨-, -, hno⟩ | ⟨h, ss', calls', hok', hcalls', -, hdrawn', -⟩
  · exact absurd ((numerable_rename r).2 hall) hno
  -- the other text puts the renamed edges
  obtain rfl := (hdrawn.rename r).calls_eq_of_flatten_eq hdrawn' rfl
  exact ⟨h, hok', (Graph.holds_of_putEdges hcalls.putEdges_eq).renamedBy r
    (Graph.holds_of_putEdges hcalls'.putEdges_eq)⟩

/-- A text compiles if it does so with other names. -/
theorem exists_compile_of_rename (hplain : Form.detect (Text.trim t) = .ok none)
    (hplain' : Form.detect (Text.trim t') = .ok none)
    (htokens : tokensOf t' = (tokensOf t).map (Token.rename r.rename))
    (hlegal : ∀ n, Token.name n ∈ tokensOf t → ¬ Reserved n ∧ ¬ Reserved (r.rename n)) {h : Graph}
    (hok : compile t' = .ok h) : ∃ g, compile t = .ok g := by
  rcases compile_cases hplain' with ⟨cause, hfails⟩ | hgrammatical
  · cases hok.symm.trans hfails
  obtain ⟨es', hspells'⟩ := hgrammatical.spellsAll
  -- the renaming is undone to see that the text itself is grammatical
  obtain ⟨f, hf⟩ := r.injective.hasLeftInverse
  have hback : (tokensOf t').map (Token.rename f) = tokensOf t := by
    rw [htokens, List.map_map]
    refine List.map_id'' (fun a => ?_) _
    cases a with
    | mark k => rfl
    | name n => exact congrArg Token.name (hf n)
  have hspells : ∃ es, SpellsAll true (tokensOf t) es := by
    refine ⟨_, hback ▸ hspells'.rename fun n' hn' => ?_⟩
    obtain ⟨a, ha, hname⟩ := List.mem_map.1 (htokens ▸ hn')
    cases a with
    | mark k => cases hname
    | name n =>
      cases hname
      rw [hf n]
      exact (hlegal n ha).1
  obtain ⟨es, hspells⟩ := hspells
  rcases compile_spells hplain hspells with ⟨-, -, hno⟩ | ⟨g, _, _, hok', _⟩
  · have hspells' := hspells.rename fun n hn => (hlegal n hn).2
    rw [← htokens] at hspells'
    rcases compile_spells hplain' hspells' with ⟨cause, hfails, -⟩ | ⟨_, _, _, _, _, hall, _⟩
    · cases hok.symm.trans hfails
    · exact absurd ((numerable_rename r).1 hall) hno
  · exact ⟨g, hok'⟩

end

end StageGraph
