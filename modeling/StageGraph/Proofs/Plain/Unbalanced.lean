import Mathlib.Tactic
import StageGraph.Proofs.Plain.Resolution
import StageGraph.Proofs.Plain.Termination

set_option autoImplicit false

/-! # Terms whose parentheses do not pair up

The parentheses of a term are counted once it starts with an opening and ends with a closing one, so
a term that does not is put into brackets first. An unbalanced term is rejected then, with one
exception (`Mends`): where the count runs down to just below zero and comes back to zero, as in
`A)->(B`, the new brackets pair up with those of the term. Such a term is taken apart, and walked,
as the term in brackets is.
-/

namespace StageGraph

/-- The text is put into brackets before its parentheses are counted, and then they pair up. -/
def Mends (t : Text) : Prop := isEnclosed t = false ∧ depthAfter 1 t = some 1

instance (t : Text) : Decidable (Mends t) := inferInstanceAs (Decidable (_ ∧ _))

/-- The text whose parentheses are counted: that of the term, or of the term in brackets. -/
def countedText (t : Text) : Text := if isEnclosed t then t else SpanStore.wrapped t

theorem isBalanced_wrapped_iff {t : Text} :
    isBalanced (SpanStore.wrapped t) = true ↔ depthAfter 1 t = some 1 := by
  have hclose : ∀ depth, depthAfter depth [')'] = some 0 ↔ depth = 1 := by
    intro depth
    match depth with
    | 0 => exact ⟨nofun, nofun⟩
    | depth + 1 => simp [depthAfter]
  rw [isBalanced_iff, SpanStore.wrapped, List.cons_append, depthAfter_cons, if_pos rfl,
    depthAfter_append]
  cases depthAfter 1 t with
  | none => exact ⟨nofun, nofun⟩
  | some depth => rw [Option.bind_some, hclose, Option.some_inj]

theorem isAtomic_eq_false_of_not_isBalanced {t : Text} (h : isBalanced t = false) :
    isAtomic t = false := by
  by_contra hatom
  rw [Bool.not_eq_false] at hatom
  rw [isBalanced_iff.2 (depthAfter_of_open (open_of_isAtomic hatom) 0)] at h
  cases h

theorem isSeparator_eq_false_of_not_isBalanced {t : Text} (h : isBalanced t = false) :
    isSeparator t = false := by
  by_contra hsep
  rw [Bool.not_eq_false] at hsep
  have ht : t = Mark.arrow.text ∨ t = Mark.comma.text := by simpa [isSeparator] using hsep
  rcases ht with rfl | rfl <;> cases h

theorem isSeparator_wrapped (t : Text) : isSeparator (SpanStore.wrapped t) = false := by
  by_contra hsep
  exact (not_mem_of_isSeparator (Bool.not_eq_false _ ▸ hsep)).2 List.mem_cons_self

theorem outline_of_not_isBalanced {t : Text} (h : isBalanced t = false) :
    outline t = .error (.malformed (.unbalanced t)) := by
  rw [outline, outerBrackets, if_neg (by simp [h])]
  rfl

/-! ## Resolving -/

section

variable (term : Span) (store : SpanStore)

theorem resolve_of_not_mends (h : isBalanced term.text = false) (hmends : ¬ Mends term.text) :
    ∃ store', resolve term store =
      .error (.malformed (.unbalanced (countedText term.text))) store' := by
  have hmark := isAtomic_eq_false_of_not_isBalanced h
  unfold countedText
  by_cases hin : isEnclosed term.text = true
  · rw [if_pos hin]
    exact ⟨store, resolve_of_outline_error hmark hin (outline_of_not_isBalanced h)⟩
  · rw [if_neg hin]
    rw [Bool.not_eq_true] at hin
    have hwrapped : isBalanced (SpanStore.wrapped term.text) = false := by
      rw [Bool.eq_false_iff, Ne, isBalanced_wrapped_iff]
      exact fun hdepth => hmends ⟨hin, hdepth⟩
    refine ⟨(store.wrap term).2, ?_⟩
    rw [resolve_of_not_isEnclosed hmark hin]
    refine resolve_of_outline_error ?_ ?_ ?_
    · rw [SpanStore.text_wrap]
      exact isAtomic_wrapped _
    · rw [SpanStore.text_wrap]
      exact isEnclosed_wrapped _
    · rw [SpanStore.text_wrap]
      exact outline_of_not_isBalanced hwrapped

theorem resolve_of_mends (h : isBalanced term.text = false) (hmends : Mends term.text) :
    resolve term store = resolve (store.wrap term).1 (store.wrap term).2 ∧
      ∃ parts store', resolve term store = .ok parts store' ∧
        PartsOf (SpanStore.wrapped term.text) parts := by
  have heq : resolve term store = resolve (store.wrap term).1 (store.wrap term).2 :=
    resolve_of_not_isEnclosed (isAtomic_eq_false_of_not_isBalanced h) hmends.1
  have hbal : isBalanced (store.wrap term).1.text = true := by
    rw [SpanStore.text_wrap]
    exact isBalanced_wrapped_iff.2 hmends.2
  have hmark : isAtomic (store.wrap term).1.text = false := by
    rw [SpanStore.text_wrap]
    exact isAtomic_wrapped _
  obtain ⟨_, _, _, _, -, hresolution⟩ := exists_resolution (store.wrap term).2 hbal hmark
  have hparts := hresolution.parts
  rw [SpanStore.text_wrap] at hparts
  exact ⟨heq, _, _, heq.trans hresolution.resolve_eq, hparts⟩

end

/-! ## Walking -/

section

variable {topology : UInt32} {root term term' : Span} {store : SpanStore} {graph : Graph}

/-- A root that is no separator is the only term of its stage. -/
theorem walkTopology_eq (hsep : isSeparator root.text = false) :
    walkTopology topology root store graph =
      walkFrames topology [.term root none .start .finish] ⟨⟨store, .empty⟩, graph⟩ := by
  have hdivide : divide [root] = .ok (some ⟨[root], none⟩) := by
    simp [divide, divideFrom, hsep, Except.map]
  have hstep : (Walk.mk ⟨store, .empty⟩ graph).walker.step topology
      (.stages [root] .start .finish) =
        .ok ⟨[], [.term root none .start .finish]⟩ ⟨store, .empty⟩ := by
    simp [Walker.step, hdivide]
  have hput : Graph.putEdges [] graph = .ok () graph := rfl
  exact walkFrames_of_step hstep hput

/-- Terms with the same parts are walked alike, save for the message about an empty term. -/
theorem enterTerm_ok_iff {w w' v : Walker} {tail : Option (List Span)} {prev next : Node}
    {move : Move} (hparts : resolve term w.spans = resolve term' w'.spans)
    (hordinals : w.ordinals = w'.ordinals) :
    w.enterTerm topology term tail prev next = .ok move v ↔
      w'.enterTerm topology term' tail prev next = .ok move v := by
  obtain ⟨spans, ordinals⟩ := w
  obtain ⟨spans', ordinals'⟩ := w'
  cases hordinals
  simp only [Walker.enterTerm, hparts]
  cases resolve term' spans' with
  | error failure store => exact ⟨nofun, nofun⟩
  | ok parts store =>
    rcases parts with _ | ⟨part, _ | ⟨part', parts⟩⟩
    · exact ⟨nofun, nofun⟩
    · exact Iff.rfl
    · exact Iff.rfl

/-- Taking a term that mends for the term in brackets makes no difference to a walk that ends. -/
theorem walkTopology_wrap_ok_iff (h : isBalanced root.text = false)
    (hparts : resolve root store = resolve (store.wrap root).1 (store.wrap root).2) {walk : Walk} :
    walkTopology topology root store graph = .ok () walk ↔
      walkTopology topology (store.wrap root).1 (store.wrap root).2 graph = .ok () walk := by
  have hsep : isSeparator (store.wrap root).1.text = false := by
    rw [SpanStore.text_wrap]
    exact isSeparator_wrapped _
  rw [walkTopology_eq (isSeparator_eq_false_of_not_isBalanced h), walkTopology_eq hsep,
    walkFrames_cons_ok_iff, walkFrames_cons_ok_iff]
  simp only [Walker.step]
  refine exists_congr fun move => exists_congr fun w => exists_congr fun g => ?_
  exact and_congr_left' (enterTerm_ok_iff hparts rfl)

end

/-- An unbalanced term is rejected as such, and so is a topology that it writes, unless it mends.
Then it is taken apart as the term in brackets is, and a topology that it writes can be walked if
and only if the one in brackets can. -/
theorem resolve_of_not_isBalanced (topology : UInt32) (term : Span) (store : SpanStore)
    (graph : Graph) (h : isBalanced term.text = false) :
    (¬ Mends term.text →
      (∃ store', resolve term store =
        .error (.malformed (.unbalanced (countedText term.text))) store') ∧
      ∃ walk, walkTopology topology term store graph =
        .error (.malformed (.unbalanced (countedText term.text))) walk) ∧
    (Mends term.text →
      (∃ parts store', resolve term store = .ok parts store' ∧
        PartsOf (SpanStore.wrapped term.text) parts) ∧
      ∀ walk, walkTopology topology term store graph = .ok () walk ↔
        walkTopology topology (store.wrap term).1 (store.wrap term).2 graph = .ok () walk) := by
  refine ⟨fun hmends => ?_, fun hmends => ?_⟩
  · obtain ⟨store', hresolve⟩ := resolve_of_not_mends term store h hmends
    refine ⟨⟨store', hresolve⟩, ⟨⟨store', .empty⟩, graph⟩, ?_⟩
    rw [walkTopology_eq (isSeparator_eq_false_of_not_isBalanced h)]
    refine walkFrames_of_step_error ?_
    rw [Walker.step, Walker.enterTerm, hresolve]
  · obtain ⟨heq, hparts⟩ := resolve_of_mends term store h hmends
    exact ⟨hparts, fun walk => walkTopology_wrap_ok_iff h heq⟩

/-- `((A)` is rejected by itself, `A)` in brackets. -/
theorem resolve_unbalanced_rejected :
    (∃ store', resolve ⟨1, "((A)".toList⟩ .new =
      .error (.malformed (.unbalanced "((A)".toList)) store') ∧
    ∃ store', resolve ⟨1, "A)".toList⟩ .new =
      .error (.malformed (.unbalanced "(A))".toList)) store' :=
  ⟨((resolve_of_not_isBalanced 1 ⟨1, "((A)".toList⟩ .new .empty (by decide)).1 (by decide)).1,
    ((resolve_of_not_isBalanced 1 ⟨1, "A)".toList⟩ .new .empty (by decide)).1 (by decide)).1⟩

/-- The parentheses of `A)->(B` do not pair up, but it is taken apart and walked. -/
theorem walk_unbalanced : isBalanced "A)->(B".toList = false ∧
    (∃ parts store', resolve (SpanStore.new.add "A)->(B".toList).1
      (SpanStore.new.add "A)->(B".toList).2 = .ok parts store') ∧
    ∃ walk, walkTopology 1 (SpanStore.new.add "A)->(B".toList).1
      (SpanStore.new.add "A)->(B".toList).2 .empty = .ok () walk := by
  have hwrap : Piece.parts ⟨.root, "A)->(B".toList⟩ =
      Piece.parts ⟨.wrapping .root, "(A)->(B)".toList⟩ :=
    Piece.parts_of_not_isEnclosed (by decide) (by decide)
  have hparts := hwrap.trans (Piece.parts_pair (.wrapping .root))
  have hbal : isBalanced "A)->(B".toList = false := by decide
  obtain ⟨-, parts, store', hresolve, -⟩ :=
    resolve_of_mends (SpanStore.new.add "A)->(B".toList).1 (SpanStore.new.add "A)->(B".toList).2
      hbal (by decide)
  refine ⟨hbal, ⟨parts, store', hresolve⟩, ?_⟩
  exact exists_walk_of_two 1 SpanStore.sound_new Graph.wellFormed_empty
    (by decide) (by decide) rfl hparts (by decide) rfl (by decide)

end StageGraph
