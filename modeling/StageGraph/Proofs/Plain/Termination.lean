import Mathlib.Tactic
import StageGraph.Proofs.Plain.Topology

set_option autoImplicit false

/-! # Rounds of the walk

In one round the walk takes the first frame off its list and puts what it comes to in front of the
others. `Rounds` counts the rounds from one list of frames to another, and `Halts` tells the lists
on which the walk stops. Every round makes the frames weigh less, so the number of rounds is bounded
by the weight (`Rounds.add_framesWeight_le`), whatever the texts, the store, the ordinals and the
graph are.

No round is in vain. A list of terms is never empty when its turn comes (`Rounds.filled`), so that
it is divided into a first stage and the stages behind it without losing a term
(`within_of_divide`), and a frame that leaves no frames has entered a name (`Frame.Filled.step`).
-/

namespace StageGraph

/-! ## Counting rounds -/

/-- So many rounds lead from these frames and what the walk works on to those. -/
inductive Rounds (topology : UInt32) : Nat → List Frame → Walk → List Frame → Walk → Prop where
  | done (frames : List Frame) (walk : Walk) : Rounds topology 0 frames walk frames walk
  | round {n : Nat} {frame : Frame} {rest frames' : List Frame} {walk walk' : Walk} {move : Move}
      {w : Walker} {g : Graph} (hstep : walk.walker.step topology frame = .ok move w)
      (hput : Graph.putEdges move.edges walk.graph = .ok () g)
      (h : Rounds topology n (move.frames ++ rest) ⟨w, g⟩ frames' walk') :
      Rounds topology (n + 1) (frame :: rest) walk frames' walk'

/-- The walk stops at these frames with this result. -/
inductive Halts (topology : UInt32) :
    List Frame → Walk → EStateM.Result Failure Walk Unit → Prop where
  | ended (walk : Walk) : Halts topology [] walk (.ok () walk)
  /-- The first frame comes to nothing. -/
  | frame {frame : Frame} {walk : Walk} {failure : Failure} {w : Walker}
      (hstep : walk.walker.step topology frame = .error failure w) (rest : List Frame) :
      Halts topology (frame :: rest) walk (.error failure ⟨w, walk.graph⟩)
  /-- The graph does not take the edges of the first frame. -/
  | edges {frame : Frame} {walk : Walk} {move : Move} {failure : Failure} {w : Walker} {g : Graph}
      (hstep : walk.walker.step topology frame = .ok move w)
      (hput : Graph.putEdges move.edges walk.graph = .error failure g) (rest : List Frame) :
      Halts topology (frame :: rest) walk (.error failure ⟨w, g⟩)

section

variable {topology : UInt32} {n : Nat} {frames frames' : List Frame} {walk walk' : Walk}

/-- Every round takes some of the weight away. -/
theorem Rounds.add_framesWeight_le (h : Rounds topology n frames walk frames' walk') :
    n + framesWeight frames' ≤ framesWeight frames := by
  induction h with
  | done => exact Nat.le_of_eq (Nat.zero_add _)
  | round hstep hput h ih =>
    have := framesWeight_step hstep
    rw [framesWeight_append] at ih
    rw [framesWeight]
    omega

/-- After finitely many rounds the walk stops. -/
theorem exists_rounds_halts (topology : UInt32) (frames : List Frame) (walk : Walk) :
    ∃ n frames' walk', Rounds topology n frames walk frames' walk' ∧
      Halts topology frames' walk' (walkFrames topology frames walk) := by
  fun_induction walkFrames topology frames walk with
  | case1 walk => exact ⟨0, [], walk, .done _ _, .ended walk⟩
  | case2 walk frame rest failure w hstep => exact ⟨0, _, walk, .done _ _, .frame hstep rest⟩
  | case3 walk frame rest move w hstep failure g hput =>
    exact ⟨0, _, walk, .done _ _, .edges hstep hput rest⟩
  | case4 walk frame rest move w hstep g hput ih =>
    obtain ⟨n, frames', walk', hrounds, hhalts⟩ := ih
    exact ⟨n + 1, frames', walk', .round hstep hput hrounds, hhalts⟩

end

/-! ## Dividing loses nothing -/

namespace Division

/-- Terms with a separator behind each, written as one list. -/
def alternate (pairs : List (Span × Span)) : List Span := pairs.flatMap fun pair => [pair.1, pair.2]

/-- The list is the first stage, with separators between its terms, and the stages behind it. -/
inductive Within : Division → List Span → Prop where
  /-- There is no other stage. -/
  | last {pairs : List (Span × Span)} (hsep : ∀ pair ∈ pairs, isSeparator pair.2.text = true)
      (term : Span) :
      Within ⟨pairs.map Prod.fst ++ [term], none⟩ (alternate pairs ++ [term])
  | followed {pairs : List (Span × Span)} (hsep : ∀ pair ∈ pairs, isSeparator pair.2.text = true)
      (hne : pairs ≠ []) {tail : List Span} (htail : tail ≠ []) :
      Within ⟨pairs.map Prod.fst, some tail⟩ (alternate pairs ++ tail)

theorem Within.head_ne_nil {d : Division} {terms : List Span} (h : d.Within terms) :
    d.head ≠ [] := by
  cases h with
  | last => simp
  | followed _ hne _ => simpa using hne

theorem Within.tail_ne_nil {d : Division} {terms tail : List Span} (h : d.Within terms)
    (htail : d.tail = some tail) : tail ≠ [] := by
  cases h with
  | last => cases htail
  | followed _ _ hne => cases htail; exact hne

/-- The stages behind the first one start at a place of the list. -/
theorem Within.tailIndex_lt {d : Division} {terms : List Span} (h : d.Within terms) {i : Nat}
    (hi : d.tailIndex terms.length = some i) :
    i < terms.length ∧ d.tail = some (terms.drop i) := by
  cases h with
  | last => cases hi
  | @followed pairs _ _ tail htail =>
    have hpos := List.length_pos_of_ne_nil htail
    simp only [tailIndex, Option.map_some, Option.some_inj, List.length_append] at hi
    have hlength : i = (alternate pairs).length := by omega
    rw [hlength, List.drop_left, List.length_append]
    exact ⟨by omega, rfl⟩

end Division

/-- Every second term up to an arrow is in the first stage, and what is behind the arrow is the
tail. Without an arrow at most one term is left behind the last comma. -/
theorem divideFrom_eq_ok {whole terms : List Span} {d : Division}
    (h : divideFrom whole terms = .ok d) :
    ∃ pairs : List (Span × Span), (∀ pair ∈ pairs, isSeparator pair.2.text = true) ∧
      ((∃ tail, pairs ≠ [] ∧ terms = Division.alternate pairs ++ tail ∧
        d = ⟨pairs.map Prod.fst, some tail⟩) ∨
      ∃ rest, rest.length ≤ 1 ∧ terms = Division.alternate pairs ++ rest ∧
        d = ⟨pairs.map Prod.fst ++ rest, none⟩) := by
  fun_induction divideFrom whole terms generalizing d with
  | case1 =>
    cases h
    exact ⟨[], by simp, .inr ⟨[], by simp, rfl, rfl⟩⟩
  | case2 term =>
    cases h
    exact ⟨[], by simp, .inr ⟨[term], by simp, rfl, rfl⟩⟩
  | case3 term separator rest harrow =>
    cases h
    exact ⟨[(term, separator)], by simp [isSeparator, harrow],
      .inl ⟨rest, List.cons_ne_nil _ _, rfl, rfl⟩⟩
  | case4 term separator rest _ hcomma ih =>
    cases hd : divideFrom whole rest with
    | error failure => rw [hd] at h; cases h
    | ok d' =>
      rw [hd] at h
      cases h
      obtain ⟨pairs, hsep, hcases⟩ := ih hd
      refine ⟨(term, separator) :: pairs, ?_, ?_⟩
      · exact List.forall_mem_cons.2 ⟨by simp [isSeparator, hcomma], hsep⟩
      · rcases hcases with ⟨tail, -, rfl, rfl⟩ | ⟨rest, hrest, rfl, rfl⟩
        · exact .inl ⟨tail, List.cons_ne_nil _ _, rfl, rfl⟩
        · exact .inr ⟨rest, hrest, rfl, rfl⟩
  | case5 => cases h

/-- What ends with a separator is turned away. -/
theorem ne_alternate_of_getLast {terms : List Span} (hne : terms ≠ [])
    (hlast : isSeparator (terms.getLast hne).text = false) {pairs : List (Span × Span)}
    (hsep : ∀ pair ∈ pairs, isSeparator pair.2.text = true) : terms ≠ Division.alternate pairs := by
  rintro rfl
  rcases List.eq_nil_or_concat pairs with rfl | ⟨front, pair, rfl⟩
  · exact hne rfl
  · have hend : (Division.alternate (front.concat pair)).getLast hne = pair.2 := by
      simp [Division.alternate]
    rw [hend, hsep pair (by simp)] at hlast
    cases hlast

/-- A list with a term is divided, or it is malformed. -/
theorem within_of_divide {terms : List Span} (hne : terms ≠ []) :
    divide terms ≠ .ok none ∧ ∀ d, divide terms = .ok (some d) → d.Within terms := by
  rw [divide_eq (List.head?_eq_some_head hne) (List.getLast?_eq_some_getLast hne)]
  split
  · exact ⟨nofun, nofun⟩
  next hends =>
  have hlast : isSeparator (terms.getLast hne).text = false := by
    simp only [Bool.or_eq_true, not_or, Bool.not_eq_true] at hends
    exact hends.2
  cases hd : divideFrom terms terms with
  | error failure => exact ⟨nofun, nofun⟩
  | ok d =>
    refine ⟨nofun, ?_⟩
    rintro _ ⟨⟩
    obtain ⟨pairs, hsep, ⟨tail, hpairs, hterms, rfl⟩ | ⟨rest, hrest, hterms, rfl⟩⟩ :=
      divideFrom_eq_ok hd
    · have htail : tail ≠ [] := by
        rintro rfl
        exact ne_alternate_of_getLast hne hlast hsep (by simpa using hterms)
      rw [hterms]
      exact .followed hsep hpairs htail
    · match rest, hrest with
      | [], _ => exact absurd (by simpa using hterms) (ne_alternate_of_getLast hne hlast hsep)
      | [term], _ =>
        rw [hterms]
        exact .last hsep term

/-! ## No round is in vain -/

/-- There is something to walk: a list of terms is not empty, nor are the stages behind a term. -/
def Frame.Filled : Frame → Prop
  | stages terms _ _ => terms ≠ []
  | term _ tail _ _ => ∀ stages, tail = some stages → stages ≠ []

/-- The frame is a term behind `prev` whose only part is a name, and the walker has `node` for the
name. -/
inductive Frame.Enters (topology : UInt32) (w : Walker) : Frame → Node → Node → Prop where
  | mk {term part : Span} {spans : SpanStore} {node : Node} {w' : Walker}
      (hparts : resolve term w.spans = .ok [part] spans) (hatom : isAtomic part.text = true)
      (hnode : ({ w with spans := spans } : Walker).nodeOf topology part = .ok node w')
      (tail : Option (List Span)) (prev next : Node) :
      Frame.Enters topology w (.term term tail prev next) prev node

section

variable {topology : UInt32} {w w' : Walker} {move : Move}

theorem Walker.splice_ne_nil {parts : List Span} (h : parts ≠ []) (tail : Option (List Span)) :
    splice parts tail ≠ [] := by
  unfold splice
  split
  · exact h
  · exact h
  · simp [h]

/-- A term that is walked is a name, or it is replaced by its parts. -/
theorem enterTerm_cases {term : Span} {tail : Option (List Span)} {prev next : Node}
    (h : w.enterTerm topology term tail prev next = .ok move w') :
    (∃ node, Frame.Enters topology w (.term term tail prev next) prev node ∧
      (prev, node) ∈ move.edges ∧
      move.frames = tail.toList.map fun stages => .stages stages node next) ∨
    ∃ parts, parts ≠ [] ∧ move.frames = [.stages (Walker.splice parts tail) prev next] := by
  unfold Walker.enterTerm at h
  split at h
  · cases h
  next parts spans hparts =>
  simp only at h
  split at h
  · cases h
  · next part =>
    split at h
    · next hatom =>
      left
      unfold Walker.enterName at h
      split at h
      · cases h
      next node w'' hnode =>
      split at h
      · cases h
        exact ⟨node, .mk hparts hatom hnode _ _ _, List.mem_cons_self, rfl⟩
      · cases h
        exact ⟨node, .mk hparts hatom hnode _ _ _, List.mem_cons_self, rfl⟩
    split at h
    · cases h
      exact .inr ⟨[part], List.cons_ne_nil _ _, rfl⟩
    · cases h
  · next hne _ =>
    cases h
    exact .inr ⟨parts, hne, rfl⟩

/-- A frame with something to walk comes to frames with something to walk, or it is a name. -/
theorem Frame.Filled.step {frame : Frame} (hf : frame.Filled)
    (h : w.step topology frame = .ok move w') :
    (∀ f ∈ move.frames, f.Filled) ∧ (move.frames ≠ [] ∨
      ∃ prev node, frame.Enters topology w prev node ∧ (prev, node) ∈ move.edges) := by
  cases frame with
  | stages terms prev next =>
    obtain ⟨hsome, hwithin⟩ := within_of_divide hf
    simp only [Walker.step] at h
    split at h
    · cases h
    · next hnone => exact absurd hnone hsome
    next d hd =>
    cases h
    have hd := hwithin d hd
    refine ⟨fun f hframe => ?_, .inl (by simpa using hd.head_ne_nil)⟩
    obtain ⟨term, -, rfl⟩ := List.mem_map.1 hframe
    exact fun tail htail => hd.tail_ne_nil htail
  | term term tail prev next =>
    rcases enterTerm_cases h with ⟨node, henters, hedge, hframes⟩ | ⟨parts, hparts, hframes⟩
    · refine ⟨fun f hframe => ?_, .inr ⟨prev, node, henters, hedge⟩⟩
      rw [hframes] at hframe
      obtain ⟨stages, hstages, rfl⟩ := List.mem_map.1 hframe
      exact hf stages (by simpa using hstages)
    · rw [hframes]
      refine ⟨fun f hframe => ?_, .inl (List.cons_ne_nil _ _)⟩
      rw [List.mem_singleton.1 hframe]
      exact Walker.splice_ne_nil hparts tail

/-- What is known of a frame when its turn comes. -/
structure Frame.Fruitful (topology : UInt32) (w : Walker) (frame : Frame) : Prop where
  divided : ∀ terms prev next, frame = .stages terms prev next →
    terms ≠ [] ∧ divide terms ≠ .ok none ∧ ∀ d, divide terms = .ok (some d) → d.Within terms ∧
      ∀ i, d.tailIndex terms.length = some i → i < terms.length ∧ d.tail = some (terms.drop i)
  behind : ∀ term tail prev next, frame = .term term (some tail) prev next → tail ≠ []
  leaves : ∀ move w', w.step topology frame = .ok move w' → move.frames ≠ [] ∨ move.edges ≠ []

theorem Frame.Filled.fruitful {frame : Frame} (hf : frame.Filled) :
    frame.Fruitful topology w where
  divided := by
    rintro terms prev next rfl
    obtain ⟨hsome, hwithin⟩ := within_of_divide hf
    exact ⟨hf, hsome, fun d hd => ⟨hwithin d hd, fun i hi => (hwithin d hd).tailIndex_lt hi⟩⟩
  behind := by
    rintro term tail prev next rfl
    exact hf tail rfl
  leaves move w' h := by
    refine (hf.step h).2.imp_right ?_
    rintro ⟨prev, node, -, hedge⟩
    exact List.ne_nil_of_mem hedge

end

section

variable {topology : UInt32} {n : Nat} {frames frames' : List Frame} {walk walk' : Walk}

/-- Whatever frames the walk gets to, there is something to walk in all of them. -/
theorem Rounds.filled (h : Rounds topology n frames walk frames' walk')
    (hf : ∀ frame ∈ frames, frame.Filled) : ∀ frame ∈ frames', frame.Filled := by
  induction h with
  | done => exact hf
  | round hstep hput h ih =>
    rw [List.forall_mem_cons] at hf
    refine ih fun frame hframe => ?_
    rcases List.mem_append.1 hframe with hframe | hframe
    · exact (hf.1.step hstep).1 frame hframe
    · exact hf.2 frame hframe

/-- A walk that ends has entered a name. -/
theorem exists_enters_of_walkFrames (hne : frames ≠ []) (hf : ∀ frame ∈ frames, frame.Filled)
    (h : walkFrames topology frames walk = .ok () walk') :
    ∃ n frame rest walk'' prev node, Rounds topology n frames walk (frame :: rest) walk'' ∧
      frame.Enters topology walk''.walker prev node ∧ WalkPuts topology frames walk prev node := by
  fun_induction walkFrames topology frames walk with
  | case1 walk => exact absurd rfl hne
  | case2 walk frame rest failure w hstep => cases h
  | case3 walk frame rest move w hstep failure g hput => cases h
  | case4 walk frame rest move w hstep g hput ih =>
    rw [List.forall_mem_cons] at hf
    obtain ⟨hfilled, hleaves⟩ := hf.1.step hstep
    rcases hleaves with hleaves | ⟨prev, node, henters, hedge⟩
    -- as long as no name is entered, there are frames left
    · obtain ⟨n, frame', rest', walk'', prev, node, hrounds, henters, hputs⟩ :=
        ih (by simp [hleaves]) (fun frame' hframe =>
          (List.mem_append.1 hframe).elim (hfilled frame') (hf.2 frame')) h
      exact ⟨n + 1, frame', rest', walk'', prev, node, .round hstep hput hrounds, henters,
        .later hstep hput hputs⟩
    · exact ⟨0, frame, rest, walk, prev, node, .done _ _, henters, .now hstep hedge⟩

end

/-- Whatever the root says and whatever the walk starts with, the walk stops after a number of
rounds that the length of the root's text bounds. No frame is taken off the list in vain on the way,
and if the walk ends well it has entered a name. `walkTopology` is the case in which no ordinal has
been given yet. -/
theorem walk_ends (topology : UInt32) (root : Span) (walk : Walk) :
    (∃ n frames walk', Rounds topology n [.stages [root] .start .finish] walk frames walk' ∧
      Halts topology frames walk' (walkFrames topology [.stages [root] .start .finish] walk)) ∧
    (∀ n frames walk', Rounds topology n [.stages [root] .start .finish] walk frames walk' →
      n ≤ stagesWeight (Text.bytes root.text)) ∧
    (∀ n frame rest walk',
      Rounds topology n [.stages [root] .start .finish] walk (frame :: rest) walk' →
      frame.Fruitful topology walk'.walker) ∧
    (∀ walk', walkFrames topology [.stages [root] .start .finish] walk = .ok () walk' →
      ∃ n frame rest walk'' prev node,
        Rounds topology n [.stages [root] .start .finish] walk (frame :: rest) walk'' ∧
        frame.Enters topology walk''.walker prev node ∧
        WalkPuts topology [.stages [root] .start .finish] walk prev node) := by
  have hroot : ∀ frame ∈ [Frame.stages [root] .start .finish], frame.Filled := by
    intro frame hframe
    rw [List.mem_singleton.1 hframe]
    exact List.cons_ne_nil root []
  refine ⟨exists_rounds_halts _ _ _, fun n frames walk' h => ?_, fun n frame rest walk' h => ?_,
    fun walk' h => exists_enters_of_walkFrames (List.cons_ne_nil _ _) hroot h⟩
  · have := h.add_framesWeight_le
    simp only [framesWeight, Frame.weight, Frame.bytes, spanBytes, Nat.add_zero] at this
    omega
  · exact (h.filled hroot frame List.mem_cons_self).fruitful

theorem Piece.parts_pair (place : Place) : Piece.parts ⟨place, "(A)->(B)".toList⟩ =
    .ok [⟨.slice (.wrapping place) 2 3, ['A']⟩, ⟨.slice (.wrapping place) 4 6, ['-', '>']⟩,
      ⟨.slice (.wrapping place) 7 8, ['B']⟩] := by
  have hnone : outline "(A)->(B)".toList = .ok none := rfl
  have hsome : outline "((A)->(B))".toList = .ok (some ⟨⟨0, 9⟩, [⟨1, 3⟩, ⟨6, 8⟩]⟩) := rfl
  rw [Piece.parts_of_outline_none rfl rfl hnone, Piece.parts_of_outline rfl rfl hsome]
  rfl

/-- The walk over `(A)->(B)` ends well, so it has entered a name. -/
theorem walk_ends_pair : ∃ walk', walkFrames 1
      [.stages [(SpanStore.new.add "(A)->(B)".toList).1] .start .finish]
      ⟨⟨(SpanStore.new.add "(A)->(B)".toList).2, .empty⟩, .empty⟩ = .ok () walk' ∧
    ∃ n frame rest walk'' prev node,
      Rounds 1 n [.stages [(SpanStore.new.add "(A)->(B)".toList).1] .start .finish]
        ⟨⟨(SpanStore.new.add "(A)->(B)".toList).2, .empty⟩, .empty⟩ (frame :: rest) walk'' ∧
      frame.Enters 1 walk''.walker prev node ∧
      WalkPuts 1 [.stages [(SpanStore.new.add "(A)->(B)".toList).1] .start .finish]
        ⟨⟨(SpanStore.new.add "(A)->(B)".toList).2, .empty⟩, .empty⟩ prev node := by
  obtain ⟨walk', h⟩ := exists_walk_of_two 1 SpanStore.sound_new Graph.wellFormed_empty
    (by decide) (by decide) rfl (Piece.parts_pair .root) (by decide) rfl (by decide)
  exact ⟨walk', h, (walk_ends 1 _ _).2.2.2 walk' h⟩

end StageGraph
