import StageGraph.Graph.Basic
import StageGraph.Plain.Division
import StageGraph.Plain.Ordinal
import StageGraph.Plain.Parts

set_option autoImplicit false

/-! # The walk over one topology

A topology is walked stage by stage from `Start` to `End`. A list of terms stands between two nodes
`prev` and `next`. Each term of its first stage is entered in turn: a name becomes a node after
`prev`, and the stages behind it are walked between that node and `next`; a compound term is
replaced by its parts, followed by the stages behind it, and walked in its place.

Every term of a stage is followed by the same spans of the stages behind it, and ordinals go by
span; so all of them lead to the same nodes.

The walk keeps its pending work in a list of frames. It ends because a frame is replaced by frames
that hold fewer bytes of text, save that a list of `n` bytes is replaced by at most `n + 1` terms.
-/

namespace StageGraph

/-- A piece of pending work. -/
inductive Frame where
  /-- A list of terms to be walked between two nodes. -/
  | stages (terms : List Span) (prev next : Node)
  /-- One term of a stage, and the terms of the stages behind that stage. -/
  | term (term : Span) (tail : Option (List Span)) (prev next : Node)

/-- What the walk remembers besides the graph. -/
structure Walker where
  /-- The spans made so far. -/
  spans : SpanStore
  /-- The ordinals given so far in this topology. -/
  ordinals : Ordinals

/-- What a frame comes to: edges to be added, and frames to be worked on in its place. -/
structure Move where
  edges : List (Node × Node)
  frames : List Frame

namespace Walker

/-- The node of a span that is a bare name. -/
def nodeOf (topology : UInt32) (part : Span) (walker : Walker) :
    EStateM.Result Failure Walker Node :=
  if part.text = Node.startName ∨ part.text = Node.finishName then
    .error (.malformed (.reservedName part.text topology)) walker
  else
    let (ordinal, ordinals) := walker.ordinals.allocate part.text part.id
    match Node.ofParts topology ordinal part.text with
    | .error failure => .error failure { walker with ordinals }
    | .ok node => .ok node { walker with ordinals }

/-- The parts of a compound term, followed by the stages behind it. -/
def splice (parts : List Span) : Option (List Span) → List Span
  | none | some [] => parts
  | some tail => parts ++ SpanStore.arrow :: tail

/-- Enters a term that is a bare name: its node comes after `prev`, and before `next` if no stage
is behind it. -/
def enterName (topology : UInt32) (part : Span) (tail : Option (List Span)) (prev next : Node)
    (walker : Walker) : EStateM.Result Failure Walker Move :=
  match walker.nodeOf topology part with
  | .error failure walker => .error failure walker
  | .ok node walker =>
    match tail with
    | none => .ok ⟨[(prev, node), (node, next)], []⟩ walker
    | some tail => .ok ⟨[(prev, node)], [.stages tail node next]⟩ walker

/-- Enters a term of a stage. -/
def enterTerm (topology : UInt32) (term : Span) (tail : Option (List Span)) (prev next : Node)
    (walker : Walker) : EStateM.Result Failure Walker Move :=
  match resolve term walker.spans with
  | .error failure spans => .error failure { walker with spans }
  | .ok parts spans =>
    let walker := { walker with spans }
    match parts with
    | [] => .error (.malformed (.emptyTerm term.text)) walker
    | [part] =>
      if isAtomic part.text then walker.enterName topology part tail prev next
      -- without parentheses the part is the term itself, so taking it apart would not end
      else if '(' ∈ part.text then .ok ⟨[], [.stages (splice [part] tail) prev next]⟩ walker
      else .error (.malformed (.namelessTerm part.text)) walker
    | parts => .ok ⟨[], [.stages (splice parts tail) prev next]⟩ walker

/-- What a frame comes to. -/
def step (topology : UInt32) (frame : Frame) (walker : Walker) :
    EStateM.Result Failure Walker Move :=
  match frame with
  | .stages terms prev next =>
    match divide terms with
    | .error failure => .error failure walker
    | .ok none => .ok ⟨[], []⟩ walker
    | .ok (some d) => .ok ⟨[], d.head.map fun term => .term term d.tail prev next⟩ walker
  | .term term tail prev next => walker.enterTerm topology term tail prev next

end Walker

/-! ## The walk ends -/

/-- The bytes of text in a frame. -/
def Frame.bytes : Frame → Nat
  | stages terms _ _ => spanBytes terms
  | term t tail _ _ => Text.bytes t.text + tailBytes tail

/-- What a term frame of `n` bytes weighs: more than a list frame of fewer bytes. -/
def termWeight : Nat → Nat
  | 0 => 1
  | n + 1 => (n + 1) * termWeight n + 2

/-- What a list frame of `n` bytes weighs: more than `n + 1` term frames of `n` bytes. -/
def stagesWeight (n : Nat) : Nat := (n + 1) * termWeight n + 1

/-- What a frame weighs. -/
def Frame.weight : Frame → Nat
  | stages terms prev next => stagesWeight (stages terms prev next).bytes
  | term t tail prev next => termWeight (term t tail prev next).bytes

/-- What the frames weigh together. -/
def framesWeight : List Frame → Nat
  | [] => 0
  | frame :: frames => frame.weight + framesWeight frames

theorem termWeight_le_succ (n : Nat) : termWeight n ≤ termWeight (n + 1) := by
  have : termWeight n * 1 ≤ termWeight n * (n + 1) := Nat.mul_le_mul_left _ (by omega)
  rw [termWeight, Nat.mul_comm]
  omega

theorem termWeight_mono {m n : Nat} (h : m ≤ n) : termWeight m ≤ termWeight n := by
  induction h with
  | refl => exact Nat.le_refl _
  | step _ ih => exact Nat.le_trans ih (termWeight_le_succ _)

theorem stagesWeight_lt_termWeight {m n : Nat} (h : m < n) : stagesWeight m < termWeight n :=
  calc stagesWeight m < termWeight (m + 1) := by rw [termWeight, stagesWeight]; omega
    _ ≤ termWeight n := termWeight_mono h

theorem framesWeight_terms_lt {heads : List Span} {tail : Option (List Span)} (prev next : Node)
    {n : Nat} (hlen : heads.length ≤ n + 1)
    (hbytes : ∀ t ∈ heads, Text.bytes t.text + tailBytes tail ≤ n) :
    framesWeight (heads.map fun t => .term t tail prev next) < stagesWeight n := by
  have hsum : framesWeight (heads.map fun t => .term t tail prev next) ≤
      heads.length * termWeight n := by
    clear hlen
    induction heads with
    | nil => simp [framesWeight]
    | cons t heads ih =>
      have ht := termWeight_mono (hbytes t List.mem_cons_self)
      have hrest := ih fun s hs => hbytes s (List.mem_cons_of_mem _ hs)
      simp only [framesWeight, List.map_cons, List.length_cons, Frame.weight,
        Frame.bytes, Nat.add_mul, Nat.one_mul] at hrest ⊢
      omega
  have := Nat.mul_le_mul_right (termWeight n) hlen
  rw [stagesWeight]
  omega

theorem spanBytes_splice_le (parts : List Span) (tail : Option (List Span)) :
    spanBytes (Walker.splice parts tail) ≤ spanBytes parts + tailBytes tail := by
  have harrow : Text.bytes SpanStore.arrow.text = 2 := rfl
  unfold Walker.splice
  split
  · simp [tailBytes]
  · simp [tailBytes]
  · simp only [spanBytes_append, spanBytes_cons, tailBytes, harrow]
    omega

theorem framesWeight_enterName {topology : UInt32} {part : Span} {tail : Option (List Span)}
    {prev next : Node} {walker walker' : Walker} {move : Move}
    (h : walker.enterName topology part tail prev next = .ok move walker') :
    framesWeight move.frames < termWeight (Text.bytes part.text + tailBytes tail) := by
  unfold Walker.enterName at h
  split at h
  · cases h
  · split at h
    · cases h
      simp only [framesWeight]
      exact Nat.lt_of_lt_of_le (by decide) (termWeight_mono (Nat.zero_le _))
    · cases h
      simp only [framesWeight, Frame.weight, Frame.bytes, Nat.add_zero]
      exact stagesWeight_lt_termWeight (by simp only [tailBytes]; omega)

theorem framesWeight_splice {parts : List Span} {tail : Option (List Span)} (prev next : Node)
    {n : Nat} (h : spanBytes parts < n) :
    framesWeight [.stages (Walker.splice parts tail) prev next] <
      termWeight (n + tailBytes tail) := by
  have := spanBytes_splice_le parts tail
  simp only [framesWeight, Frame.weight, Frame.bytes, Nat.add_zero]
  exact stagesWeight_lt_termWeight (by omega)

theorem framesWeight_enterTerm {topology : UInt32} {term : Span} {tail : Option (List Span)}
    {prev next : Node} {walker walker' : Walker} {move : Move}
    (h : walker.enterTerm topology term tail prev next = .ok move walker') :
    framesWeight move.frames < termWeight (Text.bytes term.text + tailBytes tail) := by
  unfold Walker.enterTerm at h
  split at h
  · cases h
  · next parts spans hres =>
    have hparts := spanBytes_resolve hres
    simp only at h
    split at h
    · cases h
    · next part =>
      split at h
      -- a name, which is no longer than the term
      · next hatom =>
        have := framesWeight_enterName h
        refine Nat.lt_of_lt_of_le this (termWeight_mono (Nat.add_le_add_right ?_ _))
        rcases hparts with ⟨_, heq⟩ | hlt | hnil | ⟨p, hp, htext, _⟩
        · cases heq; exact Nat.le_refl _
        · simpa [spanBytes] using Nat.le_of_lt hlt
        · cases hnil
        · cases hp; rw [htext]; exact Text.bytes_trim_le _
      · next hatom =>
        split at h
        -- one compound part, which is shorter: else it would be the term without parentheses
        · next hmem =>
          cases h
          apply framesWeight_splice
          rcases hparts with ⟨hterm, heq⟩ | hlt | hnil | ⟨p, hp, htext, hnot⟩
          · cases heq; exact absurd hterm hatom
          · exact hlt
          · cases hnil
          · cases hp
            rw [htext] at hmem
            exact absurd (Text.mem_of_mem_trim hmem) hnot
        · cases h
    -- several parts, which are together shorter than the term
    · next hne hone =>
      cases h
      apply framesWeight_splice
      rcases hparts with ⟨_, heq⟩ | hlt | hnil | ⟨p, hp, _⟩
      · exact absurd heq (hone _)
      · exact hlt
      · exact absurd hnil hne
      · exact absurd hp (hone _)

/-- What a frame comes to weighs less than the frame. -/
theorem framesWeight_step {topology : UInt32} {frame : Frame} {walker walker' : Walker}
    {move : Move} (h : walker.step topology frame = .ok move walker') :
    framesWeight move.frames < frame.weight := by
  unfold Walker.step at h
  split at h
  · next terms prev next =>
    split at h
    · cases h
    · cases h
      simp only [framesWeight, Frame.weight, stagesWeight]
      omega
    · next d hd =>
      cases h
      obtain ⟨hlen, hbytes⟩ := divide_bytes hd
      exact framesWeight_terms_lt prev next hlen hbytes
  · exact framesWeight_enterTerm h

theorem framesWeight_append (xs ys : List Frame) :
    framesWeight (xs ++ ys) = framesWeight xs + framesWeight ys := by
  induction xs with
  | nil => simp [framesWeight]
  | cons frame xs ih => simp [framesWeight, ih, Nat.add_assoc]

/-! ## The walk -/

/-- What the walk works on: what it remembers, and the graph it builds. -/
structure Walk where
  walker : Walker
  graph : Graph

/-- Works through the frames in order, what a frame comes to before the frames after it. -/
def walkFrames (topology : UInt32) (frames : List Frame) (walk : Walk) :
    EStateM.Result Failure Walk Unit :=
  match frames with
  | [] => .ok () walk
  | frame :: rest =>
    match _ : walk.walker.step topology frame with
    | .error failure walker => .error failure { walk with walker }
    | .ok move walker =>
      match Graph.putEdges move.edges walk.graph with
      | .error failure graph => .error failure ⟨walker, graph⟩
      | .ok () graph => walkFrames topology (move.frames ++ rest) ⟨walker, graph⟩
termination_by framesWeight frames
decreasing_by
  have := framesWeight_step (by assumption)
  rw [framesWeight_append]
  simp only [framesWeight] at this ⊢
  omega

/-- Walks the topology that the span `root` writes, from `Start` to `End`. -/
def walkTopology (topology : UInt32) (root : Span) (spans : SpanStore) (graph : Graph) :
    EStateM.Result Failure Walk Unit :=
  walkFrames topology [.stages [root] .start .finish] ⟨⟨spans, .empty⟩, graph⟩

end StageGraph
