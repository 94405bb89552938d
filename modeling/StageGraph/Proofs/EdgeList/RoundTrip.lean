import Mathlib.Tactic
import StageGraph.Proofs.EdgeList.Encoding

set_option autoImplicit false

/-! # Decoding undoes encoding

An array of objects is read back whatever the nodes are called. An array of strings is read back
exactly if no name holds an arrow: an item has to have one arrow, and one that a name brings along
is one too many (`readItem_of_arrow`). The edges that were read from an array of strings have names
between the arrows of a text, so both forms carry them (`Form.carries_of_readItem`).
-/

namespace StageGraph

/-! ## The one arrow of an item -/

namespace Marked

/-- No piece of a text that is cut at its arrows holds an arrow. -/
theorem arrowFree_of_mem_texts {t p : Text} (h : p ∈ (read (· == .arrow) t).texts) :
    ArrowFree p := by
  have hpush : ∀ {c : Char} {rest : Text}, (c = '-' → ∀ more, rest ≠ '>' :: more) →
      (∀ q ∈ (read (· == .arrow) rest).texts, ArrowFree q) →
      ∀ q ∈ (pushChar c (read (· == .arrow) rest)).texts, ArrowFree q := by
    intro c rest harrow ih q hq
    rcases List.mem_cons.1 hq with rfl | hq
    · refine (ih _ List.mem_cons_self).cons_of_ne fun hc more hmore => ?_
      -- an arrow at the start of the piece would be one at the start of the text
      obtain ⟨y, hy⟩ := exists_eq_cons_of_first hmore
      exact harrow hc y hy
    · exact ih q (List.mem_cons_of_mem _ hq)
  fun_induction read (· == .arrow) t generalizing p with
  | case1 =>
    rw [List.mem_singleton.1 h]
    exact .of_not_mem List.not_mem_nil
  | case2 rest _ ih =>
    rcases List.mem_cons.1 h with rfl | h
    · exact .of_not_mem List.not_mem_nil
    · exact ih h
  | case3 rest hno => exact absurd rfl hno
  | case4 c rest hne k hk hyes ih =>
    rw [eq_of_beq hyes] at hk
    cases text_ofChar? hk
  | case5 c rest hne k _ _ ih =>
    exact hpush (fun hc more hmore => hne more hc hmore) (fun _ => ih) p h
  | case6 c rest hne _ ih =>
    exact hpush (fun hc more hmore => hne more hc hmore) (fun _ => ih) p h

/-- A text that is cut into two pieces is these with the arrow between them. -/
theorem eq_append_of_texts {s t u : Text} (h : (read (· == .arrow) u).texts = [s, t]) :
    u = s ++ (Mark.arrow.text ++ t) := by
  have htext := text_read (· == .arrow) u
  have haccept : ∀ piece ∈ (read (· == .arrow) u).rest, (piece.1 == Mark.arrow) = true :=
    fun _ => accept_of_mem_rest
  generalize read (· == .arrow) u = m at h htext haccept
  obtain ⟨first, rest⟩ := m
  obtain ⟨rfl, hrest⟩ := List.cons.inj h
  obtain ⟨⟨k, piece⟩, rfl, rfl⟩ := List.map_eq_singleton_iff.1 hrest
  have hk : k = .arrow := eq_of_beq (haccept (k, piece) List.mem_cons_self)
  rw [← htext, hk]
  simp [text]

end Marked

/-- An arrow between two texts without arrows is the only one. -/
theorem ArrowFree.append_arrow_inj {s s' t t' : Text} (hs : ArrowFree s) (ht : ArrowFree t)
    (h : s ++ (Mark.arrow.text ++ t) = s' ++ (Mark.arrow.text ++ t')) : s = s' ∧ t = t' := by
  induction s generalizing s' with
  | nil =>
    rcases s' with - | ⟨c, - | ⟨d, s'⟩⟩
    · exact ⟨rfl, List.append_cancel_left h⟩
    · cases h
    · -- the other arrow would stand in `t`
      have hmem : t = s' ++ (Mark.arrow.text ++ t') := (List.cons.inj (List.cons.inj h).2).2
      exact absurd ⟨s', t', by rw [hmem, List.append_assoc]⟩ ht
  | cons c s ih =>
    cases s' with
    | nil =>
      obtain ⟨hc, hrest⟩ := List.cons.inj h
      exact absurd hrest (hs.ne_arrow_append (by simp [Mark.text]) hc t')
    | cons c' s' =>
      obtain ⟨rfl, hrest⟩ := List.cons.inj h
      obtain ⟨rfl, rfl⟩ := ih hs.of_cons hrest
      exact ⟨rfl, rfl⟩

/-- An item that is read has one arrow, with an end on either side; any other item is refused as
such. -/
theorem readItem_cases (item : Text) :
    (∃ s t, ArrowFree s ∧ ArrowFree t ∧ item = s ++ (Mark.arrow.text ++ t) ∧
      readItem item = readEnds s t) ∨
    readItem item = .error (.malformed (.noEdgeShape item)) := by
  unfold readItem
  split
  · next s t htexts =>
    have hfree : ∀ p ∈ [s, t], ArrowFree p := fun p hp =>
      Marked.arrowFree_of_mem_texts (htexts ▸ hp)
    exact .inl ⟨s, t, hfree s (by simp), hfree t (by simp), Marked.eq_append_of_texts htexts, rfl⟩
  · exact .inr rfl

/-! ## Names with arrows -/

/-- Neither end of the edge has an arrow in its name. -/
def Edge.NamesArrowFree (e : Edge) : Prop := ArrowFree e.source.name ∧ ArrowFree e.target.name

theorem Node.name_infix_text (n : Node) : n.name <:+: n.text :=
  ⟨Text.ofNat n.topology.toNat ++ ':' :: Text.ofNat n.ordinal.toNat ++ [':'], [], by
    simp [Node.text]⟩

/-- An edge with an arrow in a name is no item. -/
theorem readItem_of_arrow {e : Edge} (h : ¬ e.NamesArrowFree) :
    readItem e.text = .error (.malformed (.noEdgeShape e.text)) := by
  rcases readItem_cases e.text with ⟨s, t, hs, ht, htext, -⟩ | herror
  · have hedge : e.text =
        (e.source.text ++ [' ']) ++ (Mark.arrow.text ++ (' ' :: e.target.text)) := by
      simp [Edge.text, Edge.arrow, Mark.text]
    obtain ⟨rfl, rfl⟩ := hs.append_arrow_inj ht (htext.symm.trans hedge)
    have hsource := hs.of_part (e.source.name_infix_text.trans (List.infix_append' [] _ _))
    have htarget := ht.of_part (List.infix_cons e.target.name_infix_text)
    exact absurd ⟨hsource, htarget⟩ h
  · exact herror

/-! ## Names that were read -/

theorem Text.infix_trim (t : Text) : trim t <:+: t := by
  obtain ⟨v, w, -, -, ht⟩ := exists_blank_around t
  exact ⟨v, w, by rw [List.append_assoc, ← ht]⟩

theorem Text.infix_of_cutAt {c : Char} {t before after : Text}
    (h : cutAt c t = some (before, after)) : after <:+: t := by
  rw [(eq_append_of_cutAt h).1]
  exact ⟨before ++ [c], [], by simp⟩

/-- A node gets the name it is given, without the white space around it. -/
theorem Node.name_ofNumbers {topology ordinal : UInt32} {name : Text} {n : Node}
    (h : ofNumbers topology ordinal name = .ok n) : n.name <:+: name := by
  unfold ofNumbers at h
  split at h
  · next hstart =>
    cases h
    exact hstart.2.2 ▸ List.infix_rfl
  split at h
  · next hfinish =>
    cases h
    exact hfinish.2.2 ▸ List.infix_rfl
  · obtain ⟨s, rfl, -, -, hname⟩ := exists_stage_of_ofParts h
    show s.name <:+: name
    rw [hname]
    exact Text.infix_trim name

/-- The name of a node is a part of the text that it is read from. -/
theorem Node.name_read {t : Text} {n : Node} (h : read t = .ok n) : n.name <:+: t := by
  unfold read at h
  split at h
  · cases h
  · next hcut =>
    split at h
    · cases h
    · next hcut' =>
      obtain ⟨topology, -, h⟩ := bind_eq_ok.1 h
      obtain ⟨ordinal, -, h⟩ := bind_eq_ok.1 h
      exact (name_ofNumbers h).trans ((Text.infix_of_cutAt hcut').trans (Text.infix_of_cutAt hcut))

theorem arrowFree_readEndpoint {t : Text} {n : Node} (ht : ArrowFree t)
    (h : readEndpoint t = .ok n) : ArrowFree n.name := by
  have htrim : ArrowFree (Text.trim t) := ht.of_part (Text.infix_trim t)
  unfold readEndpoint at h
  dsimp only at h
  split at h
  · cases h
  split at h
  · exact htrim.of_part (Node.name_read h)
  · exact (htrim.append (by decide)).of_part (Node.name_read h)

theorem Edge.eq_of_between {source target : Node} {e : Edge} (h : between source target = .ok e) :
    e = ⟨source, target⟩ ∧ source ≠ target := by
  unfold between at h
  split at h
  · cases h
  · next hne =>
    cases h
    exact ⟨rfl, hne⟩

/-- The ends of an edge that was read are read from their texts, and differ. -/
theorem Edge.of_readEnds {s t : Text} {e : Edge} (h : readEnds s t = .ok e) :
    readEndpoint s = .ok e.source ∧ readEndpoint t = .ok e.target ∧ e.source ≠ e.target := by
  obtain ⟨source, hsource, h⟩ := bind_eq_ok.1 h
  obtain ⟨target, htarget, h⟩ := bind_eq_ok.1 h
  obtain ⟨rfl, hne⟩ := Edge.eq_of_between h
  exact ⟨hsource, htarget, hne⟩

/-- An edge that is read from an item can be carried by either form. -/
theorem Form.carries_of_readItem {item : Text} {e : Edge} (h : readItem item = .ok e)
    (form : Form) : form.Carries e := by
  rcases readItem_cases item with ⟨s, t, hs, ht, -, hends⟩ | herror
  · obtain ⟨hsource, htarget, hne⟩ := Edge.of_readEnds (hends.symm.trans h)
    exact ⟨hne, fun _ =>
      ⟨arrowFree_readEndpoint hs hsource, arrowFree_readEndpoint ht htarget⟩⟩
  · cases herror.symm.trans h

namespace Form

section

variable {α : Type} {readOne : α → Except Failure Edge} {edges : List Edge}

/-- There is one edge for each item, and no other. -/
theorem of_readAll {items : List α} (h : readAll readOne items = .ok edges) :
    edges.length = items.length ∧ (∀ e ∈ edges, ∃ item ∈ items, readOne item = .ok e) ∧
      ∀ item ∈ items, ∃ e ∈ edges, readOne item = .ok e := by
  induction items generalizing edges with
  | nil =>
    cases h
    exact ⟨rfl, by simp, by simp⟩
  | cons item items ih =>
    obtain ⟨e, he, h⟩ := bind_eq_ok.1 h
    obtain ⟨rest, hrest, h⟩ := bind_eq_ok.1 h
    cases h
    obtain ⟨hlength, hfrom, hto⟩ := ih hrest
    refine ⟨congrArg (· + 1) hlength, List.forall_mem_cons.2 ⟨?_, fun e' he' => ?_⟩,
      List.forall_mem_cons.2 ⟨?_, fun item' hitem => ?_⟩⟩
    · exact ⟨item, List.mem_cons_self, he⟩
    · obtain ⟨item', hitem, hread⟩ := hfrom e' he'
      exact ⟨item', List.mem_cons_of_mem _ hitem, hread⟩
    · exact ⟨e, List.mem_cons_self, he⟩
    · obtain ⟨e', he', hread⟩ := hto item' hitem
      exact ⟨e', List.mem_cons_of_mem _ he', hread⟩

/-- The edges of a claimed list are all that is read from its items, of which there is one. -/
theorem exists_items_of_claim {items : Except Json.Fault (List α)}
    (h : claim readOne items = .ok (some edges)) :
    ∃ as, items = .ok as ∧ as ≠ [] ∧ readAll readOne as = .ok edges := by
  unfold claim at h
  split at h
  · cases h
  · cases h
  · next as hne =>
    obtain ⟨edges', hread, hedges⟩ := map_eq_ok.1 h
    cases hedges
    exact ⟨as, rfl, hne, hread⟩

/-- Each edge of a claimed list was read from an item, and there is at least one. -/
theorem of_claim {items : Except Json.Fault (List α)}
    (h : claim readOne items = .ok (some edges)) :
    edges ≠ [] ∧ ∀ e ∈ edges, ∃ item, readOne item = .ok e := by
  obtain ⟨as, -, hne, hread⟩ := exists_items_of_claim h
  obtain ⟨hlength, hfrom, -⟩ := of_readAll hread
  refine ⟨?_, fun e he => ?_⟩
  · rintro rfl
    exact hne (List.length_eq_zero_iff.1 hlength.symm)
  · obtain ⟨item, -, hitem⟩ := hfrom e he
    exact ⟨item, hitem⟩

/-- The first edge that is not read back fails the list. -/
theorem readAll_map_error {write : Edge → α} {failure : Edge → Failure}
    (h : ∀ e ∈ edges, readOne (write e) = .ok e ∨ readOne (write e) = .error (failure e))
    (hbad : ∃ e ∈ edges, readOne (write e) ≠ .ok e) :
    ∃ e ∈ edges, readAll readOne (edges.map write) = .error (failure e) := by
  induction edges with
  | nil =>
    obtain ⟨e, he, -⟩ := hbad
    cases he
  | cons e edges ih =>
    rw [List.forall_mem_cons] at h
    rcases h.1 with hok | herror
    · have hbad' : ∃ e ∈ edges, readOne (write e) ≠ .ok e := by
        obtain ⟨e', he', hne⟩ := hbad
        rcases List.mem_cons.1 he' with rfl | he'
        · exact absurd hok hne
        · exact ⟨e', he', hne⟩
      obtain ⟨e', he', hread⟩ := ih h.2 hbad'
      refine ⟨e', List.mem_cons_of_mem _ he', ?_⟩
      rw [List.map_cons, readAll, hok, hread]
      rfl
    · refine ⟨e, List.mem_cons_self, ?_⟩
      rw [List.map_cons, readAll, herror]
      rfl

end

/-- The edges of a list that a form claims are those that the form decodes. -/
theorem decode_of_detect {form : Form} {t : Text} {edges : List Edge}
    (h : detect t = .ok (some (form, edges))) : form.decode t = .ok (some edges) := by
  have hamong : ∀ forms : List Form, detectAmong t forms = .ok (some (form, edges)) →
      form.decode t = .ok (some edges) := by
    intro forms hforms
    fun_induction detectAmong t forms with
    | case1 => cases hforms
    | case2 first rest hshape failure => cases hforms
    | case3 first rest hshape edges' hdecode =>
      cases hforms
      exact hdecode
    | case4 first rest hshape hdecode ih => exact ih hforms
    | case5 first rest hshape ih => exact ih hforms
  exact hamong _ h

/-- A claimed list is not empty and has no loop. -/
theorem of_detect {form : Form} {t : Text} {edges : List Edge}
    (h : detect t = .ok (some (form, edges))) : edges ≠ [] ∧ ∀ e ∈ edges, e.source ≠ e.target := by
  have hdecode := decode_of_detect h
  cases form with
  | strings =>
    obtain ⟨hne, hread⟩ := of_claim hdecode
    refine ⟨hne, fun e he => ?_⟩
    obtain ⟨item, hitem⟩ := hread e he
    exact (carries_of_readItem hitem .strings).not_loop
  | objects =>
    obtain ⟨hne, hread⟩ := of_claim hdecode
    refine ⟨hne, fun e he => ?_⟩
    obtain ⟨ends, hends⟩ := hread e he
    exact (Edge.of_readEnds hends).2.2

/-- What a form encodes is decoded by the form and claimed by it, with the same edges. -/
structure ReadsBack (form : Form) (edges : List Edge) : Prop where
  decoded : form.decode (form.encode edges) = .ok (some edges)
  detected : detect (form.encode edges) = .ok (some (form, edges))

theorem ReadsBack.of_carries {form : Form} {edges : List Edge} (hne : edges ≠ [])
    (h : ∀ e ∈ edges, form.Carries e) : form.ReadsBack edges :=
  ⟨decode_encode hne h, detect_encode hne h⟩

/-- An array of strings is refused if a name in it holds an arrow. -/
theorem decode_strings_error {edges : List Edge} (hloop : ∀ e ∈ edges, e.source ≠ e.target)
    (hbad : ∃ e ∈ edges, ¬ e.NamesArrowFree) : ∃ e ∈ edges,
      strings.decode (strings.encode edges) = .error (.malformed (.noEdgeShape e.text)) := by
  have hitems : ∀ e ∈ edges, readItem e.text = .ok e ∨
      readItem e.text = .error (.malformed (.noEdgeShape e.text)) := by
    intro e he
    by_cases hnames : e.NamesArrowFree
    · left
      rw [readItem_text hnames.1 hnames.2, Edge.between_of_ne (hloop e he)]
    · exact .inr (readItem_of_arrow hnames)
  obtain ⟨bad, hmem, hnames⟩ := hbad
  have hread := readItem_of_arrow hnames
  obtain ⟨e, he, hall⟩ := readAll_map_error hitems ⟨bad, hmem, by rw [hread]; nofun⟩
  refine ⟨e, he, ?_⟩
  rw [decode_strings_encode, claim_ok (by simpa using List.ne_nil_of_mem he), hall]
  rfl

theorem detect_strings_error {edges : List Edge} (hne : edges ≠ []) {failure : Failure}
    (h : strings.decode (strings.encode edges) = .error failure) :
    detect (strings.encode edges) = .error failure := by
  rw [detect, detectAmong, hasShape_encode _ hne, if_pos (by decide), h]

/-- Edges that are no loops are read back from an array of objects. From an array of strings they
are read back exactly if no name holds an arrow, and otherwise the array is refused as malformed.
What was read from an array of strings is read back from both. -/
theorem readsBack_encode :
    (∀ edges : List Edge, edges ≠ [] → (∀ e ∈ edges, e.source ≠ e.target) →
      objects.ReadsBack edges ∧
      (strings.ReadsBack edges ↔ ∀ e ∈ edges, e.NamesArrowFree) ∧
      ((∃ e ∈ edges, ¬ e.NamesArrowFree) → ∃ e ∈ edges,
        strings.decode (strings.encode edges) = .error (.malformed (.noEdgeShape e.text)) ∧
        detect (strings.encode edges) = .error (.malformed (.noEdgeShape e.text)))) ∧
    ∀ (t : Text) (edges : List Edge), strings.decode t = .ok (some edges) →
      ∀ form : Form, form.ReadsBack edges := by
  refine ⟨fun edges hne hloop => ⟨?_, ⟨fun hback => ?_, fun hnames => ?_⟩, fun hbad => ?_⟩,
    fun t edges h form => ?_⟩
  · exact .of_carries hne fun e he => ⟨hloop e he, nofun⟩
  · by_contra hbad
    push Not at hbad
    obtain ⟨e, -, herror⟩ := decode_strings_error hloop hbad
    cases herror.symm.trans hback.decoded
  · exact .of_carries hne fun e he => ⟨hloop e he, fun _ => hnames e he⟩
  · obtain ⟨e, he, herror⟩ := decode_strings_error hloop hbad
    exact ⟨e, he, herror, detect_strings_error hne herror⟩
  · obtain ⟨hne, hread⟩ := of_claim h
    refine .of_carries hne fun e he => ?_
    obtain ⟨item, hitem⟩ := hread e he
    exact carries_of_readItem hitem form

/-- A text that is not blank is the name of a stage, less the blanks around it. -/
theorem exists_node_named (name : Text) (hne : Text.trim name ≠ []) :
    ∃ n : Node, n.name = Text.trim name :=
  ⟨.stage ⟨1, 1, Text.trim name, by decide, by decide, hne, Text.trimmed_trim name⟩, rfl⟩

/-- A list with an arrow in a name, and the list without that edge. -/
theorem readsBack_encode_arrow : ∃ good bad : Edge,
    bad.source.name = "A->B".toList ∧
    objects.ReadsBack [good, bad] ∧ ¬ strings.ReadsBack [good, bad] ∧
    (∃ cause, strings.decode (strings.encode [good, bad]) = .error (.malformed cause)) ∧
    strings.ReadsBack [good] ∧ objects.ReadsBack [good] := by
  obtain ⟨a, ha⟩ := exists_node_named "A".toList (by decide)
  obtain ⟨b, hb⟩ := exists_node_named "B".toList (by decide)
  obtain ⟨c, hc⟩ := exists_node_named "A->B".toList (by decide)
  have hgood : a ≠ b := by
    rintro rfl
    exact absurd (ha.symm.trans hb) (by decide)
  have hbad : c ≠ b := by
    rintro rfl
    exact absurd (hc.symm.trans hb) (by decide)
  have hfree : ArrowFree a.name ∧ ArrowFree b.name := by
    rw [ha, hb]
    exact ⟨.of_not_mem (by decide), .of_not_mem (by decide)⟩
  have harrow : ¬ Edge.NamesArrowFree ⟨c, b⟩ := fun h => absurd (hc ▸ h.1) (by decide)
  have hone := readsBack_encode.1 [⟨a, b⟩] (by simp) (by simp [hgood])
  have htwo := readsBack_encode.1 [⟨a, b⟩, ⟨c, b⟩] (by simp) (by simp [hgood, hbad])
  have hstrings := hone.2.1.2 (by simpa [Edge.NamesArrowFree] using hfree)
  obtain ⟨e, -, herror, -⟩ := htwo.2.2 ⟨_, by simp, harrow⟩
  exact ⟨⟨a, b⟩, ⟨c, b⟩, hc, htwo.1, fun hback => harrow (htwo.2.1.1 hback _ (by simp)),
    ⟨_, herror⟩, hstrings, readsBack_encode.2 _ _ hstrings.decoded .objects⟩

end Form

end StageGraph
