import Mathlib.Data.List.Basic
import Mathlib.Tactic
import StageGraph.Proofs.Plain.Grammar
import StageGraph.Proofs.Plain.Spelling

set_option autoImplicit false

/-! # What is read and what the grammar says

A row is read as the tree that its tokens spell, and tokens whose row can be read are a phrase of
the slack grammar:

* a phrase makes the same parts whatever stands behind it (`Spells.renders`), and these parts can be
  read (`Spells.exists_row`);
* the tokens of a row that can be read are scanned from left to right, and where a term is expected
  there is one (`Fits.phrase`).
-/

namespace StageGraph

/-! ## Parts of rows -/

theorem Row.parts_push {r : Row} (hfront : r.layout.front = []) (s : Separator) :
    (r.push s).parts = s.mark.text :: r.parts := by
  cases r with
  | done gap =>
    obtain rfl := gapText_eq_nil.1 hfront
    simp [push, parts, gapParts, gapText]
  | leaf gap n rest =>
    obtain rfl := gapText_eq_nil.1 hfront
    simp [push, parts, gapParts, gapText]
  | group gap inside rest =>
    obtain rfl := gapText_eq_nil.1 hfront
    simp [push, parts, gapParts, gapText]

/-- A separator in front of a row is a part by itself unless other separators follow it. -/
theorem Row.exists_parts_push (r : Row) (s : Separator) :
    ∃ gap rest, (r.push s).parts = gapText (s :: gap) :: rest ∧ (gap = [] → rest = r.parts) := by
  cases r with
  | done gap =>
    refine ⟨gap, [], by simp [push, parts, gapParts], ?_⟩
    rintro rfl
    rfl
  | leaf gap n rest =>
    refine ⟨gap, n :: rest.parts, by simp [push, parts, gapParts], ?_⟩
    rintro rfl
    rfl
  | group gap inside rest =>
    refine ⟨gap, (if inside = done [] then [] else [inside.text]) ++ rest.parts,
      by simp [push, parts, gapParts], ?_⟩
    rintro rfl
    rfl

theorem Row.parts_leaf (n : Text) (rest : Row) : (leaf [] n rest).parts = n :: rest.parts := rfl

theorem Row.parts_group_nil (rest : Row) : (group [] (done []) rest).parts = rest.parts := rfl

theorem Row.parts_group {inside : Row} (h : inside ≠ done []) (rest : Row) :
    (group [] inside rest).parts = inside.text :: rest.parts := by
  rw [parts, if_neg h]
  rfl

theorem eq_of_isSeparator_gapText {s : Separator} {gap : List Separator}
    (h : isSeparator (gapText (s :: gap)) = true) : gap = [] := by
  cases gap with
  | nil => rfl
  | cons s' gap =>
    cases s <;> cases s' <;> simp [isSeparator, gapText, Separator.mark, Mark.text] at h

/-- The only rows that are written as a separator are separators. -/
theorem Row.eq_of_isSeparator {r : Row} (h : isSeparator r.text = true) :
    ∃ s, r = done [s] := by
  by_cases hdone : ∃ gap, r = done gap
  · obtain ⟨gap, rfl⟩ := hdone
    rw [text_done] at h
    cases gap with
    | nil => cases h
    | cons s gap =>
      obtain rfl := eq_of_isSeparator_gapText h
      exact ⟨s, rfl⟩
  · have hopen := mem_text (r := r) fun gap hgap => hdone ⟨gap, hgap⟩
    exact absurd hopen (not_mem_of_isSeparator h).2

/-! ## From phrases to parts -/

/-- The tokens make these parts in front of any others. -/
def Renders (ts : List Token) (xs : List Text) : Prop :=
  ∀ ⦃ts' : List Token⦄ ⦃r' : Row⦄, Fits ts' r' →
    ∃ r, Fits (ts ++ ts') r ∧ r.layout.front = [] ∧ r.parts = xs ++ r'.parts

namespace Renders

variable {slack : Bool} {ts ms us : List Token} {xs ys : List Text}

theorem name (n : Text) : Renders [.name n] [n] := by
  intro ts' r' h
  exact ⟨_, .name n h, rfl, rfl⟩

theorem pairBefore (h : Renders ts xs) : Renders (.mark .opening :: .mark .closing :: ts) xs := by
  intro ts' r' hfits
  obtain ⟨r, hr, -, hparts⟩ := h hfits
  exact ⟨_, .group .nil (by rintro n ⟨⟩) hr, rfl, by rw [Row.parts_group_nil, hparts]⟩

theorem pairBehind (h : Renders ts xs) : Renders (ts ++ [.mark .opening, .mark .closing]) xs := by
  intro ts' r' hfits
  obtain ⟨r, hr, hfront, hparts⟩ := h (Fits.group .nil (by rintro n ⟨⟩) hfits)
  refine ⟨r, ?_, hfront, hparts⟩
  rwa [List.append_assoc]

theorem separates {s : Separator} (h : Renders ts xs) (hm : Separates slack s ms)
    (h' : Renders us ys) : Renders (ts ++ (ms ++ us)) (xs ++ s.mark.text :: ys) := by
  intro ts' r' hfits
  obtain ⟨r₂, hr₂, hfront₂, hparts₂⟩ := h' hfits
  have hbehind : ∃ r₁, Fits (ms ++ (us ++ ts')) r₁ ∧ r₁.parts = s.mark.text :: r₂.parts := by
    cases hm with
    | bare => exact ⟨_, .sep s hr₂, Row.parts_push hfront₂ s⟩
    | paired _ =>
      refine ⟨_, .group (.sep s .nil) (by rintro n ⟨⟩) hr₂, ?_⟩
      rw [Row.parts_group (by cases s <;> rintro ⟨⟩), Row.text_push]
      simp [Row.text_done, gapText]
  obtain ⟨r₁, hr₁, hparts₁⟩ := hbehind
  obtain ⟨r, hr, hfront, hparts⟩ := h hr₁
  refine ⟨r, ?_, hfront, ?_⟩
  · rwa [List.append_assoc, List.append_assoc]
  · rw [hparts, hparts₁, hparts₂, List.append_assoc, List.cons_append]

/-- A group is a single part, and is read as what is inside. -/
theorem group {d : Tree Text} {v : Option (Tree Text)} (h : Renders ts xs)
    (hreads : ReadsAs xs d v) (hnames : ∀ n, Token.name n ∈ ts → IsName n) :
    ∃ x, Renders (.mark .opening :: (ts ++ [.mark .closing])) [x] ∧
      ReadsAs [x] (d.followedBy v) none := by
  obtain ⟨inside, hfits, -, hparts⟩ := h .nil
  rw [List.append_nil] at hfits
  rw [Row.parts, Row.gapParts, if_pos rfl, List.append_nil] at hparts
  by_cases hname : ∃ n, ts = [.name n]
  · obtain ⟨n, rfl⟩ := hname
    obtain rfl : xs = [n] := by
      rw [← hparts]
      cases hfits with
      | name n hrest =>
        cases hrest
        rfl
    obtain rfl := hreads.eq_none
    refine ⟨n, ?_, hreads⟩
    intro ts' r' hfits'
    exact ⟨_, .wrapped n hfits', rfl, rfl⟩
  · have hne : inside ≠ .done [] := by
      rintro rfl
      exact hreads.ne_nil hparts.symm
    rw [← hparts] at hreads
    refine ⟨inside.text, ?_, (readsAs_text_iff (hfits.named hnames) hne).2 ⟨d, v, hreads, rfl⟩⟩
    intro ts' r' hfits'
    refine ⟨_, ?_, rfl, Row.parts_group hne r'⟩
    rw [List.cons_append, List.append_assoc]
    exact .group hfits (fun n hn => hname ⟨n, hn⟩) hfits'

end Renders

/-- How the parts of a phrase are read. -/
def Level.Reads : Level → List Text → Tree Text → Prop
  | .term, xs, e => ∃ x, xs = [x] ∧ ReadsAs [x] e none
  | .stage, xs, e => ReadsAs xs e none
  | .list, xs, e => ∃ d v, ReadsAs xs d v ∧ e = d.followedBy v

/-- A phrase makes parts that are read as the tree that it spells. -/
theorem Spells.renders {slack : Bool} {level : Level} {ts : List Token} {e : Tree Text}
    (h : Spells slack level ts e) (hnames : ∀ n, Token.name n ∈ ts → IsName n) :
    ∃ xs, Renders ts xs ∧ level.Reads xs e := by
  induction h with
  | @name n hlegal =>
    have hn := hnames n (List.mem_singleton_self _)
    exact ⟨[n], .name n, n, rfl, readsAs_name hn.atomic hlegal⟩
  | group h ih =>
    have hinside := fun n hn => hnames n (List.mem_cons_of_mem _ (List.mem_append_left _ hn))
    obtain ⟨xs, hxs, d, v, hreads, rfl⟩ := ih hinside
    obtain ⟨x, hx, hread⟩ := hxs.group hreads hinside
    exact ⟨[x], hx, x, rfl, hread⟩
  | pairBefore hslack h ih =>
    obtain ⟨xs, hxs, hread⟩ := ih fun n hn => hnames n (by simp [hn])
    exact ⟨xs, hxs.pairBefore, hread⟩
  | pairBehind hslack h ih =>
    obtain ⟨xs, hxs, hread⟩ := ih fun n hn => hnames n (by simp [hn])
    exact ⟨xs, hxs.pairBehind, hread⟩
  | stage h ih =>
    obtain ⟨_, hxs, x, rfl, hread⟩ := ih hnames
    exact ⟨[x], hxs, hread⟩
  | comma h hm h' ih ih' =>
    obtain ⟨_, hxs, x, rfl, hread⟩ := ih fun n hn => hnames n (by simp [hn])
    obtain ⟨ys, hys, hread'⟩ := ih' fun n hn => hnames n (by simp [hn])
    exact ⟨_, hxs.separates hm hys, hread.comma hread'⟩
  | list h ih =>
    obtain ⟨xs, hxs, hread⟩ := ih hnames
    exact ⟨xs, hxs, _, none, hread, rfl⟩
  | arrow h hm h' ih ih' =>
    obtain ⟨xs, hxs, hread⟩ := ih fun n hn => hnames n (by simp [hn])
    obtain ⟨ys, hys, d, v, hread', rfl⟩ := ih' fun n hn => hnames n (by simp [hn])
    exact ⟨_, hxs.separates hm hys, _, _, hread.append_arrow hread', rfl⟩

/-- The row of a phrase is read as the tree that it spells. -/
theorem Spells.exists_row {slack : Bool} {ts : List Token} {e : Tree Text}
    (h : Spells slack .list ts e) (hnames : ∀ n, Token.name n ∈ ts → IsName n) :
    ∃ r, Fits ts r ∧ r ≠ .done [] ∧ ReadsAs [r.text] e none := by
  obtain ⟨xs, hxs, d, v, hread, rfl⟩ := h.renders hnames
  obtain ⟨r, hfits, -, hparts⟩ := hxs .nil
  rw [List.append_nil] at hfits
  rw [Row.parts, Row.gapParts, if_pos rfl, List.append_nil] at hparts
  rw [← hparts] at hread
  have hne : r ≠ .done [] := by
    rintro rfl
    exact hread.ne_nil rfl
  exact ⟨r, hfits, hne, (readsAs_text_iff (hfits.named hnames) hne).2 ⟨d, v, hread, rfl⟩⟩

/-! ## From rows to phrases -/

/-- The tokens of a row of separators are these separators. -/
theorem Fits.eq_of_done {ts : List Token} {gap : List Separator} (h : Fits ts (.done gap)) :
    ts = gap.map fun s => .mark s.mark := by
  generalize hr : Row.done gap = r at h
  induction h generalizing gap with
  | nil =>
    cases hr
    rfl
  | @sep ts r s h ih =>
    cases r with
    | done gap' =>
      cases hr
      rw [ih rfl]
      rfl
    | leaf gap' n rest => cases hr
    | group gap' inside rest => cases hr
  | name => cases hr
  | wrapped => cases hr
  | group => cases hr

/-- Nothing follows a term, or a separator and what can be read by itself. -/
def Continues (xs : List Text) : Prop :=
  xs = [] ∨ ∃ y ys, xs = y :: ys ∧ isSeparator y = true ∧ ∃ d v, ReadsAs ys d v

theorem IsName.not_isSeparator {n : Text} (hn : IsName n) : isSeparator n = false := by
  rw [← Bool.not_eq_true]
  intro hsep
  have := (not_mem_of_isSeparator hsep).1
  rw [hn.atomic] at this
  cases this

theorem Phrase.pair_list {ts : List Token} (h : Phrase true false ts) :
    Phrase true false (.mark .opening :: .mark .closing :: ts) := by
  cases h with
  | one h => exact .one (.pairBefore rfl h)
  | more h hm h' => exact .more (.pairBefore rfl h) hm h'

/-- The tokens of a row that can be read, scanned from left to right: where a term is expected, they
are a list, and behind a term they complete a list. -/
theorem Fits.phrase {ts : List Token} {r : Row} (h : Fits ts r)
    (hnames : ∀ n, Token.name n ∈ ts → IsName n) :
    (∀ d v, ReadsAs r.parts d v → Phrase true false ts) ∧
      ∀ us, Phrase true true us → Continues r.parts → Phrase true false (us ++ ts) := by
  induction h with
  | nil =>
    refine ⟨fun d v hread => absurd rfl hread.ne_nil, fun us hus _ => ?_⟩
    rw [List.append_nil]
    exact .one hus
  | @sep ts r s h ih =>
    obtain ⟨gap, rest, hparts, hrest⟩ := r.exists_parts_push s
    rw [hparts]
    constructor
    · intro d v hread
      obtain ⟨⟨e, he⟩, -⟩ := hread.uncons
      exact absurd he (not_readsAs_gapText (List.cons_ne_nil s gap))
    -- the part is a separator only if no other separators follow this one
    · rintro us hus (hnil | ⟨y, ys, hcons, hsep, d, v, hread⟩)
      · cases hnil
      · cases hcons
        rw [hrest (eq_of_isSeparator_gapText hsep)] at hread
        have hts := (ih fun n hn => hnames n (List.mem_cons_of_mem _ hn)).1 d v hread
        exact .more hus .bare hts
  | @name ts r n h ih =>
    have hn := hnames n List.mem_cons_self
    have ih := ih fun m hm => hnames m (List.mem_cons_of_mem _ hm)
    rw [Row.parts_leaf]
    constructor
    · intro d v hread
      obtain ⟨⟨e, he⟩, hmore⟩ := hread.uncons
      exact ih.2 [.name n] (.name (legal_of_readsAs hn.atomic he)) hmore
    · rintro us - (hnil | ⟨y, ys, hcons, hsep, -⟩)
      · cases hnil
      · cases hcons
        rw [hn.not_isSeparator] at hsep
        cases hsep
  | @wrapped ts r n h ih =>
    have hn := hnames n (by simp)
    have ih := ih fun m hm => hnames m (by simp [hm])
    rw [Row.parts_leaf]
    constructor
    · intro d v hread
      obtain ⟨⟨e, he⟩, hmore⟩ := hread.uncons
      exact ih.2 [.mark .opening, .name n, .mark .closing]
        (.group (.one (.name (legal_of_readsAs hn.atomic he)))) hmore
    · rintro us - (hnil | ⟨y, ys, hcons, hsep, -⟩)
      · cases hnil
      · cases hcons
        rw [hn.not_isSeparator] at hsep
        cases hsep
  | @group us ts inside r hu hus h ihu ih =>
    have hinside : ∀ n, Token.name n ∈ us → IsName n := fun n hn => hnames n (by simp [hn])
    have ih := ih fun m hm => hnames m (by simp [hm])
    by_cases hnil : inside = .done []
    · -- an empty pair belongs to the term next to it
      subst hnil
      obtain rfl := hu.eq_of_done
      rw [Row.parts_group_nil]
      constructor
      · intro d v hread
        exact (ih.1 d v hread).pair_list
      · intro vs hvs hmore
        have := ih.2 _ (.pairBehind rfl hvs) hmore
        rwa [List.append_assoc] at this
    · rw [Row.parts_group hnil]
      constructor
      · intro d v hread
        obtain ⟨⟨e, he⟩, hmore⟩ := hread.uncons
        obtain ⟨d', v', hread', -⟩ := (readsAs_text_iff (hu.named hinside) hnil).1 he
        have := ih.2 _ (.group ((ihu hinside).1 d' v' hread')) hmore
        rwa [List.cons_append, List.append_assoc] at this
      -- behind a term a group is no term, but a separator may stand in parentheses
      · rintro vs hvs (hnil' | ⟨y, ys, hcons, hsep, d, v, hread⟩)
        · cases hnil'
        · cases hcons
          obtain ⟨s, rfl⟩ := Row.eq_of_isSeparator hsep
          obtain rfl := hu.eq_of_done
          exact .more hvs (.paired rfl) (ih.1 d v hread)

/-- Tokens whose row can be read are a list of the slack grammar. -/
theorem Fits.phrase_of_readsAs {ts : List Token} {r : Row} (h : Fits ts r)
    (hnames : ∀ n, Token.name n ∈ ts → IsName n) (hne : r ≠ .done []) {e : Tree Text}
    (hread : ReadsAs [r.text] e none) : Phrase true false ts := by
  obtain ⟨d, v, hparts, -⟩ := (readsAs_text_iff (h.named hnames) hne).1 hread
  exact (h.phrase hnames).1 d v hparts

end StageGraph
