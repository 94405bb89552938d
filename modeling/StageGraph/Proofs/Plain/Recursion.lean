import Mathlib.Data.List.Basic
import Mathlib.Tactic
import StageGraph.Proofs.Plain.Tree

set_option autoImplicit false

/-! # Going through a tree

`Tree.walk` is what a walk over frames comes to: a recursion over the tree that puts the edges in
one certain order. The stages behind a term are gone through anew behind each term of a stage, so an
atom may be entered several times.

* `walk_eq_visit` turns the stages behind a tree into a continuation, so that inductions follow the
  tree alone;
* `mem_walk` says that the edges put are those that the tree draws;
* `flatten` brings unions in unions and series in series into one form, and a tree is gone through
  like its flat form (`walk_flatten`).
-/

namespace StageGraph

namespace Tree

variable {α β : Type}

/-- The tree with what is behind it. -/
def followedBy (s : Tree α) : Option (Tree α) → Tree α
  | none => s
  | some u => seq s u

/-- The stages, behind which there may be others. -/
def behind (w : Tree α) : Option (Tree α) → Tree α
  | none => w
  | some u => seq u w

theorem map_followedBy (f : α → β) (s : Tree α) (u : Option (Tree α)) :
    (s.followedBy u).map f = (s.map f).followedBy (u.map (map f)) := by
  cases u <;> rfl

theorem atoms_followedBy_par (t s : Tree α) (u : Option (Tree α)) :
    ((par t s).followedBy u).atoms = t.atoms ++ (s.followedBy u).atoms := by
  cases u with
  | none => rfl
  | some u => exact List.append_assoc _ _ _

theorem mem_atoms_followedBy_par {t s : Tree α} {u : Option (Tree α)} {a : α} :
    a ∈ ((par t s).followedBy u).atoms ↔
      a ∈ (t.followedBy u).atoms ∨ a ∈ (s.followedBy u).atoms := by
  cases u with
  | none => exact List.mem_append
  | some u =>
    simp only [followedBy, atoms, List.mem_append]
    tauto

theorem joins_followedBy_par {prev next a b : α} {t s : Tree α} {u : Option (Tree α)} :
    ((par t s).followedBy u).Joins prev next a b ↔
      (t.followedBy u).Joins prev next a b ∨ (s.followedBy u).Joins prev next a b := by
  cases u with
  | none => exact joins_par
  | some u => exact joins_seq_par

/-! ## The recursion -/

/-- The edges that are put between `prev` and `next`, in their order. The terms of the first stage
are taken from left to right: a term in parentheses is gone through in front of the stages behind
it, and an atom is put behind `prev` and before these stages, or before `next` if there are none. -/
def walk (next : α) : Tree α → Option (Tree α) → α → List (α × α)
  | atom a, none, prev => [(prev, a), (a, next)]
  | atom a, some rest, prev => (prev, a) :: walk next rest none a
  | par s t, rest, prev => walk next s rest prev ++ walk next t rest prev
  | seq s t, none, prev => walk next s (some t) prev
  | seq s t, some rest, prev => walk next s (some (seq t rest)) prev
termination_by t rest => (sizeOf t + sizeOf rest, sizeOf t)
decreasing_by all_goals simp [Prod.lex_def] <;> omega

/-- The edges that are put on the way through the tree, if those behind an atom are given. -/
def visit (onward : α → List (α × α)) : Tree α → α → List (α × α)
  | atom a, prev => (prev, a) :: onward a
  | par s t, prev => visit onward s prev ++ visit onward t prev
  | seq s t, prev => visit (visit onward t) s prev

theorem walk_eq_visit (next : α) (t : Tree α) (rest : Option (Tree α)) (prev : α) :
    t.walk next rest prev = (t.followedBy rest).visit (fun a => [(a, next)]) prev := by
  fun_induction walk next t rest prev with
  | case1 a prev => rfl
  | case2 a rest prev ih => rw [ih]; rfl
  | case3 s t rest prev ih ih' =>
    rw [ih, ih']
    cases rest <;> rfl
  | case4 s t prev ih => rw [ih]; rfl
  | case5 s t rest prev ih => rw [ih]; rfl

theorem walk_followedBy (next : α) (t : Tree α) (rest : Option (Tree α)) (prev : α) :
    (t.followedBy rest).walk next none prev = t.walk next rest prev := by
  rw [walk_eq_visit, walk_eq_visit]
  rfl

theorem walk_followedBy_par (next : α) (s t : Tree α) (rest : Option (Tree α)) (prev : α) :
    ((par s t).followedBy rest).walk next none prev =
      (s.followedBy rest).walk next none prev ++ (t.followedBy rest).walk next none prev := by
  rw [walk_followedBy, walk_followedBy, walk_followedBy, walk]

theorem walk_seq_atom (next a : α) (t : Tree α) (prev : α) :
    (seq (atom a) t).walk next none prev = (prev, a) :: t.walk next none a := by
  rw [walk, walk]

theorem joins_seq_assoc {prev next a b : α} {s t u : Tree α} :
    (seq (seq s t) u).Joins prev next a b ↔ (seq s (seq t u)).Joins prev next a b := by
  simp only [Joins, mem_links_seq, first, last]
  tauto

/-- The edges put are those that the tree draws. -/
theorem mem_walk {next : α} {t : Tree α} {rest : Option (Tree α)} {prev a b : α} :
    (a, b) ∈ t.walk next rest prev ↔ (t.followedBy rest).Joins prev next a b := by
  fun_induction walk next t rest prev with
  | case1 c prev => simp [followedBy, joins_atom]
  | case2 c rest prev ih =>
    show _ ↔ (seq (atom c) rest).Joins prev next a b
    rw [List.mem_cons, ih, joins_seq_atom, Prod.mk.injEq]
    rfl
  | case3 s t rest prev ih ih' => rw [List.mem_append, ih, ih', joins_followedBy_par]
  | case4 s t prev ih => exact ih
  | case5 s t rest prev ih => exact ih.trans joins_seq_assoc.symm

/-- Edges lead to every atom and to `next`. -/
theorem mem_map_snd_walk {next prev : α} {t : Tree α} {b : α} :
    b ∈ (t.walk next none prev).map Prod.snd ↔ b ∈ t.atoms ∨ b = next := by
  simp only [List.mem_map, Prod.exists, exists_eq_right, mem_walk, followedBy]
  constructor
  · rintro ⟨a, h⟩
    exact h.mem.2.symm
  · rintro (hb | rfl)
    · exact (exists_joins_of_mem_atoms prev next hb).1
    · exact (exists_joins_ends prev b t).2

/-! ## Other atoms -/

theorem visit_map (f : α → β) {onward : α → List (α × α)} {onward' : β → List (β × β)}
    (h : ∀ a, onward' (f a) = (onward a).map (Prod.map f f)) (t : Tree α) (prev : α) :
    (t.map f).visit onward' (f prev) = (t.visit onward prev).map (Prod.map f f) := by
  induction t generalizing onward onward' prev with
  | atom a => simp [visit, map, h]
  | par s t ihs iht => simp [visit, map, ihs h, iht h]
  | seq s t ihs iht => exact ihs (fun a => iht h a) prev

/-- Under other names the same edges are put in the same order. -/
theorem walk_map (f : α → β) (next : α) (t : Tree α) (prev : α) :
    (t.map f).walk (f next) none (f prev) = (t.walk next none prev).map (Prod.map f f) := by
  rw [walk_eq_visit, walk_eq_visit]
  exact visit_map f (fun a => rfl) t prev

/-! ## Flat trees -/

/-- The terms of the union in front of another tree. -/
def parOnto : Tree α → Tree α → Tree α
  | par s t, u => par s (parOnto t u)
  | s, u => par s u

/-- The stages of the series in front of another tree. -/
def seqOnto : Tree α → Tree α → Tree α
  | seq s t, u => seq s (seqOnto t u)
  | s, u => seq s u

/-- The tree with unions in unions and series in series spliced into them. -/
def flatten : Tree α → Tree α
  | atom a => atom a
  | par s t => parOnto s.flatten t.flatten
  | seq s t => seqOnto s.flatten t.flatten

theorem seqOnto_assoc (s t u : Tree α) :
    seqOnto (seqOnto s t) u = seqOnto s (seqOnto t u) := by
  induction s with
  | atom a => rfl
  | par s s' _ _ => rfl
  | seq s s' _ ih => simp only [seqOnto, ih]

theorem visit_parOnto (onward : α → List (α × α)) (s t : Tree α) (prev : α) :
    (parOnto s t).visit onward prev = s.visit onward prev ++ t.visit onward prev := by
  induction s with
  | atom a => rfl
  | par s s' _ ih => simp only [parOnto, visit, ih, List.append_assoc]
  | seq s s' _ _ => rfl

theorem visit_seqOnto (onward : α → List (α × α)) (s t : Tree α) (prev : α) :
    (seqOnto s t).visit onward prev = s.visit (t.visit onward) prev := by
  induction s generalizing prev with
  | atom a => rfl
  | par s s' _ _ => rfl
  | seq s s' _ ih =>
    have hrest : (seqOnto s' t).visit onward = s'.visit (t.visit onward) := funext ih
    rw [seqOnto, visit, visit, hrest]

theorem visit_flatten (onward : α → List (α × α)) (t : Tree α) (prev : α) :
    t.flatten.visit onward prev = t.visit onward prev := by
  induction t generalizing onward prev with
  | atom a => rfl
  | par s t ihs iht => rw [flatten, visit_parOnto, ihs, iht, visit]
  | seq s t ihs iht =>
    have hrest : t.flatten.visit onward = t.visit onward := funext (iht onward)
    rw [flatten, visit_seqOnto, hrest, ihs, visit]

/-- A tree is gone through like its flat form. -/
theorem walk_flatten (next : α) (t : Tree α) (prev : α) :
    t.flatten.walk next none prev = t.walk next none prev := by
  rw [walk_eq_visit, walk_eq_visit]
  exact visit_flatten _ t prev

theorem atoms_parOnto (s t : Tree α) : (parOnto s t).atoms = s.atoms ++ t.atoms := by
  induction s with
  | atom a => rfl
  | par s s' _ ih => simp only [parOnto, atoms, ih, List.append_assoc]
  | seq s s' _ _ => rfl

theorem atoms_seqOnto (s t : Tree α) : (seqOnto s t).atoms = s.atoms ++ t.atoms := by
  induction s with
  | atom a => rfl
  | par s s' _ _ => rfl
  | seq s s' _ ih => simp only [seqOnto, atoms, ih, List.append_assoc]

theorem atoms_flatten (t : Tree α) : t.flatten.atoms = t.atoms := by
  induction t with
  | atom a => rfl
  | par s t ihs iht => rw [flatten, atoms_parOnto, ihs, iht, atoms]
  | seq s t ihs iht => rw [flatten, atoms_seqOnto, ihs, iht, atoms]

theorem map_parOnto (f : α → β) (s t : Tree α) :
    (parOnto s t).map f = parOnto (s.map f) (t.map f) := by
  induction s with
  | atom a => rfl
  | par s s' _ ih => simp only [parOnto, map, ih]
  | seq s s' _ _ => rfl

theorem map_seqOnto (f : α → β) (s t : Tree α) :
    (seqOnto s t).map f = seqOnto (s.map f) (t.map f) := by
  induction s with
  | atom a => rfl
  | par s s' _ _ => rfl
  | seq s s' _ ih => simp only [seqOnto, map, ih]

theorem map_flatten (f : α → β) (t : Tree α) : t.flatten.map f = (t.map f).flatten := by
  induction t with
  | atom a => rfl
  | par s t ihs iht => rw [flatten, map_parOnto, ihs, iht, map, flatten]
  | seq s t ihs iht => rw [flatten, map_seqOnto, ihs, iht, map, flatten]

/-- It does not matter where a series is cut in two. -/
theorem flatten_behind (s : Tree α) {u : Option (Tree α)} {v w : Tree α}
    (h : v.flatten = (w.behind u).flatten) :
    (seq s v).flatten = (seq (s.followedBy u) w).flatten := by
  rw [flatten, h]
  cases u with
  | none => rfl
  | some x => simp only [behind, followedBy, flatten, seqOnto_assoc]

end Tree

end StageGraph
