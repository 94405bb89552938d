import StageGraph.Json.Reading

set_option autoImplicit false

/-! # Lists, pairs and what is skipped

A list is a JSON array whose items all have one shape. A pair is an object in which two keys occur
exactly once, or an array of exactly two items. The other fields of an object are skipped, however
deep their values are nested.
-/

namespace StageGraph.Json

/-! ## Skipping a value -/

/-- A container that is still open. -/
inductive Container where
  | array
  | object
deriving DecidableEq

/-- Passes over a numeral. -/
def skipNumeral (t : Text) : Except Fault Text :=
  match scanNumeral t with
  | .error _ => .error .illFormed
  | .ok (_, rest) => .ok rest

/-- The text after the colon that has to come next. -/
def colon (t : Text) : Except Fault Text :=
  match skipSpace t with
  | [] => .error .truncated
  | c :: rest => if c = ':' then .ok rest else .error .illFormed

/-- Passes over a key and its colon. -/
def skipKey (t : Text) : Except Fault Text :=
  match skipSpace t with
  | [] => .error .truncated
  | c :: rest =>
    if c = '"' then
      match skippedString.run rest with
      | .error fault => .error fault
      | .ok (_, rest) => colon rest
    else .error .illFormed

/-- Passes over a string, a numeral or a word that begins with `c`. -/
def skipScalar (c : Char) (rest : Text) : Except Fault Text :=
  if c = '"' then (skippedString.run rest).map Prod.snd
  else if startsNumeral c then skipNumeral (c :: rest)
  else
    match literalRest? c with
    | some word => literal word rest
    | none => .error .illFormed

theorem length_colon {s r : Text} (h : colon s = .ok r) : r.length < s.length := by
  unfold colon at h
  split at h
  · cases h
  · next c rest hs =>
    split at h
    · cases h; exact length_skipSpace hs
    · cases h

theorem length_skipKey {s r : Text} (h : skipKey s = .ok r) : r.length < s.length := by
  unfold skipKey at h
  split at h
  · cases h
  · next c rest hs =>
    have := length_skipSpace hs
    split at h
    · split at h
      · cases h
      · next rest' hstring =>
        have := skippedString.shrinks hstring
        have := length_colon h
        omega
    · cases h

theorem length_literal {word s r : Text} (h : literal word s = .ok r) : r.length ≤ s.length := by
  induction word generalizing s with
  | nil => cases h; exact Nat.le_refl _
  | cons c word ih =>
    cases s with
    | nil => cases h
    | cons d s =>
      unfold literal at h
      split at h
      · have := ih h
        simp only [List.length_cons]
        omega
      · cases h

theorem length_someDigits {s r digits : Text} (h : someDigits s = .ok (digits, r)) :
    r.length + digits.length = s.length ∧ digits ≠ [] := by
  unfold someDigits spanDigits at h
  simp only at h
  split at h
  · cases h
  · next hne =>
    cases h
    refine ⟨?_, hne⟩
    have := congrArg List.length (List.takeWhile_append_dropWhile (p := Char.isDigit) (l := s))
    rw [List.length_append] at this
    omega

theorem length_scanInteger {s r digits : Text} (h : scanInteger s = .ok (digits, r)) :
    r.length < s.length := by
  unfold scanInteger at h
  cases hd : someDigits s with
  | error e => rw [hd] at h; cases h
  | ok p =>
    obtain ⟨ds, rest⟩ := p
    rw [hd] at h
    obtain ⟨hlen, hne⟩ := length_someDigits hd
    have : 0 < ds.length := List.length_pos_iff.2 hne
    simp only [bind, Except.bind] at h
    split at h
    · cases h
    · cases h; omega

theorem length_scanFraction {s r digits : Text} (h : scanFraction s = .ok (digits, r)) :
    r.length ≤ s.length := by
  unfold scanFraction at h
  split at h
  · have := (length_someDigits h).1
    simp only [List.length_cons]
    omega
  · cases h; exact Nat.le_refl _

theorem length_scanExponent {s r : Text} {e : Int} (h : scanExponent s = .ok (e, r)) :
    r.length ≤ s.length := by
  have hmap : ∀ {t r : Text} {e : Int} {f : Text → Int},
      ((someDigits t).map fun found => (f found.1, found.2)) = .ok (e, r) →
        r.length ≤ t.length := by
    intro t r e f h
    cases hd : someDigits t with
    | error _ => rw [hd] at h; cases h
    | ok p =>
      rw [hd] at h
      cases h
      have := (length_someDigits hd).1
      omega
  unfold scanExponent at h
  split at h
  · split at h
    · simp only [List.length_cons]
      split at h
      · have := hmap (f := fun digits => -(Text.digitsValue digits : Int)) h
        simp only [List.length_cons]
        omega
      · have := hmap (f := fun digits => (Text.digitsValue digits : Int)) h
        simp only [List.length_cons]
        omega
      · have := hmap (f := fun digits => (Text.digitsValue digits : Int)) h
        omega
    · cases h; exact Nat.le_refl _
  · cases h; exact Nat.le_refl _

theorem length_scanNumeral {s r : Text} {n : Numeral} (h : scanNumeral s = .ok (n, r)) :
    r.length < s.length := by
  have hsign : (afterMinus s).length ≤ s.length := by
    unfold afterMinus
    split <;> simp
  unfold scanNumeral at h
  simp only [bind, Except.bind] at h
  split at h
  · cases h
  · next p hi =>
    have := @length_scanInteger _ p.2 p.1 hi
    split at h
    · cases h
    · next q hf =>
      have := @length_scanFraction _ q.2 q.1 hf
      split at h
      · cases h
      · next w he =>
        have := @length_scanExponent _ w.2 w.1 he
        cases h
        omega

theorem length_skipScalar {c : Char} {s r : Text} (h : skipScalar c s = .ok r) :
    r.length ≤ s.length := by
  unfold skipScalar at h
  split at h
  · cases hs : skippedString.run s with
    | error f => rw [hs] at h; cases h
    | ok p =>
      rw [hs] at h
      cases h
      exact Nat.le_of_lt (skippedString.shrinks hs)
  split at h
  · unfold skipNumeral at h
    split at h
    · cases h
    · next hn =>
      cases h
      have := length_scanNumeral hn
      simp only [List.length_cons] at this
      omega
  split at h
  · exact length_literal h
  · cases h

/-- The character that closes a container. -/
def Container.closing : Container → Char
  | array => ']'
  | object => '\x7d'

/-- Passes to the end of the outermost of the open containers, from a place where a value is due or,
if `ended`, from the end of a value inside them. -/
def skipThrough (ended : Bool) (outer : List Container) (s : Text) : Except Fault Text :=
  match ended, outer with
  | true, [] => .ok s
  | true, container :: outer =>
    match _ : skipSpace s with
    | [] => .error .truncated
    | c :: rest =>
      if c = container.closing then skipThrough true outer rest
      else if c = ',' then
        if container = .array then skipThrough false (container :: outer) rest
        else
          match _ : skipKey rest with
          | .error fault => .error fault
          | .ok rest => skipThrough false (container :: outer) rest
      else .error .illFormed
  | false, outer =>
    match _ : skipSpace s with
    | [] => .error .truncated
    | c :: rest =>
      if c = '[' then
        match _ : skipSpace rest with
        | ']' :: rest => skipThrough true outer rest
        | _ => skipThrough false (.array :: outer) rest
      else if c = '\x7b' then
        match _ : skipSpace rest with
        | '\x7d' :: rest => skipThrough true outer rest
        | _ =>
          match _ : skipKey rest with
          | .error fault => .error fault
          | .ok rest => skipThrough false (.object :: outer) rest
      else
        match _ : skipScalar c rest with
        | .error fault => .error fault
        | .ok rest => skipThrough true outer rest
termination_by s.length
decreasing_by
  all_goals grind [→ length_skipSpace, → length_skipKey, → length_skipScalar]

theorem length_skipThrough {ended : Bool} {outer : List Container} {s r : Text}
    (h : skipThrough ended outer s = .ok r) :
    r.length ≤ s.length ∧ (ended = false → r.length < s.length) := by
  fun_induction skipThrough ended outer s <;>
    grind [→ length_skipSpace, → length_skipKey, → length_skipScalar]

/-- Passes over a value of any shape. -/
def skipValue (s : Text) : Except Fault Text := skipThrough false [] s

/-- Passes over a value of any shape, as a reader. -/
def Reader.skip : Reader Unit where
  run s := (skipValue s).map fun rest => ((), rest)
  shrinks {s r _} h := by
    cases hs : skipValue s with
    | error f => rw [hs] at h; cases h
    | ok rest => rw [hs] at h; cases h; exact (length_skipThrough hs).2 rfl

/-! ## Lists -/

/-- The rest of an array in which an item is due. -/
def listRest {α : Type} (item : Reader α) (s : Text) : Except Fault (List α × Text) :=
  match _ : item.run s with
  | .error fault => .error fault
  | .ok (a, rest) =>
    match _ : skipSpace rest with
    | [] => .error .truncated
    | c :: rest =>
      if c = ']' then .ok ([a], rest)
      else if c = ',' then (listRest item rest).map fun found => (a :: found.1, found.2)
      else .error .illFormed
termination_by s.length
decreasing_by grind [→ Reader.shrinks, → length_skipSpace]

theorem length_listRest {α : Type} {item : Reader α} {s r : Text} {as : List α}
    (h : listRest item s = .ok (as, r)) : r.length < s.length := by
  fun_induction listRest item s generalizing as r with
  | case1 => cases h
  | case2 => cases h
  | case3 s a rest hitem rest' hspace =>
    cases h
    grind [→ Reader.shrinks, → length_skipSpace]
  | case4 s a rest hitem rest' hspace _ ih =>
    cases hr : listRest item rest' with
    | error f => rw [hr] at h; cases h
    | ok p =>
      rw [hr] at h
      cases h
      have := ih hr
      grind [→ Reader.shrinks, → length_skipSpace]
  | case5 => cases h

/-- Reads an array whose items all have the shape of `item`. -/
def Reader.list {α : Type} (item : Reader α) : Reader (List α) where
  run s :=
    match skipSpace s with
    | '[' :: rest =>
      match skipSpace rest with
      | ']' :: rest => .ok ([], rest)
      | _ => listRest item rest
    | other => .error (otherShape other)
  shrinks {s r as} h := by
    split at h
    · split at h
      · cases h
        grind [→ length_skipSpace]
      · grind [→ length_skipSpace, → length_listRest]
    · cases h

/-! ## Pairs -/

/-- Reads a colon and then a value. -/
def Reader.afterColon {α : Type} (value : Reader α) : Reader α where
  run s :=
    match colon s with
    | .error fault => .error fault
    | .ok rest => value.run rest
  shrinks {s r a} h := by
    split at h
    · cases h
    · grind [→ Reader.shrinks, → length_colon]

/-- The text after the quote that opens a key, where `c` is the next character of an object and a
key is due that is or is not its first. -/
def keyStart (isFirst : Bool) (c : Char) (rest : Text) : Except Fault Text :=
  if isFirst then
    if c = '"' then .ok rest else .error .illFormed
  else if c = ',' then
    match skipSpace rest with
    | [] => .error .truncated
    | d :: rest => if d = '"' then .ok rest else .error .illFormed
  else .error .illFormed

theorem length_keyStart {isFirst : Bool} {c : Char} {s r : Text}
    (h : keyStart isFirst c s = .ok r) : r.length ≤ s.length := by
  unfold keyStart at h
  split at h
  · split at h <;> cases h
    exact Nat.le_refl _
  split at h
  · split at h
    · cases h
    · next hs =>
      split at h <;> cases h
      exact Nat.le_of_lt (length_skipSpace hs)
  · cases h

/-- The rest of an object that holds a pair; `a` and `b` are the two values read so far. -/
def fieldsRest {α : Type} (keys : Text × Text) (item : Reader α) (isFirst : Bool)
    (a b : Option α) (s : Text) : Except Fault ((α × α) × Text) :=
  match _ : skipSpace s with
  | [] => .error .truncated
  | c :: rest =>
    if c = '\x7d' then
      match a, b with
      | some a, some b => .ok ((a, b), rest)
      | _, _ => .error .unfit
    else
      match _ : keyStart isFirst c rest with
      | .error fault => .error fault
      | .ok rest =>
        match _ : spelledString.run rest with
        | .error fault => .error fault
        | .ok (key, rest) =>
          if key = keys.1 then
            if a.isSome then .error .unfit
            else
              match _ : item.afterColon.run rest with
              | .error fault => .error fault
              | .ok (a, rest) => fieldsRest keys item false (some a) b rest
          else if key = keys.2 then
            if b.isSome then .error .unfit
            else
              match _ : item.afterColon.run rest with
              | .error fault => .error fault
              | .ok (b, rest) => fieldsRest keys item false a (some b) rest
          else
            match _ : Reader.skip.afterColon.run rest with
            | .error fault => .error fault
            | .ok (_, rest) => fieldsRest keys item false a b rest
termination_by s.length
decreasing_by all_goals grind [→ Reader.shrinks, → length_skipSpace, → length_keyStart]

theorem length_fieldsRest {α : Type} {keys : Text × Text} {item : Reader α} {isFirst : Bool}
    {a b : Option α} {s r : Text} {p : α × α}
    (h : fieldsRest keys item isFirst a b s = .ok (p, r)) : r.length < s.length := by
  fun_induction fieldsRest keys item isFirst a b s <;>
    grind [→ Reader.shrinks, → length_skipSpace, → length_keyStart]

/-- The rest of an array that holds a pair. -/
def itemsRest {α : Type} (item : Reader α) (s : Text) : Except Fault ((α × α) × Text) :=
  match skipSpace s with
  -- an array that ends too early is JSON, but no pair; one that goes on is refused as a text
  | ']' :: _ => .error .unfit
  | _ =>
    match item.run s with
    | .error fault => .error fault
    | .ok (a, rest) =>
      match skipSpace rest with
      | [] => .error .truncated
      | c :: rest =>
        if c = ']' then .error .unfit
        else if c = ',' then
          match item.run rest with
          | .error fault => .error fault
          | .ok (b, rest) =>
            match skipSpace rest with
            | [] => .error .truncated
            | c :: rest => if c = ']' then .ok ((a, b), rest) else .error .illFormed
        else .error .illFormed

theorem length_itemsRest {α : Type} {item : Reader α} {s r : Text} {p : α × α}
    (h : itemsRest item s = .ok (p, r)) : r.length < s.length := by
  unfold itemsRest at h
  repeat' split at h
  all_goals grind [→ Reader.shrinks, → length_skipSpace]

/-- Reads two values of the same shape, under two keys of an object or as the two items of an
array. -/
def Reader.pair {α : Type} (keys : Text × Text) (item : Reader α) : Reader (α × α) where
  run s :=
    match skipSpace s with
    | '[' :: rest => itemsRest item rest
    | '\x7b' :: rest => fieldsRest keys item true none none rest
    | other => .error (otherShape other)
  shrinks {s r p} h := by
    split at h
    · grind [→ length_skipSpace, → length_itemsRest]
    · grind [→ length_skipSpace, → length_fieldsRest]
    · cases h

end StageGraph.Json
