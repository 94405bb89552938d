import Mathlib.Tactic
import StageGraph.Json.Shape

set_option autoImplicit false

/-! # The grammar of JSON

Every production is a relation between a text and what is left of it: `Literal t s r` says that `s`
begins with a string literal that spells `t`, and that `r` stands behind it. A production that says
what it spells has that as its first argument; `Wellformed` only says that something is JSON. The
shapes of edge lists are put together from a production for their items: `Listing` for items with
commas between them, `Enclosed` for these between brackets, `Pair` for two values of an object.
-/

namespace StageGraph.Json

/-- White space between tokens. -/
def Spaces (s r : Text) : Prop := ∃ w : Text, (∀ c ∈ w, isSpace c = true) ∧ s = w ++ r

/-! ## Strings -/

/-- The escapes of two characters: what stands behind the backslash, and what it spells. -/
def shortEscapes : List (Char × Char) :=
  [('"', '"'), ('\\', '\\'), ('/', '/'), ('b', '\x08'), ('f', '\x0c'), ('n', '\n'), ('r', '\r'),
    ('t', '\t')]

/-- The hexadecimal digits and their values. -/
def hexDigits : List (Char × Nat) :=
  "0123456789abcdef".toList.zipIdx ++ "0123456789ABCDEF".toList.zipIdx

/-- Four hexadecimal digits of a number. -/
inductive CodeUnit : Nat → Text → Text → Prop
  | digits {a b c d : Char} {i j k l : Nat} {r : Text} (ha : (a, i) ∈ hexDigits)
      (hb : (b, j) ∈ hexDigits) (hc : (c, k) ∈ hexDigits) (hd : (d, l) ∈ hexDigits) :
      CodeUnit (4096 * i + 256 * j + 16 * k + l) (a :: b :: c :: d :: r) r

/-- What follows a backslash and spells a character. A character that has no code unit of its own is
spelled by two halves. -/
inductive Escape : Char → Text → Text → Prop
  | short {c d : Char} {r : Text} (h : (c, d) ∈ shortEscapes) : Escape d (c :: r) r
  | unit {d : Char} {s r : Text} (h : CodeUnit d.toNat s r) : Escape d ('u' :: s) r
  | pair {d : Char} {high low : Nat} {s s' r : Text}
      (hhigh : 0xD800 ≤ high ∧ high ≤ 0xDBFF) (hlow : 0xDC00 ≤ low ∧ low ≤ 0xDFFF)
      (hd : d.toNat = 0x10000 + 0x400 * (high - 0xD800) + (low - 0xDC00))
      (h : CodeUnit high s ('\\' :: 'u' :: s')) (h' : CodeUnit low s' r) :
      Escape d ('u' :: s) r

/-- What may follow a backslash in a string that nobody reads: halves need not come in pairs. -/
inductive RawEscape : Unit → Text → Text → Prop
  | short {c d : Char} {r : Text} (h : (c, d) ∈ shortEscapes) : RawEscape () (c :: r) r
  | unit {n : Nat} {s r : Text} (h : CodeUnit n s r) : RawEscape () ('u' :: s) r

/-- The rest of a string literal after its opening quote. -/
inductive Body {α : Type} (Escape : α → Text → Text → Prop) (plain : Char → α) :
    List α → Text → Text → Prop
  | close {r : Text} : Body Escape plain [] ('"' :: r) r
  | plain {c : Char} {as : List α} {s r : Text} (hquote : c ≠ '"') (hslash : c ≠ '\\')
      (hcontrol : 0x20 ≤ c.toNat) (h : Body Escape plain as s r) :
      Body Escape plain (plain c :: as) (c :: s) r
  | escape {a : α} {as : List α} {s s' r : Text} (ha : Escape a s s')
      (h : Body Escape plain as s' r) : Body Escape plain (a :: as) ('\\' :: s) r

/-- A string literal. -/
inductive Literal : Text → Text → Text → Prop
  | quoted {t s r : Text} (h : Body Escape id t s r) : Literal t ('"' :: s) r

/-- A string literal that nobody reads. -/
inductive RawLiteral : Text → Text → Prop
  | quoted {us : List Unit} {s r : Text} (h : Body RawEscape (fun _ => ()) us s r) :
      RawLiteral ('"' :: s) r

/-! ## Numerals -/

/-- At least one decimal digit. -/
def Digits (s r : Text) : Prop :=
  ∃ ds : Text, ds ≠ [] ∧ (∀ c ∈ ds, c.isDigit = true) ∧ s = ds ++ r

/-- The integer part: a zero alone, or digits that do not begin with one. -/
inductive Integer : Text → Text → Prop
  | zero {r : Text} : Integer ('0' :: r) r
  | digits {s r : Text} (h : Digits s r) (hzero : s.head? ≠ some '0') : Integer s r

/-- The fraction, if there is one. -/
inductive Fraction : Text → Text → Prop
  | none {r : Text} : Fraction r r
  | some {s r : Text} (h : Digits s r) : Fraction ('.' :: s) r

/-- A sign, if there is one. -/
inductive Sign : Text → Text → Prop
  | none {r : Text} : Sign r r
  | plus {r : Text} : Sign ('+' :: r) r
  | minus {r : Text} : Sign ('-' :: r) r

/-- The exponent, if there is one. -/
inductive Exponent : Text → Text → Prop
  | none {r : Text} : Exponent r r
  | some {c : Char} {s s' r : Text} (hc : c = 'e' ∨ c = 'E') (hsign : Sign s s')
      (h : Digits s' r) : Exponent (c :: s) r

/-- A number. -/
inductive Number : Text → Text → Prop
  | parts {s s₁ s₂ s₃ r : Text} (hminus : s = s₁ ∨ s = '-' :: s₁) (hinteger : Integer s₁ s₂)
      (hfraction : Fraction s₂ s₃) (hexponent : Exponent s₃ r) : Number s r

/-! ## Values -/

/-- The values that are words. -/
def words : List Text := ["null".toList, "true".toList, "false".toList]

/-- A value that is no container. -/
inductive Scalar : Text → Text → Prop
  | string {s r : Text} (h : RawLiteral s r) : Scalar s r
  | number {s r : Text} (h : Number s r) : Scalar s r
  | word {w r : Text} (h : w ∈ words) : Scalar (w ++ r) r

/-- The character that opens a container. -/
def Container.opening : Container → Char
  | array => '['
  | object => '\x7b'

/-- What stands in a JSON text. -/
inductive Part where
  /-- A value of any kind. -/
  | value
  /-- An item of an array, or a key with its value. -/
  | entry (container : Container)
  /-- Entries with commas between them, up to the end of their container. -/
  | entries (container : Container)

/-- The text begins with such a part. -/
inductive Wellformed : Part → Text → Text → Prop
  | scalar {s r : Text} (h : Scalar s r) : Wellformed .value s r
  | empty {c : Container} {s r : Text} (h : Spaces s (c.closing :: r)) :
      Wellformed .value (c.opening :: s) r
  | container {c : Container} {s r : Text} (h : Wellformed (.entries c) s r) :
      Wellformed .value (c.opening :: s) r
  | item {s r : Text} (h : Wellformed .value s r) : Wellformed (.entry .array) s r
  | field {s s₁ s₂ s₃ r : Text} (hkey : RawLiteral s s₁) (hcolon : Spaces s₁ (':' :: s₂))
      (hspace : Spaces s₂ s₃) (h : Wellformed .value s₃ r) : Wellformed (.entry .object) s r
  | last {c : Container} {s s₁ s₂ r : Text} (hspace : Spaces s s₁)
      (h : Wellformed (.entry c) s₁ s₂) (hclose : Spaces s₂ (c.closing :: r)) :
      Wellformed (.entries c) s r
  | more {c : Container} {s s₁ s₂ s₃ r : Text} (hspace : Spaces s s₁)
      (h : Wellformed (.entry c) s₁ s₂) (hcomma : Spaces s₂ (',' :: s₃))
      (hrest : Wellformed (.entries c) s₃ r) : Wellformed (.entries c) s r

/-! ## Shapes -/

section

variable {α : Type}

/-- Items with commas between them, up to a closing character. -/
inductive Listing (close : Char) (Item : α → Text → Text → Prop) : List α → Text → Text → Prop
  | last {a : α} {s s₁ s₂ r : Text} (hspace : Spaces s s₁) (h : Item a s₁ s₂)
      (hclose : Spaces s₂ (close :: r)) : Listing close Item [a] s r
  | more {a : α} {as : List α} {s s₁ s₂ s₃ r : Text} (hspace : Spaces s s₁) (h : Item a s₁ s₂)
      (hcomma : Spaces s₂ (',' :: s₃)) (hrest : Listing close Item as s₃ r) :
      Listing close Item (a :: as) s r

/-- Any number of items between the brackets of a container. -/
inductive Enclosed (c : Container) (Item : α → Text → Text → Prop) : List α → Text → Text → Prop
  | empty {s r : Text} (h : Spaces s (c.closing :: r)) : Enclosed c Item [] (c.opening :: s) r
  | items {as : List α} {s r : Text} (h : Listing c.closing Item as s r) :
      Enclosed c Item as (c.opening :: s) r

/-- An array of such items. -/
abbrev ArrayOf (Item : α → Text → Text → Prop) : List α → Text → Text → Prop :=
  Enclosed .array Item

/-- A field of an object. Under the two keys stands an item, which is shown; under any other key
there may be any value. -/
inductive Field (keys : Text × Text) (Item : α → Text → Text → Prop) :
    Text × Option α → Text → Text → Prop
  | kept {key : Text} {a : α} {s s₁ s₂ s₃ r : Text} (hkey : key = keys.1 ∨ key = keys.2)
      (h : Literal key s s₁) (hcolon : Spaces s₁ (':' :: s₂)) (hspace : Spaces s₂ s₃)
      (hvalue : Item a s₃ r) : Field keys Item (key, some a) s r
  | other {key : Text} {s s₁ s₂ s₃ r : Text} (hkey : key ≠ keys.1 ∧ key ≠ keys.2)
      (h : Literal key s s₁) (hcolon : Spaces s₁ (':' :: s₂)) (hspace : Spaces s₂ s₃)
      (hvalue : Wellformed .value s₃ r) : Field keys Item (key, none) s r

/-- The key occurs exactly once among the fields, and with this value. -/
def Once (key : Text) (a : α) (fields : List (Text × Option α)) : Prop :=
  fields.filter (·.1 = key) = [(key, some a)]

/-- An object in which each of the two keys occurs exactly once. -/
def Pair (keys : Text × Text) (Item : α → Text → Text → Prop) (p : α × α) (s r : Text) : Prop :=
  ∃ fields, Enclosed .object (Field keys Item) fields s r ∧ Once keys.1 p.1 fields ∧
    Once keys.2 p.2 fields

/-- A whole text of a value, with white space around it. -/
def Document (Item : α → Text → Text → Prop) (a : α) (t : Text) : Prop :=
  ∃ s r, Spaces t s ∧ Item a s r ∧ Spaces r []

end

/-! ## One production for another

If what `f` makes of an item is an item of another production, then `f` takes the lists of the one
to lists of the other. If every item of the other is made in this way, then so is every list.
-/

section

variable {α β : Type} {Item : α → Text → Text → Prop} {Item' : β → Text → Text → Prop}

theorem Document.imp {a : α} {b : β} (h : ∀ s r, Item a s r → Item' b s r) {t : Text}
    (hdoc : Document Item a t) : Document Item' b t := by
  obtain ⟨s, r, hspace, ha, hend⟩ := hdoc
  exact ⟨s, r, hspace, h _ _ ha, hend⟩

theorem Listing.map {f : α → β} (h : ∀ a s r, Item a s r → Item' (f a) s r) {close : Char}
    {as : List α} {s r : Text} (hlisting : Listing close Item as s r) :
    Listing close Item' (as.map f) s r := by
  induction hlisting with
  | last hspace ha hclose => exact .last hspace (h _ _ _ ha) hclose
  | more hspace ha hcomma _ ih => exact .more hspace (h _ _ _ ha) hcomma ih

theorem Enclosed.map {f : α → β} (h : ∀ a s r, Item a s r → Item' (f a) s r) {c : Container}
    {as : List α} {s r : Text} (henclosed : Enclosed c Item as s r) :
    Enclosed c Item' (as.map f) s r := by
  cases henclosed with
  | empty hclose => exact .empty hclose
  | items hlisting => exact .items (hlisting.map h)

theorem Listing.exists_map {f : β → α} (h : ∀ a s r, Item a s r → ∃ b, f b = a ∧ Item' b s r)
    {close : Char} {as : List α} {s r : Text} (hlisting : Listing close Item as s r) :
    ∃ bs, bs.map f = as ∧ Listing close Item' bs s r := by
  induction hlisting with
  | last hspace ha hclose =>
    obtain ⟨b, rfl, hb⟩ := h _ _ _ ha
    exact ⟨[b], rfl, .last hspace hb hclose⟩
  | more hspace ha hcomma _ ih =>
    obtain ⟨b, rfl, hb⟩ := h _ _ _ ha
    obtain ⟨bs, rfl, hrest⟩ := ih
    exact ⟨b :: bs, rfl, .more hspace hb hcomma hrest⟩

theorem Enclosed.exists_map {f : β → α} (h : ∀ a s r, Item a s r → ∃ b, f b = a ∧ Item' b s r)
    {c : Container} {as : List α} {s r : Text} (henclosed : Enclosed c Item as s r) :
    ∃ bs, bs.map f = as ∧ Enclosed c Item' bs s r := by
  cases henclosed with
  | empty hclose => exact ⟨[], rfl, .empty hclose⟩
  | items hlisting =>
    obtain ⟨bs, hbs, hlisting⟩ := hlisting.exists_map h
    exact ⟨bs, hbs, .items hlisting⟩

end

/-! ## What a production takes

A production takes a word from the front of a text, and it takes that word in front of every text.
-/

/-- The text is a word that the production takes in front of everything, and then the rest. -/
def Takes (P : Text → Text → Prop) (s r : Text) : Prop := ∃ m, s = m ++ r ∧ ∀ u, P (m ++ u) u

/-- Everything the production takes it takes in front of every text. -/
def Uniform {α : Type} (Item : α → Text → Text → Prop) : Prop :=
  ∀ ⦃a : α⦄ ⦃s r : Text⦄, Item a s r → Takes (Item a) s r

theorem Spaces.takes {s r : Text} (h : Spaces s r) : Takes Spaces s r := by
  obtain ⟨w, hw, rfl⟩ := h
  exact ⟨w, rfl, fun u => ⟨w, hw, rfl⟩⟩

theorem uniform_codeUnit : Uniform CodeUnit := by
  intro n s r h
  obtain ⟨ha, hb, hc, hd⟩ := h
  exact ⟨[_, _, _, _], rfl, fun u => .digits ha hb hc hd⟩

theorem uniform_escape : Uniform Escape := by
  intro d s r h
  cases h with
  | short h => exact ⟨[_], rfl, fun u => .short h⟩
  | unit h =>
    obtain ⟨m, rfl, hm⟩ := uniform_codeUnit h
    exact ⟨'u' :: m, rfl, fun u => .unit (hm u)⟩
  | pair hhigh hlow hd h h' =>
    obtain ⟨m, rfl, hm⟩ := uniform_codeUnit h
    obtain ⟨m', rfl, hm'⟩ := uniform_codeUnit h'
    refine ⟨'u' :: (m ++ '\\' :: 'u' :: m'), by simp, fun u => ?_⟩
    have hpair := Escape.pair hhigh hlow hd (hm _) (hm' u)
    simpa using hpair

theorem uniform_rawEscape : Uniform RawEscape := by
  intro a s r h
  cases h with
  | short h => exact ⟨[_], rfl, fun u => .short h⟩
  | unit h =>
    obtain ⟨m, rfl, hm⟩ := uniform_codeUnit h
    exact ⟨'u' :: m, rfl, fun u => .unit (hm u)⟩

/-- What stands before the closing quote is nothing only if it spells nothing. -/
theorem Body.exists_append {α : Type} {Escape : α → Text → Text → Prop} {plain : Char → α}
    (hescape : Uniform Escape) {as : List α} {s r : Text}
    (h : Body Escape plain as s r) : ∃ body, s = body ++ '"' :: r ∧ (body = [] ↔ as = []) ∧
      ∀ u, Body Escape plain as (body ++ '"' :: u) u := by
  induction h with
  | close => exact ⟨[], rfl, by simp, fun u => .close⟩
  | @plain c _ _ _ hquote hslash hcontrol _ ih =>
    obtain ⟨body, rfl, -, hbody⟩ := ih
    exact ⟨c :: body, rfl, by simp, fun u => .plain hquote hslash hcontrol (hbody u)⟩
  | escape ha _ ih =>
    obtain ⟨m, rfl, hm⟩ := hescape ha
    obtain ⟨body, rfl, -, hbody⟩ := ih
    refine ⟨'\\' :: (m ++ body), by simp, by simp, fun u => ?_⟩
    have hescaped := Body.escape (hm _) (hbody u)
    simpa using hescaped

theorem Literal.exists_append {t s r : Text} (h : Literal t s r) :
    ∃ body, s = '"' :: (body ++ '"' :: r) ∧ (body = [] ↔ t = []) ∧
      ∀ u, Literal t ('"' :: (body ++ '"' :: u)) u := by
  obtain ⟨h⟩ := h
  obtain ⟨body, rfl, hnil, hbody⟩ := h.exists_append uniform_escape
  exact ⟨body, rfl, hnil, fun u => .quoted (hbody u)⟩

theorem uniform_literal : Uniform Literal := by
  intro t s r h
  obtain ⟨body, rfl, -, hbody⟩ := h.exists_append
  exact ⟨'"' :: (body ++ ['"']), by simp, fun u => by simpa using hbody u⟩

theorem RawLiteral.takes {s r : Text} (h : RawLiteral s r) : Takes RawLiteral s r := by
  obtain ⟨h⟩ := h
  obtain ⟨body, rfl, -, hbody⟩ := h.exists_append uniform_rawEscape
  exact ⟨'"' :: (body ++ ['"']), by simp, fun u => by simpa using RawLiteral.quoted (hbody u)⟩

theorem Digits.takes {s r : Text} (h : Digits s r) : Takes Digits s r := by
  obtain ⟨ds, hne, hds, rfl⟩ := h
  exact ⟨ds, rfl, fun u => ⟨ds, hne, hds, rfl⟩⟩

theorem Integer.takes {s r : Text} (h : Integer s r) : Takes Integer s r := by
  cases h with
  | zero => exact ⟨['0'], rfl, fun u => .zero⟩
  | digits h hzero =>
    obtain ⟨ds, hne, hds, rfl⟩ := h
    refine ⟨ds, rfl, fun u => .digits ⟨ds, hne, hds, rfl⟩ ?_⟩
    rwa [List.head?_append_of_ne_nil _ hne] at hzero ⊢

theorem Fraction.takes {s r : Text} (h : Fraction s r) : Takes Fraction s r := by
  cases h with
  | none => exact ⟨[], rfl, fun u => .none⟩
  | some h =>
    obtain ⟨m, rfl, hm⟩ := h.takes
    exact ⟨'.' :: m, rfl, fun u => .some (hm u)⟩

theorem Sign.takes {s r : Text} (h : Sign s r) : Takes Sign s r := by
  cases h with
  | none => exact ⟨[], rfl, fun u => .none⟩
  | plus => exact ⟨['+'], rfl, fun u => .plus⟩
  | minus => exact ⟨['-'], rfl, fun u => .minus⟩

theorem Exponent.takes {s r : Text} (h : Exponent s r) : Takes Exponent s r := by
  cases h with
  | none => exact ⟨[], rfl, fun u => .none⟩
  | @some c _ _ _ hc hsign h =>
    obtain ⟨m, rfl, hm⟩ := hsign.takes
    obtain ⟨m', rfl, hm'⟩ := h.takes
    refine ⟨c :: (m ++ m'), by simp, fun u => ?_⟩
    have hexponent := Exponent.some hc (hm _) (hm' u)
    simpa using hexponent

theorem Number.takes {s r : Text} (h : Number s r) : Takes Number s r := by
  obtain ⟨hminus, hinteger, hfraction, hexponent⟩ := h
  obtain ⟨m, rfl, hm⟩ := hinteger.takes
  obtain ⟨m', rfl, hm'⟩ := hfraction.takes
  obtain ⟨m'', rfl, hm''⟩ := hexponent.takes
  rcases hminus with rfl | rfl
  · refine ⟨m ++ (m' ++ m''), by simp, fun u => ?_⟩
    have hnumber := Number.parts (.inl rfl) (hm _) (hm' _) (hm'' u)
    simpa using hnumber
  · refine ⟨'-' :: (m ++ (m' ++ m'')), by simp, fun u => ?_⟩
    have hnumber := Number.parts (.inr rfl) (hm _) (hm' _) (hm'' u)
    simpa using hnumber

theorem Scalar.takes {s r : Text} (h : Scalar s r) : Takes Scalar s r := by
  cases h with
  | string h =>
    obtain ⟨m, rfl, hm⟩ := h.takes
    exact ⟨m, rfl, fun u => .string (hm u)⟩
  | number h =>
    obtain ⟨m, rfl, hm⟩ := h.takes
    exact ⟨m, rfl, fun u => .number (hm u)⟩
  | @word w _ h => exact ⟨w, rfl, fun u => .word h⟩

theorem Wellformed.takes {part : Part} {s r : Text} (h : Wellformed part s r) :
    Takes (Wellformed part) s r := by
  induction h with
  | scalar h =>
    obtain ⟨m, rfl, hm⟩ := h.takes
    exact ⟨m, rfl, fun u => .scalar (hm u)⟩
  | @empty c _ _ h =>
    obtain ⟨w, rfl, hw⟩ := h.takes
    refine ⟨c.opening :: (w ++ [c.closing]), by simp, fun u => ?_⟩
    have hempty := Wellformed.empty (hw (c.closing :: u))
    simpa using hempty
  | @container c _ _ _ ih =>
    obtain ⟨m, rfl, hm⟩ := ih
    exact ⟨c.opening :: m, rfl, fun u => .container (hm u)⟩
  | item _ ih =>
    obtain ⟨m, rfl, hm⟩ := ih
    exact ⟨m, rfl, fun u => .item (hm u)⟩
  | field hkey hcolon hspace _ ih =>
    obtain ⟨k, rfl, hk⟩ := hkey.takes
    obtain ⟨w, rfl, hw⟩ := hcolon.takes
    obtain ⟨w', rfl, hw'⟩ := hspace.takes
    obtain ⟨m, rfl, hm⟩ := ih
    refine ⟨k ++ (w ++ ':' :: (w' ++ m)), by simp, fun u => ?_⟩
    have hfield := Wellformed.field (hk _) (hw _) (hw' _) (hm u)
    simpa using hfield
  | @last c _ _ _ _ hspace _ hclose ih =>
    obtain ⟨w, rfl, hw⟩ := hspace.takes
    obtain ⟨m, rfl, hm⟩ := ih
    obtain ⟨w', rfl, hw'⟩ := hclose.takes
    refine ⟨w ++ (m ++ (w' ++ [c.closing])), by simp, fun u => ?_⟩
    have hlast := Wellformed.last (hw _) (hm _) (hw' (c.closing :: u))
    simpa using hlast
  | more hspace _ hcomma _ ih ihrest =>
    obtain ⟨w, rfl, hw⟩ := hspace.takes
    obtain ⟨m, rfl, hm⟩ := ih
    obtain ⟨w', rfl, hw'⟩ := hcomma.takes
    obtain ⟨m', rfl, hm'⟩ := ihrest
    refine ⟨w ++ (m ++ (w' ++ ',' :: m')), by simp, fun u => ?_⟩
    have hmore := Wellformed.more (hw _) (hm _) (hw' _) (hm' u)
    simpa using hmore

section

variable {α : Type} {Item : α → Text → Text → Prop}

theorem Uniform.field (hitem : Uniform Item) {keys : Text × Text} : Uniform (Field keys Item) := by
  intro field s r h
  cases h with
  | kept hkey h hcolon hspace hvalue =>
    obtain ⟨k, rfl, hk⟩ := uniform_literal h
    obtain ⟨w, rfl, hw⟩ := hcolon.takes
    obtain ⟨w', rfl, hw'⟩ := hspace.takes
    obtain ⟨m, rfl, hm⟩ := hitem hvalue
    refine ⟨k ++ (w ++ ':' :: (w' ++ m)), by simp, fun u => ?_⟩
    have hfield := Field.kept hkey (hk _) (hw _) (hw' _) (hm u)
    simpa using hfield
  | other hkey h hcolon hspace hvalue =>
    obtain ⟨k, rfl, hk⟩ := uniform_literal h
    obtain ⟨w, rfl, hw⟩ := hcolon.takes
    obtain ⟨w', rfl, hw'⟩ := hspace.takes
    obtain ⟨m, rfl, hm⟩ := hvalue.takes
    refine ⟨k ++ (w ++ ':' :: (w' ++ m)), by simp, fun u => ?_⟩
    have hfield := @Field.other α keys Item _ _ _ _ _ _ hkey (hk _) (hw _) (hw' _) (hm u)
    simpa using hfield

/-- A listing goes up to its closing character. -/
theorem Listing.exists_append (hitem : Uniform Item) {close : Char}
    {as : List α} {s r : Text} (h : Listing close Item as s r) :
    ∃ m, s = m ++ close :: r ∧ ∀ u, Listing close Item as (m ++ close :: u) u := by
  induction h with
  | last hspace ha hclose =>
    obtain ⟨w, rfl, hw⟩ := hspace.takes
    obtain ⟨m, rfl, hm⟩ := hitem ha
    obtain ⟨w', rfl, hw'⟩ := hclose.takes
    refine ⟨w ++ (m ++ w'), by simp, fun u => ?_⟩
    have hlast := Listing.last (hw _) (hm _) (hw' (close :: u))
    simpa using hlast
  | more hspace ha hcomma _ ih =>
    obtain ⟨w, rfl, hw⟩ := hspace.takes
    obtain ⟨m, rfl, hm⟩ := hitem ha
    obtain ⟨w', rfl, hw'⟩ := hcomma.takes
    obtain ⟨m', rfl, hm'⟩ := ih
    refine ⟨w ++ (m ++ (w' ++ ',' :: m')), by simp, fun u => ?_⟩
    have hmore := Listing.more (hw _) (hm _) (hw' _) (hm' u)
    simpa using hmore

/-- Items in a container stand between its brackets. -/
theorem Enclosed.exists_append (hitem : Uniform Item)
    {c : Container} {as : List α} {s r : Text} (h : Enclosed c Item as s r) :
    ∃ m, s = c.opening :: (m ++ c.closing :: r) ∧
      ∀ u, Enclosed c Item as (c.opening :: (m ++ c.closing :: u)) u := by
  cases h with
  | empty h =>
    obtain ⟨w, rfl, hw⟩ := h.takes
    exact ⟨w, rfl, fun u => .empty (hw (c.closing :: u))⟩
  | items h =>
    obtain ⟨m, rfl, hm⟩ := h.exists_append hitem
    exact ⟨m, rfl, fun u => .items (hm u)⟩

theorem Uniform.enclosed (hitem : Uniform Item) {c : Container} : Uniform (Enclosed c Item) := by
  intro as s r h
  obtain ⟨m, rfl, hm⟩ := h.exists_append hitem
  refine ⟨c.opening :: (m ++ [c.closing]), by simp, fun u => ?_⟩
  have henclosed := hm u
  simpa using henclosed

theorem Uniform.pair (hitem : Uniform Item) {keys : Text × Text} : Uniform (Pair keys Item) := by
  rintro p s r ⟨fields, henclosed, hfst, hsnd⟩
  obtain ⟨m, rfl, hm⟩ := hitem.field.enclosed henclosed
  exact ⟨m, rfl, fun u => ⟨fields, hm u, hfst, hsnd⟩⟩

end

end StageGraph.Json
