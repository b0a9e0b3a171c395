import LoxLang.Json
import LoxLang.Proofs.Decimal.Texts

/-!
Compact JSON can be read in one way only. Wherever a value begins, its text says where it ends: a
quoted text ends at the first quote that nothing escapes, and what is not quoted or enclosed ends in
front of the first mark. So values are written the same just if they are of the same form and their
parts are written the same. Whatever the format of finite numbers, it keeps apart all that are not
negative, with `null` for infinity.
-/

namespace LoxLang.Json

/-! ### Quoted texts -/

def hexValue (c : Char) : Nat :=
  "0123456789abcdef".toList.idxOf c

theorem hexValue_hexDigit : ∀ n < 16, hexValue (hexDigit n) = n := by decide

/-- The character that stands in a quoted text behind a backslash. -/
def escaped : Char → Char
  | 'b' => '\x08'
  | 'f' => '\x0c'
  | 'n' => '\n'
  | 'r' => '\r'
  | 't' => '\t'
  | c => c

/-- The first character of a quoted text, and what is behind it; none at the closing quote. -/
def unquoted? : List Char → Option (Char × List Char)
  | [] | '"' :: _ => none
  | '\\' :: 'u' :: '0' :: '0' :: high :: low :: rest =>
    some (Char.ofNat (16 * hexValue high + hexValue low), rest)
  | '\\' :: c :: rest => some (escaped c, rest)
  | c :: rest => some (c, rest)

theorem unquoted?_quotedChar (c : Char) (rest : List Char) :
    unquoted? (quotedChar c ++ rest) = some (c, rest) := by
  unfold quotedChar
  split_ifs with hquote hbackslash hbell hfeed hline hreturn htab hcontrol
  all_goals try subst c; rfl
  · have hhigh := hexValue_hexDigit (c.toNat / 16) (by omega)
    have hlow := hexValue_hexDigit (c.toNat % 16) (by omega)
    have hsum : 16 * (c.toNat / 16) + c.toNat % 16 = c.toNat := by omega
    simp only [List.cons_append, List.nil_append, unquoted?, hhigh, hlow, hsum, Char.ofNat_toNat]
  · simp [unquoted?, hbackslash]

theorem unquoted?_quote (rest : List Char) : unquoted? ('"' :: rest) = none := rfl

theorem quotedChars_split {r r' : List Char} (xs ys : List Char)
    (h : xs.flatMap quotedChar ++ '"' :: r = ys.flatMap quotedChar ++ '"' :: r') :
    xs = ys ∧ r = r' := by
  induction xs generalizing ys with
  | nil =>
      cases ys with
      | nil => simpa using h
      | cons y ys =>
          have hread := congrArg unquoted? h
          simp [unquoted?_quote, unquoted?_quotedChar] at hread
  | cons x xs ih =>
      have hread := congrArg unquoted? h
      cases ys with
      | nil => simp [unquoted?_quote, unquoted?_quotedChar] at hread
      | cons y ys =>
          simp only [List.flatMap_cons, List.append_assoc, unquoted?_quotedChar, Option.some.injEq,
            Prod.mk.injEq] at hread
          obtain ⟨rfl, hrest⟩ := hread
          obtain ⟨rfl, hr⟩ := ih ys hrest
          exact ⟨rfl, hr⟩

theorem toList_quoted (s : String) :
    (quoted s).toList = '"' :: (s.toList.flatMap quotedChar ++ ['"']) := by
  simp [quoted]

theorem quoted_split {s t : String} {r r' : List Char}
    (h : (quoted s).toList ++ r = (quoted t).toList ++ r') : s = t ∧ r = r' := by
  simp only [toList_quoted, List.cons_append, List.append_assoc, List.cons.injEq, true_and,
    List.nil_append] at h
  obtain ⟨htext, hr⟩ := quotedChars_split _ _ h
  exact ⟨String.toList_inj.mp htext, hr⟩

/-! ### Characters -/

variable {fmt : Decimal.Format}

/-- The characters that a value is written with. -/
def chars (fmt : Decimal.Format) (j : Json) : List Char :=
  (j.compactBy fmt.text).toList

theorem chars_inj {j k : Json} :
    j.chars fmt = k.chars fmt ↔ j.compactBy fmt.text = k.compactBy fmt.text :=
  String.toList_inj

/-- The texts of a list, with a comma between each two. -/
def joined {α : Type} (written : α → List Char) : List α → List Char
  | [] => []
  | a :: rest => written a ++ rest.flatMap fun b => ',' :: written b

/-- The text of a field. -/
def fieldChars (fmt : Decimal.Format) (f : String × Json) : List Char :=
  (quoted f.1).toList ++ ':' :: f.2.chars fmt

theorem toList_compactItemsBy :
    ∀ items, (compactItemsBy fmt.text items).toList = joined (chars fmt) items
  | [] => rfl
  | [j] => by simp [compactItemsBy, joined, chars]
  | j :: k :: rest => by
      simp [compactItemsBy, toList_compactItemsBy (k :: rest), joined, chars]

theorem toList_compactFieldsBy :
    ∀ fields, (compactFieldsBy fmt.text fields).toList = joined (fieldChars fmt) fields
  | [] => rfl
  | [(key, j)] => by simp [compactFieldsBy, joined, fieldChars, chars]
  | (key, j) :: (key', k) :: rest => by
      simp [compactFieldsBy, toList_compactFieldsBy ((key', k) :: rest), joined, fieldChars, chars]

theorem chars_text (s : String) : (text s).chars fmt = (quoted s).toList := rfl

theorem chars_array (items : List Json) :
    (array items).chars fmt = '[' :: (joined (chars fmt) items ++ [']']) := by
  simp [chars, compactBy, toList_compactItemsBy]

theorem chars_object (fields : List (String × Json)) :
    (object fields).chars fmt = '{' :: (joined (fieldChars fmt) fields ++ ['}']) := by
  simp [chars, compactBy, toList_compactFieldsBy]

/-- What values and their parts begin and end with, if they are not bare. -/
def isMark (c : Char) : Bool :=
  c ∈ ['"', '[', ']', '{', '}', ',']

/-- The mark that a value begins with; values that are bare begin with none. -/
def opening : Json → Option Char
  | text _ => some '"'
  | array _ => some '['
  | object _ => some '{'
  | null | natural _ | real _ => none

theorem not_isMark_of_isDigit {c : Char} (h : c.isDigit) : isMark c = false := by
  have hmarks : ∀ c ∈ ['"', '[', ']', '{', '}', ','], c.isDigit = false := by simp
  rw [isMark, decide_eq_false_iff_not]
  intro hc
  rw [hmarks c hc] at h
  cases h

theorem bare_realText (fmt : Decimal.Format) (x : Float) :
    (realText fmt.text x).toList ≠ [] ∧ ∀ c ∈ (realText fmt.text x).toList, isMark c = false := by
  have hsigns : ∀ c ∈ ['.', 'e', 'E', '+', '-'], isMark c = false := by simp [isMark]
  unfold realText
  split
  case isTrue hfinite =>
    refine ⟨fmt.text_ne_nil hfinite, fun c hc => ?_⟩
    rcases fmt.mem_text hfinite hc with hdigit | hsign
    · exact not_isMark_of_isDigit hdigit
    · exact hsigns c hsign
  case isFalse => exact ⟨by decide, by simp [isMark]⟩

/-- The text of a bare value has no marks in it. -/
theorem bare_chars (fmt : Decimal.Format) {j : Json} (h : j.opening = none) :
    j.chars fmt ≠ [] ∧ ∀ c ∈ j.chars fmt, isMark c = false := by
  cases j with
  | null =>
      have hchars : null.chars fmt = ['n', 'u', 'l', 'l'] := by
        rw [chars, compactBy]
        rfl
      exact ⟨by simp [hchars], by simp [hchars, isMark]⟩
  | natural n =>
      have hchars : (natural n).chars fmt = Nat.toDigits 10 n := String.toList_ofList
      rw [hchars]
      refine ⟨Nat.toDigits_ne_nil, fun c hc => ?_⟩
      exact not_isMark_of_isDigit (Decimal.isDigit_toDigits n c hc)
  | real x => exact bare_realText fmt x
  | text | array | object => cases h

theorem head_chars (fmt : Decimal.Format) (j : Json) (r : List Char) :
    (j.chars fmt ++ r).head?.filter isMark = j.opening := by
  cases hopening : j.opening with
  | none =>
      obtain ⟨hsome, hbare⟩ := bare_chars fmt hopening
      obtain ⟨c, rest, hchars⟩ := List.exists_cons_of_ne_nil hsome
      have hc := hbare c (by simp [hchars])
      simp [hchars, hc]
  | some c =>
      cases j <;> cases hopening
      · simp [chars_text, toList_quoted, isMark]
      · simp [chars_array, isMark]
      · simp [chars_object, isMark]

/-! ### Where values end -/

/-- What is behind a value: nothing or a mark. -/
def Closes (r : List Char) : Prop :=
  ∀ c ∈ r.head?, isMark c

/-- Wherever one of two texts stands with something that closes it behind, it is told which of them
this is and where it ends. -/
def Separates (xs ys : List Char) : Prop :=
  ∀ r r', Closes r → Closes r' → xs ++ r = ys ++ r' → xs = ys ∧ r = r'

theorem separates_bare {xs ys : List Char} (hxs : ∀ c ∈ xs, isMark c = false)
    (hys : ∀ c ∈ ys, isMark c = false) : Separates xs ys := by
  intro r r' hr hr' h
  have htake : ∀ {zs s : List Char}, (∀ c ∈ zs, isMark c = false) → Closes s →
      (zs ++ s).takeWhile (!isMark ·) = zs := by
    intro zs s hzs hs
    rw [List.takeWhile_append_of_pos (by simpa using hzs)]
    cases s with
    | nil => simp
    | cons c rest => simp [hs c rfl]
  have hsame : xs = ys := by rw [← htake hxs hr, h, htake hys hr']
  subst hsame
  exact ⟨rfl, List.append_cancel_left h⟩

section

variable {α : Type} {written : α → List Char} {close : Char} {r r' : List Char} {as bs : List α}

theorem following_split (hclose : isMark close) (hcomma : close ≠ ',')
    (hsplit : ∀ a ∈ as, ∀ b ∈ bs, Separates (written a) (written b))
    (h : (as.flatMap fun a => ',' :: written a) ++ close :: r =
      (bs.flatMap fun b => ',' :: written b) ++ close :: r') :
    as.map written = bs.map written ∧ r = r' := by
  have hcloses : ∀ (cs : List α) (s : List Char),
      Closes ((cs.flatMap fun c => ',' :: written c) ++ close :: s) := by
    rintro (_ | ⟨c, cs⟩) s d hd
    · cases hd
      exact hclose
    · cases hd
      rfl
  induction as generalizing bs with
  | nil =>
      cases bs with
      | nil => simpa using h
      | cons b bs => simp [hcomma] at h
  | cons a as ih =>
      cases bs with
      | nil => simp [hcomma.symm] at h
      | cons b bs =>
          simp only [List.flatMap_cons, List.cons_append, List.append_assoc, List.cons.injEq,
            true_and] at h
          have hhead := hsplit a (by simp) b (by simp)
          obtain ⟨hwritten, hrest⟩ := hhead _ _ (hcloses _ _) (hcloses _ _) h
          obtain ⟨hmap, hr⟩ := ih (fun a ha b hb =>
            hsplit a (List.mem_cons_of_mem _ ha) b (List.mem_cons_of_mem _ hb)) hrest
          simp [hwritten, hmap, hr]

theorem joined_split (hclose : isMark close) (hcomma : close ≠ ',')
    (hopening : ∀ a s, (written a ++ s).head? ≠ some close)
    (hsplit : ∀ a ∈ as, ∀ b ∈ bs, Separates (written a) (written b))
    (h : joined written as ++ close :: r = joined written bs ++ close :: r') :
    as.map written = bs.map written ∧ r = r' := by
  apply following_split hclose hcomma hsplit
  cases as with
  | nil =>
      cases bs with
      | nil => exact h
      | cons b bs =>
          rw [joined, joined, List.append_assoc] at h
          exact absurd (congrArg List.head? h.symm) (hopening b _)
  | cons a as =>
      cases bs with
      | nil =>
          rw [joined, joined, List.append_assoc] at h
          exact absurd (congrArg List.head? h) (hopening a _)
      | cons b bs => simpa [joined] using h

theorem joined_map (written : α → List Char) (as : List α) :
    joined written as = joined id (as.map written) := by
  cases as with
  | nil => rfl
  | cons a rest => simp [joined, List.flatMap_map]

end

theorem fieldChars_inj {f g : String × Json} :
    fieldChars fmt f = fieldChars fmt g ↔ f.1 = g.1 ∧ f.2.chars fmt = g.2.chars fmt := by
  constructor
  · intro h
    obtain ⟨hkey, hrest⟩ := quoted_split h
    exact ⟨hkey, (List.cons.inj hrest).2⟩
  · rintro ⟨hkey, hvalue⟩
    rw [fieldChars, hkey, hvalue, fieldChars]

theorem separates_fieldChars {f g : String × Json}
    (hvalue : Separates (f.2.chars fmt) (g.2.chars fmt)) :
    Separates (fieldChars fmt f) (fieldChars fmt g) := by
  intro r r' hr hr' h
  simp only [fieldChars, List.append_assoc, List.cons_append] at h
  obtain ⟨hkey, hrest⟩ := quoted_split h
  obtain ⟨hchars, hrest⟩ := hvalue r r' hr hr' (List.cons.inj hrest).2
  exact ⟨fieldChars_inj.mpr ⟨hkey, hchars⟩, hrest⟩

/-- No value begins with the mark that closes a list. -/
theorem chars_head?_ne (j : Json) (s : List Char) : (j.chars fmt ++ s).head? ≠ some ']' := by
  intro hhead
  have hopening := head_chars fmt j s
  rw [hhead] at hopening
  cases j <;> cases hopening

theorem fieldChars_head?_ne (f : String × Json) (s : List Char) :
    (fieldChars fmt f ++ s).head? ≠ some '}' := by
  simp [fieldChars, toList_quoted]

section

variable {items others : List Json} {fields more : List (String × Json)} {r r' : List Char}

theorem array_split
    (hsplit : ∀ a ∈ items, ∀ b ∈ others, Separates (a.chars fmt) (b.chars fmt))
    (h : (array items).chars fmt ++ r = (array others).chars fmt ++ r') :
    items.map (chars fmt) = others.map (chars fmt) ∧ r = r' := by
  simp only [chars_array, List.cons_append, List.append_assoc, List.cons.injEq, true_and,
    List.nil_append] at h
  exact joined_split rfl (by decide) chars_head?_ne hsplit h

theorem object_split
    (hsplit : ∀ f ∈ fields, ∀ g ∈ more, Separates (f.2.chars fmt) (g.2.chars fmt))
    (h : (object fields).chars fmt ++ r = (object more).chars fmt ++ r') :
    fields.map (fieldChars fmt) = more.map (fieldChars fmt) ∧ r = r' := by
  simp only [chars_object, List.cons_append, List.append_assoc, List.cons.injEq, true_and,
    List.nil_append] at h
  exact joined_split rfl (by decide) fieldChars_head?_ne
    (fun f hf g hg => separates_fieldChars (hsplit f hf g hg)) h

/-- Where a value begins, its text says where it ends. -/
theorem separates_chars (fmt : Decimal.Format) (j k : Json) :
    Separates (j.chars fmt) (k.chars fmt) := by
  intro r r' hr hr' h
  have hopening : j.opening = k.opening := by rw [← head_chars fmt j r, h, head_chars]
  cases j with
  | null | natural | real =>
      exact separates_bare (bare_chars fmt rfl).2 (bare_chars fmt hopening.symm).2 r r' hr hr' h
  | text s =>
      cases k with
      | text t =>
          obtain ⟨rfl, hrest⟩ := quoted_split h
          exact ⟨rfl, hrest⟩
      | _ => cases hopening
  | array items =>
      cases k with
      | array others =>
          obtain ⟨hmap, hrest⟩ := array_split (fun a ha b _ => separates_chars fmt a b) h
          exact ⟨by rw [chars_array, chars_array, joined_map, hmap, ← joined_map], hrest⟩
      | _ => cases hopening
  | object fields =>
      cases k with
      | object others =>
          obtain ⟨hmap, hrest⟩ := object_split (fun f hf g _ => separates_chars fmt f.2 g.2) h
          exact ⟨by rw [chars_object, chars_object, joined_map, hmap, ← joined_map], hrest⟩
      | _ => cases hopening
termination_by j
decreasing_by
  · subst j
    have hitem := List.sizeOf_lt_of_mem ha
    rw [array.sizeOf_spec]
    omega
  · subst j
    have hfield := List.sizeOf_lt_of_mem hf
    rw [object.sizeOf_spec]
    rw [Prod.mk.sizeOf_spec] at hfield
    omega

/-! ### Values that are written the same -/

theorem opening_of_compactBy {j k : Json} (h : j.compactBy fmt.text = k.compactBy fmt.text) :
    j.opening = k.opening := by
  rw [← head_chars fmt j [], chars_inj.mpr h, head_chars]

/-- Two ways to write that agree on which elements are written the same agree on lists, too. -/
theorem map_eq_map_iff_of {α β γ : Type} {f : α → β} {g : α → γ}
    (hfg : ∀ a b, f a = f b ↔ g a = g b) (as bs : List α) :
    as.map f = bs.map f ↔ as.map g = bs.map g := by
  induction as generalizing bs with
  | nil => simp
  | cons a as ih =>
      cases bs with
      | nil => simp
      | cons b bs => simp [hfg, ih]

@[simp]
theorem compactBy_text_iff {s t : String} :
    (text s).compactBy fmt.text = (text t).compactBy fmt.text ↔ s = t := by
  constructor
  · intro h
    exact (@quoted_split s t [] [] (by rw [show quoted s = quoted t from h])).1
  · intro h
    rw [h]

theorem compactBy_array_iff :
    (array items).compactBy fmt.text = (array others).compactBy fmt.text ↔
      items.map (compactBy fmt.text) = others.map (compactBy fmt.text) := by
  rw [← chars_inj, ← map_eq_map_iff_of fun _ _ => chars_inj]
  constructor
  · intro h
    have hsplit := fun a (_ : a ∈ items) b (_ : b ∈ others) => separates_chars fmt a b
    exact (@array_split fmt items others [] [] hsplit (by rw [h])).1
  · intro h
    rw [chars_array, chars_array, joined_map, h, ← joined_map]

@[simp]
theorem compactBy_array_cons_iff {j k : Json} :
    (array (j :: items)).compactBy fmt.text = (array (k :: others)).compactBy fmt.text ↔
      j.compactBy fmt.text = k.compactBy fmt.text ∧
        (array items).compactBy fmt.text = (array others).compactBy fmt.text := by
  simp [compactBy_array_iff]

@[simp]
theorem compactBy_array_nil_ne {j : Json} :
    (array []).compactBy fmt.text ≠ (array (j :: items)).compactBy fmt.text := by
  simp [compactBy_array_iff]

@[simp]
theorem compactBy_array_ne_nil {j : Json} :
    (array (j :: items)).compactBy fmt.text ≠ (array []).compactBy fmt.text := by
  simp [compactBy_array_iff]

theorem compactBy_object_iff :
    (object fields).compactBy fmt.text = (object more).compactBy fmt.text ↔
      fields.map (fun f => (f.1, f.2.compactBy fmt.text)) =
        more.map fun f => (f.1, f.2.compactBy fmt.text) := by
  have hfield : ∀ f g : String × Json, fieldChars fmt f = fieldChars fmt g ↔
      (f.1, f.2.compactBy fmt.text) = (g.1, g.2.compactBy fmt.text) := by
    intro f g
    rw [fieldChars_inj, chars_inj, Prod.mk.injEq]
  rw [← chars_inj, ← map_eq_map_iff_of hfield]
  constructor
  · intro h
    have hsplit := fun f (_ : f ∈ fields) g (_ : g ∈ more) => separates_chars fmt f.2 g.2
    exact (@object_split fmt fields more [] [] hsplit (by rw [h])).1
  · intro h
    rw [chars_object, chars_object, joined_map, h, ← joined_map]

@[simp]
theorem compactBy_natural_iff {m n : Nat} :
    (natural m).compactBy fmt.text = (natural n).compactBy fmt.text ↔ m = n := by
  constructor
  · intro h
    have hdigits : Nat.toDigits 10 m = Nat.toDigits 10 n := String.ofList_inj.mp h
    rw [← @Nat.ofDigitChars_ten_toDigits m, hdigits, Nat.ofDigitChars_ten_toDigits]
  · intro h
    rw [h]

theorem realText_ofMagnitude (finite : Float → String) {mag : Nat} (h : mag < Decimal.infinity) :
    realText finite (Decimal.ofMagnitude mag) = finite (Decimal.ofMagnitude mag) := by
  rw [realText, Decimal.magnitude_ofMagnitude h.le, if_pos h]

theorem realText_infinity (finite : Float → String) :
    realText finite (Decimal.ofMagnitude Decimal.infinity) = "null" := by
  rw [realText, Decimal.magnitude_ofMagnitude (le_refl _), if_neg (lt_irrefl _)]

/-- Infinity is written apart from all numbers that are finite. -/
theorem realText_ne_null {mag : Nat} (h : mag < Decimal.infinity) :
    realText fmt.text (Decimal.ofMagnitude mag) ≠ "null" := by
  rw [realText_ofMagnitude fmt.text h]
  intro heq
  have hletter : 'n' ∈ (fmt.text (Decimal.ofMagnitude mag)).toList := by simp [heq]
  have hmember := fmt.mem_text (by rwa [Decimal.magnitude_ofMagnitude h.le]) hletter
  simp at hmember

/-- Numbers that are not negative are written apart. -/
theorem compactBy_real_iff {mag mag' : Nat} (h : mag ≤ Decimal.infinity)
    (h' : mag' ≤ Decimal.infinity) :
    (real (Decimal.ofMagnitude mag)).compactBy fmt.text =
      (real (Decimal.ofMagnitude mag')).compactBy fmt.text ↔ mag = mag' := by
  simp only [compactBy]
  rcases h.lt_or_eq with hlt | rfl <;> rcases h'.lt_or_eq with hlt' | rfl
  · rw [realText_ofMagnitude fmt.text hlt, realText_ofMagnitude fmt.text hlt']
    exact ⟨fmt.text_inj hlt hlt', fun heq => by rw [heq]⟩
  · rw [realText_infinity]
    exact ⟨fun heq => (realText_ne_null hlt heq).elim, fun heq => (hlt.ne heq).elim⟩
  · rw [realText_infinity]
    exact ⟨fun heq => (realText_ne_null hlt' heq.symm).elim, fun heq => (hlt'.ne heq.symm).elim⟩
  · simp

end

end LoxLang.Json
