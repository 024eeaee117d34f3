import Mathlib.Tactic

/-!
# JSON texts (RFC 8259)

A reader for JSON texts, as bytes.  A text is read as one value with spaces around it, or not at all:
a control character in a string, an escape that is not defined and anything behind the value are
refused.  The bytes from `0x80` on are parts of characters that need no escape, so they are taken as
they are; an escape `\u` is read as the bytes of its character in UTF-8.

* `readString`: a string from behind its opening quotation mark, and `readString_self_iff`, which
  strings need no escapes;
* `readValue`, `readMembers`, `readElements`: values, for at most a number of nested or following
  ones;
* `readText`: a whole text;
* `readElements_separated`: the elements of an array that a writer has separated by commas.
-/

namespace JsonText

/-- A JSON value.  A number is kept as its text. -/
inductive Json
  | null
  | bool (b : Bool)
  | number (text : List UInt8)
  | string (s : List UInt8)
  | array (elements : List Json)
  | object (members : List (List UInt8 × Json))

/-- A condition on all bytes of a text is decided along the text, not by trying every byte. -/
scoped instance (priority := 2000) decidableForallMem (P : UInt8 → Prop) [DecidablePred P]
    (t : List UInt8) : Decidable (∀ c ∈ t, P c) :=
  List.decidableBAll P t

/-! ### Tokens -/

def quotationMark : UInt8 := 0x22
def reverseSolidus : UInt8 := 0x5C
def comma : UInt8 := 0x2C
def colon : UInt8 := 0x3A
def beginObject : UInt8 := 0x7B
def endObject : UInt8 := 0x7D
def beginArray : UInt8 := 0x5B
def endArray : UInt8 := 0x5D

/-- The four characters of `ws`. -/
def isSpace (c : UInt8) : Bool := c = 0x20 ∨ c = 0x09 ∨ c = 0x0A ∨ c = 0x0D

/-- `ws`. -/
def skipSpaces (t : List UInt8) : List UInt8 := t.dropWhile isSpace

/-! ### Strings -/

/-- The character of an escape of two characters. -/
def escape? (c : UInt8) : Option UInt8 :=
  if c = 0x22 then some 0x22
  else if c = 0x5C then some 0x5C
  else if c = 0x2F then some 0x2F
  else if c = 0x62 then some 0x08
  else if c = 0x66 then some 0x0C
  else if c = 0x6E then some 0x0A
  else if c = 0x72 then some 0x0D
  else if c = 0x74 then some 0x09
  else none

/-- The value of a hexadecimal digit. -/
def hexDigit? (c : UInt8) : Option ℕ :=
  if 0x30 ≤ c ∧ c ≤ 0x39 then some (c.toNat - 0x30)
  else if 0x41 ≤ c ∧ c ≤ 0x46 then some (c.toNat - 0x41 + 10)
  else if 0x61 ≤ c ∧ c ≤ 0x66 then some (c.toNat - 0x61 + 10)
  else none

/-- Four hexadecimal digits. -/
def codeUnit? (a b c d : UInt8) : Option ℕ := do
  let a ← hexDigit? a
  let b ← hexDigit? b
  let c ← hexDigit? c
  let d ← hexDigit? d
  return ((a * 16 + b) * 16 + c) * 16 + d

/-- The bytes of a character in UTF-8. -/
def utf8 (u : ℕ) : List UInt8 :=
  if u < 0x80 then [UInt8.ofNat u]
  else if u < 0x800 then [UInt8.ofNat (0xC0 + u / 64), UInt8.ofNat (0x80 + u % 64)]
  else if u < 0x10000 then
    [UInt8.ofNat (0xE0 + u / 4096), UInt8.ofNat (0x80 + u / 64 % 64), UInt8.ofNat (0x80 + u % 64)]
  else
    [UInt8.ofNat (0xF0 + u / 262144), UInt8.ofNat (0x80 + u / 4096 % 64),
      UInt8.ofNat (0x80 + u / 64 % 64), UInt8.ofNat (0x80 + u % 64)]

/-- The characters of a string and what follows its closing quotation mark. -/
def readString : List UInt8 → Option (List UInt8 × List UInt8)
  | [] => none
  | c :: t =>
    if c = quotationMark then some ([], t)
    else if c = reverseSolidus then
      match t with
      | 0x75 :: a :: b :: c :: d :: t =>
        match codeUnit? a b c d with
        | none => none
        | some u =>
          if 0xD800 ≤ u ∧ u < 0xDC00 then
            -- the first half of a surrogate pair
            match t with
            | 0x5C :: 0x75 :: a :: b :: c :: d :: t =>
              match codeUnit? a b c d with
              | none => none
              | some v =>
                if 0xDC00 ≤ v ∧ v < 0xE000 then
                  (readString t).map fun p =>
                    (utf8 (0x10000 + (u - 0xD800) * 1024 + (v - 0xDC00)) ++ p.1, p.2)
                else none
            | _ => none
          else if 0xDC00 ≤ u ∧ u < 0xE000 then none
          else (readString t).map fun p => (utf8 u ++ p.1, p.2)
      | e :: t =>
        match escape? e with
        | none => none
        | some b => (readString t).map fun p => (b :: p.1, p.2)
      | [] => none
    else if c < 0x20 then none
    else (readString t).map fun p => (c :: p.1, p.2)

theorem readString_close (t : List UInt8) : readString (quotationMark :: t) = some ([], t) := by
  unfold readString
  rw [if_pos rfl]

/-- A character that stands for itself. -/
theorem readString_plain {c : UInt8} (h1 : c ≠ quotationMark) (h2 : c ≠ reverseSolidus)
    (h3 : ¬ c < 0x20) (t : List UInt8) :
    readString (c :: t) = (readString t).map fun p => (c :: p.1, p.2) := by
  conv_lhs => unfold readString
  rw [if_neg h1, if_neg h2, if_neg h3]

theorem readString_control {c : UInt8} (h : c < 0x20) (t : List UInt8) :
    readString (c :: t) = none := by
  have h1 : c ≠ quotationMark := by rintro rfl; revert h; decide
  have h2 : c ≠ reverseSolidus := by rintro rfl; revert h; decide
  unfold readString
  rw [if_neg h1, if_neg h2, if_pos h]

/-- An escape of two characters. -/
theorem readString_escape {e b : UInt8} (h : escape? e = some b) (t : List UInt8) :
    readString (reverseSolidus :: e :: t) = (readString t).map fun p => (b :: p.1, p.2) := by
  have hu : e ≠ 0x75 := by
    rintro rfl
    rw [show escape? 0x75 = none from rfl] at h
    cases h
  conv_lhs => unfold readString
  rw [if_neg (by decide), if_pos rfl]
  split
  · rename_i heq
    exact absurd (List.cons.inj heq).1 hu
  · rename_i heq
    obtain ⟨rfl, rfl⟩ := List.cons.inj heq
    rw [h]
  · rename_i heq
    cases heq

/-- An escape that is not defined. -/
theorem readString_undefined {e : UInt8} (h : escape? e = none) (hu : e ≠ 0x75) (t : List UInt8) :
    readString (reverseSolidus :: e :: t) = none := by
  unfold readString
  rw [if_neg (by decide), if_pos rfl]
  split
  · rename_i heq
    exact absurd (List.cons.inj heq).1 hu
  · rename_i heq
    obtain ⟨rfl, rfl⟩ := List.cons.inj heq
    rw [h]
  · rename_i heq
    cases heq

theorem length_utf8_le (u : ℕ) : (utf8 u).length ≤ 4 := by
  unfold utf8
  split_ifs <;> simp

/-- A string is not longer than what it is read from, less its closing quotation mark, and shorter
if that starts with an escape. -/
theorem readString_length {t s rest : List UInt8} (h : readString t = some (s, rest)) :
    s.length + rest.length + 1 ≤ t.length ∧
      (t.head? = some reverseSolidus → s.length + rest.length + 2 ≤ t.length) := by
  have hmap : ∀ {u t s rest : List UInt8},
      (readString t).map (fun p => (u ++ p.1, p.2)) = some (s, rest) →
      (∀ {s rest : List UInt8}, readString t = some (s, rest) →
        s.length + rest.length + 1 ≤ t.length ∧
          (t.head? = some reverseSolidus → s.length + rest.length + 2 ≤ t.length)) →
      s.length + rest.length + 1 ≤ u.length + t.length := by
    intro u t s rest h ih
    obtain ⟨⟨s', rest'⟩, hread, heq⟩ := Option.map_eq_some_iff.1 h
    obtain ⟨rfl, rfl⟩ := Prod.ext_iff.1 heq
    have := (ih hread).1
    simp only [List.length_append]
    omega
  fun_induction readString t generalizing s rest with
  | case2 t =>
    obtain ⟨rfl, rfl⟩ := Prod.ext_iff.1 (Option.some.inj h)
    refine ⟨by simp, fun h => ?_⟩
    exact absurd (Option.some.inj h) (by decide)
  | case5 a b c d u _ _ a' b' c' d' t v _ _ _ ih =>
    have := hmap h ih
    have := length_utf8_le (0x10000 + (u - 0xD800) * 1024 + (v - 0xDC00))
    simp only [List.length_cons]
    omega
  | case9 a b c d t u _ _ _ _ ih =>
    have := hmap h ih
    have := length_utf8_le u
    simp only [List.length_cons]
    omega
  | case11 e t _ b _ _ ih =>
    have := hmap (u := [b]) h ih
    simp only [List.length_cons, List.length_nil] at this ⊢
    omega
  | case14 c t _ hc _ ih =>
    have := hmap (u := [c]) h ih
    simp only [List.length_cons, List.length_nil] at this ⊢
    refine ⟨by omega, fun h => ?_⟩
    exact absurd (Option.some.inj h) hc
  | _ => cases h

/-- `unescaped`: the characters that stand for themselves in a string. -/
def Unescaped (c : UInt8) : Prop := c ≠ quotationMark ∧ c ≠ reverseSolidus ∧ ¬ c < 0x20

instance (c : UInt8) : Decidable (Unescaped c) := inferInstanceAs (Decidable (_ ∧ _))

/-- **A string that is written as it is is read as itself** if none of its characters needs an
escape. -/
theorem readString_self_iff (s : List UInt8) :
    (∀ rest, readString (s ++ quotationMark :: rest) = some (s, rest)) ↔
      ∀ c ∈ s, Unescaped c := by
  induction s with
  | nil => simp [readString_close]
  | cons c s ih =>
    constructor
    · intro h
      have h1 : c ≠ quotationMark := by
        rintro rfl
        have := h []
        rw [List.cons_append, readString_close] at this
        simp at this
      have h2 : c ≠ reverseSolidus := by
        rintro rfl
        have := (readString_length (h [])).2 rfl
        simp at this
      have h3 : ¬ c < 0x20 := by
        intro hlt
        have := h []
        rw [List.cons_append, readString_control hlt] at this
        cases this
      refine List.forall_mem_cons.2 ⟨⟨h1, h2, h3⟩, ih.1 fun rest => ?_⟩
      have hread := h rest
      rw [List.cons_append, readString_plain h1 h2 h3] at hread
      obtain ⟨⟨s', rest'⟩, hs, heq⟩ := Option.map_eq_some_iff.1 hread
      simp only [Prod.mk.injEq, List.cons.injEq, true_and] at heq
      rw [hs, heq.1, heq.2]
    · intro h rest
      obtain ⟨⟨h1, h2, h3⟩, hs⟩ := List.forall_mem_cons.1 h
      rw [List.cons_append, readString_plain h1 h2 h3, ih.2 hs rest]
      rfl

/-! ### Numbers and literals -/

def isDigit (c : UInt8) : Bool := 0x30 ≤ c ∧ c ≤ 0x39

/-- `int`: 0, or digits that start with another one. -/
def readInt : List UInt8 → Option (List UInt8 × List UInt8)
  | [] => none
  | c :: t =>
    if c = 0x30 then some ([c], t)
    else if isDigit c then some (c :: t.takeWhile isDigit, t.dropWhile isDigit)
    else none

/-- One digit or more. -/
def readDigits (t : List UInt8) : Option (List UInt8 × List UInt8) :=
  if t.takeWhile isDigit = [] then none else some (t.takeWhile isDigit, t.dropWhile isDigit)

/-- An optional `frac`. -/
def readFrac : List UInt8 → Option (List UInt8 × List UInt8)
  | 0x2E :: t => (readDigits t).map fun p => (0x2E :: p.1, p.2)
  | t => some ([], t)

/-- The sign of an exponent. -/
def readSign : List UInt8 → List UInt8 × List UInt8
  | 0x2B :: t => ([0x2B], t)
  | 0x2D :: t => ([0x2D], t)
  | t => ([], t)

/-- An optional `exp`. -/
def readExp : List UInt8 → Option (List UInt8 × List UInt8)
  | [] => some ([], [])
  | c :: t =>
    if c = 0x65 ∨ c = 0x45 then
      (readDigits (readSign t).2).map fun p => (c :: (readSign t).1 ++ p.1, p.2)
    else some ([], c :: t)

/-- A number without its minus. -/
def readUnsigned (t : List UInt8) : Option (List UInt8 × List UInt8) := do
  let (int, t) ← readInt t
  let (frac, t) ← readFrac t
  let (exp, t) ← readExp t
  return (int ++ frac ++ exp, t)

/-- A number. -/
def readNumber : List UInt8 → Option (List UInt8 × List UInt8)
  | 0x2D :: t => (readUnsigned t).map fun p => (0x2D :: p.1, p.2)
  | t => readUnsigned t

/-- A literal name or a number. -/
def readScalar (t : List UInt8) : Option (Json × List UInt8) :=
  if [0x6E, 0x75, 0x6C, 0x6C] <+: t then some (.null, t.drop 4)
  else if [0x74, 0x72, 0x75, 0x65] <+: t then some (.bool true, t.drop 4)
  else if [0x66, 0x61, 0x6C, 0x73, 0x65] <+: t then some (.bool false, t.drop 5)
  else (readNumber t).map fun p => (.number p.1, p.2)

/-! ### Values -/

mutual

/-- A value, with at most `n` values nested in it or following each other. -/
def readValue : ℕ → List UInt8 → Option (Json × List UInt8)
  | 0, _ => none
  | n + 1, t =>
    match skipSpaces t with
    | [] => none
    | c :: t =>
      if c = quotationMark then (readString t).map fun p => (.string p.1, p.2)
      else if c = beginObject then
        match skipSpaces t with
        | [] => none
        | c :: t =>
          if c = endObject then some (.object [], t)
          else (readMembers n (c :: t)).map fun p => (.object p.1, p.2)
      else if c = beginArray then
        match skipSpaces t with
        | [] => none
        | c :: t =>
          if c = endArray then some (.array [], t)
          else (readElements n (c :: t)).map fun p => (.array p.1, p.2)
      else readScalar (c :: t)

/-- The members of an object and what follows its end. -/
def readMembers : ℕ → List UInt8 → Option (List (List UInt8 × Json) × List UInt8)
  | 0, _ => none
  | n + 1, t =>
    match skipSpaces t with
    | [] => none
    | c :: t =>
      if c = quotationMark then
        match readString t with
        | none => none
        | some (key, t) =>
          match skipSpaces t with
          | [] => none
          | c :: t =>
            if c = colon then
              match readValue n t with
              | none => none
              | some (v, t) =>
                match skipSpaces t with
                | [] => none
                | c :: t =>
                  if c = comma then (readMembers n t).map fun p => ((key, v) :: p.1, p.2)
                  else if c = endObject then some ([(key, v)], t)
                  else none
            else none
      else none

/-- The elements of an array and what follows its end. -/
def readElements : ℕ → List UInt8 → Option (List Json × List UInt8)
  | 0, _ => none
  | n + 1, t =>
    match readValue n t with
    | none => none
    | some (v, t) =>
      match skipSpaces t with
      | [] => none
      | c :: t =>
        if c = comma then (readElements n t).map fun p => (v :: p.1, p.2)
        else if c = endArray then some ([v], t)
        else none

end

/-- A JSON text. -/
def readText (t : List UInt8) : Option Json :=
  match readValue (t.length + 1) t with
  | none => none
  | some (v, t) => if skipSpaces t = [] then some v else none

/-! ### Lemmas for writers that write no spaces -/

theorem skipSpaces_cons {c : UInt8} (h : isSpace c = false) (t : List UInt8) :
    skipSpaces (c :: t) = c :: t := by
  rw [skipSpaces, List.dropWhile_cons_of_neg (by simp [h])]

theorem readValue_string (n : ℕ) (t : List UInt8) :
    readValue (n + 1) (quotationMark :: t) = (readString t).map fun p => (.string p.1, p.2) := by
  unfold readValue
  rw [skipSpaces_cons rfl]
  exact if_pos rfl

theorem readValue_object {c : UInt8} (hc : isSpace c = false) (hend : c ≠ endObject) (n : ℕ)
    (t : List UInt8) :
    readValue (n + 1) (beginObject :: c :: t) =
      (readMembers n (c :: t)).map fun p => (.object p.1, p.2) := by
  unfold readValue
  rw [skipSpaces_cons rfl]
  simp only
  rw [if_neg (by decide), if_pos trivial, skipSpaces_cons hc]
  exact if_neg hend

theorem readValue_emptyArray (n : ℕ) (t : List UInt8) :
    readValue (n + 1) (beginArray :: endArray :: t) = some (.array [], t) := by
  unfold readValue
  rw [skipSpaces_cons rfl]
  simp only
  rw [if_neg (by decide), if_neg (by decide), if_pos trivial, skipSpaces_cons rfl]
  exact if_pos rfl

theorem readValue_array {c : UInt8} (hc : isSpace c = false) (hend : c ≠ endArray) (n : ℕ)
    (t : List UInt8) :
    readValue (n + 1) (beginArray :: c :: t) =
      (readElements n (c :: t)).map fun p => (.array p.1, p.2) := by
  unfold readValue
  rw [skipSpaces_cons rfl]
  simp only
  rw [if_neg (by decide), if_neg (by decide), if_pos trivial, skipSpaces_cons hc]
  exact if_neg hend

section Members

variable {n : ℕ} {key value t rest : List UInt8} {v : Json}

/-- A member that is followed by another one. -/
theorem readMembers_comma (hkey : readString t = some (key, colon :: value))
    (hv : readValue n value = some (v, comma :: rest)) :
    readMembers (n + 1) (quotationMark :: t) =
      (readMembers n rest).map fun p => ((key, v) :: p.1, p.2) := by
  conv_lhs => unfold readMembers
  rw [skipSpaces_cons rfl]
  simp only [if_true, hkey]
  rw [skipSpaces_cons rfl]
  simp only [if_true, hv]
  rw [skipSpaces_cons rfl]
  simp only [if_true]

/-- The last member. -/
theorem readMembers_end (hkey : readString t = some (key, colon :: value))
    (hv : readValue n value = some (v, endObject :: rest)) :
    readMembers (n + 1) (quotationMark :: t) = some ([(key, v)], rest) := by
  unfold readMembers
  rw [skipSpaces_cons rfl]
  simp only [if_true, hkey]
  rw [skipSpaces_cons rfl]
  simp only [if_true, hv]
  rw [skipSpaces_cons rfl]
  exact (if_neg (by decide)).trans (if_pos rfl)

/-- A member whose value is refused. -/
theorem readMembers_none (hkey : readString t = some (key, colon :: value))
    (hv : readValue n value = none) : readMembers (n + 1) (quotationMark :: t) = none := by
  unfold readMembers
  rw [skipSpaces_cons rfl]
  simp only [if_true, hkey]
  rw [skipSpaces_cons rfl]
  simp only [if_true, hv]

end Members

/-- **The elements of an array**, if each of them is read without regard to what follows it. -/
theorem readElements_separated {α : Type*} {text : α → List UInt8} {value : α → Json}
    {good : α → Prop} [DecidablePred good] {k : ℕ}
    (hitem : ∀ x n rest, k ≤ n →
      readValue n (text x ++ rest) = if good x then some (value x, rest) else none)
    (x : α) (xs : List α) {n : ℕ} (hn : k + xs.length < n) (rest : List UInt8) :
    readElements n (text x ++ (xs.flatMap (fun y => comma :: text y) ++ endArray :: rest)) =
      if ∀ y ∈ x :: xs, good y then some ((x :: xs).map value, rest) else none := by
  induction xs generalizing x n with
  | nil =>
    obtain ⟨n, rfl⟩ : ∃ m, n = m + 1 := ⟨n - 1, by omega⟩
    rw [List.length_nil] at hn
    unfold readElements
    rw [List.flatMap_nil, List.nil_append, hitem x n _ (by omega)]
    by_cases hx : good x
    · rw [if_pos hx, if_pos (by simpa using hx)]
      simp only
      rw [skipSpaces_cons rfl]
      exact (if_neg (by decide)).trans (if_pos rfl)
    · rw [if_neg hx, if_neg (by simpa using hx)]
  | cons y ys ih =>
    obtain ⟨n, rfl⟩ : ∃ m, n = m + 1 := ⟨n - 1, by omega⟩
    rw [List.length_cons] at hn
    unfold readElements
    rw [List.flatMap_cons, List.append_assoc, List.cons_append, hitem x n _ (by omega)]
    by_cases hx : good x
    · rw [if_pos hx]
      simp only
      rw [skipSpaces_cons rfl]
      simp only [if_true]
      rw [ih y (by omega)]
      by_cases hall : ∀ z ∈ y :: ys, good z
      · rw [if_pos hall, if_pos (List.forall_mem_cons.2 ⟨hx, hall⟩)]
        rfl
      · rw [if_neg hall, if_neg fun h => hall (List.forall_mem_cons.1 h).2]
        rfl
    · rw [if_neg hx, if_neg fun h => hx (List.forall_mem_cons.1 h).1]

end JsonText
