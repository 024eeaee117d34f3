import Istatd.AllKeys
import Istatd.Lib.JsonText

/-!
# Counter listings as JSON (`RequestInFlight::createCountersMatchingResponse`)

The reply to a listing is written by hand, with the pattern and the names passed through `js_quote`.
That function escapes quotation marks, backslashes and four control characters as JSON has it, but it
also writes `\'` and `\0`, which JSON does not define, and leaves all other control characters as
they are.

* `readString_jsQuote`: what a reader makes of a quoted string;
* `readText_listing`: what it makes of a whole reply;
* `listing_readable_iff`: when the reply is a JSON text with the pattern and the names.
-/

namespace Istatd

open JsonText

/-! ### `js_quote` -/

/-- The body of the loop of `js_quote`. -/
def jsQuoteChar (c : UInt8) : Bytes :=
  if c = 0x5C then [0x5C, 0x5C]
  else if c = 0x27 then [0x5C, 0x27]
  else if c = 0x22 then [0x5C, 0x22]
  else if c = 0 then [0x5C, byte '0']
  else if c = 8 then [0x5C, byte 'b']
  else if c = 9 then [0x5C, byte 't']
  else if c = 10 then [0x5C, byte 'n']
  else if c = 13 then [0x5C, byte 'r']
  else [c]

/-- `js_quote`. -/
def jsQuote (s : Bytes) : Bytes := s.flatMap jsQuoteChar

/-- A byte that `js_quote` writes as JSON has it. -/
def Quotable (c : UInt8) : Prop := c ≠ 0x27 ∧ (0x20 ≤ c ∨ c = 8 ∨ c = 9 ∨ c = 10 ∨ c = 13)

instance (c : UInt8) : Decidable (Quotable c) := inferInstanceAs (Decidable (_ ∧ _))

theorem readString_jsQuoteChar (c : UInt8) (t : Bytes) :
    readString (jsQuoteChar c ++ t) =
      if Quotable c then (readString t).map fun p => (c :: p.1, p.2) else none := by
  have hescape : ∀ e b : UInt8, jsQuoteChar b = [0x5C, e] → escape? e = some b → Quotable b →
      readString (jsQuoteChar b ++ t) =
        if Quotable b then (readString t).map fun p => (b :: p.1, p.2) else none := by
    intro e b hquote he hb
    rw [if_pos hb, hquote]
    exact readString_escape he t
  have hundefined : ∀ e b : UInt8, jsQuoteChar b = [0x5C, e] → escape? e = none → e ≠ 0x75 →
      ¬ Quotable b → readString (jsQuoteChar b ++ t) =
        if Quotable b then (readString t).map fun p => (b :: p.1, p.2) else none := by
    intro e b hquote he hu hb
    rw [if_neg hb, hquote]
    exact readString_undefined he hu t
  by_cases h1 : c = 0x5C
  · subst h1; exact hescape 0x5C _ rfl rfl (by decide)
  by_cases h2 : c = 0x27
  · subst h2; exact hundefined 0x27 _ rfl rfl (by decide) (by decide)
  by_cases h3 : c = 0x22
  · subst h3; exact hescape 0x22 _ rfl rfl (by decide)
  by_cases h4 : c = 0
  · subst h4; exact hundefined (byte '0') _ rfl rfl (by decide) (by decide)
  by_cases h5 : c = 8
  · subst h5; exact hescape (byte 'b') _ rfl rfl (by decide)
  by_cases h6 : c = 9
  · subst h6; exact hescape (byte 't') _ rfl rfl (by decide)
  by_cases h7 : c = 10
  · subst h7; exact hescape (byte 'n') _ rfl rfl (by decide)
  by_cases h8 : c = 13
  · subst h8; exact hescape (byte 'r') _ rfl rfl (by decide)
  -- all other bytes are written as they are
  have hself : jsQuoteChar c = [c] := by
    unfold jsQuoteChar
    rw [if_neg h1, if_neg h2, if_neg h3, if_neg h4, if_neg h5, if_neg h6, if_neg h7, if_neg h8]
  rw [hself, List.singleton_append]
  by_cases hlt : c < 0x20
  · have hnot : ¬ Quotable c := by
      rintro ⟨-, hle | h | h | h | h⟩
      · exact absurd hlt (UInt8.not_lt.2 hle)
      · exact h5 h
      · exact h6 h
      · exact h7 h
      · exact h8 h
    rw [if_neg hnot, readString_control hlt]
  · rw [if_pos ⟨h2, Or.inl (UInt8.not_lt.1 hlt)⟩, readString_plain h3 h1 hlt]

/-- **A quoted string is read back** if all its bytes are written as JSON has it, and refused
otherwise. -/
theorem readString_jsQuote (s rest : Bytes) :
    readString (jsQuote s ++ quotationMark :: rest) =
      if ∀ c ∈ s, Quotable c then some (s, rest) else none := by
  induction s with
  | nil => exact readString_close rest
  | cons c s ih =>
    rw [jsQuote, List.flatMap_cons, List.append_assoc, readString_jsQuoteChar]
    by_cases hc : Quotable c
    · rw [if_pos hc]
      rw [jsQuote] at ih
      rw [ih]
      by_cases hs : ∀ d ∈ s, Quotable d
      · rw [if_pos hs, if_pos (List.forall_mem_cons.2 ⟨hc, hs⟩)]
        rfl
      · rw [if_neg hs, if_neg fun h => hs (List.forall_mem_cons.1 h).2]
        rfl
    · rw [if_neg hc, if_neg fun h => hc (List.forall_mem_cons.1 h).1]

/-! ### The reply -/

/-- A string between quotation marks. -/
def quoted (s : Bytes) : Bytes := quotationMark :: (s ++ [quotationMark])

/-- A member of an object. -/
def member (key : String) (value : Bytes) : Bytes := quoted (bytes key) ++ colon :: value

/-- The loops that write a comma before every item but the first. -/
def separated : List Bytes → Bytes
  | [] => []
  | x :: xs => x ++ xs.flatMap (comma :: ·)

/-- The digit an enumerator is written as. -/
def DisplayType.digit : DisplayType → UInt8
  | .gauge => byte '0'
  | .event => byte '1'
  | .aggregate => byte '2'

/-- `CounterResponse::DisplayTypeToString`. -/
def DisplayType.name : DisplayType → Bytes
  | .gauge => bytes "gauge"
  | .event => bytes "counter"
  | .aggregate => bytes "aggregate"

/-- An entry of `type_mapping`. -/
def DisplayType.text (t : DisplayType) : Bytes :=
  quoted [t.digit] ++ colon :: quoted (jsQuote t.name)

/-- The object `type_mapping`. -/
def typeMapping : Bytes :=
  beginObject :: (separated ([.gauge, .event, .aggregate].map DisplayType.text) ++ [endObject])

/-- `true` or `false`. -/
def boolText (b : Bool) : Bytes := if b then bytes "true" else bytes "false"

/-- An entry of `matching_names`. -/
def matchingName (r : Bytes × CounterResponse) : Bytes :=
  beginObject ::
    (member "is_leaf" (boolText r.2.isLeaf) ++
      (comma :: (member "type" [r.2.counterType.digit] ++
        (comma :: (member "name" (quoted (jsQuote r.1)) ++ [endObject])))))

example : matchingName (bytes "ab", ⟨true, .event⟩) =
    bytes "\x7b\"is_leaf\":true,\"type\":1,\"name\":\"ab\"\x7d" := by decide +kernel

/-- `RequestInFlight::createCountersMatchingResponse`: what is written to `strm_buffer_`. -/
def createCountersMatchingResponse (pattern : Bytes) (results : List (Bytes × CounterResponse)) :
    Bytes :=
  beginObject ::
    (member "type_mapping" typeMapping ++
      (comma :: (member "pattern" (quoted (jsQuote pattern)) ++
        (comma :: (member "matching_names"
          (beginArray :: (separated (results.map matchingName) ++ [endArray])) ++ [endObject])))))

/-! ### Reading the reply -/

section Members

variable {n : ℕ} {key : String} {value rest : Bytes} {v : Json}

theorem member_append (key : String) (value rest : Bytes) :
    member key value ++ rest =
      quotationMark :: (bytes key ++ quotationMark :: colon :: (value ++ rest)) := by
  simp [member, quoted]

theorem readMembers_member_comma (hkey : ∀ c ∈ bytes key, Unescaped c)
    (hv : readValue n (value ++ comma :: rest) = some (v, comma :: rest)) :
    readMembers (n + 1) (member key value ++ comma :: rest) =
      (readMembers n rest).map fun p => ((bytes key, v) :: p.1, p.2) := by
  rw [member_append]
  exact readMembers_comma ((readString_self_iff _).2 hkey _) hv

theorem readMembers_member_end (hkey : ∀ c ∈ bytes key, Unescaped c)
    (hv : readValue n (value ++ endObject :: rest) = some (v, endObject :: rest)) :
    readMembers (n + 1) (member key value ++ endObject :: rest) = some ([(bytes key, v)], rest) := by
  rw [member_append]
  exact readMembers_end ((readString_self_iff _).2 hkey _) hv

theorem readMembers_member_none (hkey : ∀ c ∈ bytes key, Unescaped c)
    (hv : readValue n (value ++ rest) = none) :
    readMembers (n + 1) (member key value ++ rest) = none := by
  rw [member_append]
  exact readMembers_none ((readString_self_iff _).2 hkey _) hv

end Members

theorem readValue_quoted (n : ℕ) (s rest : Bytes) :
    readValue (n + 1) (quoted (jsQuote s) ++ rest) =
      if ∀ c ∈ s, Quotable c then some (.string s, rest) else none := by
  have hquoted : quoted (jsQuote s) ++ rest =
      quotationMark :: (jsQuote s ++ quotationMark :: rest) := by simp [quoted]
  rw [hquoted, readValue_string, readString_jsQuote]
  split_ifs <;> rfl

theorem readValue_boolText (n : ℕ) (b : Bool) (rest : Bytes) :
    readValue (n + 1) (boolText b ++ rest) = some (.bool b, rest) := by
  cases b <;> rfl

theorem readValue_digit (n : ℕ) (t : DisplayType) (rest : Bytes) :
    readValue (n + 1) ([t.digit] ++ comma :: rest) = some (.number [t.digit], comma :: rest) := by
  cases t <;> rfl

/-- What an entry of `matching_names` is read as. -/
def matchingValue (r : Bytes × CounterResponse) : Json :=
  .object [(bytes "is_leaf", .bool r.2.isLeaf), (bytes "type", .number [r.2.counterType.digit]),
    (bytes "name", .string r.1)]

theorem readValue_matchingName (r : Bytes × CounterResponse) (n : ℕ) (rest : Bytes) (hn : 5 ≤ n) :
    readValue n (matchingName r ++ rest) =
      if ∀ c ∈ r.1, Quotable c then some (matchingValue r, rest) else none := by
  obtain ⟨n, rfl⟩ : ∃ k, n = k + 5 := ⟨n - 5, by omega⟩
  have htext : matchingName r ++ rest = beginObject ::
      (member "is_leaf" (boolText r.2.isLeaf) ++ comma ::
        (member "type" [r.2.counterType.digit] ++ comma ::
          (member "name" (quoted (jsQuote r.1)) ++ endObject :: rest))) := by
    simp [matchingName]
  have hmembers : readMembers (n + 4)
      (member "is_leaf" (boolText r.2.isLeaf) ++ comma ::
        (member "type" [r.2.counterType.digit] ++ comma ::
          (member "name" (quoted (jsQuote r.1)) ++ endObject :: rest))) =
      if ∀ c ∈ r.1, Quotable c then some ([(bytes "is_leaf", .bool r.2.isLeaf),
        (bytes "type", .number [r.2.counterType.digit]), (bytes "name", .string r.1)], rest)
      else none := by
    rw [readMembers_member_comma (by decide) (readValue_boolText _ _ _),
      readMembers_member_comma (by decide) (readValue_digit _ _ _)]
    by_cases hname : ∀ c ∈ r.1, Quotable c
    · have hv := readValue_quoted n r.1 (endObject :: rest)
      rw [if_pos hname] at hv
      rw [if_pos hname, readMembers_member_end (by decide) hv]
      rfl
    · have hv := readValue_quoted n r.1 (endObject :: rest)
      rw [if_neg hname] at hv
      rw [if_neg hname, readMembers_member_none (by decide) hv]
      rfl
  rw [htext, member_append, readValue_object (by decide) (by decide), ← member_append, hmembers]
  split_ifs <;> rfl

/-- The array of the names. -/
theorem readValue_matchingNames (results : List (Bytes × CounterResponse)) (n : ℕ) (rest : Bytes)
    (hn : results.length + 6 ≤ n) :
    readValue n (beginArray :: (separated (results.map matchingName) ++ endArray :: rest)) =
      if ∀ r ∈ results, ∀ c ∈ r.1, Quotable c then some (.array (results.map matchingValue), rest)
      else none := by
  obtain ⟨n, rfl⟩ : ∃ k, n = k + 1 := ⟨n - 1, by omega⟩
  cases results with
  | nil =>
    rw [if_pos (by simp)]
    exact readValue_emptyArray n rest
  | cons r rs =>
    rw [List.length_cons] at hn
    have htext : separated ((r :: rs).map matchingName) ++ endArray :: rest =
        matchingName r ++ (rs.flatMap (fun y => comma :: matchingName y) ++ endArray :: rest) := by
      simp [separated, List.flatMap_map]
    have hhead : ∀ t, matchingName r ++ t = beginObject :: ((matchingName r).tail ++ t) :=
      fun _ => rfl
    rw [htext, hhead, readValue_array (by decide) (by decide), ← hhead,
      readElements_separated readValue_matchingName r rs (by omega) rest]
    split_ifs <;> rfl

/-- `type_mapping`, as it is read. -/
def typeMappingValue : Json :=
  .object ([DisplayType.gauge, .event, .aggregate].map fun t => ([t.digit], .string t.name))

section TypeMapping

variable (t : DisplayType) (n : ℕ) (rest : Bytes)

theorem DisplayType.text_append :
    t.text ++ rest =
      quotationMark :: (t.digit :: quotationMark :: colon :: (quoted (jsQuote t.name) ++ rest)) := by
  simp [DisplayType.text, quoted]

theorem DisplayType.unescaped_digit : ∀ c ∈ [t.digit], Unescaped c := by
  cases t <;> decide

theorem readValue_typeName :
    readValue (n + 1) (quoted (jsQuote t.name) ++ rest) = some (.string t.name, rest) := by
  rw [readValue_quoted, if_pos (by cases t <;> decide)]

theorem readMembers_type_comma :
    readMembers (n + 2) (t.text ++ comma :: rest) =
      (readMembers (n + 1) rest).map fun p => (([t.digit], .string t.name) :: p.1, p.2) := by
  rw [t.text_append]
  exact readMembers_comma ((readString_self_iff _).2 t.unescaped_digit _) (readValue_typeName t n _)

theorem readMembers_type_end :
    readMembers (n + 2) (t.text ++ endObject :: rest) =
      some ([([t.digit], .string t.name)], rest) := by
  rw [t.text_append]
  exact readMembers_end ((readString_self_iff _).2 t.unescaped_digit _) (readValue_typeName t n _)

end TypeMapping

theorem readValue_typeMapping (n : ℕ) (rest : Bytes) :
    readValue (n + 5) (typeMapping ++ rest) = some (typeMappingValue, rest) := by
  have htext : typeMapping ++ rest = beginObject :: (DisplayType.gauge.text ++ comma ::
      (DisplayType.event.text ++ comma :: (DisplayType.aggregate.text ++ endObject :: rest))) := by
    simp [typeMapping, separated]
  rw [htext, DisplayType.text_append, readValue_object (by decide) (by decide),
    ← DisplayType.text_append, readMembers_type_comma, readMembers_type_comma,
    readMembers_type_end]
  rfl

/-- What the reply is read as. -/
def listingValue (pattern : Bytes) (results : List (Bytes × CounterResponse)) : Json :=
  .object [(bytes "type_mapping", typeMappingValue), (bytes "pattern", .string pattern),
    (bytes "matching_names", .array (results.map matchingValue))]

theorem readValue_listing (pattern : Bytes) (results : List (Bytes × CounterResponse)) (n : ℕ)
    (hn : results.length + 10 ≤ n) :
    readValue n (createCountersMatchingResponse pattern results) =
      if (∀ c ∈ pattern, Quotable c) ∧ ∀ r ∈ results, ∀ c ∈ r.1, Quotable c then
        some (listingValue pattern results, [])
      else none := by
  obtain ⟨n, rfl⟩ : ∃ k, n = k + 10 := ⟨n - 10, by omega⟩
  unfold createCountersMatchingResponse
  rw [member_append, readValue_object (by decide) (by decide), ← member_append,
    readMembers_member_comma (by decide) (readValue_typeMapping (n + 3) _)]
  have hpattern := readValue_quoted (n + 6) pattern
  have hnames := readValue_matchingNames results (n + 6) [endObject] (by omega)
  by_cases hp : ∀ c ∈ pattern, Quotable c
  · simp only [if_pos hp] at hpattern
    rw [readMembers_member_comma (by decide) (hpattern _)]
    have htext : beginArray :: (separated (results.map matchingName) ++ [endArray]) ++ [endObject] =
        beginArray :: (separated (results.map matchingName) ++ endArray :: [endObject]) := by simp
    by_cases hr : ∀ r ∈ results, ∀ c ∈ r.1, Quotable c
    · rw [if_pos hr, ← htext] at hnames
      rw [if_pos ⟨hp, hr⟩, readMembers_member_end (by decide) hnames]
      rfl
    · rw [if_neg hr, ← htext] at hnames
      rw [if_neg fun h => hr h.2, readMembers_member_none (by decide) hnames]
      rfl
  · simp only [if_neg hp] at hpattern
    rw [if_neg fun h => hp h.1, readMembers_member_none (by decide) (hpattern _)]
    rfl

theorem length_le_listing (pattern : Bytes) (results : List (Bytes × CounterResponse)) :
    results.length + 10 ≤ (createCountersMatchingResponse pattern results).length + 1 := by
  have hsep : results.length ≤ (separated (results.map matchingName)).length := by
    cases results with
    | nil => exact Nat.zero_le _
    | cons r rs =>
      have hrest : rs.length ≤ ((rs.map matchingName).flatMap (comma :: ·)).length := by
        induction rs with
        | nil => exact Nat.zero_le _
        | cons y ys ih =>
          rw [List.map_cons, List.flatMap_cons, List.length_append, List.length_cons,
            List.length_cons]
          omega
      rw [List.map_cons, separated, List.length_append, List.length_cons]
      have : 1 ≤ (matchingName r).length := Nat.succ_le_succ (Nat.zero_le _)
      omega
  have htype : 10 ≤ typeMapping.length := by decide
  unfold createCountersMatchingResponse member
  simp only [List.length_append, List.length_cons]
  omega

/-- **What a reader makes of the reply.** -/
theorem readText_listing (pattern : Bytes) (results : List (Bytes × CounterResponse)) :
    readText (createCountersMatchingResponse pattern results) =
      if (∀ c ∈ pattern, Quotable c) ∧ ∀ r ∈ results, ∀ c ∈ r.1, Quotable c then
        some (listingValue pattern results)
      else none := by
  unfold readText
  rw [readValue_listing pattern results _ (length_le_listing pattern results)]
  split_ifs <;> rfl

/-! ### The pattern and the names of a reply -/

/-- The first member of an object with a key. -/
def memberOf (key : Bytes) : Json → Option Json
  | .object members => members.lookup key
  | _ => none

def stringOf : Json → Option Bytes
  | .string s => some s
  | _ => none

def elementsOf : Json → Option (List Json)
  | .array elements => some elements
  | _ => none

/-- `pattern`. -/
def listedPattern (v : Json) : Option Bytes := (memberOf (bytes "pattern") v).bind stringOf

/-- The names of the entries of `matching_names`. -/
def listedNames (v : Json) : Option (List Bytes) :=
  ((memberOf (bytes "matching_names") v).bind elementsOf).bind fun elements =>
    elements.mapM fun e => (memberOf (bytes "name") e).bind stringOf

theorem listedPattern_listing (pattern : Bytes) (results : List (Bytes × CounterResponse)) :
    listedPattern (listingValue pattern results) = some pattern := rfl

theorem listedNames_listing (pattern : Bytes) (results : List (Bytes × CounterResponse)) :
    listedNames (listingValue pattern results) = some (results.map Prod.fst) := by
  have hnames : (results.map matchingValue).mapM
      (fun e => (memberOf (bytes "name") e).bind stringOf) = some (results.map Prod.fst) := by
    induction results with
    | nil => rfl
    | cons r rs ih =>
      rw [List.map_cons, List.mapM_cons, ih]
      rfl
  exact hnames

/-- **When a listing is JSON.** For every pattern and every list of names, the reply is a JSON text
with this pattern and these names, in order, if and only if none of them has an apostrophe, a NUL or
another control character than backspace, tab, newline and carriage return. -/
theorem listing_readable_iff (pattern : Bytes) (results : List (Bytes × CounterResponse)) :
    (∃ v, readText (createCountersMatchingResponse pattern results) = some v ∧
      listedPattern v = some pattern ∧ listedNames v = some (results.map Prod.fst)) ↔
    (∀ c ∈ pattern, Quotable c) ∧ ∀ name ∈ results.map Prod.fst, ∀ c ∈ name, Quotable c := by
  rw [readText_listing, List.forall_mem_map]
  split_ifs with h
  · exact ⟨fun _ => h, fun _ =>
      ⟨_, rfl, listedPattern_listing pattern results, listedNames_listing pattern results⟩⟩
  · refine iff_of_false ?_ h
    rintro ⟨v, hv, -⟩
    cases hv

/-- A pattern with an apostrophe: the reply is no JSON text. -/
theorem listing_apostrophe :
    ¬ ∀ pattern results, ∃ v, readText (createCountersMatchingResponse pattern results) = some v ∧
      listedPattern v = some pattern ∧ listedNames v = some (results.map Prod.fst) := by
  intro h
  obtain ⟨v, hv, -⟩ := h [0x27] []
  rw [readText_listing, if_neg (by decide)] at hv
  cases hv

end Istatd
