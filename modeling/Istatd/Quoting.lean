import Istatd.JsonListing

/-!
# Quoting (`sql_quote`, `js_quote` and what undoes them)

Both pairs of functions are an escape with a backslash, with a table each; the one for JavaScript
lacks three entries of the other.  The loops that unquote print each character as a C string, and
lose the character 0.

* `jsEscapes`: the table of `js_quote`;
* `quoting_roundTrip`: quoting is undone, and the quoted text can stand between quotes on a line.
-/

namespace Istatd

/-- The characters that `js_quote` replaces by a backslash and another one. -/
def jsEscapes : List (UInt8 × UInt8) :=
  [(92, 92), (39, 39), (34, 34), (0, byte '0'), (8, byte 'b'), (9, byte 't'), (10, byte 'n'),
    (13, byte 'r')]

/-- The character for which one stands behind a backslash. -/
def jsUnescape (ch : UInt8) : UInt8 :=
  if ch = byte 'r' then 13
  else if ch = byte 'n' then 10
  else if ch = byte 't' then 9
  else if ch = byte 'b' then 8
  else if ch = byte '0' then 0
  else ch

/-- The loop of `js_unquote`. -/
def jsUnquoteFrom : Bool → Bytes → Bytes
  | _, [] => []
  | true, ch :: rest => tmpString (jsUnescape ch) ++ jsUnquoteFrom false rest
  | false, ch :: rest =>
    if ch = 92 then jsUnquoteFrom true rest else tmpString ch ++ jsUnquoteFrom false rest

/-- `js_unquote`. -/
def jsUnquote (str : Bytes) : Bytes := jsUnquoteFrom false str

theorem jsEscapes_all {P : UInt8 × UInt8 → Bool} (h : jsEscapes.all P = true) {ch c : UInt8}
    (hch : jsEscapes.lookup ch = some c) : P (ch, c) = true := by
  obtain ⟨l₁, l₂, hl, -⟩ := List.lookup_eq_some_iff.1 hch
  exact List.all_eq_true.1 h (ch, c) (by rw [hl]; simp)

/-- The table of `js_quote` and its inverse. -/
def jsEscaping : Escaping UInt8 where
  esc := 92
  table ch := jsEscapes.lookup ch
  undo := jsUnescape
  table_esc := by decide
  undo_table _ _ h :=
    of_decide_eq_true (jsEscapes_all (P := fun p => jsUnescape p.2 = p.1) (by decide) h)

theorem jsQuoteChar_of_some {ch c : UInt8} (h : jsEscapes.lookup ch = some c) :
    jsQuoteChar ch = [92, c] :=
  of_decide_eq_true (jsEscapes_all (P := fun p => jsQuoteChar p.1 = [92, p.2]) (by decide) h)

theorem jsQuoteChar_of_none {ch : UInt8} (h : jsEscapes.lookup ch = none) :
    jsQuoteChar ch = [ch] := by
  have hne := List.lookup_eq_none_iff.1 h
  simp only [jsEscapes, List.forall_mem_cons, bne_iff_ne, ne_eq] at hne
  obtain ⟨h1, h2, h3, h4, h5, h6, h7, h8, -⟩ := hne
  rw [jsQuoteChar, if_neg h1, if_neg h2, if_neg h3, if_neg h4, if_neg h5, if_neg h6, if_neg h7,
    if_neg h8]

theorem jsQuoteChar_eq_unit (ch : UInt8) : jsQuoteChar ch = jsEscaping.unit ch := by
  have htable : jsEscaping.table ch = jsEscapes.lookup ch := rfl
  cases hesc : jsEscapes.lookup ch with
  | some c => rw [jsQuoteChar_of_some hesc, Escaping.unit_of_some (htable.trans hesc)]; rfl
  | none => rw [jsQuoteChar_of_none hesc, Escaping.unit_of_none (htable.trans hesc)]

theorem jsQuote_eq_quote (s : Bytes) : jsQuote s = jsEscaping.quote s :=
  List.flatMap_congr fun ch _ => jsQuoteChar_eq_unit ch

theorem jsUnquote_eq_unquoteFrom (str : Bytes) :
    jsUnquote str = jsEscaping.unquoteFrom tmpString false str := by
  have hfrom : ∀ quote, jsUnquoteFrom quote str = jsEscaping.unquoteFrom tmpString quote str := by
    induction str with
    | nil => exact fun quote => by cases quote <;> rfl
    | cons ch str ih =>
      intro quote
      cases quote with
      | true => rw [jsUnquoteFrom, Escaping.unquoteFrom, ih]; rfl
      | false => rw [jsUnquoteFrom, Escaping.unquoteFrom, ih, ih]; rfl
  exact hfrom false

theorem jsUnquote_jsQuote {s : Bytes} (h : 0 ∉ s) : jsUnquote (jsQuote s) = s := by
  rw [jsUnquote_eq_unquoteFrom, jsQuote_eq_quote]
  exact jsEscaping.unquote_quote (tmpString_of_mem h)

theorem not_mem_jsQuote {ch : UInt8} (hch : ch = 10 ∨ ch = 13) (s : Bytes) : ch ∉ jsQuote s := by
  have htable : ∀ a c, jsEscapes.lookup a = some c → c ≠ 10 ∧ c ≠ 13 := fun a c h =>
    of_decide_eq_true (jsEscapes_all (P := fun p => p.2 ≠ 10 ∧ p.2 ≠ 13) (by decide) h)
  rw [jsQuote_eq_quote]
  rcases hch with rfl | rfl
  · exact jsEscaping.not_mem_quote (by decide) (by decide) (fun a c h => (htable a c h).1) s
  · exact jsEscaping.not_mem_quote (by decide) (by decide) (fun a c h => (htable a c h).2) s

/-- The text ends with a backslash that is not itself escaped: with an odd number of them. -/
def EndsInEscape (text : Bytes) : Prop := Odd (text.reverse.takeWhile (· = 92)).length

/-- **Quoting is undone** for strings without the character 0; what is quoted has no ends of lines,
and each quote in it stands behind a backslash that is not itself escaped. -/
theorem quoting_roundTrip {s : Bytes} (h : 0 ∉ s) :
    (sqlUnquote (sqlQuote s) = s ∧ jsUnquote (jsQuote s) = s) ∧
      (∀ text, text = sqlQuote s ∨ text = jsQuote s →
        10 ∉ text ∧ 13 ∉ text ∧ ∀ pre ch post, ch = 34 ∨ ch = 39 → text = pre ++ ch :: post →
          EndsInEscape pre) := by
  refine ⟨⟨sqlUnquote_sqlQuote h, jsUnquote_jsQuote h⟩, ?_⟩
  rintro text (rfl | rfl)
  · refine ⟨not_mem_sqlQuote (Or.inl rfl) s, not_mem_sqlQuote (Or.inr rfl) s, ?_⟩
    intro pre ch post hch htext
    rw [sqlQuote_eq_quote] at htext
    refine (sqlEscaping.opened_iff_odd pre).1 (sqlEscaping.opened_of_quote ?_ ?_ htext)
    · rcases hch with rfl | rfl <;> decide
    · rcases hch with rfl | rfl <;> decide
  · refine ⟨not_mem_jsQuote (Or.inl rfl) s, not_mem_jsQuote (Or.inr rfl) s, ?_⟩
    intro pre ch post hch htext
    rw [jsQuote_eq_quote] at htext
    refine (jsEscaping.opened_iff_odd pre).1 (jsEscaping.opened_of_quote ?_ ?_ htext)
    · rcases hch with rfl | rfl <;> decide
    · rcases hch with rfl | rfl <;> decide

/-- A backslash and a quote. -/
theorem quoting_roundTrip_sample :
    0 ∉ ([92, 34, 10] : Bytes) ∧ sqlQuote [92, 34, 10] = [92, 92, 92, 34, 92, byte 'n'] ∧
      sqlUnquote (sqlQuote [92, 34, 10]) = [92, 34, 10] ∧ EndsInEscape [92, 92, 92] := by
  have hzero : 0 ∉ ([92, 34, 10] : Bytes) := by decide
  have hquote : sqlQuote [92, 34, 10] = [92, 92, 92, 34, 92, byte 'n'] := by decide
  have htrip := quoting_roundTrip hzero
  refine ⟨hzero, hquote, htrip.1.1, ?_⟩
  exact (htrip.2 _ (Or.inl rfl)).2.2 [92, 92, 92] 34 [92, byte 'n'] (Or.inl rfl) hquote

end Istatd
