import Istatd.Lib.Escapes
import Mathlib.Data.List.DropRight
import Mathlib.Tactic

/-!
# Strings

Strings are lists of bytes.  Here are the functions on counter names that the store uses: `munge`,
the part of a name before its last dot, and `str_pat_match`, which is a loop over pairs of positions
with a stack of pairs to go back to; and `split` and `trim`, with which lines are taken apart.

* `munge`, `beforeLastDot`, `split`, `trim`, `strPatMatch`;
* `beforeLastDot_eq_some_iff`: what stands before and after the last dot;
* `Covers`: a name and the names below it, `covers_iff` for one step from a name to its parent;
* `strPatMatch_star`: the pattern `*` matches every string.
-/

namespace Istatd

/-- A string. -/
abbrev Bytes := List UInt8

instance : LawfulBEq Bytes := inferInstance

/-- The byte of a character. -/
def byte (c : Char) : UInt8 := c.toUInt8

/-- The string of a literal. -/
def bytes (s : String) : Bytes := s.toList.map byte

/-- The order of keys in a `std::map`. -/
def keyRank (key : Bytes) : List ℕ := key.map UInt8.toNat

theorem keyRank_injective : Function.Injective keyRank :=
  List.map_injective_iff.2 fun _ _ h => UInt8.toNat.inj h

/-- `tolower` in the C locale. -/
def toLower (ch : UInt8) : UInt8 :=
  if byte 'A' ≤ ch ∧ ch ≤ byte 'Z' then ch + 32 else ch

/-- `munge_char`.  A `char` above 126 is replaced whether it is signed or not; 92, 34 and 39 are the
backslash and the two quotes. -/
def mungeChar (ch : UInt8) : UInt8 :=
  if ch < 33 ∨ 126 < ch ∨ ch = byte '/' ∨ ch = byte ':' ∨ ch = 92 ∨ ch = 34 ∨ ch = 39 then byte '_'
  else toLower ch

/-- `munge`. -/
def munge (key : Bytes) : Bytes := key.map mungeChar

/-! ### Names and their parents -/

/-- A string resized to the position of its last dot, if it has one. -/
def beforeLastDot : Bytes → Option Bytes
  | [] => none
  | ch :: rest =>
    match beforeLastDot rest with
    | some p => some (ch :: p)
    | none => if ch = byte '.' then some [] else none

theorem beforeLastDot_eq_none_iff {key : Bytes} : beforeLastDot key = none ↔ byte '.' ∉ key := by
  induction key with
  | nil => simp [beforeLastDot]
  | cons ch rest ih =>
    rw [beforeLastDot, List.mem_cons, not_or, ← ih]
    cases beforeLastDot rest with
    | some p => simp
    | none =>
      split_ifs with hdot
      · simp [hdot]
      · simp [Ne.symm hdot]

theorem beforeLastDot_eq_some_iff {key p : Bytes} :
    beforeLastDot key = some p ↔ ∃ r, key = p ++ byte '.' :: r ∧ byte '.' ∉ r := by
  constructor
  · intro h
    induction key generalizing p with
    | nil => cases h
    | cons ch rest ih =>
      rw [beforeLastDot] at h
      cases hrest : beforeLastDot rest with
      | some p' =>
        obtain ⟨r, rfl, hr⟩ := ih hrest
        simp only [hrest, Option.some.injEq] at h
        exact ⟨r, by simp [← h], hr⟩
      | none =>
        simp only [hrest] at h
        split_ifs at h with hdot
        obtain rfl := Option.some.inj h
        exact ⟨rest, by rw [hdot]; rfl, beforeLastDot_eq_none_iff.1 hrest⟩
  · rintro ⟨r, rfl, hr⟩
    have hnone : beforeLastDot r = none := beforeLastDot_eq_none_iff.2 hr
    induction p with
    | nil => simp [beforeLastDot, hnone]
    | cons ch p ih => simp [beforeLastDot, ih]

theorem length_lt_of_beforeLastDot {key p : Bytes} (h : beforeLastDot key = some p) :
    p.length < key.length := by
  obtain ⟨r, rfl, -⟩ := beforeLastDot_eq_some_iff.1 h
  simp

/-- `q` is the name `key` or stands above it. -/
def Covers (q key : Bytes) : Prop := q = key ∨ q ++ [byte '.'] <+: key

theorem Covers.refl (key : Bytes) : Covers key key := .inl rfl

/-- What stands above a name is its parent or stands above that. -/
theorem covers_iff {q key : Bytes} :
    Covers q key ↔ q = key ∨ ∃ p, beforeLastDot key = some p ∧ Covers q p := by
  unfold Covers
  refine or_congr_right ?_
  constructor
  · rintro ⟨t, rfl⟩
    -- the last dot is the one after `q`, or stands behind it
    cases hp : beforeLastDot t with
    | none =>
      exact ⟨q, beforeLastDot_eq_some_iff.2 ⟨t, by simp, beforeLastDot_eq_none_iff.1 hp⟩, .inl rfl⟩
    | some p =>
      obtain ⟨r, rfl, hr⟩ := beforeLastDot_eq_some_iff.1 hp
      refine ⟨q ++ byte '.' :: p, beforeLastDot_eq_some_iff.2 ⟨r, by simp, hr⟩, .inr ⟨p, by simp⟩⟩
  · rintro ⟨p, hp, hq⟩
    obtain ⟨r, rfl, -⟩ := beforeLastDot_eq_some_iff.1 hp
    rcases hq with rfl | ⟨t, rfl⟩
    · exact ⟨r, by simp⟩
    · exact ⟨t ++ byte '.' :: r, by simp⟩

/-! ### Parts of a string -/

/-- `find_first_of` a character, from a position on. -/
def findFirstOf (str : Bytes) (item : UInt8) (pos : ℕ) : Option ℕ :=
  ((str.drop pos).findIdx? (· = item)).map (· + pos)

/-- The first `item` from a position on. -/
theorem findFirstOf_of_drop {str x y : Bytes} {item : UInt8} {pos : ℕ}
    (h : str.drop pos = x ++ item :: y) (hx : item ∉ x) :
    findFirstOf str item pos = some (x.length + pos) := by
  have hnone : x.findIdx? (· = item) = none := by
    rw [List.findIdx?_eq_none_iff]
    intro c hc
    simp only [decide_eq_false_iff_not]
    exact fun e => hx (e ▸ hc)
  simp [findFirstOf, h, List.findIdx?_append, List.findIdx?_cons, hnone]

theorem findFirstOf_of_not_mem {str : Bytes} {item : UInt8} {pos : ℕ} (h : item ∉ str.drop pos) :
    findFirstOf str item pos = none := by
  rw [findFirstOf, Option.map_eq_none_iff, List.findIdx?_eq_none_iff]
  intro c hc
  simp only [decide_eq_false_iff_not]
  exact fun e => h (e ▸ hc)

/-- `split`: how many parts there are, what stands before the first `ch` and what behind it. -/
def split (src : Bytes) (ch : UInt8) : ℕ × Bytes × Bytes :=
  if src.length = 0 then (0, [], [])
  else
    match findFirstOf src ch 0 with
    | none => (1, src, [])
    | some pos => (2, src.take pos, src.drop (pos + 1))

theorem split_append {x : Bytes} {ch : UInt8} (h : ch ∉ x) (y : Bytes) :
    split (x ++ ch :: y) ch = (2, x, y) := by
  have hlen : (x ++ ch :: y).length ≠ 0 := by simp
  rw [split, if_neg hlen, findFirstOf_of_drop rfl h]
  simp

theorem eq_append_of_split {src left right : Bytes} {ch : UInt8}
    (h : split src ch = (2, left, right)) : src = left ++ ch :: right ∧ ch ∉ left := by
  by_cases hch : ch ∈ src
  · obtain ⟨x, y, rfl, hx⟩ := List.eq_append_cons_of_mem hch
    rw [split_append hx] at h
    cases h
    exact ⟨rfl, hx⟩
  · rw [split, findFirstOf_of_not_mem hch] at h
    split_ifs at h <;> cases h

/-- `isspace` in the C locale. -/
def isSpace (ch : UInt8) : Bool := 9 ≤ ch && ch ≤ 13 || ch = 32

/-- `trim`. -/
def trim (str : Bytes) : Bytes := (str.rdropWhile isSpace).dropWhile isSpace

theorem mem_of_mem_trim {str : Bytes} {ch : UInt8} (h : ch ∈ trim str) : ch ∈ str :=
  (List.rdropWhile_prefix isSpace str).subset ((List.dropWhile_sublist isSpace).subset h)

theorem trim_trim (str : Bytes) : trim (trim str) = trim str := by
  unfold trim
  have hend : ∀ h, ¬isSpace ((str.rdropWhile isSpace).getLast h) = true :=
    fun h => List.rdropWhile_last_not isSpace str h
  generalize str.rdropWhile isSpace = x at hend ⊢
  -- there are no trailing blanks after the leading ones are dropped either
  have hright : (x.dropWhile isSpace).rdropWhile isSpace = x.dropWhile isSpace := by
    rw [List.rdropWhile_eq_self_iff]
    intro hne
    rw [(List.dropWhile_suffix isSpace).getLast hne]
    exact hend _
  rw [hright, List.dropWhile_idempotent]

/-! ### Quotes -/

/-- The characters that `sql_quote` replaces by a backslash and another one. -/
def sqlEscapes : List (UInt8 × UInt8) :=
  [(92, 92), (39, 39), (34, 34), (byte '%', byte '%'), (byte '_', byte '_'), (0, byte '0'),
    (8, byte 'b'), (9, byte 't'), (10, byte 'n'), (13, byte 'r'), (26, byte 'Z')]

/-- `sql_quote`. -/
def sqlQuote (sql : Bytes) : Bytes :=
  sql.flatMap fun ch => match sqlEscapes.lookup ch with
    | some c => [92, c]
    | none => [ch]

/-- The character for which one stands behind a backslash. -/
def sqlUnescape (ch : UInt8) : UInt8 :=
  if ch = byte 'r' then 13
  else if ch = byte 'n' then 10
  else if ch = byte 't' then 9
  else if ch = byte 'b' then 8
  else if ch = byte '0' then 0
  else if ch = byte 'Z' then 26
  else ch

/-- `tmp` as a C string: nothing, if the character is 0. -/
def tmpString (ch : UInt8) : Bytes := if ch = 0 then [] else [ch]

/-- The loop of `sql_unquote`. -/
def sqlUnquoteFrom : Bool → Bytes → Bytes
  | _, [] => []
  | true, ch :: rest => tmpString (sqlUnescape ch) ++ sqlUnquoteFrom false rest
  | false, ch :: rest =>
    if ch = 92 then sqlUnquoteFrom true rest else tmpString ch ++ sqlUnquoteFrom false rest

/-- `sql_unquote`. -/
def sqlUnquote (str : Bytes) : Bytes := sqlUnquoteFrom false str

theorem mem_sqlEscapes {ch c : UInt8} (h : sqlEscapes.lookup ch = some c) :
    (ch, c) ∈ sqlEscapes := by
  obtain ⟨l₁, l₂, hl, -⟩ := List.lookup_eq_some_iff.1 h
  rw [hl]
  simp

theorem sqlUnescape_of_lookup {ch c : UInt8} (h : sqlEscapes.lookup ch = some c) :
    sqlUnescape c = ch := by
  have hall : sqlEscapes.all (fun p => sqlUnescape p.2 = p.1) = true := by decide
  exact of_decide_eq_true (List.all_eq_true.1 hall (ch, c) (mem_sqlEscapes h))

/-- The table of `sql_quote` and its inverse. -/
def sqlEscaping : Escaping UInt8 where
  esc := 92
  table ch := sqlEscapes.lookup ch
  undo := sqlUnescape
  table_esc := by decide
  undo_table _ _ := sqlUnescape_of_lookup

theorem sqlQuote_eq_quote (sql : Bytes) : sqlQuote sql = sqlEscaping.quote sql := by
  unfold sqlQuote Escaping.quote
  refine List.flatMap_congr fun ch _ => ?_
  have htable : sqlEscaping.table ch = sqlEscapes.lookup ch := rfl
  cases hesc : sqlEscapes.lookup ch with
  | some c => exact (Escaping.unit_of_some (htable.trans hesc)).symm
  | none => exact (Escaping.unit_of_none (htable.trans hesc)).symm

theorem sqlUnquote_eq_unquoteFrom (str : Bytes) :
    sqlUnquote str = sqlEscaping.unquoteFrom tmpString false str := by
  have hfrom : ∀ quote, sqlUnquoteFrom quote str = sqlEscaping.unquoteFrom tmpString quote str := by
    induction str with
    | nil => exact fun quote => by cases quote <;> rfl
    | cons ch str ih =>
      intro quote
      cases quote with
      | true => rw [sqlUnquoteFrom, Escaping.unquoteFrom, ih]; rfl
      | false => rw [sqlUnquoteFrom, Escaping.unquoteFrom, ih, ih]; rfl
  exact hfrom false

/-- The characters of a string without 0 are written. -/
theorem tmpString_of_mem {v : Bytes} (h : 0 ∉ v) : ∀ ch ∈ v, tmpString ch = [ch] :=
  fun ch hch => if_neg fun h0 : ch = 0 => h (h0 ▸ hch)

/-- Quoting is undone, but for the character 0. -/
theorem sqlUnquote_sqlQuote {v : Bytes} (h : 0 ∉ v) : sqlUnquote (sqlQuote v) = v := by
  rw [sqlUnquote_eq_unquoteFrom, sqlQuote_eq_quote]
  exact sqlEscaping.unquote_quote (tmpString_of_mem h)

/-- A quoted string is on one line. -/
theorem not_mem_sqlQuote {ch : UInt8} (hch : ch = 10 ∨ ch = 13) (v : Bytes) : ch ∉ sqlQuote v := by
  have hall : sqlEscapes.all (fun p => p.2 ≠ 10 ∧ p.2 ≠ 13) = true := by decide
  have htable : ∀ a c, sqlEscapes.lookup a = some c → c ≠ 10 ∧ c ≠ 13 := fun a c h =>
    of_decide_eq_true (List.all_eq_true.1 hall (a, c) (mem_sqlEscapes h))
  rw [sqlQuote_eq_quote]
  rcases hch with rfl | rfl
  · exact sqlEscaping.not_mem_quote (by decide) (by decide) (fun a c h => (htable a c h).1) v
  · exact sqlEscaping.not_mem_quote (by decide) (by decide) (fun a c h => (htable a c h).2) v

/-! ### Patterns -/

/-- `pat_stat`: a position in the string and one in the pattern. -/
structure PatStat where
  pstr : ℕ
  ppat : ℕ
  deriving DecidableEq

/-- `istat::next`: the character after a position, 0 at the end. -/
def nextChar (str : Bytes) (pos : ℕ) : UInt8 :=
  if pos + 1 = str.length then 0 else str.getD (pos + 1) 0

/-- What one round of the loop of `str_pat_match` does: return, go back to the last pair of the
stack, or go on with another pair, with or without one put on the stack. -/
inductive PatStep
  | done (result : Bool)
  | pop
  | go (next : PatStat)
  | push (saved next : PatStat)

/-- The positions after a character was found at `pos`, and those to go back to. -/
def PatStep.found (s : PatStat) (pos : ℕ) : PatStep :=
  .push ⟨pos + 1, s.ppat⟩ ⟨pos + 1, s.ppat + 2⟩

/-- The round at a `?`. -/
def patQuestion (str pat : Bytes) (s : PatStat) : PatStep :=
  let item := nextChar pat s.ppat
  if item = 0 then
    if findFirstOf str (byte '.') s.pstr = none then .done true else .pop
  else if item = byte '?' ∨ item = byte '*' then .go { s with ppat := s.ppat + 1 }
  else
    match findFirstOf str item s.pstr, findFirstOf str (byte '.') s.pstr with
    | none, _ => .pop
    | some pos, some dot =>
      if dot < pos then .pop
      else if item ≠ byte '.' then .found s pos
      else .go ⟨pos + 1, s.ppat + 2⟩
    | some pos, none =>
      if item ≠ byte '.' then .found s pos else .go ⟨pos + 1, s.ppat + 2⟩

/-- The round at a `*`, which looks behind the `?`s that follow it. -/
def patStar (str pat : Bytes) (s : PatStat) : PatStep :=
  let skipped := ((pat.drop (s.ppat + 1)).takeWhile (· = byte '?')).length
  let item := nextChar pat (s.ppat + skipped)
  if item = 0 then .done true
  else if item = byte '*' then .go { s with ppat := s.ppat + skipped + 1 }
  else
    match findFirstOf str item s.pstr with
    | none => .pop
    | some pos => .found s pos

/-- A round of the loop. -/
def patStep (str pat : Bytes) (s : PatStat) : PatStep :=
  if s.ppat = pat.length then
    if s.pstr = str.length then .done true else .pop
  else
    let ch := pat.getD s.ppat 0
    if ch = byte '?' then patQuestion str pat s
    else if ch = byte '*' then patStar str pat s
    else if s.pstr = str.length then .pop
    else if ch ≠ str.getD s.pstr 0 then .pop
    else .go ⟨s.pstr + 1, s.ppat + 1⟩

/-- The loop, for a number of rounds. -/
def patLoop (str pat : Bytes) : ℕ → PatStat → List PatStat → Option Bool
  | 0, _, _ => none
  | n + 1, s, backup =>
    match patStep str pat s with
    | .done result => some result
    | .pop =>
      match backup with
      | [] => some (s.pstr = str.length && s.ppat = pat.length)
      | s' :: rest => patLoop str pat n s' rest
    | .go s' => patLoop str pat n s' backup
    | .push saved s' => patLoop str pat n s' (saved :: backup)

/-- `str_pat_match`.  A pair leads to at most two others that are further on, which bounds the
rounds. -/
def strPatMatch (str pat : Bytes) : Option Bool :=
  patLoop str pat (3 ^ (str.length + pat.length + 1)) ⟨0, 0⟩ []

theorem strPatMatch_star (str : Bytes) : strPatMatch str [byte '*'] = some true := by
  unfold strPatMatch
  obtain ⟨n, hn⟩ : ∃ n, 3 ^ (str.length + [byte '*'].length + 1) = n + 1 :=
    Nat.exists_eq_succ_of_ne_zero (by positivity)
  rw [hn, patLoop]
  have hstep : patStep str [byte '*'] ⟨0, 0⟩ = .done true := by
    have hne : byte '*' ≠ byte '?' := by decide
    simp [patStep, patStar, nextChar, hne]
  rw [hstep]

end Istatd
