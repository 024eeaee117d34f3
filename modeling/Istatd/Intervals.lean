import Istatd.Lib.Decimal
import Istatd.StrFunc

/-!
# Intervals (`interval_to_seconds`)

An interval is written as numbers with units, such as `1h30m`.  `split` cuts a text into numbers and
what stands between them; it requires that the last unit has one character, and leaves all other
checks of the units to the table that they are looked up in.

`boost::lexical_cast` is a parameter.

* `splitIval`, `intervalToSeconds`: the functions;
* `splitIval_sound`, `splitIval_complete`: what is cut;
* `intervalToSeconds_accepts`: which texts are intervals, and how long these are.
-/

namespace Istatd

open Decimal

/-- The exceptions. -/
inductive IntervalError
  | runtimeError (what : Bytes)
  | badLexicalCast
  deriving DecidableEq

/-- An `interval_t`: how many of the unit before it a unit has. -/
structure IntervalUnit where
  size : ℤ
  str : Bytes

/-- `intervals`. -/
def intervals : List IntervalUnit :=
  [⟨1, bytes "s"⟩, ⟨60, bytes "m"⟩, ⟨60, bytes "h"⟩, ⟨24, bytes "d"⟩, ⟨365, bytes "y"⟩]

/-- The value of a `time_t`. -/
def wrapTime (n : ℤ) : ℤ := n.bmod (2 ^ 64)

/-! ### `split` -/

/-- The variables of `split`. -/
structure IvalSplit where
  ptr : ℕ
  base : ℕ
  ip : ℤ × Bytes
  newDig : Bool
  ivals : List (ℤ × Bytes)

/-- `std::string val(base, ptr)`. -/
def IvalSplit.val (ival : Bytes) (s : IvalSplit) : Bytes := (ival.drop s.base).take (s.ptr - s.base)

/-- The error for a text that is no interval. -/
def invalidFormat (ival : Bytes) : IntervalError :=
  .runtimeError (bytes "invalid interval format: " ++ ival)

section Functions

variable (lexicalCast : Bytes → Option ℤ) (ival : Bytes)

/-- The body of the loop over the characters. -/
def splitStep (s : IvalSplit) (ch : UInt8) : Except IntervalError IvalSplit :=
  if isDigit ch then
    if s.newDig then .ok { s with ptr := s.ptr + 1 }
    else
      let ip := (s.ip.1, s.val ival)
      .ok ⟨s.ptr + 1, s.ptr, ip, true, s.ivals ++ [ip]⟩
  else if s.newDig then
    -- nothing in front of the unit: at the start of the text
    if s.val ival = [] then .error (invalidFormat ival)
    else
      match lexicalCast (s.val ival) with
      | none => .error .badLexicalCast
      | some n => .ok ⟨s.ptr + 1, s.ptr, (n, s.ip.2), false, s.ivals⟩
  else .ok { s with ptr := s.ptr + 1 }

/-- What stands behind the loop. -/
def splitEnd (s : IvalSplit) : Except IntervalError (List (ℤ × Bytes)) :=
  if s.ptr ≠ s.base + 1 ∨ s.newDig then .error (invalidFormat ival)
  else .ok (s.ivals ++ [(s.ip.1, s.val ival)])

/-- The loop over some characters, and what stands behind it. -/
def splitFrom (rest : Bytes) (s : IvalSplit) : Except IntervalError (List (ℤ × Bytes)) := do
  splitEnd ival (← rest.foldlM (splitStep lexicalCast ival) s)

/-- The static `split`. -/
def splitIval : Except IntervalError (List (ℤ × Bytes)) :=
  splitFrom lexicalCast ival ival ⟨0, 0, (0, []), true, []⟩

end Functions

/-! ### `interval_to_seconds` -/

/-- The loop back over the table. -/
def backMul : ℕ → ℤ → ℤ
  | 0, mul => mul
  | i + 1, mul => backMul i (mul * (intervals.getD i ⟨1, []⟩).size)

/-- `mul` for a unit that is found in the table. -/
def unitMul (str : Bytes) : Option ℤ :=
  (intervals.findIdx? fun it => it.str = str).map fun i =>
    backMul i (intervals.getD i ⟨1, []⟩).size

/-- The body of the loop over the parts. -/
def sumStep (ret : ℤ) (p : ℤ × Bytes) : Except IntervalError ℤ :=
  match unitMul p.2 with
  | none => .error (.runtimeError (bytes "Unknown time unit: " ++ p.2))
  | some mul => .ok (wrapTime (ret + wrapTime (p.1 * mul)))

/-- `interval_to_seconds`. -/
def intervalToSeconds (lexicalCast : Bytes → Option ℤ) (ival : Bytes) : Except IntervalError ℤ := do
  (← splitIval lexicalCast ival).foldlM sumStep 0

/-- What `boost::lexical_cast<time_t>` does with digits. -/
def ReadsDigits (lexicalCast : Bytes → Option ℤ) : Prop :=
  ∀ digits, digits ≠ [] → (∀ c ∈ digits, isDigit c = true) →
    lexicalCast digits = if value digits < 2 ^ 63 then some (value digits : ℤ) else none

/-! ### The grammar -/

/-- The units of time. -/
inductive TimeUnit
  | second
  | minute
  | hour
  | day
  | year
  deriving DecidableEq

namespace TimeUnit

/-- The character of a unit. -/
def char : TimeUnit → UInt8
  | second => byte 's'
  | minute => byte 'm'
  | hour => byte 'h'
  | day => byte 'd'
  | year => byte 'y'

/-- The length of a unit. -/
def seconds : TimeUnit → ℕ
  | second => 1
  | minute => 60
  | hour => 3600
  | day => 86400
  | year => 31536000

theorem not_isDigit_char (u : TimeUnit) : isDigit u.char = false := by
  cases u <;> rfl

theorem unitMul_char (u : TimeUnit) : unitMul [u.char] = some (u.seconds : ℤ) := by
  cases u <;> decide

/-- The table has no other units. -/
theorem exists_of_unitMul {str : Bytes} {mul : ℤ} (h : unitMul str = some mul) :
    ∃ u : TimeUnit, str = [u.char] := by
  unfold unitMul at h
  obtain ⟨i, hi, -⟩ := Option.map_eq_some_iff.1 h
  obtain ⟨hlt, hstr, -⟩ := List.findIdx?_eq_some_iff_getElem.1 hi
  have hmem : (intervals[i]).str ∈ intervals.map IntervalUnit.str :=
    List.mem_map_of_mem (List.getElem_mem hlt)
  rw [decide_eq_true_iff.1 hstr] at hmem
  simp only [intervals, List.map_cons, List.map_nil, List.mem_cons, List.not_mem_nil, or_false]
    at hmem
  rcases hmem with rfl | rfl | rfl | rfl | rfl
  · exact ⟨second, rfl⟩
  · exact ⟨minute, rfl⟩
  · exact ⟨hour, rfl⟩
  · exact ⟨day, rfl⟩
  · exact ⟨year, rfl⟩

end TimeUnit

/-- A number and its unit. -/
abbrev Term := Bytes × TimeUnit

namespace Term

/-- One or more digits, for a number that fits in a `time_t`. -/
def Valid (t : Term) : Prop :=
  t.1 ≠ [] ∧ (∀ c ∈ t.1, isDigit c = true) ∧ value t.1 < 2 ^ 63

/-- The text. -/
def text (t : Term) : Bytes := t.1 ++ [t.2.char]

/-- The seconds. -/
def seconds (t : Term) : ℕ := value t.1 * t.2.seconds

end Term

/-- An interval: one or more numbers with their units. -/
structure IsInterval (ival : Bytes) (terms : List Term) : Prop where
  ne_nil : terms ≠ []
  valid : ∀ t ∈ terms, t.Valid
  text : ival = terms.flatMap Term.text

/-- The length of an interval. -/
def totalSeconds (terms : List Term) : ℕ := (terms.map Term.seconds).sum

/-! ### The steps of `split` -/

section Split

variable {lexicalCast : Bytes → Option ℤ} {ival : Bytes} (pre w rest : Bytes) (n : ℤ) (str : Bytes)
  (ivals : List (ℤ × Bytes))

/-- In a number, of which `w` has been read. -/
def digitsAt (ip : ℤ × Bytes) : IvalSplit := ⟨(pre ++ w).length, pre.length, ip, true, ivals⟩

/-- In what follows the number `n`, of which `w` has been read. -/
def unitAt : IvalSplit := ⟨(pre ++ w).length, pre.length, (n, str), false, ivals⟩

@[simp] theorem newDig_digitsAt (ip : ℤ × Bytes) : (digitsAt pre w ivals ip).newDig = true := rfl

@[simp] theorem newDig_unitAt : (unitAt pre w n str ivals).newDig = false := rfl

theorem val_digitsAt (ip : ℤ × Bytes) : (digitsAt pre w ivals ip).val (pre ++ w ++ rest) = w := by
  unfold IvalSplit.val digitsAt
  rw [List.append_assoc, List.drop_left, List.length_append, Nat.add_sub_cancel_left,
    List.take_left]

theorem val_unitAt : (unitAt pre w n str ivals).val (pre ++ w ++ rest) = w :=
  val_digitsAt pre w rest ivals (n, str)

theorem splitFrom_cons (ch : UInt8) (s : IvalSplit) :
    splitFrom lexicalCast ival (ch :: rest) s =
      splitStep lexicalCast ival s ch >>= splitFrom lexicalCast ival rest := by
  unfold splitFrom
  rw [List.foldlM_cons, bind_assoc]

variable {ch : UInt8} {rest}

theorem splitFrom_digit (hch : isDigit ch = true) (ip : ℤ × Bytes) :
    splitFrom lexicalCast ival (ch :: rest) (digitsAt pre w ivals ip) =
      splitFrom lexicalCast ival rest (digitsAt pre (w ++ [ch]) ivals ip) := by
  rw [splitFrom_cons, splitStep, if_pos hch, if_pos (newDig_digitsAt pre w ivals ip)]
  simp [digitsAt, Nat.add_assoc, bind, Except.bind]

/-- The end of a number. -/
theorem splitFrom_unit (hch : isDigit ch = false) (hival : ival = pre ++ w ++ ch :: rest)
    (ip : ℤ × Bytes) :
    splitFrom lexicalCast ival (ch :: rest) (digitsAt pre w ivals ip) =
      if w = [] then .error (invalidFormat ival)
      else
        match lexicalCast w with
        | none => .error .badLexicalCast
        | some n => splitFrom lexicalCast ival rest (unitAt (pre ++ w) [ch] n ip.2 ivals) := by
  have hval : (digitsAt pre w ivals ip).val ival = w :=
    hival ▸ val_digitsAt pre w (ch :: rest) ivals ip
  have hnot : ¬ isDigit ch = true := by simp [hch]
  rw [splitFrom_cons, splitStep, if_neg hnot, if_pos (newDig_digitsAt pre w ivals ip), hval]
  by_cases hw : w = []
  · rw [if_pos hw, if_pos hw]
    rfl
  · rw [if_neg hw, if_neg hw]
    cases lexicalCast w with
    | none => rfl
    | some n => simp [digitsAt, unitAt, Nat.add_assoc, bind, Except.bind]

/-- A number behind a unit. -/
theorem splitFrom_next (hch : isDigit ch = true) (hival : ival = pre ++ w ++ ch :: rest) :
    splitFrom lexicalCast ival (ch :: rest) (unitAt pre w n str ivals) =
      splitFrom lexicalCast ival rest (digitsAt (pre ++ w) [ch] (ivals ++ [(n, w)]) (n, w)) := by
  have hval : (unitAt pre w n str ivals).val ival = w :=
    hival ▸ val_unitAt pre w (ch :: rest) n str ivals
  rw [splitFrom_cons, splitStep, if_pos hch, if_neg (by simp), hval]
  simp [unitAt, digitsAt, Nat.add_assoc, bind, Except.bind]

theorem splitFrom_longer (hch : isDigit ch = false) :
    splitFrom lexicalCast ival (ch :: rest) (unitAt pre w n str ivals) =
      splitFrom lexicalCast ival rest (unitAt pre (w ++ [ch]) n str ivals) := by
  have hnot : ¬ isDigit ch = true := by simp [hch]
  rw [splitFrom_cons, splitStep, if_neg hnot, if_neg (by simp)]
  simp [unitAt, Nat.add_assoc, bind, Except.bind]

theorem splitFrom_nil_digits (ip : ℤ × Bytes) :
    splitFrom lexicalCast ival [] (digitsAt pre w ivals ip) = .error (invalidFormat ival) := by
  change splitEnd ival (digitsAt pre w ivals ip) = _
  rw [splitEnd, if_pos (Or.inr (newDig_digitsAt pre w ivals ip))]

theorem splitFrom_nil_unit (hival : ival = pre ++ w) :
    splitFrom lexicalCast ival [] (unitAt pre w n str ivals) =
      if w.length = 1 then .ok (ivals ++ [(n, w)]) else .error (invalidFormat ival) := by
  have hval : (unitAt pre w n str ivals).val ival = w := by
    rw [hival, ← List.append_nil (pre ++ w)]
    exact val_unitAt pre w [] n str ivals
  change splitEnd ival (unitAt pre w n str ivals) = _
  rw [splitEnd, hval]
  by_cases hw : w.length = 1
  · rw [if_pos hw, if_neg (by simp [unitAt, hw])]
    rfl
  · rw [if_neg hw, if_pos (Or.inl (by simp [unitAt, hw]))]

end Split

/-! ### What `split` accepts -/

/-- Digits, their number, and what stands behind them. -/
abbrev Piece := Bytes × (ℤ × Bytes)

/-- The text of a piece. -/
def Piece.text (p : Piece) : Bytes := p.1 ++ p.2.2

/-- The digits are read as the number. -/
def Piece.Read (lexicalCast : Bytes → Option ℤ) (p : Piece) : Prop :=
  p.1 ≠ [] ∧ (∀ c ∈ p.1, isDigit c = true) ∧ lexicalCast p.1 = some p.2.1

section Accept

variable {lexicalCast : Bytes → Option ℤ} {ival : Bytes}

theorem splitFrom_sound (rest : Bytes) :
    (∀ pre w ip ivals out, ival = pre ++ w ++ rest → (∀ c ∈ w, isDigit c = true) →
      splitFrom lexicalCast ival rest (digitsAt pre w ivals ip) = .ok out →
      ∃ ps : List Piece, ps ≠ [] ∧ (∀ p ∈ ps, p.Read lexicalCast) ∧
        w ++ rest = ps.flatMap Piece.text ∧ out = ivals ++ ps.map Prod.snd) ∧
    (∀ pre w n str ivals out, ival = pre ++ w ++ rest →
      splitFrom lexicalCast ival rest (unitAt pre w n str ivals) = .ok out →
      ∃ (unit : Bytes) (ps : List Piece), (∀ p ∈ ps, p.Read lexicalCast) ∧
        rest = unit ++ ps.flatMap Piece.text ∧ out = ivals ++ (n, w ++ unit) :: ps.map Prod.snd) := by
  induction rest with
  | nil =>
    constructor
    · intro pre w ip ivals out _ _ hout
      rw [splitFrom_nil_digits] at hout
      cases hout
    · intro pre w n str ivals out hival hout
      rw [splitFrom_nil_unit pre w n str ivals (by simpa using hival)] at hout
      split_ifs at hout
      cases hout
      exact ⟨[], [], nofun, rfl, by simp⟩
  | cons ch rest ih =>
    obtain ⟨ihdigits, ihunit⟩ := ih
    constructor
    · intro pre w ip ivals out hival hw hout
      cases hch : isDigit ch with
      | true =>
        rw [splitFrom_digit pre w ivals hch] at hout
        have hw' : ∀ c ∈ w ++ [ch], isDigit c = true := by
          intro c hc
          rcases List.mem_append.1 hc with hc | hc
          · exact hw c hc
          · rw [List.mem_singleton.1 hc, hch]
        obtain ⟨ps, hps⟩ := ihdigits pre (w ++ [ch]) ip ivals out (by simp [hival]) hw' hout
        rw [List.append_assoc, List.singleton_append] at hps
        exact ⟨ps, hps⟩
      | false =>
        rw [splitFrom_unit pre w ivals hch hival] at hout
        split_ifs at hout with hnil
        cases hcast : lexicalCast w with
        | none =>
          rw [hcast] at hout
          cases hout
        | some n =>
          rw [hcast] at hout
          obtain ⟨unit, ps, hread, hrest, rfl⟩ :=
            ihunit (pre ++ w) [ch] n ip.2 ivals out (by simp [hival]) hout
          refine ⟨(w, (n, ch :: unit)) :: ps, List.cons_ne_nil _ _,
            List.forall_mem_cons.2 ⟨⟨hnil, hw, hcast⟩, hread⟩, ?_, rfl⟩
          rw [hrest, List.flatMap_cons, Piece.text, List.append_assoc]
          rfl
    · intro pre w n str ivals out hival hout
      cases hch : isDigit ch with
      | true =>
        rw [splitFrom_next pre w n str ivals hch hival] at hout
        obtain ⟨ps, -, hread, hrest, rfl⟩ := ihdigits (pre ++ w) [ch] (n, w) (ivals ++ [(n, w)]) out
          (by simp [hival]) (by simpa using hch) hout
        exact ⟨[], ps, hread, hrest, by simp⟩
      | false =>
        rw [splitFrom_longer pre w n str ivals hch] at hout
        obtain ⟨unit, ps, hread, hrest, rfl⟩ :=
          ihunit pre (w ++ [ch]) n str ivals out (by simp [hival]) hout
        exact ⟨ch :: unit, ps, hread, by rw [hrest]; rfl, by simp⟩

/-- The texts that are cut are cut into pieces whose digits are read. -/
theorem splitIval_sound {out : List (ℤ × Bytes)} (h : splitIval lexicalCast ival = .ok out) :
    ∃ ps : List Piece, ps ≠ [] ∧ (∀ p ∈ ps, p.Read lexicalCast) ∧ ival = ps.flatMap Piece.text ∧
      out = ps.map Prod.snd :=
  (splitFrom_sound ival).1 [] [] (0, []) [] out rfl nofun h

/-- The part of the result for a term. -/
def Term.part (t : Term) : ℤ × Bytes := ((value t.1 : ℤ), [t.2.char])

/-- The digits of a number. -/
theorem splitFrom_digits {ds : Bytes} (hds : ∀ c ∈ ds, isDigit c = true) (pre w rest : Bytes)
    (ivals : List (ℤ × Bytes)) (ip : ℤ × Bytes) :
    splitFrom lexicalCast ival (ds ++ rest) (digitsAt pre w ivals ip) =
      splitFrom lexicalCast ival rest (digitsAt pre (w ++ ds) ivals ip) := by
  induction ds generalizing w with
  | nil => rw [List.append_nil, List.nil_append]
  | cons d ds ih =>
    obtain ⟨hd, hds⟩ := List.forall_mem_cons.1 hds
    rw [List.cons_append, splitFrom_digit pre w ivals hd, ih hds, List.append_assoc]
    rfl

variable (hcast : ReadsDigits lexicalCast)

include hcast

/-- A number and its unit, of which the digits `w` have been read. -/
theorem splitFrom_term {t : Term} (ht : t.Valid) {w ds : Bytes} (hdigits : t.1 = w ++ ds)
    (pre rest : Bytes) (ivals : List (ℤ × Bytes)) (ip : ℤ × Bytes)
    (hival : ival = pre ++ t.text ++ rest) :
    splitFrom lexicalCast ival (ds ++ t.2.char :: rest) (digitsAt pre w ivals ip) =
      splitFrom lexicalCast ival rest (unitAt (pre ++ t.1) [t.2.char] (value t.1) ip.2 ivals) := by
  obtain ⟨hne, hall, hlt⟩ := ht
  have hds : ∀ c ∈ ds, isDigit c = true := fun c hc => hall c (hdigits ▸ List.mem_append_right _ hc)
  rw [splitFrom_digits hds, ← hdigits, splitFrom_unit pre t.1 ivals t.2.not_isDigit_char
    (by rw [hival, Term.text]; simp), if_neg hne, hcast t.1 hne hall, if_pos hlt]

/-- The terms behind a unit. -/
theorem splitFrom_terms {terms : List Term} (hterms : ∀ t ∈ terms, t.Valid) (pre : Bytes) (u : UInt8)
    (n : ℤ) (str : Bytes) (ivals : List (ℤ × Bytes))
    (hival : ival = pre ++ [u] ++ terms.flatMap Term.text) :
    splitFrom lexicalCast ival (terms.flatMap Term.text) (unitAt pre [u] n str ivals) =
      .ok (ivals ++ (n, [u]) :: terms.map Term.part) := by
  induction terms generalizing pre u n str ivals with
  | nil =>
    rw [List.flatMap_nil, splitFrom_nil_unit pre [u] n str ivals (by simpa using hival),
      if_pos List.length_singleton]
    rfl
  | cons t terms ih =>
    obtain ⟨ht, hterms⟩ := List.forall_mem_cons.1 hterms
    obtain ⟨d, ds, hd⟩ := List.exists_cons_of_ne_nil ht.1
    have hdigit : isDigit d = true := ht.2.1 d (hd ▸ List.mem_cons_self)
    have htext : (t :: terms).flatMap Term.text =
        d :: (ds ++ t.2.char :: terms.flatMap Term.text) := by
      rw [List.flatMap_cons, Term.text, hd]
      simp
    rw [htext, splitFrom_next pre [u] n str ivals hdigit (by rw [hival, htext]),
      splitFrom_term hcast ht hd (pre ++ [u]) _ _ _ (by rw [hival, List.flatMap_cons]; simp),
      ih hterms _ _ _ _ _ (by rw [hival, List.flatMap_cons, Term.text]; simp)]
    simp [Term.part]

/-- Intervals are cut into their terms. -/
theorem splitIval_complete {terms : List Term} (h : IsInterval ival terms) :
    splitIval lexicalCast ival = .ok (terms.map Term.part) := by
  obtain ⟨t, terms, rfl⟩ := List.exists_cons_of_ne_nil h.ne_nil
  obtain ⟨ht, hterms⟩ := List.forall_mem_cons.1 h.valid
  have hival : ival = t.1 ++ t.2.char :: terms.flatMap Term.text := by
    rw [h.text, List.flatMap_cons, Term.text]
    simp
  have hstart : splitIval lexicalCast ival =
      splitFrom lexicalCast ival (t.1 ++ t.2.char :: terms.flatMap Term.text)
        (digitsAt [] [] [] (0, [])) := by
    rw [← hival]
    rfl
  rw [hstart, splitFrom_term hcast ht (List.nil_append _).symm [] _ _ _
      (by rw [hival, Term.text]; simp),
    splitFrom_terms hcast hterms _ _ _ _ _ (by rw [hival]; simp)]
  rfl

end Accept

/-! ### The sum -/

theorem wrapTime_of_bounds {n : ℤ} (h0 : 0 ≤ n) (h : n < 2 ^ 63) : wrapTime n = n :=
  Int.bmod_eq_of_le (by omega) (by omega)

theorem sumStep_part (r : ℤ) (t : Term) :
    sumStep (wrapTime r) t.part = .ok (wrapTime (r + t.seconds)) := by
  unfold sumStep Term.part
  rw [t.2.unitMul_char]
  simp only [wrapTime, Int.add_bmod_bmod, Int.bmod_add_bmod, Term.seconds, Nat.cast_mul]

theorem foldlM_sumStep (terms : List Term) (r : ℤ) :
    (terms.map Term.part).foldlM sumStep (wrapTime r) = .ok (wrapTime (r + totalSeconds terms)) := by
  induction terms generalizing r with
  | nil => simp [totalSeconds, pure, Except.pure]
  | cons t terms ih =>
    rw [List.map_cons, List.foldlM_cons, sumStep_part]
    change (terms.map Term.part).foldlM sumStep (wrapTime (r + t.seconds)) = _
    rw [ih, add_assoc, totalSeconds, totalSeconds, List.map_cons, List.sum_cons, Nat.cast_add]

/-- Each unit that is summed up stands in the table. -/
theorem exists_unit_of_foldlM {parts : List (ℤ × Bytes)} {r v : ℤ}
    (h : parts.foldlM sumStep r = .ok v) : ∀ p ∈ parts, ∃ u : TimeUnit, p.2 = [u.char] := by
  induction parts generalizing r with
  | nil => exact nofun
  | cons p parts ih =>
    rw [List.foldlM_cons] at h
    unfold sumStep at h
    cases hmul : unitMul p.2 with
    | none =>
      rw [hmul] at h
      cases h
    | some mul =>
      rw [hmul] at h
      exact List.forall_mem_cons.2 ⟨TimeUnit.exists_of_unitMul hmul, ih h⟩

/-- Pieces with the units of the table are terms. -/
theorem exists_terms {lexicalCast : Bytes → Option ℤ} (hcast : ReadsDigits lexicalCast)
    {ps : List Piece} (hread : ∀ p ∈ ps, p.Read lexicalCast)
    (hunit : ∀ p ∈ ps, ∃ u : TimeUnit, p.2.2 = [u.char]) :
    ∃ terms : List Term, (∀ t ∈ terms, t.Valid) ∧
      ps.flatMap Piece.text = terms.flatMap Term.text ∧ terms.length = ps.length := by
  induction ps with
  | nil => exact ⟨[], nofun, rfl, rfl⟩
  | cons p ps ih =>
    obtain ⟨⟨hne, hall, hnum⟩, hread⟩ := List.forall_mem_cons.1 hread
    obtain ⟨⟨u, hu⟩, hunit⟩ := List.forall_mem_cons.1 hunit
    obtain ⟨terms, hvalid, htext, hlen⟩ := ih hread hunit
    have hfits : value p.1 < 2 ^ 63 := by
      rw [hcast p.1 hne hall] at hnum
      split_ifs at hnum with hlt
      exact hlt
    have hfirst : Term.Valid (p.1, u) := ⟨hne, hall, hfits⟩
    refine ⟨(p.1, u) :: terms, List.forall_mem_cons.2 ⟨hfirst, hvalid⟩, ?_, by simp [hlen]⟩
    rw [List.flatMap_cons, List.flatMap_cons, htext, Piece.text, hu]
    rfl

section Seconds

variable {lexicalCast : Bytes → Option ℤ} (hcast : ReadsDigits lexicalCast) {ival : Bytes}

include hcast

/-- The value of an interval. -/
theorem intervalToSeconds_of_isInterval {terms : List Term} (h : IsInterval ival terms) :
    intervalToSeconds lexicalCast ival = .ok (wrapTime (totalSeconds terms)) := by
  unfold intervalToSeconds
  rw [splitIval_complete hcast h]
  change (terms.map Term.part).foldlM sumStep 0 = _
  have hsum := foldlM_sumStep terms 0
  rwa [zero_add, show wrapTime 0 = 0 from rfl] at hsum

theorem isInterval_of_ok {v : ℤ} (h : intervalToSeconds lexicalCast ival = .ok v) :
    ∃ terms, IsInterval ival terms := by
  unfold intervalToSeconds at h
  cases hsplit : splitIval lexicalCast ival with
  | error e =>
    rw [hsplit] at h
    cases h
  | ok out =>
    rw [hsplit] at h
    obtain ⟨ps, hne, hread, hival, rfl⟩ := splitIval_sound hsplit
    have hunit : ∀ p ∈ ps, ∃ u : TimeUnit, p.2.2 = [u.char] := fun p hp =>
      exists_unit_of_foldlM h _ (List.mem_map_of_mem hp)
    obtain ⟨terms, hvalid, htext, hlen⟩ := exists_terms hcast hread hunit
    refine ⟨terms, fun hnil => hne ?_, hvalid, hival.trans htext⟩
    rwa [hnil, List.length_nil, eq_comm, List.length_eq_zero_iff] at hlen

/-- **The texts that are accepted** are the intervals; all others are errors. -/
theorem intervalToSeconds_accepts (ival : Bytes) :
    ((∃ v, intervalToSeconds lexicalCast ival = .ok v) ↔ ∃ terms, IsInterval ival terms) ∧
      (∀ terms, IsInterval ival terms → totalSeconds terms < 2 ^ 63 →
        intervalToSeconds lexicalCast ival = .ok (totalSeconds terms)) ∧
      ((¬ ∃ terms, IsInterval ival terms) →
        ∃ e, intervalToSeconds lexicalCast ival = .error e) := by
  have hiff : (∃ v, intervalToSeconds lexicalCast ival = .ok v) ↔ ∃ terms, IsInterval ival terms :=
    ⟨fun ⟨_, h⟩ => isInterval_of_ok hcast h,
      fun ⟨_, h⟩ => ⟨_, intervalToSeconds_of_isInterval hcast h⟩⟩
  refine ⟨hiff, fun terms h hlt => ?_, fun hnone => ?_⟩
  · rw [intervalToSeconds_of_isInterval hcast h,
      wrapTime_of_bounds (Int.natCast_nonneg _) (by exact_mod_cast hlt)]
  · cases hvalue : intervalToSeconds lexicalCast ival with
    | error e => exact ⟨e, rfl⟩
    | ok v => exact absurd (hiff.1 ⟨v, hvalue⟩) hnone

end Seconds

/-- A conversion that reads digits. -/
def sampleTime (digits : Bytes) : Option ℤ :=
  if digits ≠ [] ∧ digits.all isDigit = true ∧ value digits < 2 ^ 63 then some (value digits)
  else none

theorem readsDigits_sampleTime : ReadsDigits sampleTime := by
  intro digits hne hall
  unfold sampleTime
  by_cases hlt : value digits < 2 ^ 63
  · rw [if_pos ⟨hne, List.all_eq_true.2 hall, hlt⟩, if_pos hlt]
  · rw [if_neg fun h => hlt h.2.2, if_neg hlt]

/-- An hour and a half. -/
theorem intervalToSeconds_accepts_sample :
    ReadsDigits sampleTime ∧
      IsInterval (bytes "1h30m") [(bytes "1", .hour), (bytes "30", .minute)] ∧
      intervalToSeconds sampleTime (bytes "1h30m") = .ok 5400 := by
  have hinterval : IsInterval (bytes "1h30m") [(bytes "1", .hour), (bytes "30", .minute)] := by
    refine ⟨by simp, ?_, by decide⟩
    simp only [List.forall_mem_cons, Term.Valid]
    decide +kernel
  have htotal : totalSeconds [(bytes "1", .hour), (bytes "30", .minute)] = 5400 := by decide
  have hvalue := (intervalToSeconds_accepts readsDigits_sampleTime (bytes "1h30m")).2.1 _ hinterval
    (by rw [htotal]; decide)
  rw [htotal] at hvalue
  exact ⟨readsDigits_sampleTime, hinterval, hvalue⟩

end Istatd
