import Mathlib.Tactic

/-!
# Percent-encoding

A byte stands for itself, or as a percent sign and two hexadecimal digits; a space may be written as
a plus sign.  What a decoder makes of two characters behind a percent sign is a parameter, so that
it may accept any; an escape that is cut off at the end of the text is read as a percent sign.

* `decode`: a text, decoded;
* `Encoded`: what a text may be encoded as;
* `decode_of_encoded`: decoding inverts each encoding.
-/

namespace Percent

/-- A decoded text. -/
def decode (escape : UInt8 → UInt8 → UInt8) : List UInt8 → List UInt8
  | [] => []
  | c :: l =>
    if c = 43 then 32 :: decode escape l
    else if c = 37 then
      match l with
      | a :: b :: l => escape a b :: decode escape l
      | _ => [37]
    else c :: decode escape l

/-- The hexadecimal digits, of either case. -/
def lowerDigits : List UInt8 :=
  [48, 49, 50, 51, 52, 53, 54, 55, 56, 57, 97, 98, 99, 100, 101, 102]

def upperDigits : List UInt8 :=
  [48, 49, 50, 51, 52, 53, 54, 55, 56, 57, 65, 66, 67, 68, 69, 70]

/-- A digit and its value. -/
def IsDigit (a : UInt8) (v : ℕ) : Prop := lowerDigits[v]? = some a ∨ upperDigits[v]? = some a

/-- What a byte may be encoded as. -/
inductive EncodedByte : UInt8 → List UInt8 → Prop
  | plus : EncodedByte 32 [43]
  | self {c : UInt8} : c ≠ 32 → c ≠ 37 → c ≠ 43 → EncodedByte c [c]
  | escape {c a b : UInt8} {hi lo : ℕ} : IsDigit a hi → IsDigit b lo → c.toNat = 16 * hi + lo →
      EncodedByte c [37, a, b]

/-- What a text may be encoded as. -/
inductive Encoded : List UInt8 → List UInt8 → Prop
  | nil : Encoded [] []
  | cons {c : UInt8} {l e t : List UInt8} : EncodedByte c e → Encoded l t →
      Encoded (c :: l) (e ++ t)

/-- The decoder reads escapes of digits. -/
def Reads (escape : UInt8 → UInt8 → UInt8) : Prop :=
  ∀ a b hi lo, IsDigit a hi → IsDigit b lo → escape a b = UInt8.ofNat (16 * hi + lo)

variable {escape : UInt8 → UInt8 → UInt8}

theorem IsDigit.lt {a : UInt8} {v : ℕ} (h : IsDigit a v) : v < 16 := by
  rcases h with h | h
  · exact (List.getElem?_eq_some_iff.1 h).1
  · exact (List.getElem?_eq_some_iff.1 h).1

theorem decode_cons (c : UInt8) (l : List UInt8) :
    decode escape (c :: l) =
      if c = 43 then 32 :: decode escape l
      else if c = 37 then
        match l with
        | a :: b :: l => escape a b :: decode escape l
        | _ => [37]
      else c :: decode escape l := by
  rw [decode.eq_def]

theorem decode_plus (l : List UInt8) : decode escape (43 :: l) = 32 :: decode escape l := by
  rw [decode_cons, if_pos rfl]

theorem decode_self {c : UInt8} (hplus : c ≠ 43) (hpercent : c ≠ 37) (l : List UInt8) :
    decode escape (c :: l) = c :: decode escape l := by
  rw [decode_cons, if_neg hplus, if_neg hpercent]

theorem decode_escape (a b : UInt8) (l : List UInt8) :
    decode escape (37 :: a :: b :: l) = escape a b :: decode escape l := by
  rw [decode_cons, if_neg (by decide), if_pos rfl]

/-- An escape that is cut off. -/
theorem decode_short {l : List UInt8} (h : l.length < 2) : decode escape (37 :: l) = [37] := by
  rw [decode_cons, if_neg (by decide), if_pos rfl]
  match l, h with
  | [], _ => rfl
  | [_], _ => rfl

/-- One byte in front of any text. -/
theorem decode_encodedByte (hread : Reads escape) {c : UInt8} {e : List UInt8}
    (h : EncodedByte c e) (l : List UInt8) : decode escape (e ++ l) = c :: decode escape l := by
  cases h with
  | plus => exact decode_plus l
  | self _ hpercent hplus => exact decode_self hplus hpercent l
  | escape ha hb hc =>
    refine (decode_escape _ _ l).trans ?_
    rw [hread _ _ _ _ ha hb, ← hc, UInt8.ofNat_toNat]

/-- **Decoding inverts each encoding.** -/
theorem decode_of_encoded (hread : Reads escape) {s t : List UInt8} (h : Encoded s t) :
    decode escape t = s := by
  induction h with
  | nil => rfl
  | cons he _ ih => rw [decode_encodedByte hread he, ih]

end Percent
