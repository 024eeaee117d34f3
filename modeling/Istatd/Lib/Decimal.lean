import Mathlib.Tactic
import Mathlib.Data.Nat.Digits.Lemmas

/-!
# Decimal numbers in text

* `value`: the number that a text of digits stands for;
* `text`: the digits of a number, without leading zeros;
* `value_text`: a number is read back from its digits.
-/

namespace Decimal

/-- A decimal digit. -/
def isDigit (c : UInt8) : Bool := 48 ≤ c && c ≤ 57

/-- The number that a text of digits stands for. -/
def value (t : List UInt8) : ℕ := t.foldl (fun n c => 10 * n + (c.toNat - 48)) 0

/-- The digit for a number below ten. -/
def digit (d : ℕ) : UInt8 := UInt8.ofNat (48 + d)

/-- The text of a number. -/
def text (n : ℕ) : List UInt8 := if n = 0 then [digit 0] else (Nat.digits 10 n).reverse.map digit

theorem toNat_digit {d : ℕ} (h : d < 10) : (digit d).toNat = 48 + d := by
  unfold digit
  rw [UInt8.toNat_ofNat']
  omega

theorem isDigit_digit {d : ℕ} (h : d < 10) : isDigit (digit d) = true := by
  have hd := toNat_digit h
  have hlo : (48 : UInt8).toNat ≤ (digit d).toNat := hd ▸ Nat.le_add_right _ _
  have hhi : (digit d).toNat ≤ (57 : UInt8).toNat := by
    rw [hd]
    change 48 + d ≤ 57
    omega
  exact Bool.and_eq_true_iff.2 ⟨decide_eq_true hlo, decide_eq_true hhi⟩

theorem value_append_singleton (t : List UInt8) (c : UInt8) :
    value (t ++ [c]) = 10 * value t + (c.toNat - 48) := by
  simp [value]

theorem value_map_digit {ds : List ℕ} (h : ∀ d ∈ ds, d < 10) :
    value (ds.reverse.map digit) = Nat.ofDigits 10 ds := by
  induction ds with
  | nil => rfl
  | cons d ds ih =>
    obtain ⟨hd, hds⟩ := List.forall_mem_cons.1 h
    rw [List.reverse_cons, List.map_append, List.map_singleton, value_append_singleton, ih hds,
      toNat_digit hd, Nat.ofDigits_cons]
    omega

/-- **A number is read back from its text.** -/
theorem value_text (n : ℕ) : value (text n) = n := by
  unfold text
  by_cases hn : n = 0
  · subst hn
    rfl
  · rw [if_neg hn, value_map_digit fun d hd => Nat.digits_lt_base (by omega) hd,
      Nat.ofDigits_digits]

theorem text_ne_nil (n : ℕ) : text n ≠ [] := by
  unfold text
  by_cases hn : n = 0
  · simp [hn]
  · simp [hn, Nat.digits_ne_nil_iff_ne_zero]

theorem isDigit_of_mem_text {n : ℕ} {c : UInt8} (h : c ∈ text n) : isDigit c = true := by
  unfold text at h
  split_ifs at h
  · rw [List.mem_singleton.1 h]
    rfl
  · obtain ⟨d, hd, rfl⟩ := List.mem_map.1 h
    exact isDigit_digit (Nat.digits_lt_base (by omega) (List.mem_reverse.1 hd))

end Decimal
