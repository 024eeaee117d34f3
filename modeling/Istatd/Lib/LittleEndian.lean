import Mathlib.Tactic
import Mathlib.Data.Nat.Digits.Defs

/-!
# Numbers in bytes, least significant byte first

* `bytes`: the lowest bytes of a number;
* `value`: the number in some bytes;
* `value_bytes`: a number is read back, as far as it fits;
* `bmod_value_intBytes`: the same for signed numbers;
* `take_drop_field`: a field of a record lies behind the fields in front of it.
-/

namespace LittleEndian

/-- The lowest `width` bytes of a number. -/
def bytes : ℕ → ℕ → List UInt8
  | 0, _ => []
  | width + 1, n => UInt8.ofNat n :: bytes width (n / 256)

/-- The number in some bytes. -/
def value (l : List UInt8) : ℕ := Nat.ofDigits 256 (l.map UInt8.toNat)

@[simp] theorem length_bytes (width n : ℕ) : (bytes width n).length = width := by
  induction width generalizing n with
  | zero => rfl
  | succ width ih => rw [bytes, List.length_cons, ih]

/-- **A number is read back** from its bytes. -/
theorem value_bytes (width n : ℕ) : value (bytes width n) = n % 256 ^ width := by
  induction width generalizing n with
  | zero => rw [pow_zero, Nat.mod_one]; rfl
  | succ width ih =>
    have hrest : Nat.ofDigits 256 ((bytes width (n / 256)).map UInt8.toNat) =
        n / 256 % 256 ^ width := ih (n / 256)
    have hpow : 256 ^ (width + 1) = 256 * 256 ^ width := pow_succ' 256 width
    rw [value, bytes, List.map_cons, Nat.ofDigits_cons, hrest, UInt8.toNat_ofNat', hpow,
      Nat.mod_mul]

theorem value_bytes_of_lt {width n : ℕ} (h : n < 256 ^ width) : value (bytes width n) = n := by
  rw [value_bytes, Nat.mod_eq_of_lt h]

/-! ### Signed numbers -/

/-- The lowest bytes of a number in two's complement. -/
def intBytes (width : ℕ) (x : ℤ) : List UInt8 := bytes width (x % 256 ^ width).toNat

@[simp] theorem length_intBytes (width : ℕ) (x : ℤ) : (intBytes width x).length = width :=
  length_bytes width _

/-- A signed number that fits is read back. -/
theorem bmod_value_intBytes {width m : ℕ} {x : ℤ} (hm : m = 256 ^ width) (hlo : -(m : ℤ) ≤ 2 * x)
    (hhi : 2 * x < m) : (value (intBytes width x) : ℤ).bmod m = x := by
  have hpos : 0 < m := hm ▸ Nat.pow_pos (by norm_num)
  have hcast : (256 : ℤ) ^ width = m := by rw [hm, Nat.cast_pow, Nat.cast_ofNat]
  have hnonneg : 0 ≤ x % (m : ℤ) := Int.emod_nonneg x (by omega)
  have hlt : x % (m : ℤ) < m := Int.emod_lt_of_pos x (by omega)
  have hvalue : value (intBytes width x) = (x % (m : ℤ)).toNat := by
    rw [intBytes, hcast]
    exact value_bytes_of_lt (by omega)
  rw [hvalue, Int.toNat_of_nonneg hnonneg, Int.emod_bmod]
  exact Int.bmod_eq_of_le_mul_two (by omega) (by omega)

/-! ### The fields of a record -/

/-- A record at one of its fields. -/
theorem flatten_at_field {fields : List (List UInt8)} {j : ℕ} {field : List UInt8}
    (h : fields[j]? = some field) :
    ∃ post, fields.flatten = (fields.take j).flatten ++ (field ++ post) := by
  obtain ⟨hj, rfl⟩ := List.getElem?_eq_some_iff.1 h
  have hsplit : fields = fields.take j ++ fields[j] :: fields.drop (j + 1) := by
    rw [List.getElem_cons_drop, List.take_append_drop]
  refine ⟨(fields.drop (j + 1)).flatten, ?_⟩
  conv_lhs => rw [hsplit]
  rw [List.flatten_append, List.flatten_cons]

/-- A field ends within the record. -/
theorem field_end_le {fields : List (List UInt8)} {j : ℕ} {field : List UInt8}
    (h : fields[j]? = some field) :
    (fields.take j).flatten.length + field.length ≤ fields.flatten.length := by
  obtain ⟨post, hpost⟩ := flatten_at_field h
  have hlen := congrArg List.length hpost
  rw [List.length_append, List.length_append] at hlen
  omega

/-- A field is read behind the fields in front of it. -/
theorem take_drop_field {fields : List (List UInt8)} {j : ℕ} {field : List UInt8}
    (h : fields[j]? = some field) (rest : List UInt8) :
    ((fields.flatten ++ rest).drop (fields.take j).flatten.length).take field.length = field := by
  obtain ⟨post, hpost⟩ := flatten_at_field h
  rw [hpost, List.append_assoc, List.append_assoc, List.drop_left, List.take_left]

end LittleEndian
