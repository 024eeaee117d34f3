import Mathlib.Tactic

/-!
# Numbers in groups of seven bits

A number is written as a word of bytes, seven bits in each, lowest first; the top bit of a byte says
that another one follows.  Words of at most `k` bytes are considered.

* `value`, `IsWord`: what a word carries, and what a word is;
* `front`: the word at the front of some bytes, `front_eq_some_iff` for what it returns;
* `word`: the shortest word of a number, `isWord_word` and `value_word` for the numbers that have
  one.
-/

namespace Varint

/-- The number a word carries. -/
def value : List UInt8 → ℕ
  | [] => 0
  | b :: w => b.toNat % 128 + 128 * value w

/-- A word of at most `k` bytes: all of them but the last have the top bit set. -/
def IsWord : ℕ → List UInt8 → Prop
  | 0, _ => False
  | _ + 1, [] => False
  | k + 1, b :: w => if b.toNat < 128 then w = [] else IsWord k w

/-- The word at the front of some bytes, and the bytes behind it. -/
def front : ℕ → List UInt8 → Option (List UInt8 × List UInt8)
  | 0, _ => none
  | _ + 1, [] => none
  | k + 1, b :: bs =>
    if b.toNat < 128 then some ([b], bs) else (front k bs).map fun p => (b :: p.1, p.2)

/-- The shortest word of a number below `128 ^ k`. -/
def word : ℕ → ℕ → List UInt8
  | 0, _ => []
  | k + 1, n =>
    if n / 128 = 0 then [UInt8.ofNat (n % 128)] else UInt8.ofNat (n % 128 + 128) :: word k (n / 128)

theorem IsWord.ne_nil {k : ℕ} {w : List UInt8} (h : IsWord k w) : w ≠ [] := by
  rintro rfl
  cases k <;> exact h

theorem front_eq_some_iff {k : ℕ} {bs w r : List UInt8} :
    front k bs = some (w, r) ↔ IsWord k w ∧ bs = w ++ r := by
  induction k generalizing bs w with
  | zero => simp [front, IsWord]
  | succ k ih =>
    cases bs with
    | nil =>
      refine ⟨fun h => absurd h (by simp [front]), fun ⟨hw, he⟩ => ?_⟩
      exact absurd (List.append_eq_nil_iff.1 he.symm).1 hw.ne_nil
    | cons b bs =>
      rw [front]
      split_ifs with hb
      · constructor
        · intro h
          obtain ⟨rfl, rfl⟩ := Prod.mk.inj (Option.some.inj h)
          exact ⟨by simp [IsWord, hb], rfl⟩
        · rintro ⟨hw, he⟩
          cases w with
          | nil => exact absurd rfl hw.ne_nil
          | cons c w =>
            obtain ⟨rfl, rfl⟩ := List.cons.inj (he.trans (List.cons_append ..))
            have hnil : w = [] := by simpa [IsWord, hb] using hw
            rw [hnil, List.nil_append]
      · constructor
        · intro h
          obtain ⟨⟨w', r'⟩, hf, he⟩ := Option.map_eq_some_iff.1 h
          obtain ⟨rfl, rfl⟩ := Prod.mk.inj he
          obtain ⟨hw, rfl⟩ := ih.1 hf
          exact ⟨by simpa [IsWord, hb] using hw, rfl⟩
        · rintro ⟨hw, he⟩
          cases w with
          | nil => exact absurd rfl hw.ne_nil
          | cons c w =>
            obtain ⟨rfl, rfl⟩ := List.cons.inj (he.trans (List.cons_append ..))
            have hw' : IsWord k w := by simpa [IsWord, hb] using hw
            rw [ih.2 ⟨hw', rfl⟩]
            rfl

theorem toNat_ofNat_low (n : ℕ) : (UInt8.ofNat (n % 128)).toNat = n % 128 := by
  rw [UInt8.toNat_ofNat']
  omega

theorem toNat_ofNat_high (n : ℕ) : (UInt8.ofNat (n % 128 + 128)).toNat = n % 128 + 128 := by
  rw [UInt8.toNat_ofNat']
  omega

theorem div_lt_pow {k n : ℕ} (h : n < 128 ^ (k + 1)) : n / 128 < 128 ^ k := by
  rw [Nat.div_lt_iff_lt_mul (by decide), ← pow_succ]
  exact h

/-- A word is written for every number with at least one group and at most `k`. -/
theorem isWord_word {k n : ℕ} (hk : 0 < k) (h : n < 128 ^ k) : IsWord k (word k n) := by
  induction k generalizing n with
  | zero => exact absurd hk (lt_irrefl 0)
  | succ k ih =>
    rw [word]
    split_ifs with h0
    · rw [IsWord, if_pos]
      rw [toNat_ofNat_low]
      exact Nat.mod_lt n (by decide)
    · have hlt := div_lt_pow h
      have hpos : 0 < k := by
        rcases Nat.eq_zero_or_pos k with rfl | hpos
        · rw [pow_zero] at hlt
          omega
        · exact hpos
      rw [IsWord, if_neg]
      · exact ih hpos hlt
      · rw [toNat_ofNat_high]
        omega

theorem value_word {k n : ℕ} (h : n < 128 ^ k) : value (word k n) = n := by
  induction k generalizing n with
  | zero =>
    rw [pow_zero] at h
    simp [word, value, Nat.lt_one_iff.1 h]
  | succ k ih =>
    rw [word]
    split_ifs with h0
    · rw [value, value, toNat_ofNat_low]
      omega
    · rw [value, ih (div_lt_pow h), toNat_ofNat_high]
      omega

end Varint
