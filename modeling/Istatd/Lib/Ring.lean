import Mathlib.Tactic

/-!
# Ring indices

A ring of `n` slots keeps logical index `i` in slot `i mod n`.  The indices that are live under a
head `l` are the `n` integers of the window `(l - n, l]`; every slot is the slot of exactly one of
them.

* `Live n l i`: `i` is in the window;
* `Live.eq_of_emod_eq`: live indices in one slot are equal;
* `rep n l i`: the live index that shares the slot of `i`;
* `consecutive i m`: the `m` indices from `i` on, in order.
-/

namespace RingIndex

/-- The window of the `n` indices up to the head `l`. -/
def Live (n l i : ℤ) : Prop := l - n < i ∧ i ≤ l

variable {n l l' i j : ℤ}

theorem emod_eq_emod_iff_dvd : i % n = j % n ↔ n ∣ i - j := by
  rw [Int.emod_eq_emod_iff_emod_sub_eq_zero]
  exact Int.dvd_iff_emod_eq_zero.symm

/-- Indices less than a lap apart in one slot are equal. -/
theorem eq_of_emod_eq (h1 : i - j < n) (h2 : j - i < n) (h : i % n = j % n) : i = j := by
  obtain ⟨k, hk⟩ := emod_eq_emod_iff_dvd.1 h
  have hn : 0 < n := by omega
  have hk1 : k < 1 := by
    by_contra hcon
    have : n * 1 ≤ n * k := mul_le_mul_of_nonneg_left (by omega) hn.le
    omega
  have hk2 : -1 < k := by
    by_contra hcon
    have : n * k ≤ n * (-1) := mul_le_mul_of_nonneg_left (by omega) hn.le
    omega
  have hk0 : k = 0 := by omega
  rw [hk0] at hk
  omega

theorem Live.eq_of_emod_eq (hi : Live n l i) (hj : Live n l j) (h : i % n = j % n) : i = j := by
  obtain ⟨hi1, hi2⟩ := hi
  obtain ⟨hj1, hj2⟩ := hj
  exact RingIndex.eq_of_emod_eq (by omega) (by omega) h

/-- The live index in the slot of `i`. -/
def rep (n l i : ℤ) : ℤ := l - (l - i) % n

theorem rep_live (hn : 0 < n) : Live n l (rep n l i) := by
  have h1 := Int.emod_nonneg (l - i) hn.ne'
  have h2 := Int.emod_lt_of_pos (l - i) hn
  constructor <;> unfold rep <;> omega

theorem rep_emod (n l i : ℤ) : rep n l i % n = i % n := by
  unfold rep
  rw [emod_eq_emod_iff_dvd]
  exact ⟨(l - i) / n, by have := Int.mul_ediv_add_emod (l - i) n; omega⟩

/-- Above the head the live index in the slot is an earlier one. -/
theorem rep_lt (hn : 0 < n) (hi : l < i) : rep n l i < i := by
  have := (rep_live (l := l) (i := i) hn).2
  omega

/-- A smaller index in the slot of a live one has left the window. -/
theorem Live.le_sub_of_lt (hi : Live n l i) (hji : j < i) (h : j % n = i % n) : j ≤ i - n := by
  obtain ⟨k, hk⟩ := emod_eq_emod_iff_dvd.1 h
  have hn : 0 < n := by have := hi.1; have := hi.2; omega
  have hk1 : k ≤ -1 := by
    by_contra hcon
    have : n * 0 ≤ n * k := mul_le_mul_of_nonneg_left (by omega) hn.le
    omega
  have : n * k ≤ n * (-1) := mul_le_mul_of_nonneg_left hk1 hn.le
  omega

/-- The `m` indices from `i` on. -/
def consecutive (i : ℤ) (m : ℕ) : List ℤ := (List.range m).map fun k : ℕ => i + k

theorem consecutive_succ (i : ℤ) (m : ℕ) : consecutive i (m + 1) = i :: consecutive (i + 1) m := by
  unfold consecutive
  rw [List.range_succ_eq_map, List.map_cons, List.map_map]
  congr 1
  · simp
  · refine List.map_congr_left fun k _ => ?_
    show i + ((k + 1 : ℕ) : ℤ) = i + 1 + k
    push_cast
    ring

theorem mem_consecutive {m : ℕ} : j ∈ consecutive i m ↔ i ≤ j ∧ j < i + m := by
  unfold consecutive
  simp only [List.mem_map, List.mem_range]
  constructor
  · rintro ⟨k, hk, rfl⟩
    omega
  · rintro ⟨h1, h2⟩
    exact ⟨(j - i).toNat, by omega, by omega⟩

theorem consecutive_pairwise (i : ℤ) (m : ℕ) : (consecutive i m).Pairwise (· < ·) := by
  unfold consecutive
  rw [List.pairwise_map]
  exact (List.pairwise_lt_range).imp fun h => by omega

/-- Two stretches of indices filtered to the same members are the same list. -/
theorem filter_consecutive_eq {i' : ℤ} {m m' : ℕ} {p q : ℤ → Bool}
    (h : ∀ j, (i ≤ j ∧ j < i + m) ∧ p j = true ↔ (i' ≤ j ∧ j < i' + m') ∧ q j = true) :
    (consecutive i m).filter p = (consecutive i' m').filter q := by
  apply ((consecutive_pairwise i m).filter p).eq_of_mem_iff ((consecutive_pairwise i' m').filter q)
  intro j
  simp only [List.mem_filter, mem_consecutive]
  exact h j

end RingIndex
