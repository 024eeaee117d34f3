import Mathlib.Tactic

/-!
# Time grids under truncating division

A grid of step `s` cuts the integers into cells `[k·s, (k+1)·s)`.  Programs written in C compute
the cell of a time relative to some origin `c` with the truncating quotient `(t - c) / s`, and the
start of a cell with the truncating remainder `t - t % s`.  The two agree on one side of zero and of
the origin only; `cellStart_eq_iff` says exactly where.

* `cell c s t`: the truncating cell number of `t` relative to the origin `c`;
* `cellStart s t`: the start of the cell of `t`, `t - t % s`;
* `cellEnd s t`: the first grid point from `t` on;
* `Aligned c s t`: origin and time lie on the same side of the truncation, or `t` is on the grid.
-/

namespace Grid

/-- The cell of `t` counted from the origin `c`, with the quotient truncated towards zero. -/
def cell (c s t : ℤ) : ℤ := (t - c).tdiv s

/-- `t` with its (truncating) remainder taken off. -/
def cellStart (s t : ℤ) : ℤ := t - t.tmod s

/-- The times at which numbering cells from `c` and taking off the remainder agree. -/
def Aligned (c s t : ℤ) : Prop := (0 ≤ t ∧ c ≤ t) ∨ (t ≤ 0 ∧ t ≤ c) ∨ s ∣ t

variable {c s t u : ℤ}

theorem cell_mono (hs : 0 < s) (h : t ≤ u) : cell c s t ≤ cell c s u :=
  Int.tdiv_le_tdiv hs (by omega)

/-- The cells from `k` on. -/
theorem le_cell_iff {k : ℤ} (hs : 0 < s) (h : c ≤ t) : k ≤ cell c s t ↔ c + k * s ≤ t := by
  unfold cell
  rw [Int.tdiv_eq_ediv_of_nonneg (by omega), Int.le_ediv_iff_mul_le hs]
  constructor <;> intro hk <;> linarith

/-- From the origin on, cell `k` is the half-open interval `[c + k·s, c + (k+1)·s)`. -/
theorem cell_eq_iff {k : ℤ} (hs : 0 < s) (h : c ≤ t) :
    cell c s t = k ↔ c + k * s ≤ t ∧ t < c + k * s + s := by
  unfold cell
  rw [Int.tdiv_eq_ediv_of_nonneg (by omega)]
  constructor
  · rintro rfl
    have h1 := Int.ediv_mul_le (t - c) hs.ne'
    have h2 := Int.lt_ediv_add_one_mul_self (t - c) hs
    constructor <;> linarith
  · rintro ⟨h1, h2⟩
    apply le_antisymm
    · exact Int.lt_add_one_iff.1 ((Int.ediv_lt_iff_lt_mul hs).2 (by linarith))
    · exact (Int.le_ediv_iff_mul_le hs).2 (by linarith)

theorem cellStart_dvd (s t : ℤ) : s ∣ cellStart s t :=
  ⟨t.tdiv s, by unfold cellStart; rw [Int.mul_tdiv_self]⟩

theorem cellStart_of_dvd (h : s ∣ t) : cellStart s t = t := by
  unfold cellStart; rw [Int.tmod_eq_zero_of_dvd h]; ring

theorem cellStart_le (ht : 0 ≤ t) : cellStart s t ≤ t := by
  unfold cellStart
  have := Int.tmod_nonneg s ht
  omega

theorem lt_cellStart_add (hs : 0 < s) : t < cellStart s t + s := by
  unfold cellStart
  have := Int.tmod_lt_of_pos t hs
  omega

theorem cellStart_nonneg (ht : 0 ≤ t) : 0 ≤ cellStart s t := by
  have h : cellStart s t = t.tdiv s * s := by unfold cellStart; rw [Int.tdiv_mul_self]
  rcases le_or_gt 0 s with hs | hs
  · rw [h]; exact mul_nonneg (Int.tdiv_nonneg ht hs) hs
  · rw [h]
    exact mul_nonneg_of_nonpos_of_nonpos (Int.tdiv_nonpos_of_nonneg_of_nonpos ht hs.le) hs.le

/-- Both start on the grid, so a cell start below a grid point is at least a step below it. -/
theorem add_le_of_lt_of_dvd (hs : 0 < s) (ht : s ∣ t) (hu : s ∣ u) (h : t < u) : t + s ≤ u := by
  obtain ⟨a, rfl⟩ := ht
  obtain ⟨b, rfl⟩ := hu
  have hab : a < b := lt_of_mul_lt_mul_left h hs.le
  nlinarith

/-- A grid point less than a step behind another one is not behind it. -/
theorem le_of_lt_add_of_dvd (hs : 0 < s) (ht : s ∣ t) (hu : s ∣ u) (h : u < t + s) : u ≤ t := by
  by_contra hlt
  have := add_le_of_lt_of_dvd hs ht hu (not_le.1 hlt)
  omega

/-- A grid point up to a time is up to the start of its cell. -/
theorem le_cellStart (hs : 0 < s) (hu : s ∣ u) (h : u ≤ t) : u ≤ cellStart s t :=
  le_of_lt_add_of_dvd hs (cellStart_dvd s t) hu (h.trans_lt (lt_cellStart_add hs))

theorem cell_mul (c s t : ℤ) : c + cell c s t * s = t - (t - c).tmod s := by
  unfold cell
  rw [Int.tdiv_mul_self]; ring

/-- The numbered cell of a time starts less than a step above it. -/
theorem cell_mul_lt (c : ℤ) (hs : 0 < s) (t : ℤ) : c + cell c s t * s < t + s := by
  rw [cell_mul]
  have := Int.lt_tmod_of_pos (t - c) hs
  omega

/-- The truncating remainder, case by case of the sign. -/
theorem tmod_of_nonpos (h : t ≤ 0) : t.tmod s = -((-t) % s) := by
  rw [← Int.tmod_eq_emod_of_nonneg (by omega : 0 ≤ -t), Int.neg_tmod, neg_neg]

theorem cellStart_le_of_pos (hs : 0 < s) (h : 0 < cellStart s t) : cellStart s t ≤ t := by
  rcases le_or_gt 0 t with ht | ht
  · exact cellStart_le ht
  · have h1 := Int.mul_ediv_add_emod (-t) s
    have h2 := mul_nonneg hs.le (Int.ediv_nonneg (by omega : 0 ≤ -t) hs.le)
    unfold cellStart at h
    rw [tmod_of_nonpos ht.le] at h
    omega

theorem emod_sub_of_dvd (hc : s ∣ c) : (t - c) % s = t % s := by
  obtain ⟨k, rfl⟩ := hc
  simp

theorem emod_sub_of_dvd' (hc : s ∣ c) : (c - t) % s = (-t) % s := by
  obtain ⟨k, rfl⟩ := hc
  rw [sub_eq_add_neg, add_comm, Int.add_mul_emod_self_left]

/-- **Where the two roundings agree.** With the origin on the grid, the start of the numbered cell
of `t` is `t` less its remainder exactly at the aligned times. -/
theorem cell_mul_eq_iff (hs : 0 < s) (hc : s ∣ c) :
    c + cell c s t * s = cellStart s t ↔ Aligned c s t := by
  rw [cell_mul]
  have hiff : t - (t - c).tmod s = cellStart s t ↔ (t - c).tmod s = t.tmod s := by
    unfold cellStart; omega
  rw [hiff]
  have hmod : ∀ x : ℤ, 0 ≤ x % s := fun x => Int.emod_nonneg x hs.ne'
  constructor
  · intro h
    by_contra hna
    simp only [Aligned, not_or, not_and, not_le] at hna
    obtain ⟨h1, h2, h3⟩ := hna
    -- the signs of `t` and `t - c` differ, so both remainders vanish
    have hzero : t % s = 0 ∨ (-t) % s = 0 := by
      rcases le_or_gt 0 t with ht | ht
      · have htc := h1 ht
        rw [tmod_of_nonpos (by omega), Int.tmod_eq_emod_of_nonneg ht] at h
        have := hmod (-(t - c))
        have := hmod t
        exact Or.inl (by omega)
      · have htc := h2 ht.le
        rw [Int.tmod_eq_emod_of_nonneg (by omega), tmod_of_nonpos ht.le] at h
        have := hmod (t - c)
        have := hmod (-t)
        exact Or.inr (by omega)
    rcases hzero with h0 | h0
    · exact h3 (Int.dvd_of_emod_eq_zero h0)
    · exact h3 ((dvd_neg).1 (Int.dvd_of_emod_eq_zero h0))
  · rintro (⟨ht, htc⟩ | ⟨ht, htc⟩ | hd)
    · rw [Int.tmod_eq_emod_of_nonneg (by omega), Int.tmod_eq_emod_of_nonneg ht, emod_sub_of_dvd hc]
    · rw [tmod_of_nonpos (by omega), tmod_of_nonpos ht, neg_sub, emod_sub_of_dvd' hc]
    · rw [Int.tmod_eq_zero_of_dvd hd, Int.tmod_eq_zero_of_dvd (dvd_sub hd hc)]

/-- Off the aligned times a non-negative `t` is numbered into the cell after its own. -/
theorem cellStart_lt_cell (hs : 0 < s) (hc : s ∣ c) (ht : 0 ≤ t) (h : ¬ Aligned c s t) :
    cellStart s t < c + cell c s t * s := by
  have hne : c + cell c s t * s ≠ cellStart s t := fun he => h ((cell_mul_eq_iff hs hc).1 he)
  have htc : t < c := by
    by_contra hcon
    exact h (Or.inl ⟨ht, by omega⟩)
  have hle : cellStart s t ≤ c + cell c s t * s := by
    rw [cell_mul]
    unfold cellStart
    have h1 : (t - c).tmod s ≤ 0 := by
      rw [tmod_of_nonpos (by omega)]
      have := Int.emod_nonneg (-(t - c)) hs.ne'
      omega
    have h2 := Int.tmod_nonneg s ht
    omega
  omega

theorem tdiv_mul_of_nonneg (hs : 0 ≤ s) (t m : ℤ) : t.tdiv (s * m) = (t.tdiv s).tdiv m := by
  have hpos : ∀ a : ℤ, 0 ≤ a → a.tdiv (s * m) = (a.tdiv s).tdiv m := fun a ha => by
    rw [Int.tdiv_eq_ediv_of_nonneg ha, Int.tdiv_eq_ediv_of_nonneg ha,
      Int.tdiv_eq_ediv_of_nonneg (Int.ediv_nonneg ha hs), Int.ediv_ediv_of_nonneg hs]
  rcases le_total 0 t with ht | ht
  · exact hpos t ht
  · have h := hpos (-t) (by omega)
    rw [Int.neg_tdiv, Int.neg_tdiv, Int.neg_tdiv] at h
    omega

/-- Times in one cell are in one cell of a coarser grid. -/
theorem cellStart_congr_of_dvd {s' : ℤ} (hs : 0 < s) (hdvd : s ∣ s')
    (h : cellStart s t = cellStart s u) : cellStart s' t = cellStart s' u := by
  obtain ⟨m, rfl⟩ := hdvd
  have hmul : ∀ r v : ℤ, cellStart r v = r * v.tdiv r := fun r v => by
    rw [cellStart, Int.mul_tdiv_self]
  rw [hmul, hmul] at h
  rw [hmul, hmul, tdiv_mul_of_nonneg hs.le, tdiv_mul_of_nonneg hs.le, mul_left_cancel₀ hs.ne' h]

theorem cellStart_mono (hs : 0 < s) (h : t ≤ u) : cellStart s t ≤ cellStart s u := by
  have hmul : ∀ v : ℤ, cellStart s v = v.tdiv s * s := fun v => by
    rw [cellStart, Int.tdiv_mul_self]
  rw [hmul, hmul]
  exact mul_le_mul_of_nonneg_right (Int.tdiv_le_tdiv hs h) hs.le

/-- Times that are at most a step apart are in one cell or in two that follow each other. -/
theorem cellStart_le_add (hs : 0 < s) (h : u ≤ t + s) : cellStart s u ≤ cellStart s t + s := by
  by_contra hcon
  have hnext := add_le_of_lt_of_dvd hs (dvd_add (cellStart_dvd s t) dvd_rfl) (cellStart_dvd s u)
    (not_le.1 hcon)
  have hlt := lt_cellStart_add (t := t) hs
  rcases le_or_gt 0 u with hu | hu
  · have := cellStart_le (s := s) hu
    omega
  · -- below zero the start of a cell is its last time
    have hzero : cellStart s u ≤ 0 := by
      by_contra hpos
      have := cellStart_le_of_pos hs (not_le.1 hpos)
      omega
    have hupper : cellStart s u < u + s := by
      unfold cellStart
      have := Int.lt_tmod_of_pos u hs
      omega
    have ht : t ≤ cellStart s t := by
      unfold cellStart
      have hle : t ≤ 0 := by omega
      rw [tmod_of_nonpos hle]
      have := Int.emod_nonneg (-t) hs.ne'
      omega
    omega

/-! ### Rounding upwards -/

/-- `t` with its (truncating) remainder taken off, and a step added if there was one. -/
def cellEnd (s t : ℤ) : ℤ := t - t.tmod s + if t.tmod s ≠ 0 then s else 0

theorem cellEnd_dvd (s t : ℤ) : s ∣ cellEnd s t := by
  unfold cellEnd
  apply dvd_add (cellStart_dvd s t)
  split_ifs
  · exact dvd_rfl
  · exact dvd_zero s

theorem le_cellEnd (hs : 0 < s) : t ≤ cellEnd s t := by
  have := Int.tmod_lt_of_pos t hs
  unfold cellEnd
  split_ifs <;> omega

theorem cellEnd_lt_add (hs : 0 < s) (ht : 0 ≤ t) : cellEnd s t < t + s := by
  have := Int.tmod_nonneg s ht
  unfold cellEnd
  split_ifs <;> omega

/-- A grid point from a time on is from the end of its cell on. -/
theorem cellEnd_le (hs : 0 < s) (ht : 0 ≤ t) (hu : s ∣ u) (h : t ≤ u) : cellEnd s t ≤ u := by
  apply le_of_lt_add_of_dvd hs hu (cellEnd_dvd s t)
  have := cellEnd_lt_add hs ht
  omega

/-- Rounding down to a grid and then to a coarser one is rounding down to the coarser one. -/
theorem cellStart_cellStart {s' : ℤ} (hs : 0 < s) (hs' : 0 < s') (hdvd : s ∣ s') (ht : 0 ≤ t) :
    cellStart s' (cellStart s t) = cellStart s' t := by
  have h0 : 0 ≤ cellStart s t := cellStart_nonneg ht
  apply le_antisymm
  · exact le_cellStart hs' (cellStart_dvd s' _) ((cellStart_le h0).trans (cellStart_le ht))
  · apply le_cellStart hs' (cellStart_dvd s' t)
    exact le_cellStart hs (hdvd.trans (cellStart_dvd s' t)) (cellStart_le ht)

/-- Rounding up to a grid and then to a coarser one is rounding up to the coarser one. -/
theorem cellEnd_cellEnd {s' : ℤ} (hs : 0 < s) (hs' : 0 < s') (hdvd : s ∣ s') (ht : 0 ≤ t) :
    cellEnd s' (cellEnd s t) = cellEnd s' t := by
  have h1 : t ≤ cellEnd s t := le_cellEnd hs
  apply le_antisymm
  · apply cellEnd_le hs' (ht.trans h1) (cellEnd_dvd s' t)
    exact cellEnd_le hs ht (hdvd.trans (cellEnd_dvd s' t)) (le_cellEnd hs')
  · exact cellEnd_le hs' ht (cellEnd_dvd s' _) (h1.trans (le_cellEnd hs'))

/-- The cells that a range touches are at most `m` if and only if the range, counted from the start
of its first cell, is at most `m` steps long. -/
theorem cells_le_iff (hs : 0 < s) (hu : 0 ≤ u) (m : ℤ) :
    (cellEnd s u - cellStart s t).tdiv s ≤ m ↔ t.tmod s + (u - t) ≤ m * s := by
  obtain ⟨k, hk⟩ := dvd_sub (cellEnd_dvd s u) (cellStart_dvd s t)
  have hcount : (cellEnd s u - cellStart s t).tdiv s ≤ m ↔ cellEnd s u ≤ cellStart s t + m * s := by
    rw [hk, Int.mul_tdiv_cancel_left _ hs.ne']
    constructor
    · intro h
      have := mul_le_mul_of_nonneg_right h hs.le
      rw [mul_comm k] at this
      omega
    · intro h
      refine le_of_mul_le_mul_right ?_ hs
      rw [mul_comm k]
      omega
  have hstart : t.tmod s + (u - t) ≤ m * s ↔ u ≤ cellStart s t + m * s := by
    unfold cellStart
    omega
  rw [hcount, hstart]
  constructor
  · exact (le_cellEnd hs).trans
  · exact cellEnd_le hs hu (dvd_add (cellStart_dvd s t) (dvd_mul_left s m))

end Grid
