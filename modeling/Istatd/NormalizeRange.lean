import Istatd.Select

/-!
# The grid of a range query (`StatCounter::normalizeRange`)

A range query starts from the native interval of the picked file and looks for a coarser one that
gives at most the wanted number of samples.  The range is rounded outwards twice: to the native
interval, and to the coarser one if there is one.

* `pickReduction_eq`: the loop over the table finds the first proper multiple of the interval that
  fits, or else the last proper multiple;
* `normalizeRange_grid`: the result covers the request and lies on the grid of its interval;
* `normalizeRange_cap_iff`: the number of samples is compared with the cap before the second
  rounding, which can add up to two; when the cap is kept after it.
-/

namespace Istatd

/-! ### The first rounding -/

/-- The interval rounding starts from: 0 is taken as 10. -/
def nativeInterval (interval : ℤ) : ℤ := if interval = 0 then 10 else interval

theorem nativeInterval_pos {i : ℤ} (hi : 0 ≤ i) : 0 < nativeInterval i := by
  unfold nativeInterval
  split_ifs <;> omega

/-- The length of the range after the first rounding. -/
def initialSpan (startTime endTime interval : ℤ) : ℤ :=
  roundUp endTime interval - roundDown startTime interval

theorem initialSpan_nonneg {s e i : ℤ} (hs : 0 ≤ s) (hse : s ≤ e) (hi : 0 < i) :
    0 ≤ initialSpan s e i := by
  have h1 : roundDown s i ≤ s := roundDown_le hs
  have h2 : e ≤ roundUp e i := le_roundUp hi
  unfold initialSpan
  omega

/-! ### The table -/

/-- A reduction the loop does not skip: a proper multiple of the interval. -/
def IsMultiple (interval r : ℤ) : Prop := interval < r ∧ interval ∣ r

instance (interval r : ℤ) : Decidable (IsMultiple interval r) := inferInstanceAs (Decidable (_ ∧ _))

/-- `r` is the first reduction of the table that the loop accepts for a range of length `span`. -/
def FirstFit (interval span : ℤ) (maxSamples : ℕ) (r : ℤ) : Prop :=
  r ∈ reductions ∧ IsMultiple interval r ∧ span.tdiv r ≤ maxSamples ∧
    ∀ r' ∈ reductions, IsMultiple interval r' → r' < r → maxSamples < span.tdiv r'

instance (interval span : ℤ) (maxSamples : ℕ) (r : ℤ) :
    Decidable (FirstFit interval span maxSamples r) := inferInstanceAs (Decidable (_ ∧ _))

/-- The loop finds the first proper multiple that fits, or else the last proper multiple. -/
theorem pickReduction_eq (i span : ℤ) (m : ℕ) (rs : List ℤ) (target : ℤ) :
    pickReduction i span m rs target =
      ((rs.filter (IsMultiple i)).find? fun r => span.tdiv r ≤ m).getD
        ((rs.filter (IsMultiple i)).getLast?.getD target) := by
  induction rs generalizing target with
  | nil => rfl
  | cons r rs ih =>
    unfold pickReduction
    by_cases hlt : r ≤ i
    · have hnot : ¬ IsMultiple i r := fun h => not_lt.2 hlt h.1
      rw [if_pos hlt, ih, List.filter_cons_of_neg (by simpa using hnot)]
    · rw [if_neg hlt]
      by_cases hmod : r.tmod i ≠ 0
      · have hnot : ¬ IsMultiple i r := fun h => hmod (Int.tmod_eq_zero_of_dvd h.2)
        rw [if_pos hmod, ih, List.filter_cons_of_neg (by simpa using hnot)]
      · have hmul : IsMultiple i r :=
          ⟨not_le.1 hlt, Int.dvd_of_tmod_eq_zero (not_not.1 hmod)⟩
        rw [if_neg hmod, List.filter_cons_of_pos (by simpa using hmul)]
        by_cases hfit : span.tdiv r ≤ m
        · rw [if_pos hfit, List.find?_cons_of_pos (by simpa using hfit)]
          rfl
        · rw [if_neg hfit, ih, List.find?_cons_of_neg (by simpa using hfit),
            List.getLast?_cons]
          rfl

/-- The largest reduction is a multiple of all of the table. -/
theorem isMultiple_day {i r : ℤ} (hr : r ∈ reductions) (h : IsMultiple i r) :
    IsMultiple i 86400 := by
  have hday : ∀ r ∈ reductions, r ≤ 86400 ∧ r ∣ 86400 := by decide
  exact ⟨h.1.trans_le (hday r hr).1, h.2.trans (hday r hr).2⟩

theorem find?_eq_some_iff_firstFit {i span : ℤ} {m : ℕ} {r : ℤ} :
    ((reductions.filter (IsMultiple i)).find? fun r => span.tdiv r ≤ m) = some r ↔
      FirstFit i span m r := by
  have hsorted : (reductions.filter (IsMultiple i)).Pairwise (· < ·) :=
    List.Pairwise.filter _ (by decide)
  have hmem : ∀ r', r' ∈ reductions.filter (IsMultiple i) ↔ r' ∈ reductions ∧ IsMultiple i r' :=
    fun r' => by rw [List.mem_filter, decide_eq_true_iff]
  rw [List.find?_eq_some_iff_append]
  constructor
  · rintro ⟨hfit, as, bs, hl, has⟩
    have hr : r ∈ reductions.filter (IsMultiple i) := by rw [hl]; simp
    refine ⟨((hmem r).1 hr).1, ((hmem r).1 hr).2, by simpa using hfit, fun r' hr' hmul hlt => ?_⟩
    have hin : r' ∈ as ++ r :: bs := hl ▸ (hmem r').2 ⟨hr', hmul⟩
    rw [hl, List.pairwise_append, List.pairwise_cons] at hsorted
    rcases List.mem_append.1 hin with h | h
    · simpa using has r' h
    · rcases List.mem_cons.1 h with rfl | h
      · exact absurd hlt (lt_irrefl _)
      · exact absurd hlt (hsorted.2.1.1 r' h).not_gt
  · rintro ⟨hr, hmul, hfit, hfirst⟩
    obtain ⟨as, bs, hl⟩ := List.append_of_mem ((hmem r).2 ⟨hr, hmul⟩)
    refine ⟨by simpa using hfit, as, bs, hl, fun r' hr' => ?_⟩
    have hin := (hmem r').1 (hl ▸ List.mem_append_left _ hr')
    rw [hl, List.pairwise_append] at hsorted
    simpa using hfirst r' hin.1 hin.2 (hsorted.2.2 r' hr' r (by simp))

/-- What the loop over the whole table finds. -/
theorem pickReduction_cases (i span : ℤ) (m : ℕ) :
    ((∀ r ∈ reductions, ¬ IsMultiple i r) ∧ pickReduction i span m reductions 0 = 0) ∨
    FirstFit i span m (pickReduction i span m reductions 0) ∨
    (pickReduction i span m reductions 0 = 86400 ∧ IsMultiple i 86400 ∧
      ∀ r, ¬ FirstFit i span m r) := by
  rw [pickReduction_eq]
  cases hfind : (reductions.filter (IsMultiple i)).find? fun r => span.tdiv r ≤ m with
  | some r => exact Or.inr (Or.inl (find?_eq_some_iff_firstFit.1 hfind))
  | none =>
    have hno : ∀ r, ¬ FirstFit i span m r := fun r h => by
      rw [find?_eq_some_iff_firstFit.2 h] at hfind
      cases hfind
    by_cases hmul : IsMultiple i 86400
    · have hlast : reductions = reductions.dropLast ++ [86400] := by decide
      have hfilter : (reductions.filter (IsMultiple i)).getLast? = some 86400 := by
        rw [hlast, List.filter_append, List.filter_cons_of_pos (by simpa using hmul)]
        simp
      rw [hfilter]
      exact Or.inr (Or.inr ⟨rfl, hmul, hno⟩)
    · have hnone : ∀ r ∈ reductions, ¬ IsMultiple i r := fun r hr h => hmul (isMultiple_day hr h)
      have hnil : reductions.filter (IsMultiple i) = [] :=
        List.filter_eq_nil_iff.2 fun r hr => by simpa using hnone r hr
      rw [hnil]
      exact Or.inl ⟨hnone, rfl⟩

theorem pickReduction_none_or_mem (i span : ℤ) (m : ℕ) :
    ((∀ r ∈ reductions, ¬ IsMultiple i r) ∧ pickReduction i span m reductions 0 = 0) ∨
    (pickReduction i span m reductions 0 ∈ reductions ∧
      IsMultiple i (pickReduction i span m reductions 0)) := by
  rcases pickReduction_cases i span m with h | h | ⟨h, hmul, -⟩
  · exact Or.inl h
  · exact Or.inr ⟨h.1, h.2.1⟩
  · rw [h]
    exact Or.inr ⟨by decide, hmul⟩

theorem FirstFit.unique {i span : ℤ} {m : ℕ} {r r' : ℤ} (h : FirstFit i span m r)
    (h' : FirstFit i span m r') : r = r' :=
  Option.some_injective _
    ((find?_eq_some_iff_firstFit.2 h).symm.trans (find?_eq_some_iff_firstFit.2 h'))

/-! ### The ways through the function -/

/-- The ways `normalizeRange` ends, but for a single bucket: the native interval fits, a reduction
of the table is taken, or there is no even reduction; then the range is cut at a multiple of a
second, or left as it is where that would not halve the samples. -/
theorem normalizeRange_cases {s e i : ℤ} {m : ℕ} (hs : 0 ≤ s) (hse : s ≤ e) (hi : 0 ≤ i)
    (hm : m ≠ 1) :
    let n := nativeInterval i
    let span := initialSpan s e n
    let r := pickReduction n span m reductions 0
    ((m = 0 ∨ span.tdiv n ≤ m) ∧ normalizeRange s e i m = .ok (roundDown s n, roundUp e n, n)) ∨
    (0 < m ∧ m < span.tdiv n ∧ r ∈ reductions ∧ IsMultiple n r ∧
      normalizeRange s e i m = .ok (roundDown s r, roundUp e r, r)) ∨
    (0 < m ∧ m < span.tdiv n ∧ (∀ r ∈ reductions, ¬ IsMultiple n r) ∧ span / m < n * 2 ∧
      normalizeRange s e i m = .ok (roundDown s n, roundUp e n, n)) ∨
    (0 < m ∧ m < span.tdiv n ∧ (∀ r ∈ reductions, ¬ IsMultiple n r) ∧ n * 2 ≤ span / m ∧
      normalizeRange s e i m = .ok (roundDown (roundDown s n) (span / m),
        roundUp (roundUp e n) (span / m), span / m)) := by
  intro n span r
  have hn : 0 < n := nativeInterval_pos hi
  have hspan : 0 ≤ span := initialSpan_nonneg hs hse hn
  have he : normalizeRange s e i m =
      if m = 0 ∨ span.tdiv n ≤ m then .ok (roundDown s n, roundUp e n, n)
      else if r = 0 ∧ (if r = 0 then span / m else r) < n * 2 then
        .ok (roundDown s n, roundUp e n, n)
      else .ok (roundDown (roundDown s n) (if r = 0 then span / m else r),
        roundUp (roundUp e n) (if r = 0 then span / m else r), if r = 0 then span / m else r) := by
    unfold normalizeRange
    rw [if_neg hm]
    exact if_neg (by change ¬ roundUp e n < roundDown s n; unfold span initialSpan at hspan; omega)
  rw [he]
  by_cases hfit : m = 0 ∨ span.tdiv n ≤ m
  · rw [if_pos hfit]
    exact Or.inl ⟨hfit, rfl⟩
  · rw [if_neg hfit]
    rw [not_or, not_le] at hfit
    have hm0 : 0 < m := Nat.pos_of_ne_zero hfit.1
    rcases pickReduction_none_or_mem n span m with ⟨hnone, hr⟩ | ⟨hr, hmul⟩
    · have hr0 : r = 0 := hr
      rw [hr0, if_pos rfl]
      by_cases hlt : span / m < n * 2
      · rw [if_pos ⟨rfl, hlt⟩]
        exact Or.inr (Or.inr (Or.inl ⟨hm0, hfit.2, hnone, hlt, rfl⟩))
      · rw [if_neg fun h => hlt h.2]
        exact Or.inr (Or.inr (Or.inr ⟨hm0, hfit.2, hnone, not_lt.1 hlt, rfl⟩))
    · have hpos : 0 < r := hn.trans hmul.1
      have hdown : roundDown (roundDown s n) r = roundDown s r :=
        Grid.cellStart_cellStart hn hpos hmul.2 hs
      have hup : roundUp (roundUp e n) r = roundUp e r :=
        Grid.cellEnd_cellEnd hn hpos hmul.2 (hs.trans hse)
      rw [if_neg fun h => hpos.ne' h.1, if_neg hpos.ne', hdown, hup]
      exact Or.inr (Or.inl ⟨hm0, hfit.2, hr, hmul, rfl⟩)

/-! ### Coverage and alignment -/

/-- A single bucket is at most twice as long as the range it is for. -/
theorem normalizeRange_single {s e : ℤ} (i : ℤ) (hs : 0 ≤ s) (hse : s < e) :
    ∃ s' e', normalizeRange s e i 1 = .ok (s', e', e' - s') ∧ s' ≤ s ∧ e ≤ e' ∧
      e' - s' ≤ 2 * (e - s) := by
  have hpos : 0 < e - s := by omega
  refine ⟨roundDown s (e - s), roundUp e (e - s), ?_, roundDown_le hs, le_roundUp hpos, ?_⟩
  · unfold normalizeRange
    rw [if_pos rfl]
    exact if_neg hpos.ne'
  · have hlow : s < roundDown s (e - s) + (e - s) := Grid.lt_cellStart_add hpos
    have hhigh : roundUp e (e - s) < e + (e - s) := Grid.cellEnd_lt_add hpos (by omega)
    -- both ends are multiples of the length of the range, less than three lengths apart
    obtain ⟨k, hk⟩ : e - s ∣ roundUp e (e - s) - roundDown s (e - s) :=
      dvd_sub (Grid.cellEnd_dvd _ e) (Grid.cellStart_dvd _ s)
    have hk3 : (e - s) * k < (e - s) * 3 := by omega
    have hk2 : k ≤ 2 := by
      have := lt_of_mul_lt_mul_left hk3 hpos.le
      omega
    rw [hk, mul_comm 2]
    exact mul_le_mul_of_nonneg_left hk2 hpos.le

/-- **The result covers the request on an aligned grid.** -/
theorem normalizeRange_grid {s e i : ℤ} (m : ℕ) (hs : 0 ≤ s) (hse : s < e) (hi : 0 ≤ i) :
    ∃ s' e' i', normalizeRange s e i m = .ok (s', e', i') ∧ s' ≤ s ∧ e ≤ e' ∧ 0 < i' ∧
      (m = 1 → e' - s' = i' ∧ i' ≤ 2 * (e - s)) ∧
      (m ≠ 1 → i' ∣ s' ∧ i' ∣ e' ∧ nativeInterval i ≤ i' ∧
        (nativeInterval i ∣ i' ∨
          (∀ r ∈ reductions, ¬ IsMultiple (nativeInterval i) r) ∧
            i' = initialSpan s e (nativeInterval i) / m)) := by
  have he : 0 ≤ e := by omega
  by_cases hm : m = 1
  · subst hm
    obtain ⟨s', e', hok, h1, h2, h3⟩ := normalizeRange_single i hs hse
    exact ⟨s', e', e' - s', hok, h1, h2, by omega, fun _ => ⟨rfl, h3⟩, fun h => absurd rfl h⟩
  · have hn : 0 < nativeInterval i := nativeInterval_pos hi
    -- a single rounding to a positive interval is on its grid and covers the range
    have hgrid : ∀ j : ℤ, 0 < j → ∀ u v : ℤ, 0 ≤ u → u ≤ s → e ≤ v →
        roundDown u j ≤ s ∧ e ≤ roundUp v j ∧ j ∣ roundDown u j ∧ j ∣ roundUp v j :=
      fun j hj u v hu hus hev => ⟨(roundDown_le hu).trans hus, hev.trans (le_roundUp hj),
        Grid.cellStart_dvd j u, Grid.cellEnd_dvd j v⟩
    rcases normalizeRange_cases (i := i) hs hse.le hi hm with
      ⟨-, hok⟩ | ⟨-, -, hr, hmul, hok⟩ | ⟨-, -, -, -, hok⟩ | ⟨-, -, hnone, hle, hok⟩
    · obtain ⟨h1, h2, h3, h4⟩ := hgrid _ hn s e hs le_rfl le_rfl
      exact ⟨_, _, _, hok, h1, h2, hn, fun h => absurd h hm,
        fun _ => ⟨h3, h4, le_rfl, Or.inl dvd_rfl⟩⟩
    · obtain ⟨h1, h2, h3, h4⟩ := hgrid _ (hn.trans hmul.1) s e hs le_rfl le_rfl
      exact ⟨_, _, _, hok, h1, h2, hn.trans hmul.1, fun h => absurd h hm,
        fun _ => ⟨h3, h4, hmul.1.le, Or.inl hmul.2⟩⟩
    · obtain ⟨h1, h2, h3, h4⟩ := hgrid _ hn s e hs le_rfl le_rfl
      exact ⟨_, _, _, hok, h1, h2, hn, fun h => absurd h hm,
        fun _ => ⟨h3, h4, le_rfl, Or.inl dvd_rfl⟩⟩
    · have hpos : 0 < initialSpan s e (nativeInterval i) / m := by omega
      obtain ⟨h1, h2, h3, h4⟩ := hgrid _ hpos _ _ (roundDown_nonneg hs) (roundDown_le hs)
        (le_roundUp hn)
      exact ⟨_, _, _, hok, h1, h2, hpos, fun h => absurd h hm,
        fun _ => ⟨h3, h4, by omega, Or.inr ⟨hnone, rfl⟩⟩⟩

/-- Twelve minutes at 10 seconds, in at most 15 samples: the reduction to a minute. -/
theorem normalizeRange_grid_minutes :
    ∃ s' e' i', normalizeRange 1003 1723 10 15 = .ok (s', e', i') ∧ s' ≤ 1003 ∧ 1723 ≤ e' ∧ 0 < i' ∧
      (15 = 1 → e' - s' = i' ∧ i' ≤ 2 * (1723 - 1003)) ∧
      (15 ≠ 1 → i' ∣ s' ∧ i' ∣ e' ∧ nativeInterval 10 ≤ i' ∧
        (nativeInterval 10 ∣ i' ∨ (∀ r ∈ reductions, ¬ IsMultiple (nativeInterval 10) r) ∧
          i' = initialSpan 1003 1723 (nativeInterval 10) / (15 : ℕ))) :=
  normalizeRange_grid 15 (by decide) (by decide) (by decide)

/-! ### The cap -/

/-- The interval is kept because it fits, or reduced through the table. -/
def ThroughTable (startTime endTime interval : ℤ) (maxSamples : ℕ) : Prop :=
  (initialSpan startTime endTime interval).tdiv interval ≤ maxSamples ∨
    ∃ r ∈ reductions, IsMultiple interval r

theorem not_throughTable {s e i : ℤ} {m : ℕ} (hlt : m < (initialSpan s e i).tdiv i)
    (hnone : ∀ r ∈ reductions, ¬ IsMultiple i r) : ¬ ThroughTable s e i m := by
  rintro (h | ⟨r, hr, h⟩)
  · exact absurd hlt (not_lt.2 h)
  · exact hnone r hr h

/-- The reduction the loop accepts keeps the cap: the range is at most `maxSamples` of its intervals
long when it is counted from the interval its start is in. -/
def KeepsCap (startTime endTime interval : ℤ) (maxSamples : ℕ) : Prop :=
  maxSamples ≠ 1 → maxSamples < (initialSpan startTime endTime interval).tdiv interval →
    ∀ r < 86400, FirstFit interval (initialSpan startTime endTime interval) maxSamples r →
      startTime.tmod r + (endTime - startTime) ≤ maxSamples * r

/-- **When the sample cap is kept.** An interval below the largest reduction that fits or comes from
the table gives at most `m` samples if and only if the range keeps the cap on the grid of the first
reduction that fits.  Where the table has no even reduction, the native interval may stay, with more
samples than wanted. -/
theorem normalizeRange_cap_iff {s e i : ℤ} {m : ℕ} (hs : 0 ≤ s) (hse : s < e) (hi : 1 ≤ i)
    (hm : 1 ≤ m) :
    ∃ s' e' i', normalizeRange s e i m = .ok (s', e', i') ∧
      ((i' < 86400 → ThroughTable s e i m → (e' - s').tdiv i' ≤ m) ↔ KeepsCap s e i m) ∧
      (m ≠ 1 → ¬ ThroughTable s e i m → initialSpan s e i / m < i * 2 →
        i' = i ∧ m < (e' - s').tdiv i') := by
  have hn : nativeInterval i = i := if_neg (by omega)
  have he : 0 ≤ e := by omega
  have hipos : 0 < i := by omega
  by_cases hm1 : m = 1
  · subst hm1
    obtain ⟨s', e', hok, h1, h2, -⟩ := normalizeRange_single i hs hse
    refine ⟨s', e', e' - s', hok, ⟨fun _ h => absurd rfl h, fun _ _ _ => ?_⟩, fun h => absurd rfl h⟩
    rw [Int.tdiv_self (by omega)]
    simp
  · have hcases := normalizeRange_cases (i := i) hs hse.le (by omega) hm1
    simp only [hn] at hcases
    rcases hcases with ⟨hfit, hok⟩ | ⟨-, hlt, hr, hmul, hok⟩ | ⟨-, hlt, hnone, -, hok⟩ |
      ⟨-, hlt, hnone, hle, hok⟩
    · have hfit : (initialSpan s e i).tdiv i ≤ m := hfit.resolve_left (by omega)
      exact ⟨_, _, _, hok, ⟨fun _ _ h => absurd hfit (not_le.2 h), fun _ _ _ => hfit⟩,
        fun _ h => absurd (Or.inl hfit) h⟩
    · have hthrough : ThroughTable s e i m := Or.inr ⟨_, hr, hmul⟩
      refine ⟨_, _, _, hok, ?_, fun _ h => absurd hthrough h⟩
      have hcells := Grid.cells_le_iff (t := s) (hipos.trans hmul.1) he m
      constructor
      · intro h _ _ r hday hfirst
        rcases pickReduction_cases i (initialSpan s e i) m with ⟨hnone, -⟩ | h' | ⟨-, -, h'⟩
        · exact absurd hmul (hnone _ hr)
        · rw [h'.unique hfirst] at h hcells
          exact hcells.1 (h hday hthrough)
        · exact absurd hfirst (h' r)
      · intro h hday _
        rcases pickReduction_cases i (initialSpan s e i) m with ⟨hnone, -⟩ | h' | ⟨h', -, -⟩
        · exact absurd hmul (hnone _ hr)
        · exact hcells.2 (h hm1 hlt _ hday h')
        · exact absurd hday (by rw [h']; decide)
    · have hnot := not_throughTable hlt hnone
      exact ⟨_, _, _, hok, ⟨fun _ _ _ r _ h => absurd h.2.1 (hnone r h.1),
        fun _ _ h => absurd h hnot⟩, fun _ _ _ => ⟨rfl, hlt⟩⟩
    · have hnot := not_throughTable hlt hnone
      exact ⟨_, _, _, hok, ⟨fun _ _ _ r _ h => absurd h.2.1 (hnone r h.1),
        fun _ _ h => absurd h hnot⟩, fun _ _ h => absurd h (not_lt.2 hle)⟩

/-- An aligned range keeps the cap. -/
theorem normalizeRange_cap_aligned :
    KeepsCap 1000 2000 10 50 ∧ ∃ s' e' i', normalizeRange 1000 2000 10 50 = .ok (s', e', i') ∧
      ((i' < 86400 → ThroughTable 1000 2000 10 50 → (e' - s').tdiv i' ≤ (50 : ℕ)) ↔
        KeepsCap 1000 2000 10 50) ∧
      (50 ≠ 1 → ¬ ThroughTable 1000 2000 10 50 → initialSpan 1000 2000 10 / (50 : ℕ) < 10 * 2 →
        i' = 10 ∧ (50 : ℕ) < (e' - s').tdiv i') := by
  refine ⟨fun _ _ r _ h => ?_,
    normalizeRange_cap_iff (by decide) (by decide) (by decide) (by decide)⟩
  have h20 : FirstFit 10 (initialSpan 1000 2000 10) 50 20 := by decide +kernel
  rw [h.unique h20]
  decide

/-- Forty seconds from 10 on, in at most two samples: they are three of 20 seconds. -/
theorem normalizeRange_exceeds_cap :
    ¬ ∀ s e i : ℤ, ∀ m : ℕ, 0 ≤ s → s < e → 1 ≤ i → 1 ≤ m → ∀ s' e' i',
      normalizeRange s e i m = .ok (s', e', i') → i' < 86400 → ThroughTable s e i m →
        (e' - s').tdiv i' ≤ m := by
  intro h
  have hok : normalizeRange 10 50 10 2 = .ok (0, 60, 20) := by decide +kernel
  have := h 10 50 10 2 (by decide) (by decide) (by decide) (by decide) 0 60 20 hok (by decide)
    (Or.inr ⟨20, by decide, by decide⟩)
  revert this
  decide

end Istatd
