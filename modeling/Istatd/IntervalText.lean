import Istatd.Intervals

/-!
# The text of an interval (`seconds_to_interval`)

The units are printed from the longest to the shortest.  What is subtracted for a unit is the number
that is printed, and not the seconds of it, so that they are counted again in the shorter units.

* `greedy`: the terms that are printed;
* `totalSeconds_greedy`: their sum, with the `excess` that is counted more than once;
* `secondsToInterval_roundTrip_iff`: when a number is read back.
-/

namespace Istatd

open Decimal

/-! ### `seconds_to_interval` -/

/-- The loop over the table that computes `size`. -/
def sumpSize : ℕ → ℤ → ℤ
  | 0, size => size
  | i + 1, size => sumpSize i (size * (intervals.getD (i + 1) ⟨1, []⟩).size)

/-- The loop over the units, of which `i` are left. -/
def printFrom : ℕ → ℤ → Bytes → Bytes
  | 0, _, ret => ret
  | i + 1, secs, ret =>
    let size := sumpSize i 1
    if size ≤ secs then
      let n := (secs.tdiv size).toNat
      printFrom i (secs - n) (ret ++ (text n ++ (intervals.getD i ⟨1, []⟩).str))
    else printFrom i secs ret

/-- `seconds_to_interval`. -/
def secondsToInterval (secs : ℤ) : Bytes :=
  let rstr := printFrom intervals.length secs []
  if rstr = [] then bytes "0s" else rstr

/-! ### The terms -/

/-- The unit at a position of the table. -/
def TimeUnit.ofIndex : ℕ → TimeUnit
  | 0 => second
  | 1 => minute
  | 2 => hour
  | 3 => day
  | _ => year

theorem TimeUnit.seconds_pos (u : TimeUnit) : 0 < u.seconds := by
  cases u <;> decide

theorem sumpSize_eq {i : ℕ} (h : i < intervals.length) :
    sumpSize i 1 = (TimeUnit.ofIndex i).seconds := by
  change i < 5 at h
  interval_cases i <;> rfl

theorem str_eq {i : ℕ} (h : i < intervals.length) :
    (intervals.getD i ⟨1, []⟩).str = [(TimeUnit.ofIndex i).char] := by
  change i < 5 at h
  interval_cases i <;> rfl

/-- The terms that are printed, if `i` units are left. -/
def greedy : ℕ → ℕ → List Term
  | 0, _ => []
  | i + 1, s =>
    (if (TimeUnit.ofIndex i).seconds ≤ s then
      [(text (s / (TimeUnit.ofIndex i).seconds), TimeUnit.ofIndex i)] else []) ++
      greedy i (s - s / (TimeUnit.ofIndex i).seconds)

theorem printFrom_eq {i : ℕ} (hi : i ≤ intervals.length) (s : ℕ) (ret : Bytes) :
    printFrom i s ret = ret ++ (greedy i s).flatMap Term.text := by
  induction i generalizing s ret with
  | zero => simp [printFrom, greedy]
  | succ i ih =>
    have hpos := (TimeUnit.ofIndex i).seconds_pos
    rw [printFrom, greedy, sumpSize_eq hi, str_eq hi]
    simp only
    by_cases hle : (TimeUnit.ofIndex i).seconds ≤ s
    · have hdiv : ((s : ℤ).tdiv ((TimeUnit.ofIndex i).seconds : ℤ)).toNat =
          s / (TimeUnit.ofIndex i).seconds := by
        rw [← Int.ofNat_tdiv]
        exact Int.toNat_natCast _
      have hsub : (s : ℤ) - (s / (TimeUnit.ofIndex i).seconds : ℕ) =
          ((s - s / (TimeUnit.ofIndex i).seconds : ℕ) : ℤ) :=
        (Nat.cast_sub (Nat.div_le_self _ _)).symm
      rw [if_pos (by exact_mod_cast hle), if_pos hle, hdiv, hsub, ih (by omega),
        List.append_assoc, List.flatMap_append, List.flatMap_singleton]
      rfl
    · have hdiv : s / (TimeUnit.ofIndex i).seconds = 0 := Nat.div_eq_of_lt (by omega)
      rw [if_neg (by exact_mod_cast hle), if_neg hle, ih (by omega), hdiv, List.nil_append,
        Nat.sub_zero]

/-- The numbers that are printed fit in a `time_t`. -/
theorem valid_of_mem_greedy {i s : ℕ} (hs : s < 2 ^ 63) : ∀ t ∈ greedy i s, t.Valid := by
  induction i generalizing s with
  | zero => exact nofun
  | succ i ih =>
    intro t ht
    rw [greedy, List.mem_append] at ht
    rcases ht with ht | ht
    · split_ifs at ht
      · rw [List.mem_singleton.1 ht]
        refine ⟨text_ne_nil _, fun c hc => isDigit_of_mem_text hc, ?_⟩
        rw [value_text]
        exact lt_of_le_of_lt (Nat.div_le_self _ _) hs
      · cases ht
    · exact ih (lt_of_le_of_lt (Nat.sub_le _ _) hs) t ht

/-! ### The sum of the terms -/

/-- The seconds that are counted more than once. -/
def excess : ℕ → ℕ → ℕ
  | 0, _ => 0
  | i + 1, s =>
    s / (TimeUnit.ofIndex i).seconds * ((TimeUnit.ofIndex i).seconds - 1) +
      excess i (s - s / (TimeUnit.ofIndex i).seconds)

theorem excess_succ (i s : ℕ) :
    excess (i + 1) s =
      s / (TimeUnit.ofIndex i).seconds * ((TimeUnit.ofIndex i).seconds - 1) +
        excess i (s - s / (TimeUnit.ofIndex i).seconds) := rfl

theorem totalSeconds_append (l l' : List Term) :
    totalSeconds (l ++ l') = totalSeconds l + totalSeconds l' := by
  simp [totalSeconds]

/-- The first term, if there is one for the unit. -/
theorem totalSeconds_first (u : TimeUnit) (s : ℕ) :
    totalSeconds (if u.seconds ≤ s then [(text (s / u.seconds), u)] else []) =
      s / u.seconds * u.seconds := by
  split_ifs with h
  · simp [totalSeconds, Term.seconds, value_text]
  · rw [Nat.div_eq_of_lt (by omega)]
    simp [totalSeconds]

/-- **The sum of the terms.** -/
theorem totalSeconds_greedy (i s : ℕ) :
    totalSeconds (greedy (i + 1) s) = s + excess (i + 1) s := by
  induction i generalizing s with
  | zero =>
    rw [greedy, totalSeconds_append, totalSeconds_first]
    simp [greedy, excess, totalSeconds, TimeUnit.ofIndex, TimeUnit.seconds]
  | succ i ih =>
    have hle := Nat.div_le_self s (TimeUnit.ofIndex (i + 1)).seconds
    have hmul : s / (TimeUnit.ofIndex (i + 1)).seconds * (TimeUnit.ofIndex (i + 1)).seconds =
        s / (TimeUnit.ofIndex (i + 1)).seconds +
          s / (TimeUnit.ofIndex (i + 1)).seconds * ((TimeUnit.ofIndex (i + 1)).seconds - 1) := by
      obtain ⟨z, hz⟩ := Nat.exists_eq_succ_of_ne_zero (TimeUnit.ofIndex (i + 1)).seconds_pos.ne'
      rw [hz, Nat.succ_sub_one, Nat.mul_succ, Nat.add_comm]
    rw [greedy, totalSeconds_append, totalSeconds_first, ih, excess_succ (i + 1), hmul]
    omega

theorem sub_div_mono (z : ℕ) : Monotone fun s : ℕ => s - s / z := by
  refine monotone_nat_of_le_succ fun s => ?_
  have hle := Nat.div_le_self s z
  simp only [Nat.succ_div]
  split_ifs <;> omega

theorem excess_mono (i : ℕ) : Monotone (excess i) := by
  induction i with
  | zero => exact monotone_const
  | succ i ih =>
    intro s t hst
    exact Nat.add_le_add (Nat.mul_le_mul_right _ (Nat.div_le_div_right hst))
      (ih (sub_div_mono _ hst))

/-- A unit counts no more than all seconds again, and the shortest none. -/
theorem excess_le (i s : ℕ) : excess (i + 1) s ≤ i * s := by
  induction i generalizing s with
  | zero => simp [excess, TimeUnit.ofIndex, TimeUnit.seconds]
  | succ i ih =>
    have hfirst : s / (TimeUnit.ofIndex (i + 1)).seconds *
        ((TimeUnit.ofIndex (i + 1)).seconds - 1) ≤ s :=
      (Nat.mul_le_mul_left _ (Nat.sub_le _ _)).trans (Nat.div_mul_le_self _ _)
    have hrest := (ih (s - s / (TimeUnit.ofIndex (i + 1)).seconds)).trans
      (Nat.mul_le_mul_left i (Nat.sub_le _ _))
    rw [excess_succ, Nat.succ_mul]
    omega

/-! ### Reading back -/

theorem excess_eq_zero_iff (s : ℕ) : excess 5 s = 0 ↔ s < 60 := by
  constructor
  · intro h
    by_contra! hge
    have hmono := excess_mono 5 hge
    have h60 : excess 5 60 = 59 := by decide
    omega
  · intro h
    have hmono := excess_mono 5 (Nat.le_of_lt_succ h : s ≤ 59)
    have h59 : excess 5 59 = 0 := by decide
    omega

/-- The excess is no multiple of the range of a `time_t`. -/
theorem excess_ne (s : ℕ) : excess 5 s ≠ 2 ^ 64 := by
  intro h
  rcases Nat.lt_or_ge s 4631662659501766671 with hlt | hge
  · have hmono := excess_mono 5 (Nat.le_of_lt_succ hlt : s ≤ 4631662659501766670)
    have hvalue : excess 5 4631662659501766670 < 2 ^ 64 := by decide
    omega
  · have hmono := excess_mono 5 hge
    have hvalue : 2 ^ 64 < excess 5 4631662659501766671 := by decide
    omega

/-- The terms of the text. -/
def printed (s : ℕ) : List Term :=
  if greedy 5 s = [] then [(bytes "0", .second)] else greedy 5 s

theorem isInterval_secondsToInterval {s : ℕ} (hs : s < 2 ^ 63) :
    IsInterval (secondsToInterval s) (printed s) := by
  have htext : secondsToInterval s =
      if (greedy 5 s).flatMap Term.text = [] then bytes "0s" else (greedy 5 s).flatMap Term.text := by
    unfold secondsToInterval
    rw [printFrom_eq le_rfl, List.nil_append]
    rfl
  have hempty : (greedy 5 s).flatMap Term.text = [] ↔ greedy 5 s = [] := by
    rw [List.flatMap_eq_nil_iff]
    refine ⟨fun h => List.eq_nil_iff_forall_not_mem.2 fun t ht => ?_, fun h => by simp [h]⟩
    simpa [Term.text] using h t ht
  unfold printed
  by_cases hnil : greedy 5 s = []
  · rw [htext, if_pos (hempty.2 hnil), if_pos hnil]
    refine ⟨by simp, ?_, by decide⟩
    simp only [List.forall_mem_singleton, Term.Valid]
    decide +kernel
  · rw [htext, if_neg (mt hempty.1 hnil), if_neg hnil]
    exact ⟨hnil, valid_of_mem_greedy hs, rfl⟩

theorem totalSeconds_printed (s : ℕ) : totalSeconds (printed s) = s + excess 5 s := by
  have htotal := totalSeconds_greedy 4 s
  unfold printed
  by_cases hnil : greedy 5 s = []
  · rw [hnil] at htotal
    rw [if_pos hnil, ← htotal]
    decide
  · rw [if_neg hnil, htotal]

/-- **When a number of seconds is read back from its text**: if it is below a minute. -/
theorem secondsToInterval_roundTrip_iff {lexicalCast : Bytes → Option ℤ}
    (hcast : ReadsDigits lexicalCast) {secs : ℤ} (h0 : 0 ≤ secs) (h : secs < 2 ^ 63) :
    intervalToSeconds lexicalCast (secondsToInterval secs) = .ok secs ↔ secs < 60 := by
  obtain ⟨s, rfl⟩ := Int.eq_ofNat_of_zero_le h0
  have hs : s < 2 ^ 63 := by exact_mod_cast h
  rw [intervalToSeconds_of_isInterval hcast (isInterval_secondsToInterval hs), totalSeconds_printed]
  have hle : excess 5 s ≤ 4 * s := excess_le 4 s
  have hne := excess_ne s
  have hwrap : wrapTime ((s + excess 5 s : ℕ) : ℤ) = s ↔ excess 5 s = 0 := by
    unfold wrapTime
    constructor
    · intro hw
      have hdvd : (2 ^ 64 : ℤ) ∣ (excess 5 s : ℤ) := by
        simpa using Int.dvd_self_sub_of_bmod_eq hw
      omega
    · intro hz
      rw [hz]
      exact wrapTime_of_bounds h0 h
  rw [Except.ok.injEq, hwrap, excess_eq_zero_iff]
  exact_mod_cast Iff.rfl

/-- Half a minute. -/
theorem secondsToInterval_roundTrip_sample :
    (ReadsDigits sampleTime ∧ (0 : ℤ) ≤ 30 ∧ (30 : ℤ) < 2 ^ 63) ∧
      intervalToSeconds sampleTime (secondsToInterval 30) = .ok 30 := by
  have h0 : (0 : ℤ) ≤ 30 := by decide
  have h : (30 : ℤ) < 2 ^ 63 := by decide
  exact ⟨⟨readsDigits_sampleTime, h0, h⟩,
    (secondsToInterval_roundTrip_iff readsDigits_sampleTime h0 h).2 (by decide)⟩

/-- A minute and a second are printed as `1m60s`. -/
theorem secondsToInterval_not_roundTrip :
    ¬ ∀ secs : ℤ, 0 ≤ secs → secs < 2 ^ 63 →
      intervalToSeconds sampleTime (secondsToInterval secs) = .ok secs := by
  intro h
  have h61 := h 61 (by decide) (by decide)
  have hvalue : intervalToSeconds sampleTime (secondsToInterval 61) = .ok 120 := by decide +kernel
  rw [hvalue] at h61
  cases h61

end Istatd
