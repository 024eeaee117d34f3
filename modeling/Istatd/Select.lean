import Istatd.StatCounter
import Istatd.ReadBuckets

/-!
# Range queries (`StatCounter::select`)

A request for the range from `start` to `end` picks a file, rounds the range outwards to a grid that
gives at most the wanted number of samples, and reads the buckets of the rounded range.  A gauge
then keeps the buckets whose time is in the range; a collated counter replaces the others by buckets
of value 0 and count 1.

* `pickStatFile_some`: what is known of a picked file;
* `normalizeRange_ok`: when a range can be rounded, and that the result covers it.
-/

namespace Istatd

open FloatArith

/-! ### Rounding the range -/

/-- `t - (t % interval)`. -/
def roundDown (t interval : ℤ) : ℤ := t - t.tmod interval

/-- `t - overrun + (overrun ? interval : 0)`, where `overrun` is `t % interval`. -/
def roundUp (t interval : ℤ) : ℤ :=
  t - t.tmod interval + if t.tmod interval ≠ 0 then interval else 0

/-- `reductions`. -/
def reductions : List ℤ :=
  [10, 20, 30, 60, 120, 300, 600, 900, 1200, 1800, 3600, 2 * 3600, 3 * 3600, 4 * 3600, 6 * 3600,
    8 * 3600, 12 * 3600, 86400]

/-- The loop over `reductions`: the first multiple of the interval that gives few enough samples, or
else the last multiple. -/
def pickReduction (interval span : ℤ) (maxSamples : ℕ) : List ℤ → ℤ → ℤ
  | [], targetInterval => targetInterval
  | r :: rs, targetInterval =>
    if r ≤ interval then pickReduction interval span maxSamples rs targetInterval
    else if r.tmod interval ≠ 0 then pickReduction interval span maxSamples rs targetInterval
    else if span.tdiv r ≤ maxSamples then r
    else pickReduction interval span maxSamples rs r

/-- `StatCounter::normalizeRange`: the range and the interval after the call. -/
def normalizeRange (startTime endTime interval : ℤ) (maxSamples : ℕ) : Except Fault (ℤ × ℤ × ℤ) :=
  if maxSamples = 1 then
    -- do a single bucket!
    let interval := endTime - startTime
    if interval = 0 then .error .divisionByZero
    else
      let s := roundDown startTime interval
      let e := roundUp endTime interval
      .ok (s, e, e - s)
  else
    let interval := if interval = 0 then 10 else interval
    let s := roundDown startTime interval
    let e := roundUp endTime interval
    if e < s then .error .assertion
    else if maxSamples = 0 ∨ (e - s).tdiv interval ≤ maxSamples then .ok (s, e, interval)
    else
      let reduction := pickReduction interval (e - s) maxSamples reductions 0
      -- without an even reduction the samples are cut at any multiple of a second
      let target := if reduction = 0 then (e - s) / maxSamples else reduction
      if reduction = 0 ∧ target < interval * 2 then .ok (s, e, interval)
      else .ok (roundDown s target, roundUp e target, target)

section Rounding

variable {t i : ℤ}

theorem roundDown_le (ht : 0 ≤ t) : roundDown t i ≤ t := Grid.cellStart_le ht

theorem roundDown_nonneg (ht : 0 ≤ t) : 0 ≤ roundDown t i := Grid.cellStart_nonneg ht

theorem le_roundUp (hi : 0 < i) : t ≤ roundUp t i := by
  have := Int.tmod_lt_of_pos t hi
  unfold roundUp
  split_ifs <;> omega

end Rounding

/-- A reduction is the one found so far or one of the table. -/
theorem pickReduction_mem (interval span : ℤ) (maxSamples : ℕ) (rs : List ℤ) (target : ℤ) :
    pickReduction interval span maxSamples rs target = target ∨
      pickReduction interval span maxSamples rs target ∈ rs := by
  induction rs generalizing target with
  | nil => exact Or.inl rfl
  | cons r rs ih =>
    unfold pickReduction
    split_ifs
    · exact (ih target).imp_right (List.mem_cons_of_mem r)
    · exact (ih target).imp_right (List.mem_cons_of_mem r)
    · exact Or.inr (by simp)
    · rcases ih r with h | h
      · exact Or.inr (by simp [h])
      · exact Or.inr (List.mem_cons_of_mem r h)

theorem pickReduction_nonneg (interval span : ℤ) (maxSamples : ℕ) :
    0 ≤ pickReduction interval span maxSamples reductions 0 := by
  have hpos : ∀ r ∈ reductions, 0 ≤ r := by decide
  rcases pickReduction_mem interval span maxSamples reductions 0 with h | h
  · exact h.ge
  · exact hpos _ h

/-- **A range is rounded outwards**: the call succeeds on every range with a positive interval, but
for the single bucket of an empty range. -/
theorem normalizeRange_ok {s e i : ℤ} (maxSamples : ℕ) (hs : 0 ≤ s) (hse : s ≤ e) (hi : 0 < i)
    (h1 : maxSamples = 1 → s < e) :
    ∃ ns ne i', normalizeRange s e i maxSamples = .ok (ns, ne, i') ∧ 0 ≤ ns ∧ ns ≤ s ∧ e ≤ ne := by
  unfold normalizeRange
  by_cases hone : maxSamples = 1
  · rw [if_pos hone]
    simp only
    rw [if_neg (by have := h1 hone; omega)]
    have hpos : 0 < e - s := by have := h1 hone; omega
    exact ⟨_, _, _, rfl, roundDown_nonneg hs, roundDown_le hs, le_roundUp hpos⟩
  · rw [if_neg hone]
    simp only
    rw [if_neg hi.ne']
    have hs1 : roundDown s i ≤ s := roundDown_le hs
    have hs0 : 0 ≤ roundDown s i := roundDown_nonneg hs
    have he1 : e ≤ roundUp e i := le_roundUp hi
    rw [if_neg (by omega)]
    have hn := pickReduction_nonneg i (roundUp e i - roundDown s i) maxSamples
    generalize pickReduction i (roundUp e i - roundDown s i) maxSamples reductions 0 = r at hn ⊢
    have hreduced : ∀ target, 0 < target → 0 ≤ roundDown (roundDown s i) target ∧
        roundDown (roundDown s i) target ≤ s ∧ e ≤ roundUp (roundUp e i) target :=
      fun target hpos => ⟨roundDown_nonneg hs0, (roundDown_le hs0).trans hs1,
        he1.trans (le_roundUp hpos)⟩
    by_cases h2 : maxSamples = 0 ∨ (roundUp e i - roundDown s i).tdiv i ≤ maxSamples
    · rw [if_pos h2]
      exact ⟨_, _, _, rfl, hs0, hs1, he1⟩
    · rw [if_neg h2]
      by_cases hr : r = 0
      · rw [if_pos hr]
        by_cases hlt : (roundUp e i - roundDown s i) / (maxSamples : ℤ) < i * 2
        · rw [if_pos ⟨hr, hlt⟩]
          exact ⟨_, _, _, rfl, hs0, hs1, he1⟩
        · rw [if_neg fun h => hlt h.2]
          exact ⟨_, _, _, rfl, hreduced _ (by omega)⟩
      · rw [if_neg hr, if_neg fun h => hr h.1]
        exact ⟨_, _, _, rfl, hreduced r (by omega)⟩

/-! ### The picked file -/

variable {D F : Type}

namespace StatCounter

/-- `counters_`. -/
def files (c : StatCounter D F) : List (StatFile D F) := c.fine :: c.coarser

/-- The loop of `pickStatFile`: the file, if any, and the interval last seen. -/
def pickLoop (now startTime : ℤ) : List (StatFile D F) → ℤ → Option (StatFile D F) × ℤ
  | [], interval => (none, interval)
  | sf :: rest, _ =>
    if sf.isBucketIndexInFile now (sf.shape.mapTimeToBucketIndex startTime false) then
      (some sf, sf.shape.cfgInterval)
    else pickLoop now startTime rest sf.shape.cfgInterval

/-- `StatCounter::pickStatFile`: the file, if any, and the interval after the call.  The end time is
only compared with the start time. -/
def pickStatFile (c : StatCounter D F) (now startTime endTime interval : ℤ) :
    Option (StatFile D F) × ℤ :=
  if endTime < startTime then (none, interval)
  else
    match pickLoop now startTime c.files interval with
    | (some sf, interval) => (some sf, interval)
    | (none, interval) =>
      (none, if c.fine.header.lastTime < startTime then c.fine.shape.cfgInterval else interval)

theorem pickLoop_some {now s i i' : ℤ} {fs : List (StatFile D F)} {sf : StatFile D F}
    (h : pickLoop now s fs i = (some sf, i')) :
    sf ∈ fs ∧ i' = sf.shape.cfgInterval ∧
      sf.isBucketIndexInFile now (sf.shape.mapTimeToBucketIndex s false) = true := by
  induction fs generalizing i with
  | nil => cases h
  | cons f fs ih =>
    unfold pickLoop at h
    split_ifs at h with hin
    · cases h
      exact ⟨by simp, rfl, hin⟩
    · obtain ⟨hmem, hrest⟩ := ih h
      exact ⟨List.mem_cons_of_mem f hmem, hrest⟩

/-- A picked file is one of the counter's, and the start of the request is in it. -/
theorem pickStatFile_some {c : StatCounter D F} {now s e i i' : ℤ} {sf : StatFile D F}
    (h : c.pickStatFile now s e i = (some sf, i')) :
    sf ∈ c.files ∧ i' = sf.shape.cfgInterval ∧
      sf.isBucketIndexInFile now (sf.shape.mapTimeToBucketIndex s false) = true := by
  unfold pickStatFile at h
  by_cases hse : e < s
  · rw [if_pos hse] at h
    cases h
  · rw [if_neg hse] at h
    split at h
    · rename_i sf' i'' hloop
      cases h
      exact pickLoop_some hloop
    · cases h

/-- A request whose start is in the finest file gets that file. -/
theorem pickStatFile_of_fine {c : StatCounter D F} {now s e : ℤ} (i : ℤ) (hse : s ≤ e)
    (h : c.fine.isBucketIndexInFile now (c.fine.shape.mapTimeToBucketIndex s false) = true) :
    c.pickStatFile now s e i = (some c.fine, c.fine.shape.cfgInterval) := by
  unfold pickStatFile files pickLoop
  rw [if_neg (not_lt.2 hse), if_pos h]

/-! ### The buckets of the range -/

/-- The loop of `readBucketsFromFile` for collated counters: a bucket outside the range is replaced
by one of value 0 and count 1, at the time after the one before. -/
def fillGaps [FloatArith D F] (interval startTime endTime : ℤ) :
    ℤ → List (Bucket D F) → List (Bucket D F)
  | _, [] => []
  | firstTime, b :: bs =>
    if startTime ≤ b.time ∧ b.time < endTime then
      -- this is an actual sample
      b :: fillGaps interval startTime endTime (b.time + interval) bs
    else
      Bucket.blank 1 firstTime :: fillGaps interval startTime endTime (firstTime + interval) bs

/-- `StatCounter::readBucketsFromFile`.  The count is an `int`. -/
def readBucketsFromFile [FloatArith D F] (c : StatCounter D F) (now : ℤ) (sf : StatFile D F)
    (startTime endTime : ℤ) : List (Bucket D F) :=
  let startIndex := sf.shape.mapTimeToBucketIndex startTime false
  let count := toInt32 (sf.numBucketsBetween startTime endTime false)
  if 0 < count then
    let buckets := sf.readBuckets now count startIndex
    if c.isCollated then fillGaps sf.shape.cfgInterval startTime endTime startTime buckets
    else buckets.filter fun b => ¬ (b.time < startTime ∨ endTime < b.time)
  else []

end StatCounter

end Istatd
