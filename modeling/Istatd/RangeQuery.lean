import Istatd.GaugeSelect

/-!
# Range queries from the request to the buckets

A range query comes in as the parameters of a counter page (`generateCounterData`) or in the body of
a multiget (`on_multigetBody`); both check the range and pass it to `StatCounter::select`.  The
functions here are those of `Istatd.Select` with every division checked, so that a division by zero
is an outcome of its own.

* `normalizeRangeChecked_eq`: `normalizeRange` divides by zero for the single bucket of an empty
  range only;
* `select_divides_iff`: the same for the whole of `select`;
* `rangeQuery_safe_iff`: which of the accepted requests do not divide by zero.
-/

namespace Istatd

/-! ### Checked divisions -/

/-- `a / b`. -/
def checkedDiv (a b : ℤ) : Except Fault ℤ :=
  if b = 0 then .error .divisionByZero else .ok (a.tdiv b)

/-- `a % b`. -/
def checkedMod (a b : ℤ) : Except Fault ℤ :=
  if b = 0 then .error .divisionByZero else .ok (a.tmod b)

/-- `t - (t % interval)`. -/
def roundDownChecked (t interval : ℤ) : Except Fault ℤ := do
  let overrun ← checkedMod t interval
  return t - overrun

/-- `t - overrun + (overrun ? interval : 0)`, where `overrun` is `t % interval`. -/
def roundUpChecked (t interval : ℤ) : Except Fault ℤ := do
  let overrun ← checkedMod t interval
  return t - overrun + if overrun ≠ 0 then interval else 0

/-- The loop over `reductions`. -/
def pickReductionChecked (interval span : ℤ) (maxSamples : ℕ) : List ℤ → ℤ → Except Fault ℤ
  | [], targetInterval => .ok targetInterval
  | r :: rs, targetInterval =>
    if r ≤ interval then pickReductionChecked interval span maxSamples rs targetInterval
    else do
      let rest ← checkedMod r interval
      if rest ≠ 0 then pickReductionChecked interval span maxSamples rs targetInterval
      else
        let samples ← checkedDiv span r
        if samples ≤ maxSamples then return r
        else pickReductionChecked interval span maxSamples rs r

/-- The part of `normalizeRange` after its first rounding. -/
def reduceRangeChecked (startTime endTime interval : ℤ) (maxSamples : ℕ) :
    Except Fault (ℤ × ℤ × ℤ) := do
  let reduction ← pickReductionChecked interval (endTime - startTime) maxSamples reductions 0
  let target ← if reduction = 0 then checkedDiv (endTime - startTime) maxSamples else .ok reduction
  if reduction = 0 ∧ target < interval * 2 then return (startTime, endTime, interval)
  else
    let s ← roundDownChecked startTime target
    let e ← roundUpChecked endTime target
    return (s, e, target)

/-- `StatCounter::normalizeRange`. -/
def normalizeRangeChecked (startTime endTime interval : ℤ) (maxSamples : ℕ) :
    Except Fault (ℤ × ℤ × ℤ) :=
  if maxSamples = 1 then do
    let interval := endTime - startTime
    let s ← roundDownChecked startTime interval
    let e ← roundUpChecked endTime interval
    return (s, e, e - s)
  else do
    let interval := if interval = 0 then 10 else interval
    let s ← roundDownChecked startTime interval
    let e ← roundUpChecked endTime interval
    if e < s then throw .assertion
    else if maxSamples = 0 then return (s, e, interval)
    else
      let samples ← checkedDiv (e - s) interval
      if samples ≤ maxSamples then return (s, e, interval)
      else reduceRangeChecked s e interval maxSamples

section Checked

variable {t i : ℤ}

theorem checkedMod_ok (h : i ≠ 0) : checkedMod t i = .ok (t.tmod i) := if_neg h

theorem checkedDiv_ok (h : i ≠ 0) : checkedDiv t i = .ok (t.tdiv i) := if_neg h

theorem roundDownChecked_ok (h : i ≠ 0) : roundDownChecked t i = .ok (roundDown t i) := by
  unfold roundDownChecked
  rw [checkedMod_ok h]
  rfl

theorem roundUpChecked_ok (h : i ≠ 0) : roundUpChecked t i = .ok (roundUp t i) := by
  unfold roundUpChecked
  rw [checkedMod_ok h]
  rfl

end Checked

/-- No division of the loop is by zero. -/
theorem pickReductionChecked_eq {i : ℤ} (hi : i ≠ 0) (span : ℤ) (m : ℕ) (rs : List ℤ)
    (hrs : ∀ r ∈ rs, r ≠ 0) (target : ℤ) :
    pickReductionChecked i span m rs target = .ok (pickReduction i span m rs target) := by
  induction rs generalizing target with
  | nil => rfl
  | cons r rs ih =>
    have ih := ih fun r' hr' => hrs r' (List.mem_cons_of_mem r hr')
    unfold pickReductionChecked pickReduction
    by_cases h1 : r ≤ i
    · rw [if_pos h1, if_pos h1, ih]
    · rw [if_neg h1, if_neg h1, checkedMod_ok hi]
      simp only [bind, Except.bind]
      by_cases h2 : r.tmod i ≠ 0
      · rw [if_pos h2, if_pos h2, ih]
      · rw [if_neg h2, if_neg h2, checkedDiv_ok (hrs r (by simp))]
        simp only
        by_cases h3 : span.tdiv r ≤ m
        · rw [if_pos h3, if_pos h3]
          rfl
        · rw [if_neg h3, if_neg h3, ih]

theorem reductions_ne_zero : ∀ r ∈ reductions, r ≠ 0 := by decide

/-- After the first rounding a division is by the interval, the number of samples, an entry of the
table, or a quotient that is at least twice the interval. -/
theorem reduceRangeChecked_eq {s e i : ℤ} {m : ℕ} (hi : 0 < i) (hm : m ≠ 0) (hse : s ≤ e) :
    reduceRangeChecked s e i m =
      let reduction := pickReduction i (e - s) m reductions 0
      let target := if reduction = 0 then (e - s) / m else reduction
      if reduction = 0 ∧ target < i * 2 then .ok (s, e, i)
      else .ok (roundDown s target, roundUp e target, target) := by
  unfold reduceRangeChecked
  rw [pickReductionChecked_eq hi.ne' _ m reductions reductions_ne_zero]
  simp only [bind, Except.bind]
  generalize pickReduction i (e - s) m reductions 0 = r
  by_cases hr : r = 0
  · rw [if_pos hr, if_pos hr, checkedDiv_ok (by exact_mod_cast hm),
      Int.tdiv_eq_ediv_of_nonneg (by omega)]
    simp only
    by_cases hlt : (e - s) / (m : ℤ) < i * 2
    · rw [if_pos ⟨hr, hlt⟩, if_pos ⟨hr, hlt⟩]
      rfl
    · have htarget : (e - s) / (m : ℤ) ≠ 0 := by omega
      rw [if_neg fun h => hlt h.2, if_neg fun h => hlt h.2, roundDownChecked_ok htarget,
        roundUpChecked_ok htarget]
      rfl
  · rw [if_neg hr, if_neg hr, if_neg fun h => hr h.1, if_neg fun h => hr h.1,
      roundDownChecked_ok hr, roundUpChecked_ok hr]
    rfl

/-- **The function with checked divisions is the one without**, for every interval a file can have:
the single bucket of an empty range is the only division by zero. -/
theorem normalizeRangeChecked_eq {s e i : ℤ} (m : ℕ) (hi : 0 ≤ i) :
    normalizeRangeChecked s e i m = normalizeRange s e i m := by
  unfold normalizeRangeChecked normalizeRange
  by_cases hm : m = 1
  · rw [if_pos hm, if_pos hm]
    simp only
    by_cases he : e - s = 0
    · rw [he, if_pos rfl]
      rfl
    · rw [if_neg he, roundDownChecked_ok he, roundUpChecked_ok he]
      rfl
  · rw [if_neg hm, if_neg hm]
    simp only
    have hn : 0 < (if i = 0 then 10 else i) := by split_ifs <;> omega
    generalize (if i = 0 then 10 else i) = n at hn ⊢
    rw [roundDownChecked_ok hn.ne', roundUpChecked_ok hn.ne']
    simp only [bind, Except.bind]
    by_cases hlt : roundUp e n < roundDown s n
    · rw [if_pos hlt, if_pos hlt]
      rfl
    · rw [if_neg hlt, if_neg hlt]
      by_cases hm0 : m = 0
      · rw [if_pos hm0, if_pos (Or.inl hm0)]
        rfl
      · rw [if_neg hm0, checkedDiv_ok hn.ne']
        simp only
        by_cases hfit : (roundUp e n - roundDown s n).tdiv n ≤ m
        · rw [if_pos hfit, if_pos (Or.inr hfit)]
          rfl
        · rw [if_neg hfit, if_neg (by simp [hm0, hfit])]
          exact reduceRangeChecked_eq hn hm0 (not_lt.1 hlt)

/-- A range from its start on is rounded, but for the single bucket of an empty range. -/
theorem normalizeRangeChecked_ok {s e i : ℤ} {m : ℕ} (hi : 0 ≤ i) (hse : s ≤ e)
    (h1 : m = 1 → s ≠ e) : ∃ r, normalizeRangeChecked s e i m = .ok r := by
  rw [normalizeRangeChecked_eq m hi]
  unfold normalizeRange
  by_cases hm : m = 1
  · have he : e - s ≠ 0 := fun h => h1 hm (by omega)
    rw [if_pos hm]
    exact ⟨_, if_neg he⟩
  · rw [if_neg hm]
    simp only
    have hn : 0 < (if i = 0 then 10 else i) := by split_ifs <;> omega
    generalize (if i = 0 then 10 else i) = n at hn ⊢
    have hle : roundDown s n ≤ roundUp e n := by
      -- the end is rounded up from the start's cell or from a later one
      have hmono : Grid.cellStart n s ≤ Grid.cellStart n e := Grid.cellStart_mono hn hse
      have hup : Grid.cellStart n e ≤ roundUp e n := by
        unfold Grid.cellStart roundUp
        split_ifs <;> omega
      exact hmono.trans hup
    rw [if_neg (not_lt.2 hle)]
    split_ifs <;> exact ⟨_, rfl⟩

theorem normalizeRangeChecked_empty (s i : ℤ) :
    normalizeRangeChecked s s i 1 = .error .divisionByZero := by
  unfold normalizeRangeChecked
  rw [if_pos rfl, sub_self]
  rfl

/-! ### Trailing files -/

namespace StatCounter

variable {D F : Type}

/-- The loop of `pickTrailingStatFile`: the file, if any, the interval and the season last seen. -/
def pickTrailingLoop (season : ℤ) : List (StatFile D F) → ℤ → ℤ → Option (StatFile D F) × ℤ × ℤ
  | [], interval, seen => (none, interval, seen)
  | sf :: rest, interval, seen =>
    if sf.shape.isTrailing then
      -- the season asked for is compared as an unsigned number
      if (sf.shape.season : ℤ) < season % 2 ^ 64 then
        pickTrailingLoop season rest sf.shape.cfgInterval sf.shape.season
      else (some sf, sf.shape.cfgInterval, sf.shape.season)
    else pickTrailingLoop season rest interval seen

/-- `StatCounter::pickTrailingStatFile`. -/
def pickTrailingStatFile (c : StatCounter D F) (season : ℤ) : Option (StatFile D F) × ℤ × ℤ :=
  pickTrailingLoop season c.files 0 0

theorem pickTrailingLoop_nonneg (season : ℤ) (fs : List (StatFile D F)) {i : ℤ} (hi : 0 ≤ i)
    (seen : ℤ) : 0 ≤ (pickTrailingLoop season fs i seen).2.1 := by
  induction fs generalizing i seen with
  | nil => exact hi
  | cons sf fs ih =>
    unfold pickTrailingLoop
    split_ifs
    · exact ih sf.shape.cfgInterval_pos.le _
    · exact sf.shape.cfgInterval_pos.le
    · exact ih hi seen

theorem pickLoop_interval_pos (now s : ℤ) (fs : List (StatFile D F)) {i : ℤ}
    (h : 0 < i ∨ fs ≠ []) : 0 < (pickLoop now s fs i).2 := by
  induction fs generalizing i with
  | nil => exact h.resolve_right (by simp)
  | cons sf fs ih =>
    unfold pickLoop
    split_ifs
    · exact sf.shape.cfgInterval_pos
    · exact ih (Or.inl sf.shape.cfgInterval_pos)

/-- The interval after `pickStatFile` is that of a file. -/
theorem pickStatFile_interval_pos (c : StatCounter D F) {now s e : ℤ} (i : ℤ) (hse : s ≤ e) :
    0 < (c.pickStatFile now s e i).2 := by
  have hpos := pickLoop_interval_pos now s c.files (i := i) (Or.inr (List.cons_ne_nil _ _))
  unfold pickStatFile
  rw [if_neg (not_lt.2 hse)]
  revert hpos
  cases hl : pickLoop now s c.files i with
  | mk sf j =>
    intro hpos
    cases sf with
    | some sf => exact hpos
    | none =>
      simp only
      split_ifs
      · exact c.fine.shape.cfgInterval_pos
      · exact hpos

/-! ### Reducing the buckets -/

section Reduce

variable [FloatArith D F]

/-- `appendReduced`: the bucket that is appended. -/
def appendReduced (reduction : Bucket D F) (currentTime collatedBucketCount : ℤ) : Bucket D F :=
  if collatedBucketCount ≠ 0 then
    -- force the minimum to be 0 if any buckets were skipped
    let reduction :=
      if reduction.count < collatedBucketCount then reduction.update (Bucket.blank 0 currentTime)
      else reduction
    reduction.setCount collatedBucketCount
  else reduction

/-- The inner loop of `reduce`: the current and the next time, for at most `ddn` rounds. -/
def advanceTo (time reducedInterval : ℤ) : ℕ → ℤ × ℤ → ℤ × ℤ
  | 0, p => p
  | ddn + 1, (currentTime, nextTime) =>
    if nextTime ≤ time then
      advanceTo time reducedInterval ddn (nextTime, nextTime + reducedInterval)
    else (currentTime, nextTime)

/-- The variables of the loop of `reduce`. -/
structure Reduction (D F : Type) where
  result : List (Bucket D F)
  reduction : Bucket D F
  currentTime : ℤ
  nextTime : ℤ

/-- The body of the loop of `reduce`. -/
def reduceOne (reducedInterval collatedBucketCount : ℤ) (r : Reduction D F) (bucket : Bucket D F) :
    Reduction D F :=
  let r :=
    if r.nextTime ≤ bucket.time then
      let times := advanceTo bucket.time reducedInterval 10000000 (r.currentTime, r.nextTime)
      { result := r.result ++ [appendReduced r.reduction r.currentTime collatedBucketCount]
        reduction := Bucket.zero
        currentTime := times.1
        nextTime := times.2 }
    else r
  if r.reduction.count = 0 then { r with reduction := bucket.withTime r.currentTime }
  else { r with reduction := r.reduction.update bucket }

/-- `StatCounter::reduce`. -/
def reduce (buckets : List (Bucket D F)) (startTime reducedInterval collatedBucketCount : ℤ) :
    List (Bucket D F) :=
  let r := buckets.foldl (reduceOne reducedInterval collatedBucketCount)
    ⟨[], Bucket.zero, startTime, startTime + reducedInterval⟩
  if 0 < r.reduction.time then
    r.result ++ [appendReduced r.reduction r.currentTime collatedBucketCount]
  else r.result

/-! ### The query -/

/-- The buckets and the range that `select` returns. -/
structure Selection (D F : Type) where
  buckets : List (Bucket D F)
  normalizedStart : ℤ
  normalizedEnd : ℤ
  interval : ℤ

/-- The range of a query after the defaults of `select`. -/
def defaultRange (now startTime endTime : ℤ) : ℤ × ℤ :=
  if endTime = 0 ∧ startTime = 0 then (now - 900, now)
  else if endTime = 0 then (startTime, startTime + 900)
  else if startTime = 0 then (endTime - 900, endTime)
  else (startTime, endTime)

/-- The samples a collated counter has in a reduced bucket; 0 for a gauge. -/
def collatedBucketCount (c : StatCounter D F) (sf : StatFile D F) (interval : ℤ) :
    Except Fault ℤ :=
  if c.isCollated then do
    let multiplier := if sf.shape.isCounterAggregate then sf.shape.fixedCount else 1
    let buckets ← checkedDiv interval sf.shape.cfgInterval
    return toInt32 (buckets * multiplier)
  else .ok 0

/-- The file `select` reads, if any, and its interval. -/
def pickFile (c : StatCounter D F) (now startTime endTime : ℤ) (trailing : Bool) (interval : ℤ) :
    Option (StatFile D F) × ℤ :=
  if trailing then
    let p := c.pickTrailingStatFile (now - startTime)
    (p.1, p.2.1)
  else c.pickStatFile now startTime endTime interval

/-- `StatCounter::select`; `none` where it returns without setting the range. -/
def select (c : StatCounter D F) (now startTime endTime : ℤ) (trailing : Bool) (interval : ℤ)
    (maxSamples : ℕ) : Except Fault (Option (Selection D F)) :=
  let range := defaultRange now startTime endTime
  if range.2 < range.1 then .ok none
  else do
    let picked := c.pickFile now range.1 range.2 trailing interval
    let (s, e, interval) ← normalizeRangeChecked range.1 range.2 picked.2 maxSamples
    match picked.1 with
    | none => return some ⟨[], s, e, interval⟩
    | some sf =>
      let buckets := c.readBucketsFromFile now sf s e
      if sf.shape.cfgInterval < interval then
        let count ← c.collatedBucketCount sf interval
        return some ⟨reduce buckets s interval count, s, e, interval⟩
      else return some ⟨buckets, s, e, interval⟩

omit [FloatArith D F] in
theorem collatedBucketCount_ok (c : StatCounter D F) (sf : StatFile D F) (interval : ℤ) :
    ∃ n, c.collatedBucketCount sf interval = .ok n := by
  unfold collatedBucketCount
  by_cases h : c.isCollated = true
  · rw [if_pos h, checkedDiv_ok sf.shape.cfgInterval_pos.ne']
    exact ⟨_, rfl⟩
  · exact ⟨0, if_neg h⟩

omit [FloatArith D F] in
theorem pickFile_interval_nonneg (c : StatCounter D F) {now s e : ℤ} (trailing : Bool) (i : ℤ)
    (hse : s ≤ e) : 0 ≤ (c.pickFile now s e trailing i).2 := by
  unfold pickFile
  split_ifs
  · exact pickTrailingLoop_nonneg _ _ le_rfl _
  · exact (c.pickStatFile_interval_pos i hse).le

/-- A query for a range that is not reversed has an answer, but for the single bucket of an empty
range. -/
theorem select_ok (c : StatCounter D F) {now startTime endTime : ℤ} (trailing : Bool)
    (interval : ℤ) {m : ℕ}
    (hle : (defaultRange now startTime endTime).1 ≤ (defaultRange now startTime endTime).2)
    (hne : m = 1 → (defaultRange now startTime endTime).1 ≠ (defaultRange now startTime endTime).2) :
    ∃ sel, c.select now startTime endTime trailing interval m = .ok (some sel) := by
  unfold select
  generalize defaultRange now startTime endTime = range at hle hne
  obtain ⟨s, e⟩ := range
  simp only at hle hne ⊢
  obtain ⟨⟨ns, ne, i'⟩, hok⟩ := normalizeRangeChecked_ok
    (c.pickFile_interval_nonneg trailing interval hle) hle hne
  rw [if_neg (not_lt.2 hle), hok]
  simp only [bind, Except.bind]
  cases hsf : (c.pickFile now s e trailing interval).1 with
  | none => exact ⟨_, rfl⟩
  | some sf =>
    obtain ⟨n, hn⟩ := c.collatedBucketCount_ok sf i'
    simp only [hn]
    split_ifs <;> exact ⟨_, rfl⟩

/-- **When a query divides by zero**: for the single bucket of a range that is empty after the
defaults. -/
theorem select_divides_iff (c : StatCounter D F) (now startTime endTime : ℤ) (trailing : Bool)
    (interval : ℤ) (m : ℕ) :
    c.select now startTime endTime trailing interval m = .error .divisionByZero ↔
      m = 1 ∧ (defaultRange now startTime endTime).1 = (defaultRange now startTime endTime).2 := by
  by_cases hlt : (defaultRange now startTime endTime).2 < (defaultRange now startTime endTime).1
  · unfold select
    simp only
    rw [if_pos hlt]
    refine iff_of_false nofun ?_
    rintro ⟨-, h⟩
    omega
  by_cases hempty : m = 1 ∧
      (defaultRange now startTime endTime).1 = (defaultRange now startTime endTime).2
  · refine iff_of_true ?_ hempty
    unfold select
    simp only
    rw [if_neg hlt, hempty.1, ← hempty.2, normalizeRangeChecked_empty]
    rfl
  · obtain ⟨sel, hsel⟩ := c.select_ok trailing interval (not_lt.1 hlt) fun h1 h2 => hempty ⟨h1, h2⟩
    rw [hsel]
    exact iff_of_false nofun hempty

end Reduce

end StatCounter

/-! ### The requests -/

/-- A range as it is passed to `select`. -/
structure RangeRequest where
  startTime : ℤ
  endTime : ℤ
  trailing : Bool
  maxSamples : ℕ
  deriving DecidableEq

/-- The parameters of a counter page that are numbers, where they are given. -/
structure CounterParams where
  start : Option ℤ
  stop : Option ℤ
  samples : Option ℤ
  trailing : Option ℤ

/-- The range of `RequestInFlight::generateCounterData`, with the texts of its errors. -/
def generateCounterRange (now : ℤ) (params : CounterParams) : Except String RangeRequest :=
  let startTime := params.start.getD 0
  let endTime := params.stop.getD 0
  let sampleCount := params.samples.getD 1000
  let trailing := params.trailing.getD 0
  if startTime < 0 then .error "Invalid start parameter"
  else if endTime < 0 then .error "Invalid end parameter"
  else if sampleCount < 0 then .error "Invalid samples parameter"
  else if startTime = 0 ∧ endTime = 0 then
    .ok ⟨now - 900, now, trailing ≠ 0, sampleCount.toNat⟩
  else
    let startTime := if endTime ≠ 0 ∧ startTime = 0 then endTime - 900 else startTime
    if endTime < startTime then
      if endTime ≠ 0 then .error "end must be greater than start!"
      else .ok ⟨startTime, startTime + 900, trailing ≠ 0, sampleCount.toNat⟩
    else .ok ⟨startTime, endTime, trailing ≠ 0, sampleCount.toNat⟩

/-- The range of `RequestInFlight::on_multigetBody`, with the texts of its errors.  The number of
samples is an `int` of the body that is kept as a `size_t`, so the check for a negative number
never fails. -/
def multigetRange (start stop maxSamples : ℤ) (trailing : Bool) : Except String RangeRequest :=
  let maxSamples := (maxSamples % 2 ^ 64).toNat
  if start < 0 then .error "Invalid 'start' parameter"
  else if stop < 0 then .error "Invalid 'stop' parameter"
  else if stop < start then .error "Start must be before stop"
  else .ok ⟨start, stop, trailing, if maxSamples = 0 then 100 else maxSamples⟩

/-- The range is empty, and does not stand for a default. -/
def EmptyRange (start stop : ℤ) : Prop := start = stop ∧ start ≠ 0

instance (start stop : ℤ) : Decidable (EmptyRange start stop) := inferInstanceAs (Decidable (_ ∧ _))

theorem defaultRange_empty_iff (now start stop : ℤ) :
    (StatCounter.defaultRange now start stop).1 = (StatCounter.defaultRange now start stop).2 ↔
      EmptyRange start stop := by
  unfold StatCounter.defaultRange EmptyRange
  split_ifs <;> simp only <;> omega

/-- An accepted page asks for an empty range exactly where its parameters do. -/
theorem generateCounterRange_empty_iff {now : ℤ} {params : CounterParams} {r : RangeRequest}
    (h : generateCounterRange now params = .ok r) :
    (r.maxSamples = 1 ∧ EmptyRange r.startTime r.endTime) ↔
      params.samples.getD 1000 = 1 ∧ EmptyRange (params.start.getD 0) (params.stop.getD 0) := by
  unfold generateCounterRange at h
  generalize params.start.getD 0 = s, params.stop.getD 0 = e, params.samples.getD 1000 = m at h ⊢
  unfold EmptyRange
  simp only at h
  split_ifs at h <;> cases h <;> simp only <;> omega

/-- The same for an accepted multiget. -/
theorem multigetRange_empty_iff {start stop k : ℤ} {trailing : Bool} {r : RangeRequest}
    (hk : -2 ^ 31 ≤ k ∧ k < 2 ^ 31) (h : multigetRange start stop k trailing = .ok r) :
    (r.maxSamples = 1 ∧ EmptyRange r.startTime r.endTime) ↔ k = 1 ∧ EmptyRange start stop := by
  unfold multigetRange at h
  unfold EmptyRange
  simp only at h
  split_ifs at h <;> cases h <;> simp only <;> omega

section Requests

variable {D F : Type} [FloatArith D F]

/-- The query of an accepted request. -/
def StatCounter.query (c : StatCounter D F) (clock interval : ℤ) (r : RangeRequest) :
    Except Fault (Option (StatCounter.Selection D F)) :=
  c.select clock r.startTime r.endTime r.trailing interval r.maxSamples

/-- The query of a multiget has an answer, but for a single sample of an empty range. -/
theorem multigetRange_query_ok {start stop k : ℤ} {trailing : Bool} {r : RangeRequest}
    (h : multigetRange start stop k trailing = .ok r)
    (hne : ¬ (r.maxSamples = 1 ∧ EmptyRange r.startTime r.endTime)) (c : StatCounter D F)
    (clock interval : ℤ) : ∃ sel, c.query clock interval r = .ok (some sel) := by
  have hle : 0 ≤ r.startTime ∧ r.startTime ≤ r.endTime := by
    unfold multigetRange at h
    simp only at h
    split_ifs at h <;> cases h <;> simp only <;> omega
  refine c.select_ok r.trailing interval ?_ fun hm he => hne ⟨hm, ?_⟩
  · unfold StatCounter.defaultRange
    split_ifs <;> simp only <;> omega
  · exact (defaultRange_empty_iff clock r.startTime r.endTime).1 he

/-- **Which accepted requests do not divide by zero**: all but those for a single sample of an empty
range whose times are not 0. -/
theorem rangeQuery_safe_iff (c : StatCounter D F) (clock interval : ℤ) :
    (∀ now params r, generateCounterRange now params = .ok r →
      (c.query clock interval r ≠ .error .divisionByZero ↔
        ¬ (params.samples.getD 1000 = 1 ∧
          EmptyRange (params.start.getD 0) (params.stop.getD 0)))) ∧
    (∀ start stop k trailing r, -2 ^ 31 ≤ k → k < 2 ^ 31 →
      multigetRange start stop k trailing = .ok r →
      (c.query clock interval r ≠ .error .divisionByZero ↔ ¬ (k = 1 ∧ EmptyRange start stop))) := by
  have hquery : ∀ r : RangeRequest, c.query clock interval r = .error .divisionByZero ↔
      r.maxSamples = 1 ∧ EmptyRange r.startTime r.endTime := by
    intro r
    unfold StatCounter.query
    rw [StatCounter.select_divides_iff, defaultRange_empty_iff]
  constructor
  · intro now params r h
    rw [ne_eq, hquery, generateCounterRange_empty_iff h]
  · intro start stop k trailing r h1 h2 h
    rw [ne_eq, hquery, multigetRange_empty_iff ⟨h1, h2⟩ h]

end Requests

/-- A page for the minute from 1000 on as a single sample, and a multiget for the last quarter of an
hour. -/
theorem rangeQuery_safe_minute :
    sampleGauge.query 2000 10 ⟨1000, 1060, false, 1⟩ ≠ .error .divisionByZero ∧
      sampleGauge.query 2000 10 ⟨0, 0, true, 1⟩ ≠ .error .divisionByZero :=
  ⟨((rangeQuery_safe_iff sampleGauge 2000 10).1 2000 ⟨some 1000, some 1060, some 1, none⟩
      ⟨1000, 1060, false, 1⟩ rfl).2 (by decide),
    ((rangeQuery_safe_iff sampleGauge 2000 10).2 0 0 1 true ⟨0, 0, true, 1⟩ (by decide) (by decide)
      rfl).2 (by decide)⟩

/-- A page for one sample from 1000 to 1000 is accepted, and its query divides by zero. -/
theorem rangeQuery_divides :
    ¬ ∀ now params r, generateCounterRange now params = .ok r →
      sampleGauge.query 2000 10 r ≠ .error .divisionByZero := by
  intro h
  refine h 2000 ⟨some 1000, some 1000, some 1, none⟩ ⟨1000, 1000, false, 1⟩ rfl ?_
  exact (StatCounter.select_divides_iff ..).2 ⟨rfl, by decide⟩

end Istatd
