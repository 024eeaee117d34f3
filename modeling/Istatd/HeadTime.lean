import Istatd.RingInvariant

/-!
# The head of the ring as an index and as a time

The header keeps the head of the ring twice: `last_bucket` is its index and `last_time` its time.
The range test uses the index; `lastBucketTime` and `firstBucketTime`, on which the tools rely, use
the time.  Both are set when a call moves the head, and a new header has both zero; but index 0 has
the creation time of the file as its time.

* `headTime`: the time that moved the head last;
* `HeadAgrees`: the two heads agree, and then the times describe the window;
* `headAgrees_iff`: the runs after which they do.
-/

namespace Istatd

namespace StatFile

variable {D F : Type} (f : StatFile D F)

/-- `StatFile::lastBucketTime`. -/
def lastBucketTime : ℤ := f.header.lastTime

/-- `StatFile::firstBucketTime`. -/
def firstBucketTime : ℤ := f.header.lastTime - (f.shape.bucketCount - 1) * f.shape.cfgInterval

/-- The time of the head is the time of its index, and the two times delimit the window.  A collated
file also answers for the indices after the window whose time has passed. -/
structure HeadAgrees : Prop where
  last : f.header.lastTime = f.shape.mapBucketIndexToTime f.header.lastBucket
  window : ∀ i, f.Live i ↔ f.firstBucketTime ≤ f.shape.mapBucketIndexToTime i ∧
    f.shape.mapBucketIndexToTime i ≤ f.lastBucketTime
  inFile : ∀ now i, f.isBucketIndexInFile now i = true ↔
    f.firstBucketTime ≤ f.shape.mapBucketIndexToTime i ∧
      (f.shape.mapBucketIndexToTime i ≤ f.lastBucketTime ∨
        f.shape.isCollated = true ∧ f.shape.mapBucketIndexToTime i < now)

end StatFile

/-- The time that set the head of a new file in a run of calls with the times `ts`: the first to
reach the highest index, if any index is beyond 0. -/
def Shape.headTime {D : Type} (sh : Shape D) : List ℤ → Option ℤ :=
  List.foldl (fun head t =>
    if (head.elim 0 fun h => sh.mapTimeToBucketIndex h false) < sh.mapTimeToBucketIndex t false then
      some t
    else head) none

namespace Shape

variable {D : Type} (sh : Shape D)

theorem mapBucketIndexToTime_le_iff {i j : ℤ} :
    sh.mapBucketIndexToTime i ≤ sh.mapBucketIndexToTime j ↔ i ≤ j := by
  rw [← not_lt, sh.mapBucketIndexToTime_lt_iff, not_lt]

theorem mapTimeToBucketIndex_pos_iff {t : ℤ} (h : sh.fileCreateTime ≤ t) :
    0 < sh.mapTimeToBucketIndex t false ↔ sh.fileCreateTime + sh.cfgInterval ≤ t := by
  have hc := sh.cfgInterval_pos
  have h0 := (Grid.cell_eq_iff (k := 0) hc h)
  rw [mapTimeToBucketIndex_eq]
  have hmono : 0 ≤ Grid.cell sh.fileCreateTime sh.cfgInterval t :=
    Int.tdiv_nonneg (by omega) hc.le
  constructor
  · intro hpos
    by_contra hcon
    have := h0.2 ⟨by omega, by omega⟩
    omega
  · intro hle
    refine lt_of_le_of_ne hmono fun he => ?_
    have := h0.1 he.symm
    omega

/-- From the creation of the file on, only negative times off the grid are misplaced. -/
theorem wellPlaced_iff_of_create_le {t : ℤ} (h : sh.fileCreateTime ≤ t) :
    sh.WellPlaced t ↔ 0 ≤ t ∨ sh.cfgInterval ∣ t := by
  unfold WellPlaced Grid.Aligned
  constructor
  · rintro (⟨h0, -⟩ | ⟨-, hle⟩ | hd)
    · exact Or.inl h0
    · rw [le_antisymm hle h]
      exact Or.inr sh.cfgInterval_dvd
    · exact Or.inr hd
  · rintro (h0 | hd)
    · exact Or.inl ⟨h0, h⟩
    · exact Or.inr (Or.inr hd)

theorem headTime_append (ts : List ℤ) (t : ℤ) :
    sh.headTime (ts ++ [t]) =
      if ((sh.headTime ts).elim 0 fun h => sh.mapTimeToBucketIndex h false) <
          sh.mapTimeToBucketIndex t false then some t
      else sh.headTime ts := by
  unfold headTime
  rw [List.foldl_append]
  rfl

theorem headTime_mem {ts : List ℤ} {t : ℤ} (h : sh.headTime ts = some t) : t ∈ ts := by
  induction ts using List.reverseRecOn with
  | nil => cases h
  | append_singleton ts u ih =>
    rw [headTime_append] at h
    split_ifs at h
    · cases h
      simp
    · exact List.mem_append_left _ (ih h)

/-- No index is beyond 0 exactly if no time reaches the second quantum of the file. -/
theorem headTime_eq_none_iff {ts : List ℤ} (hts : ∀ t ∈ ts, sh.fileCreateTime ≤ t) :
    sh.headTime ts = none ↔ ∀ t ∈ ts, t < sh.fileCreateTime + sh.cfgInterval := by
  induction ts using List.reverseRecOn with
  | nil => exact ⟨fun _ t ht => absurd ht (by simp), fun _ => rfl⟩
  | append_singleton ts t ih =>
    have ih := ih fun u hu => hts u (List.mem_append_left _ hu)
    have ht := sh.mapTimeToBucketIndex_pos_iff (hts t (by simp))
    rw [headTime_append]
    constructor
    · intro hnone u hu
      split_ifs at hnone with hlt
      rcases List.mem_append.1 hu with hu | hu
      · exact ih.1 hnone u hu
      · obtain rfl := List.mem_singleton.1 hu
        rw [hnone] at hlt
        by_contra hcon
        exact hlt (ht.2 (not_lt.1 hcon))
    · intro hall
      have hnone := ih.2 fun u hu => hall u (List.mem_append_left _ hu)
      rw [hnone, if_neg]
      intro hlt
      exact absurd (ht.1 hlt) (not_le.2 (hall t (by simp)))

end Shape

namespace StatFile

variable {D F : Type} {f : StatFile D F}

/-- Times that agree at the head describe the whole window. -/
theorem headAgrees_of_last
    (h : f.header.lastTime = f.shape.mapBucketIndexToTime f.header.lastBucket) : f.HeadAgrees := by
  have hfirst : f.firstBucketTime =
      f.shape.mapBucketIndexToTime (f.header.lastBucket - f.shape.bucketCount + 1) := by
    unfold firstBucketTime
    rw [h, show f.header.lastBucket - f.shape.bucketCount + 1 =
      f.header.lastBucket + (1 - f.shape.bucketCount) by ring, f.shape.mapBucketIndexToTime_add]
    ring
  have hlast : f.lastBucketTime = f.shape.mapBucketIndexToTime f.header.lastBucket := h
  refine ⟨h, fun i => ?_, fun now i => ?_⟩
  · rw [hfirst, hlast, f.shape.mapBucketIndexToTime_le_iff, f.shape.mapBucketIndexToTime_le_iff]
    unfold Live RingIndex.Live
    omega
  · rw [hfirst, hlast, f.shape.mapBucketIndexToTime_le_iff, f.shape.mapBucketIndexToTime_le_iff]
    unfold isBucketIndexInFile
    split_ifs with h1 h2
    · simp only [false_iff]
      omega
    · rw [Bool.and_eq_true, decide_eq_true_iff]
      constructor
      · intro hc
        exact ⟨by omega, Or.inr hc⟩
      · rintro ⟨-, hle | hc⟩
        · omega
        · exact hc
    · simp only [true_iff]
      exact ⟨by omega, Or.inl (by omega)⟩

variable [FloatArith D F] (now : ℤ) (data : Bucket D F) (mode : RawUpdateMode)

/-- The time of the head after a call: set with the index, and only then. -/
theorem rawUpdateBucket_lastTime :
    (f.rawUpdateBucket now data mode).2.header.lastTime =
      if f.header.lastBucket < f.target data then f.shape.targetBucketTime data.time
      else f.header.lastTime := by
  have hmoved : (f.moved (f.target data) (f.shape.targetBucketTime data.time)).header.lastTime =
      if f.header.lastBucket < f.target data then f.shape.targetBucketTime data.time
      else f.header.lastTime := by
    unfold moved lowerFirst advance
    split_ifs <;> rfl
  by_cases h : f.Accepts data
  · rcases rawUpdateBucket_header now data mode h with he | he
    · rw [he, hmoved]
    · rw [he, ← hmoved]
      rfl
  · have hn := f.shape.bucketCount_pos
    have hle : ¬ f.header.lastBucket < f.target data := by unfold Accepts at h; omega
    rw [rawUpdateBucket_of_old now data mode h, if_neg hle]

/-- The times of a run of calls. -/
def callTimes (calls : List (ℤ × Bucket D F × RawUpdateMode)) : List ℤ :=
  calls.map fun call => call.2.1.time

/-- The header stores the index and the quantum of `head`, or zeros if the head has not moved. -/
def HeadIs (f : StatFile D F) (head : Option ℤ) : Prop :=
  f.header.lastBucket = (head.elim 0 fun h => f.shape.mapTimeToBucketIndex h false) ∧
    f.header.lastTime = head.elim 0 f.shape.targetBucketTime

/-- A call moves the head as `headTime` says. -/
theorem rawUpdateBucket_headIs {ts : List ℤ} (h : f.HeadIs (f.shape.headTime ts)) :
    (f.rawUpdateBucket now data mode).2.HeadIs (f.shape.headTime (ts ++ [data.time])) := by
  obtain ⟨hlast, htime⟩ := h
  have htarget : f.target data = f.shape.mapTimeToBucketIndex data.time false := rfl
  rw [Shape.headTime_append, ← hlast, ← htarget]
  unfold HeadIs
  rw [rawUpdateBucket_shape, rawUpdateBucket_lastBucket, rawUpdateBucket_lastTime]
  split_ifs with hlt
  · exact ⟨max_eq_right hlt.le, rfl⟩
  · rw [max_eq_left (not_lt.1 hlt)]
    exact ⟨hlast, htime⟩

theorem rawUpdates_headIs {ts : List ℤ} (h : f.HeadIs (f.shape.headTime ts))
    (calls : List (ℤ × Bucket D F × RawUpdateMode)) :
    (f.rawUpdates calls).HeadIs (f.shape.headTime (ts ++ callTimes calls)) := by
  induction calls generalizing f ts with
  | nil => simpa [callTimes, rawUpdates] using h
  | cons call calls ih =>
    obtain ⟨now, data, mode⟩ := call
    have hstep : (f.rawUpdateBucket now data mode).2.HeadIs
        ((f.rawUpdateBucket now data mode).2.shape.headTime (ts ++ [data.time])) := by
      rw [rawUpdateBucket_shape]
      exact rawUpdateBucket_headIs now data mode h
    have hrest := ih hstep
    rw [rawUpdateBucket_shape, List.append_assoc] at hrest
    exact hrest

@[simp] theorem rawUpdates_shape (f : StatFile D F)
    (calls : List (ℤ × Bucket D F × RawUpdateMode)) : (f.rawUpdates calls).shape = f.shape := by
  induction calls generalizing f with
  | nil => rfl
  | cons call calls ih =>
    rw [rawUpdates, ih, rawUpdateBucket_shape]

omit [FloatArith D F] in
theorem HeadIs.agrees_iff {ts : List ℤ} (h : f.HeadIs (f.shape.headTime ts))
    (hts : ∀ t ∈ ts, f.shape.fileCreateTime ≤ t) :
    f.HeadAgrees ↔
      (∃ t, f.shape.headTime ts = some t ∧ (0 ≤ t ∨ f.shape.cfgInterval ∣ t)) ∨
      ((∀ t ∈ ts, t < f.shape.fileCreateTime + f.shape.cfgInterval) ∧
        f.shape.fileCreateTime = 0) := by
  have hiff : f.HeadAgrees ↔
      f.header.lastTime = f.shape.mapBucketIndexToTime f.header.lastBucket :=
    ⟨fun ha => ha.last, headAgrees_of_last⟩
  obtain ⟨hlast, htime⟩ := h
  rw [hiff, hlast, htime, ← f.shape.headTime_eq_none_iff hts]
  cases hh : f.shape.headTime ts with
  | none =>
    simp only [Option.elim_none, Shape.mapBucketIndexToTime, zero_mul, add_zero]
    constructor
    · intro h0
      exact Or.inr ⟨trivial, h0.symm⟩
    · rintro (⟨t, ht, -⟩ | ⟨-, h0⟩)
      · cases ht
      · exact h0.symm
  | some t =>
    simp only [Option.elim_some]
    rw [eq_comm, f.shape.mapBucketIndexToTime_index_iff,
      f.shape.wellPlaced_iff_of_create_le (hts t (f.shape.headTime_mem hh))]
    constructor
    · intro hw
      exact Or.inl ⟨t, rfl, hw⟩
    · rintro (⟨u, hu, hw⟩ | ⟨hcon, -⟩)
      · cases hu
        exact hw
      · cases hcon

/-- **The two heads of the ring, and when they agree.**  After every run of calls on a new file, in
any modes and with times not before its creation, the time of the head is the time of its index (and
then the two times delimit the window) if and only if

* a time moved the head beyond index 0, and the first that reached the highest index is not a
  negative time off the grid; or
* all times are in the first quantum of the file, and that starts at time 0.
-/
theorem headAgrees_iff {sysPageSize clock : ℤ} {init : Settings D} {f₀ : StatFile D F}
    (hnew : openOrCreate sysPageSize clock none init = .ok f₀)
    (calls : List (ℤ × Bucket D F × RawUpdateMode))
    (hts : ∀ t ∈ callTimes calls, f₀.shape.fileCreateTime ≤ t) :
    (f₀.rawUpdates calls).HeadAgrees ↔
      (∃ t, f₀.shape.headTime (callTimes calls) = some t ∧ (0 ≤ t ∨ f₀.shape.cfgInterval ∣ t)) ∨
      ((∀ t ∈ callTimes calls, t < f₀.shape.fileCreateTime + f₀.shape.cfgInterval) ∧
        f₀.shape.fileCreateTime = 0) := by
  have hzero : f₀.HeadIs (f₀.shape.headTime []) := by
    obtain ⟨sh, -, rfl⟩ := openOrCreate_new hnew
    exact ⟨rfl, rfl⟩
  have hrun := rawUpdates_headIs hzero calls
  rw [← rawUpdates_shape f₀ calls] at hrun hts ⊢
  exact hrun.agrees_iff hts

end StatFile

/-- After records at the times 105 and 110 of the file created at 100, the window is that of the
times up to 110. -/
theorem headAgrees_sample :
    (sampleFile.rawUpdates [(0, Bucket.blank 1 105, .aggregate),
      (0, Bucket.blank 1 110, .overwrite)]).HeadAgrees :=
  (StatFile.headAgrees_iff sampleFile_new [(0, Bucket.blank 1 105, .aggregate),
    (0, Bucket.blank 1 110, .overwrite)] (by decide)).2 (Or.inl ⟨110, by decide, by decide⟩)

/-- After a single record in the first quantum the head is at index 0, of time 100, and the header
has the time 0 for it. -/
theorem headAgrees_first_quantum :
    (sampleFile.rawUpdateBucket 0 (Bucket.blank 1 105) .aggregate).1 = true ∧
      ¬ (sampleFile.rawUpdateBucket 0 (Bucket.blank 1 105) .aggregate).2.HeadAgrees := by
  refine ⟨by decide +kernel, fun h => ?_⟩
  exact absurd h.last (by decide +kernel)

end Istatd
