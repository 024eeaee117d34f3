import Istatd.StatFile
import Istatd.Lib.Ring

/-!
# A counter file as a ring

What one call of `rawUpdateBucket` does, said once: `bucketAt f i` is the bucket in the slot of
logical index `i`, read through the page cache, and the lemmas below give the header and every
`bucketAt` after a call.  Everything proved later about files that are not trailing uses these
lemmas and never unfolds the page cache again.

* `rawUpdateBucket_of_old`, `rawUpdateBucket_fst`: which data is accepted;
* `rawUpdateBucket_lastBucket`, `rawUpdateBucket_firstBucket`: the header after a call;
* `rawUpdateBucket_bucketAt`: the ring after an accepted call;
* `flush_sameRing`, `reopen_sameRing`: flushes and new sessions show the same ring.
-/

namespace Istatd

namespace Shape

variable {D : Type} (sh : Shape D)

theorem mapTimeToBucketIndex_eq (t : ℤ) :
    sh.mapTimeToBucketIndex t false = Grid.cell sh.fileCreateTime sh.cfgInterval t := by
  simp [mapTimeToBucketIndex, Grid.cell]

theorem targetBucketTime_eq (t : ℤ) : sh.targetBucketTime t = Grid.cellStart sh.cfgInterval t := rfl

theorem mapBucketIndexToTime_lt {i j : ℤ} (h : i < j) :
    sh.mapBucketIndexToTime i < sh.mapBucketIndexToTime j := by
  have := sh.cfgInterval_pos
  unfold mapBucketIndexToTime
  nlinarith

theorem mapBucketIndexToTime_le {i j : ℤ} (h : i ≤ j) :
    sh.mapBucketIndexToTime i ≤ sh.mapBucketIndexToTime j := by
  rcases h.eq_or_lt with rfl | h
  · exact le_rfl
  · exact (sh.mapBucketIndexToTime_lt h).le

theorem mapBucketIndexToTime_lt_iff {i j : ℤ} :
    sh.mapBucketIndexToTime i < sh.mapBucketIndexToTime j ↔ i < j :=
  ⟨fun h => lt_of_not_ge fun hji => absurd h (not_lt.2 (sh.mapBucketIndexToTime_le hji)),
    sh.mapBucketIndexToTime_lt⟩

theorem mapBucketIndexToTime_add (i k : ℤ) :
    sh.mapBucketIndexToTime (i + k) = sh.mapBucketIndexToTime i + k * sh.cfgInterval := by
  unfold mapBucketIndexToTime
  ring

theorem mapBucketIndexToTime_inj {i j : ℤ}
    (h : sh.mapBucketIndexToTime i = sh.mapBucketIndexToTime j) : i = j := by
  rcases lt_trichotomy i j with hij | hij | hij
  · exact absurd h (sh.mapBucketIndexToTime_lt hij).ne
  · exact hij
  · exact absurd h (sh.mapBucketIndexToTime_lt hij).ne'

/-- A time is well placed in a file if its index is the index of its quantum. -/
def WellPlaced (t : ℤ) : Prop := Grid.Aligned sh.fileCreateTime sh.cfgInterval t

theorem mapBucketIndexToTime_index_iff (t : ℤ) :
    sh.mapBucketIndexToTime (sh.mapTimeToBucketIndex t false) = sh.targetBucketTime t ↔
      sh.WellPlaced t := by
  rw [mapTimeToBucketIndex_eq, targetBucketTime_eq]
  exact Grid.cell_mul_eq_iff sh.cfgInterval_pos sh.cfgInterval_dvd

/-- Slots are counted over the pages: a slot is determined by its page and its place there. -/
theorem fileIndex_ext {i j : ℤ} (h1 : i / sh.bucketsPerPage = j / sh.bucketsPerPage)
    (h2 : i % sh.bucketsPerPage = j % sh.bucketsPerPage) : i = j := by
  rw [← Int.mul_ediv_add_emod i sh.bucketsPerPage, ← Int.mul_ediv_add_emod j sh.bucketsPerPage,
    h1, h2]

/-- A file index inside the file is on the page of its quotient, at the place of its remainder. -/
theorem mapBucketPage_tdiv {fi : ℤ} (h0 : 0 ≤ fi) (h1 : fi < sh.bucketCount) :
    sh.mapBucketPage (fi.tdiv sh.bucketsPerPage) = fi / sh.bucketsPerPage + 1 := by
  have hb := sh.bucketsPerPage_pos
  rw [Int.tdiv_eq_ediv_of_nonneg h0]
  have hq0 : 0 ≤ fi / sh.bucketsPerPage := Int.ediv_nonneg h0 hb.le
  have hq1 : fi / sh.bucketsPerPage < sh.pageCount :=
    Int.ediv_lt_of_lt_mul hb (by unfold bucketCount at h1; linarith)
  unfold mapBucketPage
  split_ifs with h
  · omega
  · rw [Int.tmod_eq_emod_of_nonneg hq0, Int.emod_eq_of_lt hq0 hq1]

end Shape

namespace StatFile

variable {D F : Type} (f : StatFile D F)

/-- Index `i` is in the window of the `bucketCount` indices up to the last bucket. -/
def Live (i : ℤ) : Prop := RingIndex.Live f.shape.bucketCount f.header.lastBucket i

/-- The bucket in a slot of the file, as the open file shows it. -/
def slot (fileIndex : ℤ) : Bucket D F :=
  f.cache.view (fileIndex / f.shape.bucketsPerPage + 1) (fileIndex % f.shape.bucketsPerPage)

/-- The bucket in the slot of a logical index. -/
def bucketAt (i : ℤ) : Bucket D F := f.slot (i % f.shape.bucketCount)

/-- The slot an index is kept in, as a file index. -/
theorem emod_bucketCount_mem (i : ℤ) :
    0 ≤ i % f.shape.bucketCount ∧ i % f.shape.bucketCount < f.shape.bucketCount :=
  ⟨Int.emod_nonneg i f.shape.bucketCount_pos.ne', Int.emod_lt_of_pos i f.shape.bucketCount_pos⟩

theorem bucketAt_congr {i j : ℤ} (h : i % f.shape.bucketCount = j % f.shape.bucketCount) :
    f.bucketAt i = f.bucketAt j := by
  unfold bucketAt
  rw [h]

/-- On the grid of a file an index is the index of one time. -/
theorem mapBucketIndexToTime_mapTimeToBucketIndex {sh : Shape D} {q : ℤ}
    (h : sh.cfgInterval ∣ q) : sh.mapBucketIndexToTime (sh.mapTimeToBucketIndex q false) = q := by
  rw [(sh.mapBucketIndexToTime_index_iff q).2 (Or.inr (Or.inr h))]
  exact Grid.cellStart_of_dvd h

theorem cfgInterval_dvd_mapBucketIndexToTime (j : ℤ) :
    f.shape.cfgInterval ∣ f.shape.mapBucketIndexToTime j :=
  dvd_add f.shape.cfgInterval_dvd (dvd_mul_left _ _)

/-! ### The index maps -/

section Maps

variable {f} {now i : ℤ}

theorem isBucketIndexInFile_of_live (now : ℤ) (h : f.Live i) :
    f.isBucketIndexInFile now i = true := by
  obtain ⟨h1, h2⟩ := h
  unfold isBucketIndexInFile
  rw [if_neg (by omega), if_neg (by omega)]

theorem isBucketIndexInFile_of_old (h : i ≤ f.header.lastBucket - f.shape.bucketCount) :
    f.isBucketIndexInFile now i = false := if_pos h

theorem lt_of_isBucketIndexInFile (h : f.isBucketIndexInFile now i = true) :
    f.header.lastBucket - f.shape.bucketCount < i := by
  by_contra hcon
  rw [isBucketIndexInFile_of_old (by omega)] at h
  cases h

/-- A file that is not collated does not answer for the time after its latest bucket. -/
theorem le_of_isBucketIndexInFile (hcol : f.shape.isCollated = false)
    (h : f.isBucketIndexInFile now i = true) : i ≤ f.header.lastBucket := by
  by_contra hcon
  unfold isBucketIndexInFile at h
  rw [if_neg (by have := lt_of_isBucketIndexInFile h; omega), if_pos (by omega), hcol] at h
  cases h

/-- The corrected remainder of `mapBucketIndexToFileIndex` is the mathematical one. -/
theorem mapBucketIndexToFileIndex_of_inFile (h : f.isBucketIndexInFile now i = true) :
    f.mapBucketIndexToFileIndex now i = i % f.shape.bucketCount := by
  have hn := f.shape.bucketCount_pos
  unfold mapBucketIndexToFileIndex
  rw [if_pos h]
  simp only
  rcases le_or_gt 0 i with hi | hi
  · rw [Int.tmod_eq_emod_of_nonneg hi, if_neg (by have := Int.emod_nonneg i hn.ne'; omega)]
  · rw [Grid.tmod_of_nonpos hi.le]
    have h0 := Int.emod_nonneg (-i) hn.ne'
    have h1 := Int.emod_lt_of_pos (-i) hn
    split_ifs with hneg
    · symm
      rw [← Int.emod_eq_of_lt (a := -(-i % f.shape.bucketCount) + f.shape.bucketCount)
        (b := f.shape.bucketCount) (by omega) (by omega), RingIndex.emod_eq_emod_iff_dvd]
      have := Int.mul_ediv_add_emod (-i) f.shape.bucketCount
      exact ⟨-(-i / f.shape.bucketCount) - 1, by linarith⟩
    · have hz : -i % f.shape.bucketCount = 0 := by omega
      rw [hz, neg_zero]
      exact (Int.emod_eq_zero_of_dvd ((dvd_neg).1 (Int.dvd_of_emod_eq_zero hz))).symm

theorem mapBucketIndexToFileIndex_of_live (h : f.Live i) :
    f.mapBucketIndexToFileIndex now i = i % f.shape.bucketCount :=
  mapBucketIndexToFileIndex_of_inFile (isBucketIndexInFile_of_live _ h)

end Maps

/-! ### Access through the page cache -/

section Access

variable (now i : ℤ)

@[simp] theorem writableBucket_shape : (f.writableBucket now i).2.shape = f.shape := rfl
@[simp] theorem writableBucket_header : (f.writableBucket now i).2.header = f.header := rfl
@[simp] theorem writableBucket_expBucket : (f.writableBucket now i).2.expBucket = f.expBucket := rfl
@[simp] theorem writableBucket_touched :
    (f.writableBucket now i).2.touched = f.mapBucketIndexToFileIndex now i :: f.touched := rfl
@[simp] theorem assign_shape (p : BucketPtr) (b : Bucket D F) : (f.assign p b).shape = f.shape := rfl
@[simp] theorem assign_header (p : BucketPtr) (b : Bucket D F) : (f.assign p b).header = f.header :=
  rfl
@[simp] theorem assign_expBucket (p : BucketPtr) (b : Bucket D F) :
    (f.assign p b).expBucket = f.expBucket := rfl
@[simp] theorem assign_touched (p : BucketPtr) (b : Bucket D F) :
    (f.assign p b).touched = f.touched := rfl

theorem writableBucket_view (page : ℤ) :
    (f.writableBucket now i).2.cache.view page = f.cache.view page :=
  PageCache.mapSinglePage_view _ _ _

@[simp] theorem writableBucket_slot (fi : ℤ) : (f.writableBucket now i).2.slot fi = f.slot fi := by
  unfold slot
  rw [writableBucket_view]
  rfl

/-- The pointer of `writableBucket` points into a mapped page. -/
theorem writableBucket_line :
    (f.writableBucket now i).2.cache.store.line (f.writableBucket now i).1.line =
      some ((f.writableBucket now i).1.page, f.cache.view (f.writableBucket now i).1.page) :=
  PageCache.mapSinglePage_line _ _

variable {f now i} {fi : ℤ}

/-- The place of the pointer, for an index inside the file. -/
theorem writableBucket_place (h : f.isBucketIndexInFile now i = true) :
    (f.writableBucket now i).1.page =
        i % f.shape.bucketCount / f.shape.bucketsPerPage + 1 ∧
      (f.writableBucket now i).1.off = i % f.shape.bucketCount % f.shape.bucketsPerPage := by
  obtain ⟨h0, h1⟩ := f.emod_bucketCount_mem i
  have hfi := mapBucketIndexToFileIndex_of_inFile h
  constructor
  · show f.shape.mapBucketPage _ = _
    rw [hfi, f.shape.mapBucketPage_tdiv h0 h1]
  · show f.mapBucketIndexToFileIndex now i - _ = _
    rw [hfi, Int.tdiv_eq_ediv_of_nonneg h0]
    have := Int.mul_ediv_add_emod (i % f.shape.bucketCount) f.shape.bucketsPerPage
    linarith

theorem writableBucket_deref [FloatArith D F] (h : f.isBucketIndexInFile now i = true) :
    (f.writableBucket now i).2.deref (f.writableBucket now i).1 = f.bucketAt i := by
  obtain ⟨hp, ho⟩ := writableBucket_place h
  unfold deref
  rw [PageCache.load_of_line (f.writableBucket_line now i), Option.getD_some, hp, ho]
  rfl

/-- A write through a pointer to a mapped slot changes that slot only. -/
theorem assign_slot {p : BucketPtr} {cells : ℤ → Bucket D F}
    (hl : f.cache.store.line p.line = some (p.page, cells))
    (hp : p.page = fi / f.shape.bucketsPerPage + 1) (ho : p.off = fi % f.shape.bucketsPerPage)
    (b : Bucket D F) : (f.assign p b).slot = Function.update f.slot fi b := by
  funext k
  unfold slot
  show (f.cache.assign p b).view _ _ = _
  rw [PageCache.assign_view hl]
  by_cases hk : k = fi
  · subst hk
    rw [Function.update_self, assign_shape, if_pos hp.symm, ho, Function.update_self]
  · rw [Function.update_of_ne hk, assign_shape]
    split_ifs with hpage
    · refine Function.update_of_ne (fun hoff => hk ?_) _ _
      exact f.shape.fileIndex_ext (by omega) (hoff.trans ho)
    · rfl

/-- A write through the pointer of `writableBucket`, for an index inside the file. -/
theorem writableBucket_assign_bucketAt (h : f.isBucketIndexInFile now i = true) (b : Bucket D F)
    (j : ℤ) :
    ((f.writableBucket now i).2.assign (f.writableBucket now i).1 b).bucketAt j =
      if j % f.shape.bucketCount = i % f.shape.bucketCount then b else f.bucketAt j := by
  obtain ⟨hp, ho⟩ := writableBucket_place h
  show ((f.writableBucket now i).2.assign (f.writableBucket now i).1 b).slot
    (j % f.shape.bucketCount) = _
  rw [assign_slot (f.writableBucket_line now i) hp ho]
  split_ifs with hj
  · rw [hj, Function.update_self]
  · rw [Function.update_of_ne hj, writableBucket_slot]
    rfl

end Access

/-! ### The header -/

section HeaderMoves

variable (k t : ℤ)

@[simp] theorem advance_shape : (f.advance k t).shape = f.shape := by
  unfold advance; split_ifs <;> rfl
@[simp] theorem advance_slot : (f.advance k t).slot = f.slot := by unfold advance; split_ifs <;> rfl
@[simp] theorem advance_expBucket : (f.advance k t).expBucket = f.expBucket := by
  unfold advance; split_ifs <;> rfl
@[simp] theorem advance_cache : (f.advance k t).cache = f.cache := by
  unfold advance; split_ifs <;> rfl
@[simp] theorem advance_touched : (f.advance k t).touched = f.touched := by
  unfold advance; split_ifs <;> rfl
@[simp] theorem lowerFirst_shape : (f.lowerFirst k).shape = f.shape := by
  unfold lowerFirst; split_ifs <;> rfl
@[simp] theorem lowerFirst_slot : (f.lowerFirst k).slot = f.slot := by
  unfold lowerFirst; split_ifs <;> rfl
@[simp] theorem lowerFirst_expBucket : (f.lowerFirst k).expBucket = f.expBucket := by
  unfold lowerFirst; split_ifs <;> rfl
@[simp] theorem lowerFirst_cache : (f.lowerFirst k).cache = f.cache := by
  unfold lowerFirst; split_ifs <;> rfl
@[simp] theorem lowerFirst_touched : (f.lowerFirst k).touched = f.touched := by
  unfold lowerFirst; split_ifs <;> rfl
@[simp] theorem advance_lastBucket :
    (f.advance k t).header.lastBucket = max f.header.lastBucket k := by
  by_cases h : f.header.lastBucket < k
  · simp [advance, h, max_eq_right h.le]
  · simp [advance, h, max_eq_left (not_lt.1 h)]

@[simp] theorem lowerFirst_lastBucket :
    (f.lowerFirst k).header.lastBucket = f.header.lastBucket := by
  unfold lowerFirst; split_ifs <;> rfl

theorem advance_of_le (h : k ≤ f.header.lastBucket) : f.advance k t = f := if_neg (not_lt.2 h)

/-- The header an accepted target leaves, before the cumulative totals. -/
def moved : StatFile D F := (f.advance k t).lowerFirst k

@[simp] theorem moved_shape : (f.moved k t).shape = f.shape := by simp [moved]
@[simp] theorem moved_slot : (f.moved k t).slot = f.slot := by simp [moved]
@[simp] theorem moved_expBucket : (f.moved k t).expBucket = f.expBucket := by simp [moved]
@[simp] theorem moved_cache : (f.moved k t).cache = f.cache := by simp [moved]
@[simp] theorem moved_touched : (f.moved k t).touched = f.touched := by simp [moved]
@[simp] theorem moved_lastBucket :
    (f.moved k t).header.lastBucket = max f.header.lastBucket k := by simp [moved]

@[simp] theorem moved_bucketAt (i : ℤ) : (f.moved k t).bucketAt i = f.bucketAt i := by
  unfold bucketAt
  rw [moved_slot, moved_shape]

/-- The window of the ring: `first_bucket ≤ last_bucket < first_bucket + N`. -/
def RingHeader : Prop :=
  f.header.firstBucket ≤ f.header.lastBucket ∧
    f.header.lastBucket < f.header.firstBucket + f.shape.bucketCount

variable {f k t}

/-- After the head has moved, the target is in the file exactly if it was not too old. -/
theorem advance_isBucketIndexInFile (now : ℤ) :
    (f.advance k t).isBucketIndexInFile now k = true ↔
      f.header.lastBucket - f.shape.bucketCount < k := by
  have hn := f.shape.bucketCount_pos
  constructor
  · intro h
    have := lt_of_isBucketIndexInFile h
    rw [advance_lastBucket, advance_shape] at this
    omega
  · intro h
    apply isBucketIndexInFile_of_live
    constructor
    · rw [advance_lastBucket, advance_shape]; omega
    · rw [advance_lastBucket]; omega

theorem moved_live (h : f.header.lastBucket - f.shape.bucketCount < k) : (f.moved k t).Live k := by
  have hn := f.shape.bucketCount_pos
  constructor
  · rw [moved_lastBucket, moved_shape]; omega
  · rw [moved_lastBucket]; omega

theorem moved_ringHeader (hr : f.RingHeader) (h : f.header.lastBucket - f.shape.bucketCount < k) :
    (f.moved k t).RingHeader := by
  obtain ⟨h1, h2⟩ := hr
  have hn := f.shape.bucketCount_pos
  by_cases ha : f.header.lastBucket < k
  · by_cases hb : f.header.firstBucket + f.shape.bucketCount ≤ k
    · have hlow : ¬ k < k - f.shape.bucketCount + 1 := by omega
      simp only [RingHeader, moved, lowerFirst, advance, ha, hb, hlow, if_true, if_false]
      omega
    · have hlow : ¬ k < f.header.firstBucket := by omega
      simp only [RingHeader, moved, lowerFirst, advance, ha, hb, hlow, if_true, if_false]
      omega
  · by_cases hb : k < f.header.firstBucket
    · simp only [RingHeader, moved, lowerFirst, advance, ha, hb, if_true, if_false]
      omega
    · simp only [RingHeader, moved, lowerFirst, advance, ha, hb, if_false]
      omega

end HeaderMoves

/-! ### One call of `rawUpdateBucket` -/

section RawUpdate

variable [FloatArith D F]

@[simp] theorem addCumulative_shape (b : Bucket D F) : (f.addCumulative b).shape = f.shape := rfl
@[simp] theorem addCumulative_lastBucket (b : Bucket D F) :
    (f.addCumulative b).header.lastBucket = f.header.lastBucket := rfl
@[simp] theorem addCumulative_slot (b : Bucket D F) : (f.addCumulative b).slot = f.slot := rfl
@[simp] theorem addCumulative_bucketAt (b : Bucket D F) (j : ℤ) :
    (f.addCumulative b).bucketAt j = f.bucketAt j := rfl
@[simp] theorem addCumulative_expBucket (b : Bucket D F) :
    (f.addCumulative b).expBucket = f.expBucket := rfl
@[simp] theorem addCumulative_cache (b : Bucket D F) : (f.addCumulative b).cache = f.cache := rfl
@[simp] theorem addCumulative_touched (b : Bucket D F) :
    (f.addCumulative b).touched = f.touched := rfl

variable {f} (now : ℤ) (data : Bucket D F) (mode : RawUpdateMode)

/-- The logical index the data is meant for. -/
def target (f : StatFile D F) (data : Bucket D F) : ℤ := f.shape.mapTimeToBucketIndex data.time false

/-- The data is not older than the window. -/
def Accepts (f : StatFile D F) (data : Bucket D F) : Prop :=
  f.header.lastBucket - f.shape.bucketCount < f.target data

instance (f : StatFile D F) (data : Bucket D F) : Decidable (f.Accepts data) :=
  inferInstanceAs (Decidable (_ < _))

/-- Data older than the window is rejected and changes nothing. -/
theorem rawUpdateBucket_of_old (h : ¬ f.Accepts data) :
    f.rawUpdateBucket now data mode = (false, f) := by
  have hn := f.shape.bucketCount_pos
  have hle : f.target data ≤ f.header.lastBucket := by unfold Accepts at h; omega
  have hin : (f.advance (f.target data) (f.shape.targetBucketTime data.time)).isBucketIndexInFile
      now (f.target data) = false := by
    rw [Bool.eq_false_iff]
    intro hcon
    exact h ((advance_isBucketIndexInFile now).1 hcon)
  unfold rawUpdateBucket
  simp only
  rw [show f.shape.mapTimeToBucketIndex data.time false = f.target data from rfl, hin,
    advance_of_le f _ _ hle]
  rfl

/-- The bucket an accepted call finds in a file that is not trailing, cleared if it is of another
time. -/
def found (f : StatFile D F) (data : Bucket D F) : Bucket D F :=
  if (f.bucketAt (f.target data)).time ≠ f.shape.targetBucketTime data.time then Bucket.zero
  else f.bucketAt (f.target data)

/-- An accepted call, in a file that is not trailing. -/
theorem rawUpdateBucket_of_accepts (hnt : f.shape.isTrailing = false) (h : f.Accepts data) :
    f.rawUpdateBucket now data mode =
      (true,
        let w := (f.moved (f.target data) (f.shape.targetBucketTime data.time)).writableBucket now
          (f.target data)
        let r := mergeData f.shape mode data (f.found data)
        if r.2 then (w.2.assign w.1 r.1).addCumulative data else w.2.assign w.1 r.1) := by
  have hin := (advance_isBucketIndexInFile (t := f.shape.targetBucketTime data.time) now).2 h
  have hd := writableBucket_deref (isBucketIndexInFile_of_live now
    (moved_live (t := f.shape.targetBucketTime data.time) h))
  rw [moved_bucketAt] at hd
  unfold rawUpdateBucket
  simp only [hnt]
  rw [show f.shape.mapTimeToBucketIndex data.time false = f.target data from rfl, hin]
  rw [show ((f.advance (f.target data) (f.shape.targetBucketTime data.time)).lowerFirst
    (f.target data)) = f.moved (f.target data) (f.shape.targetBucketTime data.time) from rfl, hd]
  rfl

/-- An accepted call, in a trailing file. -/
theorem rawUpdateBucket_of_trailing (htr : f.shape.isTrailing = true) (h : f.Accepts data) :
    f.rawUpdateBucket now data mode =
      (true,
        let t := (f.moved (f.target data) (f.shape.targetBucketTime data.time)).getTrailingBucket
          now (f.shape.targetBucketTime data.time)
        let r := mergeData f.shape mode data (t.2.expBucket t.1)
        let f₃ := { t.2 with expBucket := Function.update t.2.expBucket t.1 r.1 }
        if r.2 then f₃.addCumulative data else f₃) := by
  have hin := (advance_isBucketIndexInFile (t := f.shape.targetBucketTime data.time) now).2 h
  unfold rawUpdateBucket
  simp only [htr]
  rw [show f.shape.mapTimeToBucketIndex data.time false = f.target data from rfl, hin]
  rfl

@[simp] theorem flushOneExpBucket_shape : (f.flushOneExpBucket now).shape = f.shape := by
  unfold flushOneExpBucket; simp only; split_ifs <;> rfl
@[simp] theorem flushOneExpBucket_header : (f.flushOneExpBucket now).header = f.header := by
  unfold flushOneExpBucket; simp only; split_ifs <;> rfl
@[simp] theorem flush_shape : (f.flush now).shape = f.shape := by
  unfold flush
  split_ifs
  · exact flushOneExpBucket_shape now
  · rfl
@[simp] theorem flush_header : (f.flush now).header = f.header := by
  unfold flush
  split_ifs
  · exact flushOneExpBucket_header now
  · rfl
@[simp] theorem getTrailingBucket_shape (t : ℤ) : (f.getTrailingBucket now t).2.shape = f.shape := by
  unfold getTrailingBucket; split_ifs <;> simp
@[simp] theorem getTrailingBucket_header (t : ℤ) :
    (f.getTrailingBucket now t).2.header = f.header := by
  unfold getTrailingBucket; split_ifs <;> simp

theorem rawUpdateBucket_fst : (f.rawUpdateBucket now data mode).1 = decide (f.Accepts data) := by
  by_cases h : f.Accepts data
  · cases hnt : f.shape.isTrailing
    · rw [rawUpdateBucket_of_accepts now data mode hnt h, decide_eq_true h]
    · rw [rawUpdateBucket_of_trailing now data mode hnt h, decide_eq_true h]
  · rw [rawUpdateBucket_of_old now data mode h, decide_eq_false h]

@[simp] theorem rawUpdateBucket_shape : (f.rawUpdateBucket now data mode).2.shape = f.shape := by
  by_cases h : f.Accepts data
  · cases hnt : f.shape.isTrailing
    · rw [rawUpdateBucket_of_accepts now data mode hnt h]
      simp only
      split_ifs <;> simp
    · rw [rawUpdateBucket_of_trailing now data mode hnt h]
      simp only
      split_ifs <;> simp
  · rw [rawUpdateBucket_of_old now data mode h]

/-- The header after an accepted call: moved to the target, with the totals possibly increased. -/
theorem rawUpdateBucket_header (h : f.Accepts data) :
    (f.rawUpdateBucket now data mode).2.header =
        (f.moved (f.target data) (f.shape.targetBucketTime data.time)).header ∨
      (f.rawUpdateBucket now data mode).2.header =
        ((f.moved (f.target data) (f.shape.targetBucketTime data.time)).addCumulative
          data).header := by
  cases hnt : f.shape.isTrailing
  · rw [rawUpdateBucket_of_accepts now data mode hnt h]
    simp only
    split_ifs
    · exact Or.inr rfl
    · exact Or.inl rfl
  · rw [rawUpdateBucket_of_trailing now data mode hnt h]
    simp only
    split_ifs
    · right
      simp only [addCumulative, getTrailingBucket_header]
    · left
      simp only [getTrailingBucket_header]

theorem rawUpdateBucket_lastBucket :
    (f.rawUpdateBucket now data mode).2.header.lastBucket =
      max f.header.lastBucket (f.target data) := by
  by_cases h : f.Accepts data
  · rcases rawUpdateBucket_header now data mode h with he | he <;> rw [he]
    · rw [moved_lastBucket]
    · exact moved_lastBucket f _ _
  · have hn := f.shape.bucketCount_pos
    have hle : f.target data ≤ f.header.lastBucket := by unfold Accepts at h; omega
    rw [rawUpdateBucket_of_old now data mode h, max_eq_left hle]

theorem rawUpdateBucket_ringHeader (hr : f.RingHeader) :
    (f.rawUpdateBucket now data mode).2.RingHeader := by
  by_cases h : f.Accepts data
  · have hm := moved_ringHeader (t := f.shape.targetBucketTime data.time) hr h
    unfold RingHeader at hm ⊢
    rw [rawUpdateBucket_shape]
    rcases rawUpdateBucket_header now data mode h with he | he <;> rw [he] <;>
      simpa [addCumulative] using hm
  · rw [rawUpdateBucket_of_old now data mode h]
    exact hr

/-- **The ring after an accepted call**, in a file that is not trailing: the slot of the target
holds the merged bucket and every other slot what it held. -/
theorem rawUpdateBucket_bucketAt (hnt : f.shape.isTrailing = false) (h : f.Accepts data) (j : ℤ) :
    (f.rawUpdateBucket now data mode).2.bucketAt j =
      if j % f.shape.bucketCount = f.target data % f.shape.bucketCount then
        (mergeData f.shape mode data (f.found data)).1
      else f.bucketAt j := by
  have hin := isBucketIndexInFile_of_live now
    (moved_live (t := f.shape.targetBucketTime data.time) h)
  have hw := writableBucket_assign_bucketAt hin (mergeData f.shape mode data (f.found data)).1 j
  rw [moved_shape, moved_bucketAt] at hw
  rw [rawUpdateBucket_of_accepts now data mode hnt h, ← hw]
  simp only
  split_ifs <;> rfl

/-! The same for `updateBucket`, which later modules use. -/

@[simp] theorem updateBucket_shape : (f.updateBucket now data).2.shape = f.shape :=
  rawUpdateBucket_shape now data .aggregate

theorem updateBucket_fst : (f.updateBucket now data).1 = decide (f.Accepts data) :=
  rawUpdateBucket_fst now data .aggregate

theorem updateBucket_of_old (h : ¬ f.Accepts data) : f.updateBucket now data = (false, f) :=
  rawUpdateBucket_of_old now data .aggregate h

theorem updateBucket_lastBucket :
    (f.updateBucket now data).2.header.lastBucket = max f.header.lastBucket (f.target data) :=
  rawUpdateBucket_lastBucket now data .aggregate

@[simp] theorem updateBucket_target (d : Bucket D F) :
    (f.updateBucket now data).2.target d = f.target d := by
  unfold target
  rw [updateBucket_shape]

theorem updateBucket_bucketAt (hnt : f.shape.isTrailing = false) (h : f.Accepts data) (j : ℤ) :
    (f.updateBucket now data).2.bucketAt j =
      if j % f.shape.bucketCount = f.target data % f.shape.bucketCount then
        (mergeData f.shape .aggregate data (f.found data)).1
      else f.bucketAt j :=
  rawUpdateBucket_bucketAt now data .aggregate hnt h j

/-- What is live after a call was live before it or lies above the head. -/
theorem lt_of_live_updateBucket {i : ℤ} (hi : (f.updateBucket now data).2.Live i) :
    f.header.lastBucket - f.shape.bucketCount < i := by
  have h := hi.1
  rw [updateBucket_shape, updateBucket_lastBucket] at h
  omega

/-- Indices of one slot that are both live after an accepted call are equal, so the call leaves the
buckets of the other live indices alone. -/
theorem updateBucket_bucketAt_of_ne {i : ℤ} (hnt : f.shape.isTrailing = false)
    (hi : (f.updateBucket now data).2.Live i) (hne : i ≠ f.target data) :
    (f.updateBucket now data).2.bucketAt i = f.bucketAt i := by
  by_cases hacc : f.Accepts data
  · rw [updateBucket_bucketAt now data hnt hacc, if_neg]
    intro hmod
    apply hne
    have hn := f.shape.bucketCount_pos
    unfold Live at hi
    rw [updateBucket_shape, updateBucket_lastBucket] at hi
    refine hi.eq_of_emod_eq ⟨?_, le_max_right _ _⟩ hmod
    unfold Accepts at hacc
    omega
  · rw [updateBucket_of_old now data hacc]

end RawUpdate

/-! ### Flushes and new sessions -/

/-- Two states of a file that show the same ring. -/
structure SameRing (f f' : StatFile D F) : Prop where
  shape : f'.shape = f.shape
  last : f'.header.lastBucket = f.header.lastBucket
  ring : ∀ j, f'.bucketAt j = f.bucketAt j

theorem flush_sameRing [FloatArith D F] {f : StatFile D F} (hnt : f.shape.isTrailing = false)
    (now : ℤ) : SameRing f (f.flush now) := by
  have hf : f.flush now = { f with cache := f.cache.flush } := by
    unfold flush
    simp [hnt]
  refine ⟨flush_shape now, by rw [hf], fun j => ?_⟩
  rw [hf]
  unfold bucketAt slot
  simp only [PageCache.flush_view]

/-- A file closed and opened again. -/
theorem reopen_sameRing [FloatArith D F] (f : StatFile D F) : SameRing f (ofDisk f.toDisk) := by
  refine ⟨rfl, rfl, fun j => ?_⟩
  have hview : ∀ page, (ofDisk f.toDisk).cache.view page = f.cache.view page := f.cache.close_view
  unfold bucketAt slot
  rw [hview]
  rfl

end StatFile

end Istatd
