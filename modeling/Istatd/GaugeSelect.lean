import Istatd.Select
import Istatd.Traced
import Istatd.NewCounter
import Istatd.Collation

/-!
# Range queries of a gauge

A request to a gauge should return the buckets the picked file holds in the rounded range, in order
of time.  It does so if the rounded range can be read (`Readable`): it starts in the window, above
the epoch, and its ends are rounded in the same way by the index of its start and by the number of
its buckets.

* `lt_count_iff`: which times of the grid the read covers;
* `GaugeTraced.run`: the times in the files of a gauge, over a run;
* `gauge_select`: what a request returns.
-/

namespace Istatd

variable {D F : Type}

namespace StatFile

variable {f : StatFile D F} {s e j : ℤ} {ts : List ℤ}

/-- The indices of the window, in order. -/
def liveIndices (f : StatFile D F) : List ℤ :=
  RingIndex.consecutive (f.header.lastBucket - f.shape.bucketCount + 1) f.shape.bucketCount.toNat

/-- The buckets the file holds with times from `s` up to and without `e`, or of the time `s` if the
range is a single time. -/
def heldBetween (f : StatFile D F) (s e : ℤ) : List (Bucket D F) :=
  (f.liveIndices.filter fun j => f.Holds j ∧
    (s ≤ f.shape.mapBucketIndexToTime j ∧ f.shape.mapBucketIndexToTime j < e ∨
      f.shape.mapBucketIndexToTime j = s ∧ s = e)).map f.bucketAt

/-- A range that `readBucketsFromFile` reads as a whole: above the epoch, with a start in the
window, short enough for an `int`, and with the end on the grid if the index of the start is rounded
down, off the grid if it is rounded up. -/
structure Readable (f : StatFile D F) (s e : ℤ) : Prop where
  pos : 0 < s
  inWindow : f.header.lastBucket - f.shape.bucketCount < f.shape.mapTimeToBucketIndex s false
  aligned : f.shape.fileCreateTime ≤ s ∨ f.shape.cfgInterval ∣ s ↔ f.shape.cfgInterval ∣ e
  short : f.numBucketsBetween s e false < 2 ^ 31

instance (f : StatFile D F) (s e : ℤ) : Decidable (f.Readable s e) :=
  decidable_of_iff (0 < s ∧
      f.header.lastBucket - f.shape.bucketCount < f.shape.mapTimeToBucketIndex s false ∧
      (f.shape.fileCreateTime ≤ s ∨ f.shape.cfgInterval ∣ s ↔ f.shape.cfgInterval ∣ e) ∧
      f.numBucketsBetween s e false < 2 ^ 31)
    ⟨fun h => ⟨h.1, h.2.1, h.2.2.1, h.2.2.2⟩, fun h => ⟨h.pos, h.inWindow, h.aligned, h.short⟩⟩

/-- The index of the start is rounded down if it is well placed, and up otherwise. -/
theorem mapBucketIndexToTime_start (hs : 0 ≤ s) :
    (f.shape.WellPlaced s → f.shape.mapBucketIndexToTime (f.shape.mapTimeToBucketIndex s false) =
        Grid.cellStart f.shape.cfgInterval s) ∧
      (¬ f.shape.WellPlaced s →
        f.shape.mapBucketIndexToTime (f.shape.mapTimeToBucketIndex s false) =
          Grid.cellStart f.shape.cfgInterval s + f.shape.cfgInterval) := by
  have hpos := f.shape.cfgInterval_pos
  refine ⟨fun hw => (f.shape.mapBucketIndexToTime_index_iff s).2 hw, fun hw => ?_⟩
  have hdvd := f.cfgInterval_dvd_mapBucketIndexToTime (f.shape.mapTimeToBucketIndex s false)
  have hcell := Grid.cellStart_dvd f.shape.cfgInterval s
  have hlow := Grid.cellStart_lt_cell hpos f.shape.cfgInterval_dvd hs hw
  have hhigh := Grid.cell_mul_lt f.shape.fileCreateTime hpos s
  have hle := Grid.cellStart_le (s := f.shape.cfgInterval) hs
  rw [Shape.mapTimeToBucketIndex_eq] at hdvd ⊢
  apply le_antisymm
  · apply Grid.le_of_lt_add_of_dvd hpos (dvd_add hcell dvd_rfl) hdvd
    have hlt := Grid.lt_cellStart_add (t := s) hpos
    unfold Shape.mapBucketIndexToTime
    omega
  · exact Grid.add_le_of_lt_of_dvd hpos hcell hdvd hlow

/-- All times before the first index read are before the range. -/
theorem mapBucketIndexToTime_lt_start (s : ℤ) :
    f.shape.mapBucketIndexToTime (f.shape.mapTimeToBucketIndex s false - 1) < s := by
  have := Grid.cell_mul_lt f.shape.fileCreateTime f.shape.cfgInterval_pos s
  rw [Shape.mapTimeToBucketIndex_eq]
  unfold Shape.mapBucketIndexToTime
  linarith

/-- A grid time of the range is among those of the number of buckets asked for exactly if it is
before the end, or start and end are the same. -/
theorem lt_count_iff (h : f.Readable s e) (hse : s ≤ e)
    (hj : s ≤ f.shape.mapBucketIndexToTime j) :
    j < f.shape.mapTimeToBucketIndex s false + f.numBucketsBetween s e false ∧
        f.shape.mapBucketIndexToTime j ≤ e ↔
      f.shape.mapBucketIndexToTime j < e ∨ f.shape.mapBucketIndexToTime j = s ∧ s = e := by
  have hpos := f.shape.cfgInterval_pos
  have hs0 := h.pos.le
  obtain ⟨hdown, hup⟩ := f.mapBucketIndexToTime_start hs0
  have haligned := h.aligned
  rw [← wellPlaced_iff hs0] at haligned
  have hdvd := f.cfgInterval_dvd_mapBucketIndexToTime j
  have hcell := Grid.cellStart_le (s := f.shape.cfgInterval) hs0
  have hcelle := Grid.cellStart_le (s := f.shape.cfgInterval) (hs0.trans hse)
  have hlt := Grid.lt_cellStart_add (t := e) hpos
  have hmono : Grid.cellStart f.shape.cfgInterval s ≤ Grid.cellStart f.shape.cfgInterval e :=
    Grid.le_cellStart hpos (Grid.cellStart_dvd _ s) (by omega)
  -- the index is compared through the times
  rw [← f.shape.mapBucketIndexToTime_lt_iff, f.shape.mapBucketIndexToTime_add]
  by_cases hw : f.shape.WellPlaced s
  · have he := Grid.cellStart_of_dvd (haligned.1 hw)
    rw [hdown hw]
    rcases hmono.lt_or_eq with hab | hab
    · rw [(numBucketsBetween_of_lt hab).2]
      have hne : s ≠ e := fun heq => hab.ne (by rw [heq])
      omega
    · rw [numBucketsBetween_of_eq hab]
      omega
  · have he : ¬ f.shape.cfgInterval ∣ e := fun hd => hw (haligned.2 hd)
    have hs : ¬ f.shape.cfgInterval ∣ s := fun hd => hw ((wellPlaced_iff hs0).2 (Or.inr hd))
    have hTe : f.shape.mapBucketIndexToTime j ≠ e := fun heq => he (heq ▸ hdvd)
    have hTs : f.shape.mapBucketIndexToTime j ≠ s := fun heq => hs (heq ▸ hdvd)
    rw [hup hw]
    rcases hmono.lt_or_eq with hab | hab
    · rw [add_right_comm, (numBucketsBetween_of_lt hab).2]
      omega
    · -- no time of the grid is in the range
      have hT := Grid.add_le_of_lt_of_dvd hpos (Grid.cellStart_dvd _ s) hdvd (by omega)
      omega

/-- **The buckets in range among those read** are those the file holds. -/
theorem filter_read_eq (htr : f.Traced ts) (hset : f.Settled ts) (h : f.Readable s e)
    (hse : s ≤ e) :
    ((RingIndex.consecutive (f.shape.mapTimeToBucketIndex s false)
        (min (f.numBucketsBetween s e false) f.shape.bucketCount).toNat).map f.bucketAt).filter
        (fun b => ¬ (b.time < s ∨ e < b.time)) = f.heldBetween s e := by
  have hn := f.shape.bucketCount_pos
  have hw := h.inWindow
  have hfirst := f.mapBucketIndexToTime_lt_start s
  unfold heldBetween liveIndices
  rw [List.filter_map]
  congr 1
  apply RingIndex.filter_consecutive_eq
  intro j
  simp only [Function.comp_apply, decide_eq_true_eq]
  constructor
  · rintro ⟨⟨h1, h2⟩, hrange⟩
    obtain ⟨hlive, htime⟩ := htr.holds hset hw h.pos hfirst h1 (by omega) (by omega)
    rw [htime] at hrange
    refine ⟨⟨by have := hlive.1; omega, by have := hlive.2; omega⟩, ⟨hlive, htime⟩, ?_⟩
    rcases (lt_count_iff (j := j) h hse (by omega)).1 ⟨by omega, by omega⟩ with hlt | heq
    · exact Or.inl ⟨by omega, hlt⟩
    · exact Or.inr heq
  · rintro ⟨-, ⟨hlive, htime⟩, hrange⟩
    have hs : s ≤ f.shape.mapBucketIndexToTime j := by omega
    obtain ⟨hcount, he⟩ := (lt_count_iff h hse hs).2 (by omega)
    have hij := f.shape.mapBucketIndexToTime_lt_iff.1 (hfirst.trans_le hs)
    have hlast := hlive.2
    exact ⟨⟨by omega, by omega⟩, by rw [htime]; omega⟩

/-- The buckets held in a range are in order of time. -/
theorem heldBetween_pairwise (f : StatFile D F) (s e : ℤ) :
    (f.heldBetween s e).Pairwise fun a b => a.time < b.time := by
  unfold heldBetween
  rw [List.pairwise_map]
  refine ((RingIndex.consecutive_pairwise _ _).filter _).imp_of_mem fun ha hb hab => ?_
  have ha' := of_decide_eq_true (List.mem_filter.1 ha).2
  have hb' := of_decide_eq_true (List.mem_filter.1 hb).2
  rw [ha'.1.2, hb'.1.2]
  exact f.shape.mapBucketIndexToTime_lt hab

end StatFile

/-! ### The files of a gauge -/

variable [FloatArith D F]

/-- The time of a record that a gauge admits. -/
def CounterOp.gaugeTime (F : Type) [FloatArith D F] : CounterOp D → Option ℤ
  | .record now time value _ min max cnt =>
    if StatCounter.AdmitsGauge F now time value min max cnt then some time else none
  | _ => none

namespace StatCounter

variable {c c' : StatCounter D F} {ts ts' : List ℤ}

/-- A gauge whose files got data of the times `ts`. -/
def GaugeTraced (c : StatCounter D F) (ts : List ℤ) : Prop :=
  ∀ g ∈ c.files, g.shape.isCollated = false ∧ (g.shape.isTrailing = false → g.Traced ts)

omit [FloatArith D F] in
theorem GaugeTraced.isCollated (h : c.GaugeTraced ts) : c.isCollated = false :=
  (h c.fine (by simp [files])).1

omit [FloatArith D F] in
/-- The same call made on all files. -/
theorem GaugeTraced.map (h : c.GaugeTraced ts) {φ : StatFile D F → StatFile D F}
    (hfiles : c'.files = c.files.map φ) (hshape : ∀ g, (φ g).shape = g.shape)
    (hφ : ∀ g, g.shape.isTrailing = false → g.shape.isCollated = false → g.Traced ts →
      (φ g).Traced ts') : c'.GaugeTraced ts' := by
  intro g' hg'
  rw [hfiles] at hg'
  obtain ⟨g, hg, rfl⟩ := List.mem_map.1 hg'
  obtain ⟨hcol, htr⟩ := h g hg
  rw [hshape]
  exact ⟨hcol, fun hnt => hφ g hnt hcol (htr hnt)⟩

theorem maybeShiftCollated_of_gauge (h : c.isCollated = false) (now t : ℤ) :
    c.maybeShiftCollated now t = c := by
  unfold maybeShiftCollated
  rw [if_neg (by simp [h])]

theorem GaugeTraced.flush (h : c.GaugeTraced ts) (now : ℤ) : (c.flush now).GaugeTraced ts := by
  refine h.map (φ := fun g => g.flush now) ?_ (fun g => StatFile.flush_shape now)
    fun g hnt _ htr => htr.congr (StatFile.flush_sameRing hnt now)
  unfold StatCounter.flush files
  rw [maybeShiftCollated_of_gauge h.isCollated]
  rfl

theorem GaugeTraced.close (h : c.GaugeTraced ts) (now : ℤ) : c.close now = c := by
  unfold StatCounter.close fullyShiftCollated
  split_ifs
  · exact maybeShiftCollated_of_gauge h.isCollated now _
  · exact maybeShiftCollated_of_gauge h.isCollated now _

/-- **One call** on a gauge. -/
theorem GaugeTraced.step (h : c.GaugeTraced ts) {op : CounterOp D} (hs : c.step op = .ok c') :
    c'.GaugeTraced (ts ++ (op.gaugeTime F).toList) := by
  cases op with
  | record now time value valueSq min max cnt =>
    simp only [StatCounter.step, record, h.isCollated, Bool.false_eq_true, if_false] at hs
    cases hs
    simp only [CounterOp.gaugeTime, recordGauge]
    split_ifs
    · refine h.map (φ := fun g => (g.updateBucket now _).2) rfl
        (fun g => StatFile.updateBucket_shape _ _) fun g hnt hcol htr => ?_
      exact htr.updateBucket hnt (by simp [hcol]) now
    · simpa using h
  | flush now =>
    cases hs
    simpa [CounterOp.gaugeTime] using h.flush now
  | forceFlush now =>
    cases hs
    unfold StatCounter.forceFlush fullyShiftCollated
    rw [maybeShiftCollated_of_gauge h.isCollated]
    simpa [CounterOp.gaugeTime] using h.flush now
  | maybeShiftCollated now t =>
    cases hs
    rw [maybeShiftCollated_of_gauge h.isCollated]
    simpa [CounterOp.gaugeTime] using h
  | reopen now =>
    cases hs
    have hmap : (c.reopen now).GaugeTraced ts := by
      refine h.map (φ := fun g => StatFile.ofDisk g.toDisk) ?_ (fun g => rfl)
        fun g _ _ htr => htr.congr g.reopen_sameRing
      unfold StatCounter.reopen files
      rw [h.close]
      rfl
    simpa [CounterOp.gaugeTime] using hmap

/-- **A run** of a gauge: its files get the times of the admitted records, in order. -/
theorem GaugeTraced.run {ops : List (CounterOp D)} (h : c.GaugeTraced ts)
    (hrun : ops.foldlM StatCounter.step c = .ok c') :
    c'.GaugeTraced (ts ++ ops.filterMap (CounterOp.gaugeTime F)) := by
  induction ops generalizing c ts with
  | nil =>
    cases hrun
    simpa using h
  | cons op ops ih =>
    cases hs : c.step op with
    | error e =>
      rw [Run.foldlM_cons_error hs] at hrun
      cases hrun
    | ok c₁ =>
      rw [Run.foldlM_cons_ok hs] at hrun
      have hrest := ih (h.step hs) hrun
      rw [List.append_assoc] at hrest
      cases hg : op.gaugeTime F <;> simpa [hg] using hrest

theorem gaugeTraced_new {sysPageSize clock zeroTime : ℤ} {first : RetentionInterval D F}
    {rest : List (RetentionInterval D F)}
    (hnew : construct sysPageSize clock false zeroTime (first, none)
      (rest.map fun ri => (ri, none)) = .ok c) : c.GaugeTraced [] := by
  obtain ⟨⟨⟨sh, hd, -, hfine⟩, hcol, -⟩, hcoarse⟩ := construct_new hnew
  intro g hg
  rcases List.mem_cons.1 hg with rfl | hg
  · refine ⟨hcol, fun _ => ?_⟩
    rw [hfine]
    exact StatFile.traced_new sh hd
  · obtain ⟨⟨sh, hd, -, rfl⟩, hgcol, -⟩ := hcoarse g hg
    exact ⟨hgcol, fun _ => StatFile.traced_new sh hd⟩

/-! ### Requests -/

/-- **A request to a gauge returns the stored data**: for every gauge reached from its construction,
every request for which a file that is not trailing is picked, and every clock, the range is rounded
outwards; and if the last admitted record of every index in the window of the file was well placed
and the rounded range is readable, then the buckets read are those the file holds in the range, each
once and in ascending order of time. -/
theorem gauge_select {sysPageSize clock zeroTime : ℤ} {first : RetentionInterval D F}
    {rest : List (RetentionInterval D F)} {c₀ : StatCounter D F}
    (hnew : construct sysPageSize clock false zeroTime (first, none)
      (rest.map fun ri => (ri, none)) = .ok c₀)
    {ops : List (CounterOp D)} (hrun : ops.foldlM StatCounter.step c₀ = .ok c)
    {now start stop i interval : ℤ} {sf : StatFile D F} (maxSamples : ℕ) (hstart : 0 < start)
    (hstop : start ≤ stop) (hmax : maxSamples ≠ 1)
    (hpick : c.pickStatFile now start stop i = (some sf, interval))
    (hnt : sf.shape.isTrailing = false) (now' : ℤ) :
    ∃ ns ne interval', normalizeRange start stop interval maxSamples = .ok (ns, ne, interval') ∧
      ns ≤ start ∧ stop ≤ ne ∧
      (sf.Settled (ops.filterMap (CounterOp.gaugeTime F)) → sf.Readable ns ne →
        c.readBucketsFromFile now' sf ns ne = sf.heldBetween ns ne ∧
          (c.readBucketsFromFile now' sf ns ne).Pairwise fun a b => a.time < b.time) := by
  obtain ⟨hmem, rfl, hin⟩ := pickStatFile_some hpick
  have hgauge := (gaugeTraced_new hnew).run hrun
  rw [List.nil_append] at hgauge
  obtain ⟨hcol, htr⟩ := hgauge sf hmem
  obtain ⟨ns, ne, interval', hok, -, hns, hne⟩ := normalizeRange_ok maxSamples
    hstart.le hstop sf.shape.cfgInterval_pos fun h1 => absurd h1 hmax
  refine ⟨ns, ne, interval', hok, hns, hne, fun hset hread => ?_⟩
  -- the rounded start is in the window, since it is not above the start of the request
  have hlast : sf.shape.mapTimeToBucketIndex ns false ≤ sf.header.lastBucket := by
    have hle := Grid.cell_mono (c := sf.shape.fileCreateTime) sf.shape.cfgInterval_pos hns
    rw [← Shape.mapTimeToBucketIndex_eq, ← Shape.mapTimeToBucketIndex_eq] at hle
    exact hle.trans (StatFile.le_of_isBucketIndexInFile hcol hin)
  have hlive := StatFile.isBucketIndexInFile_of_live (f := sf) now' ⟨hread.inWindow, hlast⟩
  have hcount := sf.numBucketsBetween_pos hread.pos.le (by omega : ns ≤ ne)
  have heq : c.readBucketsFromFile now' sf ns ne = sf.heldBetween ns ne := by
    unfold readBucketsFromFile
    simp only
    rw [toInt32_of_lt hcount hread.short, if_pos hcount, hgauge.isCollated,
      if_neg Bool.false_ne_true, sf.readBuckets_of_inFile hlive]
    exact StatFile.filter_read_eq (htr hnt) hset hread (by omega)
  exact ⟨heq, by rw [heq]; exact sf.heldBetween_pairwise ns ne⟩

end StatCounter

/-- A gauge with ten-second and one-minute intervals, created at time 1000. -/
def sampleGauge : StatCounter ℚ ℚ where
  fine := StatFile.ofDisk ⟨newShape 4096 1000 10
    ((Settings.forCounter ℚ false 0).forInterval 1 tenSeconds), newHeader ℚ 1000,
    fun _ _ => Bucket.zero⟩
  coarser := [StatFile.ofDisk ⟨newShape 4096 1000 60
    (((Settings.forCounter ℚ false 0).forInterval 1 tenSeconds).forInterval 10 oneMinute),
    newHeader ℚ 960, fun _ _ => Bucket.zero⟩]
  collations := fun _ => CollationInfo.empty
  accepted := []
  pushed := []

theorem sampleGauge_new :
    StatCounter.construct 4096 1000 false 0 (tenSeconds, none)
      ([oneMinute].map fun ri => (ri, none)) = .ok sampleGauge := rfl

/-- Records at 1890 and 7000, and a request from 6993 to 7003: the range is rounded to 6990 and
7010, and the bucket of 7000 is returned. -/
theorem gauge_select_sample :
    ∃ c, [recordAt 1890 1, recordAt 7000 1].foldlM StatCounter.step sampleGauge = .ok c ∧
      normalizeRange 6993 7003 10 2 = .ok (6990, 7010, 10) ∧
      c.readBucketsFromFile 7000 c.fine 6990 7010 = c.fine.heldBetween 6990 7010 := by
  obtain ⟨c, hc, hval⟩ := Run.exists_ok_of_toOption_map (show
    ([recordAt 1890 1, recordAt 7000 1].foldlM StatCounter.step sampleGauge).toOption.map (fun c =>
      (c.fine.isBucketIndexInFile 7000 (c.fine.shape.mapTimeToBucketIndex 6993 false),
        c.fine.shape.cfgInterval, c.fine.shape.isTrailing, c.fine.shape.fileCreateTime,
        decide (c.fine.Readable 6990 7010))) = some (true, 10, false, 1000, true) by decide +kernel)
  simp only [Prod.mk.injEq, decide_eq_true_eq] at hval
  obtain ⟨hin, hI, hnt, hcreate, hread⟩ := hval
  have hnorm : normalizeRange 6993 7003 10 2 = .ok (6990, 7010, 10) := by decide +kernel
  have htimes : [recordAt 1890 1, recordAt 7000 1].filterMap (CounterOp.gaugeTime ℚ) =
      [1890, 7000] := by decide +kernel
  have hpick := StatCounter.pickStatFile_of_fine 0 (by decide : (6993 : ℤ) ≤ 7003) hin
  obtain ⟨ns, ne, i, hok, -, -, hsel⟩ := StatCounter.gauge_select sampleGauge_new hc 2
    (by decide) (by decide) (by decide) hpick hnt 7000
  rw [hI, hnorm] at hok
  cases hok
  have hset : c.fine.Settled ([recordAt 1890 1, recordAt 7000 1].filterMap
      (CounterOp.gaugeTime ℚ)) := by
    rw [htimes]
    refine StatFile.settled_of_forall fun t ht => Or.inl ⟨?_, ?_⟩
    · simp only [List.mem_cons, List.not_mem_nil, or_false] at ht
      omega
    · rw [hcreate]
      simp only [List.mem_cons, List.not_mem_nil, or_false] at ht
      omega
  exact ⟨c, hc, hnorm, (hsel hset hread).1⟩

/-- A request from 1890 to 1920 for two samples: the start is rounded down to 1880, which has left
the window of 512 buckets up to 7000, and the bucket of 1890 is not returned. -/
theorem gauge_select_rounded :
    ∃ c, [recordAt 1890 1, recordAt 7000 1].foldlM StatCounter.step sampleGauge = .ok c ∧
      c.pickStatFile 7000 1890 1920 0 = (some c.fine, 10) ∧ c.fine.shape.isTrailing = false ∧
      normalizeRange 1890 1920 10 2 = .ok (1880, 1920, 20) ∧
      c.readBucketsFromFile 7000 c.fine 1880 1920 = [] ∧
      c.fine.heldBetween 1880 1920 = [Bucket.make 1 1 1 1 1 1890] := by
  obtain ⟨c, hc, hval⟩ := Run.exists_ok_of_toOption_map (show
    ([recordAt 1890 1, recordAt 7000 1].foldlM StatCounter.step sampleGauge).toOption.map (fun c =>
      (c.fine.isBucketIndexInFile 7000 (c.fine.shape.mapTimeToBucketIndex 1890 false),
        c.fine.shape.cfgInterval, c.fine.shape.isTrailing,
        decide (c.readBucketsFromFile 7000 c.fine 1880 1920 = []),
        decide (c.fine.heldBetween 1880 1920 = [Bucket.make 1 1 1 1 1 1890]))) =
      some (true, 10, false, true, true) by decide +kernel)
  simp only [Prod.mk.injEq, decide_eq_true_eq] at hval
  obtain ⟨hin, hI, hnt, hread, hheld⟩ := hval
  have hpick := StatCounter.pickStatFile_of_fine 0 (by decide : (1890 : ℤ) ≤ 1920) hin
  rw [hI] at hpick
  exact ⟨c, hc, hpick, hnt, by decide +kernel, hread, hheld⟩

end Istatd
