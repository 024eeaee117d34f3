import Istatd.Lib.Run
import Istatd.RingInvariant

/-!
# The cumulative totals of a file

The header of a file has the totals of all data that was accepted since its creation, and every
accepted call of `updateBucket` adds its data to them.  What it does to the slot is another matter:
the data is merged into the bucket, or takes its place.  All sums here are exact (`ℚ`).

* `storedSum`, `storedSumSq`: the totals of the slots (as long as the ring has not gone round, no
  slot is stale);
* `Replaces`: the calls that drop what is in their slot;
* `storedSum_updateBucket`: what a call does to the totals of the slots;
* `cumulative_matches_iff`: when the header and the slots agree.
-/

namespace Istatd

namespace StatFile

/-- A total over the slots of a file. -/
def storedTotal (g : Bucket ℚ ℚ → ℚ) (f : StatFile ℚ ℚ) : ℚ :=
  ∑ i ∈ Finset.range f.shape.bucketCount.toNat, g (f.bucketAt i)

/-- The sum of `sum` over the stored buckets. -/
def storedSum (f : StatFile ℚ ℚ) : ℚ := f.storedTotal fun b => b.sum

/-- The sum of `sumSq` over the stored buckets. -/
def storedSumSq (f : StatFile ℚ ℚ) : ℚ := f.storedTotal fun b => b.sumSq

/-- The header has the totals of the stored buckets. -/
def CumulativeMatches (f : StatFile ℚ ℚ) : Prop :=
  f.header.cumulativeSum = f.storedSum ∧ f.header.cumulativeSumSq = f.storedSumSq

/-- The data of a call takes the place of what is in its slot: the file is collated, or the bucket
there is of another time, or it counts nothing. -/
def Replaces (f : StatFile ℚ ℚ) (data : Bucket ℚ ℚ) : Prop :=
  f.shape.isCollated = true ∨
    (f.bucketAt (f.target data)).time ≠ f.shape.targetBucketTime data.time ∨
    (f.bucketAt (f.target data)).count = 0

/-- An accepted call that replaces what is in its slot finds nothing there that was counted. -/
def DropsNothing (f : StatFile ℚ ℚ) (c : ℤ × Bucket ℚ ℚ) : Prop :=
  f.Accepts c.2 → f.Replaces c.2 →
    (f.bucketAt (f.target c.2)).sum = 0 ∧ (f.bucketAt (f.target c.2)).sumSq = 0

instance (f : StatFile ℚ ℚ) (c : ℤ × Bucket ℚ ℚ) : Decidable (f.DropsNothing c) :=
  inferInstanceAs (Decidable (_ < _ → (_ ∨ _ ∨ _) → _ ∧ _))

/-- A call of `updateBucket`: the clock, and the data. -/
def updateStep (f : StatFile ℚ ℚ) (c : ℤ × Bucket ℚ ℚ) : StatFile ℚ ℚ := (f.updateBucket c.1 c.2).2

/-! ### One call -/

variable {f : StatFile ℚ ℚ} {data : Bucket ℚ ℚ} {now : ℤ}

/-- What the slot of an accepted call holds after it. -/
theorem mergeData_totals (f : StatFile ℚ ℚ) (data : Bucket ℚ ℚ) :
    (mergeData f.shape .aggregate data (f.found data)).2 = true ∧
    (f.Replaces data → (mergeData f.shape .aggregate data (f.found data)).1.sum = data.sum ∧
      (mergeData f.shape .aggregate data (f.found data)).1.sumSq = data.sumSq) ∧
    (¬f.Replaces data →
      (mergeData f.shape .aggregate data (f.found data)).1.sum =
        (f.bucketAt (f.target data)).sum + data.sum ∧
      (mergeData f.shape .aggregate data (f.found data)).1.sumSq =
        (f.bucketAt (f.target data)).sumSq + data.sumSq) := by
  have hsetCount : ∀ (b : Bucket ℚ ℚ) c, (b.setCount c).sum = b.sum ∧
      (b.setCount c).sumSq = b.sumSq := fun b c => ⟨rfl, rfl⟩
  by_cases hcol : f.shape.isCollated = true
  · have hcopy : mergeData f.shape .aggregate data (f.found data) = (data, true) := by
      simp [mergeData, hcol]
    rw [hcopy]
    exact ⟨rfl, fun _ => ⟨rfl, rfl⟩, fun h => absurd (.inl hcol) h⟩
  · set merged := (f.found data).update (data.withTime (f.shape.targetBucketTime data.time))
      with hmerged
    have heq : mergeData f.shape .aggregate data (f.found data) =
        (if f.shape.isCounterAggregate then merged.setCount (toInt32 f.shape.fixedCount)
          else merged, true) := by
      simp [mergeData, hcol, hmerged]
    have hsums : ∀ b, b = (if f.shape.isCounterAggregate then
        merged.setCount (toInt32 f.shape.fixedCount) else merged) →
        b.sum = merged.sum ∧ b.sumSq = merged.sumSq := by
      rintro b rfl
      split_ifs
      · exact hsetCount merged _
      · exact ⟨rfl, rfl⟩
    rw [heq]
    refine ⟨rfl, fun hrep => ?_, fun hrep => ?_⟩
    · have hzero : (f.found data).count = 0 := by
        unfold found
        split_ifs with htime
        · rfl
        · exact (hrep.resolve_left hcol).resolve_left htime
      rw [(hsums _ rfl).1, (hsums _ rfl).2, hmerged, Bucket.update_of_count_eq_zero hzero]
      exact ⟨rfl, rfl⟩
    · simp only [Replaces, not_or, not_not] at hrep
      obtain ⟨-, htime, hcount⟩ := hrep
      have hfound : f.found data = f.bucketAt (f.target data) := if_neg (not_not.2 htime)
      rw [(hsums _ rfl).1, (hsums _ rfl).2, hmerged, hfound, Bucket.update, if_neg hcount]
      exact ⟨rfl, rfl⟩

/-- A total over the slots after an accepted call: that of its slot has changed. -/
theorem storedTotal_updateBucket (g : Bucket ℚ ℚ → ℚ) (hnt : f.shape.isTrailing = false)
    (h : f.Accepts data) :
    (f.updateBucket now data).2.storedTotal g =
      f.storedTotal g - g (f.bucketAt (f.target data)) +
        g (mergeData f.shape .aggregate data (f.found data)).1 := by
  unfold storedTotal
  rw [updateBucket_shape]
  set n := f.shape.bucketCount with hn
  obtain ⟨hk0, hkn⟩ : 0 ≤ f.target data % n ∧ f.target data % n < n :=
    f.emod_bucketCount_mem (f.target data)
  set k := (f.target data % n).toNat with hk
  have hkmem : k ∈ Finset.range n.toNat := by
    rw [Finset.mem_range]
    omega
  have hold : f.bucketAt k = f.bucketAt (f.target data) := by
    refine f.bucketAt_congr ?_
    rw [hk, Int.toNat_of_nonneg hk0, Int.emod_emod]
  have hterm : ∀ i ∈ Finset.range n.toNat, g ((f.updateBucket now data).2.bucketAt i) =
      g (f.bucketAt i) + if k = i then g (mergeData f.shape .aggregate data (f.found data)).1 -
        g (f.bucketAt (f.target data)) else 0 := by
    intro i hi
    rw [Finset.mem_range] at hi
    have hmod : (i : ℤ) % n = i := Int.emod_eq_of_lt (by omega) (by omega)
    rw [updateBucket_bucketAt now data hnt h, ← hn, hmod]
    by_cases hik : k = i
    · have hz : (i : ℤ) = f.target data % n := by omega
      rw [if_pos hz, if_pos hik, ← hik, hold]
      ring
    · have hz : (i : ℤ) ≠ f.target data % n := by omega
      rw [if_neg hz, if_neg hik, add_zero]
  rw [Finset.sum_congr rfl hterm, Finset.sum_add_distrib, Finset.sum_ite_eq, if_pos hkmem]
  ring

/-- The header after an accepted call. -/
theorem updateBucket_cumulative (now : ℤ) (hnt : f.shape.isTrailing = false) (h : f.Accepts data) :
    (f.updateBucket now data).2.header.cumulativeSum = f.header.cumulativeSum + data.sum ∧
      (f.updateBucket now data).2.header.cumulativeSumSq =
        f.header.cumulativeSumSq + data.sumSq := by
  have hmoved : ∀ i t, (f.moved i t).header.cumulativeSum = f.header.cumulativeSum ∧
      (f.moved i t).header.cumulativeSumSq = f.header.cumulativeSumSq := fun i t => by
    unfold moved advance lowerFirst
    split_ifs <;> exact ⟨rfl, rfl⟩
  obtain ⟨hsum, hsumSq⟩ := hmoved (f.target data) (f.shape.targetBucketTime data.time)
  rw [updateBucket, rawUpdateBucket_of_accepts now data .aggregate hnt h]
  simp only [(mergeData_totals f data).1, if_true]
  rw [← hsum, ← hsumSq]
  exact ⟨rfl, rfl⟩

/-- **One call.**  If header and slots agree before it, they agree after it just when it drops
nothing that was counted. -/
theorem cumulativeMatches_updateStep (hnt : f.shape.isTrailing = false) (hf : f.CumulativeMatches)
    (c : ℤ × Bucket ℚ ℚ) : (f.updateStep c).CumulativeMatches ↔ f.DropsNothing c := by
  unfold updateStep DropsNothing
  by_cases hacc : f.Accepts c.2
  · obtain ⟨hsum, hsumSq⟩ := hf
    obtain ⟨-, hrep, hmerge⟩ := mergeData_totals f c.2
    obtain ⟨hcum, hcumSq⟩ := updateBucket_cumulative c.1 hnt hacc
    unfold CumulativeMatches storedSum storedSumSq
    rw [hcum, hcumSq, storedTotal_updateBucket _ hnt hacc, storedTotal_updateBucket _ hnt hacc,
      hsum, hsumSq, storedSum, storedSumSq]
    by_cases hr : f.Replaces c.2
    · rw [(hrep hr).1, (hrep hr).2]
      constructor
      · rintro ⟨h, h'⟩ - -
        exact ⟨by linarith, by linarith⟩
      · intro h
        obtain ⟨h, h'⟩ := h hacc hr
        rw [h, h']
        exact ⟨by ring, by ring⟩
    · rw [(hmerge hr).1, (hmerge hr).2]
      constructor
      · exact fun _ _ h => absurd h hr
      · intro
        exact ⟨by ring, by ring⟩
  · rw [updateBucket_of_old c.1 c.2 hacc]
    exact ⟨fun _ h => absurd h hacc, fun _ => hf⟩

/-! ### Runs -/

theorem cumulativeMatches_new {sh : Shape ℚ} :
    (ofDisk ⟨sh, newHeader ℚ sh.fileCreateTime, fun _ _ => Bucket.zero⟩ :
      StatFile ℚ ℚ).CumulativeMatches := by
  have hzero : ∀ i, (ofDisk ⟨sh, newHeader ℚ sh.fileCreateTime, fun _ _ => Bucket.zero⟩ :
      StatFile ℚ ℚ).bucketAt i = Bucket.zero := fun i => by
    unfold bucketAt slot ofDisk
    rw [PageCache.ofDisk_view]
  constructor
  · unfold storedSum storedTotal
    simp only [hzero]
    exact (Finset.sum_const_zero).symm
  · unfold storedSumSq storedTotal
    simp only [hzero]
    exact (Finset.sum_const_zero).symm

/-- **When the cumulative totals match the data.**  In a run of `updateBucket` calls on a new file
that is not trailing, the header has the totals of the stored buckets in every state reached just
when no accepted call drops from its slot something that was counted. -/
theorem cumulative_matches_iff {sysPageSize clock : ℤ} {init : Settings ℚ} {f₀ : StatFile ℚ ℚ}
    (hnew : openOrCreate sysPageSize clock none init = .ok f₀)
    (hnt : f₀.shape.isTrailing = false) (calls : List (ℤ × Bucket ℚ ℚ)) :
    Run.Always updateStep CumulativeMatches f₀ calls ↔
      Run.Along updateStep DropsNothing f₀ calls := by
  have hstart : f₀.CumulativeMatches := by
    obtain ⟨sh, -, rfl⟩ := openOrCreate_new hnew
    exact cumulativeMatches_new
  rw [Run.always_iff_along (J := fun f => f.shape.isTrailing = false) (P := DropsNothing)
    (fun f c h => by rw [updateStep, updateBucket_shape, h])
    (fun f c hnt' hf => cumulativeMatches_updateStep hnt' hf c) hnt]
  exact and_iff_right hstart

end StatFile

/-- Settings of a collated file with ten-second buckets, created at time 100. -/
def collatedSettings : Settings ℚ := { sampleSettings with flags := fileFlagIsCollated }

/-- The file just created. -/
def collatedFile : StatFile ℚ ℚ :=
  StatFile.ofDisk ⟨newShape 4096 100 10 collatedSettings, newHeader ℚ 100, fun _ _ => Bucket.zero⟩

/-- A total of one quantum, and a newer total of the same quantum. -/
def rewrittenTotals : List (ℤ × Bucket ℚ ℚ) :=
  [(200, Bucket.make 1 1 1 1 1 200), (200, Bucket.make 3 9 3 3 1 200)]

/-- The earlier contents are counted again. -/
theorem rewrittenTotals_counted_twice :
    StatFile.openOrCreate 4096 0 none collatedSettings = .ok collatedFile ∧
      (rewrittenTotals.foldl StatFile.updateStep collatedFile).header.cumulativeSum = 4 ∧
      ((rewrittenTotals.foldl StatFile.updateStep collatedFile).bucketAt 10).sum = 3 ∧
      ¬(rewrittenTotals.foldl StatFile.updateStep collatedFile).CumulativeMatches := by
  refine ⟨rfl, by decide +kernel, by decide +kernel, ?_⟩
  have hnew : collatedFile.CumulativeMatches := StatFile.cumulativeMatches_new
  set f := collatedFile.updateStep (200, Bucket.make 1 1 1 1 1 200) with hf
  have hfirst : f.CumulativeMatches := by
    rw [hf, StatFile.cumulativeMatches_updateStep rfl hnew]
    decide +kernel
  have hnt : f.shape.isTrailing = false := by
    rw [hf, StatFile.updateStep, StatFile.updateBucket_shape]
    rfl
  show ¬(f.updateStep (200, Bucket.make 3 9 3 3 1 200)).CumulativeMatches
  rw [StatFile.cumulativeMatches_updateStep hnt hfirst]
  decide +kernel

/-- A gauge file: two samples of one quantum, and one of the next. -/
theorem cumulative_matches_sample :
    Run.Always StatFile.updateStep StatFile.CumulativeMatches sampleFile
      [(200, Bucket.make 1 1 1 1 1 200), (203, Bucket.make 3 9 3 3 1 203),
        (210, Bucket.make 2 4 2 2 1 210)] := by
  refine (StatFile.cumulative_matches_iff sampleFile_new rfl _).2 ?_
  decide +kernel

end Istatd
