import Istatd.RingFile

/-!
# The ring header, and isolation of quanta

Two facts about every call on a counter file.  The header always describes a window of one lap, over
which the slots are distinct, and a rejected call changes nothing (`ringHeader_run`).  In a file
that is not trailing, an accepted call changes the bucket of its own quantum only, provided that the
index of its time is the index of its quantum (`quantum_isolated_iff`): this fails for times before
the creation of the file that are not on its grid, since the index is a truncating quotient.
-/

namespace Istatd

namespace StatFile

variable {D F : Type} [FloatArith D F]

/-- A run of `rawUpdateBucket` calls, each with its clock, data and mode. -/
def rawUpdates (f : StatFile D F) : List (ℤ × Bucket D F × RawUpdateMode) → StatFile D F
  | [] => f
  | (now, data, mode) :: calls => rawUpdates (f.rawUpdateBucket now data mode).2 calls

theorem rawUpdates_ringHeader {f : StatFile D F} (h : f.RingHeader)
    (calls : List (ℤ × Bucket D F × RawUpdateMode)) : (f.rawUpdates calls).RingHeader := by
  induction calls generalizing f with
  | nil => exact h
  | cons call calls ih => exact ih (rawUpdateBucket_ringHeader _ _ _ h)

/-- What `openOrCreate` returns for a path that does not exist. -/
theorem openOrCreate_new {sysPageSize now : ℤ} {init : Settings D} {f : StatFile D F}
    (h : openOrCreate sysPageSize now none init = .ok f) :
    ∃ sh, writeNewHeader F sysPageSize now init = .ok (sh, newHeader F sh.fileCreateTime) ∧
      f = ofDisk ⟨sh, newHeader F sh.fileCreateTime, fun _ _ => Bucket.zero⟩ := by
  unfold openOrCreate DiskFile.create at h
  cases hw : writeNewHeader F sysPageSize now init with
  | error e => rw [hw] at h; cases h
  | ok p =>
    obtain ⟨sh, hd⟩ := p
    rw [hw] at h
    cases h
    rw [(writeNewHeader_ok hw).2]
    exact ⟨sh, rfl, rfl⟩

theorem openOrCreate_ringHeader {sysPageSize now : ℤ} {init : Settings D} {f : StatFile D F}
    (h : openOrCreate sysPageSize now none init = .ok f) : f.RingHeader := by
  obtain ⟨sh, -, rfl⟩ := openOrCreate_new h
  exact ⟨le_rfl, by have := sh.bucketCount_pos; show (0 : ℤ) < 0 + sh.bucketCount; omega⟩

/-- **The ring header in every mode.**  After every call of a run from a new file the header spans
one lap of the ring at most, the head has not moved back, the live indices have slots inside the
file and of their own, and a rejected call has changed neither header nor pending nor stored
buckets. -/
theorem ringHeader_run {sysPageSize clock : ℤ} {init : Settings D} {f₀ : StatFile D F}
    (hnew : openOrCreate sysPageSize clock none init = .ok f₀)
    (calls : List (ℤ × Bucket D F × RawUpdateMode)) (now : ℤ) (data : Bucket D F)
    (mode : RawUpdateMode) :
    let f := f₀.rawUpdates calls
    let accepted := (f.rawUpdateBucket now data mode).1
    let f' := (f.rawUpdateBucket now data mode).2
    let N := f'.shape.bucketCount
    (f'.header.firstBucket ≤ f'.header.lastBucket ∧
        f'.header.lastBucket < f'.header.firstBucket + N) ∧
      f.header.lastBucket ≤ f'.header.lastBucket ∧
      (∀ now' i, f'.header.lastBucket - N < i → i ≤ f'.header.lastBucket →
        0 ≤ f'.mapBucketIndexToFileIndex now' i ∧ f'.mapBucketIndexToFileIndex now' i < N) ∧
      (∀ now' i j, f'.header.lastBucket - N < i → i ≤ f'.header.lastBucket →
        f'.header.lastBucket - N < j → j ≤ f'.header.lastBucket →
        f'.mapBucketIndexToFileIndex now' i = f'.mapBucketIndexToFileIndex now' j → i = j) ∧
      (accepted = false →
        f'.header = f.header ∧ f'.expBucket = f.expBucket ∧ ∀ fi, f'.slot fi = f.slot fi) := by
  intro f accepted f' N
  have hr : f.RingHeader := rawUpdates_ringHeader (openOrCreate_ringHeader hnew) calls
  refine ⟨rawUpdateBucket_ringHeader now data mode hr, ?_, ?_, ?_, ?_⟩
  · show f.header.lastBucket ≤ (f.rawUpdateBucket now data mode).2.header.lastBucket
    rw [rawUpdateBucket_lastBucket]
    exact le_max_left _ _
  · intro now' i h1 h2
    rw [mapBucketIndexToFileIndex_of_live (f := f') ⟨h1, h2⟩]
    exact f'.emod_bucketCount_mem i
  · intro now' i j hi1 hi2 hj1 hj2 h
    rw [mapBucketIndexToFileIndex_of_live (f := f') ⟨hi1, hi2⟩,
      mapBucketIndexToFileIndex_of_live (f := f') ⟨hj1, hj2⟩] at h
    exact RingIndex.Live.eq_of_emod_eq ⟨hi1, hi2⟩ ⟨hj1, hj2⟩ h
  · intro hrej
    have hold : ¬ f.Accepts data := by
      have h := rawUpdateBucket_fst (f := f) now data mode
      rw [show (f.rawUpdateBucket now data mode).1 = false from hrej] at h
      exact of_decide_eq_false h.symm
    have he : f' = f := by
      show (f.rawUpdateBucket now data mode).2 = f
      rw [rawUpdateBucket_of_old now data mode hold]
    rw [he]
    exact ⟨rfl, rfl, fun _ => rfl⟩

end StatFile

/-- Settings of a gauge file with ten-second buckets and two pages of 256, created at time 100. -/
def sampleSettings : Settings ℚ where
  zeroTime := 100
  intervalTime := 10
  numSamples := 360
  flags := 0#32
  season := 0
  lambda := 0
  fixedCount := 0

/-- The shape of that file. -/
def sampleShape : Shape ℚ := newShape 4096 100 10 sampleSettings

/-- The file just created. -/
def sampleFile : StatFile ℚ ℚ :=
  StatFile.ofDisk ⟨sampleShape, newHeader ℚ 100, fun _ _ => Bucket.zero⟩

theorem sampleFile_new : StatFile.openOrCreate 4096 0 none sampleSettings = .ok sampleFile := rfl

/-- The header after a jump of 590 buckets and a late overwrite. -/
theorem ringHeader_run_sample :
    let f := sampleFile.rawUpdates [(0, Bucket.blank 1 6000, .aggregate)]
    let f' := (f.rawUpdateBucket 0 (Bucket.blank 1 1000) .overwrite).2
    f'.header.firstBucket ≤ f'.header.lastBucket ∧
      f'.header.lastBucket < f'.header.firstBucket + f'.shape.bucketCount :=
  (StatFile.ringHeader_run sampleFile_new [(0, Bucket.blank 1 6000, .aggregate)] 0
    (Bucket.blank 1 1000) .overwrite).1

/-! ### Isolation -/

namespace StatFile

variable {D F : Type} [FloatArith D F]

/-- The call changes no bucket of a quantum in the window after it other than its own. -/
def QuantumIsolated (f : StatFile D F) (now : ℤ) (data : Bucket D F) : Prop :=
  (f.updateBucket now data).1 = true →
    ∀ i, (f.updateBucket now data).2.Live i →
      f.shape.mapBucketIndexToTime i ≠ data.time - data.time.tmod f.shape.cfgInterval →
      (f.updateBucket now data).2.bucketAt i = f.bucketAt i

/-- For the times a sample can have, being well placed is a matter of the creation time. -/
theorem wellPlaced_iff {sh : Shape D} {t : ℤ} (ht : 0 ≤ t) :
    sh.WellPlaced t ↔ sh.fileCreateTime ≤ t ∨ sh.cfgInterval ∣ t := by
  unfold Shape.WellPlaced Grid.Aligned
  constructor
  · rintro (⟨-, h⟩ | ⟨h, -⟩ | h)
    · exact Or.inl h
    · obtain rfl : t = 0 := by omega
      exact Or.inr (dvd_zero _)
    · exact Or.inr h
  · rintro (h | h)
    · exact Or.inl ⟨ht, h⟩
    · exact Or.inr (Or.inr h)

theorem quantumIsolated_of_wellPlaced {f : StatFile D F} {now : ℤ} {data : Bucket D F}
    (hnt : f.shape.isTrailing = false) (hw : f.shape.WellPlaced data.time) :
    f.QuantumIsolated now data := by
  intro _ i hi hne
  refine updateBucket_bucketAt_of_ne now data hnt hi fun he => hne ?_
  subst he
  exact (f.shape.mapBucketIndexToTime_index_iff data.time).2 hw

/-- **Quantum isolation, and where it holds.**  For every file that is not trailing and every time
`t ≥ 0`, an accepted call changes only the bucket of the quantum `t - t % interval`, and that
quantum is the one of the index of `t`, if and only if `t` is not before the creation time or is on
the grid of the file. -/
theorem quantum_isolated_iff (f : StatFile D F) (now : ℤ) (data : Bucket D F)
    (hnt : f.shape.isTrailing = false) (ht : 0 ≤ data.time) :
    (f.QuantumIsolated now data ∧
        f.shape.mapBucketIndexToTime (f.shape.mapTimeToBucketIndex data.time false) =
          data.time - data.time.tmod f.shape.cfgInterval) ↔
      f.shape.fileCreateTime ≤ data.time ∨ f.shape.cfgInterval ∣ data.time := by
  rw [← wellPlaced_iff ht]
  constructor
  · rintro ⟨-, h⟩
    exact (f.shape.mapBucketIndexToTime_index_iff data.time).1 h
  · intro h
    exact ⟨quantumIsolated_of_wellPlaced hnt h,
      (f.shape.mapBucketIndexToTime_index_iff data.time).2 h⟩

end StatFile

/-- The call at time 107 of a file created at 100 leaves all quanta but its own. -/
theorem quantum_isolated_sample :
    sampleFile.QuantumIsolated 0 (Bucket.blank 1 107) :=
  ((StatFile.quantum_isolated_iff sampleFile 0 (Bucket.blank 1 107) (by decide) (by decide)).2
    (Or.inl (by decide))).1

/-- A record at time 95, before the creation time 100, clears the bucket of the quantum 100: the
index of 95 is 0 and its quantum starts at 90. -/
theorem quantum_isolated_late :
    ¬ (sampleFile.updateBucket 0 (Bucket.blank 1 100)).2.QuantumIsolated 0 (Bucket.blank 1 95) := by
  intro h
  have hb := congrArg Bucket.time (h (by decide +kernel) 0
    ⟨by decide +kernel, by decide +kernel⟩ (by decide +kernel))
  exact absurd hb (by decide +kernel)

end Istatd
