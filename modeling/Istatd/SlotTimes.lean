import Istatd.History
import Istatd.Lib.Run

/-!
# The times of the slots, in every update mode

A call of `rawUpdateBucket` recognises the bucket of its quantum by the time stored in the slot, and
clears the slot if that is another time.  The aggregating branch stores the time of the quantum; the
other branches, and every branch of a collated file, copy the bucket they are given with the time it
has.

* `TracedSlots`: a file with the index that was written last to each slot;
* `SlotsQuantised`: every written slot has the time of its index, so that a later call for the same
  quantum finds it;
* `slotsQuantised_iff`: the runs along which this holds.
-/

namespace Istatd

variable {D F : Type} [FloatArith D F]

namespace StatFile

/-- The branches of `rawUpdateBucket` that copy the data into the slot as it is. -/
def Copies (f : StatFile D F) (data : Bucket D F) (mode : RawUpdateMode) : Prop :=
  (mode = .onlyIfEmpty ∧ (f.found data).count = 0) ∨
    (mode ≠ .onlyIfEmpty ∧ (f.shape.isCollated = true ∨ mode = .overwrite ∨
      (mode = .fillEmpty ∧ (f.found data).count = 0)))

theorem mergeData_of_copies {f : StatFile D F} {data : Bucket D F} {mode : RawUpdateMode}
    (h : f.Copies data mode) : (mergeData f.shape mode data (f.found data)).1 = data := by
  unfold mergeData
  rcases h with ⟨hm, hc⟩ | ⟨hm, hcopy⟩
  · rw [if_pos hm, if_pos hc]
  · rw [if_neg hm, if_pos hcopy]

/-- Where the data is not copied, the slot is left with the time of the quantum. -/
theorem mergeData_time_of_not_copies {f : StatFile D F} {data : Bucket D F} {mode : RawUpdateMode}
    (h : ¬ f.Copies data mode) :
    (mergeData f.shape mode data (f.found data)).1.time = f.shape.targetBucketTime data.time := by
  have hf := f.found_time data
  have hup : ((f.found data).update (data.withTime (f.shape.targetBucketTime data.time))).time =
      f.shape.targetBucketTime data.time := Bucket.update_time hf
  unfold mergeData
  by_cases hm : mode = .onlyIfEmpty
  · have hc : (f.found data).count ≠ 0 := fun hc => h (Or.inl ⟨hm, hc⟩)
    rw [if_pos hm, if_neg hc]
    exact hf hc
  · rw [if_neg hm, if_neg fun hcopy => h (Or.inr ⟨hm, hcopy⟩)]
    simp only
    split_ifs
    · exact hup
    · exact hup

/-- **The time in the slot of an accepted call** is the time of its index exactly if the time is
well placed, and on the grid in case the data is copied. -/
theorem mergeData_time_eq_iff (f : StatFile D F) (data : Bucket D F) (mode : RawUpdateMode) :
    (mergeData f.shape mode data (f.found data)).1.time =
        f.shape.mapBucketIndexToTime (f.target data) ↔
      f.shape.WellPlaced data.time ∧ (f.Copies data mode → f.shape.cfgInterval ∣ data.time) := by
  have hw := f.shape.mapBucketIndexToTime_index_iff data.time
  by_cases hc : f.Copies data mode
  · rw [mergeData_of_copies hc]
    constructor
    · intro h
      have hd : f.shape.cfgInterval ∣ data.time := by
        rw [h]
        exact dvd_add f.shape.cfgInterval_dvd (dvd_mul_left _ _)
      exact ⟨Or.inr (Or.inr hd), fun _ => hd⟩
    · rintro ⟨hwp, hd⟩
      refine Eq.trans ?_ (hw.2 hwp).symm
      exact (Grid.cellStart_of_dvd (hd hc)).symm
  · rw [mergeData_time_of_not_copies hc, eq_comm]
    exact ⟨fun h => ⟨hw.1 h, fun h' => absurd h' hc⟩, fun h => hw.2 h.1⟩

end StatFile

/-- A file, and for each of its slots the index of the last accepted call that had it. -/
structure TracedSlots (D F : Type) where
  file : StatFile D F
  index : ℤ → Option ℤ

namespace TracedSlots

/-- A call of `rawUpdateBucket`, with its clock, data and mode. -/
def step (w : TracedSlots D F) (call : ℤ × Bucket D F × RawUpdateMode) : TracedSlots D F where
  file := (w.file.rawUpdateBucket call.1 call.2.1 call.2.2).2
  index :=
    if w.file.Accepts call.2.1 then
      Function.update w.index (w.file.target call.2.1 % w.file.shape.bucketCount)
        (some (w.file.target call.2.1))
    else w.index

/-- Every slot that was written has the time of its index, which is on the grid of the file, and a
call for that index and quantum finds the bucket as it is stored. -/
def SlotsQuantised (w : TracedSlots D F) : Prop :=
  ∀ i, w.index (i % w.file.shape.bucketCount) = some i →
    w.file.shape.cfgInterval ∣ (w.file.bucketAt i).time ∧
      (w.file.bucketAt i).time = w.file.shape.mapBucketIndexToTime i ∧
      ∀ data : Bucket D F, w.file.target data = i →
        w.file.shape.targetBucketTime data.time = w.file.shape.mapBucketIndexToTime i →
        w.file.found data = w.file.bucketAt i

/-- A call keeps the times quantised if it is rejected, or if its time is well placed and on the
grid in case the data is copied. -/
def KeepsTimes (w : TracedSlots D F) (call : ℤ × Bucket D F × RawUpdateMode) : Prop :=
  w.file.Accepts call.2.1 →
    w.file.shape.WellPlaced call.2.1.time ∧
      (w.file.Copies call.2.1 call.2.2 → w.file.shape.cfgInterval ∣ call.2.1.time)

theorem step_shape (w : TracedSlots D F) (call : ℤ × Bucket D F × RawUpdateMode) :
    (w.step call).file.shape = w.file.shape :=
  StatFile.rawUpdateBucket_shape call.1 call.2.1 call.2.2

/-- The times alone make a file quantised. -/
theorem slotsQuantised_of_times {w : TracedSlots D F}
    (h : ∀ i, w.index (i % w.file.shape.bucketCount) = some i →
      (w.file.bucketAt i).time = w.file.shape.mapBucketIndexToTime i) : w.SlotsQuantised := by
  intro i hi
  refine ⟨?_, h i hi, fun data hdata ht => ?_⟩
  · rw [h i hi]
    exact dvd_add w.file.shape.cfgInterval_dvd (dvd_mul_left _ _)
  · unfold StatFile.found
    rw [hdata, h i hi, ht, if_neg (not_ne_iff.2 rfl)]

/-- One call. -/
theorem step_slotsQuantised_iff {w : TracedSlots D F} (hnt : w.file.shape.isTrailing = false)
    (hw : w.SlotsQuantised) (call : ℤ × Bucket D F × RawUpdateMode) :
    (w.step call).SlotsQuantised ↔ w.KeepsTimes call := by
  obtain ⟨now, data, mode⟩ := call
  unfold KeepsTimes
  by_cases hacc : w.file.Accepts data
  · have hring := StatFile.rawUpdateBucket_bucketAt now data mode hnt hacc
    have hindex : (w.step (now, data, mode)).index = Function.update w.index
        (w.file.target data % w.file.shape.bucketCount) (some (w.file.target data)) := if_pos hacc
    simp only [hacc, forall_const]
    rw [← StatFile.mergeData_time_eq_iff]
    constructor
    · intro h
      have htime := (h (w.file.target data) (by rw [hindex, step_shape, Function.update_self])).2.1
      rw [step_shape] at htime
      rw [← htime]
      show _ = ((w.file.rawUpdateBucket now data mode).2.bucketAt (w.file.target data)).time
      rw [hring, if_pos rfl]
    · intro h
      refine slotsQuantised_of_times fun i hi => ?_
      rw [step_shape, hindex] at hi
      rw [step_shape]
      show ((w.file.rawUpdateBucket now data mode).2.bucketAt i).time = _
      rw [hring]
      by_cases hslot : i % w.file.shape.bucketCount =
          w.file.target data % w.file.shape.bucketCount
      · rw [if_pos hslot]
        rw [hslot, Function.update_self] at hi
        rw [h, Option.some.inj hi]
      · rw [if_neg hslot]
        rw [Function.update_of_ne hslot] at hi
        exact (hw i hi).2.1
  · have hsame : w.step (now, data, mode) = w := by
      unfold step
      simp only [hacc, if_false, StatFile.rawUpdateBucket_of_old now data mode hacc]
    rw [hsame]
    exact ⟨fun _ h => absurd h hacc, fun _ => hw⟩

/-- **Quantised slots, and the runs that keep them.**  For every file that is not trailing and every
run of calls in any mix of modes, in all states of the run every written slot has the time of its
index, so that a later call for that quantum finds the bucket and does not clear it, if and only if
every accepted call has a well placed time, which is on the grid of the file if the call copies its
data. -/
theorem slotsQuantised_iff (f₀ : StatFile D F) (hnt : f₀.shape.isTrailing = false)
    (calls : List (ℤ × Bucket D F × RawUpdateMode)) :
    Run.Always step SlotsQuantised ⟨f₀, fun _ => none⟩ calls ↔
      Run.Along step KeepsTimes ⟨f₀, fun _ => none⟩ calls := by
  have hzero : SlotsQuantised (⟨f₀, fun _ => none⟩ : TracedSlots D F) :=
    slotsQuantised_of_times fun i hi => by cases hi
  rw [Run.always_iff_along (J := fun w : TracedSlots D F => w.file.shape.isTrailing = false)
    (fun w call h => by rw [step_shape]; exact h)
    (fun w call h hw => step_slotsQuantised_iff h hw call) hnt]
  exact ⟨fun h => h.2, fun h => ⟨hzero, h⟩⟩

end TracedSlots

/-- An overwrite on the grid and an aggregating update off it, in the file created at 100. -/
theorem slotsQuantised_sample :
    Run.Always TracedSlots.step TracedSlots.SlotsQuantised ⟨sampleFile, fun _ => none⟩
      [(0, Bucket.blank 1 110, .overwrite), (0, Bucket.blank 1 117, .aggregate)] := by
  refine (TracedSlots.slotsQuantised_iff sampleFile (by decide) _).2 ⟨?_, ?_, trivial⟩
  · exact fun _ => ⟨Or.inl (by decide), fun _ => by decide⟩
  · exact fun _ => ⟨Or.inl (by decide), fun hc => absurd hc (by unfold StatFile.Copies; decide)⟩

/-- An overwrite at time 105 leaves that time in the slot of the quantum 100, and the next update of
the quantum finds it empty. -/
theorem slotsQuantised_overwrite :
    ¬ Run.Always TracedSlots.step TracedSlots.SlotsQuantised ⟨sampleFile, fun _ => none⟩
        [(0, Bucket.blank 1 105, .overwrite)] ∧
      ((sampleFile.rawUpdateBucket 0 (Bucket.blank 1 105) .overwrite).2.found
        (Bucket.blank 1 107)).count = 0 := by
  refine ⟨fun h => ?_, by decide +kernel⟩
  have htime := (h _ (List.prefix_refl _) 0 (by decide +kernel)).2.1
  exact absurd htime (by decide +kernel)

end Istatd
