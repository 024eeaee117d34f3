import Istatd.History

/-!
# The times in a ring

A reader of the ring recognises the bucket of a quantum by the time in the slot.  `Traced f ts` says
where these times come from, for a file that got data of the times `ts`: the time in a live slot is
the rounded time of the last data for its index, unless the slot is empty or older than the window.
A time before the creation of the file that is not on its grid has the index of the next quantum; as
long as it is the last of its index, the slot carries a time that is not that of its index.

* `Traced.updateBucket`: one call;
* `Traced.holds`: what a reader of one lap can conclude from a time in its range.
-/

namespace Istatd

variable {D F : Type}

namespace Shape

variable {sh : Shape D} {ts : List ℤ} {t j : ℤ}

/-- The last of the times `ts` that have index `j`. -/
def lastOf (sh : Shape D) (ts : List ℤ) (j : ℤ) : Option ℤ :=
  (ts.filter fun t => sh.mapTimeToBucketIndex t false = j).getLast?

theorem lastOf_append_self (h : sh.mapTimeToBucketIndex t false = j) :
    sh.lastOf (ts ++ [t]) j = some t := by
  simp [lastOf, h]

theorem lastOf_append_of_ne (h : sh.mapTimeToBucketIndex t false ≠ j) :
    sh.lastOf (ts ++ [t]) j = sh.lastOf ts j := by
  simp [lastOf, h]

theorem lastOf_mem (h : sh.lastOf ts j = some t) :
    t ∈ ts ∧ sh.mapTimeToBucketIndex t false = j := by
  have hmem := List.mem_of_getLast? h
  simpa using hmem

/-- A rounded time is not above the time of its index, unless it is not positive. -/
theorem targetBucketTime_le (sh : Shape D) (t : ℤ) :
    sh.targetBucketTime t ≤ 0 ∨
      sh.targetBucketTime t ≤ sh.mapBucketIndexToTime (sh.mapTimeToBucketIndex t false) := by
  by_cases hw : sh.WellPlaced t
  · exact Or.inr ((sh.mapBucketIndexToTime_index_iff t).2 hw).ge
  · rcases le_or_gt 0 t with ht | ht
    · right
      rw [mapTimeToBucketIndex_eq]
      exact (Grid.cellStart_lt_cell sh.cfgInterval_pos sh.cfgInterval_dvd ht hw).le
    · left
      by_contra hcon
      have := Grid.cellStart_le_of_pos sh.cfgInterval_pos (not_le.1 hcon)
      rw [targetBucketTime_eq] at hcon
      omega

end Shape

namespace StatFile

variable {f f' : StatFile D F} {ts : List ℤ} {i j now : ℤ}

/-- The file holds a bucket of index `j`: it is in the window, and its slot has its time. -/
def Holds (f : StatFile D F) (j : ℤ) : Prop :=
  f.Live j ∧ (f.bucketAt j).time = f.shape.mapBucketIndexToTime j

instance (f : StatFile D F) (j : ℤ) : Decidable (f.Holds j) :=
  inferInstanceAs (Decidable ((_ < _ ∧ _ ≤ _) ∧ _ = _))

/-- The time in the slot of `j` is out of date: the slot is empty, or older than the window. -/
def Outdated (f : StatFile D F) (j : ℤ) : Prop :=
  (f.bucketAt j).time ≤ 0 ∨
    (f.bucketAt j).time ≤ f.shape.mapBucketIndexToTime (f.header.lastBucket - f.shape.bucketCount)

/-- The times in the live slots come from data of the times `ts`. -/
def Traced (f : StatFile D F) (ts : List ℤ) : Prop :=
  ∀ j, f.Live j → f.Outdated j ∨
    ∃ t, f.shape.lastOf ts j = some t ∧ (f.bucketAt j).time = f.shape.targetBucketTime t

/-- The last of the times `ts` for every index in the window is well placed. -/
def Settled (f : StatFile D F) (ts : List ℤ) : Prop :=
  ∀ j, f.Live j → ∀ t, f.shape.lastOf ts j = some t → f.shape.WellPlaced t

theorem settled_of_forall (h : ∀ t ∈ ts, f.shape.WellPlaced t) : f.Settled ts :=
  fun _ _ t ht => h t (Shape.lastOf_mem ht).1

theorem Traced.congr (h : f.Traced ts) (hr : SameRing f f') : f'.Traced ts := by
  intro j hj
  unfold Live at hj
  rw [hr.shape, hr.last] at hj
  unfold Outdated
  rw [hr.ring, hr.shape, hr.last]
  exact h j hj

/-- Above the window's end a slot holds nothing new: it is out of date, or it has the rounded time
of data for an earlier index. -/
theorem Traced.outdated_or_lt (h : f.Traced ts) (hj : f.header.lastBucket < j) :
    f.Outdated j ∨ ∃ k ≤ j - f.shape.bucketCount, f.Live k ∧ ∃ t,
      f.shape.lastOf ts k = some t ∧ (f.bucketAt j).time = f.shape.targetBucketTime t := by
  have hn := f.shape.bucketCount_pos
  have hmod := RingIndex.rep_emod f.shape.bucketCount f.header.lastBucket j
  have hlive : RingIndex.Live f.shape.bucketCount f.header.lastBucket
      (RingIndex.rep f.shape.bucketCount f.header.lastBucket j) := RingIndex.rep_live hn
  have hlap : RingIndex.rep f.shape.bucketCount f.header.lastBucket j ≤ j - f.shape.bucketCount :=
    RingIndex.Live.le_sub_of_lt (l := j) ⟨by omega, le_rfl⟩ (RingIndex.rep_lt hn hj) hmod
  have hb := f.bucketAt_congr hmod
  rcases h _ hlive with hout | ⟨t, ht, htime⟩
  · left
    unfold Outdated at hout ⊢
    rwa [← hb]
  · exact Or.inr ⟨_, hlap, hlive, t, ht, by rw [← hb]; exact htime⟩

variable [FloatArith D F]

theorem traced_new (sh : Shape D) (hd : Header D) :
    (ofDisk ⟨sh, hd, fun _ _ => Bucket.zero⟩ : StatFile D F).Traced [] := by
  intro j _
  left
  left
  unfold bucketAt slot ofDisk
  simp

/-- **One call**, in a file that is not trailing. -/
theorem Traced.updateBucket (h : f.Traced ts) (hnt : f.shape.isTrailing = false) {d : Bucket D F}
    (hcol : f.shape.isCollated = true → f.shape.cfgInterval ∣ d.time) (now : ℤ) :
    (f.updateBucket now d).2.Traced (ts ++ [d.time]) := by
  have hn := f.shape.bucketCount_pos
  intro j hj
  have hlast := updateBucket_lastBucket (f := f) now d
  have hwindow := f.shape.mapBucketIndexToTime_le (i := f.header.lastBucket - f.shape.bucketCount)
    (j := (f.updateBucket now d).2.header.lastBucket - f.shape.bucketCount) (by omega)
  by_cases htarget : j = f.target d
  · right
    subst htarget
    refine ⟨d.time, ?_, ?_⟩
    · rw [updateBucket_shape]
      exact Shape.lastOf_append_self rfl
    · have hacc : f.Accepts d := lt_of_live_updateBucket now d hj
      rw [updateBucket_shape, updateBucket_bucketAt now d hnt hacc, if_pos rfl]
      exact Shape.mergeData_targetTime hcol (f.found_time d)
  · have hb := updateBucket_bucketAt_of_ne now d hnt hj htarget
    have hlastOf : f.shape.lastOf (ts ++ [d.time]) j = f.shape.lastOf ts j :=
      Shape.lastOf_append_of_ne fun he => htarget he.symm
    unfold Outdated
    rw [updateBucket_shape, hb, hlastOf]
    have hold := lt_of_live_updateBucket now d hj
    rcases le_or_gt j f.header.lastBucket with hle | hgt
    · rcases h j ⟨hold, hle⟩ with (h0 | hout) | htr
      · exact Or.inl (Or.inl h0)
      · exact Or.inl (Or.inr (hout.trans hwindow))
      · exact Or.inr htr
    · -- the head has moved past `j`, whose slot still has what an earlier index left there
      left
      rcases h.outdated_or_lt hgt with (h0 | hout) | ⟨k, hk, -, t, ht, htime⟩
      · exact Or.inl h0
      · exact Or.inr (hout.trans hwindow)
      · have hjl : j ≤ (f.updateBucket now d).2.header.lastBucket := hj.2
        rcases f.shape.targetBucketTime_le t with h0 | hle
        · exact Or.inl (by omega)
        · right
          rw [(Shape.lastOf_mem ht).2] at hle
          have := f.shape.mapBucketIndexToTime_le (i := k)
            (j := (f.updateBucket now d).2.header.lastBucket - f.shape.bucketCount) (by omega)
          omega

omit [FloatArith D F] in
/-- **What a time in range tells.**  In a lap that starts in the window, at an index `i` after which
all times of the range `[s, ..)` come, a slot with a time in the range is that of a bucket the file
holds. -/
theorem Traced.holds (h : f.Traced ts) (hset : f.Settled ts)
    (hi : f.header.lastBucket - f.shape.bucketCount < i) {s : ℤ} (h0 : 0 < s)
    (hs : f.shape.mapBucketIndexToTime (i - 1) < s) (hij : i ≤ j)
    (hji : j < i + f.shape.bucketCount) (htime : s ≤ (f.bucketAt j).time) : f.Holds j := by
  have hplace : ∀ k, f.Live k → ∀ t, f.shape.lastOf ts k = some t →
      f.shape.targetBucketTime t = f.shape.mapBucketIndexToTime k := by
    intro k hk t ht
    rw [← (f.shape.mapBucketIndexToTime_index_iff t).2 (hset k hk t ht), (Shape.lastOf_mem ht).2]
  have hcur : ¬ f.Outdated j := by
    have := f.shape.mapBucketIndexToTime_le
      (i := f.header.lastBucket - f.shape.bucketCount) (j := i - 1) (by omega)
    rintro (hz | hold) <;> omega
  rcases le_or_gt j f.header.lastBucket with hle | hgt
  · rcases h j ⟨by omega, hle⟩ with hout | ⟨t, ht, he⟩
    · exact absurd hout hcur
    · exact ⟨⟨by omega, hle⟩, he.trans (hplace j ⟨by omega, hle⟩ t ht)⟩
  · -- beyond the head the slots are those of indices before the lap
    rcases h.outdated_or_lt hgt with hout | ⟨k, hk, hkl, t, ht, he⟩
    · exact absurd hout hcur
    · have := f.shape.mapBucketIndexToTime_le (i := k) (j := i - 1) (by omega)
      rw [hplace k hkl t ht] at he
      omega

end StatFile

end Istatd
