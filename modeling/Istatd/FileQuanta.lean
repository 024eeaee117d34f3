import Istatd.HeadTime

/-!
# The quanta of a counter file

The ring of a file by times instead of indices, so that files with other creation times can be
compared.  A file retains the quanta of its window; it has samples for one of them if the slot of
the quantum holds a bucket of its time that is not empty.  A slot that holds a bucket of another
time is stale.

* `Shape.placed`: the quantum in whose slot a time is looked up;
* `Retains`, `quantum`, `Samples`, `FreshAt`: what a file has for a quantum;
* `fill`: a list of buckets applied where the file is empty (`RAWUP_ONLY_IF_EMPTY`);
* `fill_quantum`, `fill_lastBucket_eq_iff`: the ring and the head after that.
-/

namespace Istatd

namespace Shape

variable {D : Type} (sh : Shape D)

theorem mapTimeToBucketIndex_mapBucketIndexToTime (i : ℤ) :
    sh.mapTimeToBucketIndex (sh.mapBucketIndexToTime i) false = i := by
  rw [mapTimeToBucketIndex_eq, mapBucketIndexToTime, Grid.cell, add_sub_cancel_left,
    Int.mul_tdiv_cancel _ sh.cfgInterval_pos.ne']

theorem mapTimeToBucketIndex_mono {t u : ℤ} (h : t ≤ u) :
    sh.mapTimeToBucketIndex t false ≤ sh.mapTimeToBucketIndex u false := by
  rw [mapTimeToBucketIndex_eq, mapTimeToBucketIndex_eq]
  exact Grid.cell_mono sh.cfgInterval_pos h

/-- The quantum in whose slot a time is looked up: its own, or before the creation of the file the
next one. -/
def placed (t : ℤ) : ℤ := sh.mapBucketIndexToTime (sh.mapTimeToBucketIndex t false)

theorem dvd_placed (t : ℤ) : sh.cfgInterval ∣ sh.placed t :=
  dvd_add sh.cfgInterval_dvd (dvd_mul_left _ _)

theorem placed_lt (t : ℤ) : sh.placed t < t + sh.cfgInterval := by
  rw [placed, mapBucketIndexToTime, mapTimeToBucketIndex_eq]
  exact Grid.cell_mul_lt sh.fileCreateTime sh.cfgInterval_pos t

theorem lt_placed (t : ℤ) : t - sh.cfgInterval < sh.placed t := by
  rw [placed, mapBucketIndexToTime, mapTimeToBucketIndex_eq, Grid.cell_mul]
  have := Int.tmod_lt_of_pos (t - sh.fileCreateTime) sh.cfgInterval_pos
  omega

variable {sh} {t u : ℤ}

theorem placed_of_dvd (h : sh.cfgInterval ∣ t) : sh.placed t = t :=
  StatFile.mapBucketIndexToTime_mapTimeToBucketIndex h

@[simp] theorem mapTimeToBucketIndex_placed :
    sh.mapTimeToBucketIndex (sh.placed t) false = sh.mapTimeToBucketIndex t false :=
  sh.mapTimeToBucketIndex_mapBucketIndexToTime _

/-- On the grid, the order of the times is the order of the indices. -/
theorem mapTimeToBucketIndex_le_iff (ht : sh.cfgInterval ∣ t) (hu : sh.cfgInterval ∣ u) :
    sh.mapTimeToBucketIndex t false ≤ sh.mapTimeToBucketIndex u false ↔ t ≤ u := by
  rw [← sh.mapBucketIndexToTime_le_iff, StatFile.mapBucketIndexToTime_mapTimeToBucketIndex ht,
    StatFile.mapBucketIndexToTime_mapTimeToBucketIndex hu]

theorem eq_of_mapTimeToBucketIndex_eq (ht : sh.cfgInterval ∣ t) (hu : sh.cfgInterval ∣ u)
    (h : sh.mapTimeToBucketIndex t false = sh.mapTimeToBucketIndex u false) : t = u :=
  le_antisymm ((mapTimeToBucketIndex_le_iff ht hu).1 h.le)
    ((mapTimeToBucketIndex_le_iff hu ht).1 h.ge)

end Shape

namespace StatFile

variable {D F : Type} (f : StatFile D F) (q : ℤ)

/-- The time `q` is the start of a quantum in the window. -/
def Retains : Prop := f.shape.cfgInterval ∣ q ∧ f.Live (f.shape.mapTimeToBucketIndex q false)

/-- The bucket in the slot of a quantum. -/
def quantum : Bucket D F := f.bucketAt (f.shape.mapTimeToBucketIndex q false)

/-- The file has samples for a quantum. -/
def Samples : Prop := f.Retains q ∧ (f.quantum q).time = q ∧ (f.quantum q).count ≠ 0

/-- The index `i` is in the window, and its slot is not stale unless it is empty. -/
def FreshAt (i : ℤ) : Prop :=
  f.Live i ∧ ((f.bucketAt i).count ≠ 0 → (f.bucketAt i).time = f.shape.mapBucketIndexToTime i)

instance (i : ℤ) : Decidable (f.Live i) := inferInstanceAs (Decidable (_ ∧ _))

instance : Decidable (f.Retains q) := inferInstanceAs (Decidable (_ ∧ _))

instance : Decidable (f.Samples q) := inferInstanceAs (Decidable (_ ∧ _ ∧ _))

instance (i : ℤ) : Decidable (f.FreshAt i) := inferInstanceAs (Decidable (_ ∧ (_ → _)))

variable {f q} {now : ℤ}

theorem firstBucketTime_lt (f : StatFile D F) : f.firstBucketTime < f.lastBucketTime := by
  have hn := f.shape.le_bucketCount
  have hc := f.shape.cfgInterval_pos
  unfold firstBucketTime lastBucketTime
  nlinarith

/-- Two retained quanta in one slot are one. -/
theorem Retains.eq_of_emod_eq {p : ℤ} (hp : f.Retains p) (hq : f.Retains q)
    (h : f.shape.mapTimeToBucketIndex p false % f.shape.bucketCount =
      f.shape.mapTimeToBucketIndex q false % f.shape.bucketCount) : p = q :=
  Shape.eq_of_mapTimeToBucketIndex_eq hp.1 hq.1 (hp.2.eq_of_emod_eq hq.2 h)

/-- What is in a file that is not collated does not depend on the clock. -/
theorem isBucketIndexInFile_iff_live (hcol : f.shape.isCollated = false) {i : ℤ} :
    f.isBucketIndexInFile now i = true ↔ f.Live i :=
  ⟨fun h => ⟨lt_of_isBucketIndexInFile h, le_of_isBucketIndexInFile hcol h⟩,
    isBucketIndexInFile_of_live now⟩

theorem mapBucketIndexToFileIndex_congr {g : StatFile D F} (hcol : f.shape.isCollated = false)
    (hshape : g.shape = f.shape) (hlast : g.header.lastBucket = f.header.lastBucket)
    (now now' i : ℤ) : g.mapBucketIndexToFileIndex now i = f.mapBucketIndexToFileIndex now' i := by
  have hin : g.isBucketIndexInFile now i = f.isBucketIndexInFile now' i := by
    unfold isBucketIndexInFile
    rw [hshape, hlast, hcol]
    simp
  unfold mapBucketIndexToFileIndex
  rw [hin, hshape]

/-- A file with the head of another one retains the same quanta. -/
theorem retains_congr {g : StatFile D F} (hshape : g.shape = f.shape)
    (hlast : g.header.lastBucket = f.header.lastBucket) : g.Retains q ↔ f.Retains q := by
  unfold Retains Live
  rw [hshape, hlast]

/-! ### Buckets for empty quanta -/

variable [FloatArith D F] {b : Bucket D F}

/-- A bucket for a retained quantum is stored if there are no samples, and changes nothing
otherwise. -/
theorem rawUpdateBucket_quantum (now : ℤ) (hnt : f.shape.isTrailing = false)
    (hb : f.Retains b.time) (hq : f.Retains q) :
    (f.rawUpdateBucket now b .onlyIfEmpty).2.quantum q =
      if q = b.time ∧ ¬f.Samples q then b else f.quantum q := by
  have htime : f.shape.targetBucketTime b.time = b.time := Grid.cellStart_of_dvd hb.1
  rw [quantum, rawUpdateBucket_shape, rawUpdateBucket_bucketAt now b .onlyIfEmpty hnt hb.2.1,
    target]
  by_cases heq : q = b.time
  · subst heq
    have hmerge : (mergeData f.shape .onlyIfEmpty b (f.found b)).1 =
        if f.Samples b.time then f.quantum b.time else b := by
      unfold mergeData found
      rw [if_pos rfl, htime, target]
      by_cases hs : f.Samples b.time
      · have ht : (f.bucketAt (f.shape.mapTimeToBucketIndex b.time false)).time = b.time := hs.2.1
        have hne : (f.bucketAt (f.shape.mapTimeToBucketIndex b.time false)).count ≠ 0 := hs.2.2
        rw [if_neg (not_not.2 ht), if_neg hne, if_pos hs]
        rfl
      · have hempty : (if (f.bucketAt (f.shape.mapTimeToBucketIndex b.time false)).time ≠ b.time
            then Bucket.zero else f.bucketAt (f.shape.mapTimeToBucketIndex b.time false)).count =
              0 := by
          split_ifs with ht
          · rfl
          · by_contra hne
            exact hs ⟨hq, not_not.1 ht, hne⟩
        rw [if_pos hempty, if_neg hs]
    rw [if_pos rfl, hmerge]
    by_cases hs : f.Samples b.time
    · rw [if_pos hs, if_neg (fun h => h.2 hs)]
    · rw [if_neg hs, if_pos ⟨rfl, hs⟩]
  · rw [if_neg (fun h => heq (hq.eq_of_emod_eq hb h)), if_neg (fun h => heq h.1)]
    rfl

/-- Buckets applied, in order, where the file is empty. -/
def fill (f : StatFile D F) (now : ℤ) (l : List (Bucket D F)) : StatFile D F :=
  f.rawUpdates (l.map fun b => (now, b, .onlyIfEmpty))

@[simp] theorem fill_nil : f.fill now [] = f := rfl

theorem fill_cons (b : Bucket D F) (l : List (Bucket D F)) :
    f.fill now (b :: l) = (f.rawUpdateBucket now b .onlyIfEmpty).2.fill now l := rfl

@[simp] theorem fill_shape (l : List (Bucket D F)) : (f.fill now l).shape = f.shape :=
  rawUpdates_shape f _

theorem le_fill_lastBucket (f : StatFile D F) (now : ℤ) (l : List (Bucket D F)) :
    f.header.lastBucket ≤ (f.fill now l).header.lastBucket := by
  induction l generalizing f with
  | nil => exact le_rfl
  | cons b l ih =>
    rw [fill_cons]
    refine le_trans ?_ (ih _)
    rw [rawUpdateBucket_lastBucket]
    exact le_max_left _ _

/-- The head stays where it is exactly if no bucket is beyond it. -/
theorem fill_lastBucket_eq_iff {l : List (Bucket D F)} :
    (f.fill now l).header.lastBucket = f.header.lastBucket ↔
      ∀ b ∈ l, f.target b ≤ f.header.lastBucket := by
  induction l generalizing f with
  | nil => simp
  | cons b l ih =>
    have hle := le_fill_lastBucket (f.rawUpdateBucket now b .onlyIfEmpty).2 now l
    have htarget : ∀ b', (f.rawUpdateBucket now b .onlyIfEmpty).2.target b' = f.target b' :=
      fun b' => by rw [target, rawUpdateBucket_shape, target]
    rw [fill_cons, List.forall_mem_cons]
    by_cases hb : f.target b ≤ f.header.lastBucket
    · have hlast : (f.rawUpdateBucket now b .onlyIfEmpty).2.header.lastBucket =
          f.header.lastBucket := by
        rw [rawUpdateBucket_lastBucket, max_eq_left hb]
      rw [← hlast, ih]
      simp only [htarget, hlast, hb, true_and]
    · rw [rawUpdateBucket_lastBucket, max_eq_right (not_le.1 hb).le] at hle
      refine ⟨fun h => ?_, fun h => absurd h.1 hb⟩
      omega

/-- **The ring after a fill** with buckets on the grid that are not beyond the head: the quanta
without samples for which there is a bucket have it. -/
theorem fill_quantum (hnt : f.shape.isTrailing = false) {g : ℤ → Bucket D F}
    {l : List (Bucket D F)}
    (hl : ∀ b ∈ l, b = g b.time ∧ b.count ≠ 0 ∧ f.shape.cfgInterval ∣ b.time ∧
      f.target b ≤ f.header.lastBucket)
    (hq : f.Retains q) :
    (f.fill now l).quantum q =
      if (∃ b ∈ l, b.time = q) ∧ ¬f.Samples q then g q else f.quantum q := by
  induction l generalizing f with
  | nil => simp
  | cons b l ih =>
    obtain ⟨⟨hg, hcount, hdvd, hle⟩, hl⟩ := List.forall_mem_cons.1 hl
    by_cases hacc : f.Accepts b
    · have hb : f.Retains b.time := ⟨hdvd, hacc, hle⟩
      have hshape := rawUpdateBucket_shape (f := f) now b .onlyIfEmpty
      have hlast : (f.rawUpdateBucket now b .onlyIfEmpty).2.header.lastBucket =
          f.header.lastBucket := by
        rw [rawUpdateBucket_lastBucket, max_eq_left hle]
      have hstep := rawUpdateBucket_quantum now hnt hb hq
      have hsamples : (f.rawUpdateBucket now b .onlyIfEmpty).2.Samples q ↔
          f.Samples q ∨ q = b.time := by
        unfold Samples
        rw [retains_congr hshape hlast, hstep]
        split_ifs with h
        · obtain ⟨rfl, -⟩ := h
          simp [hq, hcount]
        · rw [not_and, not_not] at h
          exact ⟨.inl, fun h' => h'.elim id fun he => h he⟩
      rw [fill_cons, ih (by rw [hshape]; exact hnt)
        (fun b' hb' => by rw [target, hshape, hlast]; exact hl b' hb')
        ((retains_congr hshape hlast).2 hq), hstep]
      simp only [hsamples, List.mem_cons, exists_eq_or_imp]
      by_cases hs : f.Samples q
      · simp [hs]
      · by_cases he : q = b.time
        · subst he
          simp [hs, ← hg]
        · simp [hs, he, Ne.symm he]
    · have hne : b.time ≠ q := fun he => hacc (by rw [Accepts, target, he]; exact hq.2.1)
      rw [fill_cons, rawUpdateBucket_of_old now b .onlyIfEmpty hacc, ih hnt hl hq]
      simp [hne]

end StatFile

end Istatd
