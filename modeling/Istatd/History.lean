import Istatd.RingInvariant

/-!
# A counter file holds its history

The purpose of a counter file that is not trailing: for every quantum in its window it holds the
merge, in order of arrival, of the data accepted for that quantum.  `Represents f hist` says that
the ring `f` holds the accepted data `hist` in this sense: the slot of a live index with data is the
fold of its data, and the slot of a live index without data is recognisably stale, that is, empty or
of an earlier time.

Slots are reused modulo the size of the ring and never cleared when the head moves past them, so one
slot is the slot of many quanta in turn; that a slot newly in the window is stale follows from what
was known of the live index that had the slot before (`Represents.stale_of_lt`).

* `Represents.step`: an accepted, well placed call appends its data to the history;
* `Represents.step_misplaced`: a misplaced call over a slot without data only makes stale buckets;
* `Represents.run`: a run of calls;
* `gauge_refines_history`: the statement for a new gauge file.
-/

namespace Istatd

variable {D F : Type} [FloatArith D F]

namespace Shape

variable (sh : Shape D)

/-- The data of a history whose time has index `i`. -/
def ofIndex (i : ℤ) (hist : List (Bucket D F)) : List (Bucket D F) :=
  hist.filter fun d => sh.mapTimeToBucketIndex d.time false = i

/-- The merge of a list of data in order of arrival, as `updateBucket` makes it. -/
def mergeAll (ds : List (Bucket D F)) : Bucket D F :=
  ds.foldl (fun b d => (mergeData sh .aggregate d b).1) Bucket.zero

/-- Data whose bucket will carry the time of its quantum: the index of its time is that of its
quantum, and if it is going to be copied unchanged its time is the start of the quantum. -/
def Placed (d : Bucket D F) : Prop :=
  sh.WellPlaced d.time ∧ (sh.isCollated = true → sh.cfgInterval ∣ d.time)

variable {sh}

omit [FloatArith D F] in
theorem mem_ofIndex {i : ℤ} {hist : List (Bucket D F)} {d : Bucket D F} :
    d ∈ sh.ofIndex i hist ↔ d ∈ hist ∧ sh.mapTimeToBucketIndex d.time false = i := by
  simp [ofIndex]

theorem mergeAll_append (ds : List (Bucket D F)) (d : Bucket D F) :
    sh.mergeAll (ds ++ [d]) = (mergeData sh .aggregate d (sh.mergeAll ds)).1 := by
  simp [mergeAll]

/-- A merge into a bucket of the quantum of the data, or into an empty one, gives a bucket of that
quantum.  A collated file copies its data, which then has to be of the time of its quantum. -/
theorem mergeData_targetTime {b d : Bucket D F}
    (hcol : sh.isCollated = true → sh.cfgInterval ∣ d.time)
    (hb : b.count ≠ 0 → b.time = sh.targetBucketTime d.time) :
    (mergeData sh .aggregate d b).1.time = sh.targetBucketTime d.time := by
  have ht : (b.update (d.withTime (sh.targetBucketTime d.time))).time =
      sh.targetBucketTime d.time := Bucket.update_time hb
  unfold mergeData
  rw [if_neg (by decide)]
  cases hc : sh.isCollated
  · rw [if_neg (by simp)]
    simp only
    split_ifs
    · exact ht
    · exact ht
  · rw [if_pos (Or.inl rfl)]
    exact (Grid.cellStart_of_dvd (hcol hc)).symm

/-- A merge of well placed data gives a bucket of the time of its index. -/
theorem mergeData_time {b d : Bucket D F} (hd : sh.Placed d)
    (hb : b.count ≠ 0 → b.time = sh.mapBucketIndexToTime (sh.mapTimeToBucketIndex d.time false)) :
    (mergeData sh .aggregate d b).1.time =
      sh.mapBucketIndexToTime (sh.mapTimeToBucketIndex d.time false) := by
  obtain ⟨hw, hcol⟩ := hd
  rw [(sh.mapBucketIndexToTime_index_iff d.time).2 hw] at hb ⊢
  exact mergeData_targetTime hcol hb

/-- The merge of data of one index is a bucket of that index's quantum. -/
theorem mergeAll_time {i : ℤ} {ds : List (Bucket D F)} (hne : ds ≠ [])
    (hds : ∀ d ∈ ds, sh.Placed d ∧ sh.mapTimeToBucketIndex d.time false = i) :
    (sh.mergeAll ds).time = sh.mapBucketIndexToTime i := by
  induction ds using List.reverseRecOn with
  | nil => exact absurd rfl hne
  | append_singleton ds d ih =>
    obtain ⟨hd, hi⟩ := hds d (by simp)
    rw [mergeAll_append, mergeData_time hd, hi]
    intro hcount
    rcases eq_or_ne ds [] with rfl | hds'
    · exact absurd rfl hcount
    · rw [ih hds' fun d' hd' => hds d' (by simp [hd']), hi]

end Shape

namespace StatFile

open Shape

/-- The bucket a call finds is empty or of the quantum of its data. -/
theorem found_time (f : StatFile D F) (d : Bucket D F) (hc : (f.found d).count ≠ 0) :
    (f.found d).time = f.shape.targetBucketTime d.time := by
  unfold found at hc ⊢
  split_ifs at hc ⊢ with ht
  · exact absurd rfl hc
  · exact not_ne_iff.1 ht

omit [FloatArith D F] in
theorem ofIndex_target_append (f : StatFile D F) (hist : List (Bucket D F)) (d : Bucket D F) :
    f.shape.ofIndex (f.target d) (hist ++ [d]) = f.shape.ofIndex (f.target d) hist ++ [d] := by
  simp [ofIndex, target]

omit [FloatArith D F] in
theorem ofIndex_append_of_ne {f : StatFile D F} {hist : List (Bucket D F)} {d : Bucket D F} {i : ℤ}
    (h : i ≠ f.target d) : f.shape.ofIndex i (hist ++ [d]) = f.shape.ofIndex i hist := by
  have hd : ¬ f.shape.mapTimeToBucketIndex d.time false = i := fun he => h he.symm
  simp [ofIndex, hd]

/-- The ring holds the accepted data `hist`. -/
structure Represents (f : StatFile D F) (hist : List (Bucket D F)) : Prop where
  placed : ∀ d ∈ hist, f.shape.Placed d
  le_last : ∀ d ∈ hist, f.target d ≤ f.header.lastBucket
  current : ∀ i, f.Live i → f.shape.ofIndex i hist ≠ [] →
    f.bucketAt i = f.shape.mergeAll (f.shape.ofIndex i hist)
  stale : ∀ i, f.Live i → f.shape.ofIndex i hist = [] →
    f.bucketAt i = Bucket.zero ∨ (f.bucketAt i).time < f.shape.mapBucketIndexToTime i

namespace Represents

variable {f : StatFile D F} {hist : List (Bucket D F)} {d : Bucket D F} {i now : ℤ}

/-- A live slot with data carries the time of its quantum. -/
theorem time_eq (h : f.Represents hist) (hi : f.Live i) (hne : f.shape.ofIndex i hist ≠ []) :
    (f.bucketAt i).time = f.shape.mapBucketIndexToTime i := by
  rw [h.current i hi hne]
  refine mergeAll_time hne fun d hd => ?_
  obtain ⟨hd1, hd2⟩ := mem_ofIndex.1 hd
  exact ⟨h.placed d hd1, hd2⟩

/-- Above the head there is no data. -/
theorem ofIndex_eq_nil (h : f.Represents hist) (hi : f.header.lastBucket < i) :
    f.shape.ofIndex i hist = [] := by
  rw [List.eq_nil_iff_forall_not_mem]
  intro d hd
  obtain ⟨hd1, hd2⟩ := mem_ofIndex.1 hd
  have := h.le_last d hd1
  unfold target at this
  omega

/-- A slot without data is stale for every index above the window's end, live or still to come. -/
theorem stale_of_lt (h : f.Represents hist)
    (hi : f.header.lastBucket - f.shape.bucketCount < i) (hnil : f.shape.ofIndex i hist = []) :
    f.bucketAt i = Bucket.zero ∨ (f.bucketAt i).time < f.shape.mapBucketIndexToTime i := by
  rcases le_or_gt i f.header.lastBucket with hle | hgt
  · exact h.stale i ⟨hi, hle⟩ hnil
  · -- the slot is at present that of an earlier live index `k`
    have hn := f.shape.bucketCount_pos
    set k := RingIndex.rep f.shape.bucketCount f.header.lastBucket i with hk
    have hkl : f.Live k := RingIndex.rep_live hn
    have hki : k < i := RingIndex.rep_lt hn hgt
    have hlt := f.shape.mapBucketIndexToTime_lt hki
    rw [f.bucketAt_congr (RingIndex.rep_emod _ f.header.lastBucket i).symm, ← hk]
    by_cases hkn : f.shape.ofIndex k hist = []
    · rcases h.stale k hkl hkn with hz | ht
      · exact Or.inl hz
      · exact Or.inr (ht.trans hlt)
    · exact Or.inr (by rw [h.time_eq hkl hkn]; exact hlt)

/-- The bucket an accepted call merges into is the merge of the quantum's data so far. -/
theorem found_eq (h : f.Represents hist) (hacc : f.Accepts d) (hd : f.shape.WellPlaced d.time) :
    f.found d = f.shape.mergeAll (f.shape.ofIndex (f.target d) hist) := by
  have ht : f.shape.mapBucketIndexToTime (f.target d) = f.shape.targetBucketTime d.time :=
    (f.shape.mapBucketIndexToTime_index_iff d.time).2 hd
  unfold found
  by_cases hnil : f.shape.ofIndex (f.target d) hist = []
  · rw [hnil]
    rcases h.stale_of_lt hacc hnil with hz | hlt
    · rw [hz]
      split_ifs <;> rfl
    · rw [if_pos (by rw [← ht]; exact hlt.ne)]
      rfl
  · have hle : f.target d ≤ f.header.lastBucket := by
      by_contra hcon
      exact hnil (h.ofIndex_eq_nil (not_le.1 hcon))
    rw [if_neg (by rw [h.time_eq ⟨hacc, hle⟩ hnil, ht]; simp)]
    exact h.current _ ⟨hacc, hle⟩ hnil

/-- **One accepted, well placed call** appends its data to the history. -/
theorem step (h : f.Represents hist) (hnt : f.shape.isTrailing = false) (hacc : f.Accepts d)
    (hd : f.shape.Placed d) (now : ℤ) : (f.updateBucket now d).2.Represents (hist ++ [d]) := by
  refine ⟨?_, ?_, ?_, ?_⟩
  · intro d' hd'
    rw [updateBucket_shape]
    rcases List.mem_append.1 hd' with hmem | hmem
    · exact h.placed d' hmem
    · rwa [List.mem_singleton.1 hmem]
  · intro d' hd'
    rw [updateBucket_lastBucket, updateBucket_target]
    rcases List.mem_append.1 hd' with hmem | hmem
    · exact (h.le_last d' hmem).trans (le_max_left _ _)
    · rw [List.mem_singleton.1 hmem]
      exact le_max_right _ _
  · intro i hi hne
    rw [updateBucket_shape] at hne ⊢
    by_cases hit : i = f.target d
    · subst hit
      rw [ofIndex_target_append, mergeAll_append, ← h.found_eq hacc hd.1,
        updateBucket_bucketAt now d hnt hacc, if_pos rfl]
    · rw [ofIndex_append_of_ne hit] at hne ⊢
      have hle : i ≤ f.header.lastBucket := by
        by_contra hcon
        exact hne (h.ofIndex_eq_nil (not_le.1 hcon))
      rw [updateBucket_bucketAt_of_ne now d hnt hi hit]
      exact h.current i ⟨lt_of_live_updateBucket now d hi, hle⟩ hne
  · intro i hi hnil
    rw [updateBucket_shape] at hnil ⊢
    by_cases hit : i = f.target d
    · subst hit
      rw [ofIndex_target_append] at hnil
      simp at hnil
    · rw [ofIndex_append_of_ne hit] at hnil
      rw [updateBucket_bucketAt_of_ne now d hnt hi hit]
      exact h.stale_of_lt (lt_of_live_updateBucket now d hi) hnil

/-- **A misplaced call** over a slot without data: the bucket it leaves is of an earlier quantum
than the slot's, so the history is as it was. -/
theorem step_misplaced (h : f.Represents hist) (hnt : f.shape.isTrailing = false)
    (hnc : f.shape.isCollated = false) (ht : 0 ≤ d.time) (hd : ¬ f.shape.WellPlaced d.time)
    (hnil : f.shape.ofIndex (f.target d) hist = []) :
    (f.updateBucket now d).2.Represents hist := by
  by_cases hacc : f.Accepts d
  · refine ⟨by rw [updateBucket_shape]; exact h.placed, ?_, ?_, ?_⟩
    · intro d' hd'
      rw [updateBucket_lastBucket, updateBucket_target]
      exact (h.le_last d' hd').trans (le_max_left _ _)
    · intro i hi hne
      rw [updateBucket_shape] at hne ⊢
      have hit : i ≠ f.target d := by rintro rfl; exact hne hnil
      have hle : i ≤ f.header.lastBucket := by
        by_contra hcon
        exact hne (h.ofIndex_eq_nil (not_le.1 hcon))
      rw [updateBucket_bucketAt_of_ne now d hnt hi hit]
      exact h.current i ⟨lt_of_live_updateBucket now d hi, hle⟩ hne
    · intro i hi hnil'
      rw [updateBucket_shape] at hnil' ⊢
      by_cases hit : i = f.target d
      · subst hit
        right
        rw [updateBucket_bucketAt now d hnt hacc, if_pos rfl,
          mergeData_targetTime (by simp [hnc]) (f.found_time d)]
        unfold target
        rw [f.shape.mapTimeToBucketIndex_eq, targetBucketTime_eq]
        exact Grid.cellStart_lt_cell f.shape.cfgInterval_pos f.shape.cfgInterval_dvd ht hd
      · rw [updateBucket_bucketAt_of_ne now d hnt hi hit]
        exact h.stale_of_lt (lt_of_live_updateBucket now d hi) hnil'
  · rw [updateBucket_of_old now d hacc]
    exact h

end Represents

/-- A run of `updateBucket` calls, each with its clock and data: the file after it, and the data it
accepted. -/
def updates (f : StatFile D F) : List (ℤ × Bucket D F) → StatFile D F × List (Bucket D F)
  | [] => (f, [])
  | (now, d) :: calls =>
    let r := f.updateBucket now d
    let rest := updates r.2 calls
    (rest.1, if r.1 then d :: rest.2 else rest.2)

theorem updates_shape (f : StatFile D F) (calls : List (ℤ × Bucket D F)) :
    (f.updates calls).1.shape = f.shape := by
  induction calls generalizing f with
  | nil => rfl
  | cons call calls ih => exact (ih _).trans (rawUpdateBucket_shape _ _ _)

theorem mem_updates {f : StatFile D F} {calls : List (ℤ × Bucket D F)} {d : Bucket D F}
    (h : d ∈ (f.updates calls).2) : ∃ now, (now, d) ∈ calls := by
  induction calls generalizing f with
  | nil => cases h
  | cons call calls ih =>
    obtain ⟨now, d'⟩ := call
    simp only [updates] at h
    split_ifs at h
    · rcases List.mem_cons.1 h with rfl | h
      · exact ⟨now, by simp⟩
      · obtain ⟨now', hmem⟩ := ih h
        exact ⟨now', by simp [hmem]⟩
    · obtain ⟨now', hmem⟩ := ih h
      exact ⟨now', by simp [hmem]⟩

/-- **A run of well placed calls** appends the data it accepts to the history. -/
theorem Represents.run {f : StatFile D F} {hist : List (Bucket D F)} (h : f.Represents hist)
    (hnt : f.shape.isTrailing = false) (calls : List (ℤ × Bucket D F))
    (hplaced : ∀ c ∈ calls, f.shape.Placed c.2) :
    (f.updates calls).1.Represents (hist ++ (f.updates calls).2) := by
  induction calls generalizing f hist with
  | nil => simpa [updates] using h
  | cons call calls ih =>
    obtain ⟨now, d⟩ := call
    have hrest : ∀ c ∈ calls, f.shape.Placed c.2 := fun c hc => hplaced c (by simp [hc])
    simp only [updates]
    rw [updateBucket_fst]
    by_cases hacc : f.Accepts d
    · have hstep := h.step hnt hacc (hplaced (now, d) (by simp)) now
      rw [decide_eq_true hacc, if_pos rfl, List.append_cons]
      exact ih hstep (by simpa using hnt) (by simpa using hrest)
    · rw [decide_eq_false hacc, if_neg (by simp), updateBucket_of_old now d hacc]
      exact ih h hnt hrest

/-- A file of zeroed pages holds the empty history. -/
theorem represents_nil (sh : Shape D) (h : Header D) :
    (ofDisk ⟨sh, h, fun _ _ => (Bucket.zero : Bucket D F)⟩).Represents [] where
  placed := by simp
  le_last := by simp
  current := fun i _ hne => absurd rfl hne
  stale := fun i _ _ => Or.inl (by
    unfold bucketAt slot ofDisk
    rw [PageCache.ofDisk_view])

/-! ### Gauges -/

/-- Without flags a merge is `Bucket::update` with the data moved to the start of its quantum. -/
theorem mergeData_of_flags_eq_zero {sh : Shape D} (h : sh.flags = 0#32) (d b : Bucket D F) :
    mergeData sh .aggregate d b = (b.update (d.withTime (sh.targetBucketTime d.time)), true) := by
  have h1 : sh.isCollated = false := by unfold Shape.isCollated; rw [h]; rfl
  have h2 : sh.isCounterAggregate = false := by unfold Shape.isCounterAggregate; rw [h]; rfl
  simp [mergeData, h1, h2]

/-- **A gauge file holds its history.**  After any run of `updateBucket` calls on a new file without
flags, at times from its creation on, the slot of a live index `i ≥ 0` holds a bucket of the time of
`i` if and only if an accepted call had a time in that quantum, and then it is the merge of the data
accepted for the quantum in order of arrival. -/
theorem gauge_refines_history {sysPageSize clock : ℤ} {init : Settings D} {f₀ : StatFile D F}
    (hnew : openOrCreate sysPageSize clock none init = .ok f₀) (hflags : init.flags = 0#32)
    (hcreate : 0 < f₀.shape.fileCreateTime) (calls : List (ℤ × Bucket D F))
    (htimes : ∀ c ∈ calls, f₀.shape.fileCreateTime ≤ c.2.time) (now i : ℤ) :
    let f := (f₀.updates calls).1
    let accepted := (f₀.updates calls).2
    let start := f.shape.mapBucketIndexToTime i
    let mine := accepted.filter fun d => start ≤ d.time ∧ d.time < start + f.shape.cfgInterval
    let b := f.slot (f.mapBucketIndexToFileIndex now i)
    0 ≤ i → f.header.lastBucket - f.shape.bucketCount < i → i ≤ f.header.lastBucket →
      (b.time = start ↔ mine ≠ []) ∧
      (mine ≠ [] → b = mine.foldl (fun b d => b.update (d.withTime start)) Bucket.zero) ∧
      (mine = [] → b.time ≠ start) := by
  intro f accepted start mine b hi0 hi1 hi2
  obtain ⟨sh, hw, rfl⟩ := openOrCreate_new hnew
  set f₀ : StatFile D F := ofDisk ⟨sh, newHeader F sh.fileCreateTime, fun _ _ => Bucket.zero⟩
    with hf₀
  have hfl : sh.flags = 0#32 := by rw [(writeNewHeader_ok hw).1]; exact hflags
  have hnc : sh.isCollated = false := by unfold Shape.isCollated; rw [hfl]; rfl
  have hnt : sh.isTrailing = false := by unfold Shape.isTrailing; rw [hfl]; rfl
  have hsh : f.shape = sh := updates_shape f₀ calls
  have hrep : f.Represents accepted := by
    have h := (represents_nil sh (newHeader F sh.fileCreateTime)).run hnt calls fun c hc =>
      ⟨Or.inl ⟨hcreate.le.trans (htimes c hc), htimes c hc⟩, fun hcol => by
        rw [show (ofDisk (F := F) ⟨sh, newHeader F sh.fileCreateTime, fun _ _ =>
          Bucket.zero⟩).shape.isCollated = false from hnc] at hcol
        cases hcol⟩
    simpa using h
  have hacc : ∀ d ∈ accepted, sh.fileCreateTime ≤ d.time := fun d hd => by
    obtain ⟨t, ht⟩ := mem_updates hd
    exact htimes _ ht
  -- the data of the quantum is the data of the index
  have hmine : mine = f.shape.ofIndex i accepted := by
    refine List.filter_congr fun d hd => ?_
    simp only [start, hsh, Shape.mapTimeToBucketIndex_eq, Shape.mapBucketIndexToTime]
    rw [decide_eq_decide]
    exact (Grid.cell_eq_iff sh.cfgInterval_pos (hacc d hd)).symm
  have hlive : f.Live i := ⟨hi1, hi2⟩
  have hb : b = f.bucketAt i := by
    show f.slot (f.mapBucketIndexToFileIndex now i) = _
    rw [mapBucketIndexToFileIndex_of_live hlive]
    rfl
  have hpos : 0 < start := by
    have h1 := mul_nonneg hi0 sh.cfgInterval_pos.le
    have h2 : start = sh.fileCreateTime + i * sh.cfgInterval := by
      simp only [start, hsh, Shape.mapBucketIndexToTime]
    have h3 : 0 < sh.fileCreateTime := hcreate
    omega
  have hnone : mine = [] → b.time ≠ start := by
    intro hnil
    rw [hb]
    rcases hrep.stale i hlive (hmine ▸ hnil) with hz | hlt
    · rw [hz]
      exact hpos.ne
    · exact hlt.ne
  refine ⟨⟨fun ht hnil => hnone hnil ht, fun hne => ?_⟩, fun hne => ?_, hnone⟩
  · rw [hb]
    exact hrep.time_eq hlive (hmine ▸ hne)
  · rw [hb, hrep.current i hlive (hmine ▸ hne), ← hmine]
    refine List.foldl_ext _ _ _ fun c d hd => ?_
    obtain ⟨hd1, hd2⟩ := mem_ofIndex.1 (hmine ▸ hd)
    rw [mergeData_of_flags_eq_zero (hsh ▸ hfl)]
    have hwp := (f.shape.mapBucketIndexToTime_index_iff d.time).2 (hrep.placed d hd1).1
    rw [hd2] at hwp
    rw [← hwp]

end StatFile

/-- The bucket of the quantum 110 after two of three records fell into it. -/
theorem gauge_refines_history_sample :
    (sampleFile.updates [(0, Bucket.blank 1 112), (0, Bucket.blank 1 130),
        (0, Bucket.blank 1 117)]).1.slot 1 =
      (Bucket.blank 1 110 : Bucket ℚ ℚ).update (Bucket.blank 1 110) :=
  (StatFile.gauge_refines_history sampleFile_new rfl (by decide)
    [(0, Bucket.blank 1 112), (0, Bucket.blank 1 130), (0, Bucket.blank 1 117)]
    (by decide) 0 1 (by decide) (by decide) (by decide)).2.1 (by decide)

end Istatd
