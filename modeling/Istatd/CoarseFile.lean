import Istatd.History

/-!
# The coarser files of a collated counter

A coarser file receives the buckets that leave the collation window, in `updateBucket`.  `Merges g
ds` says that the file `g` holds the buckets `ds` passed to it: the slot of a live index that is not
before the creation of the file is the merge of the buckets of its quantum.  Buckets of times before
the creation may be misplaced, which does no harm as long as nothing later is in the file when they
come (`Merges.push`).

With exact sums the merge of a file of aggregates has the sum of its data (`mergeAll_sum_`).
-/

namespace Istatd

namespace StatFile

open Shape

variable {D F : Type} [FloatArith D F] {g : StatFile D F} {ds : List (Bucket D F)} {d : Bucket D F}
  {now i : ℤ}

/-- The buckets of a list that lie in the quantum of index `i`. -/
def inQuantum (g : StatFile D F) (i : ℤ) (ds : List (Bucket D F)) : List (Bucket D F) :=
  ds.filter fun d => g.shape.mapBucketIndexToTime i ≤ d.time ∧
    d.time < g.shape.mapBucketIndexToTime i + g.shape.cfgInterval

omit [FloatArith D F] in
theorem mem_inQuantum : d ∈ g.inQuantum i ds ↔ d ∈ ds ∧ g.shape.mapBucketIndexToTime i ≤ d.time ∧
    d.time < g.shape.mapBucketIndexToTime i + g.shape.cfgInterval := by
  simp [inQuantum]

omit [FloatArith D F] in
/-- From the creation of the file on, a quantum is the times of its index. -/
theorem target_eq_iff (hi : g.shape.fileCreateTime ≤ g.shape.mapBucketIndexToTime i)
    (hd : g.shape.WellPlaced d.time) (ht : 0 ≤ d.time) :
    g.target d = i ↔ g.shape.mapBucketIndexToTime i ≤ d.time ∧
      d.time < g.shape.mapBucketIndexToTime i + g.shape.cfgInterval := by
  have hpos := g.shape.cfgInterval_pos
  have hplace := (g.shape.mapBucketIndexToTime_index_iff d.time).2 hd
  have hle : g.shape.targetBucketTime d.time ≤ d.time := Grid.cellStart_le ht
  have hlt : d.time < g.shape.targetBucketTime d.time + g.shape.cfgInterval :=
    Grid.lt_cellStart_add hpos
  constructor
  · intro he
    rw [← hplace, show g.shape.mapTimeToBucketIndex d.time false = i from he] at hle hlt
    exact ⟨hle, hlt⟩
  · rintro ⟨h1, h2⟩
    unfold target
    rw [mapTimeToBucketIndex_eq]
    exact (Grid.cell_eq_iff hpos (hi.trans h1)).2 ⟨h1, h2⟩

/-- The file holds the buckets passed to it, from its creation on. -/
def Merges (g : StatFile D F) (ds : List (Bucket D F)) : Prop :=
  (∀ d ∈ ds, 0 ≤ d.time ∧ g.target d ≤ g.header.lastBucket) ∧
    ∃ hist, g.Represents hist ∧ (∀ d ∈ hist, d ∈ ds) ∧
      ∀ i, g.Live i → g.shape.fileCreateTime ≤ g.shape.mapBucketIndexToTime i →
        g.shape.ofIndex i hist = g.inQuantum i ds

namespace Merges

/-- A slot with data holds the merge of the buckets of its quantum. -/
theorem bucketAt_eq (h : g.Merges ds) (hi : g.Live i)
    (hc : g.shape.fileCreateTime ≤ g.shape.mapBucketIndexToTime i) (hne : g.inQuantum i ds ≠ []) :
    (g.bucketAt i).time = g.shape.mapBucketIndexToTime i ∧
      g.bucketAt i = g.shape.mergeAll (g.inQuantum i ds) := by
  obtain ⟨-, hist, hrep, -, hq⟩ := h
  rw [← hq i hi hc] at hne ⊢
  exact ⟨hrep.time_eq hi hne, hrep.current i hi hne⟩

/-- A slot without data is empty or of another time. -/
theorem bucketAt_of_nil (h : g.Merges ds) (hi : g.Live i)
    (hc : g.shape.fileCreateTime ≤ g.shape.mapBucketIndexToTime i) (hnil : g.inQuantum i ds = []) :
    g.bucketAt i = Bucket.zero ∨ (g.bucketAt i).time ≠ g.shape.mapBucketIndexToTime i := by
  obtain ⟨-, hist, hrep, -, hq⟩ := h
  rw [← hq i hi hc] at hnil
  exact (hrep.stale i hi hnil).imp_right ne_of_lt

theorem nil (sh : Shape D) (h : Header D) :
    (ofDisk ⟨sh, h, fun _ _ => (Bucket.zero : Bucket D F)⟩).Merges [] :=
  ⟨by simp, [], represents_nil sh h, by simp, fun _ _ _ => rfl⟩

/-- The statement is about the shape, the head and the ring only. -/
theorem congr {g' : StatFile D F} (h : g.Merges ds) (hsh : g'.shape = g.shape)
    (hlast : g'.header.lastBucket = g.header.lastBucket)
    (hat : ∀ j, g'.bucketAt j = g.bucketAt j) : g'.Merges ds := by
  have hlive : ∀ j, g'.Live j ↔ g.Live j := fun j => by unfold Live; rw [hsh, hlast]
  obtain ⟨hle, hist, hrep, hmem, hq⟩ := h
  refine ⟨?_, hist, ⟨?_, ?_, ?_, ?_⟩, hmem, ?_⟩
  · unfold target
    rw [hsh, hlast]
    exact hle
  · rw [hsh]
    exact hrep.placed
  · unfold target
    rw [hsh, hlast]
    exact hrep.le_last
  · intro j hj hne
    rw [hsh] at hne
    rw [hat, hsh]
    exact hrep.current j ((hlive j).1 hj) hne
  · intro j hj hnil
    rw [hsh] at hnil
    rw [hat, hsh]
    exact hrep.stale j ((hlive j).1 hj) hnil
  · intro j hj hc
    unfold inQuantum
    rw [hsh] at hc ⊢
    exact hq j ((hlive j).1 hj) hc

omit [FloatArith D F] in
theorem wellPlaced_of_create_le (ht : 0 ≤ d.time) (h : g.shape.fileCreateTime ≤ d.time) :
    g.shape.WellPlaced d.time := Or.inl ⟨ht, h⟩

omit [FloatArith D F] in
theorem inQuantum_append_of_not {e : Bucket D F}
    (h : ¬ (g.shape.mapBucketIndexToTime i ≤ e.time ∧
      e.time < g.shape.mapBucketIndexToTime i + g.shape.cfgInterval)) :
    g.inQuantum i (ds ++ [e]) = g.inQuantum i ds := by
  unfold inQuantum
  rw [List.filter_append, List.filter_singleton, decide_eq_false h, cond_false, List.append_nil]

omit [FloatArith D F] in
theorem inQuantum_append_self {e : Bucket D F}
    (h : g.shape.mapBucketIndexToTime i ≤ e.time ∧
      e.time < g.shape.mapBucketIndexToTime i + g.shape.cfgInterval) :
    g.inQuantum i (ds ++ [e]) = g.inQuantum i ds ++ [e] := by
  unfold inQuantum
  rw [List.filter_append, List.filter_singleton, decide_eq_true h, cond_true]

omit [FloatArith D F] in
/-- A bucket of the quantum of index `i` is kept in index `i`. -/
theorem target_of_mem_quantum (hc : g.shape.fileCreateTime ≤ g.shape.mapBucketIndexToTime i)
    (ht : 0 ≤ d.time) (h : g.shape.mapBucketIndexToTime i ≤ d.time ∧
      d.time < g.shape.mapBucketIndexToTime i + g.shape.cfgInterval) : g.target d = i :=
  (target_eq_iff hc (wellPlaced_of_create_le ht (hc.trans h.1)) ht).2 h

/-- Nothing of the list is in a quantum above the head, and nothing of the history either. -/
theorem ofIndex_eq_above {hist : List (Bucket D F)} (hrep : g.Represents hist)
    (hle : ∀ e ∈ ds, 0 ≤ e.time ∧ g.target e ≤ g.header.lastBucket)
    (hq : ∀ i, g.Live i → g.shape.fileCreateTime ≤ g.shape.mapBucketIndexToTime i →
      g.shape.ofIndex i hist = g.inQuantum i ds)
    (hi : g.header.lastBucket - g.shape.bucketCount < i)
    (hc : g.shape.fileCreateTime ≤ g.shape.mapBucketIndexToTime i) :
    g.shape.ofIndex i hist = g.inQuantum i ds := by
  rcases le_or_gt i g.header.lastBucket with hil | hil
  · exact hq i ⟨hi, hil⟩ hc
  · rw [hrep.ofIndex_eq_nil hil]
    symm
    rw [List.eq_nil_iff_forall_not_mem]
    intro e he
    obtain ⟨he1, he2⟩ := mem_inQuantum.1 he
    obtain ⟨h0, hlast⟩ := hle e he1
    rw [target_of_mem_quantum hc h0 he2] at hlast
    omega

/-- A misplaced bucket comes to a slot without data, if all data so far is before it. -/
theorem ofIndex_eq_nil_of_misplaced {hist : List (Bucket D F)} (hrep : g.Represents hist)
    (hhist : ∀ e ∈ hist, 0 ≤ e.time ∧ e.time < d.time) (ht : 0 ≤ d.time)
    (hw : ¬ g.shape.WellPlaced d.time) : g.shape.ofIndex (g.target d) hist = [] := by
  have hpos := g.shape.cfgInterval_pos
  have hstart : Grid.cellStart g.shape.cfgInterval d.time <
      g.shape.mapBucketIndexToTime (g.target d) := by
    unfold target
    rw [mapTimeToBucketIndex_eq]
    exact Grid.cellStart_lt_cell hpos g.shape.cfgInterval_dvd ht hw
  have hdvd : g.shape.cfgInterval ∣ g.shape.mapBucketIndexToTime (g.target d) :=
    dvd_add g.shape.cfgInterval_dvd (dvd_mul_left _ _)
  have hnext := Grid.add_le_of_lt_of_dvd hpos (Grid.cellStart_dvd _ _) hdvd hstart
  have hlt := Grid.lt_cellStart_add (t := d.time) hpos
  rw [List.eq_nil_iff_forall_not_mem]
  intro e he
  obtain ⟨he1, he2⟩ := mem_ofIndex.1 he
  obtain ⟨h0, hed⟩ := hhist e he1
  have hplace := (g.shape.mapBucketIndexToTime_index_iff e.time).2 (hrep.placed e he1).1
  rw [he2] at hplace
  have hle : g.shape.targetBucketTime e.time ≤ e.time := Grid.cellStart_le h0
  omega

/-- **One bucket passed to the file**: it is not before the creation of the file, or else everything
passed so far is before it. -/
theorem push (h : g.Merges ds) (hnt : g.shape.isTrailing = false)
    (hnc : g.shape.isCollated = false) (ht : 0 ≤ d.time)
    (hlate : g.shape.fileCreateTime ≤ d.time ∨ ∀ e ∈ ds, e.time < d.time) :
    (g.updateBucket now d).2.Merges (ds ++ [d]) := by
  obtain ⟨hle, hist, hrep, hmem, hq⟩ := h
  have hlast : ∀ e ∈ ds ++ [d], 0 ≤ e.time ∧ (g.updateBucket now d).2.target e ≤
      (g.updateBucket now d).2.header.lastBucket := by
    intro e he
    rw [updateBucket_target, updateBucket_lastBucket]
    rcases List.mem_append.1 he with he | he
    · exact ⟨(hle e he).1, (hle e he).2.trans (le_max_left _ _)⟩
    · rw [List.mem_singleton.1 he]
      exact ⟨ht, le_max_right _ _⟩
  have hquantum : ∀ i es, (g.updateBucket now d).2.inQuantum i es = g.inQuantum i es := by
    intro i es
    unfold inQuantum
    rw [updateBucket_shape]
  refine ⟨hlast, ?_⟩
  simp only [hquantum, updateBucket_shape]
  by_cases hw : g.shape.WellPlaced d.time
  · by_cases hacc : g.Accepts d
    · refine ⟨hist ++ [d], hrep.step hnt hacc ⟨hw, by rw [hnc]; simp⟩ now, ?_, fun i hi hc => ?_⟩
      · intro e he
        rcases List.mem_append.1 he with he | he
        · exact List.mem_append_left _ (hmem e he)
        · exact List.mem_append_right _ he
      · have hold := ofIndex_eq_above hrep hle hq (lt_of_live_updateBucket now d hi) hc
        by_cases hit : i = g.target d
        · subst hit
          rw [ofIndex_target_append, hold,
            inQuantum_append_self ((target_eq_iff hc hw ht).1 rfl)]
        · rw [ofIndex_append_of_ne hit, hold, inQuantum_append_of_not fun hin =>
            hit ((target_eq_iff hc hw ht).2 hin).symm]
    · rw [updateBucket_of_old now d hacc]
      refine ⟨hist, hrep, fun e he => List.mem_append_left _ (hmem e he), fun i hi hc => ?_⟩
      rw [hq i hi hc, inQuantum_append_of_not]
      intro hin
      have htarget := (target_eq_iff hc hw ht).2 hin
      have hlow : g.header.lastBucket - g.shape.bucketCount < i := hi.1
      unfold Accepts at hacc
      omega
  · have hcreate : ¬ g.shape.fileCreateTime ≤ d.time := fun hle' =>
      hw (wellPlaced_of_create_le ht hle')
    have hbefore := hlate.resolve_left hcreate
    refine ⟨hist, hrep.step_misplaced hnt hnc ht hw (ofIndex_eq_nil_of_misplaced hrep
      (fun e he => ⟨(hle e (hmem e he)).1, hbefore e (hmem e he)⟩) ht hw),
      fun e he => List.mem_append_left _ (hmem e he), fun i hi hc => ?_⟩
    rw [inQuantum_append_of_not (by omega)]
    exact ofIndex_eq_above hrep hle hq (lt_of_live_updateBucket now d hi) hc

end Merges

/-! ### Exact sums -/

/-- In exact arithmetic a merge of aggregates adds up the sums. -/
theorem mergeAll_sum_ {sh : Shape ℚ} (hnc : sh.isCollated = false)
    (hagg : sh.isCounterAggregate = true) (hfix : 1 ≤ toInt32 sh.fixedCount)
    (ds : List (Bucket ℚ ℚ)) :
    (sh.mergeAll ds).sum_ = (ds.map Bucket.sum_).sum ∧
      ((sh.mergeAll ds).count = 0 → (sh.mergeAll ds).sum_ = 0) := by
  induction ds using List.reverseRecOn with
  | nil => exact ⟨rfl, fun _ => rfl⟩
  | append_singleton ds d ih =>
    have hstep : (sh.mergeAll (ds ++ [d])) = ((sh.mergeAll ds).update
        (d.withTime (sh.targetBucketTime d.time))).setCount (toInt32 sh.fixedCount) := by
      rw [mergeAll_append]
      simp [mergeData, hnc, hagg]
    rw [hstep, List.map_append, List.sum_append, List.map_singleton, List.sum_singleton]
    refine ⟨?_, fun h0 => absurd h0 (by rw [Bucket.setCount_count]; omega)⟩
    rw [Bucket.setCount_sum_, Bucket.update_sum_ ih.2, ih.1, Bucket.withTime_sum_]

end StatFile

end Istatd
