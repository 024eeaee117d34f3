import Istatd.GaugeSelect

/-!
# Range queries of a collated counter

A request to a collated counter should return one bucket for every quantum of the rounded range, in
order: the bucket the picked file holds, and a bucket of value 0 and count 1 where it holds none.

The finest file gets the buckets of the window, whose times are always on its grid, so every slot
can be told by its time (`OnGrid`).  The coarser files get the oldest bucket of the window at every
shift; the window of the first record reaches back before the creation of the files, and what is
pushed from there has the index of the next quantum until that quantum is pushed itself.

* `CollatedTraced.step`: the times in the files of a collated counter, call by call;
* `fillGaps_eq`: the loop that replaces the buckets out of range;
* `collated_select`: what a request returns.
-/

namespace Istatd

variable {D F : Type}

namespace StatFile

variable {f f' : StatFile D F}

/-- The times in the file come from times on its grid. -/
def OnGrid (f : StatFile D F) : Prop := ∃ ts, f.Traced ts ∧ ∀ t ∈ ts, f.shape.cfgInterval ∣ t

theorem OnGrid.congr (h : f.OnGrid) (hr : SameRing f f') : f'.OnGrid := by
  obtain ⟨ts, htr, hts⟩ := h
  exact ⟨ts, htr.congr hr, by rw [hr.shape]; exact hts⟩

theorem OnGrid.settled (h : f.OnGrid) : ∃ ts, f.Traced ts ∧ f.Settled ts := by
  obtain ⟨ts, htr, hts⟩ := h
  exact ⟨ts, htr, settled_of_forall fun t ht => Or.inr (Or.inr (hts t ht))⟩

variable [FloatArith D F]

theorem OnGrid.updateBucket (h : f.OnGrid) (hnt : f.shape.isTrailing = false) {d : Bucket D F}
    (hd : f.shape.cfgInterval ∣ d.time) (now : ℤ) : (f.updateBucket now d).2.OnGrid := by
  obtain ⟨ts, htr, hts⟩ := h
  refine ⟨ts ++ [d.time], htr.updateBucket hnt (fun _ => hd) now, fun t ht => ?_⟩
  rw [updateBucket_shape]
  rcases List.mem_append.1 ht with ht | ht
  · exact hts t ht
  · rwa [List.mem_singleton.1 ht]

end StatFile

/-! ### The files of a collated counter -/

namespace StatCounter

variable [FloatArith D F] {c c' : StatCounter D F} {now t : ℤ}

/-- What is known of the times in the files of a collated counter. -/
structure CollatedTraced (c : StatCounter D F) : Prop where
  reachable : c.Reachable
  bucket_time : ∀ k, (c.collations k).bucket.time = (c.collations k).time
  fine : c.fine.shape.isTrailing = false → c.fine.OnGrid
  coarser : ∀ g ∈ c.coarser, g.shape.isCollated = false ∧
    (g.shape.isTrailing = false → g.Traced (c.pushed.map Bucket.time))

omit [FloatArith D F] in
theorem CollatedTraced.bucket_dvd (h : c.CollatedTraced) (k : Fin 5) :
    c.fine.shape.cfgInterval ∣ (c.collations k).bucket.time := by
  rw [h.bucket_time]
  exact h.reachable.2.time_dvd k

omit [FloatArith D F] in
/-- The files changed in a way that shows the same rings, for files that are not trailing. -/
theorem CollatedTraced.mapFiles (h : c.CollatedTraced) {φ : StatFile D F → StatFile D F}
    (hr : c'.Reachable) (hb : ∀ k, (c'.collations k).bucket.time = (c'.collations k).time)
    (hfine : c'.fine = φ c.fine) (hcoarser : c'.coarser = c.coarser.map φ)
    (hpushed : c'.pushed = c.pushed) (hshape : ∀ g, (φ g).shape = g.shape)
    (hφ : ∀ g, g.shape.isTrailing = false → StatFile.SameRing g (φ g)) : c'.CollatedTraced where
  reachable := hr
  bucket_time := hb
  fine := fun hnt => by
    rw [hfine] at hnt ⊢
    rw [hshape] at hnt
    exact (h.fine hnt).congr (hφ _ hnt)
  coarser := fun g' hg' => by
    rw [hcoarser] at hg'
    obtain ⟨g, hg, rfl⟩ := List.mem_map.1 hg'
    obtain ⟨hcol, htr⟩ := h.coarser g hg
    rw [hshape, hpushed]
    exact ⟨hcol, fun hnt => (htr hnt).congr (hφ g hnt)⟩

theorem CollatedTraced.writeCollations (h : c.CollatedTraced) (hnt : c.fine.shape.isTrailing = false)
    (now : ℤ) : (c.writeCollations now).OnGrid := by
  have hfold := List.foldlRecOn (List.finRange 5)
    (fun (f : StatFile D F) i => (f.updateBucket now (c.collations i).bucket).2)
    (motive := fun f => f.shape = c.fine.shape ∧ f.OnGrid) ⟨rfl, h.fine hnt⟩
    fun f hf i _ => by
      obtain ⟨hshape, hgrid⟩ := hf
      refine ⟨(StatFile.updateBucket_shape _ _).trans hshape, ?_⟩
      exact hgrid.updateBucket (by rw [hshape]; exact hnt) (by rw [hshape]; exact h.bucket_dvd i) now
  exact hfold.2

theorem Reachable.shiftCollated (h : c.Reachable) (now : ℤ) : (c.shiftCollated now).2.Reachable := by
  refine ⟨by unfold isCollated; rw [shiftCollated_fine_shape]; exact h.1, ?_⟩
  by_cases h0 : (c.collations 0).time = 0
  · rw [shiftCollated_of_time_eq_zero h0]
    exact h.2
  · rcases h.2 with hf | ⟨w, hw⟩
    · exact absurd (hf 0) h0
    · rw [hw.time_zero] at h0
      exact Or.inr ⟨_, (hw.shiftCollated h0 now).2⟩

/-- **A shift** pushes the oldest bucket of the window to the coarser files. -/
theorem CollatedTraced.shiftCollated (h : c.CollatedTraced) (now : ℤ) :
    (c.shiftCollated now).2.CollatedTraced := by
  by_cases h0 : (c.collations 0).time = 0
  · rw [shiftCollated_of_time_eq_zero h0]
    exact h
  · have hshift : (c.shiftCollated now).2 = { c with
        fine := c.writeCollations now
        coarser := c.coarser.map fun f => (f.updateBucket now (c.collations 0).bucket).2
        collations := ![c.collations 1, c.collations 2, c.collations 3, c.collations 4,
          CollationInfo.ofTime ((c.collations 4).time + c.collationInterval)]
        pushed := c.pushed ++ [(c.collations 0).bucket] } := by
      simp [StatCounter.shiftCollated, h0]
    refine ⟨h.reachable.shiftCollated now, ?_, ?_, ?_⟩
    · rw [hshift]
      intro k
      fin_cases k
      · exact h.bucket_time 1
      · exact h.bucket_time 2
      · exact h.bucket_time 3
      · exact h.bucket_time 4
      · rfl
    · rw [hshift]
      intro hnt
      exact h.writeCollations (by rw [← writeCollations_shape c now]; exact hnt) now
    · rw [hshift]
      intro g' hg'
      obtain ⟨g, hg, rfl⟩ := List.mem_map.1 hg'
      obtain ⟨hcol, htr⟩ := h.coarser g hg
      rw [StatFile.updateBucket_shape]
      refine ⟨hcol, fun hnt => ?_⟩
      rw [List.map_append]
      exact (htr hnt).updateBucket hnt (by simp [hcol]) now

theorem CollatedTraced.maybeShiftCollated (h : c.CollatedTraced) (now t : ℤ) :
    (c.maybeShiftCollated now t).CollatedTraced :=
  maybeShiftCollated_induction now t (fun _ hc => hc.shiftCollated now) h

theorem CollatedTraced.shiftFor (h : c.CollatedTraced) (ht : c.collationInterval ∣ t) (now : ℤ) :
    (c.shiftFor now t).CollatedTraced := by
  unfold StatCounter.shiftFor
  split_ifs
  · exact h
  · exact ⟨⟨h.reachable.1, Or.inr ⟨_, initCollations_windowAt ht⟩⟩, fun _ => rfl, h.fine, h.coarser⟩
  · exact h.maybeShiftCollated now t

/-- An added value leaves the bucket at the time of its slot. -/
theorem CollatedTraced.addCollated (h : c.CollatedTraced) {i : Fin 5}
    (hi : (c.collations i).time = t) (now : ℤ) (v : D) :
    (c.addCollated now i t v).CollatedTraced := by
  have hbucket : ((c.collations i).bucket.collatedUpdate v t).time = t := by
    show (if (c.collations i).bucket.count = 0 then t else (c.collations i).bucket.time) = t
    rw [h.bucket_time, hi, ite_self]
  refine ⟨⟨by unfold isCollated; rw [addCollated_fine_shape]; exact h.reachable.1,
    h.reachable.2.addCollated i v⟩, fun k => ?_, fun hnt => ?_, h.coarser⟩
  · rw [addCollated_time]
    unfold StatCounter.addCollated
    by_cases hk : k = i
    · subst hk
      simp only [Function.update_self]
      rw [hbucket, hi]
    · simp only [Function.update_of_ne hk]
      exact h.bucket_time k
  · rw [addCollated_fine_shape] at hnt
    unfold StatCounter.addCollated
    simp only
    split_ifs
    · refine (h.fine hnt).updateBucket hnt ?_ now
      rw [hbucket, ← hi]
      exact h.reachable.2.time_dvd i
    · exact h.fine hnt

theorem CollatedTraced.recordCollated (h : c.CollatedTraced) {time : ℤ} {value : D}
    (hr : c.recordCollated now time value = .ok c') : c'.CollatedTraced := by
  unfold StatCounter.recordCollated at hr
  split_ifs at hr with had
  · have hdvd := Grid.cellStart_dvd c.collationInterval time
    have hfor := h.shiftFor hdvd now
    have hI := (shiftFor_windowed h.reachable.1 h.reachable.2 hdvd now).2
    simp only at hr
    split at hr
    · rename_i i hi
      cases hr
      exact hfor.addCollated (hfor.reachable.2.time_eq (by rw [hI]; exact hdvd) hi) now _
    · cases hr
  · cases hr
    exact h

theorem CollatedTraced.flush (h : c.CollatedTraced) (now : ℤ) : (c.flush now).CollatedTraced := by
  have hm := h.maybeShiftCollated now (now + c.collationInterval * 2)
  exact hm.mapFiles (h.reachable.flush now) hm.bucket_time rfl rfl rfl
    (fun g => StatFile.flush_shape now) fun g hnt => StatFile.flush_sameRing hnt now

theorem CollatedTraced.close (h : c.CollatedTraced) (now : ℤ) : (c.close now).CollatedTraced := by
  unfold StatCounter.close
  split_ifs
  · exact h.maybeShiftCollated now _
  · exact h.maybeShiftCollated now _

/-- **One call** on a collated counter. -/
theorem CollatedTraced.step (h : c.CollatedTraced) {op : CounterOp D} (hs : c.step op = .ok c') :
    c'.CollatedTraced := by
  have hreach := h.reachable.step hs
  cases op with
  | record now time value valueSq min max cnt =>
    simp only [StatCounter.step, record, h.reachable.1, if_true] at hs
    exact h.recordCollated hs
  | flush now =>
    cases hs
    exact h.flush now
  | forceFlush now =>
    cases hs
    exact (h.maybeShiftCollated now _).flush now
  | maybeShiftCollated now t =>
    cases hs
    exact h.maybeShiftCollated now t
  | reopen now =>
    cases hs
    exact (h.close now).mapFiles hreach (fun _ => rfl) rfl rfl rfl (fun g => rfl)
      fun g _ => g.reopen_sameRing

/-- **A run** of a collated counter. -/
theorem CollatedTraced.run {ops : List (CounterOp D)} (h : c.CollatedTraced)
    (hrun : ops.foldlM StatCounter.step c = .ok c') : c'.CollatedTraced :=
  Run.exec_invariant (fun _ _ _ hc hs => hc.step hs) h hrun

theorem collatedTraced_new {sysPageSize clock zeroTime : ℤ} {first : RetentionInterval D F}
    {rest : List (RetentionInterval D F)}
    (hnew : construct sysPageSize clock true zeroTime (first, none)
      (rest.map fun ri => (ri, none)) = .ok c) : c.CollatedTraced := by
  obtain ⟨⟨⟨sh, hd, -, hfine⟩, hcol, -⟩, hcoarse⟩ := construct_new hnew
  obtain ⟨hwin, -, hpushed⟩ := construct_collations hnew
  refine ⟨⟨hcol, Or.inl fun k => by rw [hwin]; rfl⟩, fun k => by rw [hwin]; rfl, fun _ => ?_,
    fun g hg => ?_⟩
  · rw [hfine]
    exact ⟨[], StatFile.traced_new sh hd, fun t ht => by cases ht⟩
  · obtain ⟨⟨sh, hd, -, rfl⟩, hgcol, -⟩ := hcoarse g hg
    rw [hpushed]
    exact ⟨hgcol, fun _ => StatFile.traced_new sh hd⟩

end StatCounter

/-! ### Requests -/

namespace StatFile

variable [FloatArith D F] {f : StatFile D F} {s e i : ℤ}

/-- What a request should show of index `j`: the bucket the file holds, or one of value 0 and count
1. -/
def quantumBucket (f : StatFile D F) (j : ℤ) : Bucket D F :=
  if f.Holds j then f.bucketAt j else Bucket.blank 1 (f.shape.mapBucketIndexToTime j)

theorem quantumBucket_time (f : StatFile D F) (j : ℤ) :
    (f.quantumBucket j).time = f.shape.mapBucketIndexToTime j := by
  unfold quantumBucket
  split_ifs with h
  · exact h.2
  · rfl

/-- A range whose gaps can be filled: above the epoch, on the grid of the file, short enough for an
`int`, and longer than a single time unless the file holds nothing there. -/
structure Fillable (f : StatFile D F) (s e : ℤ) : Prop where
  pos : 0 < s
  start_dvd : f.shape.cfgInterval ∣ s
  end_dvd : f.shape.cfgInterval ∣ e
  nonempty : s < e ∨ ¬ f.Holds (f.shape.mapTimeToBucketIndex s false)
  short : f.numBucketsBetween s e false < 2 ^ 31

instance (f : StatFile D F) (s e : ℤ) : Decidable (f.Fillable s e) :=
  decidable_of_iff (0 < s ∧ f.shape.cfgInterval ∣ s ∧ f.shape.cfgInterval ∣ e ∧
      (s < e ∨ ¬ f.Holds (f.shape.mapTimeToBucketIndex s false)) ∧
      f.numBucketsBetween s e false < 2 ^ 31)
    ⟨fun h => ⟨h.1, h.2.1, h.2.2.1, h.2.2.2.1, h.2.2.2.2⟩,
      fun h => ⟨h.pos, h.start_dvd, h.end_dvd, h.nonempty, h.short⟩⟩

/-- **The loop of a collated `readBucketsFromFile`**: if exactly the slots with a time in range are
those of buckets the file holds, every slot gets its own time. -/
theorem fillGaps_eq {m : ℕ}
    (h : ∀ j, i ≤ j → j < i + m → (s ≤ (f.bucketAt j).time ∧ (f.bucketAt j).time < e ↔ f.Holds j)) :
    StatCounter.fillGaps f.shape.cfgInterval s e (f.shape.mapBucketIndexToTime i)
        ((RingIndex.consecutive i m).map f.bucketAt) =
      (RingIndex.consecutive i m).map f.quantumBucket := by
  induction m generalizing i with
  | zero => rfl
  | succ m ih =>
    have hnext : f.shape.mapBucketIndexToTime i + f.shape.cfgInterval =
        f.shape.mapBucketIndexToTime (i + 1) := by
      rw [Shape.mapBucketIndexToTime_add, one_mul]
    have hrest := ih (i := i + 1) fun j h1 h2 => h j (by omega) (by push_cast; omega)
    have hi := h i le_rfl (by omega)
    rw [RingIndex.consecutive_succ, List.map_cons, List.map_cons]
    unfold StatCounter.fillGaps quantumBucket
    by_cases hh : f.Holds i
    · rw [if_pos (hi.2 hh), if_pos hh, hh.2, hnext, hrest]
      rfl
    · rw [if_neg (mt hi.1 hh), if_neg hh, hnext, hrest]
      rfl

omit [FloatArith D F] in
/-- The number of buckets of a range on the grid. -/
theorem Fillable.numBucketsBetween (h : f.Fillable s e) (hse : s ≤ e) :
    f.numBucketsBetween s e false = max 1 ((e - s) / f.shape.cfgInterval) := by
  have hpos := f.shape.cfgInterval_pos
  have hs := Grid.cellStart_of_dvd h.start_dvd
  have he := Grid.cellStart_of_dvd h.end_dvd
  rcases hse.lt_or_eq with hlt | rfl
  · obtain ⟨h0, hcount⟩ := numBucketsBetween_of_lt (f := f) (s := s) (e := e)
      (by rw [hs, he]; exact hlt)
    rw [hs, he] at hcount
    have hdiv : (e - s) / f.shape.cfgInterval = f.numBucketsBetween s e false :=
      Int.ediv_eq_of_eq_mul_left hpos.ne' (by linarith)
    rw [hdiv, max_eq_right (by omega)]
  · rw [numBucketsBetween_of_eq rfl, sub_self, Int.zero_ediv]
    rfl

omit [FloatArith D F] in
/-- A range on the grid starts at the time of the index of its start. -/
theorem Fillable.time_start (h : f.Fillable s e) :
    f.shape.mapBucketIndexToTime (f.shape.mapTimeToBucketIndex s false) = s := by
  rw [(f.shape.mapBucketIndexToTime_index_iff s).2 (Or.inr (Or.inr h.start_dvd)),
    Shape.targetBucketTime_eq, Grid.cellStart_of_dvd h.start_dvd]

omit [FloatArith D F] in
/-- The number of buckets counts up to the end. -/
theorem Fillable.time_end (h : f.Fillable s e) (hse : s < e) :
    f.shape.mapBucketIndexToTime
      (f.shape.mapTimeToBucketIndex s false + f.numBucketsBetween s e false) = e := by
  have hs := Grid.cellStart_of_dvd h.start_dvd
  have he := Grid.cellStart_of_dvd h.end_dvd
  have hcount := (numBucketsBetween_of_lt (f := f) (s := s) (e := e) (by rw [hs, he]; exact hse)).2
  rw [hs, he] at hcount
  rw [Shape.mapBucketIndexToTime_add, h.time_start, hcount]

omit [FloatArith D F] in
/-- **The slots with a time in range** are those of the buckets the file holds. -/
theorem Fillable.inRange_iff {ts : List ℤ} (h : f.Fillable s e) (hse : s ≤ e) (htr : f.Traced ts)
    (hset : f.Settled ts)
    (hw : f.header.lastBucket - f.shape.bucketCount < f.shape.mapTimeToBucketIndex s false) {j : ℤ}
    (h1 : f.shape.mapTimeToBucketIndex s false ≤ j)
    (h2 : j < f.shape.mapTimeToBucketIndex s false +
      min (f.numBucketsBetween s e false) f.shape.bucketCount) :
    s ≤ (f.bucketAt j).time ∧ (f.bucketAt j).time < e ↔ f.Holds j := by
  constructor
  · rintro ⟨hs, -⟩
    exact htr.holds hset hw h.pos (f.mapBucketIndexToTime_lt_start s) h1 (by omega) hs
  · intro hh
    have hfrom := f.shape.mapBucketIndexToTime_le h1
    rw [h.time_start] at hfrom
    rw [hh.2]
    refine ⟨hfrom, ?_⟩
    rcases hse.lt_or_eq with hlt | rfl
    · rw [← h.time_end hlt, f.shape.mapBucketIndexToTime_lt_iff]
      omega
    · -- a single time: the file holds nothing there
      rw [numBucketsBetween_of_eq rfl] at h2
      obtain rfl : j = f.shape.mapTimeToBucketIndex s false := by omega
      exact absurd hh (h.nonempty.resolve_left (lt_irrefl s))

omit [FloatArith D F] in
/-- Every bucket the file holds in the range is among those read. -/
theorem Fillable.mem_read (h : f.Fillable s e) (hse : s ≤ e)
    (hw : f.header.lastBucket - f.shape.bucketCount < f.shape.mapTimeToBucketIndex s false) {j : ℤ}
    (hh : f.Holds j) (h1 : s ≤ f.shape.mapBucketIndexToTime j)
    (h2 : f.shape.mapBucketIndexToTime j < e ∨ f.shape.mapBucketIndexToTime j = s) :
    f.shape.mapTimeToBucketIndex s false ≤ j ∧ j < f.shape.mapTimeToBucketIndex s false +
      min (f.numBucketsBetween s e false) f.shape.bucketCount := by
  have hlast := hh.1.2
  have hfirst := f.shape.mapBucketIndexToTime_lt_iff.1
    ((f.mapBucketIndexToTime_lt_start s).trans_le h1)
  have hlt : s < e := by
    rcases h2 with h2 | h2
    · omega
    · refine h.nonempty.resolve_right fun hn => hn ?_
      rw [← h.time_start] at h2
      rwa [← f.shape.mapBucketIndexToTime_inj h2]
  have hend : f.shape.mapBucketIndexToTime j < e := by omega
  rw [← h.time_end hlt, f.shape.mapBucketIndexToTime_lt_iff] at hend
  omega

end StatFile

namespace StatCounter

variable [FloatArith D F] {c : StatCounter D F}

/-- **A request to a collated counter has no gaps and is faithful**: for every collated counter
reached from its construction, every request for which a file that is not trailing is picked, and
every clock, the range is rounded outwards; and if the rounded start is in the file, the gaps of the
range can be filled, and the last bucket pushed for every index in the window of the file, should it
be a coarser one, was well placed, then the buckets read have consecutive times from the rounded
start on, each of them is the bucket the file holds or, if it holds none, one of value 0 and count 1,
and every bucket the file holds in the range is among them, at its own time. -/
theorem collated_select {sysPageSize clock zeroTime : ℤ} {first : RetentionInterval D F}
    {rest : List (RetentionInterval D F)} {c₀ : StatCounter D F}
    (hnew : construct sysPageSize clock true zeroTime (first, none)
      (rest.map fun ri => (ri, none)) = .ok c₀)
    {ops : List (CounterOp D)} (hrun : ops.foldlM StatCounter.step c₀ = .ok c)
    {now start stop i interval : ℤ} {sf : StatFile D F} (maxSamples : ℕ) (hstart : 0 < start)
    (hstop : start ≤ stop) (hmax : maxSamples = 1 → start < stop)
    (hpick : c.pickStatFile now start stop i = (some sf, interval))
    (hnt : sf.shape.isTrailing = false) (now' : ℤ) :
    ∃ ns ne interval', normalizeRange start stop interval maxSamples = .ok (ns, ne, interval') ∧
      ns ≤ start ∧ stop ≤ ne ∧
      (sf.isBucketIndexInFile now' (sf.shape.mapTimeToBucketIndex ns false) = true →
        sf.Fillable ns ne →
        (sf ∈ c.coarser → sf.Settled (c.pushed.map Bucket.time)) →
        let first := sf.shape.mapTimeToBucketIndex ns false
        let n := (min (max 1 ((ne - ns) / sf.shape.cfgInterval)) sf.shape.bucketCount).toNat
        let buckets := c.readBucketsFromFile now' sf ns ne
        buckets = (RingIndex.consecutive first n).map sf.quantumBucket ∧
          buckets.map Bucket.time = (List.range n).map (fun k : ℕ => ns + k * sf.shape.cfgInterval) ∧
          ∀ j, sf.Holds j → ns ≤ sf.shape.mapBucketIndexToTime j →
            sf.shape.mapBucketIndexToTime j < ne ∨ sf.shape.mapBucketIndexToTime j = ns →
            sf.bucketAt j ∈ buckets) := by
  obtain ⟨hmem, rfl, -⟩ := pickStatFile_some hpick
  have htraced := (collatedTraced_new hnew).run hrun
  obtain ⟨ns, ne, interval', hok, -, hns, hne⟩ := normalizeRange_ok maxSamples
    hstart.le hstop sf.shape.cfgInterval_pos hmax
  refine ⟨ns, ne, interval', hok, hns, hne, fun hin hfill hpushed => ?_⟩
  intro first n buckets
  have hse : ns ≤ ne := by omega
  have hw := StatFile.lt_of_isBucketIndexInFile hin
  have hcount := sf.numBucketsBetween_pos hfill.pos.le hse
  have hbound : (n : ℤ) = min (sf.numBucketsBetween ns ne false) sf.shape.bucketCount := by
    show (((min _ _ : ℤ).toNat : ℕ) : ℤ) = _
    rw [hfill.numBucketsBetween hse, Int.toNat_of_nonneg]
    have := sf.shape.bucketCount_pos
    omega
  obtain ⟨ts, htr, hset⟩ : ∃ ts, sf.Traced ts ∧ sf.Settled ts := by
    rcases List.mem_cons.1 hmem with rfl | hc
    · exact (htraced.fine hnt).settled
    · exact ⟨_, (htraced.coarser sf hc).2 hnt, hpushed hc⟩
  have heq : buckets = (RingIndex.consecutive first n).map sf.quantumBucket := by
    show c.readBucketsFromFile now' sf ns ne = _
    unfold readBucketsFromFile
    simp only
    rw [toInt32_of_lt hcount hfill.short, if_pos hcount, if_pos htraced.reachable.1,
      sf.readBuckets_of_inFile hin, ← hbound, Int.toNat_natCast]
    nth_rewrite 2 [← hfill.time_start]
    exact StatFile.fillGaps_eq fun j h1 h2 => hfill.inRange_iff hse htr hset hw h1 (by omega)
  refine ⟨heq, ?_, fun j hh h1 h2 => ?_⟩
  · rw [heq, RingIndex.consecutive, List.map_map, List.map_map]
    refine List.map_congr_left fun k _ => ?_
    show (sf.quantumBucket (first + k)).time = _
    rw [sf.quantumBucket_time, Shape.mapBucketIndexToTime_add, hfill.time_start]
  · rw [heq]
    obtain ⟨hj1, hj2⟩ := hfill.mem_read hse hw hh h1 h2
    refine List.mem_map.2 ⟨j, RingIndex.mem_consecutive.2 ⟨hj1, by omega⟩, ?_⟩
    unfold StatFile.quantumBucket
    rw [if_pos hh]

end StatCounter

/-- Records at 1000 and 1020, and a request from 1003 to 1033: a bucket for each of the four quanta.
-/
theorem collated_select_sample :
    ∃ c, [recordAt 1000 10, recordAt 1020 10].foldlM StatCounter.step sampleCounter = .ok c ∧
      normalizeRange 1003 1033 10 0 = .ok (1000, 1040, 10) ∧
      c.readBucketsFromFile 1100 c.fine 1000 1040 = [100, 101, 102, 103].map c.fine.quantumBucket ∧
      (c.readBucketsFromFile 1100 c.fine 1000 1040).map Bucket.time = [1000, 1010, 1020, 1030] := by
  obtain ⟨c, hc, hval⟩ := Run.exists_ok_of_toOption_map (show
    ([recordAt 1000 10, recordAt 1020 10].foldlM StatCounter.step sampleCounter).toOption.map
      (fun c => (decide (∀ t ∈ [(1000 : ℤ), 1003], c.fine.isBucketIndexInFile 1100
          (c.fine.shape.mapTimeToBucketIndex t false) = true),
        (c.fine.shape.mapTimeToBucketIndex 1000 false, c.fine.shape.cfgInterval,
          c.fine.shape.bucketCount),
        c.fine.shape.isTrailing, c.coarser.all (fun g => g.shape.cfgInterval != 10),
        decide (c.fine.Fillable 1000 1040))) =
      some (true, (100, 10, 512), false, true, true) by decide +kernel)
  simp only [Prod.mk.injEq, decide_eq_true_eq] at hval
  obtain ⟨hin, ⟨hfirst, hI, hN⟩, hnt, hcoarse, hfill⟩ := hval
  have hnorm : normalizeRange 1003 1033 10 0 = .ok (1000, 1040, 10) := by decide +kernel
  have hpick := StatCounter.pickStatFile_of_fine 0
    (by decide : (1003 : ℤ) ≤ 1033) (hin 1003 (by simp))
  obtain ⟨ns, ne, i, hok, -, -, hsel⟩ := StatCounter.collated_select
    (show StatCounter.construct 4096 5 true 0 (tenSeconds, none)
      ([oneMinute].map fun ri => (ri, none)) = .ok sampleCounter from sampleCounter_new)
    hc 0 (by decide) (by decide) (by decide) hpick hnt 1100
  rw [hI, hnorm] at hok
  cases hok
  obtain ⟨heq, htime, -⟩ := hsel (hin 1000 (by simp)) hfill fun hmem =>
    absurd (List.all_eq_true.1 hcoarse _ hmem) (by simp [hI])
  rw [hfirst, hI, hN] at heq
  rw [hI, hN] at htime
  exact ⟨c, hc, hnorm, heq, htime⟩

/-- A request for the single time 1000: the file holds a bucket of that time, but no time is in the
range from 1000 up to and without 1000, and a bucket of value 0 is returned. -/
theorem collated_select_single :
    ∃ c, [recordAt 1000 10, recordAt 1020 10].foldlM StatCounter.step sampleCounter = .ok c ∧
      c.pickStatFile 1100 1000 1000 0 = (some c.fine, 10) ∧ c.fine.shape.isTrailing = false ∧
      normalizeRange 1000 1000 10 0 = .ok (1000, 1000, 10) ∧
      c.fine.shape.mapTimeToBucketIndex 1000 false = 100 ∧ c.fine.Live 100 ∧
      c.fine.bucketAt 100 = Bucket.make 1 1 1 1 1 1000 ∧
      c.readBucketsFromFile 1100 c.fine 1000 1000 = [Bucket.make 0 0 0 0 1 1000] := by
  obtain ⟨c, hc, hval⟩ := Run.exists_ok_of_toOption_map (show
    ([recordAt 1000 10, recordAt 1020 10].foldlM StatCounter.step sampleCounter).toOption.map
      (fun c => (c.fine.isBucketIndexInFile 1100 (c.fine.shape.mapTimeToBucketIndex 1000 false),
        (c.fine.shape.mapTimeToBucketIndex 1000 false, c.fine.shape.cfgInterval),
        c.fine.shape.isTrailing, decide (c.fine.Holds 100),
        decide (c.fine.bucketAt 100 = Bucket.make 1 1 1 1 1 1000),
        decide (c.readBucketsFromFile 1100 c.fine 1000 1000 = [Bucket.make 0 0 0 0 1 1000]))) =
      some (true, (100, 10), false, true, true, true) by decide +kernel)
  simp only [Prod.mk.injEq, decide_eq_true_eq] at hval
  obtain ⟨hin, ⟨hidx, hI⟩, hnt, hholds, hbucket, hread⟩ := hval
  have hpick := StatCounter.pickStatFile_of_fine 0 (le_refl (1000 : ℤ)) hin
  rw [hI] at hpick
  exact ⟨c, hc, hpick, hnt, by decide +kernel, hidx, hholds.1, hbucket, hread⟩

end Istatd
