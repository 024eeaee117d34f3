import Istatd.History
import Istatd.Lib.Run

/-!
# Trailing files: which slots are accessed

A trailing file keeps the buckets of up to three quanta in memory (`expBucket`).  Whenever a sample
of a fourth quantum arrives, and at every `flush`, the oldest of them is shifted out: it is blended
with the bucket of one season earlier and written to the ring.  By then the head may have moved far
beyond it, since samples of later quanta move the head at once.

* `FileOp`: the calls on a trailing file;
* `shiftState f op`: the file on which the call shifts out a bucket, if it does;
* `flushOneExpBucket_touched`: the two slots a shift accesses;
* `touched_inRange_iff`: all accesses of a run are inside the file exactly if at every shift the
  bucket of one season earlier is still in the window.
-/

namespace Istatd

open Shape

variable {D F : Type} [FloatArith D F]

/-- A call on an open file: `updateBucket` or `flush`, with the clock at the time of the call. -/
inductive FileOp (D F : Type)
  | update (now : ℤ) (data : Bucket D F)
  | flush (now : ℤ)

/-- The clock of a call. -/
def FileOp.now {D F : Type} : FileOp D F → ℤ
  | .update now _ => now
  | .flush now => now

namespace StatFile

/-- The file after a call. -/
def apply (f : StatFile D F) : FileOp D F → StatFile D F
  | .update now data => (f.updateBucket now data).2
  | .flush now => f.flush now

/-- The file after a run of calls. -/
def run (f : StatFile D F) (ops : List (FileOp D F)) : StatFile D F := ops.foldl apply f

/-- A bucket is pending for the quantum that starts at `t`. -/
def Pending (f : StatFile D F) (t : ℤ) : Prop := ∃ k, (f.expBucket k).time = t

instance (f : StatFile D F) (t : ℤ) : Decidable (f.Pending t) :=
  inferInstanceAs (Decidable (∃ k, (f.expBucket k).time = t))

/-- The state of the file when a call shifts out its oldest pending bucket, for the calls that do:
every `flush`, and the accepted updates of a quantum that is not pending. -/
def shiftState (f : StatFile D F) : FileOp D F → Option (StatFile D F)
  | .update _ data =>
    if f.Accepts data ∧ ¬ f.Pending (f.shape.targetBucketTime data.time) then
      some (f.moved (f.target data) (f.shape.targetBucketTime data.time))
    else none
  | .flush _ => some f

/-- The index of the oldest pending bucket. -/
def oldestIndex (g : StatFile D F) : ℤ := g.shape.mapTimeToBucketIndex (g.expBucket 0).time false

/-- The index of one season earlier. -/
def seasonIndex (g : StatFile D F) : ℤ :=
  g.shape.mapTimeToBucketIndex ((g.expBucket 0).time - g.shape.season) false

omit [FloatArith D F] in
theorem seasonIndex_le (g : StatFile D F) : g.seasonIndex ≤ g.oldestIndex := by
  unfold seasonIndex oldestIndex
  rw [mapTimeToBucketIndex_eq, mapTimeToBucketIndex_eq]
  exact Grid.cell_mono g.shape.cfgInterval_pos (by omega)

/-- The file with a pending bucket replaced. -/
def setPending (f : StatFile D F) (k : Fin 3) (b : Bucket D F) : StatFile D F :=
  { f with expBucket := Function.update f.expBucket k b }

section SetPending

variable (f : StatFile D F) (k : Fin 3) (b : Bucket D F)

omit [FloatArith D F]

@[simp] theorem setPending_shape : (f.setPending k b).shape = f.shape := rfl
@[simp] theorem setPending_header : (f.setPending k b).header = f.header := rfl
@[simp] theorem setPending_cache : (f.setPending k b).cache = f.cache := rfl
@[simp] theorem setPending_touched : (f.setPending k b).touched = f.touched := rfl
@[simp] theorem setPending_bucketAt (j : ℤ) : (f.setPending k b).bucketAt j = f.bucketAt j := rfl
@[simp] theorem setPending_expBucket :
    (f.setPending k b).expBucket = Function.update f.expBucket k b := rfl

end SetPending

/-! ### One call -/

section Call

variable {f : StatFile D F} (now : ℤ) (data : Bucket D F)

/-- The pending bucket of a quantum is found without touching the file. -/
theorem getTrailingBucket_of_pending {t : ℤ} (h : f.Pending t) :
    ∃ k, (f.expBucket k).time = t ∧ f.getTrailingBucket now t = (k, f) := by
  unfold getTrailingBucket
  by_cases h0 : (f.expBucket 0).time = t
  · exact ⟨0, h0, if_pos h0⟩
  by_cases h1 : (f.expBucket 1).time = t
  · exact ⟨1, h1, by rw [if_neg h0, if_pos h1]⟩
  by_cases h2 : (f.expBucket 2).time = t
  · exact ⟨2, h2, by rw [if_neg h0, if_neg h1, if_pos h2]⟩
  · obtain ⟨k, hk⟩ := h
    fin_cases k
    · exact absurd hk h0
    · exact absurd hk h1
    · exact absurd hk h2

theorem getTrailingBucket_of_not_pending {t : ℤ} (h : ¬ f.Pending t) :
    f.getTrailingBucket now t =
      (2, { f.flushOneExpBucket now with
        expBucket := Function.update (f.flushOneExpBucket now).expBucket 2 (Bucket.blank 0 t) }) := by
  have hk : ∀ k, (f.expBucket k).time ≠ t := fun k hk => h ⟨k, hk⟩
  unfold getTrailingBucket
  rw [if_neg (hk 0), if_neg (hk 1), if_neg (hk 2)]

/-- A merge by `updateBucket` always counts in the totals. -/
theorem mergeData_snd (sh : Shape D) (b : Bucket D F) :
    (mergeData sh .aggregate data b).2 = true := by
  unfold mergeData
  rw [if_neg (by decide)]
  split_ifs <;> rfl

/-- An accepted update of a pending quantum changes that pending bucket, and the header. -/
theorem updateBucket_of_pending (htr : f.shape.isTrailing = true) (hacc : f.Accepts data)
    (hp : f.Pending (f.shape.targetBucketTime data.time)) :
    ∃ k, (f.expBucket k).time = f.shape.targetBucketTime data.time ∧
      (f.updateBucket now data).2 =
        ((f.moved (f.target data) (f.shape.targetBucketTime data.time)).setPending k
          (mergeData f.shape .aggregate data (f.expBucket k)).1).addCumulative data := by
  have hp' : (f.moved (f.target data) (f.shape.targetBucketTime data.time)).Pending
      (f.shape.targetBucketTime data.time) := by simpa [Pending] using hp
  obtain ⟨k, hk, he⟩ := getTrailingBucket_of_pending now hp'
  rw [moved_expBucket] at hk
  refine ⟨k, hk, ?_⟩
  unfold updateBucket
  rw [rawUpdateBucket_of_trailing now data .aggregate htr hacc, he]
  simp [mergeData_snd, setPending]

/-- An accepted update of a quantum that is not pending shifts out the oldest pending bucket and
opens a new one. -/
theorem updateBucket_of_not_pending (htr : f.shape.isTrailing = true) (hacc : f.Accepts data)
    (hp : ¬ f.Pending (f.shape.targetBucketTime data.time)) :
    (f.updateBucket now data).2 =
      (((f.moved (f.target data) (f.shape.targetBucketTime data.time)).flushOneExpBucket
        now).setPending 2 (mergeData f.shape .aggregate data
          (Bucket.blank 0 (f.shape.targetBucketTime data.time))).1).addCumulative data := by
  have hp' : ¬ (f.moved (f.target data) (f.shape.targetBucketTime data.time)).Pending
      (f.shape.targetBucketTime data.time) := by simpa [Pending] using hp
  unfold updateBucket
  rw [rawUpdateBucket_of_trailing now data .aggregate htr hacc,
    getTrailingBucket_of_not_pending now hp']
  simp only [mergeData_snd, if_true, Function.update_self, Function.update_idem, setPending]

/-- **What a call touches.** -/
theorem apply_touched (htr : f.shape.isTrailing = true) (op : FileOp D F) :
    (f.apply op).touched =
      match f.shiftState op with
      | some g => (g.flushOneExpBucket op.now).touched
      | none => f.touched := by
  cases op with
  | flush now =>
    show (f.flush now).touched = (f.flushOneExpBucket now).touched
    unfold flush
    rw [if_pos htr]
  | update now data =>
    by_cases hacc : f.Accepts data
    · by_cases hp : f.Pending (f.shape.targetBucketTime data.time)
      · obtain ⟨k, -, he⟩ := updateBucket_of_pending now data htr hacc hp
        simp [apply, he, shiftState, hacc, hp]
      · simp [apply, updateBucket_of_not_pending now data htr hacc hp, shiftState, hacc, hp,
          FileOp.now]
    · simp [apply, updateBucket_of_old now data hacc, shiftState, hacc]

end Call

/-! ### The slots a shift accesses -/

section Slots

variable {f : StatFile D F} (now : ℤ)

theorem flushOneExpBucket_touched :
    (f.flushOneExpBucket now).touched =
      if 0 < (f.expBucket 0).time then
        f.mapBucketIndexToFileIndex now f.seasonIndex ::
          f.mapBucketIndexToFileIndex now f.oldestIndex :: f.touched
      else f.touched := by
  unfold flushOneExpBucket
  by_cases h : 0 < (f.expBucket 0).time
  · simp only [h, if_true]
    rfl
  · simp only [h, if_false]

omit [FloatArith D F] in
/-- The file index of an index is inside the file, or it is `-1`. -/
theorem mapBucketIndexToFileIndex_mem_iff (i : ℤ) :
    (0 ≤ f.mapBucketIndexToFileIndex now i ∧
        f.mapBucketIndexToFileIndex now i < f.shape.bucketCount) ↔
      f.isBucketIndexInFile now i = true := by
  constructor
  · intro h
    by_contra hcon
    unfold mapBucketIndexToFileIndex at h
    rw [if_neg hcon] at h
    omega
  · intro h
    rw [mapBucketIndexToFileIndex_of_inFile h]
    exact f.emod_bucketCount_mem i

/-- The pending buckets that will be written do not lie ahead of the head. -/
def PendingBelow (f : StatFile D F) : Prop :=
  ∀ k, 0 < (f.expBucket k).time →
    f.shape.mapTimeToBucketIndex (f.expBucket k).time false ≤ f.header.lastBucket

/-- If the oldest pending bucket is to be written, the bucket of one season earlier is in the
window. -/
def SeasonKept (g : StatFile D F) : Prop :=
  0 < (g.expBucket 0).time → g.header.lastBucket - g.shape.bucketCount < g.seasonIndex

omit [FloatArith D F] in
theorem PendingBelow.seasonIndex_live (hb : f.PendingBelow) (h0 : 0 < (f.expBucket 0).time)
    (hs : f.SeasonKept) : f.Live f.seasonIndex :=
  ⟨hs h0, f.seasonIndex_le.trans (hb 0 h0)⟩

omit [FloatArith D F] in
theorem PendingBelow.oldestIndex_live (hb : f.PendingBelow) (h0 : 0 < (f.expBucket 0).time)
    (hs : f.SeasonKept) : f.Live f.oldestIndex :=
  ⟨(hs h0).trans_le f.seasonIndex_le, hb 0 h0⟩

/-- A shift accesses slots of the file exactly if the bucket of one season earlier is kept. -/
theorem flushOneExpBucket_touched_iff (hb : f.PendingBelow) :
    (∀ i ∈ (f.flushOneExpBucket now).touched, 0 ≤ i ∧ i < f.shape.bucketCount) ↔
      (∀ i ∈ f.touched, 0 ≤ i ∧ i < f.shape.bucketCount) ∧ f.SeasonKept := by
  rw [flushOneExpBucket_touched]
  by_cases h0 : 0 < (f.expBucket 0).time
  · rw [if_pos h0]
    simp only [List.forall_mem_cons, mapBucketIndexToFileIndex_mem_iff]
    constructor
    · rintro ⟨hs, -, h⟩
      exact ⟨h, fun _ => lt_of_isBucketIndexInFile hs⟩
    · rintro ⟨h, hs⟩
      exact ⟨isBucketIndexInFile_of_live now (hb.seasonIndex_live h0 hs),
        isBucketIndexInFile_of_live now (hb.oldestIndex_live h0 hs), h⟩
  · rw [if_neg h0]
    exact ⟨fun h => ⟨h, fun hpos => absurd hpos h0⟩, fun h => h.1⟩

end Slots

/-! ### Runs -/

section Runs

variable {f : StatFile D F}

/-- The file is as it was but for the head and the pending buckets. -/
theorem apply_shape (op : FileOp D F) : (f.apply op).shape = f.shape := by
  cases op with
  | update now data => exact updateBucket_shape now data
  | flush now => exact flush_shape now

theorem flushOneExpBucket_expBucket (now : ℤ) :
    (f.flushOneExpBucket now).expBucket = ![f.expBucket 1, f.expBucket 2, Bucket.zero] := rfl

/-- A merge leaves the bucket at the time of the data or at the start of its quantum. -/
theorem mergeData_time_or {sh : Shape D} {b d : Bucket D F}
    (hb : b.time = sh.targetBucketTime d.time) :
    (mergeData sh .aggregate d b).1.time = d.time ∨
      (mergeData sh .aggregate d b).1.time = sh.targetBucketTime d.time := by
  cases hc : sh.isCollated
  · exact Or.inr (mergeData_targetTime (by simp [hc]) fun _ => hb)
  · left
    unfold mergeData
    rw [if_neg (by decide), if_pos (Or.inl hc)]

/-- The index of a merged bucket that will be written is at most that of the data. -/
theorem mergeData_index_le {b d : Bucket D F} (hb : b.time = f.shape.targetBucketTime d.time)
    (h0 : 0 < (mergeData f.shape .aggregate d b).1.time) :
    f.shape.mapTimeToBucketIndex (mergeData f.shape .aggregate d b).1.time false ≤ f.target d := by
  unfold target
  rw [mapTimeToBucketIndex_eq, mapTimeToBucketIndex_eq]
  apply Grid.cell_mono f.shape.cfgInterval_pos
  rcases mergeData_time_or hb with he | he
  · exact he.le
  · rw [he] at h0 ⊢
    exact Grid.cellStart_le_of_pos f.shape.cfgInterval_pos h0

theorem PendingBelow.updateBucket (h : f.PendingBelow) (htr : f.shape.isTrailing = true) (now : ℤ)
    (d : Bucket D F) : (f.updateBucket now d).2.PendingBelow := by
  by_cases hacc : f.Accepts d
  · intro k hk
    have hlast := updateBucket_lastBucket (f := f) now d
    rw [hlast, updateBucket_shape]
    have hold : ∀ j, 0 < (f.expBucket j).time →
        f.shape.mapTimeToBucketIndex (f.expBucket j).time false ≤
          max f.header.lastBucket (f.target d) := fun j hj => (h j hj).trans (le_max_left _ _)
    by_cases hp : f.Pending (f.shape.targetBucketTime d.time)
    · obtain ⟨j, hj, he⟩ := updateBucket_of_pending now d htr hacc hp
      rw [he] at hk ⊢
      simp only [addCumulative_expBucket, setPending_expBucket, moved_expBucket] at hk ⊢
      by_cases hkj : k = j
      · subst hkj
        rw [Function.update_self] at hk ⊢
        exact (mergeData_index_le hj hk).trans (le_max_right _ _)
      · rw [Function.update_of_ne hkj] at hk ⊢
        exact hold k hk
    · rw [updateBucket_of_not_pending now d htr hacc hp] at hk ⊢
      simp only [addCumulative_expBucket, setPending_expBucket, flushOneExpBucket_expBucket,
        moved_expBucket] at hk ⊢
      fin_cases k
      · exact hold 1 hk
      · exact hold 2 hk
      · exact (mergeData_index_le rfl hk).trans (le_max_right _ _)
  · rw [updateBucket_of_old now d hacc]
    exact h

theorem PendingBelow.flush (h : f.PendingBelow) (htr : f.shape.isTrailing = true) (now : ℤ) :
    (f.flush now).PendingBelow := by
  intro k hk
  rw [flush_header, flush_shape]
  have hexp : (f.flush now).expBucket = ![f.expBucket 1, f.expBucket 2, Bucket.zero] := by
    unfold StatFile.flush
    rw [if_pos htr]
    rfl
  rw [hexp] at hk ⊢
  fin_cases k
  · exact h 1 hk
  · exact h 2 hk
  · exact absurd hk (lt_irrefl _)

/-- **One call keeps the pending buckets below the head.** -/
theorem PendingBelow.apply (h : f.PendingBelow) (htr : f.shape.isTrailing = true)
    (op : FileOp D F) : (f.apply op).PendingBelow := by
  cases op with
  | update now data => exact h.updateBucket htr now data
  | flush now => exact h.flush htr now

omit [FloatArith D F] in
theorem PendingBelow.moved (h : f.PendingBelow) (k t : ℤ) : (f.moved k t).PendingBelow := by
  intro j hj
  rw [moved_expBucket] at hj ⊢
  rw [moved_shape, moved_lastBucket]
  exact (h j hj).trans (le_max_left _ _)

omit [FloatArith D F] in
theorem PendingBelow.shiftState (h : f.PendingBelow) {op : FileOp D F} {g : StatFile D F}
    (hg : f.shiftState op = some g) : g.PendingBelow := by
  cases op with
  | update now data =>
    simp only [StatFile.shiftState] at hg
    split_ifs at hg
    cases hg
    exact h.moved _ _
  | flush now =>
    cases hg
    exact h

omit [FloatArith D F] in
theorem shiftState_shape {op : FileOp D F} {g : StatFile D F} (hg : f.shiftState op = some g) :
    g.shape = f.shape ∧ g.touched = f.touched := by
  cases op with
  | update now data =>
    simp only [StatFile.shiftState] at hg
    split_ifs at hg
    cases hg
    simp
  | flush now =>
    cases hg
    exact ⟨rfl, rfl⟩

/-- The call shifts out a bucket to be written only while the bucket of one season earlier is in the
window the call leaves. -/
def SeasonInWindow (f : StatFile D F) (op : FileOp D F) : Prop :=
  ∀ g ∈ f.shiftState op, g.SeasonKept

instance (f : StatFile D F) : Decidable f.SeasonKept :=
  inferInstanceAs (Decidable (_ → _))

instance (f : StatFile D F) (op : FileOp D F) : Decidable (f.SeasonInWindow op) :=
  inferInstanceAs (Decidable (∀ g ∈ f.shiftState op, g.SeasonKept))

/-- One call keeps to the slots of the file exactly if it meets the condition. -/
theorem apply_touched_iff (htr : f.shape.isTrailing = true) (hb : f.PendingBelow)
    (op : FileOp D F) :
    (∀ i ∈ (f.apply op).touched, 0 ≤ i ∧ i < f.shape.bucketCount) ↔
      (∀ i ∈ f.touched, 0 ≤ i ∧ i < f.shape.bucketCount) ∧ f.SeasonInWindow op := by
  rw [apply_touched htr]
  unfold SeasonInWindow
  cases hs : f.shiftState op with
  | none => simp
  | some g =>
    obtain ⟨hsh, ht⟩ := shiftState_shape hs
    have h := flushOneExpBucket_touched_iff op.now (hb.shiftState hs)
    rw [hsh, ht] at h
    simpa using h

theorem run_touched_iff (htr : f.shape.isTrailing = true) (hb : f.PendingBelow)
    (ops : List (FileOp D F)) :
    (∀ i ∈ (f.run ops).touched, 0 ≤ i ∧ i < f.shape.bucketCount) ↔
      (∀ i ∈ f.touched, 0 ≤ i ∧ i < f.shape.bucketCount) ∧
        Run.Along StatFile.apply SeasonInWindow f ops := by
  induction ops generalizing f with
  | nil => simp [run]
  | cons op ops ih =>
    have hsh := apply_shape (f := f) op
    have h := ih (f := f.apply op) (by rw [hsh]; exact htr) (hb.apply htr op)
    rw [hsh, apply_touched_iff htr hb] at h
    rw [Run.along_cons, ← and_assoc]
    exact h

theorem ofDisk_pendingBelow (d : DiskFile D F) : (ofDisk d).PendingBelow :=
  fun _ hk => absurd hk (lt_irrefl _)

/-- **All accesses of a run are inside the file**, that is, no file index `-1` is used, if and only
if at every shift of a pending bucket the bucket of one season earlier is in the window. -/
theorem touched_inRange_iff (d : DiskFile D F) (htr : d.shape.isTrailing = true)
    (ops : List (FileOp D F)) :
    (∀ i ∈ ((ofDisk d).run ops).touched, 0 ≤ i ∧ i < d.shape.bucketCount) ↔
      Run.Along StatFile.apply SeasonInWindow (ofDisk d) ops := by
  have h := run_touched_iff (f := ofDisk d) htr (ofDisk_pendingBelow d) ops
  rw [show (∀ i ∈ (ofDisk d).touched, 0 ≤ i ∧ i < (ofDisk d).shape.bucketCount) ↔ True by
    simp [ofDisk], true_and] at h
  exact h

end Runs

end StatFile

/-- Settings of a trailing file with ten-second buckets and a season of one bucket, created at 1000.
-/
def sampleTrailingSettings : Settings ℚ where
  zeroTime := 1000
  intervalTime := 10
  numSamples := 360
  flags := fileFlagIsTrailing
  season := 10
  lambda := 1 / 2
  fixedCount := 0

/-- That file on disk, just created. -/
def sampleTrailingDisk : DiskFile ℚ ℚ :=
  ⟨newShape 4096 1000 10 sampleTrailingSettings, newHeader ℚ 1000, fun _ _ => Bucket.zero⟩

theorem sampleTrailingDisk_new :
    DiskFile.create 4096 0 sampleTrailingSettings = .ok sampleTrailingDisk := by
  unfold DiskFile.create writeNewHeader
  simp only
  rw [if_neg (by decide +kernel), if_neg (by decide), if_neg (by decide), if_neg (by decide)]
  rfl

/-- Samples of four successive quanta stay inside the file. -/
theorem touched_inRange_sample :
    sampleTrailingDisk.shape.isTrailing = true ∧
      ∀ i ∈ ((StatFile.ofDisk sampleTrailingDisk).run [.update 0 (Bucket.blank 1 1010),
          .update 0 (Bucket.blank 1 1020), .update 0 (Bucket.blank 1 1030),
          .update 0 (Bucket.blank 1 1040), .flush 0]).touched,
        0 ≤ i ∧ i < sampleTrailingDisk.shape.bucketCount :=
  ⟨rfl, (StatFile.touched_inRange_iff sampleTrailingDisk rfl _).2 (by decide +kernel)⟩

/-- After samples at 1000, 1010 and 1020 a sample at 7000 moves the head by more than a lap; the
bucket of 1000 and the one of a season before it are then looked up outside the file. -/
theorem touched_inRange_gap :
    ¬ ∀ i ∈ ((StatFile.ofDisk sampleTrailingDisk).run [.update 0 (Bucket.blank 1 1000),
        .update 0 (Bucket.blank 1 1010), .update 0 (Bucket.blank 1 1020),
        .update 0 (Bucket.blank 1 7000)]).touched,
      0 ≤ i ∧ i < sampleTrailingDisk.shape.bucketCount := by
  intro h
  exact absurd (h (-1) (by decide +kernel)) (by decide)

end Istatd
