import Istatd.Trailing

/-!
# Trailing files: what is stored

The purpose of a trailing file is to hold, for each quantum, the merge of all its samples blended
with the bucket of one season earlier.  The file decides on its own when a pending bucket is
written, so this is a statement about runs: `Averages base f samples written` says that the ring is
the initial ring `base` with the quanta `written` blended into it one after the other, each with all
the samples accepted for it, and that the pending buckets are the merges of the quanta opened since.

It holds in the runs that are careful at every call (`Careful`):

* a sample is not of a quantum whose bucket has been written already, since it would open a second
  bucket for the quantum, which later replaces the first;
* the bucket of one season earlier is in the window when a bucket is written;
* the page of the bucket to be written is not unmapped by the lookup of the season-ago bucket.

The main result is `trailing_average`.
-/

namespace Istatd

variable {D F : Type} [FloatArith D F]

/-! ### The ring as a replay -/

namespace Shape

variable (sh : Shape D)

/-- The samples of the quantum that starts at `q`. -/
def ofQuantum (q : ℤ) (samples : List (Bucket D F)) : List (Bucket D F) :=
  samples.filter fun d => sh.targetBucketTime d.time = q

/-- The quanta of the samples in the order of their first samples, as far as they are written. -/
def opened (samples : List (Bucket D F)) : List ℤ :=
  samples.foldl (fun qs d =>
    if 0 < sh.targetBucketTime d.time ∧ sh.targetBucketTime d.time ∉ qs then
      qs ++ [sh.targetBucketTime d.time]
    else qs) []

/-- The blend of a bucket with the bucket of one season earlier, if there is one. -/
def blend (old b : Bucket D F) : Bucket D F :=
  if 0 < old.time then old.expUpdate b sh.lambda else b

/-- The ring after the bucket of the quantum `q`, merged from all its samples, was written. -/
def writeOut (samples : List (Bucket D F)) (ring : ℤ → Bucket D F) (q : ℤ) : ℤ → Bucket D F :=
  fun j =>
    if j % sh.bucketCount = sh.mapTimeToBucketIndex q false % sh.bucketCount then
      sh.blend (ring (sh.mapTimeToBucketIndex (q - sh.season) false))
        (sh.mergeAll (sh.ofQuantum q samples))
    else ring j

/-- The ring after the buckets of several quanta were written in turn. -/
def replay (samples : List (Bucket D F)) (ring : ℤ → Bucket D F) (qs : List ℤ) : ℤ → Bucket D F :=
  qs.foldl (sh.writeOut samples) ring

variable {sh} {samples : List (Bucket D F)} {d : Bucket D F} {q : ℤ} {qs : List ℤ}

omit [FloatArith D F] in
theorem ofQuantum_append_self (hq : sh.targetBucketTime d.time = q) :
    sh.ofQuantum q (samples ++ [d]) = sh.ofQuantum q samples ++ [d] := by
  simp [ofQuantum, hq]

omit [FloatArith D F] in
theorem ofQuantum_append_of_ne (hq : sh.targetBucketTime d.time ≠ q) :
    sh.ofQuantum q (samples ++ [d]) = sh.ofQuantum q samples := by
  simp [ofQuantum, hq]

omit [FloatArith D F] in
theorem ofQuantum_eq_nil (hq : ∀ e ∈ samples, sh.targetBucketTime e.time ≠ q) :
    sh.ofQuantum q samples = [] := by
  unfold ofQuantum
  rw [List.filter_eq_nil_iff]
  exact fun e he hdec => hq e he (of_decide_eq_true hdec)

omit [FloatArith D F] in
theorem opened_append : sh.opened (samples ++ [d]) =
    if 0 < sh.targetBucketTime d.time ∧ sh.targetBucketTime d.time ∉ sh.opened samples then
      sh.opened samples ++ [sh.targetBucketTime d.time]
    else sh.opened samples := by
  unfold opened
  rw [List.foldl_append]
  rfl

omit [FloatArith D F] in
theorem mem_opened :
    q ∈ sh.opened samples ↔ 0 < q ∧ ∃ d ∈ samples, sh.targetBucketTime d.time = q := by
  induction samples using List.reverseRecOn with
  | nil => simp [opened]
  | append_singleton samples d ih =>
    rw [opened_append]
    split_ifs with h
    · rw [List.mem_append, ih, List.mem_singleton]
      constructor
      · rintro (⟨h0, e, he, hq⟩ | rfl)
        · exact ⟨h0, e, by simp [he], hq⟩
        · exact ⟨h.1, d, by simp, rfl⟩
      · rintro ⟨h0, e, he, hq⟩
        rcases List.mem_append.1 he with he | he
        · exact Or.inl ⟨h0, e, he, hq⟩
        · rw [List.mem_singleton.1 he] at hq
          exact Or.inr hq.symm
    · rw [ih]
      constructor
      · rintro ⟨h0, e, he, hq⟩
        exact ⟨h0, e, by simp [he], hq⟩
      · rintro ⟨h0, e, he, hq⟩
        rcases List.mem_append.1 he with he | he
        · exact ⟨h0, e, he, hq⟩
        · -- the sample opened nothing, so its quantum was open
          rw [List.mem_singleton.1 he] at hq
          subst hq
          exact ih.1 (by_contra fun hn => h ⟨h0, hn⟩)

omit [FloatArith D F] in
theorem opened_nodup : (sh.opened samples).Nodup := by
  induction samples using List.reverseRecOn with
  | nil => exact List.nodup_nil
  | append_singleton samples d ih =>
    rw [opened_append]
    split_ifs with h
    · exact List.nodup_append.2 ⟨ih, List.nodup_singleton _, fun a ha b hb he => by
        rw [he, List.mem_singleton.1 hb] at ha
        exact h.2 ha⟩
    · exact ih

/-- A replay depends on the samples of the quanta written only. -/
theorem replay_congr {samples' : List (Bucket D F)} (ring : ℤ → Bucket D F)
    (h : ∀ q ∈ qs, sh.ofQuantum q samples' = sh.ofQuantum q samples) :
    sh.replay samples' ring qs = sh.replay samples ring qs := by
  refine List.foldl_ext _ _ _ fun r q hq => ?_
  unfold writeOut
  rw [h q hq]

theorem replay_append (ring : ℤ → Bucket D F) (q : ℤ) :
    sh.replay samples ring (qs ++ [q]) = sh.writeOut samples (sh.replay samples ring qs) q := by
  simp [replay]

/-- A slot keeps its bucket while the buckets of other slots are written. -/
theorem replay_of_ne {j : ℤ} {ring : ℤ → Bucket D F} (h : ∀ q ∈ qs,
    j % sh.bucketCount ≠ sh.mapTimeToBucketIndex q false % sh.bucketCount) :
    sh.replay samples ring qs j = ring j := by
  induction qs generalizing ring with
  | nil => rfl
  | cons q qs ih =>
    have hstep : sh.replay samples ring (q :: qs) j = sh.writeOut samples ring q j :=
      ih fun r hr => h r (by simp [hr])
    rw [hstep]
    exact if_neg (h q (by simp))

/-- The merge into an empty bucket does not depend on that bucket. -/
theorem mergeData_of_count_eq_zero {b : Bucket D F} (hb : b.count = 0) :
    (mergeData sh .aggregate d b).1 = sh.mergeAll [d] := by
  unfold mergeAll mergeData
  simp [Bucket.update_of_count_eq_zero hb, Bucket.update_of_count_eq_zero Bucket.zero_count]

end Shape

/-! ### One shift -/

namespace StatFile

open Shape

variable {f : StatFile D F} {now : ℤ}

/-- The page of the file that holds an index. -/
def pageOf (f : StatFile D F) (i : ℤ) : ℤ := i % f.shape.bucketCount / f.shape.bucketsPerPage + 1

/-- The lookup of the season-ago bucket does not unmap the page of the bucket to be written: it does
if that page is in the line that is next to be replaced and the season-ago page is not mapped. -/
def PageKept (g : StatFile D F) : Prop :=
  0 < (g.expBucket 0).time →
    g.cache.store.find? (g.pageOf g.oldestIndex) = some g.cache.lruNextPage →
      g.cache.store.find? (g.pageOf g.seasonIndex) ≠ none

instance (g : StatFile D F) : Decidable g.PageKept := inferInstanceAs (Decidable (_ → _ → _))

/-- **The ring after a shift.** -/
theorem flushOneExpBucket_bucketAt (hb : f.PendingBelow) (hs : f.SeasonKept) (hp : f.PageKept)
    (h0 : 0 < (f.expBucket 0).time) (j : ℤ) :
    (f.flushOneExpBucket now).bucketAt j =
      if j % f.shape.bucketCount = f.oldestIndex % f.shape.bucketCount then
        f.shape.blend (f.bucketAt f.seasonIndex) (f.expBucket 0)
      else f.bucketAt j := by
  have hinw := isBucketIndexInFile_of_live now (hb.oldestIndex_live h0 hs)
  have hino : (f.writableBucket now f.oldestIndex).2.isBucketIndexInFile now f.seasonIndex = true :=
    isBucketIndexInFile_of_live (f := (f.writableBucket now f.oldestIndex).2) now
      (hb.seasonIndex_live h0 hs)
  set w := f.writableBucket now f.oldestIndex with hw
  set o := w.2.writableBucket now f.seasonIndex with ho
  obtain ⟨hwp, hwo⟩ := writableBucket_place hinw
  have hpage : o.1.page = f.pageOf f.seasonIndex := (writableBucket_place hino).1
  have hder : o.2.deref o.1 = f.bucketAt f.seasonIndex := by
    rw [ho, writableBucket_deref hino]
    unfold bucketAt
    rw [hw, writableBucket_slot, writableBucket_shape]
  -- the pointer to the bucket to be written is still good
  have hline : o.2.cache.store.line w.1.line = some (w.1.page, f.cache.view w.1.page) := by
    have h := f.cache.mapSinglePage_mapSinglePage_line w.1.page o.1.page
      (by rw [hwp, hpage]; exact hp h0)
    exact h
  have hslot := assign_slot (f := o.2) hline hwp hwo (f.shape.blend (f.bucketAt f.seasonIndex)
    (f.expBucket 0))
  have hflush : (f.flushOneExpBucket now).bucketAt j = (o.2.assign w.1 (f.shape.blend
      (f.bucketAt f.seasonIndex) (f.expBucket 0))).slot (j % f.shape.bucketCount) := by
    rw [← hder]
    unfold flushOneExpBucket
    simp only [h0, if_true]
    rfl
  rw [hflush, hslot]
  split_ifs with hj
  · rw [hj, Function.update_self]
  · rw [Function.update_of_ne hj, ho, writableBucket_slot, hw, writableBucket_slot]
    rfl

/-- Without a bucket to be written the ring stays. -/
theorem flushOneExpBucket_bucketAt_of_nonpos (h0 : ¬ 0 < (f.expBucket 0).time) (j : ℤ) :
    (f.flushOneExpBucket now).bucketAt j = f.bucketAt j := by
  unfold flushOneExpBucket
  simp only [h0, if_false]
  rfl

/-! ### The invariant -/

/-- The quantum of a pending bucket, if it is to be written. -/
def toWrite (t : ℤ) : List ℤ := if 0 < t then [t] else []

/-- The quanta pending to be written, oldest first. -/
def pendingQuanta (f : StatFile D F) : List ℤ :=
  toWrite (f.expBucket 0).time ++ toWrite (f.expBucket 1).time ++ toWrite (f.expBucket 2).time

theorem mem_toWrite {q t : ℤ} : q ∈ toWrite t ↔ 0 < q ∧ t = q := by
  unfold toWrite
  split_ifs with h
  · rw [List.mem_singleton]
    constructor
    · rintro rfl
      exact ⟨h, rfl⟩
    · rintro ⟨-, rfl⟩
      rfl
  · simp only [List.not_mem_nil, false_iff]
    rintro ⟨h0, rfl⟩
    exact h h0

omit [FloatArith D F] in
theorem mem_pendingQuanta {q : ℤ} : q ∈ f.pendingQuanta ↔ 0 < q ∧ f.Pending q := by
  unfold pendingQuanta Pending
  simp only [List.mem_append, mem_toWrite]
  constructor
  · rintro ((⟨h0, h⟩ | ⟨h0, h⟩) | ⟨h0, h⟩)
    · exact ⟨h0, 0, h⟩
    · exact ⟨h0, 1, h⟩
    · exact ⟨h0, 2, h⟩
  · rintro ⟨h0, k, hk⟩
    fin_cases k
    · exact Or.inl (Or.inl ⟨h0, hk⟩)
    · exact Or.inl (Or.inr ⟨h0, hk⟩)
    · exact Or.inr ⟨h0, hk⟩

omit [FloatArith D F] in
theorem pendingQuanta_inj (h : f.pendingQuanta.Nodup) {k l : Fin 3}
    (hk : 0 < (f.expBucket k).time) (hkl : (f.expBucket k).time = (f.expBucket l).time) : k = l := by
  obtain ⟨h01, -, h2⟩ := List.nodup_append.1 h
  have h1 := (List.nodup_append.1 h01).2.2
  have hmem : ∀ j, (f.expBucket j).time = (f.expBucket k).time →
      (f.expBucket k).time ∈ toWrite (f.expBucket j).time := fun j hj => mem_toWrite.2 ⟨hk, hj⟩
  by_contra hne
  -- the two pending times stand in different parts of the list
  have key : ∀ i j : Fin 3, i < j → (f.expBucket i).time = (f.expBucket k).time →
      (f.expBucket j).time = (f.expBucket k).time → False := by
    intro i j hij hi hj
    fin_cases j
    · exact absurd hij (by fin_cases i <;> decide)
    · obtain rfl : i = 0 := by fin_cases i <;> simp_all
      exact h1 _ (hmem 0 hi) _ (hmem 1 hj) rfl
    · refine h2 _ ?_ _ (hmem 2 hj) rfl
      rw [List.mem_append]
      fin_cases i
      · exact Or.inl (hmem 0 hi)
      · exact Or.inr (hmem 1 hi)
      · exact absurd hij (by decide)
  rcases lt_or_gt_of_ne hne with hlt | hlt
  · exact key k l hlt rfl hkl.symm
  · exact key l k hlt hkl.symm rfl

theorem pendingQuanta_flushOneExpBucket : (f.flushOneExpBucket now).pendingQuanta =
    toWrite (f.expBucket 1).time ++ toWrite (f.expBucket 2).time := by
  show toWrite (f.expBucket 1).time ++ toWrite (f.expBucket 2).time ++ [] = _
  rw [List.append_nil]

/-- The ring is the ring `base` with the quanta `written` blended into it, and the quanta opened
since are pending; every quantum is the merge of all of its samples. -/
structure Averages (base : ℤ → Bucket D F) (f : StatFile D F) (samples : List (Bucket D F))
    (written : List ℤ) : Prop where
  opened : f.shape.opened samples = written ++ f.pendingQuanta
  pending : ∀ k, 0 < (f.expBucket k).time →
    f.expBucket k = f.shape.mergeAll (f.shape.ofQuantum (f.expBucket k).time samples)
  below : f.PendingBelow
  ring : ∀ j, f.bucketAt j = f.shape.replay samples base written j

namespace Averages

variable {base : ℤ → Bucket D F} {samples : List (Bucket D F)} {written : List ℤ} {d : Bucket D F}
  {g : StatFile D F}

/-- The invariant is about the ring, the pending buckets and the head only. -/
theorem congr (h : f.Averages base samples written) (hsh : g.shape = f.shape)
    (hexp : g.expBucket = f.expBucket) (hat : ∀ j, g.bucketAt j = f.bucketAt j)
    (hlast : f.header.lastBucket ≤ g.header.lastBucket) : g.Averages base samples written where
  opened := by unfold pendingQuanta; rw [hsh, hexp]; exact h.opened
  pending := by rw [hsh, hexp]; exact h.pending
  below := fun k hk => by
    rw [hexp] at hk ⊢
    rw [hsh]
    exact (h.below k hk).trans hlast
  ring := fun j => by rw [hat, hsh]; exact h.ring j

theorem mem_opened_of_mem (h : f.Averages base samples written) {q : ℤ} (hq : q ∈ written) :
    q ∈ f.shape.opened samples := by
  rw [h.opened]
  exact List.mem_append_left _ hq

theorem pos_of_mem (h : f.Averages base samples written) {q : ℤ} (hq : q ∈ written) : 0 < q :=
  (mem_opened.1 (h.mem_opened_of_mem hq)).1

/-- What is written is not pending. -/
theorem not_pending_of_mem (h : f.Averages base samples written) {q : ℤ} (hq : q ∈ written) :
    ¬ f.Pending q := by
  intro hp
  have hnd : (f.shape.opened samples).Nodup := opened_nodup
  rw [h.opened] at hnd
  exact (List.nodup_append.1 hnd).2.2 q hq q (mem_pendingQuanta.2 ⟨h.pos_of_mem hq, hp⟩) rfl

/-- Two buckets to be written are of different quanta. -/
theorem eq_of_time_eq (h : f.Averages base samples written) {k l : Fin 3}
    (hk : 0 < (f.expBucket k).time) (hkl : (f.expBucket k).time = (f.expBucket l).time) : k = l := by
  have hnd : (f.shape.opened samples).Nodup := opened_nodup
  rw [h.opened] at hnd
  exact pendingQuanta_inj (List.nodup_append.1 hnd).2.1 hk hkl

/-- **A shift** writes out the oldest pending quantum. -/
theorem shift (h : f.Averages base samples written) (hs : f.SeasonKept) (hp : f.PageKept)
    (now : ℤ) :
    (f.flushOneExpBucket now).Averages base samples
      (written ++ toWrite (f.expBucket 0).time) := by
  refine ⟨?_, ?_, ?_, ?_⟩
  · rw [flushOneExpBucket_shape, h.opened, pendingQuanta_flushOneExpBucket, pendingQuanta,
      List.append_assoc, List.append_assoc]
  · rw [flushOneExpBucket_shape, flushOneExpBucket_expBucket]
    intro k hk
    fin_cases k
    · exact h.pending 1 hk
    · exact h.pending 2 hk
    · exact absurd hk (lt_irrefl _)
  · intro k hk
    rw [flushOneExpBucket_shape, flushOneExpBucket_header]
    rw [flushOneExpBucket_expBucket] at hk ⊢
    fin_cases k
    · exact h.below 1 hk
    · exact h.below 2 hk
    · exact absurd hk (lt_irrefl _)
  · intro j
    rw [flushOneExpBucket_shape]
    by_cases h0 : 0 < (f.expBucket 0).time
    · rw [toWrite, if_pos h0, replay_append, flushOneExpBucket_bucketAt h.below hs hp h0]
      unfold writeOut
      rw [← h.pending 0 h0, ← h.ring, ← h.ring]
      rfl
    · rw [toWrite, if_neg h0, List.append_nil, flushOneExpBucket_bucketAt_of_nonpos h0, h.ring]

omit [FloatArith D F] in
theorem setPending_time {k : Fin 3} {b : Bucket D F} (hb : b.time = (f.expBucket k).time)
    (j : Fin 3) : ((f.setPending k b).expBucket j).time = (f.expBucket j).time := by
  rw [setPending_expBucket]
  by_cases hj : j = k
  · rw [hj, Function.update_self, hb]
  · rw [Function.update_of_ne hj]

/-- **A sample of a pending quantum** is merged into its bucket. -/
theorem merge (h : f.Averages base samples written) (hnc : f.shape.isCollated = false) {k : Fin 3}
    (hk : (f.expBucket k).time = f.shape.targetBucketTime d.time) :
    (f.setPending k (mergeData f.shape .aggregate d (f.expBucket k)).1).Averages base
      (samples ++ [d]) written := by
  have htime := setPending_time (f := f) (k := k)
    ((mergeData_targetTime (by simp [hnc]) fun _ => hk).trans hk.symm)
  refine ⟨?_, ?_, ?_, ?_⟩
  · unfold pendingQuanta
    rw [htime, htime, htime, setPending_shape, opened_append, if_neg, h.opened]
    · rfl
    · rintro ⟨h0, hn⟩
      refine hn ?_
      rw [h.opened, List.mem_append]
      exact Or.inr (mem_pendingQuanta.2 ⟨h0, k, hk⟩)
  · intro j hj
    rw [htime, setPending_shape] at *
    rw [setPending_expBucket]
    by_cases hjk : j = k
    · subst hjk
      rw [Function.update_self, ofQuantum_append_self hk.symm, mergeAll_append, ← h.pending j hj]
    · rw [Function.update_of_ne hjk, ofQuantum_append_of_ne, ← h.pending j hj]
      rw [← hk]
      exact fun he => hjk (h.eq_of_time_eq hj he.symm)
  · intro j hj
    rw [htime] at hj ⊢
    exact h.below j hj
  · intro j
    rw [setPending_bucketAt, h.ring]
    refine congrFun (replay_congr base fun q hq => ?_).symm j
    refine ofQuantum_append_of_ne fun he => h.not_pending_of_mem hq ⟨k, ?_⟩
    rw [hk, he]

omit [FloatArith D F] in
/-- A bucket in the place the shift freed is the last one that is pending. -/
theorem pendingQuanta_setPending (h2 : ¬ 0 < (f.expBucket 2).time) (b : Bucket D F) :
    (f.setPending 2 b).pendingQuanta = f.pendingQuanta ++ toWrite b.time := by
  have hnil : toWrite (f.expBucket 2).time = [] := if_neg h2
  unfold pendingQuanta
  rw [hnil, List.append_nil]
  rfl

/-- **The first sample of a quantum** opens a bucket for it, in the place the shift freed. -/
theorem openNew (h : f.Averages base samples written) (hnc : f.shape.isCollated = false)
    (h2 : ¬ 0 < (f.expBucket 2).time) (hle : f.target d ≤ f.header.lastBucket)
    (hnew : 0 < f.shape.targetBucketTime d.time →
      ∀ e ∈ samples, f.shape.targetBucketTime e.time ≠ f.shape.targetBucketTime d.time) :
    (f.setPending 2 (mergeData f.shape .aggregate d
      (Bucket.blank 0 (f.shape.targetBucketTime d.time))).1).Averages base (samples ++ [d])
      written := by
  set b := (mergeData f.shape .aggregate d
    (Bucket.blank 0 (f.shape.targetBucketTime d.time) : Bucket D F)).1 with hb
  have htime : b.time = f.shape.targetBucketTime d.time :=
    mergeData_targetTime (by simp [hnc]) fun _ => rfl
  have hopened : 0 < f.shape.targetBucketTime d.time →
      f.shape.targetBucketTime d.time ∉ f.shape.opened samples := by
    intro h0 hmem
    obtain ⟨-, e, he, heq⟩ := mem_opened.1 hmem
    exact hnew h0 e he heq
  refine ⟨?_, ?_, ?_, ?_⟩
  · rw [pendingQuanta_setPending h2, htime, setPending_shape, opened_append, ← List.append_assoc,
      ← h.opened]
    unfold toWrite
    by_cases h0 : 0 < f.shape.targetBucketTime d.time
    · rw [if_pos ⟨h0, hopened h0⟩, if_pos h0]
    · rw [if_neg fun hc => h0 hc.1, if_neg h0, List.append_nil]
  · intro j hj
    rw [setPending_shape]
    rw [setPending_expBucket] at hj ⊢
    by_cases hj2 : j = 2
    · subst hj2
      rw [Function.update_self] at hj ⊢
      rw [htime] at hj ⊢
      rw [ofQuantum_append_self rfl, ofQuantum_eq_nil (hnew hj), List.nil_append, hb]
      exact mergeData_of_count_eq_zero rfl
    · rw [Function.update_of_ne hj2] at hj ⊢
      rw [ofQuantum_append_of_ne, ← h.pending j hj]
      intro he
      refine hopened (by omega) ?_
      rw [h.opened, List.mem_append]
      exact Or.inr (mem_pendingQuanta.2 ⟨by omega, j, he.symm⟩)
  · intro j hj
    rw [setPending_shape, setPending_header]
    rw [setPending_expBucket] at hj ⊢
    by_cases hj2 : j = 2
    · subst hj2
      rw [Function.update_self] at hj ⊢
      exact (mergeData_index_le rfl hj).trans hle
    · rw [Function.update_of_ne hj2] at hj ⊢
      exact h.below j hj
  · intro j
    rw [setPending_bucketAt, h.ring]
    refine congrFun (replay_congr base fun q hq => ?_).symm j
    refine ofQuantum_append_of_ne fun he => hopened (by rw [he]; exact h.pos_of_mem hq) ?_
    rw [he]
    exact h.mem_opened_of_mem hq

/-- The invariant does not see the head move. -/
theorem moved (h : f.Averages base samples written) (k t : ℤ) :
    (f.moved k t).Averages base samples written :=
  h.congr (moved_shape _ _ _) (moved_expBucket _ _ _) (moved_bucketAt _ _ _)
    (by rw [moved_lastBucket]; exact le_max_left _ _)

theorem flush (h : f.Averages base samples written) (htr : f.shape.isTrailing = true)
    (hs : f.SeasonKept) (hp : f.PageKept) :
    (f.flush now).Averages base samples (written ++ toWrite (f.expBucket 0).time) := by
  have hf : f.flush now =
      { f.flushOneExpBucket now with cache := (f.flushOneExpBucket now).cache.flush } := by
    unfold StatFile.flush
    rw [if_pos htr]
  rw [hf]
  refine (h.shift hs hp now).congr rfl rfl (fun j => ?_) le_rfl
  unfold bucketAt slot
  simp only [PageCache.flush_view]

theorem update_of_pending (h : f.Averages base samples written) (htr : f.shape.isTrailing = true)
    (hnc : f.shape.isCollated = false) (hacc : f.Accepts d)
    (hp : f.Pending (f.shape.targetBucketTime d.time)) (now : ℤ) :
    (f.updateBucket now d).2.Averages base (samples ++ [d]) written := by
  obtain ⟨k, hk, he⟩ := updateBucket_of_pending now d htr hacc hp
  have hm := (h.moved (f.target d) (f.shape.targetBucketTime d.time)).merge (d := d) (k := k)
    (by simpa using hnc) (by simpa using hk)
  rw [he]
  refine hm.congr ?_ ?_ ?_ ?_ <;> simp

theorem update_of_not_pending (h : f.Averages base samples written)
    (htr : f.shape.isTrailing = true) (hnc : f.shape.isCollated = false) (hacc : f.Accepts d)
    (hp : ¬ f.Pending (f.shape.targetBucketTime d.time))
    (hs : (f.moved (f.target d) (f.shape.targetBucketTime d.time)).SeasonKept)
    (hk : (f.moved (f.target d) (f.shape.targetBucketTime d.time)).PageKept)
    (hnew : 0 < f.shape.targetBucketTime d.time →
      ∀ e ∈ samples, f.shape.targetBucketTime e.time ≠ f.shape.targetBucketTime d.time) (now : ℤ) :
    (f.updateBucket now d).2.Averages base (samples ++ [d])
      (written ++ toWrite (f.expBucket 0).time) := by
  have ho := ((h.moved (f.target d) (f.shape.targetBucketTime d.time)).shift hs hk
    now).openNew (d := d) (by simpa using hnc) (by simp [flushOneExpBucket_expBucket])
    (by simp [target]) (by simpa using hnew)
  rw [moved_expBucket] at ho
  rw [updateBucket_of_not_pending now d htr hacc hp]
  refine ho.congr ?_ ?_ ?_ ?_ <;> simp

end Averages

end StatFile

/-! ### Runs -/

/-- A trailing file in a run, with the samples it has accepted and the quanta it has written. -/
structure TrailRun (D F : Type) where
  file : StatFile D F
  samples : List (Bucket D F)
  written : List ℤ

namespace TrailRun

open Shape StatFile

/-- The data a call adds to the samples. -/
def acceptedBy (f : StatFile D F) : FileOp D F → List (Bucket D F)
  | .update now d => if (f.updateBucket now d).1 then [d] else []
  | .flush _ => []

/-- The quantum a call writes out, if it does. -/
def writtenBy (f : StatFile D F) (op : FileOp D F) : List ℤ :=
  match f.shiftState op with
  | some g => toWrite (g.expBucket 0).time
  | none => []

/-- The run after a call. -/
def step (s : TrailRun D F) (op : FileOp D F) : TrailRun D F where
  file := s.file.apply op
  samples := s.samples ++ acceptedBy s.file op
  written := s.written ++ writtenBy s.file op

/-- A file just opened. -/
def start (d : DiskFile D F) : TrailRun D F := ⟨StatFile.ofDisk d, [], []⟩

/-- The sample of a call, if it has one and that is accepted, belongs to a pending quantum or is the
first of its quantum. -/
def SampleInTime (s : TrailRun D F) : FileOp D F → Prop
  | .update _ d => s.file.Accepts d → 0 < s.file.shape.targetBucketTime d.time →
      s.file.Pending (s.file.shape.targetBucketTime d.time) ∨
        ∀ e ∈ s.samples, s.file.shape.targetBucketTime e.time ≠ s.file.shape.targetBucketTime d.time
  | .flush _ => True

/-- The conditions under which a call keeps the average. -/
def Careful (s : TrailRun D F) (op : FileOp D F) : Prop :=
  s.SampleInTime op ∧ s.file.SeasonInWindow op ∧ ∀ g ∈ s.file.shiftState op, g.PageKept

instance (s : TrailRun D F) : ∀ op, Decidable (s.SampleInTime op)
  | .update _ _ => inferInstanceAs (Decidable (_ → _ → _))
  | .flush _ => inferInstanceAs (Decidable True)

instance (s : TrailRun D F) (op : FileOp D F) : Decidable (s.Careful op) :=
  inferInstanceAs (Decidable (_ ∧ _ ∧ _))

/-- The invariant of the run, over the ring of the file it started from. -/
structure Inv (d : DiskFile D F) (s : TrailRun D F) : Prop where
  shape : s.file.shape = d.shape
  averages : s.file.Averages (StatFile.ofDisk d).bucketAt s.samples s.written

variable {d : DiskFile D F} {s : TrailRun D F} {op : FileOp D F}

theorem start_inv (d : DiskFile D F) : Inv d (start d) where
  shape := rfl
  averages := ⟨rfl, fun _ hk => absurd hk (lt_irrefl _), ofDisk_pendingBelow d, fun _ => rfl⟩

/-- **One careful call keeps the invariant.** -/
theorem Inv.step (h : Inv d s) (htr : d.shape.isTrailing = true) (hnc : d.shape.isCollated = false)
    (hc : s.Careful op) : Inv d (s.step op) := by
  obtain ⟨hsh, hav⟩ := h
  rw [← hsh] at htr hnc
  refine ⟨(apply_shape op).trans hsh, ?_⟩
  obtain ⟨hin, hsea, hpage⟩ := hc
  cases op with
  | flush now =>
    simp only [TrailRun.step, acceptedBy, writtenBy, shiftState, List.append_nil]
    exact hav.flush htr (hsea _ rfl) (hpage _ rfl)
  | update now e =>
    simp only [TrailRun.step, acceptedBy, writtenBy, StatFile.apply, updateBucket_fst]
    by_cases hacc : s.file.Accepts e
    · by_cases hp : s.file.Pending (s.file.shape.targetBucketTime e.time)
      · have hnone : s.file.shiftState (.update now e) = none := if_neg fun hcon => hcon.2 hp
        simpa [hnone, hacc] using hav.update_of_pending htr hnc hacc hp now
      · have hsome : s.file.shiftState (.update now e) = some (s.file.moved (s.file.target e)
            (s.file.shape.targetBucketTime e.time)) := if_pos ⟨hacc, hp⟩
        simpa [hsome, hacc] using hav.update_of_not_pending htr hnc hacc hp
          (hsea _ hsome) (hpage _ hsome) (fun h0 => (hin hacc h0).resolve_left hp) now
    · have hnone : s.file.shiftState (.update now e) = none := if_neg fun hcon => hacc hcon.1
      simpa [hnone, hacc, updateBucket_of_old now e hacc] using hav

/-- After a quantum was written no more samples of it are accepted. -/
theorem Inv.ofQuantum_step (h : Inv d s) (hc : s.Careful op) {q : ℤ} (hq : q ∈ s.written) :
    d.shape.ofQuantum q (s.step op).samples = d.shape.ofQuantum q s.samples := by
  obtain ⟨hsh, hav⟩ := h
  cases op with
  | flush now => simp [TrailRun.step, acceptedBy]
  | update now e =>
    simp only [TrailRun.step, acceptedBy, updateBucket_fst]
    by_cases hacc : s.file.Accepts e
    · rw [decide_eq_true hacc, if_pos rfl]
      refine ofQuantum_append_of_ne fun he => ?_
      rw [← hsh] at he
      obtain ⟨h0, e', he', heq⟩ := mem_opened.1 (hav.mem_opened_of_mem hq)
      rcases hc.1 hacc (by rw [he]; exact h0) with hp | hnew
      · exact hav.not_pending_of_mem hq (by rwa [he] at hp)
      · exact hnew e' he' (by rw [heq, he])
    · simp [hacc]

variable {ops : List (FileOp D F)}

/-- A careful run keeps the invariant, and only adds to what was written and to the samples of the
quanta that were not. -/
theorem Inv.run (h : Inv d s) (htr : d.shape.isTrailing = true) (hnc : d.shape.isCollated = false)
    (hc : Run.Along TrailRun.step Careful s ops) :
    Inv d (ops.foldl TrailRun.step s) ∧
      (∃ later, (ops.foldl TrailRun.step s).written = s.written ++ later) ∧
      ∀ q ∈ s.written,
        d.shape.ofQuantum q (ops.foldl TrailRun.step s).samples = d.shape.ofQuantum q s.samples := by
  induction ops generalizing s with
  | nil => exact ⟨h, ⟨[], by simp⟩, fun _ _ => rfl⟩
  | cons op ops ih =>
    obtain ⟨hinv, ⟨later, hl⟩, hsamples⟩ := ih (h.step htr hnc hc.1) hc.2
    refine ⟨hinv, ⟨writtenBy s.file op ++ later, ?_⟩, fun q hq => ?_⟩
    · rw [List.foldl_cons, hl, ← List.append_assoc]
      rfl
    · rw [List.foldl_cons, hsamples q (List.mem_append_left _ hq), h.ofQuantum_step hc.1 hq]

/-! ### Flushes do not matter -/

/-- The data of the updates of a run, without its flushes. -/
def sampleData : List (FileOp D F) → List (Bucket D F)
  | [] => []
  | .update _ e :: ops => e :: sampleData ops
  | .flush _ :: ops => sampleData ops

/-- The data a file with the last bucket `last` accepts. -/
def acceptedFrom (sh : Shape D) : ℤ → List (Bucket D F) → List (Bucket D F)
  | _, [] => []
  | last, e :: es =>
    let i := sh.mapTimeToBucketIndex e.time false
    if last - sh.bucketCount < i then e :: acceptedFrom sh (max last i) es
    else acceptedFrom sh (max last i) es

theorem samples_run (s : TrailRun D F) (ops : List (FileOp D F)) :
    (ops.foldl TrailRun.step s).samples =
      s.samples ++ acceptedFrom s.file.shape s.file.header.lastBucket (sampleData ops) := by
  induction ops generalizing s with
  | nil => simp [sampleData, acceptedFrom]
  | cons op ops ih =>
    rw [List.foldl_cons, ih]
    cases op with
    | flush now =>
      simp only [TrailRun.step, acceptedBy, sampleData, List.append_nil, apply_shape]
      rw [show (s.file.apply (.flush now)).header = s.file.header from flush_header now]
    | update now e =>
      simp only [TrailRun.step, acceptedBy, sampleData, apply_shape, acceptedFrom, updateBucket_fst]
      rw [show (s.file.apply (.update now e)).header.lastBucket = _ from
        updateBucket_lastBucket now e]
      unfold Accepts target
      split_ifs with h1 h2 h2 <;> simp_all

/-- Nothing is pending to be written. -/
def Drained (s : TrailRun D F) : Prop := ∀ k, ¬ 0 < (s.file.expBucket k).time

instance (s : TrailRun D F) : Decidable s.Drained :=
  inferInstanceAs (Decidable (∀ k, ¬ 0 < (s.file.expBucket k).time))

/-- The ring of a drained run is determined by its samples. -/
theorem Inv.bucketAt_of_drained (h : Inv d s) (hd : s.Drained) (j : ℤ) :
    s.file.bucketAt j =
      d.shape.replay s.samples (StatFile.ofDisk d).bucketAt (d.shape.opened s.samples) j := by
  obtain ⟨hsh, hav⟩ := h
  have hnil : s.file.pendingQuanta = [] := by
    rw [List.eq_nil_iff_forall_not_mem]
    intro q hq
    obtain ⟨h0, k, hk⟩ := mem_pendingQuanta.1 hq
    exact hd k (by rw [hk]; exact h0)
  have ho := hav.opened
  rw [hnil, List.append_nil] at ho
  rw [hav.ring, ← ho, hsh]

/-- **The average of a trailing file.**  In every run of careful calls on a trailing file that is
not collated, the quanta are written once each; the bucket stored for a quantum is, until its slot
is written again, the blend of the season-ago bucket as it was when the quantum was written with the
merge of all the samples accepted for the quantum in the run; and once everything pending is written
the ring depends on the samples only, not on where the flushes were. -/
theorem trailing_average (d : DiskFile D F) (htr : d.shape.isTrailing = true)
    (hnc : d.shape.isCollated = false) (ops : List (FileOp D F))
    (hc : Run.Along TrailRun.step Careful (start d) ops) :
    let e := ops.foldl TrailRun.step (start d)
    let index := fun t => d.shape.mapTimeToBucketIndex t false
    e.written.Nodup ∧
      (∀ pre op post q, ops = pre ++ op :: post →
        let s := pre.foldl TrailRun.step (start d)
        let s' := s.step op
        s'.written = s.written ++ [q] →
        (∀ r ∈ e.written.drop s'.written.length,
          index q % d.shape.bucketCount ≠ index r % d.shape.bucketCount) →
        e.file.bucketAt (index q) =
          d.shape.blend (s.file.bucketAt (index (q - d.shape.season)))
            (d.shape.mergeAll (d.shape.ofQuantum q e.samples))) ∧
      ∀ ops', sampleData ops' = sampleData ops → Run.Along TrailRun.step Careful (start d) ops' →
        let e' := ops'.foldl TrailRun.step (start d)
        e.Drained → e'.Drained → ∀ i, e'.file.bucketAt i = e.file.bucketAt i := by
  intro e index
  obtain ⟨hinv, -, -⟩ := (start_inv d).run htr hnc hc
  refine ⟨?_, ?_, ?_⟩
  · have hnd : (e.file.shape.opened e.samples).Nodup := opened_nodup
    rw [hinv.averages.opened] at hnd
    exact (List.nodup_append.1 hnd).1
  · intro pre op post q hops s s' hw hlater
    rw [hops, Run.along_append] at hc
    obtain ⟨hpre, hop, hpost⟩ := hc
    obtain ⟨hs, -, -⟩ := (start_inv d).run htr hnc hpre
    have hs' : Inv d s' := hs.step htr hnc hop
    have he : e = post.foldl TrailRun.step s' := by
      show ops.foldl TrailRun.step (start d) = _
      rw [hops, List.foldl_append, List.foldl_cons]
    obtain ⟨-, ⟨later, hl⟩, hfrozen⟩ := hs'.run htr hnc hpost
    rw [← he] at hl hfrozen
    rw [hl, List.drop_left] at hlater
    -- the ring at the end, in terms of the ring before the call
    have hold : s.file.bucketAt =
        d.shape.replay e.samples (StatFile.ofDisk d).bucketAt s.written := by
      funext j
      rw [hs.averages.ring, hs.shape]
      refine congrFun (replay_congr _ fun r hr => ?_).symm j
      rw [hfrozen r (by rw [hw]; exact List.mem_append_left _ hr)]
      exact hs.ofQuantum_step hop hr
    have hend : e.file.bucketAt (index q) = d.shape.replay e.samples
        (d.shape.writeOut e.samples s.file.bucketAt q) later (index q) := by
      rw [hinv.averages.ring, hinv.shape, hl, hw, hold, ← replay_append]
      exact congrFun (List.foldl_append ..) _
    rw [hend, replay_of_ne hlater]
    exact if_pos rfl
  · intro ops' hsame hc' e' hd hd' i
    obtain ⟨hinv', -, -⟩ := (start_inv d).run htr hnc hc'
    have hsamples : e'.samples = e.samples := by
      show (ops'.foldl TrailRun.step (start d)).samples = (ops.foldl TrailRun.step (start d)).samples
      rw [samples_run, samples_run, hsame]
    rw [hinv'.bucketAt_of_drained hd', hinv.bucketAt_of_drained hd, hsamples]

end TrailRun

/-- A sample of the value one. -/
def sampleAt (time : ℤ) : Bucket ℚ ℚ := Bucket.make 1 1 1 1 1 time

/-- Two samples of one quantum with a flush between them are both in the bucket stored. -/
theorem trailing_average_sample :
    let ops := [.update 0 (sampleAt 1013), .flush 0, .update 0 (sampleAt 1017), .flush 0, .flush 0]
    ((ops.foldl TrailRun.step (TrailRun.start sampleTrailingDisk)).file.bucketAt 1).sum_ = 2 := by
  intro ops
  have h := (TrailRun.trailing_average sampleTrailingDisk rfl rfl ops (by decide +kernel)).2.1
    [.update 0 (sampleAt 1013), .flush 0, .update 0 (sampleAt 1017), .flush 0] (.flush 0) [] 1010
    rfl (by decide +kernel) (by decide +kernel)
  exact (congrArg Bucket.sum_ h).trans (by decide +kernel)

/-- The same two samples, with three flushes between them: the second opens a new bucket, which
replaces the one stored for the first.  The bucket is not the merge of both samples, and the file is
not the one it would be without those flushes. -/
theorem trailing_average_late_sample :
    let ops := [.update 0 (sampleAt 1013), .flush 0, .flush 0, .flush 0, .update 0 (sampleAt 1017),
      .flush 0, .flush 0, .flush 0]
    let ops' := [.update 0 (sampleAt 1013), .update 0 (sampleAt 1017), .flush 0, .flush 0, .flush 0]
    let e := ops.foldl TrailRun.step (TrailRun.start sampleTrailingDisk)
    let e' := ops'.foldl TrailRun.step (TrailRun.start sampleTrailingDisk)
    e.samples = [sampleAt 1013, sampleAt 1017] ∧ e'.samples = e.samples ∧ e.Drained ∧ e'.Drained ∧
      e.file.bucketAt 1 ≠ e.file.shape.blend (e.file.bucketAt 0)
        (e.file.shape.mergeAll (e.file.shape.ofQuantum 1010 e.samples)) ∧
      e.file.bucketAt 1 ≠ e'.file.bucketAt 1 := by
  decide +kernel

end Istatd
