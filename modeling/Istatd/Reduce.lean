import Istatd.Bucketizer
import Istatd.Lib.Groups
import Istatd.RangeQuery

/-!
# Reduction to a coarser interval (`StatCounter::reduce`)

The buckets of a gauge are merged into groups of `reducedInterval` seconds from the start of the
range on.  The loop keeps the bucket of the current group, and appends it when a bucket of a later
group comes.  If that is the first bucket of all, it is an empty one that is appended; and the loop
that looks for the later group gives up after ten million rounds.

* `Regrouped`: what the result should be;
* `Running`: the variables of the loop, if there was no such gap;
* `reduce_regroups_iff`: when the result is what it should be.
-/

namespace Istatd

open StatCounter

variable {D F : Type}

/-! ### Groups -/

/-- The number of the group a bucket belongs to. -/
def groupOf (startTime reducedInterval : ℤ) (b : Bucket D F) : ℤ :=
  Grid.cell startTime reducedInterval b.time

/-- The buckets from `startTime + k * reducedInterval` on, up to the next group. -/
def inGroup (startTime reducedInterval k : ℤ) (buckets : List (Bucket D F)) : List (Bucket D F) :=
  buckets.filter fun b => startTime + k * reducedInterval ≤ b.time ∧
    b.time < startTime + (k + 1) * reducedInterval

/-- The buckets of a gauge in a range from `startTime` on. -/
structure ReduceInput (startTime reducedInterval : ℤ) (buckets : List (Bucket D F)) : Prop where
  start_pos : 0 < startTime
  interval_pos : 0 < reducedInterval
  ascending : buckets.Pairwise fun a b => a.time < b.time
  from_start : ∀ b ∈ buckets, startTime ≤ b.time
  counted : ∀ b ∈ buckets, 0 < b.count

/-- The count of all samples. -/
def totalCount (buckets : List (Bucket D F)) : ℤ := (buckets.map Bucket.count).sum

variable {startTime reducedInterval : ℤ} {buckets : List (Bucket D F)}

theorem ReduceInput.left {l l' : List (Bucket D F)}
    (h : ReduceInput startTime reducedInterval (l ++ l')) :
    ReduceInput startTime reducedInterval l where
  start_pos := h.start_pos
  interval_pos := h.interval_pos
  ascending := (List.pairwise_append.1 h.ascending).1
  from_start := (List.forall_mem_append.1 h.from_start).1
  counted := (List.forall_mem_append.1 h.counted).1

theorem inGroup_eq (h : ReduceInput startTime reducedInterval buckets) (k : ℤ) :
    inGroup startTime reducedInterval k buckets =
      buckets.filter (groupOf startTime reducedInterval · = k) := by
  refine List.filter_congr fun b hb => decide_eq_decide.2 ?_
  rw [groupOf, Grid.cell_eq_iff h.interval_pos (h.from_start b hb), add_mul, one_mul, add_assoc]

theorem groupOf_mono {a b : Bucket D F} (hri : 0 < reducedInterval) (h : a.time < b.time) :
    groupOf startTime reducedInterval a ≤ groupOf startTime reducedInterval b :=
  Grid.cell_mono hri h.le

theorem ReduceInput.groupOf_nonneg (h : ReduceInput startTime reducedInterval buckets)
    {b : Bucket D F} (hb : b ∈ buckets) : 0 ≤ groupOf startTime reducedInterval b := by
  have hstart := h.from_start b hb
  rw [groupOf, Grid.le_cell_iff h.interval_pos hstart, zero_mul, add_zero]
  exact hstart

/-- Two buckets one after the other that are not too far apart. -/
def Near (startTime reducedInterval : ℤ) (a b : Bucket D F) : Prop :=
  groupOf startTime reducedInterval b - groupOf startTime reducedInterval a ≤ 10000000

/-- There is no gap before the first bucket, and none that is too long between two buckets. -/
def NoGaps (startTime reducedInterval : ℤ) (buckets : List (Bucket D F)) : Prop :=
  (∀ b ∈ buckets.head?, b.time < startTime + reducedInterval) ∧
    buckets.IsChain (Near startTime reducedInterval)

theorem NoGaps.left {l l' : List (Bucket D F)} (h : NoGaps startTime reducedInterval (l ++ l')) :
    NoGaps startTime reducedInterval l := by
  refine ⟨fun b hb => h.1 b ?_, h.2.left_of_append⟩
  rw [List.head?_append, Option.mem_def.1 hb]
  rfl

/-- The inner loop goes to the group of a time, or gives up on the way. -/
theorem advanceTo_eq (hri : 0 < reducedInterval) {time : ℤ} (ht : startTime ≤ time) (n : ℕ) {k : ℤ}
    (hk : k ≤ Grid.cell startTime reducedInterval time) :
    advanceTo time reducedInterval n (startTime + k * reducedInterval,
        startTime + k * reducedInterval + reducedInterval) =
      let k' := min (Grid.cell startTime reducedInterval time) (k + n)
      (startTime + k' * reducedInterval, startTime + k' * reducedInterval + reducedInterval) := by
  induction n generalizing k with
  | zero => simp [advanceTo, hk]
  | succ n ih =>
    have hnext : startTime + k * reducedInterval + reducedInterval ≤ time ↔
        k + 1 ≤ Grid.cell startTime reducedInterval time := by
      rw [Grid.le_cell_iff hri ht, add_mul, one_mul, add_assoc]
    rw [advanceTo]
    split_ifs with hle
    · have hadd : startTime + k * reducedInterval + reducedInterval =
          startTime + (k + 1) * reducedInterval := by ring
      have hmin : k + 1 + (n : ℤ) = k + ((n + 1 : ℕ) : ℤ) := by push_cast; ring
      rw [hadd, ih (hnext.1 hle), hmin]
    · have hlt := mt hnext.2 hle
      have hmin : min (Grid.cell startTime reducedInterval time) (k + ((n + 1 : ℕ) : ℤ)) = k := by
        omega
      rw [hmin]

variable [FloatArith D F]

/-- The bucket of a group: the buckets merged one after the other, at the time of the group. -/
def groupBucket (startTime reducedInterval : ℤ) (p : ℤ × List (Bucket D F)) : Bucket D F :=
  (mergeAll p.2).withTime (startTime + p.1 * reducedInterval)

/-- The sum of all sums, from the last to the first. -/
def totalSum (buckets : List (Bucket D F)) : D :=
  buckets.foldr (fun b s => FloatArith.add F b.sum_ s) (FloatArith.ofInt F 0)

/-- **An exact regrouping**: in ascending order, one bucket for each group that is not empty, and no
others; the samples are all there, and so is their sum, as far as sums do not depend on the order. -/
structure Regrouped (startTime reducedInterval : ℤ) (buckets result : List (Bucket D F)) : Prop where
  ascending : result.Pairwise fun a b => a.time < b.time
  mem_iff : ∀ b, b ∈ result ↔ ∃ k, inGroup startTime reducedInterval k buckets ≠ [] ∧
    b = groupBucket startTime reducedInterval (k, inGroup startTime reducedInterval k buckets)
  count : totalCount result = totalCount buckets
  sum : (∀ x y z : D, FloatArith.add F (FloatArith.add F x y) z =
    FloatArith.add F x (FloatArith.add F y z)) → totalSum result = totalSum buckets

section Groups

theorem mergeAll_singleton (b : Bucket D F) : mergeAll [b] = b := by
  show (Bucket.zero : Bucket D F).update b = b
  exact Bucket.update_of_count_eq_zero rfl

theorem groupBucket_singleton (k : ℤ) (b : Bucket D F) :
    groupBucket startTime reducedInterval (k, [b]) =
      b.withTime (startTime + k * reducedInterval) := by
  rw [groupBucket, mergeAll_singleton]

/-- A bucket merged into that of a group. -/
theorem groupBucket_update {k : ℤ} {g : List (Bucket D F)} (h : (mergeAll g).count ≠ 0)
    (b : Bucket D F) : (groupBucket startTime reducedInterval (k, g)).update b =
      groupBucket startTime reducedInterval (k, g ++ [b]) := by
  have hcount : (groupBucket startTime reducedInterval (k, g)).count ≠ 0 := h
  unfold Bucket.update
  rw [if_neg hcount, groupBucket, groupBucket, mergeAll_append_singleton, Bucket.update, if_neg h]
  rfl

theorem count_mergeAll {g : List (Bucket D F)} (hg : ∀ b ∈ g, 0 < b.count) :
    (mergeAll g).count = totalCount g := by
  induction g using List.reverseRecOn with
  | nil => rfl
  | append_singleton g b ih =>
    obtain ⟨hg', hb⟩ := List.forall_mem_append.1 hg
    have hsum : totalCount (g ++ [b]) = totalCount g + b.count := by simp [totalCount]
    rw [mergeAll_append_singleton, hsum, ← ih hg']
    unfold Bucket.update
    split_ifs with h0
    · rw [h0, zero_add]
    · rfl

/-- The sum of a group in front of others. -/
theorem add_sum_mergeAll (hassoc : ∀ x y z : D, FloatArith.add F (FloatArith.add F x y) z =
    FloatArith.add F x (FloatArith.add F y z)) {g : List (Bucket D F)} (hne : g ≠ [])
    (hg : ∀ b ∈ g, 0 < b.count) (l : List (Bucket D F)) :
    FloatArith.add F (mergeAll g).sum_ (totalSum l) = totalSum (g ++ l) := by
  induction g using List.reverseRecOn generalizing l with
  | nil => exact absurd rfl hne
  | append_singleton g b ih =>
    obtain ⟨hg', hb⟩ := List.forall_mem_append.1 hg
    by_cases hnil : g = []
    · rw [hnil, List.nil_append, mergeAll_singleton]
      rfl
    · have hpos := (mergeAll_spec hg' hnil).1
      have hsum : (mergeAll (g ++ [b])).sum_ = FloatArith.add F (mergeAll g).sum_ b.sum_ := by
        rw [mergeAll_append_singleton, Bucket.update, if_neg (by omega)]
      rw [hsum, hassoc, List.append_assoc]
      exact ih hnil hg' (b :: l)

/-- All samples of some groups are in their buckets. -/
theorem totalCount_groupBuckets {gs : List (ℤ × List (Bucket D F))}
    (hgs : ∀ b ∈ (gs.map Prod.snd).flatten, 0 < b.count) :
    totalCount (gs.map (groupBucket startTime reducedInterval)) =
      totalCount (gs.map Prod.snd).flatten := by
  induction gs with
  | nil => rfl
  | cons p gs ih =>
    rw [List.map_cons, List.flatten_cons] at hgs
    obtain ⟨hp, hrest⟩ := List.forall_mem_append.1 hgs
    have hmerge : (groupBucket startTime reducedInterval p).count = totalCount p.2 :=
      count_mergeAll hp
    have hrest := ih hrest
    simp only [totalCount, List.map_cons, List.sum_cons, List.flatten_cons, List.map_append,
      List.sum_append] at hrest hmerge ⊢
    rw [hmerge, hrest]

/-- The sum of some groups is that of their buckets. -/
theorem totalSum_groupBuckets (hassoc : ∀ x y z : D, FloatArith.add F (FloatArith.add F x y) z =
    FloatArith.add F x (FloatArith.add F y z)) {gs : List (ℤ × List (Bucket D F))}
    (hne : ∀ p ∈ gs, p.2 ≠ []) (hgs : ∀ b ∈ (gs.map Prod.snd).flatten, 0 < b.count) :
    totalSum (gs.map (groupBucket startTime reducedInterval)) =
      totalSum (gs.map Prod.snd).flatten := by
  induction gs with
  | nil => rfl
  | cons p gs ih =>
    rw [List.map_cons, List.flatten_cons] at hgs
    obtain ⟨hp, hrest⟩ := List.forall_mem_append.1 hgs
    obtain ⟨hpne, hgsne⟩ := List.forall_mem_cons.1 hne
    rw [List.map_cons, List.map_cons, List.flatten_cons, ← add_sum_mergeAll hassoc hpne hp,
      ← ih hgsne hrest]
    rfl

/-- The buckets of the groups of a list are an exact regrouping of it. -/
theorem regrouped_of_groups (h : ReduceInput startTime reducedInterval buckets)
    {gs : List (ℤ × List (Bucket D F))}
    (hgs : Groups (groupOf startTime reducedInterval) buckets gs) :
    Regrouped startTime reducedInterval buckets
      (gs.map (groupBucket startTime reducedInterval)) where
  ascending := by
    refine List.pairwise_map.2 (hgs.ascending.imp fun {p q} hpq => ?_)
    have := mul_lt_mul_of_pos_right hpq h.interval_pos
    simpa [groupBucket] using this
  mem_iff b := by
    rw [List.mem_map]
    constructor
    · rintro ⟨⟨k, g⟩, hg, rfl⟩
      obtain ⟨hne, rfl⟩ := hgs.mem_iff.1 hg
      rw [← inGroup_eq h] at hne ⊢
      exact ⟨k, hne, rfl⟩
    · rintro ⟨k, hne, rfl⟩
      rw [inGroup_eq h] at hne ⊢
      exact ⟨_, hgs.mem_iff.2 ⟨hne, rfl⟩, rfl⟩
  count := by
    have hcounted := h.counted
    rw [← hgs.flatten] at hcounted ⊢
    exact totalCount_groupBuckets hcounted
  sum hassoc := by
    have hcounted := h.counted
    rw [← hgs.flatten] at hcounted ⊢
    exact totalSum_groupBuckets hassoc hgs.nonempty hcounted

end Groups

/-! ### The loop -/

/-- The variables in group `k`. -/
def atGroup (startTime reducedInterval : ℤ) (result : List (Bucket D F)) (reduction : Bucket D F)
    (k : ℤ) : Reduction D F :=
  ⟨result, reduction, startTime + k * reducedInterval,
    startTime + k * reducedInterval + reducedInterval⟩

/-- A bucket of the current group. -/
theorem reduceOne_same (hri : 0 < reducedInterval) {b : Bucket D F} (hb : startTime ≤ b.time)
    (result : List (Bucket D F)) (reduction : Bucket D F) {k : ℤ}
    (hk : groupOf startTime reducedInterval b = k) :
    reduceOne reducedInterval 0 (atGroup startTime reducedInterval result reduction k) b =
      atGroup startTime reducedInterval result
        (if reduction.count = 0 then b.withTime (startTime + k * reducedInterval)
          else reduction.update b) k := by
  have hnext : ¬ startTime + k * reducedInterval + reducedInterval ≤ b.time := by
    have := ((Grid.cell_eq_iff hri hb).1 hk).2
    omega
  unfold reduceOne atGroup
  simp only
  rw [if_neg hnext]
  split_ifs <;> rfl

/-- A bucket of a later group. -/
theorem reduceOne_next (hri : 0 < reducedInterval) {b : Bucket D F} (hb : startTime ≤ b.time)
    (result : List (Bucket D F)) (reduction : Bucket D F) {k : ℤ}
    (hk : k < groupOf startTime reducedInterval b) :
    reduceOne reducedInterval 0 (atGroup startTime reducedInterval result reduction k) b =
      let k' := min (groupOf startTime reducedInterval b) (k + 10000000)
      atGroup startTime reducedInterval (result ++ [reduction])
        (b.withTime (startTime + k' * reducedInterval)) k' := by
  have hnext : startTime + k * reducedInterval + reducedInterval ≤ b.time := by
    have := (Grid.le_cell_iff hri hb).1 (Int.add_one_le_of_lt hk)
    rw [add_mul, one_mul] at this
    omega
  unfold reduceOne atGroup
  simp only
  rw [if_pos hnext, advanceTo_eq hri hb _ hk.le]
  rfl

/-- The variables after some buckets: those of the groups that are complete, and the bucket of the
current one. -/
def Running (startTime reducedInterval : ℤ) (l : List (Bucket D F)) (r : Reduction D F) : Prop :=
  ∃ gs k g, Groups (groupOf startTime reducedInterval) l (gs ++ [(k, g)]) ∧
    r = atGroup startTime reducedInterval (gs.map (groupBucket startTime reducedInterval))
      (groupBucket startTime reducedInterval (k, g)) k

/-- The start of the loop. -/
def reduceStart (startTime reducedInterval : ℤ) : Reduction D F :=
  atGroup startTime reducedInterval [] Bucket.zero 0

section Run

variable {l : List (Bucket D F)} {b : Bucket D F} {r : Reduction D F}

/-- The first bucket, if there is no gap before it. -/
theorem running_first (h : ReduceInput startTime reducedInterval [b])
    (hb : b.time < startTime + reducedInterval) :
    Running startTime reducedInterval [b]
      (reduceOne reducedInterval 0 (reduceStart startTime reducedInterval) b) := by
  have hstart : startTime ≤ b.time := h.from_start b List.mem_cons_self
  have hgroup : groupOf startTime reducedInterval b = 0 := by
    rw [groupOf, Grid.cell_eq_iff h.interval_pos hstart]
    omega
  refine ⟨[], 0, [b], ?_, ?_⟩
  · have hnil : Groups (groupOf startTime reducedInterval) ([] : List (Bucket D F)) [] := Groups.nil
    have hfirst := hnil.concat_new (a := b) nofun
    rwa [hgroup] at hfirst
  · rw [reduceStart, reduceOne_same h.interval_pos hstart _ _ hgroup,
      if_pos (Bucket.zero_count (D := D)), groupBucket_singleton]
    rfl

/-- One more bucket. -/
theorem Running.step (hrun : Running startTime reducedInterval l r)
    (h : ReduceInput startTime reducedInterval (l ++ [b]))
    (hnear : ∀ a ∈ l.getLast?, Near startTime reducedInterval a b) :
    Running startTime reducedInterval (l ++ [b]) (reduceOne reducedInterval 0 r b) := by
  obtain ⟨gs, k, g, hgs, rfl⟩ := hrun
  have hstart : startTime ≤ b.time := h.from_start b (by simp)
  obtain ⟨a, ha, rfl⟩ := hgs.exists_last
  have hab : a.time < b.time :=
    (List.pairwise_append.1 h.ascending).2.2 a (List.mem_of_getLast? ha) b List.mem_cons_self
  have hle : groupOf startTime reducedInterval a ≤ groupOf startTime reducedInterval b :=
    groupOf_mono h.interval_pos hab
  rcases hle.eq_or_lt with hk | hk
  · have hmem : (groupOf startTime reducedInterval a, g) ∈
        gs ++ [(groupOf startTime reducedInterval a, g)] := by simp
    have hne : g ≠ [] := hgs.nonempty _ hmem
    have hg : ∀ c ∈ g, 0 < c.count := fun c hc => h.counted c <| by
      rw [← hgs.filter_eq hmem] at hc
      exact List.mem_append_left _ (List.mem_of_mem_filter hc)
    have hcount : (mergeAll g).count ≠ 0 := by
      have := (mergeAll_spec hg hne).1
      omega
    refine ⟨gs, _, g ++ [b], hgs.concat_same hk.symm, ?_⟩
    rw [reduceOne_same h.interval_pos hstart _ _ hk.symm, groupBucket_update hcount]
    exact congrArg (atGroup _ _ _ · _) (if_neg hcount)
  · have hfar := hnear a ha
    have hmin : min (groupOf startTime reducedInterval b)
        (groupOf startTime reducedInterval a + 10000000) = groupOf startTime reducedInterval b := by
      unfold Near at hfar
      omega
    refine ⟨gs ++ [(groupOf startTime reducedInterval a, g)], groupOf startTime reducedInterval b,
      [b], hgs.concat_new fun p hp => (hgs.index_le_last hp).trans_lt hk, ?_⟩
    rw [reduceOne_next h.interval_pos hstart _ _ hk]
    simp only [hmin]
    rw [List.map_append, List.map_singleton, groupBucket_singleton]

theorem running_of_noGaps (h : ReduceInput startTime reducedInterval l)
    (hgaps : NoGaps startTime reducedInterval l) (hne : l ≠ []) :
    Running startTime reducedInterval l
      (l.foldl (reduceOne reducedInterval 0) (reduceStart startTime reducedInterval)) := by
  induction l using List.reverseRecOn with
  | nil => exact absurd rfl hne
  | append_singleton l b ih =>
    rw [List.foldl_concat]
    by_cases hnil : l = []
    · subst hnil
      exact running_first h (hgaps.1 b rfl)
    · refine (ih h.left hgaps.left hnil).step h fun a ha => ?_
      exact (List.isChain_append.1 hgaps.2).2.2 a ha b rfl

/-- What `reduce` returns after its loop. -/
def reduced (r : Reduction D F) : List (Bucket D F) :=
  if 0 < r.reduction.time then r.result ++ [r.reduction] else r.result

theorem reduce_eq (buckets : List (Bucket D F)) :
    reduce buckets startTime reducedInterval 0 = reduced (buckets.foldl (reduceOne reducedInterval 0)
      (reduceStart startTime reducedInterval)) := by
  unfold reduce reduceStart atGroup
  rw [zero_mul, add_zero]
  rfl

/-! ### Gaps -/

/-- What has been appended is returned. -/
theorem mem_reduced_of_mem_result {c : Bucket D F} (hc : c ∈ r.result) (l : List (Bucket D F)) :
    c ∈ reduced (l.foldl (reduceOne reducedInterval 0) r) := by
  induction l generalizing r with
  | nil =>
    rw [List.foldl_nil, reduced]
    by_cases htime : 0 < r.reduction.time
    · rw [if_pos htime]
      exact List.mem_append_left _ hc
    · rw [if_neg htime]
      exact hc
  | cons b l ih =>
    refine ih ?_
    unfold reduceOne
    simp only
    split_ifs
    · exact List.mem_append_left _ hc
    · exact List.mem_append_left _ hc
    · exact hc
    · exact hc

/-- The current bucket is returned at its time. -/
theorem exists_mem_reduced (htime : 0 < r.reduction.time) (hcount : 0 < r.reduction.count)
    (hl : ∀ b ∈ l, 0 < b.count) :
    ∃ c ∈ reduced (l.foldl (reduceOne reducedInterval 0) r), c.time = r.reduction.time := by
  induction l generalizing r with
  | nil =>
    refine ⟨r.reduction, ?_, rfl⟩
    rw [List.foldl_nil, reduced, if_pos htime]
    simp
  | cons b l ih =>
    obtain ⟨hb, hl⟩ := List.forall_mem_cons.1 hl
    rw [List.foldl_cons]
    by_cases hnext : r.nextTime ≤ b.time
    · refine ⟨r.reduction, mem_reduced_of_mem_result ?_ l, rfl⟩
      unfold reduceOne
      simp only [hnext, if_true]
      split_ifs
      · simp [appendReduced]
      · simp [appendReduced]
    · have hstep : reduceOne reducedInterval 0 r b =
          { r with reduction := r.reduction.update b } := by
        unfold reduceOne
        simp only [hnext, if_false]
        rw [if_neg hcount.ne']
      have hupdate : (r.reduction.update b).time = r.reduction.time ∧
          0 < (r.reduction.update b).count := by
        rw [Bucket.update, if_neg hcount.ne']
        exact ⟨rfl, by simp only; omega⟩
      rw [hstep]
      obtain ⟨c, hc, hct⟩ := ih (r := { r with reduction := r.reduction.update b })
        (by simp only; omega) hupdate.2 hl
      exact ⟨c, hc, hct.trans hupdate.1⟩

theorem Regrouped.exists_group {result : List (Bucket D F)} {c : Bucket D F}
    (h : ReduceInput startTime reducedInterval buckets)
    (hre : Regrouped startTime reducedInterval buckets result) (hc : c ∈ result) :
    ∃ k, c.time = startTime + k * reducedInterval ∧
      ∃ b ∈ buckets, groupOf startTime reducedInterval b = k := by
  obtain ⟨k, hne, rfl⟩ := (hre.mem_iff c).1 hc
  rw [inGroup_eq h] at hne
  obtain ⟨b, hb⟩ := List.exists_mem_of_ne_nil _ hne
  obtain ⟨hb, hk⟩ := List.mem_filter.1 hb
  exact ⟨k, rfl, b, hb, of_decide_eq_true hk⟩

/-- A gap before the first bucket: an empty bucket is appended. -/
theorem not_regrouped_of_first {l : List (Bucket D F)}
    (h : ReduceInput startTime reducedInterval (b :: l))
    (hb : startTime + reducedInterval ≤ b.time) :
    ¬ Regrouped startTime reducedInterval (b :: l)
      (reduce (b :: l) startTime reducedInterval 0) := by
  intro hre
  have hstart : startTime ≤ b.time := h.from_start b List.mem_cons_self
  have hlater : 0 < groupOf startTime reducedInterval b :=
    (Grid.le_cell_iff h.interval_pos hstart).2 (by omega)
  have hzero : Bucket.zero ∈ reduce (b :: l) startTime reducedInterval 0 := by
    rw [reduce_eq, List.foldl_cons, reduceStart, reduceOne_next h.interval_pos hstart _ _ hlater]
    exact mem_reduced_of_mem_result (List.mem_singleton.2 rfl) l
  obtain ⟨k, htime, c, hc, rfl⟩ := hre.exists_group h hzero
  -- no group has the time 0
  have hmul := mul_nonneg (h.groupOf_nonneg hc) h.interval_pos.le
  have hpos := h.start_pos
  rw [Bucket.zero_time] at htime
  omega

/-- A gap that is too long: a bucket is put into a group that should be empty. -/
theorem near_of_regrouped {a : Bucket D F} {l l' : List (Bucket D F)}
    (h : ReduceInput startTime reducedInterval (l ++ b :: l'))
    (hrun : Running startTime reducedInterval l
      (l.foldl (reduceOne reducedInterval 0) (reduceStart startTime reducedInterval)))
    (ha : a ∈ l.getLast?)
    (hre : Regrouped startTime reducedInterval (l ++ b :: l')
      (reduce (l ++ b :: l') startTime reducedInterval 0)) :
    Near startTime reducedInterval a b := by
  by_contra hfar
  unfold Near at hfar
  obtain ⟨gs, k, g, hgs, hr⟩ := hrun
  obtain ⟨a', ha', rfl⟩ := hgs.exists_last
  obtain rfl : a' = a := Option.some.inj (ha'.symm.trans ha)
  obtain ⟨-, hpairs, hcross⟩ := List.pairwise_append.1 h.ascending
  have hstart : startTime ≤ b.time := h.from_start b (by simp)
  have hlt : groupOf startTime reducedInterval a' < groupOf startTime reducedInterval b := by omega
  have hmin : min (groupOf startTime reducedInterval b)
      (groupOf startTime reducedInterval a' + 10000000) =
        groupOf startTime reducedInterval a' + 10000000 := by omega
  -- the bucket is returned at the time of the group where the loop gave up
  obtain ⟨c, hc, htime⟩ : ∃ c ∈ reduce (l ++ b :: l') startTime reducedInterval 0,
      c.time = startTime + (groupOf startTime reducedInterval a' + 10000000) * reducedInterval := by
    rw [reduce_eq, List.foldl_append, List.foldl_cons, hr,
      reduceOne_next h.interval_pos hstart _ _ hlt, hmin]
    refine exists_mem_reduced (l := l') ?_ ?_ ?_
    · have hnonneg := h.groupOf_nonneg (List.mem_append_left _ (List.mem_of_getLast? ha))
      have hmul := mul_nonneg (add_nonneg hnonneg (by decide : (0 : ℤ) ≤ 10000000)) h.interval_pos.le
      exact add_pos_of_pos_of_nonneg h.start_pos hmul
    · exact h.counted b (by simp)
    · exact fun c hc => h.counted c (by simp [hc])
  obtain ⟨k, hk, d, hd, rfl⟩ := hre.exists_group h hc
  have hgroup : groupOf startTime reducedInterval d =
      groupOf startTime reducedInterval a' + 10000000 := by
    rw [hk, add_right_inj] at htime
    exact mul_right_cancel₀ h.interval_pos.ne' htime
  -- but that group lies between those of two buckets that are next to each other
  rcases List.mem_append.1 hd with hd | hd
  · have := hgs.le_last hd
    omega
  · rcases List.mem_cons.1 hd with rfl | hd
    · omega
    · have hle : groupOf startTime reducedInterval b ≤ groupOf startTime reducedInterval d :=
        groupOf_mono h.interval_pos ((List.pairwise_cons.1 hpairs).1 d hd)
      omega

theorem noGaps_of_regrouped {l l' : List (Bucket D F)}
    (h : ReduceInput startTime reducedInterval (l ++ l'))
    (hre : Regrouped startTime reducedInterval (l ++ l')
      (reduce (l ++ l') startTime reducedInterval 0)) :
    NoGaps startTime reducedInterval l := by
  induction l using List.reverseRecOn generalizing l' with
  | nil => exact ⟨nofun, .nil⟩
  | append_singleton l b ih =>
    rw [List.append_assoc, List.singleton_append] at h hre
    have hl := ih h hre
    by_cases hnil : l = []
    · subst hnil
      refine ⟨fun c hc => ?_, List.isChain_singleton _⟩
      obtain rfl : b = c := Option.some.inj hc
      by_contra hlate
      exact not_regrouped_of_first h (not_lt.1 hlate) hre
    · have hrun := running_of_noGaps h.left hl hnil
      refine ⟨fun c hc => hl.1 c ?_, List.isChain_append.2 ⟨hl.2, List.isChain_singleton _, ?_⟩⟩
      · rwa [List.head?_append_of_ne_nil _ hnil] at hc
      · intro a ha c hc
        obtain rfl : b = c := Option.some.inj hc
        exact near_of_regrouped h hrun ha hre

end Run

/-- Buckets of one sample each. -/
def samplesAt (times : List ℤ) : List (Bucket ℚ ℚ) := times.map (Bucket.make 3 9 3 3 1)

theorem reduceInput_samplesAt {times : List ℤ} (hstart : 0 < startTime) (hri : 0 < reducedInterval)
    (hasc : times.Pairwise (· < ·)) (hfrom : ∀ t ∈ times, startTime ≤ t) :
    ReduceInput startTime reducedInterval (samplesAt times) where
  start_pos := hstart
  interval_pos := hri
  ascending := List.pairwise_map.2 hasc
  from_start b hb := by
    obtain ⟨t, ht, rfl⟩ := List.mem_map.1 hb
    exact hfrom t ht
  counted b hb := by
    obtain ⟨t, -, rfl⟩ := List.mem_map.1 hb
    exact Int.one_pos

end Istatd
