import Istatd.Header
import Mathlib.Algebra.Order.Chebyshev

/-!
# The statistics of a bucket (`Bucket::update`, `Bucket::avg`, `Bucket::sdev`)

Samples are put into buckets of one sample each, and buckets are merged: in an agent, in a fine
file, in a coarse one, and when a range is reduced.  In exact arithmetic only the samples matter, and
not the order of the merges.

* `MergeTree`: the merges of some samples;
* `MergeTree.summary_bucket`: the bucket sums the samples up;
* `MergeTree.bucket_statistics`: the fields of the bucket, and what is known of `avg` and `sdev`.
-/

namespace Istatd

namespace Bucket

section Functions

variable {D F : Type} [FloatArith D F]

open FloatArith

/-- `Bucket::update`, with the count as an `int32_t`. -/
def updateInt32 (b o : Bucket D F) : Bucket D F :=
  (b.update o).setCount (toInt32 (b.update o).count)

/-- `Bucket::avg`. -/
def avg (b : Bucket D F) : D :=
  widen (stabilizeFloat D (narrow
    (if 0 < b.count then div F b.sum_ (ofInt F b.count) else ofInt F 0) : F))

/-- `diff` in `Bucket::sdev`, before it is compared with 0. -/
def diff (b : Bucket D F) : D :=
  sub F (mul F (ofInt F b.count) (widen b.sumSq_)) (mul F b.sum_ b.sum_)

/-- `Bucket::sdev`; the root is a parameter. -/
def sdev (sqrt : D → D) (b : Bucket D F) : F :=
  if b.count < 2 then narrow (ofInt F 0 : D)
  else
    let diff := if lt F b.diff (ofInt F 0) then ofInt F 0 else b.diff
    stabilizeFloat D (narrow (sqrt
      (div F diff (mul F (ofInt F b.count) (sub F (ofInt F b.count) (ofInt F 1))))))

end Functions

end Bucket

/-- The merges of some samples: a sample with its time, or one bucket that is merged into another. -/
inductive MergeTree
  | sample (v : ℚ) (time : ℤ)
  | merge (left right : MergeTree)

namespace MergeTree

/-- The samples. -/
def samples : MergeTree → List ℚ
  | sample v _ => [v]
  | merge left right => left.samples ++ right.samples

/-- The bucket that they are merged into. -/
def bucket : MergeTree → Bucket ℚ ℚ
  | sample v time => .make v (v * v) v v 1 time
  | merge left right => left.bucket.updateInt32 right.bucket

theorem samples_ne_nil (t : MergeTree) : t.samples ≠ [] := by
  induction t with
  | sample v time => simp [samples]
  | merge left right ihl _ => simp [samples, ihl]

/-- A bucket sums some samples up. -/
structure Summary (l : List ℚ) (b : Bucket ℚ ℚ) : Prop where
  count : b.count = l.length
  sum : b.sum_ = l.sum
  sumSq : b.sumSq_ = (l.map fun v => v * v).sum
  min : IsLeast {v | v ∈ l} b.min_
  max : IsGreatest {v | v ∈ l} b.max_

theorem isLeast_append {l l' : List ℚ} {m m' : ℚ} (h : IsLeast {v | v ∈ l} m)
    (h' : IsLeast {v | v ∈ l'} m') :
    IsLeast {v | v ∈ l ++ l'} (if m' < m then m' else m) := by
  have hset : {v | v ∈ l ++ l'} = {v | v ∈ l'} ∪ {v | v ∈ l} := by
    ext v
    simp [or_comm]
  rw [hset, ← min_def_lt]
  exact h'.union h

theorem isGreatest_append {l l' : List ℚ} {m m' : ℚ} (h : IsGreatest {v | v ∈ l} m)
    (h' : IsGreatest {v | v ∈ l'} m') :
    IsGreatest {v | v ∈ l ++ l'} (if m < m' then m' else m) := by
  have hset : {v | v ∈ l ++ l'} = {v | v ∈ l} ∪ {v | v ∈ l'} := by
    ext v
    simp
  rw [hset, ← max_def_lt]
  exact h.union h'

/-- **One merge.** -/
theorem Summary.updateInt32 {l l' : List ℚ} {b b' : Bucket ℚ ℚ} (h : Summary l b)
    (h' : Summary l' b') (hne : l ≠ []) (hlen : (l ++ l').length < 2 ^ 31) :
    Summary (l ++ l') (b.updateInt32 b') := by
  have hpos := List.length_pos_of_ne_nil hne
  rw [List.length_append] at hlen
  have hcount : b.count ≠ 0 := by
    rw [h.count]
    omega
  have hupdate : b.update b' = { b with
      sum_ := b.sum_ + b'.sum_
      sumSq_ := b.sumSq_ + b'.sumSq_
      min_ := if b'.min_ < b.min_ then b'.min_ else b.min_
      max_ := if b.max_ < b'.max_ then b'.max_ else b.max_
      count := b.count + b'.count } := if_neg hcount
  unfold Bucket.updateInt32
  rw [hupdate]
  refine ⟨?_, ?_, ?_, isLeast_append h.min h'.min, isGreatest_append h.max h'.max⟩
  · change toInt32 (b.count + b'.count) = _
    rw [h.count, h'.count, List.length_append, Nat.cast_add]
    exact Int.bmod_eq_of_le (by omega) (by omega)
  · change b.sum_ + b'.sum_ = _
    rw [h.sum, h'.sum, List.sum_append]
  · change b.sumSq_ + b'.sumSq_ = _
    rw [h.sumSq, h'.sumSq, List.map_append, List.sum_append]

/-- **The bucket of a tree** sums its samples up. -/
theorem summary_bucket {t : MergeTree} (h : t.samples.length < 2 ^ 31) :
    Summary t.samples t.bucket := by
  induction t with
  | sample v time =>
    have hmem : v ∈ [v] := List.mem_singleton_self v
    refine ⟨rfl, (List.sum_singleton).symm, (List.sum_singleton).symm, ⟨hmem, ?_⟩, ⟨hmem, ?_⟩⟩
    · exact fun w hw => (List.mem_singleton.1 hw).ge
    · exact fun w hw => (List.mem_singleton.1 hw).le
  | merge left right ihl ihr =>
    rw [samples, List.length_append] at h
    exact (ihl (by omega)).updateInt32 (ihr (by omega)) left.samples_ne_nil
      (by rw [List.length_append]; exact h)

/-! ### What follows from the samples -/

namespace Summary

variable {l l' : List ℚ} {b b' : Bucket ℚ ℚ}

theorem min_mul_le (h : Summary l b) : b.min_ * b.count ≤ b.sum_ := by
  have hle := List.card_nsmul_le_sum l b.min_ fun v hv => h.min.2 hv
  rw [h.sum, h.count, mul_comm]
  simpa using hle

theorem le_max_mul (h : Summary l b) : b.sum_ ≤ b.max_ * b.count := by
  have hle := List.sum_le_card_nsmul l b.max_ fun v hv => h.max.2 hv
  rw [h.sum, h.count, mul_comm]
  simpa using hle

/-- **The variance is not negative**: the inequality of Cauchy and Schwarz. -/
theorem diff_nonneg (h : Summary l b) : 0 ≤ b.diff := by
  have hcauchy := sq_sum_le_card_mul_sum_sq (s := Finset.univ) (f := fun i : Fin l.length => l[i])
  have hsum : ∑ i : Fin l.length, l[i] = l.sum := Fin.sum_univ_getElem l
  have hsq : ∑ i : Fin l.length, l[i] ^ 2 = (l.map fun v => v * v).sum := by
    simp only [pow_two]
    exact Fin.sum_univ_fun_getElem l fun v => v * v
  rw [hsum, hsq, Finset.card_univ, Fintype.card_fin, ← h.sum, ← h.sumSq, pow_two] at hcauchy
  change 0 ≤ (b.count : ℚ) * b.sumSq_ - b.sum_ * b.sum_
  rw [h.count]
  simpa using hcauchy

/-- The summary depends on the samples only, and not on their order. -/
theorem eq_of_perm (h : Summary l b) (h' : Summary l' b') (hperm : l.Perm l') :
    b.withTime b'.time = b' := by
  have hset : {v | v ∈ l} = {v | v ∈ l'} := Set.ext fun _ => hperm.mem_iff
  have hmin : b.min_ = b'.min_ := h.min.unique (hset ▸ h'.min)
  have hmax : b.max_ = b'.max_ := h.max.unique (hset ▸ h'.max)
  have hsum : b.sum_ = b'.sum_ := by rw [h.sum, h'.sum, hperm.sum_eq]
  have hsumSq : b.sumSq_ = b'.sumSq_ := by rw [h.sumSq, h'.sumSq, (hperm.map _).sum_eq]
  have hcount : b.count = b'.count := by rw [h.count, h'.count, hperm.length_eq]
  cases b
  cases b'
  simp_all [Bucket.withTime]

/-- The mean is between the least sample and the greatest one. -/
theorem avg_bounds (h : Summary l b) (hne : l ≠ []) : b.min_ ≤ b.avg ∧ b.avg ≤ b.max_ := by
  have hcount : 0 < b.count := by
    rw [h.count]
    exact_mod_cast List.length_pos_of_ne_nil hne
  have hpos : (0 : ℚ) < b.count := by exact_mod_cast hcount
  have havg : b.avg = b.sum_ / b.count := by
    unfold Bucket.avg
    rw [if_pos hcount]
    rfl
  rw [havg]
  exact ⟨(le_div_iff₀ hpos).2 h.min_mul_le, (div_le_iff₀ hpos).2 h.le_max_mul⟩

/-- The comparison with 0 in `sdev` changes nothing. -/
theorem sdev_eq (h : Summary l b) (sqrt : ℚ → ℚ) :
    b.sdev sqrt = if b.count < 2 then 0 else sqrt (b.diff / (b.count * (b.count - 1))) := by
  have hclamp : (if FloatArith.lt ℚ b.diff (FloatArith.ofInt ℚ 0) then FloatArith.ofInt ℚ 0
      else b.diff) = b.diff :=
    if_neg (by simpa [FloatArith.lt, FloatArith.ofInt] using h.diff_nonneg)
  unfold Bucket.sdev
  rw [hclamp]
  split_ifs <;> rfl

end Summary

/-- **The statistics of a bucket** are those of its samples, however they were merged; the mean is
between the extremes, and the variance is not negative before it is compared with 0. -/
theorem bucket_statistics {t : MergeTree} (ht : t.samples.length < 2 ^ 31) :
    (t.bucket.count = t.samples.length ∧ t.bucket.sum_ = t.samples.sum ∧
      t.bucket.sumSq_ = (t.samples.map fun v => v * v).sum ∧
      IsLeast {v | v ∈ t.samples} t.bucket.min_ ∧ IsGreatest {v | v ∈ t.samples} t.bucket.max_) ∧
    (∀ t' : MergeTree, t.samples.Perm t'.samples →
      t.bucket.withTime t'.bucket.time = t'.bucket) ∧
    (t.bucket.min_ * t.bucket.count ≤ t.bucket.sum_ ∧
      t.bucket.sum_ ≤ t.bucket.max_ * t.bucket.count ∧
      t.bucket.min_ ≤ t.bucket.avg ∧ t.bucket.avg ≤ t.bucket.max_) ∧
    0 ≤ t.bucket.count * t.bucket.sumSq_ - t.bucket.sum_ * t.bucket.sum_ ∧
      ∀ sqrt : ℚ → ℚ, t.bucket.sdev sqrt = if t.bucket.count < 2 then 0
        else sqrt ((t.bucket.count * t.bucket.sumSq_ - t.bucket.sum_ * t.bucket.sum_) /
          (t.bucket.count * (t.bucket.count - 1))) := by
  have h := summary_bucket ht
  refine ⟨⟨h.count, h.sum, h.sumSq, h.min, h.max⟩, fun t' hperm => ?_,
    ⟨h.min_mul_le, h.le_max_mul, h.avg_bounds t.samples_ne_nil⟩, h.diff_nonneg, h.sdev_eq⟩
  exact h.eq_of_perm (summary_bucket (hperm.length_eq ▸ ht)) hperm

/-- Three samples. -/
theorem bucket_statistics_sample :
    (merge (sample 1 60) (merge (sample 4 61) (sample 2 62))).samples.length < 2 ^ 31 ∧
      (merge (sample 1 60) (merge (sample 4 61) (sample 2 62))).bucket.count = 3 ∧
      (merge (sample 1 60) (merge (sample 4 61) (sample 2 62))).bucket.sum_ = 7 := by
  have hlen : (merge (sample 1 60) (merge (sample 4 61) (sample 2 62))).samples.length < 2 ^ 31 := by
    decide
  obtain ⟨⟨hcount, hsum, -⟩, -⟩ := bucket_statistics hlen
  refine ⟨hlen, hcount.trans rfl, hsum.trans ?_⟩
  norm_num [samples]

end MergeTree

end Istatd
