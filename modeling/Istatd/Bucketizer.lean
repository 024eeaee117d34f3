import Mathlib.Algebra.Tropical.Basic
import Istatd.Lib.Grid
import Istatd.Header

/-!
# Bucketizers

An agent collects the samples of a counter in a `Bucketizer`: five buckets of ten seconds each, the
fourth for the time at which the `Bucketizer` was made.  A sample goes to the bucket of its time, and
one that is too far away is refused with a message.

* `Bucketizer.update`, and `update_eq` for a sample that is accepted;
* `Bucketizer.Holds`: each bucket is a group of samples merged, all of its ten seconds;
* `stats`: all of a bucket but its time, which adds up when buckets are merged in exact arithmetic
  (`ℚ`), and `collect` for a fold of buckets.
-/

namespace Istatd

open FloatArith

section Model

variable {D F : Type} [FloatArith D F]

/-- `Bucket::min`. -/
def Bucket.min (b : Bucket D F) : F := stabilizeFloat D b.min_

/-- `Bucket::max`. -/
def Bucket.max (b : Bucket D F) : F := stabilizeFloat D b.max_

/-- The numbers in the message of `Bucketizer::update`. -/
structure BadTime where
  time : ℤ
  now : ℤ
  offset : ℤ
  delta : ℤ
  deriving DecidableEq

/-- `Bucketizer`.  An empty message is `none`. -/
structure Bucketizer (D F : Type) where
  now : ℤ
  buckets : List (Bucket D F)
  updateErrMsg : Option BadTime

/-- `BUCKET_COUNT`. -/
def bucketizerCount : ℕ := 5

namespace Bucketizer

/-- `Bucketizer(time)`. -/
def new (time : ℤ) : Bucketizer D F :=
  ⟨Grid.cellStart 10 time, List.replicate bucketizerCount Bucket.zero, none⟩

/-- The index of the bucket for a time, an `int`. -/
def offset (bz : Bucketizer D F) (time : ℤ) : ℤ :=
  toInt32 ((Grid.cellStart 10 time - bz.now).tdiv 10 + (bucketizerCount - 2))

/-- `Bucketizer::update`. -/
def update (bz : Bucketizer D F) (o : Bucket D F) : Bucketizer D F :=
  let time := Grid.cellStart 10 o.time
  let offset := bz.offset o.time
  if offset < 0 ∨ bucketizerCount - 1 < offset then
    { bz with updateErrMsg := some ⟨time, bz.now, offset, time - bz.now⟩ }
  else { bz with buckets := bz.buckets.modify offset.toNat (·.update o), updateErrMsg := none }

/-- The index of the bucket for a time is not out of the range of `int`. -/
def Fits (bz : Bucketizer D F) (time : ℤ) : Prop :=
  |Grid.cellStart 10 time - bz.now| < 10 * (2 ^ 31 - 4)

instance (bz : Bucketizer D F) (time : ℤ) : Decidable (bz.Fits time) :=
  inferInstanceAs (Decidable (_ < _))

variable {bz : Bucketizer D F} {o : Bucket D F}

omit [FloatArith D F] in
theorem offset_eq (hbz : 10 ∣ bz.now) {time : ℤ} (h : bz.Fits time) :
    Grid.cellStart 10 time = bz.now + 10 * (bz.offset time - 3) := by
  obtain ⟨a, ha⟩ := Grid.cellStart_dvd 10 time
  obtain ⟨n, hn⟩ := hbz
  unfold Fits at h
  have hdiv : (10 * a - 10 * n).tdiv 10 = a - n := by
    rw [← mul_sub, Int.mul_tdiv_cancel_left _ (by decide)]
  have hrange : |10 * (a - n)| < 10 * (2 ^ 31 - 4) := by
    rw [ha, hn] at h
    rwa [mul_sub]
  rw [abs_lt] at hrange
  have hoffset : bz.offset time = a - n + 3 := by
    unfold offset toInt32 bucketizerCount
    rw [ha, hn, hdiv, Int.bmod_eq_of_le]
    all_goals omega
  rw [hoffset, ha, hn]
  ring

theorem updateErrMsg_eq_none_iff :
    (bz.update o).updateErrMsg = none ↔ 0 ≤ bz.offset o.time ∧ bz.offset o.time ≤ 4 := by
  unfold update bucketizerCount
  simp only
  split_ifs with h
  · simp only [false_iff]
    omega
  · simp only [true_iff]
    omega

/-- What an accepted sample does. -/
theorem update_eq (h : (bz.update o).updateErrMsg = none) :
    bz.update o = ⟨bz.now, bz.buckets.modify (bz.offset o.time).toNat (·.update o), none⟩ := by
  have hrange := updateErrMsg_eq_none_iff.1 h
  have hnot : ¬(bz.offset o.time < 0 ∨ (bucketizerCount : ℤ) - 1 < bz.offset o.time) := by
    unfold bucketizerCount
    omega
  simp only [update, if_neg hnot]

@[simp] theorem update_now : (bz.update o).now = bz.now := by
  unfold update
  simp only
  split_ifs <;> rfl

end Bucketizer

/-! ### Groups of samples -/

/-- Buckets merged one after the other. -/
def mergeAll (g : List (Bucket D F)) : Bucket D F := g.foldl Bucket.update Bucket.zero

/-- Samples that count something, all of the ten seconds from `q` on. -/
def OfCell (q : ℤ) (g : List (Bucket D F)) : Prop :=
  ∀ b ∈ g, 1 ≤ b.count ∧ Grid.cellStart 10 b.time = q

theorem mergeAll_append_singleton (g : List (Bucket D F)) (b : Bucket D F) :
    mergeAll (g ++ [b]) = (mergeAll g).update b := List.foldl_append

/-- The bucket of a group has the time of its first sample. -/
theorem mergeAll_spec {g : List (Bucket D F)} (hg : ∀ b ∈ g, 1 ≤ b.count) (hne : g ≠ []) :
    1 ≤ (mergeAll g).count ∧ ∃ b ∈ g, (mergeAll g).time = b.time := by
  induction g using List.reverseRecOn with
  | nil => exact absurd rfl hne
  | append_singleton g b ih =>
    have hb : 1 ≤ b.count := hg b (by simp)
    rw [mergeAll_append_singleton]
    by_cases hnil : g = []
    · subst hnil
      have hfirst : (mergeAll []).update b = b := Bucket.update_of_count_eq_zero rfl
      rw [hfirst]
      exact ⟨hb, b, by simp, rfl⟩
    · obtain ⟨hcount, c, hc, htime⟩ := ih (fun c hc => hg c (by simp [hc])) hnil
      rw [Bucket.update, if_neg (by omega)]
      exact ⟨by simp only; omega, c, by simp [hc], htime⟩

theorem mergeAll_count_pos_iff {g : List (Bucket D F)} (hg : ∀ b ∈ g, 1 ≤ b.count) :
    0 < (mergeAll g).count ↔ g ≠ [] := by
  constructor
  · rintro h rfl
    exact lt_irrefl 0 h
  · intro h
    have := (mergeAll_spec hg h).1
    omega

namespace Bucketizer

/-- The groups of samples in the five buckets. -/
structure Holds (bz : Bucketizer D F) (gs : List (List (Bucket D F))) : Prop where
  length : gs.length = bucketizerCount
  now : 10 ∣ bz.now
  buckets : bz.buckets = gs.map mergeAll
  group : ∀ (i : ℕ) g, gs[i]? = some g → OfCell (bz.now + 10 * (i - 3)) g

variable {bz : Bucketizer D F} {o : Bucket D F} {gs : List (List (Bucket D F))}

theorem holds_new (time : ℤ) :
    (new time : Bucketizer D F).Holds (List.replicate bucketizerCount []) where
  length := List.length_replicate
  now := Grid.cellStart_dvd 10 time
  buckets := rfl
  group i g h := by
    obtain rfl := List.eq_of_mem_replicate (List.mem_of_getElem? h)
    exact nofun

/-- An accepted sample joins the group of its ten seconds, and no other. -/
theorem Holds.update (hbz : bz.Holds gs) (hcount : 1 ≤ o.count) (hfits : bz.Fits o.time)
    (h : (bz.update o).updateErrMsg = none) :
    ∃ i < gs.length, (bz.update o).Holds (gs.modify i (· ++ [o])) := by
  have hrange := updateErrMsg_eq_none_iff.1 h
  have hcell := offset_eq hbz.now hfits
  refine ⟨(bz.offset o.time).toNat, by rw [hbz.length, bucketizerCount]; omega, ?_⟩
  rw [update_eq h]
  refine ⟨by rw [List.length_modify, hbz.length], hbz.now, ?_, fun i g hg => ?_⟩
  · simp only [hbz.buckets]
    refine List.ext_getElem? fun j => ?_
    rw [List.getElem?_modify, List.getElem?_map, List.getElem?_map, List.getElem?_modify]
    cases gs[j]? with
    | none => rfl
    | some g =>
      simp only [Option.map_some, Option.map_eq_map, Option.some.injEq]
      split_ifs
      · exact (mergeAll_append_singleton g o).symm
      · rfl
  · rw [List.getElem?_modify] at hg
    obtain ⟨g', hg', rfl⟩ := Option.map_eq_some_iff.1 hg
    have hold := hbz.group i g' hg'
    split_ifs with hi
    · refine List.forall_mem_append.2 ⟨hold, List.forall_mem_singleton.2 ⟨hcount, ?_⟩⟩
      rw [hcell, ← hi]
      simp only
      omega
    · exact hold

end Bucketizer

end Model

/-! ### The statistics of a bucket -/

/-- Sum, sum of squares and count add up, and of the minima and maxima one is kept. -/
abbrev Stats := ℚ × ℚ × ℤ × Tropical (WithTop ℚ) × Tropical (WithTop ℚᵒᵈ)

/-- The statistics of a bucket. -/
def stats (b : Bucket ℚ ℚ) : Stats :=
  (b.sum_, b.sumSq_, b.count, Tropical.trop (b.min_ : WithTop ℚ),
    Tropical.trop ((OrderDual.toDual b.max_ : ℚᵒᵈ) : WithTop ℚᵒᵈ))

theorem stats_update {b o : Bucket ℚ ℚ} (hb : 1 ≤ b.count) :
    stats (b.update o) = stats b + stats o := by
  have hmin : FloatArith.minF ℚ b.min_ o.min_ = min b.min_ o.min_ := by
    show (if o.min_ < b.min_ then o.min_ else b.min_) = _
    split_ifs with h
    · exact (min_eq_right h.le).symm
    · exact (min_eq_left (not_lt.1 h)).symm
  have hmax : FloatArith.maxF ℚ b.max_ o.max_ = max b.max_ o.max_ := by
    show (if b.max_ < o.max_ then o.max_ else b.max_) = _
    split_ifs with h
    · exact (max_eq_right h.le).symm
    · exact (max_eq_left (not_lt.1 h)).symm
  rw [Bucket.update, if_neg (by omega)]
  unfold stats
  simp only [hmin, hmax]
  refine Prod.ext rfl (Prod.ext rfl (Prod.ext rfl (Prod.ext ?_ ?_)))
  · show Tropical.trop ((min b.min_ o.min_ : ℚ) : WithTop ℚ) = _
    rw [WithTop.coe_min, Tropical.trop_min]
    rfl
  · show Tropical.trop ((OrderDual.toDual (max b.max_ o.max_) : ℚᵒᵈ) : WithTop ℚᵒᵈ) = _
    rw [toDual_max, WithTop.coe_min, Tropical.trop_min]
    rfl

theorem stats_injective {b o : Bucket ℚ ℚ} (htime : b.time = o.time) (h : stats b = stats o) :
    b = o := by
  unfold stats at h
  simp only [Prod.mk.injEq, Tropical.trop_inj_iff, WithTop.coe_inj, OrderDual.toDual_inj] at h
  obtain ⟨hsum, hsumSq, hcount, hmin, hmax⟩ := h
  cases b
  cases o
  simp only at htime hsum hsumSq hcount hmin hmax
  subst htime hsum hsumSq hcount hmin hmax
  rfl

/-- A group of samples has the statistics of its samples together. -/
theorem stats_mergeAll {g : List (Bucket ℚ ℚ)} (hg : ∀ b ∈ g, 1 ≤ b.count) (hne : g ≠ []) :
    stats (mergeAll g) = (g.map stats).sum := by
  induction g using List.reverseRecOn with
  | nil => exact absurd rfl hne
  | append_singleton g b ih =>
    have hg' : ∀ c ∈ g, 1 ≤ c.count := fun c hc => hg c (by simp [hc])
    rw [mergeAll_append_singleton, List.map_append, List.sum_append, List.map_singleton,
      List.sum_singleton]
    by_cases hnil : g = []
    · subst hnil
      have hfirst : (mergeAll []).update b = b := Bucket.update_of_count_eq_zero rfl
      rw [hfirst, List.map_nil, List.sum_nil, zero_add]
    · rw [stats_update (mergeAll_spec hg' hnil).1, ih hg' hnil]

/-- Buckets merged one after the other into one of the time `q`. -/
def collect (q : ℤ) (l : List (Bucket ℚ ℚ)) : Bucket ℚ ℚ := mergeAll (l.map (·.withTime q))

/-- What is collected has the statistics of all buckets together. -/
theorem collect_spec (q : ℤ) {l : List (Bucket ℚ ℚ)} (hl : ∀ b ∈ l, 1 ≤ b.count) (hne : l ≠ []) :
    (collect q l).time = q ∧ 1 ≤ (collect q l).count ∧ stats (collect q l) = (l.map stats).sum := by
  have hl' : ∀ b ∈ l.map (·.withTime q), 1 ≤ b.count := by
    intro b hb
    obtain ⟨c, hc, rfl⟩ := List.mem_map.1 hb
    exact hl c hc
  have hne' : l.map (·.withTime q) ≠ [] := by simpa using hne
  obtain ⟨hcount, b, hb, htime⟩ := mergeAll_spec hl' hne'
  obtain ⟨c, -, rfl⟩ := List.mem_map.1 hb
  refine ⟨htime, hcount, ?_⟩
  rw [collect, stats_mergeAll hl' hne', List.map_map]
  rfl

/-- Two collections with the same statistics. -/
theorem collect_congr (q : ℤ) {l l' : List (Bucket ℚ ℚ)} (hl : ∀ b ∈ l, 1 ≤ b.count)
    (hl' : ∀ b ∈ l', 1 ≤ b.count) (h : (l.map stats).sum = (l'.map stats).sum) :
    collect q l = collect q l' := by
  have hzero : ∀ l : List (Bucket ℚ ℚ), (∀ b ∈ l, 1 ≤ b.count) → (l.map stats).sum = 0 → l = [] :=
    fun l hl hsum => by
      by_contra hne
      obtain ⟨-, hcount, hstats⟩ := collect_spec q hl hne
      have hcomp : (stats (collect q l)).2.2.1 = 0 := by rw [hstats, hsum]; rfl
      change (collect q l).count = 0 at hcomp
      omega
  by_cases hne : l = []
  · subst hne
    rw [hzero l' hl' h.symm]
  · by_cases hne' : l' = []
    · subst hne'
      exact absurd (hzero l hl h) hne
    · obtain ⟨ht, -, hs⟩ := collect_spec q hl hne
      obtain ⟨ht', -, hs'⟩ := collect_spec q hl' hne'
      exact stats_injective (ht.trans ht'.symm) (by rw [hs, hs', h])

end Istatd
