import Istatd.Bucketizer
import Istatd.Lib.Run

/-!
# The window of a `Bucketizer`

A `Bucketizer` takes samples from thirty seconds before its time to ten seconds after it.  The index
of the bucket is computed from the time in 64 bits and then kept in an `int`, so a sample whose time
is about a multiple of `10 * 2 ^ 32` seconds away gets the index of a bucket as well.

* `windowed_iff`: what one update does is right unless its time has such a distance;
* `bucketizer_window_iff`: the same for a run of updates, with what the buckets hold after it.
-/

namespace Istatd.Bucketizer

variable {D F : Type} [FloatArith D F]

/-- The ten seconds of the time are among those from thirty seconds before `now` to ten after. -/
def InWindow (now time : ℤ) : Prop :=
  now - 30 ≤ Grid.cellStart 10 time ∧ Grid.cellStart 10 time ≤ now + 10

instance (now time : ℤ) : Decidable (InWindow now time) := inferInstanceAs (Decidable (_ ∧ _))

/-- The index of the bucket for a time, as it should be. -/
def windowIndex (now time : ℤ) : ℤ := (Grid.cellStart 10 time - now) / 10 + 3

/-- The time is not in the window, but so far away that its index is one of a bucket modulo
`2 ^ 32`. -/
def Aliased (now time : ℤ) : Prop :=
  ∃ k : ℤ, k ≠ 0 ∧ 2 ^ 32 * k ≤ windowIndex now time ∧ windowIndex now time ≤ 2 ^ 32 * k + 4

/-- What an update should do: in the window the sample is merged into the bucket of its ten seconds;
elsewhere there is a message, and no bucket changes. -/
def Windowed (bz : Bucketizer D F) (o : Bucket D F) : Prop :=
  if InWindow bz.now o.time then
    (bz.update o).updateErrMsg = none ∧
      (bz.update o).buckets = bz.buckets.modify (windowIndex bz.now o.time).toNat (·.update o)
  else (bz.update o).updateErrMsg ≠ none ∧ (bz.update o).buckets = bz.buckets

/-- The samples of the ten seconds of a bucket. -/
def samplesOf (now : ℤ) (os : List (Bucket D F)) (i : ℕ) : List (Bucket D F) :=
  os.filter fun o => Grid.cellStart 10 o.time = now + 10 * (i - 3)

section Step

variable {bz : Bucketizer D F} {o : Bucket D F} {now time : ℤ}

theorem cellStart_eq (hnow : 10 ∣ now) (time : ℤ) :
    Grid.cellStart 10 time = now + 10 * (windowIndex now time - 3) := by
  obtain ⟨a, ha⟩ := Grid.cellStart_dvd 10 time
  obtain ⟨n, rfl⟩ := hnow
  unfold windowIndex
  omega

theorem inWindow_iff (hnow : 10 ∣ now) :
    InWindow now time ↔ 0 ≤ windowIndex now time ∧ windowIndex now time ≤ 4 := by
  have hcell := cellStart_eq hnow time
  unfold InWindow
  omega

omit [FloatArith D F] in
theorem offset_eq_toInt32 (hnow : 10 ∣ bz.now) (time : ℤ) :
    bz.offset time = toInt32 (windowIndex bz.now time) := by
  obtain ⟨a, ha⟩ := Grid.cellStart_dvd 10 time
  obtain ⟨n, hn⟩ := hnow
  have hdiv : (10 * a - 10 * n).tdiv 10 = (10 * a - 10 * n) / 10 := by
    rw [← mul_sub, Int.mul_tdiv_cancel_left _ (by decide), Int.mul_ediv_cancel_left _ (by decide)]
  unfold offset windowIndex bucketizerCount
  rw [ha, hn, hdiv]
  rfl

theorem toInt32_mem_iff (x : ℤ) :
    0 ≤ toInt32 x ∧ toInt32 x ≤ 4 ↔ ∃ k : ℤ, 2 ^ 32 * k ≤ x ∧ x ≤ 2 ^ 32 * k + 4 := by
  unfold toInt32
  rw [Int.bmod_def]
  constructor
  · intro h
    refine ⟨x / 2 ^ 32, ?_⟩
    split_ifs at h <;> omega
  · rintro ⟨k, hlo, hhi⟩
    split_ifs <;> omega

/-- The samples that are accepted. -/
theorem updateErrMsg_eq_none_iff_inWindow_or (hnow : 10 ∣ bz.now) :
    (bz.update o).updateErrMsg = none ↔ InWindow bz.now o.time ∨ Aliased bz.now o.time := by
  rw [updateErrMsg_eq_none_iff, offset_eq_toInt32 hnow, toInt32_mem_iff, inWindow_iff hnow, Aliased]
  constructor
  · rintro ⟨k, hk⟩
    by_cases hk0 : k = 0
    · rw [hk0] at hk
      exact Or.inl (by omega)
    · exact Or.inr ⟨k, hk0, hk⟩
  · rintro (h | ⟨k, -, hk⟩)
    · exact ⟨0, by omega⟩
    · exact ⟨k, hk⟩

theorem Aliased.not_inWindow (hnow : 10 ∣ now) (h : Aliased now time) : ¬ InWindow now time := by
  obtain ⟨k, hk, hlo, hhi⟩ := h
  rw [inWindow_iff hnow]
  omega

theorem buckets_of_updateErrMsg_ne_none (h : (bz.update o).updateErrMsg ≠ none) :
    (bz.update o).buckets = bz.buckets := by
  unfold update at h ⊢
  simp only at h ⊢
  split_ifs at h ⊢
  · rfl
  · exact absurd rfl h

/-- **One update** does what it should, unless its time is aliased. -/
theorem windowed_iff (hnow : 10 ∣ bz.now) : Windowed bz o ↔ ¬ Aliased bz.now o.time := by
  have haccepted := updateErrMsg_eq_none_iff_inWindow_or (o := o) hnow
  unfold Windowed
  by_cases hin : InWindow bz.now o.time
  · have hmsg := haccepted.2 (Or.inl hin)
    have hindex : bz.offset o.time = windowIndex bz.now o.time := by
      obtain ⟨hlo, hhi⟩ := (inWindow_iff hnow).1 hin
      rw [offset_eq_toInt32 hnow, toInt32, Int.bmod_eq_of_le] <;> omega
    rw [if_pos hin]
    refine iff_of_true ⟨hmsg, ?_⟩ fun h => h.not_inWindow hnow hin
    rw [update_eq hmsg, hindex]
  · rw [if_neg hin]
    constructor
    · rintro ⟨hmsg, -⟩ h
      exact hmsg (haccepted.2 (Or.inr h))
    · intro h
      have hmsg : (bz.update o).updateErrMsg ≠ none := fun hnone =>
        (haccepted.1 hnone).elim hin h
      exact ⟨hmsg, buckets_of_updateErrMsg_ne_none hmsg⟩

end Step

/-! ### Runs of updates -/

section Runs

variable {now : ℤ} {os : List (Bucket D F)}

theorem now_foldl (bz : Bucketizer D F) (os : List (Bucket D F)) :
    (os.foldl update bz).now = bz.now := by
  induction os generalizing bz with
  | nil => rfl
  | cons o os ih => rw [List.foldl_cons, ih, update_now]

theorem along_windowed_iff {bz : Bucketizer D F} (hnow : 10 ∣ bz.now) :
    Run.Along update Windowed bz os ↔ ∀ o ∈ os, ¬ Aliased bz.now o.time := by
  induction os generalizing bz with
  | nil => simp
  | cons o os ih =>
    rw [Run.along_cons, List.forall_mem_cons, windowed_iff hnow, ih (by rwa [update_now]),
      update_now]

omit [FloatArith D F] in
theorem samplesOf_concat (o : Bucket D F) (i : ℕ) :
    samplesOf now (os ++ [o]) i = samplesOf now os i ++
      if Grid.cellStart 10 o.time = now + 10 * (i - 3) then [o] else [] := by
  unfold samplesOf
  rw [List.filter_append]
  split_ifs with h <;> simp [h]

/-- An update that does what it should leaves each bucket with the samples of its ten seconds. -/
theorem Windowed.buckets {bz : Bucketizer D F} {o : Bucket D F} (hnow : 10 ∣ bz.now)
    (h : Windowed bz o)
    (hbz : bz.buckets = (List.range bucketizerCount).map fun i => mergeAll (samplesOf bz.now os i)) :
    (bz.update o).buckets =
      (List.range bucketizerCount).map fun i => mergeAll (samplesOf bz.now (os ++ [o]) i) := by
  have hcell := cellStart_eq hnow o.time
  unfold Windowed at h
  by_cases hin : InWindow bz.now o.time
  · rw [if_pos hin] at h
    obtain ⟨hlo, hhi⟩ := (inWindow_iff hnow).1 hin
    rw [h.2, hbz]
    refine List.ext_getElem? fun j => ?_
    rw [List.getElem?_modify, List.getElem?_map, List.getElem?_map]
    by_cases hj : j < bucketizerCount
    · rw [List.getElem?_range hj, Option.map_some, Option.map_some, samplesOf_concat]
      by_cases hindex : (windowIndex bz.now o.time).toNat = j
      · rw [if_pos (by omega), mergeAll_append_singleton]
        simp [hindex]
      · rw [if_neg (by omega), List.append_nil]
        simp [hindex]
    · rw [List.getElem?_eq_none (by simpa using hj)]
      rfl
  · rw [if_neg hin] at h
    rw [h.2, hbz]
    refine List.map_congr_left fun i hi => ?_
    have hi5 : i < 5 := List.mem_range.1 hi
    have hne : Grid.cellStart 10 o.time ≠ bz.now + 10 * (i - 3) := by
      rw [inWindow_iff hnow] at hin
      omega
    rw [samplesOf_concat, if_neg hne, List.append_nil]

theorem now_new (time : ℤ) : (new time : Bucketizer D F).now = Grid.cellStart 10 time := rfl

/-- **The window of a `Bucketizer`**: in a run of updates every one does what it should, and the
buckets then hold the samples of their ten seconds only, if and only if no time is aliased. -/
theorem bucketizer_window_iff (time : ℤ) (os : List (Bucket D F)) :
    Run.Along update Windowed (new time) os ∧
        (∀ pre, pre <+: os → (pre.foldl update (new time)).buckets =
          (List.range bucketizerCount).map fun i =>
            mergeAll (samplesOf (Grid.cellStart 10 time) pre i)) ↔
      ∀ o ∈ os, ¬ Aliased (Grid.cellStart 10 time) o.time := by
  have hnow : 10 ∣ (new time : Bucketizer D F).now := Grid.cellStart_dvd 10 time
  rw [along_windowed_iff hnow, now_new]
  refine and_iff_left_of_imp fun h pre hpre => ?_
  have hok : ∀ o ∈ pre, ¬ Aliased (Grid.cellStart 10 time) o.time :=
    fun o ho => h o (hpre.subset ho)
  clear h hpre
  induction pre using List.reverseRecOn with
  | nil => rfl
  | append_singleton pre o ih =>
    obtain ⟨hpre, ho⟩ := List.forall_mem_append.1 hok
    have hrun : (pre.foldl update (new time)).now = Grid.cellStart 10 time := now_foldl (new time) pre
    rw [List.foldl_append]
    have hstep : Windowed (pre.foldl update (new time)) o := by
      rw [windowed_iff (by rwa [hrun]), hrun]
      exact ho o (List.mem_singleton_self o)
    have hcells := ih hpre
    rw [← hrun] at hcells ⊢
    exact hstep.buckets (by rwa [hrun]) hcells

/-- A sample about 1360 years away is merged into the bucket of the present. -/
theorem bucketizer_window_aliased :
    ¬ ∀ (time : ℤ) (os : List (Bucket ℚ ℚ)), 0 ≤ time → (∀ o ∈ os, 0 ≤ o.time ∧ o.time < 2 ^ 63) →
      Run.Along update Windowed (new time) os := by
  intro h
  have hfar := (h 1000 [Bucket.blank 1 (1000 + 10 * 2 ^ 32)] (by decide) (by decide)).1
  unfold Windowed at hfar
  rw [if_neg (by decide)] at hfar
  exact hfar.1 (by decide +kernel)

end Runs

end Istatd.Bucketizer
