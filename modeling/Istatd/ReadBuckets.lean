import Istatd.RingFile

/-!
# Reading a range of buckets

`readBuckets` copies page by page and goes around the end of the ring.  From an index that is in the
file it reads the buckets of the logical indices that follow, one lap at most
(`readBuckets_of_inFile`).  How many buckets a range of times asks for is `numBucketsBetween`, which
rounds both ends down to the grid and never returns zero (`numBucketsBetween_of_lt`).
-/

namespace Istatd

namespace Shape

variable {D : Type} (sh : Shape D)

/-- A slot and the rest of its page are inside the file. -/
theorem add_lt_bucketCount {fi k : ℤ} (h1 : fi < sh.bucketCount)
    (hk : fi % sh.bucketsPerPage + k < sh.bucketsPerPage) : fi + k < sh.bucketCount := by
  have hb := sh.bucketsPerPage_pos
  have hq : fi / sh.bucketsPerPage + 1 ≤ sh.pageCount :=
    Int.add_one_le_of_lt (Int.ediv_lt_of_lt_mul hb (by unfold bucketCount at h1; linarith))
  have hmul := mul_le_mul_of_nonneg_right hq hb.le
  have hdiv := Int.mul_ediv_add_emod fi sh.bucketsPerPage
  unfold bucketCount
  linarith

end Shape

namespace StatFile

variable {D F : Type} (f : StatFile D F)

/-- A page read from the place of a slot on holds the slots that follow. -/
theorem view_eq_slot {fi : ℤ} {k : ℕ}
    (hk : fi % f.shape.bucketsPerPage + k < f.shape.bucketsPerPage) :
    f.cache.view (fi / f.shape.bucketsPerPage + 1) (fi % f.shape.bucketsPerPage + k) =
      f.slot (fi + k) := by
  have hb := f.shape.bucketsPerPage_pos
  have h0 := Int.emod_nonneg fi hb.ne'
  have hfi : fi + k = fi % f.shape.bucketsPerPage + k +
      f.shape.bucketsPerPage * (fi / f.shape.bucketsPerPage) := by
    have := Int.mul_ediv_add_emod fi f.shape.bucketsPerPage
    linarith
  unfold slot
  rw [hfi, Int.add_mul_ediv_left _ _ hb.ne', Int.add_mul_emod_self_left,
    Int.ediv_eq_zero_of_lt (by omega) hk, Int.emod_eq_of_lt (by omega) hk, zero_add]

/-- **The loop of `readBuckets`** reads the slots from its start on, around the end of the ring. -/
theorem readLoop_eq {first : ℤ} (hfirst : 0 ≤ first) {n : ℕ} {cnt ret : ℤ} (hret : 0 ≤ ret)
    (hn : cnt ≤ n) :
    f.readLoop first n cnt ret =
      (List.range cnt.toNat).map fun k : ℕ => f.slot ((first + ret + k) % f.shape.bucketCount) := by
  have hb := f.shape.bucketsPerPage_pos
  induction n generalizing cnt ret with
  | zero =>
    rw [Int.toNat_of_nonpos (by omega)]
    rfl
  | succ n ih =>
    unfold readLoop
    by_cases hc : 0 < cnt
    · obtain ⟨hfi0, hfi1⟩ := f.emod_bucketCount_mem (first + ret)
      have hoff := Int.emod_nonneg ((first + ret) % f.shape.bucketCount) hb.ne'
      have hoff' := Int.emod_lt_of_pos ((first + ret) % f.shape.bucketCount) hb
      have hoffeq : (first + ret) % f.shape.bucketCount -
          (first + ret) % f.shape.bucketCount / f.shape.bucketsPerPage * f.shape.bucketsPerPage =
          (first + ret) % f.shape.bucketCount % f.shape.bucketsPerPage := by
        have := Int.mul_ediv_add_emod ((first + ret) % f.shape.bucketCount) f.shape.bucketsPerPage
        linarith
      rw [if_pos hc]
      simp only
      rw [Int.tmod_eq_emod_of_nonneg (by omega), Int.tdiv_eq_ediv_of_nonneg hfi0, hoffeq]
      generalize hntr : min (f.shape.bucketsPerPage -
        (first + ret) % f.shape.bucketCount % f.shape.bucketsPerPage) cnt = ntr
      have hntr0 : 0 < ntr := by omega
      rw [ih (by omega) (by push_cast at hn; omega),
        show cnt.toNat = ntr.toNat + (cnt - ntr).toNat by omega, List.range_add, List.map_append,
        List.map_map]
      congr 1
      · -- the chunk does not leave its page
        refine List.map_congr_left fun k hk => ?_
        have hk' : (k : ℤ) < ntr := by
          rw [List.mem_range] at hk
          omega
        have hroom : (first + ret) % f.shape.bucketCount % f.shape.bucketsPerPage + k <
            f.shape.bucketsPerPage := by omega
        rw [f.view_eq_slot hroom]
        congr 1
        rw [← Int.emod_add_emod (first + ret)]
        exact (Int.emod_eq_of_lt (by omega) (f.shape.add_lt_bucketCount hfi1 hroom)).symm
      · refine List.map_congr_left fun k _ => ?_
        show _ = f.slot ((first + ret + ((ntr.toNat + k : ℕ) : ℤ)) % f.shape.bucketCount)
        congr 2
        push_cast
        rw [Int.toNat_of_nonneg hntr0.le]
        ring
    · rw [if_neg hc, Int.toNat_of_nonpos (by omega)]
      rfl

/-- **A read from an index in the file.** -/
theorem readBuckets_of_inFile {now i cnt : ℤ} (h : f.isBucketIndexInFile now i = true) :
    f.readBuckets now cnt i =
      (RingIndex.consecutive i (min cnt f.shape.bucketCount).toNat).map f.bucketAt := by
  have h0 := (f.emod_bucketCount_mem i).1
  unfold readBuckets
  rw [mapBucketIndexToFileIndex_of_inFile h]
  simp only
  rw [if_neg (by omega), f.readLoop_eq h0 le_rfl (Int.self_le_toNat _), RingIndex.consecutive,
    List.map_map]
  refine List.map_congr_left fun k _ => ?_
  show _ = f.slot ((i + k) % f.shape.bucketCount)
  rw [add_zero, Int.emod_add_emod]

/-! ### The number of buckets of a range -/

variable {f} {s e : ℤ}

theorem numBucketsBetween_eq (s e : ℤ) :
    f.numBucketsBetween s e false =
      if Grid.cellStart f.shape.cfgInterval e - Grid.cellStart f.shape.cfgInterval s ≠ 0 then
        (Grid.cellStart f.shape.cfgInterval e - Grid.cellStart f.shape.cfgInterval s).tdiv
          f.shape.cfgInterval
      else 1 := by
  unfold numBucketsBetween Grid.cellStart
  simp

/-- Between different quanta: the steps from the start of the first to the start of the last. -/
theorem numBucketsBetween_of_lt
    (h : Grid.cellStart f.shape.cfgInterval s < Grid.cellStart f.shape.cfgInterval e) :
    0 < f.numBucketsBetween s e false ∧
      Grid.cellStart f.shape.cfgInterval s + f.numBucketsBetween s e false * f.shape.cfgInterval =
        Grid.cellStart f.shape.cfgInterval e := by
  have hpos := f.shape.cfgInterval_pos
  obtain ⟨k, hk⟩ := dvd_sub (Grid.cellStart_dvd f.shape.cfgInterval e)
    (Grid.cellStart_dvd f.shape.cfgInterval s)
  have hk0 : 0 < k := by
    by_contra hcon
    have := mul_nonpos_of_nonneg_of_nonpos hpos.le (not_lt.1 hcon)
    omega
  rw [numBucketsBetween_eq, if_pos (by omega), hk, Int.mul_tdiv_cancel_left _ hpos.ne']
  exact ⟨hk0, by linarith⟩

theorem numBucketsBetween_of_eq
    (h : Grid.cellStart f.shape.cfgInterval s = Grid.cellStart f.shape.cfgInterval e) :
    f.numBucketsBetween s e false = 1 := by
  rw [numBucketsBetween_eq, if_neg (by omega)]

/-- There is always at least one bucket. -/
theorem numBucketsBetween_pos (f : StatFile D F) (h0 : 0 ≤ s) (h : s ≤ e) :
    0 < f.numBucketsBetween s e false := by
  have hmono : Grid.cellStart f.shape.cfgInterval s ≤ Grid.cellStart f.shape.cfgInterval e :=
    Grid.le_cellStart f.shape.cfgInterval_pos (Grid.cellStart_dvd _ s)
      ((Grid.cellStart_le h0).trans h)
  rcases hmono.lt_or_eq with hlt | heq
  · exact (numBucketsBetween_of_lt hlt).1
  · rw [numBucketsBetween_of_eq heq]
    exact one_pos

end StatFile

end Istatd
