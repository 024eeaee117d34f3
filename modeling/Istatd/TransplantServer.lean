import Istatd.HeadTime
import Istatd.TransplantOffer

/-!
# The server of the transplant tool (`apply_and_extract_other_empty_buckets`)

The server goes through the times of an offer in steps of one interval.  At each step it applies the
offered buckets that are before the end of the step; if there is none, it reads the bucket of the
file for the time of the step and sends it back if it is not empty.  The times of the steps are
`uint64_t`, those of the buckets and of the file `time_t`.

* `applyBuckets`, `ServerLoop.round`, `ServerLoop.loop`, `applyAndExtract`;
* `StatFile.Reachable`: the files that calls can lead to;
* `ReadsPastHead`: the offers for which the step one interval behind the head is made, and nothing
  is applied there;
* `applyAndExtract_reads_iff`: the loop ends, and reads inside the file except for those.

The loop records the file index of every read; the program has no such record.
-/

namespace Istatd

/-- The conversion to `uint64_t`. -/
def toUInt64 (t : ℤ) : UInt64 := UInt64.ofInt t

/-- The conversion of a `uint64_t` to `time_t`. -/
def toTimeT (t : UInt64) : ℤ := if t.toNat < 2 ^ 63 then t.toNat else t.toNat - 2 ^ 64

/-- The values of `time_t`. -/
def InTimeT (t : ℤ) : Prop := -2 ^ 63 ≤ t ∧ t < 2 ^ 63

instance (t : ℤ) : Decidable (InTimeT t) := inferInstanceAs (Decidable (_ ∧ _))

section Conversions

variable {a b : ℤ}

theorem toNat_toUInt64 (h0 : 0 ≤ a) (h1 : a < 2 ^ 64) : ((toUInt64 a).toNat : ℤ) = a := by
  rw [toUInt64, UInt64.ofInt, UInt64.toNat_ofNat']
  omega

theorem toUInt64_toNat (t : UInt64) : toUInt64 t.toNat = t := by
  apply UInt64.toNat.inj
  have hlt := t.toNat_lt
  have hcast := toNat_toUInt64 (a := t.toNat) (by omega) (by exact_mod_cast hlt)
  exact_mod_cast hcast

theorem toUInt64_lt_iff (ha0 : 0 ≤ a) (ha1 : a < 2 ^ 64) (hb0 : 0 ≤ b) (hb1 : b < 2 ^ 64) :
    toUInt64 a < toUInt64 b ↔ a < b := by
  have ha := toNat_toUInt64 ha0 ha1
  have hb := toNat_toUInt64 hb0 hb1
  rw [UInt64.lt_iff_toNat_lt]
  omega

theorem toUInt64_le_iff (ha0 : 0 ≤ a) (ha1 : a < 2 ^ 64) (hb0 : 0 ≤ b) (hb1 : b < 2 ^ 64) :
    toUInt64 a ≤ toUInt64 b ↔ a ≤ b := by
  have ha := toNat_toUInt64 ha0 ha1
  have hb := toNat_toUInt64 hb0 hb1
  rw [UInt64.le_iff_toNat_le]
  omega

/-- A negative time is a large number. -/
theorem toUInt64_time_lt_iff (ha : InTimeT a) (hb0 : 0 ≤ b) (hb1 : b ≤ 2 ^ 63) :
    toUInt64 a < toUInt64 b ↔ 0 ≤ a ∧ a < b := by
  obtain ⟨ha0, ha1⟩ := ha
  by_cases h : 0 ≤ a
  · rw [toUInt64_lt_iff h (by omega) hb0 (by omega)]
    omega
  · have hb := toNat_toUInt64 hb0 (by omega)
    rw [UInt64.lt_iff_toNat_lt, toUInt64, UInt64.ofInt, UInt64.toNat_ofNat']
    omega

theorem toTimeT_toUInt64 (h0 : 0 ≤ a) (h1 : a < 2 ^ 63) : toTimeT (toUInt64 a) = a := by
  have ha := toNat_toUInt64 h0 (by omega)
  rw [toTimeT, if_pos (by omega), ha]

end Conversions

variable {D F : Type} [FloatArith D F]

/-- The inner loop: the buckets before `mintime` are applied, up to the first that is not.  The
result is whether there was one, the file, and the buckets that are left. -/
def applyBuckets (now : ℤ) (mintime : UInt64) :
    StatFile D F → List (Bucket D F) → Bool × StatFile D F × List (Bucket D F)
  | f, [] => (false, f, [])
  | f, b :: rest =>
    if toUInt64 b.time < mintime then
      (true, (applyBuckets now mintime (f.rawUpdateBucket now b .onlyIfEmpty).2 rest).2)
    else (false, f, b :: rest)

/-- The loop of `apply_and_extract_other_empty_buckets`, between two rounds. -/
structure ServerLoop (D F : Type) where
  mintime : UInt64
  file : StatFile D F
  rest : List (Bucket D F)
  output : List (Bucket D F)
  reads : List ℤ

namespace ServerLoop

/-- One round, with the clock as it is then. -/
def round (now : ℤ) (intervalTime : UInt64) (s : ServerLoop D F) : ServerLoop D F :=
  let mintime := s.mintime + intervalTime
  let applied := applyBuckets now mintime s.file s.rest
  let file := applied.2.1
  if applied.1 then { s with mintime := mintime, file := file, rest := applied.2.2 }
  else
    let index := file.shape.mapTimeToBucketIndex (toTimeT (mintime - intervalTime)) false
    let w := file.writableBucket now index
    let b := w.2.deref w.1
    { mintime := mintime
      file := w.2
      rest := applied.2.2
      output := if b.count ≠ 0 then s.output ++ [b] else s.output
      reads := s.reads ++ [file.mapBucketIndexToFileIndex now index] }

/-- The outer loop, for fewer than `fuel` rounds; `now k` is the clock in round `k`. -/
def loop (intervalTime maxtime : UInt64) : ℕ → (ℕ → ℤ) → ServerLoop D F → Option (ServerLoop D F)
  | 0, _, _ => none
  | fuel + 1, now, s =>
    if s.mintime ≤ maxtime then
      loop intervalTime maxtime fuel (fun k => now (k + 1)) (s.round (now 0) intervalTime)
    else some s

end ServerLoop

/-- `apply_and_extract_other_empty_buckets`. -/
def applyAndExtract (fuel : ℕ) (now : ℕ → ℤ) (input : ProtoOffer (Bucket D F))
    (file : StatFile D F) : Option (ServerLoop D F) :=
  let mintime := toUInt64 file.firstBucketTime
  let intervalTime := toUInt64 file.shape.cfgInterval
  let maxtime := toUInt64 file.firstBucketTime + toUInt64 file.shape.bucketCount * intervalTime
  let mintime := if mintime < input.starttime then input.starttime else mintime
  let maxtime := if input.endtime < maxtime then input.endtime else maxtime
  ServerLoop.loop intervalTime maxtime fuel now ⟨mintime, file, input.buckets, [], []⟩

/-! ### Reachable files -/

namespace StatFile

/-- The files that calls can lead to. -/
inductive Reachable : StatFile D F → Prop
  | new {sysPageSize clock : ℤ} {init : Settings D} {f : StatFile D F}
    (h : openOrCreate sysPageSize clock none init = .ok f) : Reachable f
  | update {f : StatFile D F} (h : Reachable f) (now : ℤ) (data : Bucket D F)
    (mode : RawUpdateMode) : Reachable (f.rawUpdateBucket now data mode).2
  | bucket {f : StatFile D F} (h : Reachable f) (now i : ℤ) : Reachable (f.writableBucket now i).2
  | flush {f : StatFile D F} (h : Reachable f) (now : ℤ) : Reachable (f.flush now)
  | reopen {f : StatFile D F} (h : Reachable f) : Reachable (ofDisk f.toDisk)

variable {f : StatFile D F}

/-- Only a time behind the first quantum of a file has an index above zero. -/
theorem le_of_mapTimeToBucketIndex_pos {sh : Shape D} {t : ℤ}
    (h : 0 < sh.mapTimeToBucketIndex t false) : sh.fileCreateTime + sh.cfgInterval ≤ t := by
  by_cases ht : sh.fileCreateTime ≤ t
  · exact (sh.mapTimeToBucketIndex_pos_iff ht).1 h
  · have hmono := Grid.cell_mono (c := sh.fileCreateTime) sh.cfgInterval_pos (not_le.1 ht).le
    have hzero : Grid.cell sh.fileCreateTime sh.cfgInterval sh.fileCreateTime = 0 := by
      simp [Grid.cell]
    rw [sh.mapTimeToBucketIndex_eq] at h
    omega

/-- A head that has moved is at the index of the time that moved it, beyond the first quantum. -/
theorem Reachable.head (h : f.Reachable) :
    f.header.lastBucket = 0 ∧ f.header.lastTime = 0 ∨
      ∃ t, f.shape.fileCreateTime + f.shape.cfgInterval ≤ t ∧
        f.header.lastBucket = f.shape.mapTimeToBucketIndex t false ∧
        f.header.lastTime = f.shape.targetBucketTime t := by
  induction h with
  | new hnew =>
    obtain ⟨sh, -, rfl⟩ := openOrCreate_new hnew
    exact .inl ⟨rfl, rfl⟩
  | @update f hf now data mode ih =>
    rw [rawUpdateBucket_shape, rawUpdateBucket_lastBucket, rawUpdateBucket_lastTime]
    split_ifs with hlt
    · refine .inr ⟨data.time, le_of_mapTimeToBucketIndex_pos ?_, max_eq_right hlt.le, rfl⟩
      refine lt_of_le_of_lt ?_ hlt
      rcases ih with ⟨hzero, -⟩ | ⟨t, ht, hlast, -⟩
      · exact hzero.ge
      · rw [hlast, f.shape.mapTimeToBucketIndex_eq]
        have hc := f.shape.cfgInterval_pos
        exact Int.tdiv_nonneg (by omega) hc.le
    · rw [max_eq_left (not_lt.1 hlt)]
      exact ih
  | bucket hf now i ih => exact ih
  | @flush f hf now ih =>
    rw [flush_shape, flush_header]
    exact ih
  | reopen hf ih => exact ih

/-- The head is at the time of its index, not before the creation of the file. -/
structure Headed (f : StatFile D F) : Prop where
  last : f.lastBucketTime = f.shape.mapBucketIndexToTime f.header.lastBucket
  create : f.shape.fileCreateTime ≤ f.lastBucketTime

/-- A head after time 0 has moved. -/
theorem Reachable.headed_of_pos (h : f.Reachable) (hpos : 0 < f.lastBucketTime) : f.Headed := by
  have hc := f.shape.cfgInterval_pos
  unfold lastBucketTime at hpos
  rcases h.head with ⟨-, hzero⟩ | ⟨t, ht, hlast, htime⟩
  · omega
  · have ht0 : 0 ≤ t := by
      rw [htime, Shape.targetBucketTime_eq] at hpos
      have := Grid.cellStart_le_of_pos hc hpos
      omega
    have hwell : f.shape.WellPlaced t := .inl ⟨ht0, by omega⟩
    refine ⟨?_, ?_⟩
    · rw [lastBucketTime, htime, hlast]
      exact ((f.shape.mapBucketIndexToTime_index_iff t).2 hwell).symm
    · rw [lastBucketTime, htime, Shape.targetBucketTime_eq]
      exact Grid.le_cellStart hc f.shape.cfgInterval_dvd (by omega)

/-- A window that does not begin before time 0 is that of a head that has moved. -/
theorem Reachable.headed (h : f.Reachable) (hfirst : 0 ≤ f.firstBucketTime) : f.Headed := by
  have hc := f.shape.cfgInterval_pos
  have hn := f.shape.le_bucketCount
  apply h.headed_of_pos
  unfold firstBucketTime at hfirst
  unfold lastBucketTime
  nlinarith

variable {m : ℤ}

omit [FloatArith D F] in
/-- What is before the end of the window has no index beyond the head. -/
theorem Headed.index_le (h : f.Headed) (hlt : m < f.lastBucketTime + f.shape.cfgInterval) :
    f.shape.mapTimeToBucketIndex m false ≤ f.header.lastBucket := by
  have hc := f.shape.cfgInterval_pos
  have hcreate := h.create
  have hlast := h.last
  unfold Shape.mapBucketIndexToTime at hlast
  have hhead : Grid.cell f.shape.fileCreateTime f.shape.cfgInterval
      (f.lastBucketTime + f.shape.cfgInterval - 1) = f.header.lastBucket :=
    (Grid.cell_eq_iff hc (by omega)).2 ⟨by omega, by omega⟩
  have hle : m ≤ f.lastBucketTime + f.shape.cfgInterval - 1 := by omega
  have hmono := Grid.cell_mono (c := f.shape.fileCreateTime) hc hle
  rw [f.shape.mapTimeToBucketIndex_eq]
  omega

omit [FloatArith D F] in
/-- The times of the window have the indices of the window. -/
theorem Headed.live (h : f.Headed) (hm : f.firstBucketTime ≤ m)
    (hlt : m < f.lastBucketTime + f.shape.cfgInterval) :
    f.Live (f.shape.mapTimeToBucketIndex m false) := by
  refine ⟨?_, h.index_le hlt⟩
  have hc := f.shape.cfgInterval_pos
  have hfirst : Grid.cell f.shape.fileCreateTime f.shape.cfgInterval f.firstBucketTime =
      f.header.lastBucket - f.shape.bucketCount + 1 := by
    have hlast := h.last
    unfold Shape.mapBucketIndexToTime lastBucketTime at hlast
    have heq : f.firstBucketTime - f.shape.fileCreateTime =
        (f.header.lastBucket - f.shape.bucketCount + 1) * f.shape.cfgInterval := by
      unfold firstBucketTime
      rw [hlast]
      ring
    rw [Grid.cell, heq, Int.mul_tdiv_cancel _ hc.ne']
  have hmono := Grid.cell_mono (c := f.shape.fileCreateTime) hc hm
  rw [f.shape.mapTimeToBucketIndex_eq]
  omega

omit [FloatArith D F] in
theorem Headed.index_next (h : f.Headed) :
    f.shape.mapTimeToBucketIndex (f.lastBucketTime + f.shape.cfgInterval) false =
      f.header.lastBucket + 1 := by
  have hc := f.shape.cfgInterval_pos
  have hcreate := h.create
  have hlast := h.last
  unfold Shape.mapBucketIndexToTime at hlast
  rw [f.shape.mapTimeToBucketIndex_eq]
  have hadd : (f.header.lastBucket + 1) * f.shape.cfgInterval =
      f.header.lastBucket * f.shape.cfgInterval + f.shape.cfgInterval := by ring
  exact (Grid.cell_eq_iff hc (by omega)).2 ⟨by omega, by omega⟩

end StatFile

/-! ### The inner loop -/

/-- What the inner loop does: the buckets in front that are before `mintime` are applied. -/
theorem applyBuckets_eq (now : ℤ) (mintime : UInt64) (f : StatFile D F) (l : List (Bucket D F)) :
    applyBuckets now mintime f l =
      (l.head?.any fun b => toUInt64 b.time < mintime,
        f.rawUpdates ((l.takeWhile fun b => toUInt64 b.time < mintime).map
          fun b => (now, b, .onlyIfEmpty)),
        l.dropWhile fun b => toUInt64 b.time < mintime) := by
  induction l generalizing f with
  | nil => rfl
  | cons b l ih =>
    rw [applyBuckets]
    by_cases hb : toUInt64 b.time < mintime
    · rw [if_pos hb, ih]
      simp [hb, StatFile.rawUpdates]
    · rw [if_neg hb]
      simp [hb, StatFile.rawUpdates]

/-- Data that is not beyond the head leaves the head where it is. -/
theorem StatFile.rawUpdates_lastBucket_of_le {f : StatFile D F}
    {calls : List (ℤ × Bucket D F × RawUpdateMode)}
    (h : ∀ call ∈ calls, f.target call.2.1 ≤ f.header.lastBucket) :
    (f.rawUpdates calls).header.lastBucket = f.header.lastBucket := by
  induction calls generalizing f with
  | nil => rfl
  | cons call calls ih =>
    obtain ⟨now, data, mode⟩ := call
    obtain ⟨hdata, hcalls⟩ := List.forall_mem_cons.1 h
    have hlast : (f.rawUpdateBucket now data mode).2.header.lastBucket = f.header.lastBucket := by
      rw [rawUpdateBucket_lastBucket]
      exact max_eq_left hdata
    have htarget : ∀ b, (f.rawUpdateBucket now data mode).2.target b = f.target b := fun b => by
      rw [target, rawUpdateBucket_shape, target]
    rw [rawUpdates, ih fun call hcall => ?_, hlast]
    rw [htarget, hlast]
    exact hcalls call hcall

namespace ServerLoop

variable {f : StatFile D F} {s : ServerLoop D F} {m now : ℤ}

/-- A state of the loop before the round for the time `m`, on a file with the head of `f`. -/
structure At (f : StatFile D F) (m : ℤ) (s : ServerLoop D F) : Prop where
  mintime : s.mintime = toUInt64 m
  shape : s.file.shape = f.shape
  head : m ≤ f.lastBucketTime + f.shape.cfgInterval →
    s.file.header.lastBucket = f.header.lastBucket
  times : ∀ b ∈ s.rest, InTimeT b.time

omit [FloatArith D F] in
/-- The file of the loop answers for the same indices as `f`. -/
theorem At.isBucketIndexInFile (h : s.At f m)
    (hm : m ≤ f.lastBucketTime + f.shape.cfgInterval) (i : ℤ) :
    s.file.isBucketIndexInFile now i = f.isBucketIndexInFile now i := by
  unfold StatFile.isBucketIndexInFile
  rw [h.head hm, h.shape]

omit [FloatArith D F] in
theorem mapBucketIndexToFileIndex_ne_iff (i : ℤ) :
    f.mapBucketIndexToFileIndex now i ≠ -1 ↔ f.isBucketIndexInFile now i = true := by
  constructor
  · intro h
    by_contra hin
    rw [StatFile.mapBucketIndexToFileIndex, if_neg hin] at h
    exact h rfl
  · intro h
    rw [StatFile.mapBucketIndexToFileIndex_of_inFile h]
    have := (f.emod_bucketCount_mem i).1
    omega

/-- There is a bucket to apply in the round that ends at `m`. -/
def front (m : ℤ) (rest : List (Bucket D F)) : Bool :=
  rest.head?.any fun b => toUInt64 b.time < toUInt64 m

/-- The buckets that are left after that round. -/
def behind (m : ℤ) (rest : List (Bucket D F)) : List (Bucket D F) :=
  rest.dropWhile fun b => toUInt64 b.time < toUInt64 m

/-- The calls that are made in that round. -/
def frontCalls (now m : ℤ) (rest : List (Bucket D F)) :
    List (ℤ × Bucket D F × RawUpdateMode) :=
  (rest.takeWhile fun b => toUInt64 b.time < toUInt64 m).map fun b => (now, b, .onlyIfEmpty)

omit [FloatArith D F] in
theorem behind_of_not_front {rest : List (Bucket D F)} (h : front m rest = false) :
    behind m rest = rest ∧ ∀ now, frontCalls now m rest = [] := by
  cases rest with
  | nil => exact ⟨rfl, fun _ => rfl⟩
  | cons b rest =>
    have hb : ¬toUInt64 b.time < toUInt64 m := by simpa [front] using h
    simp [behind, frontCalls, hb]

variable (hm0 : 0 ≤ m) (hm : m < 2 ^ 63)

omit [FloatArith D F] in
theorem At.add_interval (h : s.At f m) :
    s.mintime + toUInt64 f.shape.cfgInterval = toUInt64 (m + f.shape.cfgInterval) := by
  rw [h.mintime]
  exact (UInt64.ofInt_add m f.shape.cfgInterval).symm

/-- A round in which buckets are applied. -/
theorem At.round_of_front (h : s.At f m)
    (hfront : front (m + f.shape.cfgInterval) s.rest = true) :
    s.round now (toUInt64 f.shape.cfgInterval) = { s with
      mintime := toUInt64 (m + f.shape.cfgInterval)
      file := s.file.rawUpdates (frontCalls now (m + f.shape.cfgInterval) s.rest)
      rest := behind (m + f.shape.cfgInterval) s.rest } := by
  unfold front at hfront
  simp only [ServerLoop.round, h.add_interval, applyBuckets_eq, hfront, if_true]
  rfl

include hm0 hm in
/-- A round in which the bucket of the file is read. -/
theorem At.round_of_not_front (h : s.At f m)
    (hfront : front (m + f.shape.cfgInterval) s.rest = false) :
    s.round now (toUInt64 f.shape.cfgInterval) =
      let w := s.file.writableBucket now (f.shape.mapTimeToBucketIndex m false)
      { mintime := toUInt64 (m + f.shape.cfgInterval)
        file := w.2
        rest := s.rest
        output := if (w.2.deref w.1).count ≠ 0 then s.output ++ [w.2.deref w.1] else s.output
        reads := s.reads ++
          [s.file.mapBucketIndexToFileIndex now (f.shape.mapTimeToBucketIndex m false)] } := by
  have hback : toTimeT (toUInt64 (m + f.shape.cfgInterval) - toUInt64 f.shape.cfgInterval) = m := by
    rw [← h.add_interval, UInt64.add_sub_cancel, h.mintime, toTimeT_toUInt64 hm0 hm]
  obtain ⟨hrest, hcalls⟩ := behind_of_not_front hfront
  have happly : applyBuckets now (toUInt64 (m + f.shape.cfgInterval)) s.file s.rest =
      (false, s.file, s.rest) := by
    rw [applyBuckets_eq]
    unfold front at hfront
    unfold behind at hrest
    have hcalls := hcalls now
    unfold frontCalls at hcalls
    rw [hfront, hrest, hcalls]
    rfl
  unfold ServerLoop.round
  simp only [h.add_interval, happly, h.shape, hback]
  rfl

/-- **One round.** -/
theorem At.round (h : s.At f m) (now : ℤ) (hf : f.Headed) (hm0 : 0 ≤ m)
    (hm : m ≤ f.lastBucketTime + f.shape.cfgInterval)
    (hfit : f.lastBucketTime + f.shape.cfgInterval < 2 ^ 63) :
    (s.round now (toUInt64 f.shape.cfgInterval)).At f (m + f.shape.cfgInterval) ∧
    (s.round now (toUInt64 f.shape.cfgInterval)).rest =
      behind (m + f.shape.cfgInterval) s.rest ∧
    (s.round now (toUInt64 f.shape.cfgInterval)).reads = s.reads ++
      if front (m + f.shape.cfgInterval) s.rest then []
      else [s.file.mapBucketIndexToFileIndex now (f.shape.mapTimeToBucketIndex m false)] := by
  have hc := f.shape.cfgInterval_pos
  by_cases hfront : front (m + f.shape.cfgInterval) s.rest = true
  · rw [h.round_of_front hfront, if_pos hfront, List.append_nil]
    refine ⟨⟨rfl, by rw [StatFile.rawUpdates_shape, h.shape], fun hle => ?_, fun b hb => ?_⟩,
      rfl, rfl⟩
    · -- what is applied before the last step is not beyond the head
      rw [StatFile.rawUpdates_lastBucket_of_le, h.head hm]
      intro call hcall
      obtain ⟨b, hb, rfl⟩ := List.mem_map.1 hcall
      have hlt : toUInt64 b.time < toUInt64 (m + f.shape.cfgInterval) := by
        simpa using List.mem_takeWhile_imp hb
      have htime := h.times b (List.takeWhile_subset _ hb)
      rw [toUInt64_time_lt_iff htime (by omega) (by omega)] at hlt
      rw [StatFile.target, h.shape, h.head hm]
      exact hf.index_le (lt_of_lt_of_le hlt.2 hle)
    · exact h.times b ((List.dropWhile_sublist _).subset hb)
  · replace hfront : front (m + f.shape.cfgInterval) s.rest = false := by simpa using hfront
    rw [h.round_of_not_front hm0 (by omega) hfront, if_neg (by simp [hfront]),
      (behind_of_not_front hfront).1]
    exact ⟨⟨rfl, h.shape, fun _ => h.head hm, h.times⟩, rfl, rfl⟩

/-- From the round for the time `m` on, the step one interval behind the head is made (`maxt` is the
last time of a step), nothing is applied there, and the file does not answer for it. -/
structure PastHead (f : StatFile D F) (maxt m : ℤ) (rest : List (Bucket D F)) (now : ℕ → ℤ) :
    Prop where
  reached : m ≤ f.lastBucketTime + f.shape.cfgInterval
  inRange : f.lastBucketTime + f.shape.cfgInterval ≤ maxt
  onStep : f.shape.cfgInterval ∣ f.lastBucketTime + f.shape.cfgInterval - m
  nothing : front (f.lastBucketTime + 2 * f.shape.cfgInterval)
    (if m = f.lastBucketTime + f.shape.cfgInterval then rest
    else behind (f.lastBucketTime + f.shape.cfgInterval) rest) = false
  noAnswer : ¬(f.shape.isCollated = true ∧ f.lastBucketTime + f.shape.cfgInterval <
    now ((f.lastBucketTime + f.shape.cfgInterval - m) / f.shape.cfgInterval).toNat)

omit [FloatArith D F] in
theorem behind_behind {m' : ℤ} (h : toUInt64 m ≤ toUInt64 m') (rest : List (Bucket D F)) :
    behind m' (behind m rest) = behind m' rest := by
  induction rest with
  | nil => rfl
  | cons b rest ih =>
    by_cases hb : toUInt64 b.time < toUInt64 m
    · have hb' : toUInt64 b.time < toUInt64 m' := UInt64.lt_of_lt_of_le hb h
      have h1 : behind m (b :: rest) = behind m rest := by simp [behind, hb]
      have h2 : behind m' (b :: rest) = behind m' rest := by simp [behind, hb']
      rw [h1, h2, ih]
    · have h1 : behind m (b :: rest) = b :: rest := by simp [behind, hb]
      rw [h1]

omit [FloatArith D F] in
/-- The rounds before the last one do not matter. -/
theorem pastHead_step {maxt : ℤ} {rest : List (Bucket D F)} {now : ℕ → ℤ} (hm0 : 0 ≤ m)
    (hlt : m < f.lastBucketTime + f.shape.cfgInterval)
    (hfit : f.lastBucketTime + f.shape.cfgInterval < 2 ^ 63) :
    PastHead f maxt (m + f.shape.cfgInterval) (behind (m + f.shape.cfgInterval) rest)
      (fun k => now (k + 1)) ↔ PastHead f maxt m rest now := by
  have hc := f.shape.cfgInterval_pos
  have hsub : f.lastBucketTime + f.shape.cfgInterval - (m + f.shape.cfgInterval) =
      f.lastBucketTime + f.shape.cfgInterval - m - f.shape.cfgInterval := by ring
  have hdvd : f.shape.cfgInterval ∣
        f.lastBucketTime + f.shape.cfgInterval - (m + f.shape.cfgInterval) ↔
      f.shape.cfgInterval ∣ f.lastBucketTime + f.shape.cfgInterval - m := by
    rw [hsub]
    exact dvd_sub_self_right
  have hreach : f.shape.cfgInterval ∣ f.lastBucketTime + f.shape.cfgInterval - m →
      m + f.shape.cfgInterval ≤ f.lastBucketTime + f.shape.cfgInterval := fun hd => by
    have := Int.le_of_dvd (by omega) hd
    omega
  have hrest : m + f.shape.cfgInterval ≤ f.lastBucketTime + f.shape.cfgInterval →
      (if m + f.shape.cfgInterval = f.lastBucketTime + f.shape.cfgInterval then
        behind (m + f.shape.cfgInterval) rest
      else behind (f.lastBucketTime + f.shape.cfgInterval)
        (behind (m + f.shape.cfgInterval) rest)) =
      if m = f.lastBucketTime + f.shape.cfgInterval then rest
      else behind (f.lastBucketTime + f.shape.cfgInterval) rest := by
    intro hle
    rw [if_neg (show m ≠ f.lastBucketTime + f.shape.cfgInterval by omega)]
    split_ifs with heq
    · rw [heq]
    · exact behind_behind ((toUInt64_le_iff (by omega) (by omega) (by omega) (by omega)).2 hle) rest
  have hclock : m + f.shape.cfgInterval ≤ f.lastBucketTime + f.shape.cfgInterval →
      ((f.lastBucketTime + f.shape.cfgInterval - (m + f.shape.cfgInterval)) /
        f.shape.cfgInterval).toNat + 1 =
      ((f.lastBucketTime + f.shape.cfgInterval - m) / f.shape.cfgInterval).toNat := by
    intro hle
    have hdiv : (f.lastBucketTime + f.shape.cfgInterval - m) / f.shape.cfgInterval =
        (f.lastBucketTime + f.shape.cfgInterval - (m + f.shape.cfgInterval)) /
          f.shape.cfgInterval + 1 := by
      rw [hsub, Int.sub_ediv_of_dvd _ (dvd_refl _), Int.ediv_self hc.ne']
      ring
    have hnonneg : 0 ≤ (f.lastBucketTime + f.shape.cfgInterval - (m + f.shape.cfgInterval)) /
        f.shape.cfgInterval := Int.ediv_nonneg (by omega) hc.le
    omega
  constructor
  · rintro ⟨h1, h2, h3, h4, h5⟩
    refine ⟨hlt.le, h2, hdvd.1 h3, ?_, ?_⟩
    · rwa [hrest h1] at h4
    · simp only [hclock h1] at h5
      exact h5
  · rintro ⟨-, h2, h3, h4, h5⟩
    have h1 := hreach h3
    refine ⟨h1, h2, hdvd.2 h3, ?_, ?_⟩
    · rwa [hrest h1]
    · simp only [hclock h1]
      exact h5

omit [FloatArith D F] in
/-- The index behind the head is in the file only for a collated file, when its time has come. -/
theorem isBucketIndexInFile_next (hf : f.Headed) :
    f.isBucketIndexInFile now (f.header.lastBucket + 1) = true ↔
      f.shape.isCollated = true ∧ f.lastBucketTime + f.shape.cfgInterval < now := by
  have hn := f.shape.bucketCount_pos
  have htime : f.shape.mapBucketIndexToTime (f.header.lastBucket + 1) =
      f.lastBucketTime + f.shape.cfgInterval := by
    rw [f.shape.mapBucketIndexToTime_add, one_mul, hf.last]
  unfold StatFile.isBucketIndexInFile
  rw [if_neg (by omega), if_pos (by omega), htime, Bool.and_eq_true, decide_eq_true_iff]

omit [FloatArith D F] in
/-- The last round, one interval behind the head. -/
theorem At.last_read_iff (h : s.At f (f.lastBucketTime + f.shape.cfgInterval)) (hf : f.Headed)
    {maxt : ℤ} (hmaxt : f.lastBucketTime + f.shape.cfgInterval ≤ maxt) (now : ℕ → ℤ) :
    (front (f.lastBucketTime + f.shape.cfgInterval + f.shape.cfgInterval) s.rest = true ∨
      s.file.mapBucketIndexToFileIndex (now 0) (f.shape.mapTimeToBucketIndex
        (f.lastBucketTime + f.shape.cfgInterval) false) ≠ -1) ↔
      ¬PastHead f maxt (f.lastBucketTime + f.shape.cfgInterval) s.rest now := by
  have htwo : f.lastBucketTime + f.shape.cfgInterval + f.shape.cfgInterval =
      f.lastBucketTime + 2 * f.shape.cfgInterval := by ring
  rw [mapBucketIndexToFileIndex_ne_iff, h.isBucketIndexInFile le_rfl, hf.index_next,
    isBucketIndexInFile_next hf, htwo]
  constructor
  · rintro (hfront | hcol) hpast
    · have hnothing := hpast.nothing
      rw [if_pos rfl, hfront] at hnothing
      cases hnothing
    · have hno := hpast.noAnswer
      rw [sub_self, Int.zero_ediv] at hno
      exact hno hcol
  · intro hpast
    by_contra hcon
    obtain ⟨hfront, hcol⟩ := not_or.1 hcon
    refine hpast ⟨le_rfl, hmaxt, by simp, ?_, ?_⟩
    · rw [if_pos rfl]
      simpa using hfront
    · rw [sub_self, Int.zero_ediv]
      exact hcol

/-- **The loop** ends, and all its reads are inside the file unless it reads behind the head. -/
theorem At.loop (h : s.At f m) (hf : f.Headed) (hf0 : 0 ≤ f.firstBucketTime)
    (hfirst : f.firstBucketTime ≤ m) {maxt : ℤ}
    (hmaxt : maxt ≤ f.lastBucketTime + f.shape.cfgInterval) (hmaxt0 : 0 ≤ maxt)
    (hm1 : m < 2 ^ 64) (hfit : f.lastBucketTime + f.shape.cfgInterval < 2 ^ 63) (now : ℕ → ℤ) :
    ∃ n s', (∀ fuel, n ≤ fuel →
      loop (toUInt64 f.shape.cfgInterval) (toUInt64 maxt) fuel now s = some s') ∧
      ∃ reads, s'.reads = s.reads ++ reads ∧
        ((∀ r ∈ reads, r ≠ -1) ↔ ¬PastHead f maxt m s.rest now) := by
  have hc := f.shape.cfgInterval_pos
  have hlast : f.shape.cfgInterval ≤ f.lastBucketTime := by
    have hn := f.shape.le_bucketCount
    unfold StatFile.firstBucketTime at hf0
    unfold StatFile.lastBucketTime
    nlinarith
  -- the number of steps left bounds the number of rounds
  induction hk : (maxt + 1 - m).toNat using Nat.strong_induction_on generalizing m s now with
  | _ k ih =>
    by_cases hle : m ≤ maxt
    · have hmin : s.mintime ≤ toUInt64 maxt := by
        rw [h.mintime]
        exact (toUInt64_le_iff (by omega) (by omega) hmaxt0 (by omega)).2 hle
      obtain ⟨hat, hrest, hreads⟩ := h.round (now 0) hf (by omega) (by omega) hfit
      obtain ⟨n, s', hloop, reads, hs', hiff⟩ := ih _ (by omega) hat (by omega) (by omega)
        (fun k => now (k + 1)) rfl
      rw [hrest] at hiff
      refine ⟨n + 1, s', fun fuel hfuel => ?_, _, by rw [hs', hreads, List.append_assoc], ?_⟩
      · obtain ⟨fuel, rfl⟩ := Nat.exists_eq_succ_of_ne_zero (Nat.ne_of_gt (by omega : 0 < fuel))
        rw [ServerLoop.loop, if_pos hmin]
        exact hloop fuel (by omega)
      · rw [List.forall_mem_append, hiff]
        rcases lt_or_eq_of_le (hle.trans hmaxt) with hlt | rfl
        · have hread : s.file.mapBucketIndexToFileIndex (now 0)
              (f.shape.mapTimeToBucketIndex m false) ≠ -1 := by
            rw [mapBucketIndexToFileIndex_ne_iff, h.isBucketIndexInFile hlt.le]
            exact StatFile.isBucketIndexInFile_of_live _ (hf.live hfirst hlt)
          rw [pastHead_step (by omega) hlt hfit]
          refine ⟨fun hr => hr.2, fun hr => ⟨?_, hr⟩⟩
          split_ifs
          · exact fun r hr => absurd hr List.not_mem_nil
          · exact fun r hr => by rwa [List.mem_singleton.1 hr]
        · have hend : ¬PastHead f maxt (f.lastBucketTime + f.shape.cfgInterval +
              f.shape.cfgInterval) (behind (f.lastBucketTime + f.shape.cfgInterval +
              f.shape.cfgInterval) s.rest) (fun k => now (k + 1)) := fun hpast => by
            have := hpast.reached
            omega
          rw [← h.last_read_iff hf hle now, and_iff_left hend]
          split_ifs with hfront
          · simp [hfront]
          · simp [hfront]
    · have hmin : ¬s.mintime ≤ toUInt64 maxt := by
        rw [h.mintime]
        rwa [toUInt64_le_iff (by omega) (by omega) hmaxt0 (by omega)]
      refine ⟨1, s, fun fuel hfuel => ?_, [], (List.append_nil _).symm, ?_⟩
      · obtain ⟨fuel, rfl⟩ := Nat.exists_eq_succ_of_ne_zero (Nat.one_le_iff_ne_zero.1 hfuel)
        rw [ServerLoop.loop, if_neg hmin]
      · refine ⟨fun _ hpast => ?_, fun _ _ hr => absurd hr List.not_mem_nil⟩
        have h1 := hpast.reached
        have h2 := hpast.inRange
        omega

end ServerLoop

open ServerLoop

/-- The offer makes the server read one interval behind the head of the file: its range goes that
far, the steps from its first time (or from the first time of the file) meet that time, and no
offered bucket is applied there. -/
structure ReadsPastHead (f : StatFile D F) (input : ProtoOffer (Bucket D F)) (now : ℕ → ℤ) :
    Prop where
  window : 0 ≤ f.firstBucketTime
  past : PastHead f input.endtime.toNat (max f.firstBucketTime input.starttime.toNat) input.buckets
    now

omit [FloatArith D F] in
theorem readsPastHead_iff {f : StatFile D F} {input : ProtoOffer (Bucket D F)} {now : ℕ → ℤ}
    (hf0 : 0 ≤ f.firstBucketTime) :
    ReadsPastHead f input now ↔
      PastHead f (min (f.lastBucketTime + f.shape.cfgInterval) input.endtime.toNat)
        (max f.firstBucketTime input.starttime.toNat) input.buckets now := by
  constructor
  · rintro ⟨-, h⟩
    exact ⟨h.reached, le_min le_rfl h.inRange, h.onStep, h.nothing, h.noAnswer⟩
  · intro h
    exact ⟨hf0, h.reached, h.inRange.trans (min_le_right _ _), h.onStep, h.nothing, h.noAnswer⟩

omit [FloatArith D F] in
/-- The end of the window, as the code computes it. -/
theorem toUInt64_window (f : StatFile D F) :
    toUInt64 f.firstBucketTime + toUInt64 f.shape.bucketCount * toUInt64 f.shape.cfgInterval =
      toUInt64 (f.lastBucketTime + f.shape.cfgInterval) := by
  unfold toUInt64
  rw [← UInt64.ofInt_mul, ← UInt64.ofInt_add]
  congr 1
  unfold StatFile.firstBucketTime StatFile.lastBucketTime
  ring

/-- The greater and the lesser of two numbers, as the code takes them. -/
theorem ite_lt_toUInt64 {a b : ℤ} (ha0 : 0 ≤ a) (ha1 : a < 2 ^ 64) (hb0 : 0 ≤ b)
    (hb1 : b < 2 ^ 64) :
    (if toUInt64 a < toUInt64 b then toUInt64 b else toUInt64 a) = toUInt64 (max a b) ∧
      (if toUInt64 b < toUInt64 a then toUInt64 b else toUInt64 a) = toUInt64 (min a b) := by
  constructor
  · split_ifs with h
    · rw [toUInt64_lt_iff ha0 ha1 hb0 hb1] at h
      rw [max_eq_right h.le]
    · rw [toUInt64_lt_iff ha0 ha1 hb0 hb1, not_lt] at h
      rw [max_eq_left h]
  · split_ifs with h
    · rw [toUInt64_lt_iff hb0 hb1 ha0 ha1] at h
      rw [min_eq_right h.le]
    · rw [toUInt64_lt_iff hb0 hb1 ha0 ha1, not_lt] at h
      rw [min_eq_left h]

/-- A time before 0 is after all the others for the code: it makes no step if the window of the file
or the offer begins there. -/
theorem applyAndExtract_of_neg {f : StatFile D F} {input : ProtoOffer (Bucket D F)}
    (hneg : f.firstBucketTime < 0 ∨ 2 ^ 63 ≤ input.starttime.toNat)
    (hfirst : -2 ^ 63 ≤ f.firstBucketTime)
    (hlast : f.lastBucketTime + f.shape.cfgInterval < 2 ^ 63)
    (hepoch : 0 ≤ f.lastBucketTime + f.shape.cfgInterval ∨ input.endtime.toNat < 2 ^ 63)
    (now : ℕ → ℤ) :
    ∃ s, (s.file = f ∧ s.output = [] ∧ s.reads = []) ∧
      ∀ fuel, 1 ≤ fuel → applyAndExtract fuel now input f = some s := by
  have hneg : 2 ^ 63 ≤ (toUInt64 f.firstBucketTime).toNat ∨ 2 ^ 63 ≤ input.starttime.toNat :=
    hneg.imp_left fun h => by
      rw [toUInt64, UInt64.ofInt, UInt64.toNat_ofNat']
      omega
  refine ⟨⟨if toUInt64 f.firstBucketTime < input.starttime then input.starttime
    else toUInt64 f.firstBucketTime, f, input.buckets, [], []⟩, ⟨rfl, rfl, rfl⟩,
    fun fuel hfuel => ?_⟩
  obtain ⟨fuel, rfl⟩ := Nat.exists_eq_succ_of_ne_zero (Nat.one_le_iff_ne_zero.1 hfuel)
  rw [applyAndExtract, toUInt64_window, ServerLoop.loop, if_neg]
  rw [UInt64.le_iff_toNat_le, not_le]
  -- the first step is beyond `2 ^ 63`, the last one is not
  have hmin : 2 ^ 63 ≤ (if toUInt64 f.firstBucketTime < input.starttime then input.starttime
      else toUInt64 f.firstBucketTime).toNat := by
    split_ifs with h
    · rw [UInt64.lt_iff_toNat_lt] at h
      omega
    · rw [UInt64.lt_iff_toNat_lt] at h
      omega
  refine lt_of_lt_of_le ?_ hmin
  rcases hepoch with hpos | hend
  · have hto := toNat_toUInt64 hpos (by omega)
    split_ifs with h
    · rw [UInt64.lt_iff_toNat_lt] at h
      omega
    · omega
  · split_ifs with h
    · exact hend
    · rw [UInt64.lt_iff_toNat_lt] at h
      omega

/-- **What the server reads.**  For every file that can be reached whose times fit `time_t`, every
offer and every course of the clock: the loop ends, and every index it reads is in the window of the
file just when the offer does not make it read behind the head.  (Not both the head of the file and
the end of the offer are before time 0.) -/
theorem applyAndExtract_reads_iff {f : StatFile D F} (hf : f.Reachable)
    (hfirst : -2 ^ 63 ≤ f.firstBucketTime)
    (hlast : f.lastBucketTime + f.shape.cfgInterval < 2 ^ 63) (input : ProtoOffer (Bucket D F))
    (htimes : ∀ b ∈ input.buckets, InTimeT b.time)
    (hepoch : 0 ≤ f.lastBucketTime + f.shape.cfgInterval ∨ input.endtime.toNat < 2 ^ 63)
    (now : ℕ → ℤ) :
    ∃ n s, (∀ fuel, n ≤ fuel → applyAndExtract fuel now input f = some s) ∧
      ((∀ r ∈ s.reads, r ≠ -1) ↔ ¬ReadsPastHead f input now) := by
  by_cases hf0 : 0 ≤ f.firstBucketTime
  · have hn := f.shape.le_bucketCount
    have hc := f.shape.cfgInterval_pos
    have hle : f.firstBucketTime ≤ f.lastBucketTime := by
      unfold StatFile.firstBucketTime StatFile.lastBucketTime
      nlinarith
    have hstart : (input.starttime.toNat : ℤ) < 2 ^ 64 := by
      exact_mod_cast input.starttime.toNat_lt
    have hend : (input.endtime.toNat : ℤ) < 2 ^ 64 := by exact_mod_cast input.endtime.toNat_lt
    have hmin := (ite_lt_toUInt64 (a := f.firstBucketTime) (b := input.starttime.toNat) hf0
      (by omega) (by omega) hstart).1
    have hmax := (ite_lt_toUInt64 (a := f.lastBucketTime + f.shape.cfgInterval)
      (b := input.endtime.toNat) (by omega) (by omega) (by omega) hend).2
    rw [toUInt64_toNat] at hmin hmax
    have hat : At f (max f.firstBucketTime input.starttime.toNat)
        ⟨toUInt64 (max f.firstBucketTime input.starttime.toNat), f, input.buckets, [], []⟩ :=
      ⟨rfl, rfl, fun _ => rfl, htimes⟩
    have hmaxt : min (f.lastBucketTime + f.shape.cfgInterval) (input.endtime.toNat : ℤ) ≤
        f.lastBucketTime + f.shape.cfgInterval := min_le_left _ _
    obtain ⟨n, s, hloop, reads, hs, hiff⟩ := hat.loop (hf.headed hf0) hf0 (le_max_left _ _)
      hmaxt (le_min (by omega) (by omega)) (max_lt (by omega) hstart) hlast now
    refine ⟨n, s, fun fuel hfuel => ?_, ?_⟩
    · rw [← hloop fuel hfuel, applyAndExtract]
      simp only [toUInt64_window, hmin, hmax]
    · rw [hs, List.nil_append, hiff, readsPastHead_iff hf0]
  · obtain ⟨s, ⟨-, -, hs⟩, hloop⟩ :=
      applyAndExtract_of_neg (.inl (not_le.1 hf0)) hfirst hlast hepoch now
    refine ⟨1, s, hloop, fun _ hpast => hf0 hpast.window, fun _ r hr => ?_⟩
    rw [hs] at hr
    exact absurd hr List.not_mem_nil

/-- The file created at 100, with its head at 6000. -/
def headedFile : StatFile ℚ ℚ := (sampleFile.rawUpdateBucket 0 (Bucket.blank 1 6000) .aggregate).2

theorem headedFile_reachable : headedFile.Reachable := .update (.new sampleFile_new) _ _ _

/-- An empty offer that ends with the head is answered from inside the file. -/
theorem applyAndExtract_reads_sample :
    ∃ n s, (∀ fuel, n ≤ fuel →
        applyAndExtract fuel (fun _ => 7000) ⟨[], 5000, 6000, []⟩ headedFile = some s) ∧
      ∀ r ∈ s.reads, r ≠ -1 := by
  obtain ⟨n, s, hloop, hiff⟩ := applyAndExtract_reads_iff headedFile_reachable
    (by decide +kernel) (by decide +kernel) ⟨[], 5000, 6000, []⟩ (by simp)
    (.inl (by decide +kernel)) (fun _ => 7000)
  exact ⟨n, s, hloop, hiff.2 fun h => absurd h.past.inRange (by decide +kernel)⟩

/-- **An offer that ends after the head** makes the server read the bucket at index `-1`. -/
theorem applyAndExtract_reads_past_head :
    headedFile.Reachable ∧ headedFile.firstBucketTime = 890 ∧ headedFile.lastBucketTime = 6000 ∧
    ∃ s, applyAndExtract 3 (fun _ => 7000) ⟨[], 6000, 6100, []⟩ headedFile = some s ∧
      ¬∀ r ∈ s.reads, r ≠ -1 := by
  refine ⟨headedFile_reachable, by decide +kernel, by decide +kernel, ?_⟩
  have hreads : (applyAndExtract 3 (fun _ => 7000) ⟨[], 6000, 6100, []⟩ headedFile).map (·.reads) =
      some [78, -1] := by decide +kernel
  obtain ⟨s, hs, hr⟩ := Option.map_eq_some_iff.1 hreads
  refine ⟨s, hs, fun h => ?_⟩
  rw [hr] at h
  exact h (-1) (by simp) rfl

end Istatd
