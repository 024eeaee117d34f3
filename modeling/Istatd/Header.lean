import Istatd.Bucket

/-!
# File headers (`include/istat/Header.h`, `StatFile::writeNewHeader`)

The header of a counter file is modelled in two parts.  `Shape` holds the fields `writeNewHeader`
fixes for the life of the file, together with the facts every file created by it satisfies;
`Header` holds the fields that updates move.  The magic, the versions, the unit and the name are
left out: no modelled function reads them.
-/

namespace Istatd

open FloatArith

/-- `FILE_FLAG_IS_COLLATED`. -/
def fileFlagIsCollated : BitVec 32 := 0x1#32
/-- `FILE_FLAG_IS_TRAILING`. -/
def fileFlagIsTrailing : BitVec 32 := 0x2#32
/-- `FILE_FLAG_IS_COUNTER_AGGREGATE`. -/
def fileFlagIsCounterAggregate : BitVec 32 := 0x4#32

/-- `flags & mask`, as a condition. -/
def hasFlag (flags mask : BitVec 32) : Bool := flags &&& mask != 0#32

/-- `StatFile::Settings`. -/
structure Settings (D : Type) where
  zeroTime : ℤ
  intervalTime : ℤ
  numSamples : ℤ
  flags : BitVec 32
  season : ℕ
  lambda : D
  fixedCount : ℤ

/-- The header fields that stay as `writeNewHeader` wrote them.  The interval is positive, there are
at least two pages of at least 256 buckets, and the creation time is on the grid of the file. -/
structure Shape (D : Type) where
  cfgInterval : ℤ
  flags : BitVec 32
  pageSize : ℤ
  pageCount : ℤ
  fileCreateTime : ℤ
  lambda : D
  season : ℕ
  fixedCount : ℤ
  cfgInterval_pos : 0 < cfgInterval
  le_pageSize : 8192 ≤ pageSize
  two_le_pageCount : 2 ≤ pageCount
  cfgInterval_dvd : cfgInterval ∣ fileCreateTime

/-- The header fields that updates change. -/
structure Header (D : Type) where
  firstBucket : ℤ
  lastBucket : ℤ
  lastTime : ℤ
  cumulativeSum : D
  cumulativeSumSq : D
  cumulativeCount : ℤ
  lastCumulativeClearTime : ℤ
  deriving DecidableEq

namespace Shape

variable {D : Type} (sh : Shape D)

/-- `hdr.flags & FILE_FLAG_IS_COLLATED`. -/
def isCollated : Bool := hasFlag sh.flags fileFlagIsCollated
/-- `hdr.flags & FILE_FLAG_IS_TRAILING`. -/
def isTrailing : Bool := hasFlag sh.flags fileFlagIsTrailing
/-- `hdr.flags & FILE_FLAG_IS_COUNTER_AGGREGATE`. -/
def isCounterAggregate : Bool := hasFlag sh.flags fileFlagIsCounterAggregate

/-- `bucketsPerPage_`. -/
def bucketsPerPage : ℤ := sh.pageSize / sizeofBucket

/-- `bucketCount_`, which is also `settings_.numSamples` of an open file. -/
def bucketCount : ℤ := sh.pageCount * sh.bucketsPerPage

theorem le_bucketsPerPage : 256 ≤ sh.bucketsPerPage := by
  have := sh.le_pageSize
  unfold bucketsPerPage sizeofBucket
  omega

theorem le_bucketCount : 512 ≤ sh.bucketCount := by
  have h1 := sh.le_bucketsPerPage
  have h2 := sh.two_le_pageCount
  unfold bucketCount
  nlinarith

theorem bucketsPerPage_pos : 0 < sh.bucketsPerPage := by
  have := sh.le_bucketsPerPage
  omega

theorem bucketCount_pos : 0 < sh.bucketCount := by
  have := sh.le_bucketCount
  omega

end Shape

/-- The conversion to `int32_t`. -/
def toInt32 (x : ℤ) : ℤ := x.bmod (2 ^ 32)

theorem toInt32_of_lt {x : ℤ} (h0 : 0 < x) (h1 : x < 2 ^ 31) : toInt32 x = x := by
  unfold toInt32
  rw [Int.bmod_eq_of_le] <;> omega

variable {D F : Type} [FloatArith D F]

/-- The remainder taken off a start time leaves a multiple, whatever the sign of the divisor. -/
theorem sub_tmod_dvd (t c : ℤ) : c ∣ t - t.tmod c :=
  ⟨t.tdiv c, by rw [Int.mul_tdiv_self]⟩

/-- The shape `writeNewHeader` writes for an interval `c ≠ 0`, with the checks passed.
`sysPageSize` is `sysconf(_SC_PAGE_SIZE)` and `lTime` the zero time, or the clock if that is zero.
-/
def newShape (sysPageSize lTime c : ℤ) (init : Settings D) : Shape D where
  -- an interval below one is replaced by one after the creation time has been rounded with it
  cfgInterval := if c < 1 then 1 else c
  flags := init.flags
  pageSize := if sysPageSize < 8192 then 8192 else sysPageSize
  pageCount :=
    let bpp := (if sysPageSize < 8192 then 8192 else sysPageSize) / sizeofBucket
    let interval := if c < 1 then 1 else c
    let np := (init.numSamples + bpp - 1) % 2 ^ 64 / bpp
    -- a trailing file needs enough pages to cover the season
    let np :=
      if hasFlag init.flags fileFlagIsTrailing ∧ np * bpp * interval % 2 ^ 64 < init.season then
        init.season / bpp / interval + 1
      else np
    if np < 2 then 2 else np
  fileCreateTime := lTime - lTime.tmod c
  lambda := init.lambda
  season := init.season
  fixedCount := init.fixedCount
  cfgInterval_pos := by split_ifs <;> omega
  le_pageSize := by split_ifs <;> omega
  two_le_pageCount := by simp only; split_ifs <;> omega
  cfgInterval_dvd := by
    split_ifs with h
    · exact one_dvd _
    · exact sub_tmod_dvd lTime c

/-- The moving fields of a new header. -/
def newHeader (F : Type) [FloatArith D F] (createTime : ℤ) : Header D where
  firstBucket := 0
  lastBucket := 0
  lastTime := 0
  cumulativeSum := ofInt F 0
  cumulativeSumSq := ofInt F 0
  cumulativeCount := 0
  lastCumulativeClearTime := createTime

/-- `StatFile::writeNewHeader`, as far as the header it writes.  An interval that is zero as an
`int32_t` divides by zero before any check of it is made. -/
def writeNewHeader (F : Type) [FloatArith D F] (sysPageSize now : ℤ) (init : Settings D) :
    Except String (Shape D × Header D) :=
  let lTime := if init.zeroTime = 0 then now else init.zeroTime
  let c := toInt32 init.intervalTime
  let trailing := hasFlag init.flags fileFlagIsTrailing
  if trailing ∧ (le F init.lambda (ofInt F 0) ∨ lt F (ofInt F 1) init.lambda) then
    .error "header lambda must be in (0,1] for trailing history files"
  else if trailing ∧ (init.season < 10 ∨ 373 * 24 * 60 * 60 < init.season) then
    .error "header season must be in [10s,1y] for trailing history files"
  else if c = 0 then
    .error "SIGFPE"
  else if hasFlag init.flags
      (~~~(fileFlagIsCollated ||| fileFlagIsTrailing ||| fileFlagIsCounterAggregate)) then
    .error "Bad file flags in writeNewHeader()"
  else
    let shape := newShape sysPageSize lTime c init
    .ok (shape, newHeader F shape.fileCreateTime)

/-- What a successful `writeNewHeader` wrote. -/
theorem writeNewHeader_ok {sysPageSize now : ℤ} {init : Settings D} {sh : Shape D} {h : Header D}
    (hw : writeNewHeader F sysPageSize now init = .ok (sh, h)) :
    sh = newShape sysPageSize (if init.zeroTime = 0 then now else init.zeroTime)
        (toInt32 init.intervalTime) init ∧
      h = newHeader F sh.fileCreateTime := by
  unfold writeNewHeader at hw
  generalize (if init.zeroTime = 0 then now else init.zeroTime) = lTime at hw ⊢
  simp only at hw
  split_ifs at hw
  cases hw
  exact ⟨rfl, rfl⟩

end Istatd
