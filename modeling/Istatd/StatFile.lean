import Istatd.Header
import Istatd.PageCache
import Istatd.Lib.Grid

/-!
# Counter files (`lib/StatFile.cpp`)

A `StatFile` is a ring of buckets behind a page cache, with a header that remembers the window of
logical bucket indices the ring holds.  A logical index is quantised time counted from the creation
time of the file; it is kept in the file slot it has modulo the number of buckets.  Slots are reused
without being cleared: a bucket is recognised as current by the time stored in it.

Trailing files do not write their samples to the ring at once.  They keep three pending buckets
(`expBucket`), which are blended with the bucket of one season earlier when they are shifted out.

The functions are those of the source, for a file that is open for update.  They take the clock
`istattime(0)` as the argument `now` where they read it.  The list `touched` records the file
indices for which `writableBucket` computed an address; it has no counterpart in the program.
-/

namespace Istatd

open FloatArith

/-- `RawUpdateMode`. -/
inductive RawUpdateMode
  | aggregate
  | overwrite
  | fillEmpty
  | onlyIfEmpty
  deriving DecidableEq

/-- An open counter file. -/
structure StatFile (D F : Type) where
  shape : Shape D
  header : Header D
  cache : PageCache (Bucket D F)
  expBucket : Fin 3 → Bucket D F
  touched : List ℤ

/-- The bytes of a counter file: its header and its bucket pages. -/
structure DiskFile (D F : Type) where
  shape : Shape D
  header : Header D
  disk : ℤ → ℤ → Bucket D F

namespace Shape

variable {D : Type} (sh : Shape D)

/-- `StatFile::mapTimeToBucketIndex`. -/
def mapTimeToBucketIndex (timestamp : ℤ) (roundUp : Bool) : ℤ :=
  let roundDelta := if roundUp ∧ timestamp.tmod sh.cfgInterval ≠ 0 then 1 else 0
  (timestamp - sh.fileCreateTime).tdiv sh.cfgInterval + roundDelta

/-- `StatFile::mapBucketIndexToTime`. -/
def mapBucketIndexToTime (bucketIndex : ℤ) : ℤ :=
  sh.fileCreateTime + bucketIndex * sh.cfgInterval

/-- `data.time() - data.time() % fileHeader_->cfg_interval`. -/
def targetBucketTime (time : ℤ) : ℤ := time - time.tmod sh.cfgInterval

/-- The page `StatFile::mapBucketPage` maps for a bucket page number: page 0 of the file is the
header.  The number is never negative, see `writableBucket`. -/
def mapBucketPage (page : ℤ) : ℤ :=
  if page = 0 then 1 else page.tmod sh.pageCount + 1

end Shape

variable {D F : Type} [FloatArith D F]

/-- What `rawUpdateBucket` does to the bucket it has found (cleared, if it was of another time):
the new contents, and whether the cumulative totals grow. -/
def mergeData (sh : Shape D) (mode : RawUpdateMode) (data : Bucket D F) (b : Bucket D F) :
    Bucket D F × Bool :=
  if mode = .onlyIfEmpty then
    if b.count = 0 then (data, true) else (b, false)
  else if sh.isCollated ∨ mode = .overwrite ∨ (mode = .fillEmpty ∧ b.count = 0) then
    (data, true)
  else
    let merged := b.update (data.withTime (sh.targetBucketTime data.time))
    (if sh.isCounterAggregate then merged.setCount (toInt32 sh.fixedCount) else merged, true)

namespace StatFile

variable (f : StatFile D F)

/-- `StatFile::isBucketIndexInFile`. -/
def isBucketIndexInFile (now bucketIndex : ℤ) : Bool :=
  if bucketIndex ≤ f.header.lastBucket - f.shape.bucketCount then
    -- older than anything in the file
    false
  else if f.header.lastBucket < bucketIndex then
    -- a collated file answers for the time between its latest bucket and now
    f.shape.isCollated && decide (f.shape.mapBucketIndexToTime bucketIndex < now)
  else true

/-- `StatFile::mapBucketIndexToFileIndex`. -/
def mapBucketIndexToFileIndex (now bucketIndex : ℤ) : ℤ :=
  if f.isBucketIndexInFile now bucketIndex then
    let fileIndex := bucketIndex.tmod f.shape.bucketCount
    if fileIndex < 0 then fileIndex + f.shape.bucketCount else fileIndex
  else -1

/-- `StatFile::writableBucket` (and `StatFile::bucket`, which calls it).  The file index `-1` of an
index outside the file gives page 0 and offset `-1`: an address in front of the first bucket page.
-/
def writableBucket (now bucketIndex : ℤ) : BucketPtr × StatFile D F :=
  let fileIndex := f.mapBucketIndexToFileIndex now bucketIndex
  let pageIndex := fileIndex.tdiv f.shape.bucketsPerPage
  let off := fileIndex - pageIndex * f.shape.bucketsPerPage
  let page := f.shape.mapBucketPage pageIndex
  let mapped := f.cache.mapSinglePage page
  (⟨mapped.1, page, off⟩, { f with cache := mapped.2, touched := fileIndex :: f.touched })

/-- The bucket a pointer points to. -/
def deref (p : BucketPtr) : Bucket D F := (f.cache.load p).getD Bucket.zero

/-- The bucket a pointer points to assigned. -/
def assign (p : BucketPtr) (b : Bucket D F) : StatFile D F :=
  { f with cache := f.cache.assign p b }

/-- `StatFile::flushOneExpBucket`: write the oldest pending bucket, and shift the others. -/
def flushOneExpBucket (now : ℤ) : StatFile D F :=
  let eb0 := f.expBucket 0
  let f' :=
    if 0 < eb0.time then
      let ix := f.shape.mapTimeToBucketIndex eb0.time false
      let oix := f.shape.mapTimeToBucketIndex (eb0.time - f.shape.season) false
      let w := f.writableBucket now ix
      let o := w.2.writableBucket now oix
      let ob := o.2.deref o.1
      o.2.assign w.1 (if 0 < ob.time then ob.expUpdate eb0 f.shape.lambda else eb0)
    else f
  { f' with expBucket := ![f.expBucket 1, f.expBucket 2, Bucket.zero] }

/-- `StatFile::getTrailingBucket`: the pending bucket of a time, which is opened if there is none.
-/
def getTrailingBucket (now time : ℤ) : Fin 3 × StatFile D F :=
  if (f.expBucket 0).time = time then (0, f)
  else if (f.expBucket 1).time = time then (1, f)
  else if (f.expBucket 2).time = time then (2, f)
  else
    let f' := f.flushOneExpBucket now
    (2, { f' with expBucket := Function.update f'.expBucket 2 (Bucket.blank 0 time) })

/-- The first step of `rawUpdateBucket`: the head moves to a later target. -/
def advance (targetBucketIndex targetBucketTime : ℤ) : StatFile D F :=
  if f.header.lastBucket < targetBucketIndex then
    { f with header := { f.header with
        lastBucket := targetBucketIndex
        lastTime := targetBucketTime
        firstBucket :=
          if f.header.firstBucket + f.shape.bucketCount ≤ targetBucketIndex then
            targetBucketIndex - f.shape.bucketCount + 1
          else f.header.firstBucket } }
  else f

/-- The second step: an accepted target before the first bucket becomes the first bucket. -/
def lowerFirst (targetBucketIndex : ℤ) : StatFile D F :=
  if targetBucketIndex < f.header.firstBucket then
    { f with header := { f.header with firstBucket := targetBucketIndex } }
  else f

/-- The cumulative totals after `data`. -/
def addCumulative (data : Bucket D F) : StatFile D F :=
  { f with header := { f.header with
      cumulativeSum := add F f.header.cumulativeSum data.sum
      cumulativeSumSq := add F f.header.cumulativeSumSq (widen data.sumSq)
      cumulativeCount := f.header.cumulativeCount + data.count } }

/-- `StatFile::rawUpdateBucket`: whether the data was accepted, and the file after the call. -/
def rawUpdateBucket (now : ℤ) (data : Bucket D F) (mode : RawUpdateMode) : Bool × StatFile D F :=
  let target := f.shape.mapTimeToBucketIndex data.time false
  let targetTime := f.shape.targetBucketTime data.time
  let f₁ := f.advance target targetTime
  if !f₁.isBucketIndexInFile now target then (false, f₁)
  else
    let f₂ := f₁.lowerFirst target
    if f.shape.isTrailing then
      let t := f₂.getTrailingBucket now targetTime
      let r := mergeData f.shape mode data (t.2.expBucket t.1)
      let f₃ := { t.2 with expBucket := Function.update t.2.expBucket t.1 r.1 }
      (true, if r.2 then f₃.addCumulative data else f₃)
    else
      let w := f₂.writableBucket now target
      let bp := w.2.deref w.1
      let r := mergeData f.shape mode data (if bp.time ≠ targetTime then Bucket.zero else bp)
      let f₃ := w.2.assign w.1 r.1
      (true, if r.2 then f₃.addCumulative data else f₃)

/-- `StatFile::updateBucket`. -/
def updateBucket (now : ℤ) (data : Bucket D F) : Bool × StatFile D F :=
  f.rawUpdateBucket now data .aggregate

/-- `StatFile::flush`. -/
def flush (now : ℤ) : StatFile D F :=
  let f' := if f.shape.isTrailing then f.flushOneExpBucket now else f
  { f' with cache := f'.cache.flush }

/-- `StatFile::numBucketsBetween`. -/
def numBucketsBetween (startTime endTime : ℤ) (roundUp : Bool) : ℤ :=
  let interval := f.shape.cfgInterval
  let maybeRoundUp := if roundUp ∧ endTime.tmod interval ≠ 0 then 1 else 0
  let normalizedStartTime := startTime - startTime.tmod interval
  let normalizedEndTime := endTime - endTime.tmod interval + maybeRoundUp * interval
  let delta := normalizedEndTime - normalizedStartTime
  if delta ≠ 0 then delta.tdiv interval else 1

/-- The loop of `StatFile::readBuckets`, for at most `n` rounds: `ret` buckets have been read and
`cnt` are left.  What a round reads from the file, with `copyAliasedBuckets` putting the page over
it if it is mapped, is the view of the page.  Reads are taken to be complete. -/
def readLoop (firstFileIndex : ℤ) : ℕ → ℤ → ℤ → List (Bucket D F)
  | 0, _, _ => []
  | n + 1, cnt, ret =>
    if 0 < cnt then
      let fileIndex := (firstFileIndex + ret).tmod f.shape.bucketCount
      let pageIndex := fileIndex.tdiv f.shape.bucketsPerPage
      let off := fileIndex - pageIndex * f.shape.bucketsPerPage
      let ntr := min (f.shape.bucketsPerPage - off) cnt
      (List.range ntr.toNat).map (fun k : ℕ => f.cache.view (pageIndex + 1) (off + k)) ++
        readLoop firstFileIndex n (cnt - ntr) (ret + ntr)
    else []

/-- `StatFile::readBuckets`.  A first bucket outside the file has the file index `-1`, and the read
is then one bucket shorter and starts at slot 0.  A round reads at least one bucket, so `cnt` rounds
are enough. -/
def readBuckets (now cnt firstBucket : ℤ) : List (Bucket D F) :=
  let firstFileIndex := f.mapBucketIndexToFileIndex now firstBucket
  if firstFileIndex < 0 then
    if cnt + firstFileIndex < 0 then []
    else
      let cnt := min (cnt + firstFileIndex) f.shape.bucketCount
      f.readLoop 0 cnt.toNat cnt 0
  else
    let cnt := min cnt f.shape.bucketCount
    f.readLoop firstFileIndex cnt.toNat cnt 0

/-- `StatFile::open` of an existing file: nothing is mapped and nothing is pending. -/
def ofDisk (d : DiskFile D F) : StatFile D F where
  shape := d.shape
  header := d.header
  cache := PageCache.ofDisk d.disk
  expBucket := fun _ => Bucket.zero
  touched := []

/-- `StatFile::~StatFile`: the mapped pages and the header are written; what is pending is lost. -/
def toDisk : DiskFile D F where
  shape := f.shape
  header := f.header
  disk := f.cache.close.store.disk

end StatFile

/-- The file `writeNewHeader` leaves: a new header in front of zeroed pages. -/
def DiskFile.create (sysPageSize now : ℤ) (init : Settings D) : Except String (DiskFile D F) :=
  match writeNewHeader F sysPageSize now init with
  | .ok (sh, h) => .ok { shape := sh, header := h, disk := fun _ _ => Bucket.zero }
  | .error e => .error e

/-- `StatFile(path, stats, init, mm)`: open the file at the path, or create it there. -/
def StatFile.openOrCreate (sysPageSize now : ℤ) (existing : Option (DiskFile D F))
    (init : Settings D) : Except String (StatFile D F) :=
  match existing with
  | some d => .ok (StatFile.ofDisk d)
  | none =>
    match DiskFile.create sysPageSize now init with
    | .ok d => .ok (StatFile.ofDisk d)
    | .error e => .error e

end Istatd
