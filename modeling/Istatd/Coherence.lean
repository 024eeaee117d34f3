import Istatd.Lib.Run
import Istatd.ReadBuckets
import Istatd.RingInvariant

/-!
# Coherence of reads with the page cache

`readBuckets` does not go through the page cache: a round reads a part of a page from the file and
then copies the mapped page over what it read, if the page is mapped (`copyAliasedBuckets`).  Here
this is written out, and compared with what `mapSinglePage` shows and with a plain array of slots
that knows no pages.

* `readBucketsFromFile`: the read with its accesses to the file;
* `readBucketsFromFile_eq`: it reads what `readBuckets` says;
* `ShadowedFile`: a file beside the plain array it stands for;
* `read_coherent`: after every run, a read from the file, the pages as the cache would map them and
  the plain array agree.
-/

namespace Istatd

namespace PageCache

variable {β : Type} (c : PageCache β)

/-- `mm_->read` of `n` cells of a page, from the place `off` on. -/
def readFile (page off : ℤ) (n : ℕ) : List β :=
  (List.range n).map fun k : ℕ => c.store.disk page (off + k)

/-- `StatFile::copyAliasedBuckets`: the cells of a mapped page, copied over what was read of it.
The lines count pages from 1, the caller from 0. -/
def copyAliasedBuckets (buf : List β) (bPage bOffset : ℤ) : List β :=
  match (c.store.find? (bPage + 1)).bind c.store.line with
  | some (_, cells) => (List.range buf.length).map fun k : ℕ => cells (bOffset + k)
  | none => buf

/-- What is read of a page is what the open file shows of it. -/
theorem copyAliasedBuckets_readFile (page off : ℤ) (n : ℕ) :
    c.copyAliasedBuckets (c.readFile (page + 1) off n) page off =
      (List.range n).map fun k : ℕ => c.view (page + 1) (off + k) := by
  unfold copyAliasedBuckets readFile view WriteBack.Store.view
  cases (c.store.find? (page + 1)).bind c.store.line with
  | none => rfl
  | some l => rw [List.length_map, List.length_range]

end PageCache

namespace StatFile

variable {D F : Type} (f : StatFile D F)

/-- The loop of `readBuckets` for at most `n` rounds: the value of `ret` at its end, and the buckets
written to the buffer. -/
def readRounds (firstFileIndex : ℤ) : ℕ → ℤ → ℤ → ℤ × List (Bucket D F)
  | 0, _, ret => (ret, [])
  | n + 1, cnt, ret =>
    if 0 < cnt then
      let fileIndex := (firstFileIndex + ret).tmod f.shape.bucketCount
      let pageIndex := fileIndex.tdiv f.shape.bucketsPerPage
      let off := fileIndex - pageIndex * f.shape.bucketsPerPage
      let ntr := min (f.shape.bucketsPerPage - off) cnt
      let buf := f.cache.copyAliasedBuckets (f.cache.readFile (pageIndex + 1) off ntr.toNat)
        pageIndex off
      let r := readRounds firstFileIndex n (cnt - ntr) (ret + ntr)
      (r.1, buf ++ r.2)
    else (ret, [])

/-- `StatFile::readBuckets` with its accesses to the file: the value it returns, and the buckets it
writes to the buffer. -/
def readBucketsFromFile (now cnt firstBucket : ℤ) : ℤ × List (Bucket D F) :=
  let firstFileIndex := f.mapBucketIndexToFileIndex now firstBucket
  if firstFileIndex < 0 then
    if cnt + firstFileIndex < 0 then (0, [])
    else
      let cnt := min (cnt + firstFileIndex) f.shape.bucketCount
      f.readRounds 0 cnt.toNat cnt 0
  else
    let cnt := min cnt f.shape.bucketCount
    f.readRounds firstFileIndex cnt.toNat cnt 0

theorem readRounds_snd (first : ℤ) (n : ℕ) (cnt ret : ℤ) :
    (f.readRounds first n cnt ret).2 = f.readLoop first n cnt ret := by
  induction n generalizing cnt ret with
  | zero => rfl
  | succ n ih =>
    unfold readRounds readLoop
    split_ifs
    · simp only [ih, PageCache.copyAliasedBuckets_readFile]
    · rfl

/-- The value returned counts the buckets. -/
theorem readRounds_fst {first ret : ℤ} (hfirst : 0 ≤ first) (hret : 0 ≤ ret) (n : ℕ) (cnt : ℤ) :
    (f.readRounds first n cnt ret).1 = ret + (f.readRounds first n cnt ret).2.length := by
  have hb := f.shape.bucketsPerPage_pos
  induction n generalizing cnt ret with
  | zero => simp [readRounds]
  | succ n ih =>
    unfold readRounds
    split_ifs with hc
    · obtain ⟨hfi, -⟩ := f.emod_bucketCount_mem (first + ret)
      have hoff := Int.mul_ediv_add_emod ((first + ret) % f.shape.bucketCount)
        f.shape.bucketsPerPage
      have hlt := Int.emod_lt_of_pos ((first + ret) % f.shape.bucketCount) hb
      simp only
      rw [Int.tmod_eq_emod_of_nonneg (by omega), Int.tdiv_eq_ediv_of_nonneg hfi]
      generalize hntr : min (f.shape.bucketsPerPage - ((first + ret) % f.shape.bucketCount -
        (first + ret) % f.shape.bucketCount / f.shape.bucketsPerPage *
          f.shape.bucketsPerPage)) cnt = ntr
      have hpos : 0 < ntr := by
        rw [mul_comm] at hoff
        omega
      rw [ih (by omega), PageCache.copyAliasedBuckets_readFile, List.length_append, List.length_map,
        List.length_range]
      push_cast
      rw [Int.toNat_of_nonneg hpos.le]
      ring
    · simp

/-- **A read with its accesses to the file** reads what `readBuckets` says, and returns how much. -/
theorem readBucketsFromFile_eq (now cnt first : ℤ) :
    f.readBucketsFromFile now cnt first =
      (((f.readBuckets now cnt first).length : ℤ), f.readBuckets now cnt first) := by
  have hrounds : ∀ {i : ℤ} (n : ℕ) (cnt : ℤ), 0 ≤ i → f.readRounds i n cnt 0 =
      (((f.readLoop i n cnt 0).length : ℤ), f.readLoop i n cnt 0) := by
    intro i n cnt hi
    have hfst := f.readRounds_fst hi le_rfl n cnt
    rw [f.readRounds_snd, zero_add] at hfst
    exact Prod.ext hfst (f.readRounds_snd i n cnt 0)
  unfold readBucketsFromFile readBuckets
  simp only
  split_ifs with h0 h1
  · rfl
  · exact hrounds _ _ le_rfl
  · exact hrounds _ _ (by omega)

/-- What a pointer to a slot points to when its page is mapped through the cache, as by
`writableBucket`. -/
def mappedSlot (fileIndex : ℤ) : Option (Bucket D F) :=
  let pageIndex := fileIndex.tdiv f.shape.bucketsPerPage
  let page := f.shape.mapBucketPage pageIndex
  let mapped := f.cache.mapSinglePage page
  mapped.2.load ⟨mapped.1, page, fileIndex - pageIndex * f.shape.bucketsPerPage⟩

theorem mappedSlot_eq {fi : ℤ} (h0 : 0 ≤ fi) (h1 : fi < f.shape.bucketCount) :
    f.mappedSlot fi = some (f.slot fi) := by
  have hoff : fi - fi.tdiv f.shape.bucketsPerPage * f.shape.bucketsPerPage =
      fi % f.shape.bucketsPerPage := by
    rw [Int.tdiv_eq_ediv_of_nonneg h0]
    have := Int.mul_ediv_add_emod fi f.shape.bucketsPerPage
    linarith
  unfold mappedSlot slot
  simp only
  rw [hoff, f.shape.mapBucketPage_tdiv h0 h1]
  exact PageCache.load_of_line (PageCache.mapSinglePage_line _ _)

end StatFile

/-! ### Runs -/

/-- A call that uses the page cache of a file. -/
inductive PageOp (D F : Type)
  | rawUpdateBucket (now : ℤ) (data : Bucket D F) (mode : RawUpdateMode)
  | bucket (now bucketIndex : ℤ)
  | flush (now : ℤ)

/-- A file beside the plain array of slots it stands for. -/
structure ShadowedFile (D F : Type) where
  file : StatFile D F
  slots : ℤ → Bucket D F

namespace ShadowedFile

variable {D F : Type} [FloatArith D F]

/-- The slot of the data in the plain array. -/
def place (w : ShadowedFile D F) (data : Bucket D F) : ℤ :=
  w.file.target data % w.file.shape.bucketCount

/-- What an accepted call writes to the plain array: the data merged with the contents of the slot,
or with an empty bucket if these are of another time. -/
def written (w : ShadowedFile D F) (data : Bucket D F) (mode : RawUpdateMode) : Bucket D F :=
  (mergeData w.file.shape mode data
    (if (w.slots (w.place data)).time ≠ w.file.shape.targetBucketTime data.time then Bucket.zero
    else w.slots (w.place data))).1

/-- A call on the file, and its effect on the plain array: only an accepted update has one. -/
def step (w : ShadowedFile D F) : PageOp D F → ShadowedFile D F
  | .rawUpdateBucket now data mode =>
    { file := (w.file.rawUpdateBucket now data mode).2
      slots :=
        if w.file.Accepts data then Function.update w.slots (w.place data) (w.written data mode)
        else w.slots }
  | .bucket now i => { w with file := (w.file.writableBucket now i).2 }
  | .flush now => { w with file := w.file.flush now }

/-- The open file shows the plain array. -/
structure Coherent (w : ShadowedFile D F) : Prop where
  notTrailing : w.file.shape.isTrailing = false
  slots : ∀ j, w.file.bucketAt j = w.slots (j % w.file.shape.bucketCount)

theorem step_coherent {w : ShadowedFile D F} (h : w.Coherent) (op : PageOp D F) :
    (w.step op).Coherent := by
  obtain ⟨hnt, hslots⟩ := h
  cases op with
  | rawUpdateBucket now data mode =>
    refine ⟨by simpa [step] using hnt, fun j => ?_⟩
    by_cases hacc : w.file.Accepts data
    · have hfound : w.written data mode =
          (mergeData w.file.shape mode data (w.file.found data)).1 := by
        unfold written StatFile.found place
        rw [← hslots]
      simp only [step, StatFile.rawUpdateBucket_shape]
      rw [StatFile.rawUpdateBucket_bucketAt now data mode hnt hacc, if_pos hacc, hfound]
      unfold place
      split_ifs with hj
      · rw [hj, Function.update_self]
      · rw [Function.update_of_ne hj, hslots]
    · simp only [step, StatFile.rawUpdateBucket_of_old now data mode hacc, if_neg hacc]
      exact hslots j
  | bucket now i =>
    refine ⟨hnt, fun j => ?_⟩
    show (w.file.writableBucket now i).2.slot (j % w.file.shape.bucketCount) = _
    rw [StatFile.writableBucket_slot]
    exact hslots j
  | flush now =>
    have hflush := StatFile.flush_sameRing hnt now
    refine ⟨?_, fun j => ?_⟩
    · show (w.file.flush now).shape.isTrailing = false
      rw [hflush.shape]
      exact hnt
    · show (w.file.flush now).bucketAt j = w.slots (j % (w.file.flush now).shape.bucketCount)
      rw [hflush.ring, hflush.shape]
      exact hslots j

theorem run_coherent {w : ShadowedFile D F} (h : w.Coherent) (ops : List (PageOp D F)) :
    (ops.foldl step w).Coherent :=
  Run.invariant (I := Coherent) (fun _ op hw => step_coherent hw op) h ops

/-- **Coherence of reads.**  After every run of updates in any mode, of `bucket` and of `flush` on a
file that is not trailing, a read of `cnt` buckets from an index in the file returns
`min(cnt, N)`, and the `k`-th bucket it has put in the buffer, from the file or from a mapped page,
is what mapping the page of slot `first + k` (modulo `N`) shows, and what the plain array holds
there. -/
theorem read_coherent (f₀ : StatFile D F) (hnt : f₀.shape.isTrailing = false)
    (ops : List (PageOp D F)) (now cnt first : ℤ) :
    let w := ops.foldl step ⟨f₀, f₀.slot⟩
    let N := w.file.shape.bucketCount
    let r := w.file.readBucketsFromFile now cnt first
    w.file.isBucketIndexInFile now first = true → 0 < cnt →
      r.1 = min cnt N ∧ (r.2.length : ℤ) = min cnt N ∧
        ∀ k : ℕ, k < min cnt N →
          r.2[k]? = w.file.mappedSlot ((w.file.mapBucketIndexToFileIndex now first + k) % N) ∧
            r.2[k]? = some (w.slots ((w.file.mapBucketIndexToFileIndex now first + k) % N)) := by
  intro w N r hin hcnt
  have hw : w.Coherent := run_coherent ⟨hnt, fun _ => rfl⟩ ops
  have hN := w.file.shape.bucketCount_pos
  have hr : r.2 = (RingIndex.consecutive first (min cnt N).toNat).map w.file.bucketAt := by
    show (w.file.readBucketsFromFile now cnt first).2 = _
    rw [w.file.readBucketsFromFile_eq, StatFile.readBuckets_of_inFile w.file hin]
  have hlen : (r.2.length : ℤ) = min cnt N := by
    rw [hr, List.length_map, RingIndex.consecutive, List.length_map, List.length_range]
    omega
  refine ⟨?_, hlen, fun k hk => ?_⟩
  · rw [← hlen]
    show (w.file.readBucketsFromFile now cnt first).1 =
      ((w.file.readBucketsFromFile now cnt first).2.length : ℤ)
    rw [w.file.readBucketsFromFile_eq]
  · have hget : r.2[k]? = some (w.file.bucketAt (first + k)) := by
      rw [hr, RingIndex.consecutive, List.map_map, List.getElem?_map,
        List.getElem?_range (by omega)]
      rfl
    rw [StatFile.mapBucketIndexToFileIndex_of_inFile hin, Int.emod_add_emod, hget]
    obtain ⟨h0, h1⟩ := w.file.emod_bucketCount_mem (first + k)
    rw [w.file.mappedSlot_eq h0 h1, ← hw.slots]
    exact ⟨rfl, rfl⟩

end ShadowedFile

/-- Calls on the file created at 100: the last slot of its second page and, after a lookup and a
flush, the first slot of its first page. -/
def sampleCalls : List (PageOp ℚ ℚ) :=
  [.rawUpdateBucket 0 (Bucket.blank 3 5210) .aggregate, .bucket 0 100, .flush 0,
    .rawUpdateBucket 0 (Bucket.blank 4 5220) .overwrite]

/-- The read of three buckets around the end of the ring. -/
theorem read_coherent_sample :
    let w := sampleCalls.foldl ShadowedFile.step ⟨sampleFile, sampleFile.slot⟩
    (w.file.readBucketsFromFile 0 3 510).1 = 3 ∧
      (w.file.readBucketsFromFile 0 3 510).2[2]? = w.file.mappedSlot 0 := by
  have h := ShadowedFile.read_coherent sampleFile (by decide) sampleCalls 0 3 510
    (by decide +kernel) (by decide)
  refine ⟨h.1.trans (by decide +kernel), ?_⟩
  have h2 := (h.2.2 2 (by decide +kernel)).1
  rw [h2]
  congr 1

end Istatd
