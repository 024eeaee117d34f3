import Istatd.Coherence
import Istatd.Lib.Handles
import Istatd.Lib.Run

/-!
# The mappings of the page cache, when mapping may fail

`PageCache` takes every mapping to succeed.  Here `Mmap::map` may return 0: the call that needed the
page throws, and its caller goes on with other calls.  `replaceMap` has unmapped the page it
replaces by then, and leaves its entry in `pages` as it was.

A mapping is a handle of a pool, `Mmap::map` a request to it and `Mmap::unmap` a release.  The pool
records every handle that is returned, flushed or unmapped when it is not mapped.  The contents of
the pages are those of `StatFile`, and mean something as long as nothing is recorded.

* `PageTable.mapSinglePage`, `PageTable.destroy`: the code that maps and unmaps;
* `MappedFile.step`: the calls, each of which may throw;
* `PageTable.Safe`: every entry is mapped and no mapping has been misused;
* `mappings_safe_iff`: the runs, up to and including the destructor, that are safe.
-/

namespace Istatd

open Handles (Pool granted granted_succ)

/-- An entry of `pages`; `none` is the null pointer. -/
structure PageEntry where
  ptr : Option ℕ
  page : ℤ
  writable : Bool

namespace PageEntry

/-- The mapping of an entry unmapped, if it has one. -/
def unmap (e : PageEntry) (mm : Pool) : Pool :=
  match e.ptr with
  | some h => mm.release h
  | none => mm

/-- The mapping of an entry flushed, if it has one. -/
def flush (e : PageEntry) (mm : Pool) : Pool :=
  match e.ptr with
  | some h => mm.use h
  | none => mm

variable (e : PageEntry) (mm : Pool)

@[simp] theorem unmap_grants : (e.unmap mm).grants = mm.grants := by
  unfold unmap; split <;> simp
@[simp] theorem unmap_asked : (e.unmap mm).asked = mm.asked := by
  unfold unmap; split <;> simp

theorem mem_unmap_live_iff {h : ℕ} : h ∈ (e.unmap mm).live ↔ h ∈ mm.live ∧ e.ptr ≠ some h := by
  unfold unmap
  split
  · rename_i k hk
    rw [hk, Pool.release_live, Finset.mem_erase, and_comm]
    simp [eq_comm]
  · rename_i hnone
    simp [hnone]

theorem unmap_misused_eq_nil_iff :
    (e.unmap mm).misused = [] ↔ mm.misused = [] ∧ ∀ h, e.ptr = some h → h ∈ mm.live := by
  unfold unmap
  split
  · rename_i k hk
    rw [Pool.release_misused_eq_nil_iff, hk]
    simp
  · rename_i hnone
    simp [hnone]

end PageEntry

/-- The mappings a file holds: `pages`, `lruNextPage_`, `fileHeader_`, and the `Mmap` behind them. -/
structure PageTable where
  pages : Fin 3 → PageEntry
  lruNextPage : Fin 3
  fileHeader : ℕ
  mm : Pool

namespace PageTable

/-- What `StatFile::open` maps: the header, unless that fails. -/
def openHeader (grants : ℕ → Bool) : Option PageTable :=
  match (Pool.start grants).acquire with
  | (some h, mm) => some
      { pages := fun _ => ⟨none, 0, false⟩, lruNextPage := 0, fileHeader := h, mm := mm }
  | (none, _) => none

/-- `StatFile::replaceMap`; no pointer is returned if it throws. -/
def replaceMap (t : PageTable) (cacheIndex : Fin 3) (pageIndex : ℤ) (toWrite : Bool) :
    Option ℕ × PageTable :=
  match ((t.pages cacheIndex).unmap t.mm).acquire with
  | (some h, mm) =>
    (some h, { t with
      pages := Function.update t.pages cacheIndex ⟨some h, pageIndex, toWrite⟩, mm := mm })
  | (none, mm) => (none, { t with mm := mm })

/-- The pointer in the first entry for a page. -/
def findPage (t : PageTable) (page : ℤ) (toWrite : Bool) : Option ℕ :=
  ((List.finRange 3).find? fun i => decide ((t.pages i).page = page) &&
    (!toWrite || (t.pages i).writable) && (t.pages i).ptr.isSome).bind fun i => (t.pages i).ptr

/-- `StatFile::mapSinglePage`. -/
def mapSinglePage (t : PageTable) (page : ℤ) (toWrite : Bool) : Option ℕ × PageTable :=
  match t.findPage page toWrite with
  | some h => (some h, { t with mm := t.mm.use h })
  | none =>
    match t.replaceMap t.lruNextPage page toWrite with
    | (some h, t) => (some h, { t with lruNextPage := t.lruNextPage + 1 })
    | (none, t) => (none, t)

/-- The calls of `Mmap::flush` in `StatFile::flush`. -/
def flushPages (t : PageTable) : PageTable :=
  let mm := t.mm.use t.fileHeader
  { t with mm := (List.finRange 3).foldl (fun mm i => (t.pages i).flush mm) mm }

/-- The calls of `Mmap::unmap` in `StatFile::~StatFile`. -/
def destroy (t : PageTable) : Pool :=
  ((List.finRange 3).foldl (fun mm i => (t.pages i).unmap mm) t.mm).release t.fileHeader

/-- Every entry refers to a mapping that is there, and no mapping was misused. -/
def Safe (t : PageTable) : Prop :=
  (∀ i h, (t.pages i).ptr = some h → h ∈ t.mm.live) ∧ t.mm.misused = []

end PageTable

/-- A file and its mappings. -/
structure MappedFile (D F : Type) where
  file : StatFile D F
  table : PageTable

namespace MappedFile

variable {D F : Type}

/-- `StatFile::writableBucket`, and `StatFile::bucket`. -/
def writableBucket (m : MappedFile D F) (now bucketIndex : ℤ) : Option ℕ × MappedFile D F :=
  let fileIndex := m.file.mapBucketIndexToFileIndex now bucketIndex
  let page := m.file.shape.mapBucketPage (fileIndex.tdiv m.file.shape.bucketsPerPage)
  match m.table.mapSinglePage page true with
  | (some h, t) => (some h, { file := (m.file.writableBucket now bucketIndex).2, table := t })
  | (none, t) => (none, { m with table := t })

variable [FloatArith D F]

/-- `StatFile::flushOneExpBucket`, and whether it returned.  If it throws, nothing is shifted. -/
def flushOneExpBucket (m : MappedFile D F) (now : ℤ) : Bool × MappedFile D F :=
  let eb0 := m.file.expBucket 0
  if 0 < eb0.time then
    match m.writableBucket now (m.file.shape.mapTimeToBucketIndex eb0.time false) with
    | (none, m₁) => (false, m₁)
    | (some _, m₁) =>
      match m₁.writableBucket now
          (m.file.shape.mapTimeToBucketIndex (eb0.time - m.file.shape.season) false) with
      | (none, m₂) => (false, m₂)
      | (some _, m₂) => (true, { m₂ with file := m.file.flushOneExpBucket now })
  else (true, { m with file := m.file.flushOneExpBucket now })

/-- `StatFile::rawUpdateBucket`.  The header has moved when a mapping fails; the data is lost. -/
def rawUpdateBucket (m : MappedFile D F) (now : ℤ) (data : Bucket D F) (mode : RawUpdateMode) :
    MappedFile D F :=
  let target := m.file.target data
  let targetTime := m.file.shape.targetBucketTime data.time
  let after := (m.file.rawUpdateBucket now data mode).2
  if !(m.file.advance target targetTime).isBucketIndexInFile now target then
    { m with file := after }
  else
    let m₁ := { m with file := m.file.moved target targetTime }
    if m.file.shape.isTrailing then
      if ∃ k, (m.file.expBucket k).time = targetTime then { m with file := after }
      else
        match m₁.flushOneExpBucket now with
        | (true, m₂) => { m₂ with file := after }
        | (false, m₂) => m₂
    else
      match m₁.writableBucket now target with
      | (some _, m₂) => { m₂ with file := after }
      | (none, m₂) => m₂

/-- `StatFile::flush`. -/
def flush (m : MappedFile D F) (now : ℤ) : MappedFile D F :=
  if m.file.shape.isTrailing then
    match m.flushOneExpBucket now with
    | (true, m₁) => { file := m.file.flush now, table := m₁.table.flushPages }
    | (false, m₁) => m₁
  else { file := m.file.flush now, table := m.table.flushPages }

/-- A call on the file.  The caller of a call that throws goes on with the next. -/
def step (m : MappedFile D F) : PageOp D F → MappedFile D F
  | .rawUpdateBucket now data mode => m.rawUpdateBucket now data mode
  | .bucket now i => (m.writableBucket now i).2
  | .flush now => m.flush now

end MappedFile

/-! ### The invariant of the table -/

/-- Among the first `n` requests, one was refused after the header and three pages had been mapped.
-/
def LateRefusal (g : ℕ → Bool) (n : ℕ) : Prop := ∃ k < n, g k = false ∧ 4 ≤ granted g k

theorem lateRefusal_succ {g : ℕ → Bool} {n : ℕ} :
    LateRefusal g (n + 1) ↔ LateRefusal g n ∨ (g n = false ∧ 4 ≤ granted g n) := by
  constructor
  · rintro ⟨k, hk, h⟩
    rcases Nat.lt_succ_iff_lt_or_eq.1 hk with hk | rfl
    · exact Or.inl ⟨k, hk, h⟩
    · exact Or.inr h
  · rintro (⟨k, hk, h⟩ | h)
    · exact ⟨k, by omega, h⟩
    · exact ⟨n, by omega, h⟩

theorem LateRefusal.mono {g : ℕ → Bool} {n n' : ℕ} (h : LateRefusal g n) (hn : n ≤ n') :
    LateRefusal g n' := by
  obtain ⟨k, hk, hr⟩ := h
  exact ⟨k, by omega, hr⟩

namespace PageTable

/-- The entries are filled in turn, one for each page that was mapped, with mappings of their own;
and the table is safe exactly as long as no page was refused late. -/
structure Tracked (t : PageTable) : Prop where
  turn : ∃ q, granted t.mm.grants t.mm.asked = q + 1 ∧ (t.lruNextPage : ℕ) = q % 3 ∧
    ∀ i, (t.pages i).ptr = none ↔ q ≤ i
  lt : ∀ i h, (t.pages i).ptr = some h → h < t.mm.asked
  distinct : ∀ i j h, (t.pages i).ptr = some h → (t.pages j).ptr = some h → i = j
  header : t.fileHeader ∈ t.mm.live
  header_ne : ∀ i, (t.pages i).ptr ≠ some t.fileHeader
  safe_iff : t.Safe ↔ ¬ LateRefusal t.mm.grants t.mm.asked

theorem openHeader_tracked {grants : ℕ → Bool} {t : PageTable} (h : openHeader grants = some t) :
    t.Tracked := by
  unfold openHeader Pool.acquire at h
  by_cases hg : (Pool.start grants).grants (Pool.start grants).asked = true
  · rw [if_pos hg] at h
    cases h
    have hfirst : granted grants 1 = 1 := by
      rw [granted_succ]
      simp [granted, show grants 0 = true from hg]
    refine ⟨⟨0, hfirst, rfl, fun i => by simp⟩, fun i h hi => (by cases hi),
      fun i j h hi => (by cases hi), by simp, fun i => by simp, ?_⟩
    refine ⟨fun _ => ?_, fun _ => ⟨fun i h hi => (by cases hi), rfl⟩⟩
    rintro ⟨k, hk, hf, -⟩
    obtain rfl : k = 0 := Nat.lt_one_iff.1 hk
    rw [show (Pool.start grants).grants 0 = true from hg] at hf
    cases hf
  · rw [if_neg hg] at h
    cases h

theorem openHeader_grants {grants : ℕ → Bool} {t : PageTable} (h : openHeader grants = some t) :
    t.mm.grants = grants := by
  unfold openHeader Pool.acquire at h
  split_ifs at h
  cases h
  rfl

variable {t : PageTable}

/-- A use of a mapping the table holds. -/
theorem Tracked.use (ht : t.Tracked) {k : ℕ}
    (hk : (∃ i, (t.pages i).ptr = some k) ∨ k = t.fileHeader) :
    Tracked { t with mm := t.mm.use k } := by
  obtain ⟨hturn, hlt, hdist, hheader, hne, hsafe⟩ := ht
  refine ⟨by simpa using hturn, by simpa using hlt, hdist, by simpa using hheader, hne, ?_⟩
  rw [Pool.use_grants, Pool.use_asked, ← hsafe]
  unfold Safe
  simp only [Pool.use_live, Pool.use_misused_eq_nil_iff]
  constructor
  · rintro ⟨hlive, hmis, -⟩
    exact ⟨hlive, hmis⟩
  · rintro ⟨hlive, hmis⟩
    refine ⟨hlive, hmis, ?_⟩
    rcases hk with ⟨i, hi⟩ | rfl
    · exact hlive i k hi
    · exact hheader

/-! A page that is not in the table is asked for, in place of the entry whose turn it is. -/

section Miss

variable {page : ℤ} {toWrite : Bool}

theorem mapSinglePage_granted (hmiss : t.findPage page toWrite = none)
    (hg : t.mm.grants t.mm.asked = true) :
    t.mapSinglePage page toWrite = (some t.mm.asked,
      { t with
        pages := Function.update t.pages t.lruNextPage ⟨some t.mm.asked, page, toWrite⟩
        lruNextPage := t.lruNextPage + 1
        mm := ((t.pages t.lruNextPage).unmap t.mm).acquire.2 }) := by
  unfold mapSinglePage replaceMap
  rw [hmiss]
  rcases ((t.pages t.lruNextPage).unmap t.mm).acquire_cases with ⟨-, ha, -⟩ | ⟨hr, -, -⟩
  · rw [PageEntry.unmap_asked] at ha
    rw [← Prod.eta ((t.pages t.lruNextPage).unmap t.mm).acquire, ha]
  · rw [PageEntry.unmap_asked, PageEntry.unmap_grants, hg] at hr
    cases hr

theorem mapSinglePage_refused (hmiss : t.findPage page toWrite = none)
    (hg : t.mm.grants t.mm.asked = false) :
    t.mapSinglePage page toWrite = (none,
      { t with mm := ((t.pages t.lruNextPage).unmap t.mm).acquire.2 }) := by
  unfold mapSinglePage replaceMap
  rw [hmiss]
  rcases ((t.pages t.lruNextPage).unmap t.mm).acquire_cases with ⟨hr, -, -⟩ | ⟨-, ha, -⟩
  · rw [PageEntry.unmap_asked, PageEntry.unmap_grants, hg] at hr
    cases hr
  · rw [← Prod.eta ((t.pages t.lruNextPage).unmap t.mm).acquire, ha]

/-- What is mapped after the page of the entry was unmapped and a page was asked for. -/
theorem mem_acquire_live_iff {h : ℕ} :
    h ∈ ((t.pages t.lruNextPage).unmap t.mm).acquire.2.live ↔
      (h ∈ t.mm.live ∧ (t.pages t.lruNextPage).ptr ≠ some h) ∨
        (h = t.mm.asked ∧ t.mm.grants t.mm.asked = true) := by
  rcases ((t.pages t.lruNextPage).unmap t.mm).acquire_cases with ⟨hg, -, hl⟩ | ⟨hg, -, hl⟩
  · rw [PageEntry.unmap_asked, PageEntry.unmap_grants] at hg
    rw [hl, Finset.mem_insert, PageEntry.mem_unmap_live_iff, PageEntry.unmap_asked]
    simp only [hg, and_true]
    exact or_comm
  · rw [PageEntry.unmap_asked, PageEntry.unmap_grants] at hg
    rw [hl, PageEntry.mem_unmap_live_iff]
    simp [hg]

/-- The entry whose turn it is has no mapping exactly as long as fewer than three pages have been
mapped. -/
theorem Tracked.turn_null_iff (ht : t.Tracked) :
    (t.pages t.lruNextPage).ptr = none ↔ granted t.mm.grants t.mm.asked < 4 := by
  obtain ⟨q, hq, hlru, hturn⟩ := ht.turn
  rw [hturn, hlru, hq]
  omega

section Granted

variable (hmiss : t.findPage page toWrite = none) (hg : t.mm.grants t.mm.asked = true)

include hmiss hg

/-- The mappings of the entries after a page was granted. -/
theorem granted_ptr_iff {i : Fin 3} {h : ℕ} :
    ((t.mapSinglePage page toWrite).2.pages i).ptr = some h ↔
      (i = t.lruNextPage ∧ h = t.mm.asked) ∨
        (i ≠ t.lruNextPage ∧ (t.pages i).ptr = some h) := by
  rw [mapSinglePage_granted hmiss hg]
  by_cases hi : i = t.lruNextPage
  · simp [hi, eq_comm]
  · simp [hi]

/-- The entry whose turn it was is filled. -/
theorem granted_null_iff {i : Fin 3} :
    ((t.mapSinglePage page toWrite).2.pages i).ptr = none ↔
      i ≠ t.lruNextPage ∧ (t.pages i).ptr = none := by
  rw [mapSinglePage_granted hmiss hg]
  by_cases hi : i = t.lruNextPage
  · simp [hi]
  · simp [hi]

theorem Tracked.granted_turn (ht : t.Tracked) :
    ∃ q, granted t.mm.grants (t.mm.asked + 1) = q + 1 ∧
      ((t.lruNextPage + 1 : Fin 3) : ℕ) = q % 3 ∧
      ∀ i, ((t.mapSinglePage page toWrite).2.pages i).ptr = none ↔ q ≤ i := by
  obtain ⟨q, hq, hlru, hturn⟩ := ht.turn
  refine ⟨q + 1, by simp [granted_succ, hq, hg], ?_, fun i => ?_⟩
  · rw [Fin.val_add, hlru]
    simp
  · rw [granted_null_iff hmiss hg, hturn, ne_eq, Fin.ext_iff, hlru]
    have := i.isLt
    omega

/-- The new mapping is that of no other entry. -/
theorem Tracked.granted_distinct (ht : t.Tracked) {i j : Fin 3} {h : ℕ}
    (hi : ((t.mapSinglePage page toWrite).2.pages i).ptr = some h)
    (hj : ((t.mapSinglePage page toWrite).2.pages j).ptr = some h) : i = j := by
  rcases (granted_ptr_iff hmiss hg).1 hi with ⟨rfl, rfl⟩ | ⟨-, hi⟩
  · rcases (granted_ptr_iff hmiss hg).1 hj with ⟨rfl, -⟩ | ⟨-, hj⟩
    · rfl
    · exact absurd (ht.lt j _ hj) (lt_irrefl _)
  · rcases (granted_ptr_iff hmiss hg).1 hj with ⟨rfl, rfl⟩ | ⟨-, hj⟩
    · exact absurd (ht.lt i _ hi) (lt_irrefl _)
    · exact ht.distinct i j h hi hj

theorem Tracked.granted_header_ne (ht : t.Tracked) (i : Fin 3) :
    ((t.mapSinglePage page toWrite).2.pages i).ptr ≠ some t.fileHeader := by
  intro hi
  rcases (granted_ptr_iff hmiss hg).1 hi with ⟨-, heq⟩ | ⟨-, hi⟩
  · have hlast := t.mm.lt_asked _ ht.header
    omega
  · exact ht.header_ne i hi

/-- The entries that stay have their mappings, and so had the one that was replaced. -/
theorem Tracked.granted_safe_iff (ht : t.Tracked) :
    (t.mapSinglePage page toWrite).2.Safe ↔ t.Safe := by
  unfold Safe
  simp only [granted_ptr_iff hmiss hg]
  rw [mapSinglePage_granted hmiss hg]
  simp only [Pool.acquire_misused, PageEntry.unmap_misused_eq_nil_iff, mem_acquire_live_iff]
  constructor
  · rintro ⟨hlive, hmis, hold⟩
    refine ⟨fun i h hi => ?_, hmis⟩
    by_cases hil : i = t.lruNextPage
    · subst hil
      exact hold h hi
    · rcases hlive i h (Or.inr ⟨hil, hi⟩) with ⟨hl, -⟩ | ⟨rfl, -⟩
      · exact hl
      · exact absurd (ht.lt i _ hi) (lt_irrefl _)
  · rintro ⟨hlive, hmis⟩
    refine ⟨fun i h hi => ?_, hmis, hlive _⟩
    rcases hi with ⟨-, rfl⟩ | ⟨hil, hi⟩
    · exact Or.inr ⟨rfl, hg⟩
    · exact Or.inl ⟨hlive i h hi, fun he => hil (ht.distinct i _ h hi he)⟩

theorem Tracked.granted (ht : t.Tracked) : (t.mapSinglePage page toWrite).2.Tracked := by
  have hpool : (t.mapSinglePage page toWrite).2.mm =
      ((t.pages t.lruNextPage).unmap t.mm).acquire.2 := by rw [mapSinglePage_granted hmiss hg]
  have hgrants : (t.mapSinglePage page toWrite).2.mm.grants = t.mm.grants := by simp [hpool]
  have hasked : (t.mapSinglePage page toWrite).2.mm.asked = t.mm.asked + 1 := by simp [hpool]
  have hnext : (t.mapSinglePage page toWrite).2.lruNextPage = t.lruNextPage + 1 := by
    rw [mapSinglePage_granted hmiss hg]
  have hheader : (t.mapSinglePage page toWrite).2.fileHeader = t.fileHeader := by
    rw [mapSinglePage_granted hmiss hg]
  refine ⟨?_, fun i h hi => ?_, fun i j h => ht.granted_distinct hmiss hg, ?_, ?_, ?_⟩
  · rw [hgrants, hasked, hnext]
    exact ht.granted_turn hmiss hg
  · rw [hasked]
    rcases (granted_ptr_iff hmiss hg).1 hi with ⟨-, rfl⟩ | ⟨-, hi⟩
    · exact Nat.lt_succ_self _
    · exact Nat.lt_succ_of_lt (ht.lt i h hi)
  · rw [hheader, hpool]
    exact mem_acquire_live_iff.2 (Or.inl ⟨ht.header, ht.header_ne _⟩)
  · rw [hheader]
    exact ht.granted_header_ne hmiss hg
  · rw [ht.granted_safe_iff hmiss hg, ht.safe_iff, hgrants, hasked, lateRefusal_succ, hg]
    simp

end Granted

theorem Tracked.refused (ht : t.Tracked) (hmiss : t.findPage page toWrite = none)
    (hg : t.mm.grants t.mm.asked = false) : (t.mapSinglePage page toWrite).2.Tracked := by
  have hnull := ht.turn_null_iff
  obtain ⟨⟨q, hq, hlru, hturn⟩, hlt, hdist, hheader, hne, hsafe⟩ := ht
  rw [mapSinglePage_refused hmiss hg]
  refine ⟨⟨q, ?_, hlru, hturn⟩, fun i h hi => ?_, hdist, ?_, hne, ?_⟩
  · simp [granted_succ, hq, hg]
  · have := hlt i h hi
    simp
    omega
  · exact mem_acquire_live_iff.2 (Or.inl ⟨hheader, hne _⟩)
  · simp only [Pool.acquire_grants, Pool.acquire_asked, PageEntry.unmap_grants,
      PageEntry.unmap_asked, lateRefusal_succ, hg, true_and, not_or, ← hsafe]
    unfold Safe
    simp only [Pool.acquire_misused, PageEntry.unmap_misused_eq_nil_iff, mem_acquire_live_iff, hg]
    rw [not_le, ← hnull]
    constructor
    · -- an entry that was unmapped is still in the table
      rintro ⟨hlive, hmis, hold⟩
      refine ⟨⟨fun i h hi => ?_, hmis⟩, ?_⟩
      · rcases hlive i h hi with ⟨hl, -⟩ | ⟨-, hf⟩
        · exact hl
        · cases hf
      · by_contra hsome
        obtain ⟨h, hh⟩ := Option.ne_none_iff_exists'.1 hsome
        rcases hlive _ h hh with ⟨-, hl⟩ | ⟨-, hf⟩
        · exact hl hh
        · cases hf
    · rintro ⟨⟨hlive, hmis⟩, hnone⟩
      refine ⟨fun i h hi => Or.inl ⟨hlive i h hi, ?_⟩, hmis, fun h hh => ?_⟩
      · rw [hnone]
        exact fun he => by cases he
      · rw [hnone] at hh
        cases hh

end Miss

theorem findPage_mem {page : ℤ} {toWrite : Bool} {h : ℕ} (hf : t.findPage page toWrite = some h) :
    ∃ i, (t.pages i).ptr = some h := by
  unfold findPage at hf
  obtain ⟨i, -, hi⟩ := Option.bind_eq_some_iff.1 hf
  exact ⟨i, hi⟩

/-- **One lookup** keeps the invariant, whatever the answer to its request. -/
theorem Tracked.mapSinglePage (ht : t.Tracked) (page : ℤ) (toWrite : Bool) :
    (t.mapSinglePage page toWrite).2.Tracked := by
  cases hf : t.findPage page toWrite with
  | some h =>
    unfold PageTable.mapSinglePage
    rw [hf]
    exact ht.use (Or.inl (findPage_mem hf))
  | none =>
    cases hg : t.mm.grants t.mm.asked with
    | true => exact ht.granted hf hg
    | false => exact ht.refused hf hg

/-- What every call does to the table: it may make requests, and it keeps the invariant. -/
structure Follows (t t' : PageTable) : Prop where
  grants : t'.mm.grants = t.mm.grants
  asked : t.mm.asked ≤ t'.mm.asked
  tracked : t.Tracked → t'.Tracked

theorem Follows.refl (t : PageTable) : t.Follows t := ⟨rfl, le_rfl, id⟩

theorem Follows.trans {t₁ t₂ t₃ : PageTable} (h₁ : t₁.Follows t₂) (h₂ : t₂.Follows t₃) :
    t₁.Follows t₃ :=
  ⟨h₂.grants.trans h₁.grants, h₁.asked.trans h₂.asked, fun h => h₂.tracked (h₁.tracked h)⟩

theorem mapSinglePage_follows (t : PageTable) (page : ℤ) (toWrite : Bool) :
    t.Follows (t.mapSinglePage page toWrite).2 := by
  refine ⟨?_, ?_, fun h => h.mapSinglePage page toWrite⟩
  all_goals
    cases hf : t.findPage page toWrite with
    | some h => simp [mapSinglePage, hf]
    | none =>
      cases hg : t.mm.grants t.mm.asked with
      | true => simp [mapSinglePage_granted hf hg]
      | false => simp [mapSinglePage_refused hf hg]

theorem flush_follows (t : PageTable) (i : Fin 3) :
    t.Follows { t with mm := (t.pages i).flush t.mm } := by
  unfold PageEntry.flush
  split
  · rename_i h hh
    exact ⟨by simp, by simp, fun ht => ht.use (Or.inl ⟨i, hh⟩)⟩
  · exact Follows.refl t

theorem flushAll_follows (t : PageTable) (l : List (Fin 3)) :
    t.Follows { t with mm := l.foldl (fun mm i => (t.pages i).flush mm) t.mm } := by
  induction l generalizing t with
  | nil => exact Follows.refl t
  | cons i l ih =>
    exact (t.flush_follows i).trans (ih { t with mm := (t.pages i).flush t.mm })

theorem flushPages_follows (t : PageTable) : t.Follows t.flushPages := by
  have hheader : t.Follows { t with mm := t.mm.use t.fileHeader } :=
    ⟨by simp, by simp, fun ht => ht.use (Or.inr rfl)⟩
  exact hheader.trans (flushAll_follows { t with mm := t.mm.use t.fileHeader } (List.finRange 3))

/-- **The destructor** of a safe table unmaps every mapping once. -/
theorem Tracked.destroy (ht : t.Tracked) (hs : t.Safe) : t.destroy.misused = [] := by
  obtain ⟨hlive, hmis⟩ := hs
  -- the entries that are still to be unmapped, and the header, are mapped
  have key : ∀ (l : List (Fin 3)) (mm : Pool), l.Nodup → mm.misused = [] →
      (∀ i ∈ l, ∀ h, (t.pages i).ptr = some h → h ∈ mm.live) → t.fileHeader ∈ mm.live →
      ((l.foldl (fun mm i => (t.pages i).unmap mm) mm).release t.fileHeader).misused = [] := by
    intro l
    induction l with
    | nil =>
      intro mm _ hm _ hh
      exact Pool.release_misused_eq_nil_iff.2 ⟨hm, hh⟩
    | cons i l ih =>
      intro mm hnd hm hl hh
      obtain ⟨hil, hnd⟩ := List.nodup_cons.1 hnd
      refine ih _ hnd ?_ (fun j hj h hjh => ?_) ?_
      · exact ((t.pages i).unmap_misused_eq_nil_iff mm).2 ⟨hm, hl i List.mem_cons_self⟩
      · refine ((t.pages i).mem_unmap_live_iff mm).2 ⟨hl j (List.mem_cons_of_mem _ hj) h hjh, ?_⟩
        intro hih
        exact hil (ht.distinct i j h hih hjh ▸ hj)
      · exact ((t.pages i).mem_unmap_live_iff mm).2 ⟨hh, ht.header_ne i⟩
  exact key _ _ (List.nodup_finRange 3) hmis (fun i _ => hlive i) ht.header

end PageTable

namespace MappedFile

open PageTable (Follows)

variable {D F : Type} (m : MappedFile D F) (now : ℤ)

theorem writableBucket_follows (i : ℤ) : m.table.Follows (m.writableBucket now i).2.table := by
  have h := m.table.mapSinglePage_follows (m.file.shape.mapBucketPage
    ((m.file.mapBucketIndexToFileIndex now i).tdiv m.file.shape.bucketsPerPage)) true
  unfold writableBucket
  simp only
  split <;> (rename_i heq; rw [heq] at h; exact h)

variable [FloatArith D F]

theorem flushOneExpBucket_follows : m.table.Follows (m.flushOneExpBucket now).2.table := by
  unfold flushOneExpBucket
  simp only
  split_ifs
  · have h₁ := m.writableBucket_follows now
      (m.file.shape.mapTimeToBucketIndex (m.file.expBucket 0).time false)
    split
    · rename_i heq
      rw [heq] at h₁
      exact h₁
    · rename_i k m₁ heq
      rw [heq] at h₁
      have h₂ := m₁.writableBucket_follows now (m.file.shape.mapTimeToBucketIndex
        ((m.file.expBucket 0).time - m.file.shape.season) false)
      split <;> (rename_i heq₂; rw [heq₂] at h₂; exact h₁.trans h₂)
  · exact Follows.refl _

theorem rawUpdateBucket_follows (data : Bucket D F) (mode : RawUpdateMode) :
    m.table.Follows (m.rawUpdateBucket now data mode).table := by
  unfold rawUpdateBucket
  simp only
  split_ifs
  · exact Follows.refl _
  · exact Follows.refl _
  · have h := flushOneExpBucket_follows ⟨m.file.moved (m.file.target data)
      (m.file.shape.targetBucketTime data.time), m.table⟩ now
    split <;> (rename_i heq; rw [heq] at h; exact h)
  · have h := writableBucket_follows ⟨m.file.moved (m.file.target data)
      (m.file.shape.targetBucketTime data.time), m.table⟩ now (m.file.target data)
    split <;> (rename_i heq; rw [heq] at h; exact h)

theorem flush_follows : m.table.Follows (m.flush now).table := by
  unfold flush
  split_ifs
  · have h := m.flushOneExpBucket_follows now
    split
    · rename_i m₁ heq
      rw [heq] at h
      exact h.trans m₁.table.flushPages_follows
    · rename_i heq
      rw [heq] at h
      exact h
  · exact m.table.flushPages_follows

/-- One call. -/
theorem step_follows (op : PageOp D F) : m.table.Follows (m.step op).table := by
  cases op with
  | rawUpdateBucket now data mode => exact m.rawUpdateBucket_follows now data mode
  | bucket now i => exact m.writableBucket_follows now i
  | flush now => exact m.flush_follows now

/-- A run of calls. -/
theorem run_follows (ops : List (PageOp D F)) : m.table.Follows (ops.foldl step m).table := by
  induction ops generalizing m with
  | nil => exact Follows.refl _
  | cons op ops ih => exact (m.step_follows op).trans (ih (m.step op))

/-- **Mappings under failure, and the runs that are safe.**  For every file, whatever its header
says, every run of calls of which any may throw because `Mmap::map` returned 0, and the destructor
after it: in all states of the run every entry of `pages` refers to a mapping that is there, no
pointer to an unmapped page was returned and no mapping was unmapped twice, if and only if no call
of `Mmap::map` that the run made returned 0 after the header and three pages had been mapped. -/
theorem mappings_safe_iff {grants : ℕ → Bool} {t : PageTable}
    (hopen : PageTable.openHeader grants = some t) (f : StatFile D F) (ops : List (PageOp D F)) :
    let m := ops.foldl step ⟨f, t⟩
    (Run.Always step (fun m => m.table.Safe) ⟨f, t⟩ ops ∧ m.table.destroy.misused = []) ↔
      ¬ LateRefusal grants m.table.mm.asked := by
  intro m
  have ht := PageTable.openHeader_tracked hopen
  have hgrants := PageTable.openHeader_grants hopen
  have hsafe : ∀ l : List (PageOp D F), (l.foldl step ⟨f, t⟩).table.Safe ↔
      ¬ LateRefusal grants (l.foldl step ⟨f, t⟩).table.mm.asked := by
    intro l
    have hl := run_follows ⟨f, t⟩ l
    rw [(hl.tracked ht).safe_iff, hl.grants, hgrants]
  constructor
  · rintro ⟨halways, -⟩
    exact (hsafe ops).1 (halways ops (List.prefix_refl _))
  · intro hlate
    refine ⟨fun l hl => (hsafe l).2 fun hcon => hlate ?_, ?_⟩
    · obtain ⟨rest, rfl⟩ := hl
      have hrest := run_follows (l.foldl step ⟨f, t⟩) rest
      rw [← List.foldl_append] at hrest
      exact hcon.mono hrest.asked
    · exact ((run_follows ⟨f, t⟩ ops).tracked ht).destroy ((hsafe ops).2 hlate)

end MappedFile

/-- A file like `sampleFile` with five pages of buckets. -/
def wideFile : StatFile ℚ ℚ :=
  StatFile.ofDisk ⟨newShape 4096 100 10 { sampleSettings with numSamples := 1280 },
    newHeader ℚ 100, fun _ _ => Bucket.zero⟩

/-- Updates on its first four pages in turn. -/
def fourPages : List (PageOp ℚ ℚ) :=
  [.rawUpdateBucket 0 (Bucket.blank 1 100) .aggregate,
    .rawUpdateBucket 0 (Bucket.blank 1 2660) .aggregate,
    .rawUpdateBucket 0 (Bucket.blank 1 5220) .aggregate,
    .rawUpdateBucket 0 (Bucket.blank 1 7780) .aggregate]

/-- The mappings of a file just opened, with the header as mapping 0. -/
def headerTable (grants : ℕ → Bool) : PageTable where
  pages _ := ⟨none, 0, false⟩
  lruNextPage := 0
  fileHeader := 0
  mm := ((Handles.Pool.start grants).acquire).2

/-- The second page is refused: its update throws, and the run is safe. -/
theorem mappings_safe_sample :
    Run.Always MappedFile.step (fun m => m.table.Safe)
        ⟨wideFile, headerTable fun n => n ≠ 2⟩ fourPages ∧
      (fourPages.foldl MappedFile.step
        ⟨wideFile, headerTable fun n => n ≠ 2⟩).table.destroy.misused = [] :=
  (MappedFile.mappings_safe_iff (show PageTable.openHeader (fun n => n ≠ 2) =
    some (headerTable fun n => n ≠ 2) from rfl) wideFile fourPages).2
    (by unfold LateRefusal; decide +kernel)

/-- The fourth page is refused: the entry of the first page keeps the mapping that was unmapped for
it, and the destructor unmaps that again. -/
theorem mappings_safe_refused :
    ¬ Run.Always MappedFile.step (fun m => m.table.Safe)
        ⟨wideFile, headerTable fun n => n ≠ 4⟩ fourPages ∧
      (fourPages.foldl MappedFile.step
        ⟨wideFile, headerTable fun n => n ≠ 4⟩).table.destroy.misused = [1] := by
  refine ⟨fun h => ?_, by decide +kernel⟩
  have hlive := (h fourPages (List.prefix_refl _)).1 0 1 (by decide +kernel)
  exact absurd hlive (by decide +kernel)

end Istatd
