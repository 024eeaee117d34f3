import Istatd.Lib.WriteBack

/-!
# The page cache of a counter file (`StatFile::pages`, `lib/Mmap.cpp`)

`Mmap` is built in its blocking variant: `map` reads a page of the file into memory of its own,
`unmap` and `flush` write that memory back.  A `StatFile` keeps up to three such pages in the array
`pages` and replaces them in turn (`lruNextPage_`); page 0 of the file is the header, so bucket
pages count from 1.

The array is a write-back cache whose lines hold a page number and the page's cells, indexed by
their offset.  Every access maps its page for writing, so the `writable` mark of an entry is not
modelled; mappings are taken to succeed.

A pointer into a page stays good while its line holds that page.  `load` and `assign` check this: a
write through a pointer whose page has been unmapped since reaches no file.
-/

namespace Istatd

/-- The indices of `pages`, and of the pending buckets of a file, are numerals of `Fin 3`. -/
instance neZero_three : NeZero 3 := ⟨by decide⟩

/-- `pages` and `lruNextPage_`, with the file behind them. -/
structure PageCache (β : Type) where
  store : WriteBack.Store 3 ℤ (ℤ → β)
  lruNextPage : Fin 3

/-- A pointer into a mapped page. -/
structure BucketPtr where
  line : Fin 3
  page : ℤ
  off : ℤ
  deriving DecidableEq

namespace PageCache

open WriteBack.Store (find?_eq_none_iff find?_eq_some_iff evict evict_view evict_line_of_line
  load_view view_of_line view_of_uncached modify_view)

variable {β : Type}

/-- A file just opened: nothing is mapped. -/
def ofDisk (disk : ℤ → ℤ → β) : PageCache β where
  store := { disk := disk, line := fun _ => none, distinct := fun h => by cases h }
  lruNextPage := 0

/-- The contents of a page as a reader of the open file sees them. -/
def view (c : PageCache β) (page : ℤ) : ℤ → β := c.store.view page

/-- `StatFile::replaceMap`: unmap what line `i` holds and map a page there. -/
def replaceMap (c : PageCache β) (i : Fin 3) (page : ℤ) (h : c.store.find? page = none) :
    PageCache β :=
  { c with
    store := (c.store.evict i).load i page fun j v hj =>
      find?_eq_none_iff.1 h j v (evict_line_of_line hj) }

/-- `StatFile::mapSinglePage`: the line that holds a page, which is mapped if none does. -/
def mapSinglePage (c : PageCache β) (page : ℤ) : Fin 3 × PageCache β :=
  match h : c.store.find? page with
  | some i => (i, c)
  | none => (c.lruNextPage,
      { c.replaceMap c.lruNextPage page h with lruNextPage := c.lruNextPage + 1 })

/-- The cell a pointer points to, if its page is still mapped. -/
def load (c : PageCache β) (p : BucketPtr) : Option β :=
  match c.store.line p.line with
  | some (page, cells) => if page = p.page then some (cells p.off) else none
  | none => none

/-- The cell a pointer points to assigned, if its page is still mapped. -/
def assign (c : PageCache β) (p : BucketPtr) (b : β) : PageCache β :=
  match c.store.line p.line with
  | some (page, _) =>
      if page = p.page then
        { c with store := c.store.modify p.line fun cells => Function.update cells p.off b }
      else c
  | none => c

/-- The pages of `StatFile::flush`: every mapped page is written to the file and stays mapped. -/
def flush (c : PageCache β) : PageCache β :=
  { c with store := ((c.store.flush 0).flush 1).flush 2 }

/-- The pages of `StatFile::~StatFile`: every mapped page is unmapped, which writes it. -/
def close (c : PageCache β) : PageCache β := ofDisk (((c.store.evict 0).evict 1).evict 2).disk

/-! ### What the operations show -/

variable (c : PageCache β)

@[simp] theorem ofDisk_view (disk : ℤ → ℤ → β) (page : ℤ) : (ofDisk disk).view page = disk page :=
  view_of_uncached fun _ _ h => by cases h

theorem mapSinglePage_view (page q : ℤ) : (c.mapSinglePage page).2.view q = c.view q := by
  unfold mapSinglePage
  split
  · rfl
  · simp only [view, replaceMap]
    rw [load_view _ _ _ _ (by simp [evict]), evict_view]

/-- After the call, its line holds the page as it was seen before. -/
theorem mapSinglePage_line (page : ℤ) :
    (c.mapSinglePage page).2.store.line (c.mapSinglePage page).1 = some (page, c.view page) := by
  unfold mapSinglePage
  split
  · rename_i i hi
    obtain ⟨v, hv⟩ := find?_eq_some_iff.1 hi
    simp only [view]
    rw [view_of_line hv, hv]
  · rename_i hnone
    have hun : ∀ j v, (c.store.evict c.lruNextPage).line j ≠ some (page, v) :=
      fun j v hj => find?_eq_none_iff.1 hnone j v (evict_line_of_line hj)
    simp only [replaceMap, WriteBack.Store.load, Function.update_self, view]
    rw [← evict_view c.store c.lruNextPage page,
      view_of_uncached hun]

/-- A call replaces the contents of one line at most, and none if the page is mapped already. -/
theorem mapSinglePage_line_of_ne {i : Fin 3} {page : ℤ}
    (h : i = c.lruNextPage → c.store.find? page ≠ none) :
    (c.mapSinglePage page).2.store.line i = c.store.line i := by
  unfold mapSinglePage
  split
  · rfl
  · rename_i hnone
    have hi : i ≠ c.lruNextPage := fun he => h he hnone
    simp [replaceMap, WriteBack.Store.load, evict, Function.update_of_ne hi]

/-- A page that has just been looked up is still mapped after the lookup of another page `q`, unless
it was found in the line that is next to be replaced and `q` is not mapped. -/
theorem mapSinglePage_mapSinglePage_line (page q : ℤ)
    (h : c.store.find? page = some c.lruNextPage → c.store.find? q ≠ none) :
    ((c.mapSinglePage page).2.mapSinglePage q).2.store.line (c.mapSinglePage page).1 =
      some (page, c.view page) := by
  rw [mapSinglePage_line_of_ne, mapSinglePage_line]
  unfold mapSinglePage
  split
  · rename_i i hi
    intro he
    exact h (by rw [hi]; exact congrArg some he)
  · -- the page was mapped just now, so another line is next
    intro he
    exfalso
    revert he
    show c.lruNextPage ≠ c.lruNextPage + 1
    generalize c.lruNextPage = l
    revert l
    decide

variable {c} {p : BucketPtr} {cells : ℤ → β}

theorem load_of_line (h : c.store.line p.line = some (p.page, cells)) :
    c.load p = some (cells p.off) := by
  unfold load
  rw [h]
  simp

/-- An assignment through a good pointer changes that cell of the view and nothing else. -/
theorem assign_view (h : c.store.line p.line = some (p.page, cells)) (b : β) (page : ℤ) :
    (c.assign p b).view page =
      if page = p.page then Function.update (c.view page) p.off b else c.view page := by
  have hcells : c.view p.page = cells := view_of_line h
  unfold assign
  rw [h]
  simp only [if_true, view]
  rw [modify_view h]
  by_cases hp : page = p.page
  · subst hp
    rw [Function.update_self, if_pos rfl, ← hcells]
    rfl
  · rw [Function.update_of_ne hp, if_neg hp]

variable (c)

@[simp] theorem flush_view (page : ℤ) : c.flush.view page = c.view page := by
  unfold flush view
  simp only [WriteBack.Store.flush_view]

@[simp] theorem close_view (page : ℤ) : c.close.view page = c.view page := by
  have hfree : ∀ j v, (((c.store.evict 0).evict 1).evict 2).line j ≠ some (page, v) := by
    intro j v
    fin_cases j <;> simp [evict]
  unfold close
  rw [ofDisk_view, ← view_of_uncached hfree]
  simp only [evict_view]
  rfl

end PageCache

end Istatd
