import Istatd.Header

/-!
# Opening an existing file (`StatFile::open`)

What `StatFile::open` does to the bytes of a file that exists and is not empty.  The header is read
from the first bytes of the file into memory of its own, and the size the file should have is
computed from it; a file of another size is resized; only then is the header checked.  The header in
memory is written back when the file is flushed or closed, and not if `open` throws.

* `RawHeader.ofMemory`: the header as the code finds it in memory;
* `openExisting`: the outcome of the call and the bytes after it;
* `keepsData_iff`: the files that survive the call.
-/

namespace Istatd

/-- The unsigned integer in `width` bytes of memory, least significant byte first. -/
def readLE (mem : ℕ → UInt8) (off width : ℕ) : ℕ :=
  Nat.ofDigits 256 ((List.range width).map fun k => (mem (off + k)).toNat)

/-- An `int32_t` and an `int64_t` in memory. -/
def readInt32 (mem : ℕ → UInt8) (off : ℕ) : ℤ := (readLE mem off 4 : ℤ).bmod (2 ^ 32)
@[inherit_doc readInt32]
def readInt64 (mem : ℕ → UInt8) (off : ℕ) : ℤ := (readLE mem off 8 : ℤ).bmod (2 ^ 64)

/-- `CUR_HDR_VERSION`. -/
def curHdrVersion : ℤ := 8

/-- `sizeof(Header)`. -/
def sizeofHeader : ℕ := 464

/-- `file_magic`: `istatd 4.0`, a newline and five more bytes. -/
def fileMagic : List UInt8 :=
  [105, 115, 116, 97, 116, 100, 32, 52, 46, 48, 10, 0, 245, 20, 7, 0]

/-- The fields of a header that `open` reads.  The lambda, the unit and the name are left out. -/
structure RawHeader where
  magic : List UInt8
  hdrSize : ℤ
  cfgInterval : ℤ
  flags : ℤ
  crVersion : ℤ
  rdVersion : ℤ
  pageSize : ℤ
  pageCount : ℤ
  season : ℤ
  fixedCount : ℤ

namespace RawHeader

/-- The fields at their offsets in `Header8`. -/
def ofMemory (mem : ℕ → UInt8) : RawHeader where
  magic := (List.range 16).map mem
  hdrSize := readInt32 mem 16
  cfgInterval := readInt32 mem 20
  flags := readInt32 mem 24
  crVersion := readInt32 mem 28
  rdVersion := readInt32 mem 32
  pageSize := readInt64 mem 40
  pageCount := readInt64 mem 48
  season := readLE mem 448 8
  fixedCount := readInt64 mem 456

/-- `wantFileSize`, a `size_t`. -/
def wantFileSize (hdr : RawHeader) : ℕ := (hdr.pageSize * (hdr.pageCount + 1) % 2 ^ 64).toNat

/-- The checks of `open`, in their order: the text of the first that fails. -/
def check (hdr : RawHeader) (sysPageSize : ℤ) (path : String) : Option String :=
  if hdr.magic ≠ fileMagic then some ("Not an istat file: " ++ path)
  else if curHdrVersion < hdr.rdVersion then some ("File version is too new: " ++ path)
  else if hdr.pageSize < sysPageSize then some ("Page size inconsistent: " ++ path)
  else if hdr.hdrSize ≠ sizeofHeader ∧ hdr.crVersion = curHdrVersion then
    some ("Header size changed within the current version! " ++ path ++ "header version" ++
      toString curHdrVersion ++ "size" ++ toString hdr.hdrSize ++ "expected" ++
      toString sizeofHeader)
  else none

/-- `StatFile::refreshHeader`, on the header in memory. -/
def refresh (hdr : RawHeader) : RawHeader :=
  let hdr := if hdr.crVersion < 5 then { hdr with season := 60 * 60 * 24, crVersion := 5 } else hdr
  if hdr.crVersion < 7 then { hdr with crVersion := 7 } else hdr

end RawHeader

/-- What the call finds outside the program: whether the file can be opened and its header mapped,
the sizes the file system accepts, and what the memory for the header held before. -/
structure OpenEnv where
  sysPageSize : ℤ
  openOk : Bool
  strerror : String
  mapOk : Bool
  ftruncateOk : ℕ → Bool
  heap : ℕ → UInt8

/-- The bytes of a file that exists and is not empty. -/
structure ExistingFile where
  bytes : List UInt8
  ne_nil : bytes ≠ []
  length_lt : bytes.length < 2 ^ 63

/-- `ftruncate` to a size of type `off_t`, on a descriptor that may be read-only.  It fails or makes
the file this long.  (`posix_fallocate`, which `Mmap::truncate` may call after it, changes no byte
and returns no negative value.) -/
def OpenEnv.truncate (env : OpenEnv) (writable : Bool) (bytes : List UInt8) (size : ℕ) :
    Option (List UInt8) :=
  if writable ∧ size < 2 ^ 63 ∧ env.ftruncateOk size then
    some (bytes.take size ++ List.replicate (size - bytes.length) 0)
  else none

/-- The header as `Mmap::map` reads it: what the file is too short for stays as it was in memory. -/
def OpenEnv.mapHeader (env : OpenEnv) (bytes : List UInt8) : RawHeader :=
  RawHeader.ofMemory fun k => bytes.getD k (env.heap k)

/-- `StatFile::open` of a file that is not empty, without `forceCreate`: the header of the open file
or the text of the exception, and the bytes of the file. -/
def openExisting (env : OpenEnv) (path : String) (forUpdate : Bool) (file : ExistingFile) :
    Except String RawHeader × List UInt8 :=
  if ¬ env.openOk then (.error ("Could not open: " ++ path ++ ": " ++ env.strerror), file.bytes)
  else if ¬ env.mapOk then (.error ("Could not map header: " ++ path), file.bytes)
  else
    let hdr := env.mapHeader file.bytes
    let wantFileSize := hdr.wantFileSize
    -- `wantFileSize - off` is unsigned: it is zero or positive
    let resized :=
      if 0 < ((wantFileSize : ℤ) - file.bytes.length) % 2 ^ 64 then
        env.truncate forUpdate file.bytes wantFileSize
      else some file.bytes
    match resized with
    | none => (.error ("Could not extend " ++ path ++ " to " ++ toString wantFileSize ++ " bytes"),
        file.bytes)
    | some bytes =>
      match hdr.check env.sysPageSize path with
      | some text => (.error text, bytes)
      | none => (.ok (if hdr.crVersion < curHdrVersion then hdr.refresh else hdr), bytes)

/-- The file is not shorter after the call, and if the call throws it is what it was. -/
def KeepsData (env : OpenEnv) (path : String) (forUpdate : Bool) (file : ExistingFile) : Prop :=
  file.bytes.length ≤ (openExisting env path forUpdate file).2.length ∧
    ∀ text, (openExisting env path forUpdate file).1 = .error text →
      (openExisting env path forUpdate file).2 = file.bytes

theorem RawHeader.wantFileSize_lt (hdr : RawHeader) : hdr.wantFileSize < 2 ^ 64 := by
  have h1 := Int.emod_nonneg (hdr.pageSize * (hdr.pageCount + 1)) (b := 2 ^ 64) (by norm_num)
  have h2 := Int.emod_lt_of_pos (hdr.pageSize * (hdr.pageCount + 1)) (b := 2 ^ 64) (by norm_num)
  unfold wantFileSize
  omega

/-- The test before the resizing is true of every size but the wanted one. -/
theorem ExistingFile.resizes_iff (file : ExistingFile) (hdr : RawHeader) :
    0 < ((hdr.wantFileSize : ℤ) - file.bytes.length) % 2 ^ 64 ↔
      hdr.wantFileSize ≠ file.bytes.length := by
  have h1 := hdr.wantFileSize_lt
  have h2 := file.length_lt
  omega

/-- The length of a file after a resizing. -/
theorem OpenEnv.truncate_length {env : OpenEnv} {writable : Bool} {bytes bytes' : List UInt8}
    {size : ℕ} (h : env.truncate writable bytes size = some bytes') : bytes'.length = size := by
  unfold truncate at h
  split_ifs at h
  cases h
  simp
  omega

/-- The resizing is refused by a read-only descriptor, for a size that is negative as an `off_t`,
and where the file system says so. -/
def OpenEnv.Refuses (env : OpenEnv) (forUpdate : Bool) (size : ℕ) : Prop :=
  forUpdate = false ∨ 2 ^ 63 ≤ size ∨ env.ftruncateOk size = false

theorem OpenEnv.truncate_eq_none_iff {env : OpenEnv} {forUpdate : Bool} {bytes : List UInt8}
    {size : ℕ} : env.truncate forUpdate bytes size = none ↔ env.Refuses forUpdate size := by
  unfold truncate Refuses
  cases forUpdate <;> cases env.ftruncateOk size <;> simp

/-- The file is open and its header mapped, so that its size is looked at. -/
theorem openExisting_of_mapped {env : OpenEnv} (path : String) (forUpdate : Bool)
    (file : ExistingFile) (ho : env.openOk = true) (hm : env.mapOk = true) :
    openExisting env path forUpdate file =
      match (if (env.mapHeader file.bytes).wantFileSize ≠ file.bytes.length then
          env.truncate forUpdate file.bytes (env.mapHeader file.bytes).wantFileSize
        else some file.bytes) with
      | none => (.error ("Could not extend " ++ path ++ " to " ++
          toString (env.mapHeader file.bytes).wantFileSize ++ " bytes"), file.bytes)
      | some bytes =>
        match (env.mapHeader file.bytes).check env.sysPageSize path with
        | some text => (.error text, bytes)
        | none => (.ok (if (env.mapHeader file.bytes).crVersion < curHdrVersion then
            (env.mapHeader file.bytes).refresh else env.mapHeader file.bytes), bytes) := by
  unfold openExisting
  rw [if_neg (by simp [ho]), if_neg (by simp [hm])]
  simp only [file.resizes_iff]

/-- Once the file has the size that was computed, it has kept its bytes if it was shorter and its
header passes all checks. -/
theorem keepsData_iff_of_truncate {env : OpenEnv} (path : String) {forUpdate : Bool}
    {file : ExistingFile} {bytes : List UInt8} (ho : env.openOk = true) (hm : env.mapOk = true)
    (hsize : (env.mapHeader file.bytes).wantFileSize ≠ file.bytes.length)
    (htr : env.truncate forUpdate file.bytes (env.mapHeader file.bytes).wantFileSize = some bytes) :
    KeepsData env path forUpdate file ↔
      file.bytes.length < (env.mapHeader file.bytes).wantFileSize ∧
        (env.mapHeader file.bytes).check env.sysPageSize path = none := by
  have hlen := OpenEnv.truncate_length htr
  have hopen := openExisting_of_mapped path forUpdate file ho hm
  rw [if_pos hsize, htr] at hopen
  cases hc : (env.mapHeader file.bytes).check env.sysPageSize path with
  | some text =>
    rw [hc] at hopen
    simp only [reduceCtorEq, and_false, iff_false]
    intro hk
    have hsame : bytes = file.bytes := by
      have hthrow := hk.2 text (by rw [hopen])
      rwa [hopen] at hthrow
    exact hsize (by rw [← hlen, hsame])
  | none =>
    rw [hc] at hopen
    simp only [and_true]
    constructor
    · intro hk
      have := hk.1
      rw [hopen, hlen] at this
      omega
    · intro hlt
      refine ⟨by rw [hopen, hlen]; exact hlt.le, fun text ht => ?_⟩
      rw [hopen] at ht
      cases ht

/-- **Opening, and the files that survive it.**  For every file that exists and is not empty, and
every call of `open` on it without `forceCreate`, the file is not shorter after the call, and is
unchanged if the call throws, if and only if

* the size computed from its first bytes is the size it has; or
* the call gets no further than mapping the header; or
* the file cannot be resized to the computed size; or
* it is shorter than that, and its header passes all checks.
-/
theorem keepsData_iff (env : OpenEnv) (path : String) (forUpdate : Bool) (file : ExistingFile) :
    KeepsData env path forUpdate file ↔
      (env.mapHeader file.bytes).wantFileSize = file.bytes.length ∨
        (env.openOk = false ∨ env.mapOk = false) ∨
        env.Refuses forUpdate (env.mapHeader file.bytes).wantFileSize ∨
        (file.bytes.length < (env.mapHeader file.bytes).wantFileSize ∧
          (env.mapHeader file.bytes).check env.sysPageSize path = none) := by
  have hkeep : (openExisting env path forUpdate file).2 = file.bytes →
      KeepsData env path forUpdate file := fun h => ⟨by rw [h], fun _ _ => h⟩
  by_cases ho : env.openOk = true
  swap
  · have : openExisting env path forUpdate file = _ := if_pos ho
    exact ⟨fun _ => Or.inr (Or.inl (Or.inl (Bool.eq_false_iff.2 ho))),
      fun _ => hkeep (by rw [this])⟩
  by_cases hm : env.mapOk = true
  swap
  · have : openExisting env path forUpdate file = _ := (if_neg (by simp [ho])).trans (if_pos hm)
    exact ⟨fun _ => Or.inr (Or.inl (Or.inr (Bool.eq_false_iff.2 hm))),
      fun _ => hkeep (by rw [this])⟩
  have hopen := openExisting_of_mapped path forUpdate file ho hm
  rcases eq_or_ne (env.mapHeader file.bytes).wantFileSize file.bytes.length with hsize | hsize
  · refine ⟨fun _ => Or.inl hsize, fun _ => hkeep ?_⟩
    simp only [hsize, ne_eq, not_true_eq_false, if_false] at hopen
    rw [hopen]
    split <;> rfl
  cases htr : env.truncate forUpdate file.bytes (env.mapHeader file.bytes).wantFileSize with
  | none =>
    refine ⟨fun _ => Or.inr (Or.inr (Or.inl (OpenEnv.truncate_eq_none_iff.1 htr))), fun _ =>
      hkeep ?_⟩
    rw [if_pos hsize, htr] at hopen
    rw [hopen]
  | some bytes =>
    have hnot : ¬ env.Refuses forUpdate (env.mapHeader file.bytes).wantFileSize := by
      intro hrefuses
      rw [OpenEnv.truncate_eq_none_iff.2 hrefuses] at htr
      cases htr
    simp only [hsize, ho, hm, hnot, Bool.true_eq_false, or_self, false_or]
    exact keepsData_iff_of_truncate path ho hm hsize htr

/-- An ordinary file system, and memory that was zero. -/
def plainEnv : OpenEnv where
  sysPageSize := 4096
  openOk := true
  strerror := "Success"
  mapOk := true
  ftruncateOk _ := true
  heap _ := 0

/-- A file of 464 zero bytes. -/
def zeroFile : ExistingFile where
  bytes := List.replicate sizeofHeader 0
  ne_nil := by decide
  length_lt := by rw [List.length_replicate]; decide

/-- It is cut to length zero before its magic is looked at. -/
theorem keepsData_zeroFile :
    (openExisting plainEnv "x" true zeroFile).2 = [] ∧ ¬ KeepsData plainEnv "x" true zeroFile := by
  have hcut : (openExisting plainEnv "x" true zeroFile).2 = [] := by decide +kernel
  refine ⟨hcut, fun h => ?_⟩
  have hlen := h.1
  rw [hcut] at hlen
  exact absurd hlen (by decide +kernel)

end Istatd
