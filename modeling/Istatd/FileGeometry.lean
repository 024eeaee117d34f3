import Mathlib.Data.List.GetD
import Istatd.Lib.LittleEndian
import Istatd.OpenFile

/-!
# The size of a new file (`StatFile::writeNewHeader`, `StatFile::open`)

`writeNewHeader` computes the number of pages, makes the file that long and writes the header in
front of it.  `open` computes the length and the number of buckets once more, from the bytes that it
finds.

* `headerFields`: the header as it is written;
* `mapHeader_newFile`: the header as it is read;
* `newShape_capacity`: there is room for the samples and for a season;
* `newFile_geometry`: both, and that they agree.
-/

namespace Istatd

open FloatArith

variable {D F : Type} [FloatArith D F]

/-! ### The bytes of a new file -/

/-- `RD_HDR_VERSION`. -/
def rdHdrVersion : ℤ := 4

/-- `strncpy` into `n` bytes: the string up to its NUL, filled up with NULs. -/
def strncpy (src : List UInt8) (n : ℕ) : List UInt8 :=
  let s := (src.takeWhile (· ≠ 0)).take n
  s ++ List.replicate (n - s.length) 0

/-- The fields of a `Header`, with the gap in front of `page_size`.  `bitsOf` gives the bits of a
`double`. -/
def headerFields (bitsOf : D → UInt64) (sh : Shape D) (h : Header D) (unit name : List UInt8) :
    List (List UInt8) :=
  [fileMagic,
    LittleEndian.intBytes 4 sizeofHeader,
    LittleEndian.intBytes 4 sh.cfgInterval,
    LittleEndian.intBytes 4 sh.flags.toInt,
    LittleEndian.intBytes 4 curHdrVersion,
    LittleEndian.intBytes 4 rdHdrVersion,
    List.replicate 4 0,
    LittleEndian.intBytes 8 sh.pageSize,
    LittleEndian.intBytes 8 sh.pageCount,
    LittleEndian.intBytes 8 h.firstBucket,
    LittleEndian.intBytes 8 h.lastBucket,
    LittleEndian.intBytes 8 h.lastTime,
    LittleEndian.bytes 8 (bitsOf h.cumulativeSum).toNat,
    LittleEndian.bytes 8 (bitsOf h.cumulativeSumSq).toNat,
    LittleEndian.intBytes 8 h.cumulativeCount,
    LittleEndian.intBytes 8 h.lastCumulativeClearTime,
    LittleEndian.intBytes 8 sh.fileCreateTime,
    strncpy unit 64,
    (strncpy name 256).set 255 0,
    LittleEndian.bytes 8 (bitsOf sh.lambda).toNat,
    LittleEndian.bytes 8 sh.season,
    LittleEndian.intBytes 8 sh.fixedCount]

/-- `StatFile::writeNewHeader` on the bytes of a file: what it leaves there. -/
def writeNewFile (F : Type) [FloatArith D F] (env : OpenEnv) (writeOk : Bool) (bitsOf : D → UInt64)
    (now : ℤ) (path : String) (forUpdate : Bool) (init : Settings D)
    (unit bytes : List UInt8) : Except String (List UInt8) :=
  match writeNewHeader F env.sysPageSize now init with
  | .error text => .error text
  | .ok (sh, hdr) =>
    let size := (sh.pageSize * (sh.pageCount + 1) % 2 ^ 64).toNat
    match (env.truncate forUpdate bytes 0).bind fun cut => env.truncate forUpdate cut size with
    | none => .error ("Could not allocate space for: " ++ path)
    | some zeros =>
      if writeOk then
        .ok ((headerFields bitsOf sh hdr unit path.toUTF8.data.toList).flatten ++
          zeros.drop sizeofHeader)
      else .error ("Could not prepare header for: " ++ path)

namespace RawHeader

/-- `bucketsPerPage_`: the page size is divided as a `size_t`. -/
def bucketsPerPage (hdr : RawHeader) : ℤ := hdr.pageSize % 2 ^ 64 / sizeofBucket

/-- `bucketCount_`, an `int64_t`. -/
def bucketCount (hdr : RawHeader) : ℤ := (hdr.pageCount * hdr.bucketsPerPage).bmod (2 ^ 64)

/-- The header that `writeNewHeader` writes, as far as `open` reads it. -/
def ofShape (sh : Shape D) : RawHeader where
  magic := fileMagic
  hdrSize := sizeofHeader
  cfgInterval := sh.cfgInterval
  flags := sh.flags.toInt
  crVersion := curHdrVersion
  rdVersion := rdHdrVersion
  pageSize := sh.pageSize
  pageCount := sh.pageCount
  season := sh.season
  fixedCount := sh.fixedCount

end RawHeader

/-! ### The header is read as it is written -/

theorem length_strncpy (src : List UInt8) (n : ℕ) : (strncpy src n).length = n := by
  simp only [strncpy, List.length_append, List.length_replicate]
  have hle : ((src.takeWhile (· ≠ 0)).take n).length ≤ n := List.length_take_le _ _
  omega

/-- The fields of a shape fit the types of a header. -/
structure Shape.Fits (sh : Shape D) : Prop where
  cfgInterval : sh.cfgInterval < 2 ^ 31
  fileLength : sh.pageSize * (sh.pageCount + 1) < 2 ^ 63
  season : sh.season < 2 ^ 64
  fixedCount : -2 ^ 63 ≤ sh.fixedCount ∧ sh.fixedCount < 2 ^ 63

section MapHeader

variable {bitsOf : D → UInt64} {sh : Shape D} {h : Header D} {unit name : List UInt8}

theorem length_headerFields (bitsOf : D → UInt64) (sh : Shape D) (h : Header D)
    (unit name : List UInt8) :
    (headerFields bitsOf sh h unit name).flatten.length = sizeofHeader := by
  simp [headerFields, length_strncpy, fileMagic, sizeofHeader]

/-- What is mapped at a field. -/
theorem map_range_field {fields : List (List UInt8)} {j : ℕ} {field : List UInt8}
    (hj : fields[j]? = some field) (rest : List UInt8) (heap : ℕ → UInt8) {off width : ℕ}
    (hoff : off = (fields.take j).flatten.length) (hwidth : width = field.length) :
    (List.range width).map (fun k => (fields.flatten ++ rest).getD (off + k) (heap (off + k))) =
      field := by
  subst hoff hwidth
  have hread := LittleEndian.take_drop_field hj rest
  have hend := LittleEndian.field_end_le hj
  refine List.ext_getElem (by rw [List.length_map, List.length_range]) fun i hi hi' => ?_
  have hlt : (fields.take j).flatten.length + i < (fields.flatten ++ rest).length := by
    rw [List.length_append]
    omega
  rw [List.getElem_map, List.getElem_range, List.getD_eq_getElem _ _ hlt]
  have hget := congrArg (fun l => l[i]?) hread
  simp only [List.getElem?_take, if_pos hi', List.getElem?_drop] at hget
  rw [List.getElem?_eq_getElem hlt, List.getElem?_eq_getElem hi'] at hget
  exact Option.some.inj hget

theorem readLE_field {fields : List (List UInt8)} {j : ℕ} {field : List UInt8}
    (hj : fields[j]? = some field) (rest : List UInt8) (heap : ℕ → UInt8) {off width : ℕ}
    (hoff : off = (fields.take j).flatten.length) (hwidth : width = field.length) :
    readLE (fun k => (fields.flatten ++ rest).getD k (heap k)) off width =
      LittleEndian.value field := by
  have hmap := map_range_field hj rest heap hoff hwidth
  rw [readLE, LittleEndian.value, ← hmap, List.map_map]
  rfl

theorem readInt32_field {fields : List (List UInt8)} {j : ℕ} {x : ℤ}
    (hj : fields[j]? = some (LittleEndian.intBytes 4 x)) (rest : List UInt8) (heap : ℕ → UInt8)
    {off : ℕ} (hoff : off = (fields.take j).flatten.length) (hlo : -2 ^ 31 ≤ x) (hhi : x < 2 ^ 31) :
    readInt32 (fun k => (fields.flatten ++ rest).getD k (heap k)) off = x := by
  have hm : 2 ^ 32 = 256 ^ 4 := by norm_num
  have hread := readLE_field hj rest heap hoff (LittleEndian.length_intBytes 4 x).symm
  have h1 : -((2 ^ 32 : ℕ) : ℤ) ≤ 2 * x := by omega
  have h2 : 2 * x < ((2 ^ 32 : ℕ) : ℤ) := by omega
  unfold readInt32
  rw [hread]
  exact LittleEndian.bmod_value_intBytes hm h1 h2

theorem readInt64_field {fields : List (List UInt8)} {j : ℕ} {x : ℤ}
    (hj : fields[j]? = some (LittleEndian.intBytes 8 x)) (rest : List UInt8) (heap : ℕ → UInt8)
    {off : ℕ} (hoff : off = (fields.take j).flatten.length) (hlo : -2 ^ 63 ≤ x) (hhi : x < 2 ^ 63) :
    readInt64 (fun k => (fields.flatten ++ rest).getD k (heap k)) off = x := by
  have hm : 2 ^ 64 = 256 ^ 8 := by norm_num
  have hread := readLE_field hj rest heap hoff (LittleEndian.length_intBytes 8 x).symm
  have h1 : -((2 ^ 64 : ℕ) : ℤ) ≤ 2 * x := by omega
  have h2 : 2 * x < ((2 ^ 64 : ℕ) : ℤ) := by omega
  unfold readInt64
  rw [hread]
  exact LittleEndian.bmod_value_intBytes hm h1 h2

theorem Shape.Fits.pageSize_lt (hfit : sh.Fits) : sh.pageSize < 2 ^ 63 := by
  have h1 := sh.le_pageSize
  have h2 := sh.two_le_pageCount
  have h3 := hfit.fileLength
  nlinarith

theorem Shape.Fits.pageCount_lt (hfit : sh.Fits) : sh.pageCount < 2 ^ 63 := by
  have h1 := sh.le_pageSize
  have h2 := sh.two_le_pageCount
  have h3 := hfit.fileLength
  nlinarith

/-- The header that is mapped is the one that was written, whatever follows it. -/
theorem mapHeader_newFile (hfit : sh.Fits) (env : OpenEnv) (rest : List UInt8) :
    env.mapHeader ((headerFields bitsOf sh h unit name).flatten ++ rest) = RawHeader.ofShape sh := by
  have hlen := length_strncpy unit 64
  have hname : ((strncpy name 256).set 255 0).length = 256 := by
    rw [List.length_set, length_strncpy]
  have hinterval := sh.cfgInterval_pos
  have hpage := sh.le_pageSize
  have hcount := sh.two_le_pageCount
  have hmagic : (List.range 16).map (fun k => ((headerFields bitsOf sh h unit name).flatten ++
      rest).getD k (env.heap k)) = fileMagic := by
    have hfield : (headerFields bitsOf sh h unit name)[0]? = some fileMagic := rfl
    have hread : (List.range 16).map (fun k => ((headerFields bitsOf sh h unit name).flatten ++
        rest).getD (0 + k) (env.heap (0 + k))) = fileMagic :=
      map_range_field hfield rest env.heap rfl rfl
    simpa only [Nat.zero_add] using hread
  rw [OpenEnv.mapHeader, RawHeader.ofMemory, RawHeader.ofShape, hmagic]
  rw [RawHeader.mk.injEq]
  refine ⟨rfl, ?_, ?_, ?_, ?_, ?_, ?_, ?_, ?_, ?_⟩
  · exact readInt32_field (j := 1) rfl rest env.heap rfl (by decide) (by decide)
  · exact readInt32_field (j := 2) rfl rest env.heap rfl (by omega) hfit.cfgInterval
  · refine readInt32_field (j := 3) rfl rest env.heap rfl ?_ ?_
    · exact BitVec.le_toInt sh.flags
    · exact BitVec.toInt_lt
  · exact readInt32_field (j := 4) rfl rest env.heap rfl (by decide) (by decide)
  · exact readInt32_field (j := 5) rfl rest env.heap rfl (by decide) (by decide)
  · exact readInt64_field (j := 7) rfl rest env.heap rfl (by omega) hfit.pageSize_lt
  · exact readInt64_field (j := 8) rfl rest env.heap rfl (by omega) hfit.pageCount_lt
  · have hfield : (headerFields bitsOf sh h unit name)[20]? =
        some (LittleEndian.bytes 8 sh.season) := rfl
    have hoff : 448 = ((headerFields bitsOf sh h unit name).take 20).flatten.length := by
      simp [headerFields, hlen, hname, fileMagic]
    have hread := readLE_field hfield rest env.heap hoff (LittleEndian.length_bytes 8 _).symm
    have hseason : sh.season < 256 ^ 8 := by
      have hlt := hfit.season
      omega
    rw [hread, LittleEndian.value_bytes_of_lt hseason]
  · refine readInt64_field (j := 21) rfl rest env.heap ?_ hfit.fixedCount.1 hfit.fixedCount.2
    simp [headerFields, hlen, hname, fileMagic]

end MapHeader

/-! ### The file that is opened is the one that was written -/

namespace Shape.Fits

variable {sh : Shape D}

theorem wantFileSize (hfit : sh.Fits) :
    ((RawHeader.ofShape sh).wantFileSize : ℤ) = sh.pageSize * (sh.pageCount + 1) := by
  have h1 := sh.le_pageSize
  have h2 := sh.two_le_pageCount
  have h3 := hfit.fileLength
  have hpos : 0 ≤ sh.pageSize * (sh.pageCount + 1) := by positivity
  rw [RawHeader.wantFileSize, RawHeader.ofShape, Int.emod_eq_of_lt hpos (by omega),
    Int.toNat_of_nonneg hpos]

theorem bucketCount (hfit : sh.Fits) : (RawHeader.ofShape sh).bucketCount = sh.bucketCount := by
  have h1 := sh.le_pageSize
  have h2 := sh.two_le_pageCount
  have h3 := hfit.fileLength
  have hsize := hfit.pageSize_lt
  have hpages : sh.bucketsPerPage ≤ sh.pageSize := Int.ediv_le_self _ (by omega)
  have hpos := sh.bucketCount_pos
  have hle : sh.bucketCount ≤ sh.pageSize * (sh.pageCount + 1) := by
    unfold Shape.bucketCount
    nlinarith
  have hper : (RawHeader.ofShape sh).bucketsPerPage = sh.bucketsPerPage := by
    change sh.pageSize % 2 ^ 64 / sizeofBucket = _
    rw [Int.emod_eq_of_lt (by omega) (by omega), Shape.bucketsPerPage]
  rw [RawHeader.bucketCount, hper]
  change sh.bucketCount.bmod (2 ^ 64) = _
  exact Int.bmod_eq_of_le_mul_two (by omega) (by omega)

end Shape.Fits

/-- What `writeNewHeader` leaves, if nothing goes wrong. -/
theorem writeNewFile_ok {env : OpenEnv} {writeOk : Bool} {bitsOf : D → UInt64} {now : ℤ}
    {path : String} {forUpdate : Bool} {init : Settings D} {unit bytes file : List UInt8}
    {sh : Shape D} {h : Header D}
    (hheader : writeNewHeader F env.sysPageSize now init = .ok (sh, h)) (hfit : sh.Fits)
    (hfile : writeNewFile F env writeOk bitsOf now path forUpdate init unit bytes = .ok file) :
    ∃ rest, file = (headerFields bitsOf sh h unit path.toUTF8.data.toList).flatten ++ rest ∧
      file.length = (RawHeader.ofShape sh).wantFileSize := by
  unfold writeNewFile at hfile
  rw [hheader] at hfile
  simp only at hfile
  have hlarge : sizeofHeader ≤ (RawHeader.ofShape sh).wantFileSize := by
    have h1 := sh.le_pageSize
    have h2 := sh.two_le_pageCount
    have h3 := hfit.wantFileSize
    unfold sizeofHeader
    nlinarith
  cases hcut : env.truncate forUpdate bytes 0 with
  | none =>
    rw [hcut] at hfile
    cases hfile
  | some cut =>
    rw [hcut, Option.bind_some] at hfile
    cases hzeros : env.truncate forUpdate cut
        (sh.pageSize * (sh.pageCount + 1) % 2 ^ 64).toNat with
    | none =>
      rw [hzeros] at hfile
      cases hfile
    | some zeros =>
      rw [hzeros] at hfile
      simp only at hfile
      split_ifs at hfile
      cases hfile
      have hlen : zeros.length = (RawHeader.ofShape sh).wantFileSize :=
        OpenEnv.truncate_length hzeros
      refine ⟨zeros.drop sizeofHeader, rfl, ?_⟩
      rw [List.length_append, length_headerFields, List.length_drop, hlen]
      omega

/-- It is written if the file system lets it. -/
theorem exists_writeNewFile (env : OpenEnv) (bitsOf : D → UInt64) {now : ℤ} (path : String)
    {init : Settings D} (unit bytes : List UInt8) {sh : Shape D} {h : Header D}
    (hheader : writeNewHeader F env.sysPageSize now init = .ok (sh, h)) (hfit : sh.Fits)
    (haccepts : ∀ size, env.ftruncateOk size = true) :
    ∃ file, writeNewFile F env true bitsOf now path true init unit bytes = .ok file := by
  have hsize : (sh.pageSize * (sh.pageCount + 1) % 2 ^ 64).toNat < 2 ^ 63 := by
    have hwant := hfit.wantFileSize
    have hlt := hfit.fileLength
    rw [RawHeader.wantFileSize, RawHeader.ofShape] at hwant
    omega
  unfold writeNewFile
  rw [hheader]
  simp only [OpenEnv.truncate, haccepts, hsize, true_and, if_true]
  exact ⟨_, rfl⟩

/-- The new file is opened as it is. -/
theorem openExisting_newFile {bitsOf : D → UInt64} {sh : Shape D} {h : Header D}
    {unit name rest : List UInt8} (hfit : sh.Fits) {file : ExistingFile}
    (hbytes : file.bytes = (headerFields bitsOf sh h unit name).flatten ++ rest)
    (hlen : file.bytes.length = (RawHeader.ofShape sh).wantFileSize) {env : OpenEnv}
    (path : String) (forUpdate : Bool) (hpage : env.sysPageSize ≤ sh.pageSize)
    (ho : env.openOk = true) (hm : env.mapOk = true) :
    openExisting env path forUpdate file = (.ok (RawHeader.ofShape sh), file.bytes) := by
  have hmap : env.mapHeader file.bytes = RawHeader.ofShape sh := by
    rw [hbytes, mapHeader_newFile hfit]
  have hcheck : (RawHeader.ofShape sh).check env.sysPageSize path = none := by
    have h1 : ¬(RawHeader.ofShape sh).magic ≠ fileMagic := not_not.2 rfl
    have h2 : ¬curHdrVersion < (RawHeader.ofShape sh).rdVersion := by
      change ¬curHdrVersion < rdHdrVersion
      decide
    have h3 : ¬(RawHeader.ofShape sh).pageSize < env.sysPageSize := not_lt.2 hpage
    have h4 : ¬((RawHeader.ofShape sh).hdrSize ≠ sizeofHeader ∧
        (RawHeader.ofShape sh).crVersion = curHdrVersion) := fun h => h.1 rfl
    rw [RawHeader.check, if_neg h1, if_neg h2, if_neg h3, if_neg h4]
  have hnew : ¬(RawHeader.ofShape sh).crVersion < curHdrVersion :=
    lt_irrefl curHdrVersion
  have hsame : ¬(RawHeader.ofShape sh).wantFileSize ≠ file.bytes.length := not_not.2 hlen.symm
  rw [openExisting_of_mapped path forUpdate file ho hm, hmap, if_neg hsame]
  simp only [hcheck, if_neg hnew]

/-! ### The number of pages -/

namespace Settings

/-- The numbers of some settings are those of their types, and `writeNewHeader` accepts them. -/
structure Accepted (F : Type) [FloatArith D F] (init : Settings D) : Prop where
  numSamples : -2 ^ 63 ≤ init.numSamples ∧ init.numSamples < 2 ^ 63
  season : init.season < 2 ^ 64
  fixedCount : -2 ^ 63 ≤ init.fixedCount ∧ init.fixedCount < 2 ^ 63
  intervalTime : 1 ≤ init.intervalTime ∧ init.intervalTime < 2 ^ 31
  flags : hasFlag init.flags
    (~~~(fileFlagIsCollated ||| fileFlagIsTrailing ||| fileFlagIsCounterAggregate)) = false
  trailing : hasFlag init.flags fileFlagIsTrailing = true →
    le F init.lambda (ofInt F 0) = false ∧ lt F (ofInt F 1) init.lambda = false ∧
      10 ≤ init.season ∧ init.season ≤ 373 * 24 * 60 * 60

/-- The number of samples, rounded up to whole pages of `bucketsPerPage` buckets. -/
def roundedSamples (init : Settings D) (bucketsPerPage : ℤ) : ℤ :=
  (init.numSamples + bucketsPerPage - 1) / bucketsPerPage * bucketsPerPage

/-- The sizes are small enough to be computed without an overflow: the length of the file, and for a
trailing file the time that its samples span. -/
structure SizesFit (sysPageSize : ℤ) (init : Settings D) : Prop where
  fileLength : (newShape sysPageSize 0 init.intervalTime init).pageSize *
    ((newShape sysPageSize 0 init.intervalTime init).pageCount + 1) < 2 ^ 63
  span : hasFlag init.flags fileFlagIsTrailing = true →
    init.roundedSamples (newShape sysPageSize 0 init.intervalTime init).bucketsPerPage *
      init.intervalTime < 2 ^ 64

end Settings

/-- Two truncating divisions are at most one too low. -/
theorem lt_ediv_ediv_add_one_mul {n a b : ℤ} (ha : 0 < a) (hb : 0 < b) :
    n < (n / a / b + 1) * a * b := by
  have h1 : n < (n / a + 1) * a := Int.lt_ediv_add_one_mul_self n ha
  have h2 : n / a + 1 ≤ (n / a / b + 1) * b := Int.lt_ediv_add_one_mul_self (n / a) hb
  calc n < (n / a + 1) * a := h1
    _ ≤ (n / a / b + 1) * b * a := mul_le_mul_of_nonneg_right h2 ha.le
    _ = (n / a / b + 1) * a * b := by ring

/-- Whole pages hold what they were rounded up from. -/
theorem le_roundUp_mul (n : ℤ) {a : ℤ} (ha : 0 < a) : n ≤ (n + a - 1) / a * a := by
  have hlt := Int.lt_ediv_add_one_mul_self (n + a - 1) ha
  rw [add_mul, one_mul] at hlt
  omega

section NewShape

variable (sysPageSize lTime : ℤ) {c : ℤ} (init : Settings D)

/-- The pages are at least those that hold the samples, and for a trailing file whose samples span
less than a season those that hold the season. -/
theorem newShape_pageCount (hc : 1 ≤ c) :
    let sh := newShape sysPageSize lTime c init
    let np := (init.numSamples + sh.bucketsPerPage - 1) % 2 ^ 64 / sh.bucketsPerPage
    if hasFlag init.flags fileFlagIsTrailing = true ∧
        np * sh.bucketsPerPage * c % 2 ^ 64 < init.season then
      init.season / sh.bucketsPerPage / c + 1 ≤ sh.pageCount
    else np ≤ sh.pageCount := by
  have hmax (n : ℤ) : n ≤ if n < 2 then 2 else n := by
    split_ifs <;> omega
  have hinterval : (if c < 1 then 1 else c) = c := if_neg (by omega)
  simp only [newShape, Shape.bucketsPerPage, hinterval]
  generalize (if sysPageSize < 8192 then 8192 else sysPageSize) / sizeofBucket = bpp
  generalize (init.numSamples + bpp - 1) % 2 ^ 64 / bpp = np
  by_cases hshort : hasFlag init.flags fileFlagIsTrailing = true ∧
      np * bpp * c % 2 ^ 64 < init.season
  · simp only [if_pos hshort]
    exact hmax _
  · simp only [if_neg hshort]
    exact hmax _

/-- There is room for the samples, and in a trailing file for a season. -/
theorem newShape_capacity (hc : 1 ≤ c)
    (hsamples : init.numSamples + (newShape sysPageSize lTime c init).bucketsPerPage - 1 < 2 ^ 64)
    (hspan : hasFlag init.flags fileFlagIsTrailing = true →
      init.roundedSamples (newShape sysPageSize lTime c init).bucketsPerPage * c < 2 ^ 64) :
    init.numSamples ≤ (newShape sysPageSize lTime c init).bucketCount ∧
      (hasFlag init.flags fileFlagIsTrailing = true →
        init.season ≤ (newShape sysPageSize lTime c init).bucketCount * c) := by
  have hpages := newShape_pageCount sysPageSize lTime init hc
  generalize newShape sysPageSize lTime c init = sh at *
  have hbpp := sh.bucketsPerPage_pos
  have hc0 : 0 < c := hc
  unfold Settings.roundedSamples at hspan
  -- the sum wraps only if there are no samples to hold
  have hround (hnone : 0 < init.numSamples) :
      (init.numSamples + sh.bucketsPerPage - 1) % 2 ^ 64 =
        init.numSamples + sh.bucketsPerPage - 1 :=
    Int.emod_eq_of_lt (by omega) (by omega)
  have hhold := le_roundUp_mul init.numSamples hbpp
  have hcapacity {n : ℤ} (hn : n ≤ sh.pageCount) : n * sh.bucketsPerPage ≤ sh.bucketCount :=
    mul_le_mul_of_nonneg_right hn hbpp.le
  have hseason : init.season < (init.season / sh.bucketsPerPage / c + 1) * sh.bucketsPerPage * c :=
    lt_ediv_ediv_add_one_mul hbpp hc0
  simp only at hpages
  split_ifs at hpages with hshort
  · have hroom := hcapacity hpages
    have hcover := mul_le_mul_of_nonneg_right hroom hc0.le
    refine ⟨?_, fun _ => by omega⟩
    rcases le_or_gt init.numSamples 0 with hnone | hnone
    · have hpos := sh.bucketCount_pos
      omega
    · rw [hround hnone] at hshort
      have hnonneg : 0 ≤ (init.numSamples + sh.bucketsPerPage - 1) / sh.bucketsPerPage *
          sh.bucketsPerPage * c := mul_nonneg (by omega) hc0.le
      rw [Int.emod_eq_of_lt hnonneg (hspan hshort.1)] at hshort
      have hless : (init.numSamples + sh.bucketsPerPage - 1) / sh.bucketsPerPage *
          sh.bucketsPerPage < (init.season / sh.bucketsPerPage / c + 1) * sh.bucketsPerPage :=
        lt_of_mul_lt_mul_right (hshort.2.trans hseason) hc0.le
      omega
  · have hroom := hcapacity hpages
    refine ⟨?_, fun htrailing => ?_⟩
    · rcases le_or_gt init.numSamples 0 with hnone | hnone
      · have hpos := sh.bucketCount_pos
        omega
      · rw [hround hnone] at hroom
        exact hhold.trans hroom
    · have hlong := not_lt.1 fun h => hshort ⟨htrailing, h⟩
      have hnp : 0 ≤ (init.numSamples + sh.bucketsPerPage - 1) % 2 ^ 64 / sh.bucketsPerPage :=
        Int.ediv_nonneg (Int.emod_nonneg _ (by norm_num)) hbpp.le
      have hnonneg := mul_nonneg (mul_nonneg hnp hbpp.le) hc0.le
      have hcover := mul_le_mul_of_nonneg_right hroom hc0.le
      omega

/-- A span that wraps is taken for one of no time at all, and the samples have no room. -/
example : (newShape 4096 0 (2 ^ 30)
    ⟨0, 2 ^ 30, 2 ^ 34, fileFlagIsTrailing, 86400, (1 / 2 : ℚ), 0⟩).bucketCount = 512 := by
  decide +kernel

/-- The creation time is the last time of the grid that is not after the zero time. -/
theorem newShape_fileCreateTime (hc : 1 ≤ c) :
    c ∣ (newShape sysPageSize lTime c init).fileCreateTime ∧
      (0 < lTime → (newShape sysPageSize lTime c init).fileCreateTime ≤ lTime ∧
        lTime < (newShape sysPageSize lTime c init).fileCreateTime + c) := by
  refine ⟨sub_tmod_dvd lTime c, fun hpos => ?_⟩
  have hmod : lTime.tmod c = lTime % c := Int.tmod_eq_emod_of_nonneg hpos.le
  have hnonneg := Int.emod_nonneg lTime (b := c) (by omega)
  have hlt := Int.emod_lt_of_pos lTime (b := c) (by omega)
  have htime : (newShape sysPageSize lTime c init).fileCreateTime = lTime - lTime.tmod c := rfl
  omega

end NewShape

/-- `writeNewHeader` accepts the settings. -/
theorem Settings.Accepted.writeNewHeader_eq {init : Settings D} (hinit : init.Accepted F)
    (sysPageSize now : ℤ) :
    ∃ sh, sh = newShape sysPageSize (if init.zeroTime = 0 then now else init.zeroTime)
        init.intervalTime init ∧
      writeNewHeader F sysPageSize now init = .ok (sh, newHeader F sh.fileCreateTime) := by
  obtain ⟨hlo, hhi⟩ := hinit.intervalTime
  have hc : toInt32 init.intervalTime = init.intervalTime :=
    Int.bmod_eq_of_le_mul_two (by omega) (by omega)
  refine ⟨_, rfl, ?_⟩
  unfold writeNewHeader
  simp only [hc]
  have hlambda : ¬(hasFlag init.flags fileFlagIsTrailing = true ∧
      (le F init.lambda (ofInt F 0) = true ∨ lt F (ofInt F 1) init.lambda = true)) := by
    rintro ⟨htrailing, hbad⟩
    obtain ⟨h0, h1, -⟩ := hinit.trailing htrailing
    rw [h0, h1] at hbad
    simp at hbad
  have hseason : ¬(hasFlag init.flags fileFlagIsTrailing = true ∧
      (init.season < 10 ∨ 373 * 24 * 60 * 60 < init.season)) := by
    rintro ⟨htrailing, hbad⟩
    obtain ⟨-, -, h10, h373⟩ := hinit.trailing htrailing
    omega
  have hflags : ¬hasFlag init.flags
      (~~~(fileFlagIsCollated ||| fileFlagIsTrailing ||| fileFlagIsCounterAggregate)) = true := by
    rw [hinit.flags]
    exact Bool.false_ne_true
  rw [if_neg hlambda, if_neg hseason, if_neg (by omega), if_neg hflags]

/-- **The geometry of a new file.**  For all settings that `writeNewHeader` accepts, if the sizes fit,
the new header has at least two pages and room for the samples, and for a season in a trailing file;
it begins on the grid of the interval, less than an interval before the zero time.  The file is as
long as its header page and its pages, and every `open` that follows leaves it that long and finds
as many buckets in it. -/
theorem newFile_geometry (env : OpenEnv) (now : ℤ) (init : Settings D) (hinit : init.Accepted F)
    (hsizes : init.SizesFit env.sysPageSize) :
    ∃ sh h, writeNewHeader F env.sysPageSize now init = .ok (sh, h) ∧
      2 ≤ sh.pageCount ∧
      init.numSamples ≤ sh.pageCount * (sh.pageSize / sizeofBucket) ∧
      init.intervalTime ∣ sh.fileCreateTime ∧
      (0 < (if init.zeroTime = 0 then now else init.zeroTime) →
        sh.fileCreateTime ≤ (if init.zeroTime = 0 then now else init.zeroTime) ∧
          (if init.zeroTime = 0 then now else init.zeroTime) <
            sh.fileCreateTime + init.intervalTime) ∧
      (hasFlag init.flags fileFlagIsTrailing = true →
        init.season ≤ sh.pageCount * (sh.pageSize / sizeofBucket) * init.intervalTime) ∧
      ∀ writeOk (bitsOf : D → UInt64) path forUpdate unit bytes file,
        writeNewFile F env writeOk bitsOf now path forUpdate init unit bytes = .ok file →
          (file.length : ℤ) = sh.pageSize * (sh.pageCount + 1) ∧
          ∃ existing : ExistingFile, existing.bytes = file ∧
            ∀ (later : OpenEnv) path' forUpdate', later.sysPageSize = env.sysPageSize →
              later.openOk = true → later.mapOk = true →
              ∃ hdr, openExisting later path' forUpdate' existing = (.ok hdr, file) ∧
                hdr.wantFileSize = file.length ∧
                hdr.bucketCount = sh.pageCount * (sh.pageSize / sizeofBucket) := by
  obtain ⟨sh, hsh, hheader⟩ := hinit.writeNewHeader_eq env.sysPageSize now
  obtain ⟨hlo, hhi⟩ := hinit.intervalTime
  have hfit : sh.Fits := by
    subst hsh
    refine ⟨?_, hsizes.fileLength, hinit.season, hinit.fixedCount⟩
    have hinterval : (if init.intervalTime < 1 then 1 else init.intervalTime) =
      init.intervalTime := if_neg (by omega)
    exact hinterval.trans_lt hhi
  have hpage := sh.le_pageSize
  have hcount := sh.two_le_pageCount
  have hsamples : init.numSamples + sh.bucketsPerPage - 1 < 2 ^ 64 := by
    have hsize := hfit.pageSize_lt
    have hnum := hinit.numSamples
    have hpages : sh.bucketsPerPage ≤ sh.pageSize := Int.ediv_le_self _ (by omega)
    omega
  rw [hsh] at hsamples
  have hcapacity := newShape_capacity _ _ init hlo hsamples hsizes.span
  have htime := newShape_fileCreateTime env.sysPageSize
    (if init.zeroTime = 0 then now else init.zeroTime) init hlo
  rw [← hsh] at hcapacity htime
  refine ⟨sh, _, hheader, sh.two_le_pageCount, hcapacity.1, htime.1, htime.2, hcapacity.2, ?_⟩
  intro writeOk bitsOf path forUpdate unit bytes file hfile
  obtain ⟨rest, hbytes, hlen⟩ := writeNewFile_ok hheader hfit hfile
  have hwant := hfit.wantFileSize
  have hlength := hfit.fileLength
  have hne : file ≠ [] := by
    rintro rfl
    have hpos : 0 < sh.pageSize * (sh.pageCount + 1) := mul_pos (by omega) (by omega)
    rw [← hlen, List.length_nil] at hwant
    omega
  refine ⟨by rw [hlen, hwant], ⟨file, hne, by omega⟩, rfl, ?_⟩
  intro later path' forUpdate' hsame ho hm
  have hle : later.sysPageSize ≤ sh.pageSize := by
    have hmax : env.sysPageSize ≤ if env.sysPageSize < 8192 then 8192 else env.sysPageSize := by
      split_ifs <;> omega
    rw [hsame, hsh]
    exact hmax
  exact ⟨RawHeader.ofShape sh, openExisting_newFile hfit hbytes hlen path' forUpdate' hle ho hm,
    hlen.symm, hfit.bucketCount⟩

/-- A day of ten seconds, with a season of as much. -/
def sampleNewSettings : Settings ℚ where
  zeroTime := 1005
  intervalTime := 10
  numSamples := 8640
  flags := fileFlagIsTrailing
  season := 86400
  lambda := 1 / 2
  fixedCount := 0

theorem sampleNewSettings_accepted : sampleNewSettings.Accepted ℚ where
  numSamples := by decide
  season := by decide
  fixedCount := by decide
  intervalTime := by decide
  flags := by decide
  trailing _ := by decide +kernel

theorem sampleNewSettings_sizesFit : sampleNewSettings.SizesFit 4096 where
  fileLength := by decide +kernel
  span _ := by decide +kernel

/-- The file is written, and opened as it is. -/
theorem newFile_geometry_sample :
    ∃ (hdr : RawHeader) (existing : ExistingFile),
      writeNewFile ℚ plainEnv true (fun _ => 0) 0 "x" true sampleNewSettings [] [] =
        .ok existing.bytes ∧
      openExisting plainEnv "x" true existing = (.ok hdr, existing.bytes) ∧
      8640 ≤ hdr.bucketCount := by
  obtain ⟨sh, h, hheader, -, hsamples, -, -, -, hfile⟩ :=
    newFile_geometry plainEnv 0 sampleNewSettings sampleNewSettings_accepted
      sampleNewSettings_sizesFit
  have hshape : sh = newShape 4096 1005 10 sampleNewSettings := (writeNewHeader_ok hheader).1
  have hfit : sh.Fits := by
    subst hshape
    exact ⟨by decide, sampleNewSettings_sizesFit.fileLength, by decide, by decide⟩
  obtain ⟨file, hwritten⟩ :=
    exists_writeNewFile plainEnv (fun _ => 0) "x" [] [] hheader hfit fun _ => rfl
  obtain ⟨-, existing, rfl, hopen⟩ := hfile _ _ _ _ _ _ _ hwritten
  obtain ⟨hdr, hok, -, hcount⟩ := hopen plainEnv "x" true rfl rfl rfl
  exact ⟨hdr, existing, hwritten, hok, hcount ▸ hsamples⟩

end Istatd
