import Mathlib.Data.List.GetD
import Istatd.Lib.LittleEndian
import Istatd.ReplicaHandlers

/-!
# The making of pdus (`PduWriter`, `PduRequest`, `PduData`, `PduError`)

A pdu is written field by field into a buffer.  A field that does not fit ends the writing with an
exception, and the fields in front of it stay in the buffer; the position is a reference of the
caller's, and tells how far they go.

The memory of the buffer is a function from offsets, also from those beyond its end.  A `size_t` is
computed modulo `2 ^ 64`.  Floating point numbers are the bits that they are stored as.

* `PduBuffer.write`: one field;
* `writeAll_spec`: some fields, up to the first that does not fit;
* `PduContent.readBack`: the accessors return what was written;
* `PduContent.make_spec`: both for all pdus and all sizes of the buffer.
-/

namespace Istatd

/-! ### `PduWriter` -/

/-- The buffer of a `PduWriter` and its position. -/
structure PduBuffer where
  mem : ℕ → UInt8
  size : ℕ
  pos : ℕ

/-- A `PduOverflowException` with the buffer as it is left, or a read outside of an array. -/
inductive PduFault
  | overflow (what : String) (buffer : PduBuffer)
  | outOfBounds

namespace PduBuffer

/-- `PduWriter::PduWriter`. -/
def writer (b : PduBuffer) : Except PduFault PduBuffer :=
  if b.size ≤ b.pos then .error (.overflow "No space in buffer in PduWriter::PduWriter()" b)
  else .ok b

/-- The memory with some bytes at a position. -/
def copy (mem : ℕ → UInt8) (pos : ℕ) (src : Bytes) : ℕ → UInt8 := fun i =>
  if pos ≤ i ∧ i < pos + src.length then src.getD (i - pos) 0 else mem i

/-- `PduWriter::write`. -/
def write (b : PduBuffer) (src : Bytes) : Except PduFault PduBuffer :=
  if b.size < src.length ∨ (b.size + 2 ^ 64 - src.length) % 2 ^ 64 < b.pos then
    .error (.overflow "Overflow writing to PDU" b)
  else .ok { b with mem := copy b.mem b.pos src, pos := (b.pos + src.length) % 2 ^ 64 }

/-- What has been written. -/
def payload (b : PduBuffer) : Bytes := (List.range b.pos).map b.mem

end PduBuffer

/-! ### The fields -/

/-- The bytes of an `int64_t` and of an `int32_t`. -/
def int64Bytes (x : Int64) : Bytes := LittleEndian.bytes 8 x.toUInt64.toNat
@[inherit_doc int64Bytes]
def int32Bytes (x : Int32) : Bytes := LittleEndian.bytes 4 x.toUInt32.toNat

/-- The numbers in such bytes. -/
def int64OfBytes (bs : Bytes) : Int64 := (UInt64.ofNat (LittleEndian.value bs)).toInt64
@[inherit_doc int64OfBytes]
def int32OfBytes (bs : Bytes) : Int32 := (UInt32.ofNat (LittleEndian.value bs)).toInt32

/-- `FileBucketLayout`; the `double` and the `float`s are given by their bits. -/
structure FileBucketLayout where
  time_ : Int64
  sum_ : UInt64
  min_ : UInt32
  max_ : UInt32
  count_ : Int32
  sumSq_ : UInt32
  deriving DecidableEq

namespace FileBucketLayout

/-- The bytes of a bucket. -/
def bytes (b : FileBucketLayout) : Bytes :=
  int64Bytes b.time_ ++ (LittleEndian.bytes 8 b.sum_.toNat ++ (LittleEndian.bytes 4 b.min_.toNat ++
    (LittleEndian.bytes 4 b.max_.toNat ++ (int32Bytes b.count_ ++
      LittleEndian.bytes 4 b.sumSq_.toNat))))

/-- The bucket in some bytes. -/
def ofBytes (bs : Bytes) : FileBucketLayout where
  time_ := int64OfBytes (bs.take 8)
  sum_ := UInt64.ofNat (LittleEndian.value ((bs.drop 8).take 8))
  min_ := UInt32.ofNat (LittleEndian.value ((bs.drop 16).take 4))
  max_ := UInt32.ofNat (LittleEndian.value ((bs.drop 20).take 4))
  count_ := int32OfBytes ((bs.drop 24).take 4)
  sumSq_ := UInt32.ofNat (LittleEndian.value ((bs.drop 28).take 4))

end FileBucketLayout

/-- `operator<<` for a string: its characters and a NUL. -/
def cStringBytes (s : Bytes) : Bytes := s ++ [0]

/-! ### `make` -/

/-- `PduRequest::make`. -/
def PduRequest.make (b : PduBuffer) (fromTime numBuckets : Int64) (name : Bytes) :
    Except PduFault PduBuffer := do
  let pw ← b.writer
  let pw ← pw.write (int64Bytes fromTime)
  let pw ← pw.write (int64Bytes numBuckets)
  pw.write (cStringBytes name)

/-- The loop of `PduData::make` from `i` on, with the buckets that are left in the array. -/
def PduData.writeBuckets (numBuckets : ℤ) (pw : PduBuffer) :
    ℤ → List FileBucketLayout → Except PduFault PduBuffer
  | i, buckets =>
    if i = numBuckets then .ok pw
    else
      match buckets with
      | [] => .error .outOfBounds
      | bucket :: buckets => do
        let pw ← pw.write bucket.bytes
        writeBuckets numBuckets pw (i + 1) buckets

/-- `PduData::make`. -/
def PduData.make (b : PduBuffer) (numBuckets : Int64) (buckets : List FileBucketLayout)
    (name : Bytes) : Except PduFault PduBuffer := do
  let pw ← b.writer
  let pw ← pw.write (int64Bytes numBuckets)
  let pw ← PduData.writeBuckets numBuckets.toInt pw 0 buckets
  pw.write (cStringBytes name)

/-- `PduError::make`. -/
def PduError.make (b : PduBuffer) (text : Bytes) : Except PduFault PduBuffer := do
  let pw ← b.writer
  pw.write (cStringBytes text)

/-! ### The accessors -/

/-- An `int64_t` of the struct that a payload is cast to. -/
def int64Field (payload : Bytes) (offset : ℕ) : Except PayloadFault Int64 :=
  (readField (some payload) offset 8).map int64OfBytes

/-- `PduRequest::fromTime`. -/
def PduRequest.fromTime (payload : Bytes) : Except PayloadFault Int64 := int64Field payload 0

/-- `PduRequest::numBuckets`. -/
def PduRequest.numBuckets (payload : Bytes) : Except PayloadFault Int64 := int64Field payload 8

/-- `PduRequest::getName`. -/
def PduRequest.getName (payload : Bytes) : Except PayloadFault Bytes :=
  readCString (some payload) 16

/-- `PduData::numBuckets`. -/
def PduData.numBuckets (payload : Bytes) : Except PayloadFault Int64 := int64Field payload 0

/-- `PduData::buckets[i]`. -/
def PduData.bucket (payload : Bytes) (i : ℕ) : Except PayloadFault FileBucketLayout :=
  (readField (some payload) (8 + 32 * i) 32).map FileBucketLayout.ofBytes

/-- `PduData::getName`: behind as many buckets as the pdu says that it has. -/
def PduData.getName (payload : Bytes) : Except PayloadFault Bytes := do
  let n ← PduData.numBuckets payload
  readCString (some payload) (8 + 32 * n.toInt.toNat)

/-- `PduError::getText`. -/
def PduError.getText (payload : Bytes) : Except PayloadFault Bytes := readCString (some payload) 0

/-! ### The contents of pdus -/

/-- What one of the `make` functions is given. -/
inductive PduContent
  | request (fromTime numBuckets : Int64) (name : Bytes)
  | data (numBuckets : Int64) (buckets : List FileBucketLayout) (name : Bytes)
  | error (text : Bytes)

namespace PduContent

/-- The `make` function of a content. -/
def make (b : PduBuffer) : PduContent → Except PduFault PduBuffer
  | .request fromTime numBuckets name => PduRequest.make b fromTime numBuckets name
  | .data numBuckets buckets name => PduData.make b numBuckets buckets name
  | .error text => PduError.make b text

/-- The fields of a content, in their order. -/
def fields : PduContent → List Bytes
  | .request fromTime numBuckets name =>
    [int64Bytes fromTime, int64Bytes numBuckets, cStringBytes name]
  | .data numBuckets buckets name =>
    int64Bytes numBuckets :: (buckets.map FileBucketLayout.bytes ++ [cStringBytes name])
  | .error text => [cStringBytes text]

/-- The size of a content. -/
def size : PduContent → ℕ
  | .request _ _ name => 16 + (name.length + 1)
  | .data _ buckets name => 8 + 32 * buckets.length + (name.length + 1)
  | .error text => text.length + 1

/-- The strings have no NUL, and a data pdu has as many buckets as it says. -/
def Valid : PduContent → Prop
  | .request _ _ name => 0 ∉ name
  | .data numBuckets buckets name => numBuckets.toInt = buckets.length ∧ 0 ∉ name
  | .error text => 0 ∉ text

/-- The accessors return the content. -/
def ReadBack (payload : Bytes) : PduContent → Prop
  | .request fromTime numBuckets name =>
    PduRequest.fromTime payload = .ok fromTime ∧ PduRequest.numBuckets payload = .ok numBuckets ∧
      PduRequest.getName payload = .ok name
  | .data numBuckets buckets name =>
    PduData.numBuckets payload = .ok numBuckets ∧
      (∀ i (h : i < buckets.length), PduData.bucket payload i = .ok buckets[i]) ∧
      PduData.getName payload = .ok name
  | .error text => PduError.getText payload = .ok text

end PduContent

/-! ### Sizes -/

@[simp] theorem length_int64Bytes (x : Int64) : (int64Bytes x).length = 8 :=
  LittleEndian.length_bytes 8 _

@[simp] theorem length_int32Bytes (x : Int32) : (int32Bytes x).length = 4 :=
  LittleEndian.length_bytes 4 _

@[simp] theorem length_cStringBytes (s : Bytes) : (cStringBytes s).length = s.length + 1 := by
  rw [cStringBytes, List.length_append, List.length_singleton]

@[simp] theorem FileBucketLayout.length_bytes (b : FileBucketLayout) : b.bytes.length = 32 := by
  simp only [bytes, List.length_append, LittleEndian.length_bytes, length_int64Bytes,
    length_int32Bytes]

/-- The bytes of some buckets. -/
theorem length_flatten_buckets (buckets : List FileBucketLayout) :
    (buckets.map FileBucketLayout.bytes).flatten.length = 32 * buckets.length := by
  induction buckets with
  | nil => rfl
  | cons bucket buckets ih =>
    rw [List.map_cons, List.flatten_cons, List.length_append, ih, List.length_cons,
      FileBucketLayout.length_bytes]
    omega

theorem PduContent.length_fields (c : PduContent) : c.fields.flatten.length = c.size := by
  cases c with
  | request fromTime numBuckets name =>
    simp only [fields, size, List.flatten_cons, List.flatten_nil, List.length_append,
      List.length_nil, length_int64Bytes, length_cStringBytes]
    omega
  | data numBuckets buckets name =>
    simp only [fields, size, List.flatten_cons, List.flatten_append, List.flatten_nil,
      List.length_append, List.length_nil, length_int64Bytes, length_cStringBytes,
      length_flatten_buckets]
    omega
  | error text =>
    simp only [fields, size, List.flatten_cons, List.flatten_nil, List.length_append,
      List.length_nil, length_cStringBytes, Nat.add_zero]

/-! ### Some fields in their order -/

namespace PduBuffer

/-- The buffer with some bytes behind what it has. -/
def after (b : PduBuffer) (src : Bytes) : PduBuffer :=
  { b with mem := copy b.mem b.pos src, pos := b.pos + src.length }

@[simp] theorem after_size (b : PduBuffer) (src : Bytes) : (b.after src).size = b.size := rfl

@[simp] theorem after_pos (b : PduBuffer) (src : Bytes) : (b.after src).pos = b.pos + src.length :=
  rfl

theorem after_nil (b : PduBuffer) : b.after [] = b := by
  have hmem : copy b.mem b.pos [] = b.mem := by
    funext i
    exact if_neg fun h => absurd h.2 (not_lt.2 h.1)
  rw [after, hmem, List.length_nil, Nat.add_zero]

theorem after_after (b : PduBuffer) (s t : Bytes) : (b.after s).after t = b.after (s ++ t) := by
  have hmem : copy (copy b.mem b.pos s) (b.pos + s.length) t = copy b.mem b.pos (s ++ t) := by
    funext i
    simp only [copy, List.length_append]
    by_cases hs : b.pos ≤ i ∧ i < b.pos + s.length
    · rw [if_neg (by omega), if_pos hs, if_pos (by omega), List.getD_append _ _ _ _ (by omega)]
    · by_cases ht : b.pos + s.length ≤ i ∧ i < b.pos + s.length + t.length
      · rw [if_pos ht, if_pos (by omega), List.getD_append_right _ _ _ _ (by omega),
          Nat.sub_add_eq]
      · rw [if_neg ht, if_neg hs, if_neg (by omega)]
  simp only [after, hmem, List.length_append, Nat.add_assoc]

/-- A field is written if it fits. -/
theorem write_eq {b : PduBuffer} (hsize : b.size < 2 ^ 64) (hpos : b.pos ≤ b.size) (src : Bytes) :
    b.write src = if b.pos + src.length ≤ b.size then .ok (b.after src)
      else .error (.overflow "Overflow writing to PDU" b) := by
  by_cases hfit : b.pos + src.length ≤ b.size
  · have hno : ¬(b.size < src.length ∨ (b.size + 2 ^ 64 - src.length) % 2 ^ 64 < b.pos) := by
      omega
    rw [write, if_neg hno, if_pos hfit, after, Nat.mod_eq_of_lt (by omega)]
  · have hyes : b.size < src.length ∨ (b.size + 2 ^ 64 - src.length) % 2 ^ 64 < b.pos := by
      omega
    rw [write, if_pos hyes, if_neg hfit]

/-- Some fields are written up to the first that does not fit. -/
theorem writeAll_spec (fields : List Bytes) {b : PduBuffer} (hsize : b.size < 2 ^ 64)
    (hpos : b.pos ≤ b.size) :
    (b.pos + fields.flatten.length ≤ b.size ∧
      fields.foldlM write b = .ok (b.after fields.flatten)) ∨
    ∃ (fit : List Bytes) (field : Bytes) (rest : List Bytes),
      fields = fit ++ field :: rest ∧ b.pos + fit.flatten.length ≤ b.size ∧
      b.size < b.pos + fit.flatten.length + field.length ∧
      fields.foldlM write b =
        .error (.overflow "Overflow writing to PDU" (b.after fit.flatten)) := by
  induction fields generalizing b with
  | nil =>
    refine .inl ⟨hpos, ?_⟩
    rw [List.flatten_nil, after_nil]
    rfl
  | cons field fields ih =>
    rw [List.foldlM_cons, write_eq hsize hpos]
    by_cases hfit : b.pos + field.length ≤ b.size
    · rw [if_pos hfit]
      simp only [bind, Except.bind]
      rcases ih (b := b.after field) hsize hfit with
        ⟨hle, hok⟩ | ⟨fit, next, rest, rfl, hle, hlt, herr⟩
      · left
        rw [after_pos, after_size] at hle
        rw [List.flatten_cons, List.length_append, hok, after_after]
        exact ⟨by omega, rfl⟩
      · right
        rw [after_pos, after_size] at hle hlt
        refine ⟨field :: fit, next, rest, rfl, ?_, ?_, ?_⟩
        · rw [List.flatten_cons, List.length_append]
          omega
        · rw [List.flatten_cons, List.length_append]
          omega
        · rw [herr, after_after, List.flatten_cons]
    · right
      rw [if_neg hfit]
      refine ⟨[], field, fields, rfl, hpos, by simpa using hfit, ?_⟩
      rw [List.flatten_nil, after_nil]
      rfl

/-- What is written into an empty buffer is its payload. -/
theorem payload_after {b : PduBuffer} (hpos : b.pos = 0) (src : Bytes) :
    (b.after src).payload = src := by
  refine List.ext_getElem (by simp [payload, hpos]) fun i hi hi' => ?_
  have hin : 0 ≤ i ∧ i < 0 + src.length := ⟨Nat.zero_le i, by omega⟩
  simp only [payload, List.getElem_map, List.getElem_range, after, hpos]
  rw [copy, if_pos hin, Nat.sub_zero, List.getD_eq_getElem _ _ hi']

/-- The rest of the memory is not changed. -/
theorem after_mem {b : PduBuffer} (hpos : b.pos = 0) (src : Bytes) {i : ℕ} (h : src.length ≤ i) :
    (b.after src).mem i = b.mem i :=
  if_neg (by omega)

end PduBuffer

/-! ### `make` writes the fields -/

/-- The loop over the buckets, if there are as many as it counts to. -/
theorem PduData.writeBuckets_eq (buckets : List FileBucketLayout) (pw : PduBuffer) (i : ℤ) :
    PduData.writeBuckets (i + buckets.length) pw i buckets =
      (buckets.map FileBucketLayout.bytes).foldlM PduBuffer.write pw := by
  induction buckets generalizing pw i with
  | nil =>
    rw [writeBuckets, if_pos (by simp)]
    rfl
  | cons bucket buckets ih =>
    have hne : ¬i = i + (bucket :: buckets).length := by
      rw [List.length_cons]
      omega
    have hnext : i + (bucket :: buckets).length = i + 1 + buckets.length := by
      rw [List.length_cons]
      omega
    rw [writeBuckets, if_neg hne, List.map_cons, List.foldlM_cons]
    simp only [hnext, ih]

theorem PduContent.make_eq {c : PduContent} (hc : c.Valid) (b : PduBuffer) :
    c.make b = b.writer >>= c.fields.foldlM PduBuffer.write := by
  cases c with
  | request fromTime numBuckets name =>
    simp only [make, PduRequest.make, fields, List.foldlM_cons, List.foldlM_nil, bind_pure]
  | data numBuckets buckets name =>
    have hloop (pw : PduBuffer) := PduData.writeBuckets_eq buckets pw 0
    rw [zero_add, ← hc.1] at hloop
    simp only [make, PduData.make, fields, List.foldlM_cons, List.foldlM_append, List.foldlM_nil,
      bind_pure, hloop]
  | error text =>
    simp only [make, PduError.make, fields, List.foldlM_cons, List.foldlM_nil, bind_pure]

/-! ### The accessors read the fields -/

theorem int64OfBytes_bytes (x : Int64) : int64OfBytes (int64Bytes x) = x := by
  have hlt : x.toUInt64.toNat < 256 ^ 8 := x.toUInt64.toNat_lt
  rw [int64OfBytes, int64Bytes, LittleEndian.value_bytes_of_lt hlt, UInt64.ofNat_toNat,
    Int64.toInt64_toUInt64]

theorem int32OfBytes_bytes (x : Int32) : int32OfBytes (int32Bytes x) = x := by
  have hlt : x.toUInt32.toNat < 256 ^ 4 := x.toUInt32.toNat_lt
  rw [int32OfBytes, int32Bytes, LittleEndian.value_bytes_of_lt hlt, UInt32.ofNat_toNat,
    Int32.toInt32_toUInt32]

theorem FileBucketLayout.ofBytes_bytes (b : FileBucketLayout) : ofBytes b.bytes = b := by
  have h8 (n : UInt64) : UInt64.ofNat (LittleEndian.value (LittleEndian.bytes 8 n.toNat)) = n := by
    rw [LittleEndian.value_bytes_of_lt n.toNat_lt, UInt64.ofNat_toNat]
  have h4 (n : UInt32) : UInt32.ofNat (LittleEndian.value (LittleEndian.bytes 4 n.toNat)) = n := by
    rw [LittleEndian.value_bytes_of_lt n.toNat_lt, UInt32.ofNat_toNat]
  simp [ofBytes, bytes, List.drop_append, List.drop_eq_nil_of_le,
    List.take_of_length_le, int64OfBytes_bytes, int32OfBytes_bytes, h8, h4]

theorem readField_field {fields : List Bytes} {j : ℕ} {field : Bytes}
    (hj : fields[j]? = some field) {offset size : ℕ}
    (hoff : offset = (fields.take j).flatten.length) (hsize : size = field.length) :
    readField (some fields.flatten) offset size = .ok field := by
  subst hoff hsize
  have hread := LittleEndian.take_drop_field hj []
  rw [List.append_nil] at hread
  rw [ReplicaConnection.readField_ok (LittleEndian.field_end_le hj), hread]

theorem readCString_end (pre : Bytes) {s : Bytes} (hs : 0 ∉ s) {offset : ℕ}
    (hoff : offset = pre.length) : readCString (some (pre ++ cStringBytes s)) offset = .ok s := by
  subst hoff
  have hkeep : ∀ c ∈ s, decide (c ≠ 0) = true := fun c hc => by
    simpa using fun h : c = 0 => hs (h ▸ hc)
  have hmem : (0 : UInt8) ∈ s ++ [0] := by simp
  simp only [readCString, cStringBytes, List.drop_left]
  rw [if_pos hmem, List.takeWhile_append_of_pos hkeep]
  simp

theorem int64Field_field {fields : List Bytes} {j : ℕ} {x : Int64}
    (hj : fields[j]? = some (int64Bytes x)) {offset : ℕ}
    (hoff : offset = (fields.take j).flatten.length) :
    int64Field fields.flatten offset = .ok x := by
  rw [int64Field, readField_field hj hoff (length_int64Bytes x).symm, Except.map,
    int64OfBytes_bytes]

/-- A bucket lies behind those in front of it in the array. -/
theorem PduData.bucket_field (n : Int64) (buckets : List FileBucketLayout) (name : Bytes) {i : ℕ}
    (h : i < buckets.length) :
    PduData.bucket (PduContent.data n buckets name).fields.flatten i = .ok buckets[i] := by
  have hj : (PduContent.data n buckets name).fields[i + 1]? = some buckets[i].bytes := by
    rw [PduContent.fields, List.getElem?_cons_succ,
      List.getElem?_append_left (by rwa [List.length_map]), List.getElem?_map,
      List.getElem?_eq_getElem h, Option.map_some]
  have htake : (PduContent.data n buckets name).fields.take (i + 1) =
      int64Bytes n :: (buckets.take i).map FileBucketLayout.bytes := by
    rw [PduContent.fields, List.take_succ_cons,
      List.take_append_of_le_length (by rw [List.length_map]; exact h.le), List.map_take]
  have hoff : 8 + 32 * i =
      ((PduContent.data n buckets name).fields.take (i + 1)).flatten.length := by
    rw [htake, List.flatten_cons, List.length_append, length_int64Bytes, length_flatten_buckets,
      List.length_take, min_eq_left h.le]
  rw [PduData.bucket, readField_field hj hoff (FileBucketLayout.length_bytes _).symm, Except.map,
    FileBucketLayout.ofBytes_bytes]

/-- The accessors read the fields back. -/
theorem PduContent.readBack {c : PduContent} (hc : c.Valid) : c.ReadBack c.fields.flatten := by
  cases c with
  | request fromTime numBuckets name =>
    have hbytes : (request fromTime numBuckets name).fields.flatten =
        (int64Bytes fromTime ++ int64Bytes numBuckets) ++ cStringBytes name := by
      simp only [fields, List.flatten_cons, List.flatten_nil, List.append_nil, List.append_assoc]
    have hoff : 16 = (int64Bytes fromTime ++ int64Bytes numBuckets).length := by
      rw [List.length_append, length_int64Bytes, length_int64Bytes]
    have hname : PduRequest.getName (request fromTime numBuckets name).fields.flatten = .ok name := by
      rw [PduRequest.getName, hbytes, readCString_end _ hc hoff]
    exact ⟨int64Field_field (j := 0) rfl rfl, int64Field_field (j := 1) rfl rfl, hname⟩
  | data numBuckets buckets name =>
    have hbytes : (data numBuckets buckets name).fields.flatten =
        (int64Bytes numBuckets ++ (buckets.map FileBucketLayout.bytes).flatten) ++
          cStringBytes name := by
      simp only [fields, List.flatten_cons, List.flatten_append, List.flatten_nil, List.append_nil,
        List.append_assoc]
    obtain ⟨hlen, hnul⟩ := hc
    have hnum : PduData.numBuckets (data numBuckets buckets name).fields.flatten =
        .ok numBuckets := int64Field_field (j := 0) rfl rfl
    have hoff : 8 + 32 * numBuckets.toInt.toNat =
        (int64Bytes numBuckets ++ (buckets.map FileBucketLayout.bytes).flatten).length := by
      rw [hlen, Int.toNat_natCast, List.length_append, length_int64Bytes, length_flatten_buckets]
    have hname : PduData.getName (data numBuckets buckets name).fields.flatten = .ok name := by
      rw [PduData.getName, hnum]
      simp only [bind, Except.bind]
      rw [hbytes, readCString_end _ hnul hoff]
    exact ⟨hnum, fun i h => PduData.bucket_field numBuckets buckets name h, hname⟩
  | error text =>
    have hbytes : (error text).fields.flatten = cStringBytes text := by
      simp only [fields, List.flatten_cons, List.flatten_nil, List.append_nil]
    have htext : PduError.getText (error text).fields.flatten = .ok text := by
      rw [PduError.getText, hbytes]
      exact readCString_end [] hc rfl
    exact htext

/-! ### All pdus and all buffers -/

theorem PduContent.fields_ne_nil (c : PduContent) : c.fields ≠ [] := by
  cases c <;> exact List.cons_ne_nil _ _

/-- What `make` does with a content that fits, and with one that does not. -/
theorem PduContent.make_cases {c : PduContent} (hc : c.Valid) {b : PduBuffer}
    (hsize : b.size < 2 ^ 64) (hpos : b.pos = 0) :
    (c.size ≤ b.size ∧ c.make b = .ok (b.after c.fields.flatten)) ∨
    (b.size < c.size ∧ ∃ (what : String) (fit : List Bytes) (field : Bytes) (rest : List Bytes),
      c.fields = fit ++ field :: rest ∧
      fit.flatten.length ≤ b.size ∧ b.size < fit.flatten.length + field.length ∧
      c.make b = .error (.overflow what (b.after fit.flatten))) := by
  rw [PduContent.make_eq hc, ← PduContent.length_fields]
  by_cases hzero : b.size = 0
  · right
    obtain ⟨field, rest, hfields⟩ := List.exists_cons_of_ne_nil c.fields_ne_nil
    have hfield : 0 < field.length := by
      cases c <;> simp only [fields, List.cons.injEq] at hfields <;> rw [← hfields.1] <;> simp
    have hno : b.size ≤ b.pos := by omega
    refine ⟨?_, "No space in buffer in PduWriter::PduWriter()", [], field, rest, hfields, ?_, ?_, ?_⟩
    · rw [hfields, List.flatten_cons, List.length_append]
      omega
    · exact Nat.zero_le _
    · rw [hzero, List.flatten_nil, List.length_nil]
      omega
    · rw [PduBuffer.writer, if_pos hno, List.flatten_nil, PduBuffer.after_nil]
      rfl
  · have hspace : ¬b.size ≤ b.pos := by omega
    have hok : b.writer = .ok b := if_neg hspace
    rw [hok]
    simp only [bind, Except.bind]
    rcases PduBuffer.writeAll_spec c.fields hsize (by omega) with
      ⟨hle, hwrite⟩ | ⟨fit, field, rest, hfields, hle, hlt, hwrite⟩
    · left
      rw [hpos, Nat.zero_add] at hle
      exact ⟨hle, hwrite⟩
    · right
      rw [hpos, Nat.zero_add] at hle hlt
      refine ⟨?_, _, fit, field, rest, hfields, hle, hlt, hwrite⟩
      rw [hfields, List.flatten_append, List.flatten_cons, List.length_append, List.length_append]
      omega

/-- **A pdu is written within its buffer and read back.**  `make` throws an overflow exactly if the
content does not fit.  Then the position is behind the fields in front of one that does not fit, and
these are what has been written.  Otherwise it is behind the content, and the accessors return what
was given.  Behind the position, and so beyond the buffer, nothing is changed. -/
theorem PduContent.make_spec (c : PduContent) (mem : ℕ → UInt8) (size : ℕ) (hc : c.Valid)
    (hsize : size < 2 ^ 64) :
    ((∃ what b', c.make ⟨mem, size, 0⟩ = .error (.overflow what b')) ↔ size < c.size) ∧
    (∀ fault, c.make ⟨mem, size, 0⟩ = .error fault →
      ∃ (what : String) (b' : PduBuffer) (fit : List Bytes) (field : Bytes) (rest : List Bytes),
        fault = .overflow what b' ∧ c.fields = fit ++ field :: rest ∧
        b'.payload = fit.flatten ∧ b'.pos = fit.flatten.length ∧ b'.pos ≤ size ∧
        size < b'.pos + field.length ∧ ∀ i, b'.pos ≤ i → b'.mem i = mem i) ∧
    ∀ b', c.make ⟨mem, size, 0⟩ = .ok b' →
      b'.pos = c.size ∧ b'.pos ≤ size ∧ c.ReadBack b'.payload ∧
        ∀ i, b'.pos ≤ i → b'.mem i = mem i := by
  have hmem (src : Bytes) (i : ℕ) (hi : ((⟨mem, size, 0⟩ : PduBuffer).after src).pos ≤ i) :
      ((⟨mem, size, 0⟩ : PduBuffer).after src).mem i = mem i := by
    rw [PduBuffer.after_pos, Nat.zero_add] at hi
    exact PduBuffer.after_mem rfl src hi
  rcases PduContent.make_cases (b := ⟨mem, size, 0⟩) hc hsize rfl with
    ⟨hle, hok⟩ | ⟨hlt, what, fit, field, rest, hfields, hle, hbig, herr⟩
  · rw [hok]
    refine ⟨⟨?_, fun hlt => absurd hle (not_le.2 hlt)⟩, ?_, ?_⟩
    · rintro ⟨what, b', h⟩
      cases h
    · intro fault h
      cases h
    · intro b' h
      cases h
      have hpos : ((⟨mem, size, 0⟩ : PduBuffer).after c.fields.flatten).pos = c.size := by
        rw [PduBuffer.after_pos, Nat.zero_add, c.length_fields]
      refine ⟨hpos, hpos.trans_le hle, ?_, hmem _⟩
      rw [PduBuffer.payload_after rfl]
      exact c.readBack hc
  · rw [herr]
    refine ⟨⟨fun _ => hlt, fun _ => ⟨_, _, rfl⟩⟩, ?_, ?_⟩
    · intro fault h
      cases h
      have hpos : ((⟨mem, size, 0⟩ : PduBuffer).after fit.flatten).pos = fit.flatten.length := by
        rw [PduBuffer.after_pos, Nat.zero_add]
      refine ⟨what, _, fit, field, rest, rfl, hfields, PduBuffer.payload_after rfl _, hpos, ?_, ?_,
        hmem _⟩
      · exact hpos.trans_le hle
      · rw [hpos]
        exact hbig
    · intro b' h
      cases h

/-- A bucket and the name of its counter take 42 bytes. -/
theorem PduContent.make_spec_sample :
    ∃ what b', PduContent.make ⟨fun _ => 7, 41, 0⟩ (.data 1 [⟨60, 0, 0, 0, 1, 0⟩] [97]) =
      .error (.overflow what b') :=
  (PduContent.make_spec (.data 1 [⟨60, 0, 0, 0, 1, 0⟩] [97]) (fun _ => 7) 41
    ⟨by decide, by decide⟩ (by decide)).1.2 (by decide)

end Istatd
