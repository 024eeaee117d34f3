import Istatd.StrFunc
import Istatd.Lib.Varint

/-!
# Offers of the transplant tool (`tool/istatd_transplant.cpp`)

Client and server of `istatd_transplant` exchange offers: the path of a counter file, a range of
times and the buckets one side has there.  A packet is four bytes of length and an offer, which is
a sequence of variable-length integers followed by the bytes of the buckets.  A read that fails sets
the offset of the decoder to `(size_t)-1` and the decoder goes on: every later read then fails too.

* `marshalOffer`, `demarshalOffer`, `completeRequest`: the functions of the source;
* `demarshalOffer_marshalOffer`: an offer is read back as it was written;
* `Announces`: the packets with a count of buckets, as a grammar;
* `safelyDecoded_iff`: the count is what `reserve` is asked for, before any bucket is read, so that
  a packet is decoded safely exactly if it announces no more buckets than it holds.

A bucket is the 32 bytes of a `FileBucketLayout` here.  The cursor records the reads a decoder
makes, each with its position and size; the program has no such record.
-/

namespace Istatd

/-- `ProtoOffer`. -/
structure ProtoOffer (β : Type) where
  filepath : Bytes
  starttime : UInt64
  endtime : UInt64
  buckets : List β
  deriving DecidableEq

/-- The bytes of a `FileBucketLayout`. -/
abbrev BucketLayout := { bs : Bytes // bs.length = 32 }

/-! ### Writing -/

/-- `marshal_integral`.  Ten rounds are enough for 64 bits. -/
def marshalLoop : ℕ → UInt64 → Bytes → Bytes
  | 0, _, obuf => obuf
  | n + 1, val, obuf =>
    let ch := (val &&& 0x7f).toUInt8
    let val := val >>> 7
    if val ≠ 0 then marshalLoop n val (obuf ++ [ch ||| 0x80]) else obuf ++ [ch]

@[inherit_doc marshalLoop]
def marshalIntegral (val : UInt64) (obuf : Bytes) : Bytes := marshalLoop 10 val obuf

/-- `marshal_string`. -/
def marshalString (str : Bytes) (obuf : Bytes) : Except String Bytes :=
  if 0x1000 < str.length then .error "String too long in marshal_string()"
  else
    .ok (str.foldl (fun obuf ch => marshalIntegral ch.toUInt64 obuf)
      (marshalIntegral (UInt64.ofNat str.length) obuf))

/-- `marshal_bucket`. -/
def marshalBucket (b : BucketLayout) (obuf : Bytes) : Bytes := obuf ++ b.val

/-- `marshal_offer`. -/
def marshalOffer (offer : ProtoOffer BucketLayout) (buf : Bytes) : Except String Bytes :=
  match marshalString offer.filepath buf with
  | .error e => .error e
  | .ok buf =>
    let buf := marshalIntegral offer.starttime buf
    let buf := marshalIntegral offer.endtime buf
    let buf := marshalIntegral (UInt64.ofNat offer.buckets.length) buf
    .ok (offer.buckets.foldl (fun buf b => marshalBucket b buf) buf)

/-! ### Reading -/

/-- `(size_t)-1`. -/
def badOffset : ℕ := 2 ^ 64 - 1

/-- The offset of a decoder, and the reads it has made, latest first. -/
structure Cursor where
  offset : ℕ
  reads : List (ℕ × ℕ)

namespace Cursor

/-- A read that fails. -/
def fail (c : Cursor) : Cursor := { c with offset := badOffset }

/-- A read of `n` bytes at the offset. -/
def advance (c : Cursor) (n : ℕ) : Cursor := ⟨c.offset + n, (c.offset, n) :: c.reads⟩

@[simp] theorem fail_offset (c : Cursor) : c.fail.offset = badOffset := rfl
@[simp] theorem fail_reads (c : Cursor) : c.fail.reads = c.reads := rfl
@[simp] theorem advance_offset (c : Cursor) (n : ℕ) : (c.advance n).offset = c.offset + n := rfl

/-- All reads were inside the buffer. -/
def InBounds (ibuf : Bytes) (c : Cursor) : Prop := ∀ r ∈ c.reads, r.1 + r.2 ≤ ibuf.length

end Cursor

/-- `demarshal_integral`.  The shift is too large after ten rounds. -/
def demarshalLoop (ibuf : Bytes) : ℕ → ℕ → UInt64 → Cursor → UInt64 × Cursor
  | 0, _, ret, c => (ret, c)
  | n + 1, shift, ret, c =>
    if ibuf.length ≤ c.offset then (0, c.fail)
    else
      let ch := ibuf.getD c.offset 0
      let c := c.advance 1
      let ret := ret ||| (ch &&& 0x7f).toUInt64 <<< UInt64.ofNat shift
      let shift := shift + 7
      if ch &&& 0x80 = 0 then (ret, c)
      else if 63 < shift then (0, c.fail)
      else demarshalLoop ibuf n shift ret c

@[inherit_doc demarshalLoop]
def demarshalIntegral (ibuf : Bytes) (c : Cursor) : UInt64 × Cursor := demarshalLoop ibuf 10 0 0 c

/-- The loop of `demarshal_string`. -/
def demarshalChars (ibuf : Bytes) : ℕ → Bytes → Cursor → Bytes × Cursor
  | 0, ret, c => (ret, c)
  | len + 1, ret, c =>
    let val := demarshalIntegral ibuf c
    if val.1 = 0 ∨ 255 < val.1 then ([], val.2.fail)
    else demarshalChars ibuf len (ret ++ [val.1.toUInt8]) val.2

/-- `demarshal_string`. -/
def demarshalString (ibuf : Bytes) (c : Cursor) : Bytes × Cursor :=
  let len := demarshalIntegral ibuf c
  if 0x1000 < len.1 then ([], len.2.fail) else demarshalChars ibuf len.1.toNat [] len.2

/-- `demarshal_bucket`. -/
def demarshalBucket (ibuf : Bytes) (c : Cursor) : Option BucketLayout × Cursor :=
  if h : ibuf.length ≤ c.offset ∨ ibuf.length < 32 ∨ ibuf.length - 32 < c.offset then
    (none, c.fail)
  else
    (some ⟨(ibuf.drop c.offset).take 32, by rw [List.length_take, List.length_drop]; omega⟩,
      c.advance 32)

/-- What `std::vector::reserve` can throw. -/
inductive ReserveError
  | lengthError
  | badAlloc
  deriving DecidableEq

/-- `reserve(n)` on a vector of buckets, whose `max_size` is that of 32-byte elements, with an
allocator that has room for `available` buckets. -/
def reserve (available n : ℕ) : Except ReserveError Unit :=
  if (2 ^ 63 - 1) / 32 < n then .error .lengthError
  else if available < n then .error .badAlloc
  else .ok ()

/-- The loop of `demarshal_offer`: whether all buckets could be read, those that were, and the
cursor. -/
def demarshalBuckets (buffer : Bytes) : ℕ → List BucketLayout → Cursor →
    Bool × List BucketLayout × Cursor
  | 0, buckets, c => (decide (c.offset ≤ buffer.length), buckets, c)
  | n + 1, buckets, c =>
    match demarshalBucket buffer c with
    | (none, c) => (false, buckets, c.fail)
    | (some b, c) => demarshalBuckets buffer n (buckets ++ [b]) c

/-- A call of `demarshal_offer`: the buckets `reserve` was asked for and the offset at that time,
the cursor at the end, and what was returned or thrown. -/
structure Decoding where
  reserved : ℕ
  reservedAt : ℕ
  cursor : Cursor
  result : Except ReserveError (Bool × ProtoOffer BucketLayout)

/-- `demarshal_offer`. -/
def demarshalOffer (available : ℕ) (buffer : Bytes) (c : Cursor) : Decoding :=
  let filepath := demarshalString buffer c
  let starttime := demarshalIntegral buffer filepath.2
  let endtime := demarshalIntegral buffer starttime.2
  let n := demarshalIntegral buffer endtime.2
  match reserve available n.1.toNat with
  | .error e => ⟨n.1.toNat, n.2.offset, n.2, .error e⟩
  | .ok () =>
    let buckets := demarshalBuckets buffer n.1.toNat [] n.2
    ⟨n.1.toNat, n.2.offset, buckets.2.2,
      .ok (buckets.1, ⟨filepath.1, starttime.1, endtime.1, buckets.2.1⟩)⟩

/-- `ServerClient::complete_request`, as far as the offer it goes on with: none if the packet is
rejected as corrupt or truncated. -/
def completeRequest (available : ℕ) (buffer : Bytes) :
    Except ReserveError (Option (ProtoOffer BucketLayout)) :=
  let d := demarshalOffer available buffer ⟨4, []⟩
  match d.result with
  | .error e => .error e
  | .ok (_, offer) => .ok (if d.cursor.offset ≠ buffer.length then none else some offer)

/-- `MAX_TRANSFER_SIZE`. -/
def maxTransferSize : ℕ := 0x4000000

/-! ### One integer -/

theorem toUInt8_low (val : UInt64) : (val &&& 0x7f).toUInt8 = UInt8.ofNat (val.toNat % 128) := by
  apply UInt8.toNat_inj.1
  rw [UInt64.toNat_toUInt8, UInt64.toNat_and, Varint.toNat_ofNat_low,
    show (0x7f : UInt64).toNat = 2 ^ 7 - 1 from rfl, Nat.and_two_pow_sub_one_eq_mod]
  omega

theorem toUInt8_high (val : UInt64) :
    (val &&& 0x7f).toUInt8 ||| 0x80 = UInt8.ofNat (val.toNat % 128 + 128) := by
  have hlt : val.toNat % 128 < 2 ^ 7 := Nat.mod_lt _ (by decide)
  apply UInt8.toNat_inj.1
  rw [toUInt8_low, UInt8.toNat_or, Varint.toNat_ofNat_low, Varint.toNat_ofNat_high,
    show (0x80 : UInt8).toNat = 2 ^ 7 * 1 from rfl, Nat.or_comm,
    ← Nat.two_pow_add_eq_or_of_lt hlt 1]
  omega

/-- What is written for an integer is its word. -/
theorem marshalLoop_eq (n : ℕ) (val : UInt64) (obuf : Bytes) :
    marshalLoop n val obuf = obuf ++ Varint.word n val.toNat := by
  have hshift : ∀ val : UInt64, (val >>> 7).toNat = val.toNat / 128 := fun val => by
    rw [UInt64.toNat_shiftRight]
    simp [Nat.shiftRight_eq_div_pow]
  induction n generalizing val obuf with
  | zero => simp [marshalLoop, Varint.word]
  | succ n ih =>
    have hzero : val >>> 7 = 0 ↔ val.toNat / 128 = 0 := by
      rw [← UInt64.toNat_inj, hshift]
      rfl
    simp only [marshalLoop, Varint.word]
    by_cases h0 : val.toNat / 128 = 0
    · rw [if_neg (not_not.2 (hzero.2 h0)), if_pos h0, toUInt8_low]
    · rw [if_pos (fun h => h0 (hzero.1 h)), if_neg h0, toUInt8_high, ih, hshift,
        List.append_assoc, List.singleton_append]

theorem marshalIntegral_eq (val : UInt64) (obuf : Bytes) :
    marshalIntegral val obuf = obuf ++ Varint.word 10 val.toNat := marshalLoop_eq 10 val obuf

/-- One group of bits put in above the `s` bits read so far. -/
theorem or_shiftLeft {ret : UInt64} {s : ℕ} (hret : ret.toNat < 2 ^ s) (hs : s ≤ 63) (ch : UInt8) :
    ret ||| (ch &&& 0x7f).toUInt64 <<< UInt64.ofNat s =
      UInt64.ofNat (ret.toNat + 2 ^ s * (ch.toNat % 128)) := by
  have hs' : (UInt64.ofNat s).toNat % 64 = s := by
    rw [UInt64.toNat_ofNat']
    omega
  have hpow : 2 ^ 64 = 2 ^ s * 2 ^ (64 - s) := by rw [← pow_add, Nat.add_sub_cancel' (by omega)]
  have hor := Nat.two_pow_add_eq_or_of_lt hret (ch.toNat % 128 % 2 ^ (64 - s))
  apply UInt64.toNat_inj.1
  rw [UInt64.toNat_or, UInt64.toNat_shiftLeft, hs', UInt8.toNat_toUInt64, UInt8.toNat_and,
    show (0x7f : UInt8).toNat = 2 ^ 7 - 1 from rfl, Nat.and_two_pow_sub_one_eq_mod,
    Nat.shiftLeft_eq, Nat.mul_comm, UInt64.toNat_ofNat', hpow, Nat.mul_mod_mul_left, Nat.or_comm,
    show (2 : ℕ) ^ 7 = 128 from rfl, ← hor, Nat.mod_mul, Nat.add_mul_mod_self_left,
    Nat.mod_eq_of_lt hret, Nat.add_mul_div_left _ _ (Nat.two_pow_pos s), Nat.div_eq_of_lt hret,
    Nat.zero_add, Nat.add_comm]

theorem and_top_eq_zero_iff (ch : UInt8) : ch &&& 0x80 = 0 ↔ ch.toNat < 128 := by
  have hall : ∀ i : Fin 256, i.val &&& 128 = i.val / 128 * 128 := by decide +kernel
  rw [← UInt8.toNat_inj, UInt8.toNat_and, show (0x80 : UInt8).toNat = 128 from rfl,
    hall ⟨ch.toNat, ch.toNat_lt⟩, show (0 : UInt8).toNat = 0 from rfl]
  simp only
  omega

/-- A round with no byte left. -/
theorem demarshalLoop_of_drop_eq_nil {ibuf : Bytes} (n shift : ℕ) (ret : UInt64) {c : Cursor}
    (hd : ibuf.drop c.offset = []) : demarshalLoop ibuf (n + 1) shift ret c = (0, c.fail) := by
  rw [demarshalLoop, if_pos (List.drop_eq_nil_iff.1 hd)]

/-- A round on a byte. -/
theorem demarshalLoop_of_drop_eq_cons {ibuf bs : Bytes} {b : UInt8} (n shift : ℕ) (ret : UInt64)
    {c : Cursor} (hd : ibuf.drop c.offset = b :: bs) :
    demarshalLoop ibuf (n + 1) shift ret c =
      let ret := ret ||| (b &&& 0x7f).toUInt64 <<< UInt64.ofNat shift
      if b.toNat < 128 then (ret, c.advance 1)
      else if 63 < shift + 7 then (0, (c.advance 1).fail)
      else demarshalLoop ibuf n (shift + 7) ret (c.advance 1) := by
  have hlt : ¬ ibuf.length ≤ c.offset := fun h => by
    rw [List.drop_of_length_le h] at hd
    cases hd
  have hb : ibuf.getD c.offset 0 = b := by
    have h0 : (ibuf.drop c.offset)[0]? = some b := by rw [hd]; rfl
    rw [List.getElem?_drop, Nat.add_zero] at h0
    rw [List.getD_eq_getElem?_getD, h0, Option.getD_some]
  simp only [demarshalLoop, if_neg hlt, hb, and_top_eq_zero_iff]

/-- What follows the bytes that have been read. -/
theorem drop_of_drop_eq_append {l w r : Bytes} {o o' : ℕ} (hd : l.drop o = w ++ r)
    (ho : o' = o + w.length) : l.drop o' = r := by
  rw [ho, ← List.drop_drop, hd, List.drop_left]

/-- The rounds left on a word: its groups go above the bits read so far. -/
theorem demarshalLoop_of_isWord {ibuf w r : Bytes} {n i : ℕ} (ret : UInt64) {c : Cursor}
    (hi : n + i = 10) (hret : ret.toNat < 2 ^ (7 * i)) (hw : Varint.IsWord n w)
    (hd : ibuf.drop c.offset = w ++ r) :
    (demarshalLoop ibuf n (7 * i) ret c).1 =
        UInt64.ofNat (ret.toNat + 2 ^ (7 * i) * Varint.value w) ∧
      (demarshalLoop ibuf n (7 * i) ret c).2.offset = c.offset + w.length := by
  induction n generalizing i ret c w with
  | zero => exact hw.elim
  | succ n ih =>
    cases w with
    | nil => exact hw.elim
    | cons b w =>
      rw [demarshalLoop_of_drop_eq_cons n _ ret hd, or_shiftLeft hret (by omega)]
      rw [Varint.IsWord] at hw
      simp only
      split_ifs at hw ⊢ with htop hshift
      · subst hw
        exact ⟨by simp [Varint.value], rfl⟩
      · -- a word has no eleventh byte
        obtain rfl : n = 0 := by omega
        exact hw.elim
      · have hlt : ret.toNat + 2 ^ (7 * i) * (b.toNat % 128) < 2 ^ (7 * (i + 1)) := by
          have hmod : b.toNat % 128 < 128 := Nat.mod_lt _ (by decide)
          rw [show 7 * (i + 1) = 7 * i + 7 by ring, pow_add]
          nlinarith
        have hle : 2 ^ (7 * (i + 1)) ≤ 2 ^ 64 := Nat.pow_le_pow_right (by decide) (by omega)
        have hnew : (UInt64.ofNat (ret.toNat + 2 ^ (7 * i) * (b.toNat % 128))).toNat =
            ret.toNat + 2 ^ (7 * i) * (b.toNat % 128) := by
          rw [UInt64.toNat_ofNat', Nat.mod_eq_of_lt (by omega)]
        have hd' : ibuf.drop (c.advance 1).offset = w ++ r :=
          drop_of_drop_eq_append (w := [b]) hd rfl
        have h := ih (i := i + 1) _ (by omega) (by rw [hnew]; exact hlt) hw hd'
        rw [show 7 * i + 7 = 7 * (i + 1) by ring]
        refine ⟨h.1.trans ?_, h.2.trans ?_⟩
        · rw [hnew, Varint.value, show 7 * (i + 1) = 7 * i + 7 by ring, pow_add]
          congr 1
          ring
        · rw [Cursor.advance_offset, List.length_cons]
          ring

/-- No word at the offset: the bytes end inside it, or it has more than the rounds left. -/
theorem demarshalLoop_of_front_eq_none {ibuf : Bytes} {n i : ℕ} (ret : UInt64) {c : Cursor}
    (hi : n + 1 + i = 10) (h : Varint.front (n + 1) (ibuf.drop c.offset) = none) :
    (demarshalLoop ibuf (n + 1) (7 * i) ret c).1 = 0 ∧
      (demarshalLoop ibuf (n + 1) (7 * i) ret c).2.offset = badOffset := by
  induction n generalizing i ret c with
  | zero =>
    cases hd : ibuf.drop c.offset with
    | nil => rw [demarshalLoop_of_drop_eq_nil _ _ _ hd]; exact ⟨rfl, rfl⟩
    | cons b bs =>
      rw [demarshalLoop_of_drop_eq_cons _ _ _ hd]
      rw [hd, Varint.front] at h
      simp only
      split_ifs at h ⊢ with htop hshift
      · exact ⟨rfl, rfl⟩
      · omega
  | succ n ih =>
    cases hd : ibuf.drop c.offset with
    | nil => rw [demarshalLoop_of_drop_eq_nil _ _ _ hd]; exact ⟨rfl, rfl⟩
    | cons b bs =>
      rw [demarshalLoop_of_drop_eq_cons _ _ _ hd]
      rw [hd, Varint.front] at h
      simp only
      split_ifs at h ⊢ with htop hshift
      · exact ⟨rfl, rfl⟩
      · refine ih (i := i + 1) _ (by omega) ?_
        have hd' : ibuf.drop (c.advance 1).offset = bs :=
          drop_of_drop_eq_append (w := [b]) hd rfl
        rw [hd']
        exact Option.map_eq_none_iff.1 h

theorem Cursor.InBounds.advance {ibuf : Bytes} {c : Cursor} {n : ℕ} (h : c.InBounds ibuf)
    (hn : c.offset + n ≤ ibuf.length) : (c.advance n).InBounds ibuf := by
  intro r hr
  rcases List.mem_cons.1 hr with rfl | hr
  · exact hn
  · exact h r hr

theorem demarshalLoop_inBounds {ibuf : Bytes} (n shift : ℕ) (ret : UInt64) {c : Cursor}
    (h : c.InBounds ibuf) : (demarshalLoop ibuf n shift ret c).2.InBounds ibuf := by
  induction n generalizing shift ret c with
  | zero => exact h
  | succ n ih =>
    rw [demarshalLoop]
    simp only
    split_ifs with hend
    · exact h
    · exact h.advance (by omega)
    · exact h.advance (by omega)
    · exact ih _ _ (h.advance (by omega))

theorem demarshalIntegral_inBounds {ibuf : Bytes} {c : Cursor} (h : c.InBounds ibuf) :
    (demarshalIntegral ibuf c).2.InBounds ibuf := demarshalLoop_inBounds 10 0 0 h

/-- An integer read where a word stands. -/
theorem demarshalIntegral_of_isWord {ibuf w r : Bytes} {c : Cursor} (hw : Varint.IsWord 10 w)
    (hd : ibuf.drop c.offset = w ++ r) :
    (demarshalIntegral ibuf c).1 = UInt64.ofNat (Varint.value w) ∧
      (demarshalIntegral ibuf c).2.offset = c.offset + w.length := by
  have h := demarshalLoop_of_isWord (i := 0) 0 rfl (by decide) hw hd
  rw [Nat.mul_zero, pow_zero, Nat.one_mul, show (0 : UInt64).toNat = 0 from rfl, Nat.zero_add] at h
  exact h

/-- An integer read where no word stands. -/
theorem demarshalIntegral_of_front_eq_none {ibuf : Bytes} {c : Cursor}
    (h : Varint.front 10 (ibuf.drop c.offset) = none) :
    (demarshalIntegral ibuf c).1 = 0 ∧ (demarshalIntegral ibuf c).2.offset = badOffset :=
  demarshalLoop_of_front_eq_none (i := 0) 0 rfl h

/-- An integer read after a failure fails again. -/
theorem demarshalIntegral_of_badOffset {ibuf : Bytes} {c : Cursor} (hlen : ibuf.length ≤ badOffset)
    (h : c.offset = badOffset) :
    (demarshalIntegral ibuf c).1 = 0 ∧ (demarshalIntegral ibuf c).2.offset = badOffset := by
  apply demarshalIntegral_of_front_eq_none
  rw [h, List.drop_of_length_le hlen]
  rfl

/-- An integer read is a word, or a failure. -/
theorem demarshalIntegral_cases (ibuf : Bytes) (c : Cursor) :
    (∃ w r, Varint.IsWord 10 w ∧ ibuf.drop c.offset = w ++ r) ∨
      (demarshalIntegral ibuf c).1 = 0 ∧ (demarshalIntegral ibuf c).2.offset = badOffset := by
  cases hf : Varint.front 10 (ibuf.drop c.offset) with
  | none => exact Or.inr (demarshalIntegral_of_front_eq_none hf)
  | some p => exact Or.inl ⟨p.1, p.2, Varint.front_eq_some_iff.1 hf⟩

/-! ### Strings and buckets -/

/-- A word that is read as a character of a string. -/
def CharWord (w : Bytes) : Prop :=
  Varint.IsWord 10 w ∧ 1 ≤ Varint.value w % 2 ^ 64 ∧ Varint.value w % 2 ^ 64 ≤ 255

theorem not_bad_iff {w : Bytes} :
    ¬ (UInt64.ofNat (Varint.value w) = 0 ∨ 255 < UInt64.ofNat (Varint.value w)) ↔
      1 ≤ Varint.value w % 2 ^ 64 ∧ Varint.value w % 2 ^ 64 ≤ 255 := by
  rw [← UInt64.toNat_inj, UInt64.lt_iff_toNat_lt, UInt64.toNat_ofNat',
    show (0 : UInt64).toNat = 0 from rfl, show (255 : UInt64).toNat = 255 from rfl]
  omega

/-- Characters read where their words stand. -/
theorem demarshalChars_of_words {ibuf r : Bytes} {ws : List Bytes} (ret : Bytes) {c : Cursor}
    (hws : ∀ w ∈ ws, CharWord w) (hd : ibuf.drop c.offset = ws.flatten ++ r) :
    (demarshalChars ibuf ws.length ret c).1 =
        ret ++ ws.map (fun w => (UInt64.ofNat (Varint.value w)).toUInt8) ∧
      (demarshalChars ibuf ws.length ret c).2.offset = c.offset + ws.flatten.length := by
  induction ws generalizing ret c with
  | nil => simp [demarshalChars]
  | cons w ws ih =>
    obtain ⟨hw, hval⟩ := hws w (by simp)
    rw [List.flatten_cons, List.append_assoc] at hd
    obtain ⟨h1, h2⟩ := demarshalIntegral_of_isWord hw hd
    have h := ih (ret ++ [(UInt64.ofNat (Varint.value w)).toUInt8])
      (fun v hv => hws v (by simp [hv])) (drop_of_drop_eq_append hd h2)
    simp only [List.length_cons, demarshalChars, h1, if_neg (not_bad_iff.2 hval)]
    refine ⟨h.1.trans ?_, h.2.trans ?_⟩
    · rw [List.map_cons, List.append_assoc, List.singleton_append]
    · rw [h2, List.flatten_cons, List.length_append]
      ring

/-- Characters read are words, or end in a failure. -/
theorem demarshalChars_cases (ibuf : Bytes) (len : ℕ) (ret : Bytes) (c : Cursor) :
    (∃ (ws : List Bytes) (r : Bytes), ws.length = len ∧ (∀ w ∈ ws, CharWord w) ∧
        ibuf.drop c.offset = ws.flatten ++ r) ∨
      (demarshalChars ibuf len ret c).2.offset = badOffset := by
  induction len generalizing ret c with
  | zero => exact Or.inl ⟨[], ibuf.drop c.offset, rfl, by simp, rfl⟩
  | succ len ih =>
    rw [demarshalChars]
    rcases demarshalIntegral_cases ibuf c with ⟨w, r, hw, hd⟩ | ⟨h1, -⟩
    · obtain ⟨h1, h2⟩ := demarshalIntegral_of_isWord hw hd
      rw [h1]
      split_ifs with hbad
      · exact Or.inr rfl
      · rcases ih (ret ++ [(UInt64.ofNat (Varint.value w)).toUInt8]) (demarshalIntegral ibuf c).2
          with ⟨ws, r', hlen, hws, hd'⟩ | h
        · rw [drop_of_drop_eq_append hd h2] at hd'
          refine Or.inl ⟨w :: ws, r', by rw [List.length_cons, hlen], ?_, ?_⟩
          · intro v hv
            rcases List.mem_cons.1 hv with rfl | hv
            · exact ⟨hw, not_bad_iff.1 hbad⟩
            · exact hws v hv
          · rw [hd, hd', List.flatten_cons, List.append_assoc]
        · exact Or.inr h
    · rw [if_pos (Or.inl h1)]
      exact Or.inr rfl

theorem demarshalChars_inBounds {ibuf : Bytes} (len : ℕ) (ret : Bytes) {c : Cursor}
    (h : c.InBounds ibuf) : (demarshalChars ibuf len ret c).2.InBounds ibuf := by
  induction len generalizing ret c with
  | zero => exact h
  | succ len ih =>
    rw [demarshalChars]
    split_ifs
    · exact demarshalIntegral_inBounds h
    · exact ih _ (demarshalIntegral_inBounds h)

theorem demarshalString_inBounds {ibuf : Bytes} {c : Cursor} (h : c.InBounds ibuf) :
    (demarshalString ibuf c).2.InBounds ibuf := by
  unfold demarshalString
  simp only
  split_ifs
  · exact demarshalIntegral_inBounds h
  · exact demarshalChars_inBounds _ _ (demarshalIntegral_inBounds h)

/-- The words of a string: that of its length, and those of its characters. -/
structure StringWords (len : Bytes) (ws : List Bytes) : Prop where
  word : Varint.IsWord 10 len
  length : Varint.value len % 2 ^ 64 = ws.length
  short : ws.length ≤ 0x1000
  chars : ∀ w ∈ ws, CharWord w

theorem not_too_long_iff {len : Bytes} :
    ¬ 0x1000 < UInt64.ofNat (Varint.value len) ↔ Varint.value len % 2 ^ 64 ≤ 0x1000 := by
  rw [UInt64.lt_iff_toNat_lt, UInt64.toNat_ofNat', show (0x1000 : UInt64).toNat = 0x1000 from rfl,
    not_lt]

/-- A string read where its words stand. -/
theorem demarshalString_of_words {ibuf len r : Bytes} {ws : List Bytes} {c : Cursor}
    (h : StringWords len ws) (hd : ibuf.drop c.offset = len ++ (ws.flatten ++ r)) :
    (demarshalString ibuf c).1 = ws.map (fun w => (UInt64.ofNat (Varint.value w)).toUInt8) ∧
      (demarshalString ibuf c).2.offset = c.offset + (len ++ ws.flatten).length := by
  obtain ⟨h1, h2⟩ := demarshalIntegral_of_isWord h.word hd
  have hlen : (UInt64.ofNat (Varint.value len)).toNat = ws.length := by
    rw [UInt64.toNat_ofNat', h.length]
  have hchars := demarshalChars_of_words [] h.chars (drop_of_drop_eq_append hd h2)
  unfold demarshalString
  simp only [h1, if_neg (not_too_long_iff.2 (h.length.trans_le h.short)), hlen]
  refine ⟨hchars.1, hchars.2.trans ?_⟩
  rw [h2, List.length_append]
  ring

/-- A string read is words, or a failure. -/
theorem demarshalString_cases (ibuf : Bytes) (c : Cursor) :
    (∃ len ws r, StringWords len ws ∧ ibuf.drop c.offset = len ++ (ws.flatten ++ r)) ∨
      (demarshalString ibuf c).2.offset = badOffset := by
  rcases demarshalIntegral_cases ibuf c with ⟨len, r, hw, hd⟩ | ⟨h1, h2⟩
  · obtain ⟨h1, h2⟩ := demarshalIntegral_of_isWord hw hd
    unfold demarshalString
    simp only [h1]
    split_ifs with hlong
    · exact Or.inr rfl
    · rcases demarshalChars_cases ibuf (UInt64.ofNat (Varint.value len)).toNat []
        (demarshalIntegral ibuf c).2 with ⟨ws, r', hlen, hws, hd'⟩ | h
      · rw [drop_of_drop_eq_append hd h2] at hd'
        rw [UInt64.toNat_ofNat'] at hlen
        have hshort := not_too_long_iff.1 hlong
        exact Or.inl ⟨len, ws, r', ⟨hw, hlen.symm, by omega, hws⟩, by rw [hd, hd']⟩
      · exact Or.inr h
  · refine Or.inr ?_
    unfold demarshalString
    simp only [h1]
    exact h2

/-- A bucket read where its bytes stand. -/
theorem demarshalBucket_of_append {ibuf r : Bytes} {b : BucketLayout} {c : Cursor}
    (hd : ibuf.drop c.offset = b.val ++ r) : demarshalBucket ibuf c = (some b, c.advance 32) := by
  have hlen : ibuf.length - c.offset = 32 + r.length := by
    rw [← List.length_drop, hd, List.length_append, b.property]
  have hok : ¬ (ibuf.length ≤ c.offset ∨ ibuf.length < 32 ∨ ibuf.length - 32 < c.offset) := by
    omega
  have hb : (ibuf.drop c.offset).take 32 = b.val := by
    rw [hd, List.take_left' b.property]
  rw [demarshalBucket, dif_neg hok]
  simp only [hb, Subtype.coe_eta]

theorem demarshalBuckets_of_append {buffer r : Bytes} {bs : List BucketLayout}
    (acc : List BucketLayout) {c : Cursor} (hc : c.offset ≤ buffer.length)
    (hd : buffer.drop c.offset = (bs.map Subtype.val).flatten ++ r) :
    (demarshalBuckets buffer bs.length acc c).1 = true ∧
      (demarshalBuckets buffer bs.length acc c).2.1 = acc ++ bs ∧
      (demarshalBuckets buffer bs.length acc c).2.2.offset =
        c.offset + (bs.map Subtype.val).flatten.length := by
  induction bs generalizing acc c with
  | nil => simp [demarshalBuckets, hc]
  | cons b bs ih =>
    rw [List.map_cons, List.flatten_cons, List.append_assoc] at hd
    have hd' : buffer.drop (c.advance 32).offset = (bs.map Subtype.val).flatten ++ r :=
      drop_of_drop_eq_append hd (by rw [b.property]; rfl)
    have hc' : (c.advance 32).offset ≤ buffer.length := by
      have hlen := congrArg List.length hd
      rw [List.length_drop, List.length_append, b.property] at hlen
      rw [Cursor.advance_offset]
      omega
    obtain ⟨h1, h2, h3⟩ := ih (acc ++ [b]) hc' hd'
    rw [List.length_cons, demarshalBuckets, demarshalBucket_of_append hd]
    refine ⟨h1, h2.trans ?_, h3.trans ?_⟩
    · rw [List.append_assoc, List.singleton_append]
    · rw [Cursor.advance_offset, List.map_cons, List.flatten_cons, List.length_append, b.property]
      ring

/-- Whatever the bytes are, the loop over the buckets reads inside the buffer, and ends with an
offset in the buffer or with a failure. -/
theorem demarshalBuckets_safe {buffer : Bytes} (n : ℕ) (acc : List BucketLayout) {c : Cursor}
    (hin : c.InBounds buffer) (hc : c.offset ≤ buffer.length ∨ c.offset = badOffset) :
    (demarshalBuckets buffer n acc c).2.2.InBounds buffer ∧
      ((demarshalBuckets buffer n acc c).1 = true ∧
          (demarshalBuckets buffer n acc c).2.2.offset ≤ buffer.length ∨
        (demarshalBuckets buffer n acc c).2.2.offset = badOffset) := by
  induction n generalizing acc c with
  | zero =>
    refine ⟨hin, hc.imp (fun h => ⟨?_, h⟩) id⟩
    simpa [demarshalBuckets] using h
  | succ n ih =>
    rw [demarshalBuckets]
    unfold demarshalBucket
    split_ifs with hbad
    · exact ⟨hin, Or.inr rfl⟩
    · exact ih _ (hin.advance (by omega)) (Or.inl (by rw [Cursor.advance_offset]; omega))

/-- The offer read where a path, two times and a count stand: the count goes to `reserve`, and the
buckets are read behind it. -/
theorem demarshalOffer_of_words (available : ℕ) {buffer len start stop count rest : Bytes}
    {ws : List Bytes} {c : Cursor} (hs : StringWords len ws) (hstart : Varint.IsWord 10 start)
    (hstop : Varint.IsWord 10 stop) (hcount : Varint.IsWord 10 count)
    (hd : buffer.drop c.offset =
      len ++ (ws.flatten ++ (start ++ (stop ++ (count ++ rest))))) :
    ∃ c', buffer.drop c'.offset = rest ∧
      c'.offset = c.offset + (len ++ (ws.flatten ++ (start ++ (stop ++ count)))).length ∧
      (c.InBounds buffer → c'.InBounds buffer) ∧
      demarshalOffer available buffer c =
        match reserve available (Varint.value count % 2 ^ 64) with
        | .error e => ⟨Varint.value count % 2 ^ 64, c'.offset, c', .error e⟩
        | .ok () =>
          let buckets := demarshalBuckets buffer (Varint.value count % 2 ^ 64) [] c'
          ⟨Varint.value count % 2 ^ 64, c'.offset, buckets.2.2, .ok (buckets.1,
            ⟨ws.map (fun w => (UInt64.ofNat (Varint.value w)).toUInt8),
              UInt64.ofNat (Varint.value start), UInt64.ofNat (Varint.value stop),
              buckets.2.1⟩)⟩ := by
  obtain ⟨p1, p2⟩ := demarshalString_of_words hs hd
  rw [← List.append_assoc] at hd
  have hd1 := drop_of_drop_eq_append hd p2
  obtain ⟨s1, s2⟩ := demarshalIntegral_of_isWord hstart hd1
  have hd2 := drop_of_drop_eq_append hd1 s2
  obtain ⟨e1, e2⟩ := demarshalIntegral_of_isWord hstop hd2
  have hd3 := drop_of_drop_eq_append hd2 e2
  obtain ⟨n1, n2⟩ := demarshalIntegral_of_isWord hcount hd3
  refine ⟨_, drop_of_drop_eq_append hd3 n2, ?_, fun h => ?_, ?_⟩
  · rw [n2, e2, s2, p2]
    simp only [List.length_append]
    ring
  · exact demarshalIntegral_inBounds (demarshalIntegral_inBounds (demarshalIntegral_inBounds
      (demarshalString_inBounds h)))
  · unfold demarshalOffer
    simp only [p1, s1, e1, n1, UInt64.toNat_ofNat']

/-- A decoding that fails before the buckets: nothing is reserved and false is returned. -/
structure Decoding.Failed (buffer : Bytes) (d : Decoding) : Prop where
  reserved : d.reserved = 0
  inBounds : d.cursor.InBounds buffer
  offset : d.cursor.offset = badOffset
  result : ∃ offer, d.result = .ok (false, offer)

/-- A count that cannot be read fails the decoding. -/
theorem demarshalOffer_failed (available : ℕ) {buffer : Bytes} (hlen : buffer.length < badOffset)
    {c c' : Cursor} (hin : c.InBounds buffer)
    (hc : c' = (demarshalIntegral buffer (demarshalIntegral buffer (demarshalString buffer c).2).2).2)
    (h : (demarshalIntegral buffer c').1 = 0 ∧ (demarshalIntegral buffer c').2.offset = badOffset) :
    (demarshalOffer available buffer c).Failed buffer := by
  subst hc
  have hzero : reserve available 0 = .ok () := by simp [reserve]
  unfold demarshalOffer
  simp only [h.1, UInt64.toNat_zero, hzero, demarshalBuckets]
  refine ⟨rfl, ?_, h.2, ⟨_, by rw [h.2, decide_eq_false (not_le.2 hlen)]⟩⟩
  exact demarshalIntegral_inBounds (demarshalIntegral_inBounds (demarshalIntegral_inBounds
    (demarshalString_inBounds hin)))

/-- An offer read is words up to the count, or a failure. -/
theorem demarshalOffer_cases (available : ℕ) {buffer : Bytes} (hlen : buffer.length < badOffset)
    {c : Cursor} (hin : c.InBounds buffer) :
    (∃ len ws start stop count rest, StringWords len ws ∧ Varint.IsWord 10 start ∧
        Varint.IsWord 10 stop ∧ Varint.IsWord 10 count ∧
        buffer.drop c.offset = len ++ (ws.flatten ++ (start ++ (stop ++ (count ++ rest))))) ∨
      (demarshalOffer available buffer c).Failed buffer := by
  have hfail {c' : Cursor} := @demarshalOffer_failed available buffer hlen c c' hin
  have hbad {c' : Cursor} := @demarshalIntegral_of_badOffset buffer c' hlen.le
  -- the fields are read one after the other; after a failure all of them fail
  rcases demarshalString_cases buffer c with ⟨len, ws, r, hs, hd⟩ | hpath
  · have hd1 := drop_of_drop_eq_append ((List.append_assoc ..).symm ▸ hd)
      (demarshalString_of_words hs hd).2
    rcases demarshalIntegral_cases buffer (demarshalString buffer c).2 with
      ⟨start, r1, hstart, he1⟩ | ⟨-, hstart⟩
    · have hd2 := drop_of_drop_eq_append he1 (demarshalIntegral_of_isWord hstart he1).2
      rcases demarshalIntegral_cases buffer (demarshalIntegral buffer
        (demarshalString buffer c).2).2 with ⟨stop, r2, hstop, he2⟩ | ⟨-, hstop⟩
      · have hd3 := drop_of_drop_eq_append he2 (demarshalIntegral_of_isWord hstop he2).2
        rcases demarshalIntegral_cases buffer (demarshalIntegral buffer (demarshalIntegral buffer
          (demarshalString buffer c).2).2).2 with ⟨count, r3, hcount, he3⟩ | hcount
        · refine Or.inl ⟨len, ws, start, stop, count, r3, hs, hstart, hstop, hcount, ?_⟩
          rw [hd, ← hd1, he1, ← hd2, he2, ← hd3, he3]
        · exact Or.inr (hfail rfl hcount)
      · exact Or.inr (hfail rfl (hbad hstop))
    · exact Or.inr (hfail rfl (hbad (hbad hstart).2))
  · exact Or.inr (hfail rfl (hbad (hbad (hbad hpath).2).2))

/-! ### Round trip -/

theorem isWord_word_uint64 (val : UInt64) : Varint.IsWord 10 (Varint.word 10 val.toNat) :=
  Varint.isWord_word (by decide) (lt_trans val.toNat_lt (by decide))

theorem value_word_uint64 (val : UInt64) : Varint.value (Varint.word 10 val.toNat) = val.toNat :=
  Varint.value_word (lt_trans val.toNat_lt (by decide))

/-- The words of the characters of a string. -/
def charWords (str : Bytes) : List Bytes := str.map fun ch => Varint.word 10 ch.toNat

theorem foldl_marshalIntegral (str obuf : Bytes) :
    str.foldl (fun obuf ch => marshalIntegral ch.toUInt64 obuf) obuf =
      obuf ++ (charWords str).flatten := by
  induction str generalizing obuf with
  | nil => simp [charWords]
  | cons ch str ih =>
    rw [List.foldl_cons, ih, marshalIntegral_eq, UInt8.toNat_toUInt64, charWords, charWords,
      List.map_cons, List.flatten_cons, List.append_assoc]

theorem foldl_marshalBucket (bs : List BucketLayout) (buf : Bytes) :
    bs.foldl (fun buf b => marshalBucket b buf) buf = buf ++ (bs.map Subtype.val).flatten := by
  induction bs generalizing buf with
  | nil => simp
  | cons b bs ih =>
    rw [List.foldl_cons, ih, marshalBucket, List.map_cons, List.flatten_cons, List.append_assoc]

/-- What is written for an offer. -/
def offerBytes (offer : ProtoOffer BucketLayout) : Bytes :=
  Varint.word 10 (UInt64.ofNat offer.filepath.length).toNat ++
    ((charWords offer.filepath).flatten ++ (Varint.word 10 offer.starttime.toNat ++
      (Varint.word 10 offer.endtime.toNat ++
        (Varint.word 10 (UInt64.ofNat offer.buckets.length).toNat ++
          (offer.buckets.map Subtype.val).flatten))))

theorem marshalOffer_eq {offer : ProtoOffer BucketLayout} (hlen : offer.filepath.length ≤ 0x1000)
    (buf : Bytes) : marshalOffer offer buf = .ok (buf ++ offerBytes offer) := by
  have hpath : marshalString offer.filepath buf =
      .ok (buf ++ Varint.word 10 (UInt64.ofNat offer.filepath.length).toNat ++
        (charWords offer.filepath).flatten) := by
    rw [marshalString, if_neg (not_lt.2 hlen), foldl_marshalIntegral, marshalIntegral_eq]
  rw [marshalOffer, hpath]
  simp only [foldl_marshalBucket, marshalIntegral_eq, List.append_assoc, offerBytes]

/-- The words of a string without NUL that is not too long. -/
theorem stringWords_charWords {str : Bytes} (hnul : (0 : UInt8) ∉ str) (hlen : str.length ≤ 0x1000) :
    StringWords (Varint.word 10 (UInt64.ofNat str.length).toNat) (charWords str) := by
  have hlen' : (charWords str).length = str.length := List.length_map _
  refine ⟨isWord_word_uint64 _, ?_, by omega, ?_⟩
  · rw [value_word_uint64, UInt64.toNat_ofNat', hlen']
    omega
  · intro w hw
    obtain ⟨ch, hch, rfl⟩ := List.mem_map.1 hw
    have hpos : ch.toNat ≠ 0 := fun h0 => by
      rw [UInt8.toNat_inj.1 (h0.trans (show 0 = (0 : UInt8).toNat from rfl))] at hch
      exact hnul hch
    have hlt := ch.toNat_lt
    have hword := isWord_word_uint64 ch.toUInt64
    have hval := value_word_uint64 ch.toUInt64
    rw [UInt8.toNat_toUInt64] at hword hval
    exact ⟨hword, by omega, by omega⟩

theorem map_charWords (str : Bytes) :
    (charWords str).map (fun w => (UInt64.ofNat (Varint.value w)).toUInt8) = str := by
  rw [charWords, List.map_map]
  conv_rhs => rw [← List.map_id str]
  refine List.map_congr_left fun ch _ => ?_
  have hval := value_word_uint64 ch.toUInt64
  rw [UInt8.toNat_toUInt64] at hval
  rw [Function.comp_apply, hval]
  exact UInt8.toNat_inj.1 (by simp)

/-- `max_size()` of a vector of buckets. -/
def maxBuckets : ℕ := (2 ^ 63 - 1) / 32

/-- The bytes of an offer behind any bytes are read as the offer, up to their end. -/
theorem demarshalOffer_offerBytes (available : ℕ) {offer : ProtoOffer BucketLayout} (buf : Bytes)
    (hnul : (0 : UInt8) ∉ offer.filepath) (hlen : offer.filepath.length ≤ 0x1000)
    (hmax : offer.buckets.length ≤ maxBuckets) (hroom : offer.buckets.length ≤ available) :
    (demarshalOffer available (buf ++ offerBytes offer) ⟨buf.length, []⟩).result =
        .ok (true, offer) ∧
      (demarshalOffer available (buf ++ offerBytes offer) ⟨buf.length, []⟩).cursor.offset =
        (buf ++ offerBytes offer).length := by
  have hd0 : (buf ++ offerBytes offer).drop buf.length = offerBytes offer := List.drop_left
  obtain ⟨c', hd, hoff, -, he⟩ := demarshalOffer_of_words available
    (c := ⟨buf.length, []⟩) (stringWords_charWords hnul hlen) (isWord_word_uint64 offer.starttime)
    (isWord_word_uint64 offer.endtime) (isWord_word_uint64 (UInt64.ofNat offer.buckets.length)) hd0
  have hn : Varint.value (Varint.word 10 (UInt64.ofNat offer.buckets.length).toNat) % 2 ^ 64 =
      offer.buckets.length := by
    rw [value_word_uint64, UInt64.toNat_ofNat']
    unfold maxBuckets at hmax
    omega
  have hres : reserve available offer.buckets.length = .ok () := by
    unfold maxBuckets at hmax
    rw [reserve, if_neg (by omega), if_neg (by omega)]
  have hc' : c'.offset ≤ (buf ++ offerBytes offer).length := by
    rw [hoff]
    simp only [offerBytes, List.length_append]
    omega
  obtain ⟨hok, hbs, hend⟩ := demarshalBuckets_of_append (r := []) [] hc'
    (hd.trans (List.append_nil _).symm)
  rw [he, hn, hres]
  refine ⟨?_, ?_⟩
  · simp only [hok, hbs, map_charWords, value_word_uint64, UInt64.ofNat_toNat, List.nil_append]
  · refine hend.trans ?_
    simp only [hoff, offerBytes, List.length_append]
    ring

/-- **Offers round-trip.**  An offer with a path without NUL of at most 0x1000 bytes is written
behind any bytes, and read there as it was, with the offset at the end of the buffer.  The number of
its buckets is one a vector can have, and the allocator has room for them. -/
theorem demarshalOffer_marshalOffer (available : ℕ) (offer : ProtoOffer BucketLayout) (buf : Bytes)
    (hnul : (0 : UInt8) ∉ offer.filepath) (hlen : offer.filepath.length ≤ 0x1000)
    (hmax : offer.buckets.length ≤ maxBuckets) (hroom : offer.buckets.length ≤ available) :
    ∃ out, marshalOffer offer buf = .ok out ∧ buf <+: out ∧
      (demarshalOffer available out ⟨buf.length, []⟩).result = .ok (true, offer) ∧
      (demarshalOffer available out ⟨buf.length, []⟩).cursor.offset = out.length := by
  exact ⟨_, marshalOffer_eq hlen buf, List.prefix_append _ _,
    demarshalOffer_offerBytes available buf hnul hlen hmax hroom⟩

/-- An offer with a path of bytes above 0x7f, times at both ends of the range and one bucket, behind
the four bytes of a packet's length. -/
theorem demarshalOffer_marshalOffer_sample :
    ∃ out, marshalOffer ⟨[0x2f, 0xff], 0, 0xffffffffffffffff, [⟨List.replicate 32 7, by decide⟩]⟩
        [0, 0, 0, 0] = .ok out ∧ [0, 0, 0, 0] <+: out ∧
      (demarshalOffer 1 out ⟨4, []⟩).result =
        .ok (true, ⟨[0x2f, 0xff], 0, 0xffffffffffffffff, [⟨List.replicate 32 7, by decide⟩]⟩) ∧
      (demarshalOffer 1 out ⟨4, []⟩).cursor.offset = out.length :=
  demarshalOffer_marshalOffer 1 ⟨[0x2f, 0xff], 0, 0xffffffffffffffff, _⟩ [0, 0, 0, 0]
    (by decide) (by decide) (by decide) (by decide)

/-! ### Packets from elsewhere -/

/-- The packet carries, behind its length, the words of a path, of two times and of the count `n`,
and then the bytes `rest`. -/
def Announces (packet : Bytes) (n : ℕ) (rest : Bytes) : Prop :=
  ∃ size len ws start stop count,
    packet = size ++ (len ++ (ws.flatten ++ (start ++ (stop ++ (count ++ rest))))) ∧
      size.length = 4 ∧ StringWords len ws ∧ Varint.IsWord 10 start ∧ Varint.IsWord 10 stop ∧
      Varint.IsWord 10 count ∧ Varint.value count % 2 ^ 64 = n

/-- The packet is decoded safely: no more buckets are reserved than the bytes behind the offset can
hold, nothing is thrown, all reads are inside the buffer, and either true is returned with an offset
in the buffer, or the offset is `(size_t)-1` and the request is rejected. -/
structure SafelyDecoded (available : ℕ) (packet : Bytes) : Prop where
  reservation : (demarshalOffer available packet ⟨4, []⟩).reserved ≤
    (packet.length - (demarshalOffer available packet ⟨4, []⟩).reservedAt) / 32
  inBounds : (demarshalOffer available packet ⟨4, []⟩).cursor.InBounds packet
  returns : ∃ ok offer, (demarshalOffer available packet ⟨4, []⟩).result = .ok (ok, offer) ∧
    (ok = true ∧ (demarshalOffer available packet ⟨4, []⟩).cursor.offset ≤ packet.length ∨
      (demarshalOffer available packet ⟨4, []⟩).cursor.offset = badOffset ∧
        completeRequest available packet = .ok none)

/-- A failure is rejected. -/
theorem completeRequest_of_badOffset {available : ℕ} {packet : Bytes} {ok : Bool}
    {offer : ProtoOffer BucketLayout} (hlen : packet.length < badOffset)
    (hres : (demarshalOffer available packet ⟨4, []⟩).result = .ok (ok, offer))
    (hoff : (demarshalOffer available packet ⟨4, []⟩).cursor.offset = badOffset) :
    completeRequest available packet = .ok none := by
  unfold completeRequest
  simp only [hres, hoff, ne_eq, hlen.ne', not_false_eq_true, if_true]

/-- What is reserved for a packet that announces buckets. -/
theorem Announces.reserved {packet rest : Bytes} {n : ℕ} (h : Announces packet n rest)
    (available : ℕ) :
    (demarshalOffer available packet ⟨4, []⟩).reserved = n ∧
      packet.length - (demarshalOffer available packet ⟨4, []⟩).reservedAt = rest.length := by
  obtain ⟨size, len, ws, start, stop, count, rfl, hsize, hs, hstart, hstop, hcount, rfl⟩ := h
  obtain ⟨c', hd, -, -, he⟩ := demarshalOffer_of_words available (c := ⟨4, []⟩) hs hstart hstop
    hcount (List.drop_left' hsize)
  rw [he, ← List.length_drop]
  cases reserve available (Varint.value count % 2 ^ 64) with
  | error e => exact ⟨rfl, congrArg List.length hd⟩
  | ok u => exact ⟨rfl, congrArg List.length hd⟩

/-- **Hostile offers.**  Every packet that can be received, with an allocator that has room for the
buckets of the longest packet, is decoded safely if and only if it announces no more buckets than
the bytes behind the count can hold. -/
theorem safelyDecoded_iff {available : ℕ} (hroom : (maxTransferSize + 4) / 32 ≤ available)
    (packet : Bytes) (hlen : packet.length ≤ maxTransferSize + 4) :
    SafelyDecoded available packet ↔
      ∀ n rest, Announces packet n rest → n ≤ rest.length / 32 := by
  have hbad : packet.length < badOffset := by
    unfold maxTransferSize at hlen
    unfold badOffset
    omega
  constructor
  · intro h n rest ha
    obtain ⟨h1, h2⟩ := ha.reserved available
    have hres := h.reservation
    rwa [h1, h2] at hres
  · intro h
    rcases demarshalOffer_cases available hbad (c := ⟨4, []⟩) (by simp [Cursor.InBounds]) with
      ⟨len, ws, start, stop, count, rest, hs, hstart, hstop, hcount, hd⟩ | hfail
    · obtain ⟨c', hd', hoff, hin, he⟩ := demarshalOffer_of_words available hs hstart hstop hcount hd
      have hsplit := congrArg List.length hd
      have hpos := List.length_pos_iff.2 hs.word.ne_nil
      simp only [List.length_drop, List.length_append] at hsplit hoff
      have ha : Announces packet (Varint.value count % 2 ^ 64) rest :=
        ⟨packet.take 4, len, ws, start, stop, count, by rw [← hd, List.take_append_drop],
          by rw [List.length_take]; omega, hs, hstart, hstop, hcount, rfl⟩
      have hn := h _ _ ha
      have hres : reserve available (Varint.value count % 2 ^ 64) = .ok () := by
        unfold maxTransferSize at hlen hroom
        rw [reserve, if_neg (by omega), if_neg (by omega)]
      obtain ⟨hb1, hb2⟩ := demarshalBuckets_safe (Varint.value count % 2 ^ 64) []
        (hin (by simp [Cursor.InBounds])) (Or.inl (show c'.offset ≤ packet.length by omega))
      obtain ⟨hr1, hr2⟩ := ha.reserved available
      rw [hres] at he
      have hres' := congrArg Decoding.result he
      have hcur := congrArg Decoding.cursor he
      refine ⟨by rw [hr1, hr2]; exact hn, by rw [hcur]; exact hb1, _, _, hres', ?_⟩
      rw [hcur]
      rcases hb2 with hok | hfail
      · exact Or.inl hok
      · exact Or.inr ⟨hfail, completeRequest_of_badOffset hbad hres' (by rw [hcur]; exact hfail)⟩
    · obtain ⟨offer, hres⟩ := hfail.result
      exact ⟨by rw [hfail.reserved]; exact Nat.zero_le _, hfail.inBounds, false, offer, hres,
        Or.inr ⟨hfail.offset, completeRequest_of_badOffset hbad hres hfail.offset⟩⟩

/-- A packet of one bucket is decoded safely. -/
theorem safelyDecoded_sample :
    SafelyDecoded 2097152 ([0, 0, 0, 36, 0, 0, 0, 1] ++ List.replicate 32 7) := by
  refine (safelyDecoded_iff (by decide) _ (by decide)).2 fun n rest h => ?_
  obtain ⟨h1, h2⟩ := h.reserved 2097152
  rw [← h1, ← h2]
  decide +kernel

/-- A packet of 17 bytes that announces `2 ^ 64 - 1` buckets makes `reserve` throw. -/
theorem safelyDecoded_huge_count :
    ¬ SafelyDecoded 2097152
      [0, 0, 0, 13, 0, 0, 0, 255, 255, 255, 255, 255, 255, 255, 255, 255, 1] := by
  intro h
  obtain ⟨ok, offer, hres, -⟩ := h.returns
  have hthrown : (demarshalOffer 2097152
      [0, 0, 0, 13, 0, 0, 0, 255, 255, 255, 255, 255, 255, 255, 255, 255, 1] ⟨4, []⟩).result =
      .error .lengthError := by rfl
  rw [hthrown] at hres
  cases hres

end Istatd
