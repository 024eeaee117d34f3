import Istatd.Framing

/-!
# Replication pdus (`daemon/ReplicaPdus.cpp`, `daemon/ReplicaServer.cpp`)

A pdu is a header of 4 bytes of type and 4 bytes of size, and a payload of that size.  A
`PduReaderActor` takes the bytes of a connection apart into a list `pending_`: a new header is put
at the back of the list, and payload is read into the pdu at its front.  Whenever that pdu is
complete the consumer is notified, which may take pdus from the front with `nextPdu`.

The front is the pdu that was put at the back only if all earlier pdus have been taken.  A
`ReplicaConnection` takes all of them at each notification.

* `Frame`: a pdu as it is sent, `Frame.bytes_prefix_free`;
* `PduReader.onData`: the loop of `on_data`, for any consumer;
* `Tracks`: what a reader has made of the bytes it received, `Tracks.pass` for one pass of the loop;
* `pdus_dispatched_once`: what a `ReplicaConnection` passes to its protocol;
* `pdus_returned`: what `nextPdu` returns, if no pdu with a payload is begun while complete ones are
  unread.

Integers are read as the bytes of a little-endian host.
-/

namespace Istatd

/-- A `uint32_t` from its four bytes. -/
def readUint32 (bs : Bytes) : UInt32 := UInt32.ofNat (Nat.ofDigits 256 (bs.map UInt8.toNat))

/-- The four bytes of a `uint32_t`. -/
def uint32Bytes (x : UInt32) : Bytes :=
  [UInt8.ofNat x.toNat, UInt8.ofNat (x.toNat / 256), UInt8.ofNat (x.toNat / 65536),
    UInt8.ofNat (x.toNat / 16777216)]

theorem readUint32_uint32Bytes (x : UInt32) : readUint32 (uint32Bytes x) = x := by
  have hx := x.toNat_lt
  apply UInt32.toNat_inj.1
  simp only [readUint32, uint32Bytes, List.map_cons, List.map_nil, Nat.ofDigits_cons,
    Nat.ofDigits_nil, UInt8.toNat_ofNat', UInt32.toNat_ofNat']
  norm_num
  omega

theorem uint32Bytes_readUint32 {bs : Bytes} (h : bs.length = 4) :
    uint32Bytes (readUint32 bs) = bs := by
  match bs, h with
  | [a, b, c, d], _ =>
    have ha := a.toNat_lt
    have hb := b.toNat_lt
    have hc := c.toNat_lt
    have hd := d.toNat_lt
    simp only [readUint32, uint32Bytes, List.map_cons, List.map_nil, Nat.ofDigits_cons,
      Nat.ofDigits_nil, UInt32.toNat_ofNat', List.cons.injEq, and_true, ← UInt8.toNat_inj,
      UInt8.toNat_ofNat']
    norm_num
    omega

namespace EagerConnection

/-- `EagerConnection::readIn`. -/
def readIn (ec : EagerConnection) (maxSize : ℕ) : Bytes × EagerConnection :=
  (ec.peekIn maxSize,
    if ec.opened then { ec with incoming := ec.incoming.drop (ec.peekIn maxSize).length } else ec)

/-- What is consumed was peeked at, so that `consume` does not complain. -/
theorem consume_peekIn (ec : EagerConnection) (maxSize : ℕ) :
    ec.consume (ec.peekIn maxSize).length = .ok (ec.readIn maxSize).2 := by
  have hle : (ec.peekIn maxSize).length ≤ ec.incoming.length := by
    rw [peekIn, List.length_take]
    omega
  cases hopen : ec.opened <;> simp [consume, readIn, hopen, hle]

/-- A read of some of the bytes of an open connection. -/
theorem readIn_eq {ec : EagerConnection} {x y : Bytes} (hopen : ec.opened = true)
    (hin : ec.incoming = x ++ y) : ec.readIn x.length = (x, { ec with incoming := y }) := by
  simp [readIn, peekIn, hopen, hin]

/-- `EagerConnection::close`. -/
def close (_ec : EagerConnection) : EagerConnection := ⟨false, []⟩

end EagerConnection

/-- `PduHeader`. -/
structure PduHeader where
  type : UInt32
  size : UInt32
  payload : Bytes
  deriving DecidableEq

/-- A `PduReaderActor`. -/
structure PduReader where
  conn : EagerConnection
  pending : List PduHeader
  pduComplete : Bool
  deriving DecidableEq

namespace PduReader

/-- A reader on a connection that has just been opened. -/
def new : PduReader := ⟨⟨true, []⟩, [], true⟩

/-- `PduReaderActor::nextPdu`. -/
def nextPdu (r : PduReader) : Option PduHeader × PduReader :=
  match r.pending with
  | [] => (none, r)
  | f :: pending =>
    if pending = [] ∧ r.pduComplete = false then (none, r)
    else (some f, { r with pending := pending })

/-- The header of a new pdu is read, and put at the back of the list. -/
def startPdu (r : PduReader) : PduReader :=
  let type := r.conn.readIn 4
  let size := type.2.readIn 4
  { conn := size.2
    pending := r.pending ++ [⟨readUint32 type.1, readUint32 size.1, []⟩]
    pduComplete := false }

/-- The first half of `on_data`, from the label: none if a header is needed and not there. -/
def begin (r : PduReader) : Option PduReader :=
  if r.pduComplete then
    if r.conn.incoming.length < 8 then none else some r.startPdu
  else some r

/-- The second half: the pdu at the front takes what is there, up to what it needs.  The list is not
empty here. -/
def fill (r : PduReader) : PduReader :=
  match r.pending with
  | [] => r
  | i :: pending =>
    let needed := i.size.toNat - i.payload.length
    let got := r.conn.readIn (min r.conn.incoming.length needed)
    { r with conn := got.2, pending := { i with payload := i.payload ++ got.1 } :: pending }

/-- `i.payload.size() == i.size`, for the pdu at the front. -/
def frontComplete (r : PduReader) : Bool :=
  match r.pending with
  | [] => false
  | i :: _ => i.payload.length == i.size.toNat

variable {τ : Type}

/-- `PduReaderActor::on_data`, for at most `n` passes, with a consumer that is notified by `onPdu_`.
-/
def onDataLoop (notify : τ → PduReader → τ × PduReader) : ℕ → τ → PduReader → τ × PduReader
  | 0, t, r => (t, r)
  | n + 1, t, r =>
    match r.begin with
    | none => (t, r)
    | some r =>
      let r := r.fill
      if r.frontComplete then
        let s := notify t { r with pduComplete := true }
        onDataLoop notify n s.1 s.2
      else (t, r)

/-- `PduReaderActor::on_data`.  Every pass but the last takes bytes. -/
def onData (notify : τ → PduReader → τ × PduReader) (t : τ) (r : PduReader) : τ × PduReader :=
  onDataLoop notify (r.conn.incoming.length + 1) t r

/-- `EagerConnection::on_read` of a read without error. -/
def onRead (notify : τ → PduReader → τ × PduReader) (s : τ × PduReader) (chunk : Bytes) :
    τ × PduReader :=
  onData notify s.1
    { s.2 with conn := { s.2.conn with incoming := s.2.conn.incoming ++ chunk } }

end PduReader

namespace PduReader

/-- The size of the pdu whose header comes next. -/
def nextSize (r : PduReader) : UInt32 := readUint32 ((r.conn.incoming.drop 4).take 4)

/-- A pdu with a payload is begun only if no complete pdu is unread. -/
def ReadyToBegin (r : PduReader) : Prop :=
  r.pduComplete = true → 8 ≤ r.conn.incoming.length → r.pending = [] ∨ r.nextSize = 0

instance (r : PduReader) : Decidable r.ReadyToBegin := inferInstanceAs (Decidable (_ → _ → _))

/-- What `on_data` leaves: less than a header, or nothing. -/
def Idle (r : PduReader) : Prop :=
  r.pduComplete = true ∧ r.conn.incoming.length < 8 ∨
    r.pduComplete = false ∧ r.conn.incoming = []

theorem new_idle : new.Idle := Or.inl ⟨rfl, by decide⟩

/-- A call of `on_data` is `ReadyToBegin` at each of its passes. -/
def NoneUnread {τ : Type} (notify : τ → PduReader → τ × PduReader) : ℕ → τ → PduReader → Prop
  | 0, _, _ => True
  | n + 1, t, r => r.ReadyToBegin ∧
    match r.begin with
    | none => True
    | some r' =>
      r'.fill.frontComplete = true →
        NoneUnread notify n (notify t { r'.fill with pduComplete := true }).1
          (notify t { r'.fill with pduComplete := true }).2

instance decidableNoneUnread {τ : Type} (notify : τ → PduReader → τ × PduReader) :
    ∀ n t r, Decidable (NoneUnread notify n t r)
  | 0, _, _ => isTrue trivial
  | n + 1, t, r =>
    have : Decidable (match r.begin with
        | none => True
        | some r' =>
          r'.fill.frontComplete = true →
            NoneUnread notify n (notify t { r'.fill with pduComplete := true }).1
              (notify t { r'.fill with pduComplete := true }).2) :=
      match r.begin with
      | none => isTrue trivial
      | some _ =>
        have := decidableNoneUnread notify n
        inferInstanceAs (Decidable (_ → _))
    inferInstanceAs (Decidable (_ ∧ _))

end PduReader

/-! ### Frames -/

/-- A pdu as it is sent.  Its size is a `uint32_t`. -/
structure Frame where
  type : UInt32
  payload : Bytes
  fits : payload.length < 2 ^ 32

namespace Frame

/-- The size in the header. -/
def size (f : Frame) : UInt32 := UInt32.ofNat f.payload.length

theorem size_toNat (f : Frame) : f.size.toNat = f.payload.length := by
  rw [size, UInt32.toNat_ofNat', Nat.mod_eq_of_lt f.fits]

/-- The bytes of the frame. -/
def bytes (f : Frame) : Bytes := uint32Bytes f.type ++ (uint32Bytes f.size ++ f.payload)

/-- The pdu that is read from it. -/
def pdu (f : Frame) : PduHeader := ⟨f.type, f.size, f.payload⟩

/-- A frame is not the beginning of another one. -/
theorem bytes_prefix_free {f g : Frame} {x y : Bytes} (h : f.bytes ++ x = g.bytes ++ y) :
    f = g ∧ x = y := by
  simp only [bytes, List.append_assoc] at h
  obtain ⟨htype, h⟩ := List.append_inj h rfl
  obtain ⟨hsize, h⟩ := List.append_inj h rfl
  have htype' : f.type = g.type := by
    rw [← readUint32_uint32Bytes f.type, htype, readUint32_uint32Bytes]
  have hsize' : f.size = g.size := by
    rw [← readUint32_uint32Bytes f.size, hsize, readUint32_uint32Bytes]
  have hlen : f.payload.length = g.payload.length := by
    rw [← f.size_toNat, hsize', g.size_toNat]
  obtain ⟨hpayload, hxy⟩ := List.append_inj h hlen
  refine ⟨?_, hxy⟩
  cases f
  cases g
  simp only at htype' hpayload
  subst htype' hpayload
  rfl

end Frame

/-- The bytes of some frames. -/
def frameBytes (fs : List Frame) : Bytes := fs.flatMap Frame.bytes

/-- The beginning of a frame, without its end. -/
def Unfinished (r : Bytes) : Prop := ∃ f : Frame, r <+: f.bytes ∧ r ≠ f.bytes

/-- Frames at the beginning of a stream of frames are the first ones of it. -/
theorem prefix_of_frameBytes_append {fs gs : List Frame} {x r : Bytes}
    (h : frameBytes fs ++ x = frameBytes gs ++ r) (hr : Unfinished r) : fs <+: gs := by
  induction fs generalizing gs with
  | nil => exact List.nil_prefix
  | cons f fs ih =>
    rw [frameBytes, List.flatMap_cons, List.append_assoc] at h
    cases gs with
    | nil =>
      -- the unfinished rest has no room for a frame
      obtain ⟨g, ⟨z, hz⟩, hne⟩ := hr
      rw [frameBytes, List.flatMap_nil, List.nil_append] at h
      rw [← h, List.append_assoc] at hz
      obtain ⟨rfl, hx⟩ := Frame.bytes_prefix_free (hz.trans (List.append_nil _).symm)
      rw [List.append_assoc, List.append_eq_nil_iff, List.append_eq_nil_iff] at hx
      exact absurd (by rw [← h, hx.1, hx.2.1, List.append_nil, List.append_nil]) hne
    | cons g gs =>
      rw [frameBytes, List.flatMap_cons, List.append_assoc] at h
      obtain ⟨rfl, h'⟩ := Frame.bytes_prefix_free h
      exact (List.prefix_cons_inj f).2 (ih h')

@[simp] theorem frameBytes_append (fs gs : List Frame) :
    frameBytes (fs ++ gs) = frameBytes fs ++ frameBytes gs := List.flatMap_append ..

@[simp] theorem frameBytes_nil : frameBytes [] = [] := rfl

@[simp] theorem frameBytes_singleton (f : Frame) : frameBytes [f] = f.bytes :=
  List.flatMap_singleton ..

/-! ### What a reader has made of its stream -/

/-- The bytes of the header of a pdu. -/
def PduHeader.headerBytes (p : PduHeader) : Bytes := uint32Bytes p.type ++ uint32Bytes p.size

/-- The reader has received the bytes `stream` on an open connection, and pdus of the frames `got`
have been taken from it.  Either all other pdus are complete, or one has been begun, and is alone.
-/
structure Tracks (stream : Bytes) (got : List Frame) (r : PduReader) : Prop where
  opened : r.conn.opened = true
  complete : r.pduComplete = true → ∃ left : List Frame, r.pending = left.map Frame.pdu ∧
    stream = frameBytes (got ++ left) ++ r.conn.incoming
  begun : r.pduComplete = false → ∃ p : PduHeader, r.pending = [p] ∧
    p.payload.length < p.size.toNat ∧
    stream = frameBytes got ++ (p.headerBytes ++ (p.payload ++ r.conn.incoming))

namespace Tracks

variable {stream : Bytes} {got : List Frame} {r : PduReader}

theorem new : Tracks [] [] PduReader.new := ⟨rfl, fun _ => ⟨[], rfl, rfl⟩, nofun⟩

/-- More bytes arrive. -/
theorem receive (h : Tracks stream got r) (chunk : Bytes) :
    Tracks (stream ++ chunk) got
      { r with conn := { r.conn with incoming := r.conn.incoming ++ chunk } } := by
  refine ⟨h.opened, fun hc => ?_, fun hc => ?_⟩
  · obtain ⟨left, hpend, hs⟩ := h.complete hc
    exact ⟨left, hpend, by simp [hs]⟩
  · obtain ⟨p, hpend, hlt, hs⟩ := h.begun hc
    exact ⟨p, hpend, hlt, by simp [hs]⟩

/-- `nextPdu` takes the first pdu that is complete and has not been taken. -/
theorem nextPdu (h : Tracks stream got r) :
    (∃ f left, r.pduComplete = true ∧ r.pending = (f :: left).map Frame.pdu ∧
        r.nextPdu = (some f.pdu, { r with pending := left.map Frame.pdu }) ∧
        Tracks stream (got ++ [f]) { r with pending := left.map Frame.pdu }) ∨
      r.nextPdu = (none, r) ∧ (r.pduComplete = true → r.pending = []) := by
  cases hc : r.pduComplete with
  | true =>
    obtain ⟨left, hpend, hs⟩ := h.complete hc
    cases left with
    | nil =>
      rw [List.map_nil] at hpend
      exact Or.inr ⟨by simp [PduReader.nextPdu, hpend], fun _ => hpend⟩
    | cons f left =>
      refine Or.inl ⟨f, left, rfl, hpend, ?_, h.opened, fun _ => ⟨left, rfl, ?_⟩, ?_⟩
      · simp [PduReader.nextPdu, hpend, hc]
      · simpa using hs
      · simp
  | false =>
    obtain ⟨p, hpend, -, -⟩ := h.begun hc
    exact Or.inr ⟨by simp [PduReader.nextPdu, hpend, hc], nofun⟩

/-- The pdu at the front takes the bytes `x`. -/
theorem fill_eq {p : PduHeader} {ps : List PduHeader} {x y : Bytes} (hopen : r.conn.opened = true)
    (hpend : r.pending = p :: ps) (hin : r.conn.incoming = x ++ y)
    (hx : x.length = min r.conn.incoming.length (p.size.toNat - p.payload.length)) :
    r.fill = ⟨⟨true, y⟩, { p with payload := p.payload ++ x } :: ps, r.pduComplete⟩ := by
  simp only [PduReader.fill, hpend, ← hx, EagerConnection.readIn_eq hopen hin, hopen]

/-- A pdu that has been begun takes what it needs of what is there. -/
theorem fill_begun {p : PduHeader} (hopen : r.conn.opened = true) (hpend : r.pending = [p])
    (hc : r.pduComplete = false) (hle : p.payload.length ≤ p.size.toNat)
    (hs : stream = frameBytes got ++ (p.headerBytes ++ (p.payload ++ r.conn.incoming))) :
    r.fill.frontComplete = true ∧ Tracks stream got { r.fill with pduComplete := true } ∧
        r.fill.conn.incoming.length + (p.size.toNat - p.payload.length) = r.conn.incoming.length ∨
      r.fill.frontComplete = false ∧ Tracks stream got r.fill ∧ r.fill.pduComplete = false ∧
        r.fill.conn.incoming = [] := by
  by_cases henough : p.size.toNat - p.payload.length ≤ r.conn.incoming.length
  · left
    obtain ⟨x, y, hin, hx⟩ : ∃ x y, r.conn.incoming = x ++ y ∧
        x.length = p.size.toNat - p.payload.length :=
      ⟨_, _, (List.take_append_drop _ _).symm, List.length_take_of_le henough⟩
    have hfill := fill_eq hopen hpend hin (by omega)
    -- the pdu is that of a frame
    let f : Frame := ⟨p.type, p.payload ++ x, by
      have := p.size.toNat_lt
      rw [List.length_append]
      omega⟩
    have hsize : f.size = p.size := by
      apply UInt32.toNat_inj.1
      rw [f.size_toNat, List.length_append]
      omega
    have hpdu : f.pdu = { p with payload := p.payload ++ x } := by
      rw [Frame.pdu, hsize]
    refine ⟨?_, ⟨?_, fun _ => ⟨[f], ?_, ?_⟩, nofun⟩, ?_⟩
    · simp only [hfill, PduReader.frontComplete, List.length_append, beq_iff_eq]
      omega
    · rw [hfill]
    · rw [hfill, List.map_singleton, hpdu]
    · rw [hfill, hs, hin, frameBytes_append, frameBytes_singleton, Frame.bytes, hsize,
        PduHeader.headerBytes, show f.type = p.type from rfl,
        show f.payload = p.payload ++ x from rfl]
      simp only [List.append_assoc]
    · rw [hfill, hin, List.length_append, hx]
      ring
  · right
    have hfill := fill_eq hopen hpend (List.append_nil _).symm (by omega)
    have hlt : (p.payload ++ r.conn.incoming).length < p.size.toNat := by
      rw [List.length_append]
      omega
    rw [hfill]
    refine ⟨?_, ⟨rfl, ?_, fun _ => ⟨⟨p.type, p.size, _⟩, rfl, hlt, ?_⟩⟩, hc, rfl⟩
    · simp only [PduReader.frontComplete, beq_eq_false_iff_ne]
      exact hlt.ne
    · simp [hc]
    · rw [hs]
      simp [PduHeader.headerBytes]

/-- The header of a new pdu. -/
theorem startPdu_eq {a b y : Bytes} (hopen : r.conn.opened = true) (ha : a.length = 4)
    (hb : b.length = 4) (hin : r.conn.incoming = a ++ (b ++ y)) :
    r.startPdu = ⟨⟨true, y⟩, r.pending ++ [⟨readUint32 a, readUint32 b, []⟩], false⟩ ∧
      r.nextSize = readUint32 b := by
  have hread := EagerConnection.readIn_eq hopen hin
  have hread' : (⟨true, b ++ y⟩ : EagerConnection).readIn b.length = (b, ⟨true, y⟩) :=
    EagerConnection.readIn_eq rfl rfl
  rw [ha] at hread
  rw [hb] at hread'
  refine ⟨?_, ?_⟩
  · simp only [PduReader.startPdu, hread, hread', hopen]
  · rw [PduReader.nextSize, hin, List.drop_left' ha, List.take_left' hb]

theorem exists_header {l : Bytes} (h : 8 ≤ l.length) :
    ∃ a b y : Bytes, a.length = 4 ∧ b.length = 4 ∧ l = a ++ (b ++ y) := by
  refine ⟨l.take 4, (l.drop 4).take 4, (l.drop 4).drop 4, ?_, ?_, ?_⟩
  · exact List.length_take_of_le (by omega)
  · exact List.length_take_of_le (by rw [List.length_drop]; omega)
  · rw [List.take_append_drop, List.take_append_drop]

/-- What a pass makes of the reader `r`, if it leaves `r'`: the pdu at the front is complete and there
is less to read, or it is not, and there is nothing. -/
def AfterPass (stream : Bytes) (got : List Frame) (r r' : PduReader) : Prop :=
  r'.frontComplete = true ∧ Tracks stream got { r' with pduComplete := true } ∧
      r'.conn.incoming.length < r.conn.incoming.length ∨
    r'.frontComplete = false ∧ Tracks stream got r' ∧ r'.pduComplete = false ∧
      r'.conn.incoming = []

section StartPdu

variable {a b y : Bytes} (h : Tracks stream got r) (ha : a.length = 4) (hb : b.length = 4)
  (hin : r.conn.incoming = a ++ (b ++ y))
include h ha hb hin

/-- A pdu that is begun alone. -/
theorem passed_alone (hc : r.pduComplete = true) (hpend : r.pending = []) :
    AfterPass stream got r r.startPdu.fill := by
  obtain ⟨left, hleft, hs⟩ := h.complete hc
  obtain rfl : left = [] := List.map_eq_nil_iff.1 (hleft.symm.trans hpend)
  obtain ⟨hstart, -⟩ := startPdu_eq h.opened ha hb hin
  rw [List.append_nil] at hs
  rw [hpend, List.nil_append] at hstart
  have hs' : stream = frameBytes got ++
      ((⟨readUint32 a, readUint32 b, []⟩ : PduHeader).headerBytes ++
        ([] ++ r.startPdu.conn.incoming)) := by
    rw [hs, hin, hstart, PduHeader.headerBytes, uint32Bytes_readUint32 ha,
      uint32Bytes_readUint32 hb]
    simp
  have hlen : r.startPdu.conn.incoming.length + 8 = r.conn.incoming.length := by
    rw [hstart, hin, List.length_append, List.length_append, ha, hb]
    ring
  rcases fill_begun (by rw [hstart]) (by rw [hstart]) (by rw [hstart]) (Nat.zero_le _) hs' with
    ⟨hfront, htracks, hfill⟩ | hmore
  · exact Or.inl ⟨hfront, htracks, by omega⟩
  · exact Or.inr hmore

/-- A pdu without payload that is begun behind others: the one at the front is complete. -/
theorem passed_behind {f : Frame} {left : List Frame} (hpend : r.pending = (f :: left).map Frame.pdu)
    (hs : stream = frameBytes (got ++ f :: left) ++ r.conn.incoming) (hzero : readUint32 b = 0) :
    AfterPass stream got r r.startPdu.fill := by
  obtain ⟨hstart, -⟩ := startPdu_eq h.opened ha hb hin
  have hfront : r.startPdu.pending =
      f.pdu :: (left.map Frame.pdu ++ [⟨readUint32 a, readUint32 b, []⟩]) := by
    rw [hstart, hpend]
    rfl
  have hfill := fill_eq (x := []) (by rw [hstart]) hfront (List.nil_append _).symm (by
    rw [Frame.pdu, f.size_toNat, Nat.sub_self, Nat.min_zero]
    rfl)
  let g : Frame := ⟨readUint32 a, [], by decide⟩
  have hg : g.pdu = ⟨readUint32 a, readUint32 b, []⟩ := by rw [hzero]; rfl
  have hgb : g.bytes = a ++ b := by
    have h0 : g.size = readUint32 b := by rw [hzero]; rfl
    rw [Frame.bytes, h0, uint32Bytes_readUint32 hb, show g.type = readUint32 a from rfl,
      uint32Bytes_readUint32 ha]
    exact congrArg (a ++ ·) (List.append_nil b)
  left
  rw [hfill]
  refine ⟨?_, ⟨rfl, fun _ => ⟨f :: (left ++ [g]), ?_, ?_⟩, nofun⟩, ?_⟩
  · simp [PduReader.frontComplete, Frame.pdu, f.size_toNat]
  · simp [hg]
  · rw [hs, hin, hstart, show got ++ f :: (left ++ [g]) = (got ++ f :: left) ++ [g] by simp,
      frameBytes_append _ [g], frameBytes_singleton, hgb]
    simp
  · rw [hstart, hin, List.length_append, List.length_append, ha, hb]
    simp only
    omega

end StartPdu

theorem idle_of_begin_eq_none (h : r.begin = none) : r.Idle := by
  rw [PduReader.begin] at h
  split_ifs at h with hc hlt
  exact Or.inl ⟨hc, hlt⟩

/-- **One pass of `on_data`** which begins no pdu with a payload while others are unread. -/
theorem pass {r' : PduReader} (h : Tracks stream got r) (hbegin : r.begin = some r')
    (hready : r.ReadyToBegin) : AfterPass stream got r r'.fill := by
  cases hc : r.pduComplete with
  | false =>
    obtain rfl : r = r' := by simpa [PduReader.begin, hc] using hbegin
    obtain ⟨p, hpend, hlt, hs⟩ := h.begun hc
    rcases fill_begun h.opened hpend hc hlt.le hs with ⟨hfront, htracks, hfill⟩ | hmore
    · exact Or.inl ⟨hfront, htracks, by omega⟩
    · exact Or.inr hmore
  | true =>
    have h8 : 8 ≤ r.conn.incoming.length := by
      by_contra hlt
      simp [PduReader.begin, hc, not_le.1 hlt] at hbegin
    obtain rfl : r.startPdu = r' := by
      simpa [PduReader.begin, hc, not_lt.2 h8] using hbegin
    obtain ⟨a, b, y, ha, hb, hin⟩ := exists_header h8
    obtain ⟨left, hpend, hs⟩ := h.complete hc
    cases left with
    | nil => exact h.passed_alone ha hb hin hc hpend
    | cons f left =>
      have hzero : readUint32 b = 0 := by
        rcases hready hc h8 with hnil | h0
        · rw [hpend] at hnil
          cases hnil
        · rw [← (startPdu_eq h.opened ha hb hin).2, h0]
      exact h.passed_behind ha hb hin hpend hs hzero

/-! ### A whole call -/

section Call

variable {τ : Type} {notify : τ → PduReader → τ × PduReader} {K : τ → List Frame → Prop}

/-- A consumer that is notified only takes pdus; `K` is what it knows of the frames it took. -/
def Takes (stream : Bytes) (notify : τ → PduReader → τ × PduReader) (K : τ → List Frame → Prop) :
    Prop :=
  ∀ t r got, Tracks stream got r → r.pduComplete = true → K t got →
    ∃ got', Tracks stream got' (notify t r).2 ∧ K (notify t r).1 got' ∧
      (notify t r).2.conn = r.conn

/-- **A call of `on_data`**. -/
theorem onDataLoop (hnotify : Takes stream notify K) {n : ℕ} {t : τ}
    (hn : r.conn.incoming.length < n) (h : Tracks stream got r) (hK : K t got)
    (hclean : PduReader.NoneUnread notify n t r) :
    ∃ got', Tracks stream got' (PduReader.onDataLoop notify n t r).2 ∧
      K (PduReader.onDataLoop notify n t r).1 got' ∧
      (PduReader.onDataLoop notify n t r).2.Idle := by
  induction n generalizing t r got with
  | zero => omega
  | succ n ih =>
    rw [PduReader.onDataLoop]
    obtain ⟨hready, hrest⟩ := hclean
    cases hbegin : r.begin with
    | none => exact ⟨got, h, hK, idle_of_begin_eq_none hbegin⟩
    | some r' =>
      rw [hbegin] at hrest
      simp only
      rcases h.pass hbegin hready with ⟨hfront, htr, hlt⟩ | ⟨hfront, htr, hc, hin⟩
      · obtain ⟨got', htr', hK', hconn⟩ := hnotify t _ got htr rfl hK
        rw [if_pos hfront]
        refine ih ?_ htr' hK' (hrest hfront)
        rw [hconn]
        simp only
        omega
      · rw [hfront]
        exact ⟨got, htr, hK, Or.inr ⟨hc, hin⟩⟩

end Call

end Tracks

/-- A frame of a type and a size: the bytes of the two, and a payload that begins with given bytes.
-/
theorem exists_frame (type size : UInt32) (payload : Bytes) (h : payload.length ≤ size.toNat) :
    ∃ (f : Frame) (x : Bytes), f.bytes = (uint32Bytes type ++ (uint32Bytes size ++ payload)) ++ x ∧
      payload.length + x.length = size.toNat := by
  have hsize := size.toNat_lt
  have hlen : (payload ++ List.replicate (size.toNat - payload.length) 0).length = size.toNat := by
    rw [List.length_append, List.length_replicate]
    omega
  let f : Frame := ⟨type, payload ++ List.replicate (size.toNat - payload.length) 0,
    by rw [hlen]; exact hsize⟩
  have hf : f.size = size := UInt32.toNat_inj.1 (by rw [f.size_toNat]; exact hlen)
  refine ⟨f, List.replicate (size.toNat - payload.length) 0, ?_, ?_⟩
  · rw [Frame.bytes, hf, show f.type = type from rfl,
      show f.payload = payload ++ List.replicate (size.toNat - payload.length) 0 from rfl]
    simp only [List.append_assoc]
  · rw [List.length_replicate]
    omega

/-- What is too short for the size in its header is unfinished. -/
theorem unfinished_of_payload_lt (type size : UInt32) {payload : Bytes}
    (h : payload.length < size.toNat) :
    Unfinished (uint32Bytes type ++ (uint32Bytes size ++ payload)) := by
  obtain ⟨f, x, hf, hlen⟩ := exists_frame type size payload h.le
  refine ⟨f, ⟨x, hf.symm⟩, fun he => ?_⟩
  have := congrArg List.length (he.trans hf)
  simp only [List.length_append] at this
  omega

/-- Fewer than eight bytes are unfinished. -/
theorem unfinished_of_length_lt {r : Bytes} (h : r.length < 8) : Unfinished r := by
  have hpad : (r ++ List.replicate (8 - r.length) 0).length = 8 := by
    rw [List.length_append, List.length_replicate]
    omega
  obtain ⟨a, b, ha, hb, hab⟩ : ∃ a b : Bytes, a.length = 4 ∧ b.length = 4 ∧
      r ++ List.replicate (8 - r.length) 0 = a ++ b := by
    refine ⟨_, _, ?_, ?_, (List.take_append_drop 4 _).symm⟩
    · rw [List.length_take, hpad]
      rfl
    · rw [List.length_drop, hpad]
  obtain ⟨f, x, hf, -⟩ := exists_frame (readUint32 a) (readUint32 b) [] (Nat.zero_le _)
  rw [uint32Bytes_readUint32 ha, uint32Bytes_readUint32 hb, List.append_nil, ← hab,
    List.append_assoc] at hf
  refine ⟨f, ⟨_, hf.symm⟩, fun he => ?_⟩
  have := congrArg List.length (he.trans hf)
  rw [List.length_append, List.length_append, List.length_replicate] at this
  omega

/-- What a reader that has nothing to do has received: the frames it returned and has ready, and an
unfinished one. -/
theorem Tracks.at_end {stream : Bytes} {got : List Frame} {r : PduReader} (h : Tracks stream got r)
    (hend : r.Idle) :
    ∃ left rest, stream = frameBytes (got ++ left) ++ rest ∧ Unfinished rest ∧
      (r.pduComplete = true → r.pending = left.map Frame.pdu) ∧
      (r.pduComplete = false → left = []) := by
  rcases hend with ⟨hc, hlt⟩ | ⟨hc, hnil⟩
  · obtain ⟨left, hpend, hs⟩ := h.complete hc
    exact ⟨left, r.conn.incoming, hs, unfinished_of_length_lt hlt, fun _ => hpend, by simp [hc]⟩
  · obtain ⟨p, -, hlt, hs⟩ := h.begun hc
    refine ⟨[], p.headerBytes ++ p.payload, ?_, ?_, by simp [hc], fun _ => rfl⟩
    · rw [hs, hnil, List.append_nil, List.append_nil]
    · rw [PduHeader.headerBytes, List.append_assoc]
      exact unfinished_of_payload_lt p.type p.size hlt

/-- If none is ready, these are the frames it returned. -/
theorem Tracks.drained {stream : Bytes} {got : List Frame} {r : PduReader} (h : Tracks stream got r)
    (hend : r.Idle) (hempty : r.pduComplete = true → r.pending = []) :
    ∃ rest, stream = frameBytes got ++ rest ∧ Unfinished rest := by
  obtain ⟨left, rest, hs, hrest, hleft, hnil⟩ := h.at_end hend
  have hnone : left = [] := by
    cases hc : r.pduComplete with
    | true =>
      rw [hempty hc] at hleft
      exact List.map_eq_nil_iff.1 (hleft hc).symm
    | false => exact hnil hc
  rw [hnone, List.append_nil] at hs
  exact ⟨rest, hs, hrest⟩

/-- A stream has one division into frames. -/
theorem frames_unique {fs gs : List Frame} {x y : Bytes}
    (h : frameBytes fs ++ x = frameBytes gs ++ y) (hx : Unfinished x) (hy : Unfinished y) :
    fs = gs :=
  (prefix_of_frameBytes_append h hy).eq_of_length_le
    (prefix_of_frameBytes_append h.symm hx).length_le

/-! ### The protocol of a `ReplicaConnection` -/

/-- What a pdu is passed on as: its type, its size, and a pointer to its payload, which is null if
there is none. -/
abbrev PduCall := UInt32 × UInt32 × Option Bytes

/-- A `PduProtocol`: for each state and type of pdu the records bound to it, each with the state to
go to if it has one; the current state; and the calls of `onPdu`. -/
structure PduProtocol (κ : Type) where
  table : κ → UInt32 → List (Option κ)
  curState : κ
  passed : List PduCall

variable {κ : Type}

/-- The state after a pdu, if any record is bound to its type.  The last record decides. -/
def nextState (table : κ → UInt32 → List (Option κ)) (s : κ) (type : UInt32) : Option κ :=
  (table s type).getLast?.map fun next => next.getD s

/-- `PduProtocol::onPdu`, and whether it threw a `PduProtocolException`. -/
def PduProtocol.onPdu (proto : PduProtocol κ) (type size : UInt32) (data : Option Bytes) :
    Bool × PduProtocol κ :=
  let proto := { proto with passed := proto.passed ++ [(type, size, data)] }
  match nextState proto.table proto.curState type with
  | none => (true, proto)
  | some s => (false, { proto with curState := s })

namespace ReplicaConnection

/-- The loop of `ReplicaConnection::on_pdu`. -/
def onPduLoop : ℕ → PduProtocol κ → PduReader → PduProtocol κ × PduReader
  | 0, proto, r => (proto, r)
  | n + 1, proto, r =>
    match r.nextPdu with
    | (none, r) => (proto, r)
    | (some pdu, r) =>
      match proto.onPdu pdu.type pdu.size (if pdu.size = 0 then none else some pdu.payload) with
      | (false, proto) => onPduLoop n proto r
      -- a protocol exception closes the connection
      | (true, proto) => (proto, { r with conn := r.conn.close })

/-- `ReplicaConnection::on_pdu`. -/
def onPdu (proto : PduProtocol κ) (r : PduReader) : PduProtocol κ × PduReader :=
  onPduLoop (r.pending.length + 1) proto r

/-- The chunks of a connection, for a protocol that starts in a state. -/
def run (table : κ → UInt32 → List (Option κ)) (start : κ) (chunks : List Bytes) :
    PduProtocol κ × PduReader :=
  chunks.foldl (PduReader.onRead onPdu) (⟨table, start, []⟩, PduReader.new)

/-- The call for a frame. -/
def call (f : Frame) : PduCall := (f.type, f.size, if f.size = 0 then none else some f.payload)

/-- The table accepts frames: all of them have a record in the state they find. -/
def Accepts (table : κ → UInt32 → List (Option κ)) (start : κ) (frames : List Frame) : Prop :=
  ((frames.map Frame.type).foldlM (nextState table) start).isSome = true

/-- The protocol has been passed some frames and is in the state after them. -/
structure Passed (table : κ → UInt32 → List (Option κ)) (start : κ) (proto : PduProtocol κ)
    (got : List Frame) : Prop where
  same : proto.table = table
  passed : proto.passed = got.map call
  state : (got.map Frame.type).foldlM (nextState table) start = some proto.curState

variable {table : κ → UInt32 → List (Option κ)} {start : κ} {proto : PduProtocol κ}
  {frames got : List Frame} {stream rest : Bytes} {r : PduReader}

/-- The protocol has thrown at the frame `f` after the frames `got`, and the connection is closed. -/
structure Rejected (table : κ → UInt32 → List (Option κ)) (start : κ)
    (s : PduProtocol κ × PduReader) (got : List Frame) (f : Frame) : Prop where
  passed : s.1.passed = (got ++ [f]).map call
  unbound : ∃ k, (got.map Frame.type).foldlM (nextState table) start = some k ∧
    nextState table k f.type = none
  closed : s.2.conn = ⟨false, []⟩
  complete : s.2.pduComplete = true

/-- Nothing is left to read on the closed connection. -/
theorem Rejected.onDataLoop {s : PduProtocol κ × PduReader} {f : Frame}
    (h : Rejected table start s got f) (n : ℕ) : PduReader.onDataLoop onPdu n s.1 s.2 = s := by
  cases n with
  | zero => rfl
  | succ n =>
    have hnone : s.2.begin = none := by
      rw [PduReader.begin, h.complete, h.closed]
      rfl
    rw [PduReader.onDataLoop, hnone]

/-- One more frame: it is accepted, or the protocol throws. -/
theorem Passed.next (h : Passed table start proto got) (f : Frame) :
    (∃ proto', proto.onPdu f.pdu.type f.pdu.size
        (if f.pdu.size = 0 then none else some f.pdu.payload) = (false, proto') ∧
      Passed table start proto' (got ++ [f])) ∨
    (∃ proto', proto.onPdu f.pdu.type f.pdu.size
        (if f.pdu.size = 0 then none else some f.pdu.payload) = (true, proto') ∧
      proto'.passed = (got ++ [f]).map call ∧ nextState table proto.curState f.type = none) := by
  have hpassed : proto.passed ++ [call f] = (got ++ [f]).map call := by
    rw [h.passed, List.map_append]
    rfl
  cases hnext : nextState table proto.curState f.type with
  | some k =>
    refine Or.inl ⟨⟨table, k, proto.passed ++ [call f]⟩, ?_, rfl, hpassed, ?_⟩
    · simp only [PduProtocol.onPdu, h.same, Frame.pdu, hnext]
      rfl
    · rw [List.map_append, List.foldlM_append, h.state]
      simpa using hnext
  | none =>
    refine Or.inr ⟨⟨table, proto.curState, proto.passed ++ [call f]⟩, ?_, hpassed, rfl⟩
    simp only [PduProtocol.onPdu, h.same, Frame.pdu, hnext]
    rfl

/-- `on_pdu` passes on all pdus that are complete, or the connection is closed at one of them. -/
theorem onPduLoop_cases {n : ℕ} (hn : r.pending.length < n) (h : Tracks stream got r)
    (hc : r.pduComplete = true) (hp : Passed table start proto got) :
    (∃ got', Tracks stream got' (onPduLoop n proto r).2 ∧
      Passed table start (onPduLoop n proto r).1 got' ∧
      (onPduLoop n proto r).2.conn = r.conn ∧ (onPduLoop n proto r).2.pending = []) ∨
    (∃ got' f y, Rejected table start (onPduLoop n proto r) got' f ∧
      stream = frameBytes (got' ++ [f]) ++ y) := by
  induction n generalizing got proto r with
  | zero => omega
  | succ n ih =>
    rw [onPduLoop]
    rcases h.nextPdu with ⟨f, left, -, hpend, hnext, htr⟩ | ⟨hnext, hnil⟩
    · rw [hnext]
      rcases hp.next f with ⟨proto', hcall, hp'⟩ | ⟨proto', hcall, hpassed, hunbound⟩
      · simp only [hcall]
        refine ih ?_ htr hc hp'
        rw [hpend, List.map_cons, List.length_cons] at hn
        simp only
        omega
      · simp only [hcall]
        obtain ⟨left', -, hs⟩ := htr.complete hc
        rw [frameBytes_append, List.append_assoc] at hs
        exact Or.inr ⟨got, f, _, ⟨hpassed, ⟨_, hp.state, hunbound⟩, rfl, hc⟩, hs⟩
    · rw [hnext]
      exact Or.inl ⟨got, h, hp, rfl, hnil hc⟩

/-- **A call of `on_data`** of a `ReplicaConnection`: when it returns, all complete pdus have been
passed on, or the connection is closed. -/
theorem onDataLoop_cases {n : ℕ} (hn : r.conn.incoming.length < n) (h : Tracks stream got r)
    (hempty : r.pduComplete = true → r.pending = []) (hp : Passed table start proto got) :
    (∃ got', Tracks stream got' (PduReader.onDataLoop onPdu n proto r).2 ∧
      Passed table start (PduReader.onDataLoop onPdu n proto r).1 got' ∧
      (PduReader.onDataLoop onPdu n proto r).2.Idle ∧
      ((PduReader.onDataLoop onPdu n proto r).2.pduComplete = true →
        (PduReader.onDataLoop onPdu n proto r).2.pending = [])) ∨
    (∃ got' f y, Rejected table start (PduReader.onDataLoop onPdu n proto r) got' f ∧
      stream = frameBytes (got' ++ [f]) ++ y) := by
  induction n generalizing got proto r with
  | zero => omega
  | succ n ih =>
    rw [PduReader.onDataLoop]
    cases hbegin : r.begin with
    | none => exact Or.inl ⟨got, h, hp, Tracks.idle_of_begin_eq_none hbegin, hempty⟩
    | some r' =>
      have hready : r.ReadyToBegin := fun hc _ => Or.inl (hempty hc)
      simp only
      rcases h.pass hbegin hready with ⟨hfront, htr, hlt⟩ | ⟨hfront, htr, hc, hin⟩
      · rw [if_pos hfront]
        rcases onPduLoop_cases (Nat.lt_succ_self _) htr rfl hp with
          ⟨got', htr', hp', hconn, hnil⟩ | ⟨got', f, y, hrej, hs⟩
        · refine ih ?_ htr' (fun _ => hnil) hp'
          have hlen := congrArg (fun c => c.incoming.length) hconn
          exact (hlen.trans_lt hlt).trans_le (Nat.lt_succ_iff.1 hn)
        · have hstop := hrej.onDataLoop n
          refine Or.inr ⟨got', f, y, ?_, hs⟩
          exact hstop.symm ▸ hrej
      · rw [hfront]
        exact Or.inl ⟨got, htr, hp, Or.inr ⟨hc, hin⟩, by simp [hc]⟩

theorem Rejected.not_accepts {s : PduProtocol κ × PduReader} {f : Frame}
    (h : Rejected table start s got f) (hpre : got ++ [f] <+: frames) :
    ¬ Accepts table start frames := by
  obtain ⟨more, rfl⟩ := hpre
  obtain ⟨k, hk, hnone⟩ := h.unbound
  unfold Accepts
  rw [List.append_assoc, List.map_append, List.foldlM_append, hk]
  simp [hnone]

/-- The chunks that follow. -/
theorem foldl_drains (hacc : Accepts table start frames) (hrest : Unfinished rest)
    {chunks : List Bytes} {s : PduProtocol κ × PduReader}
    (hstream : stream ++ chunks.flatten = frameBytes frames ++ rest) (h : Tracks stream got s.2)
    (hidle : s.2.Idle) (hempty : s.2.pduComplete = true → s.2.pending = [])
    (hp : Passed table start s.1 got) :
    (chunks.foldl (PduReader.onRead onPdu) s).1.passed = frames.map call := by
  induction chunks generalizing stream got s with
  | nil =>
    obtain ⟨rest', hs, hrest'⟩ := h.drained hidle hempty
    rw [List.flatten_nil, List.append_nil, hs] at hstream
    rw [List.foldl_nil, hp.passed, frames_unique hstream hrest' hrest]
  | cons chunk chunks ih =>
    rw [List.flatten_cons, ← List.append_assoc] at hstream
    rcases onDataLoop_cases (Nat.lt_succ_self _) (h.receive chunk) hempty hp with
      ⟨got', h1, h2, h3, h4⟩ | ⟨got', f, y, hrej, hs⟩
    · exact ih hstream h1 h3 h4 h2
    · rw [hs, List.append_assoc] at hstream
      exact absurd hacc (hrej.not_accepts (prefix_of_frameBytes_append hstream hrest))

/-- **The replica server dispatches each frame once.**  For every sequence of frames, every way
their bytes (and the beginning of a further frame) are cut into chunks, and every table that accepts
the frames, the protocol is passed the type, size and payload of each frame, in order. -/
theorem pdus_dispatched_once (table : κ → UInt32 → List (Option κ)) (start : κ)
    (frames : List Frame) (chunks : List Bytes) (rest : Bytes)
    (hacc : Accepts table start frames) (hrest : Unfinished rest)
    (hstream : chunks.flatten = frameBytes frames ++ rest) :
    (run table start chunks).1.passed = frames.map call :=
  foldl_drains hacc hrest hstream Tracks.new PduReader.new_idle (fun _ => rfl) ⟨rfl, rfl, rfl⟩

/-- A frame with a payload and one without, the first cut in its header and in its payload. -/
theorem pdus_dispatched_once_sample :
    (run (fun _ _ => [some ()]) ()
      [[3, 0, 0, 0, 2, 0], [0, 0, 16], [32, 4, 0, 0, 0, 0, 0, 0, 0]]).1.passed =
      [(3, 2, some [16, 32]), (4, 0, none)] :=
  pdus_dispatched_once (fun _ _ => [some ()]) () [⟨3, [16, 32], by decide⟩, ⟨4, [], by decide⟩] _ []
    rfl (unfinished_of_length_lt (by decide)) (by decide)

end ReplicaConnection

/-! ### Consumers with a schedule -/

/-- A consumer: how often it was notified, and the pdus `nextPdu` returned to it. -/
structure PduConsumer where
  notified : ℕ
  got : List PduHeader
  deriving DecidableEq

namespace PduConsumer

/-- Some calls of `nextPdu`. -/
def takePdus : ℕ → PduConsumer → PduReader → PduConsumer × PduReader
  | 0, t, r => (t, r)
  | n + 1, t, r =>
    match r.nextPdu with
    | (none, r) => takePdus n t r
    | (some pdu, r) => takePdus n { t with got := t.got ++ [pdu] } r

/-- The consumer that calls `nextPdu` `sched i` times at its notification number `i`. -/
def notify (sched : ℕ → ℕ) (t : PduConsumer) (r : PduReader) : PduConsumer × PduReader :=
  takePdus (sched t.notified) { t with notified := t.notified + 1 } r

/-- What happens to a reader: bytes arrive, or `nextPdu` is called outside a notification. -/
inductive Event
  | data (chunk : Bytes)
  | nextPdu

/-- One event. -/
def step (sched : ℕ → ℕ) (s : PduConsumer × PduReader) : Event → PduConsumer × PduReader
  | .data chunk => PduReader.onRead (notify sched) s chunk
  | .nextPdu => takePdus 1 s.1 s.2

/-- The bytes received. -/
def received : List Event → Bytes
  | [] => []
  | .data chunk :: events => chunk ++ received events
  | .nextPdu :: events => received events

/-- The state after some events, and after the pdus that are left have been taken. -/
def finish (sched : ℕ → ℕ) (events : List Event) : PduConsumer × PduReader :=
  let s := events.foldl (step sched) (⟨0, []⟩, PduReader.new)
  takePdus s.2.pending.length s.1 s.2

/-- The event begins no pdu with a payload while complete pdus are unread. -/
def Clean (sched : ℕ → ℕ) (s : PduConsumer × PduReader) : Event → Prop
  | .data chunk =>
    PduReader.NoneUnread (notify sched) ((s.2.conn.incoming ++ chunk).length + 1) s.1
      { s.2 with conn := { s.2.conn with incoming := s.2.conn.incoming ++ chunk } }
  | .nextPdu => True

variable {stream : Bytes} {got : List Frame} {t : PduConsumer} {r : PduReader}

/-- Calls of `nextPdu` take the pdus that are complete, in order. -/
theorem takePdus_tracks (n : ℕ) (h : Tracks stream got r) (hgot : t.got = got.map Frame.pdu) :
    ∃ got', Tracks stream got' (takePdus n t r).2 ∧ (takePdus n t r).1.got = got'.map Frame.pdu ∧
      (takePdus n t r).2.conn = r.conn ∧ (takePdus n t r).2.pduComplete = r.pduComplete ∧
      (r.pduComplete = true → (takePdus n t r).2.pending.length = r.pending.length - n) := by
  induction n generalizing got t r with
  | zero => exact ⟨got, h, hgot, rfl, rfl, fun _ => rfl⟩
  | succ n ih =>
    rw [takePdus]
    rcases h.nextPdu with ⟨f, left, hc, hpend, hnext, htr⟩ | ⟨hnext, hnil⟩
    · rw [hnext]
      obtain ⟨got', h1, h2, h3, h4, h5⟩ := ih (t := { t with got := t.got ++ [f.pdu] }) htr
        (by rw [hgot, List.map_append]; rfl)
      refine ⟨got', h1, h2, h3, h4, fun _ => (h5 hc).trans ?_⟩
      rw [hpend, List.map_cons, List.length_cons]
      simp only
      omega
    · rw [hnext]
      obtain ⟨got', h1, h2, h3, h4, h5⟩ := ih h hgot
      refine ⟨got', h1, h2, h3, h4, fun hc => (h5 hc).trans ?_⟩
      rw [hnil hc, List.length_nil]
      omega

theorem takes_notify (sched : ℕ → ℕ) (stream : Bytes) :
    Tracks.Takes stream (notify sched) fun t got => t.got = got.map Frame.pdu := by
  intro t r got h _ hgot
  obtain ⟨got', h1, h2, h3, -, -⟩ :=
    takePdus_tracks (t := { t with notified := t.notified + 1 }) (sched t.notified) h hgot
  exact ⟨got', h1, h2, h3⟩

/-- One event of a run. -/
theorem step_tracks {sched : ℕ → ℕ} {e : Event} (h : Tracks stream got r)
    (hgot : t.got = got.map Frame.pdu) (hend : r.Idle) (hclean : Clean sched (t, r) e) :
    ∃ got', Tracks (stream ++ received [e]) got' (step sched (t, r) e).2 ∧
      (step sched (t, r) e).1.got = got'.map Frame.pdu ∧ (step sched (t, r) e).2.Idle := by
  cases e with
  | data chunk =>
    rw [received, received, List.append_nil]
    exact Tracks.onDataLoop (takes_notify sched _) (Nat.lt_succ_self _) (h.receive chunk) hgot hclean
  | nextPdu =>
    rw [received, received, List.append_nil]
    obtain ⟨got', h1, h2, h3, h4, -⟩ := takePdus_tracks 1 h hgot
    refine ⟨got', h1, h2, ?_⟩
    rw [step, PduReader.Idle, h3, h4]
    exact hend

theorem received_append (l l' : List Event) : received (l ++ l') = received l ++ received l' := by
  induction l with
  | nil => rfl
  | cons e l ih => cases e <;> simp [received, ih]

/-- All events of a run. -/
theorem run_tracks {sched : ℕ → ℕ} {events : List Event} {s : PduConsumer × PduReader}
    (h : Tracks stream got s.2) (hgot : s.1.got = got.map Frame.pdu)
    (hend : s.2.Idle) (hclean : Run.Along (step sched) (Clean sched) s events) :
    ∃ got', Tracks (stream ++ received events) got' (events.foldl (step sched) s).2 ∧
      (events.foldl (step sched) s).1.got = got'.map Frame.pdu ∧
      (events.foldl (step sched) s).2.Idle := by
  induction events generalizing stream got s with
  | nil => exact ⟨got, by rwa [received, List.append_nil], hgot, hend⟩
  | cons e events ih =>
    obtain ⟨hc, hrest⟩ := hclean
    obtain ⟨got', h1, h2, h3⟩ := step_tracks h hgot hend hc
    have hrec : received (e :: events) = received [e] ++ received events :=
      received_append [e] events
    rw [hrec, ← List.append_assoc]
    exact ih h1 h2 h3 hrest

/-- **What `nextPdu` returns.**  For every schedule of `nextPdu` calls, every sequence of frames and
every way their bytes arrive: if no pdu with a payload is begun while complete pdus are unread, the
pdus returned, with those that are left at the end, are the frames received, in order. -/
theorem pdus_returned (sched : ℕ → ℕ) (events : List Event) (frames : List Frame) (rest : Bytes)
    (hstream : received events = frameBytes frames ++ rest) (hrest : Unfinished rest)
    (hclean : Run.Along (step sched) (Clean sched) (⟨0, []⟩, PduReader.new) events) :
    (finish sched events).1.got = frames.map Frame.pdu := by
  obtain ⟨got, h1, h2, h3⟩ := run_tracks Tracks.new rfl PduReader.new_idle hclean
  obtain ⟨got', hf1, hf2, hf3, hf4, hf5⟩ := takePdus_tracks
    (events.foldl (step sched) (⟨0, []⟩, PduReader.new)).2.pending.length h1 h2
  obtain ⟨rest', hs, hrest'⟩ := hf1.drained (by rw [PduReader.Idle, hf3, hf4]; exact h3) fun hc => by
    have hlen := hf5 (hf4.symm.trans hc)
    rw [Nat.sub_self] at hlen
    exact List.length_eq_zero_iff.1 hlen
  rw [List.nil_append, hstream] at hs
  rw [finish, frames_unique hs hrest hrest']
  exact hf2

end PduConsumer

/-- Two frames of one byte of payload, which arrive together. -/
def sampleFrames : List Frame := [⟨3, [0x10], by decide⟩, ⟨4, [0x20], by decide⟩]

/-- A consumer that takes one pdu at each notification gets both. -/
theorem pdus_returned_sample :
    (PduConsumer.finish (fun _ => 1) [.data (frameBytes sampleFrames)]).1.got =
      sampleFrames.map Frame.pdu := by
  refine PduConsumer.pdus_returned (fun _ => 1) [.data (frameBytes sampleFrames)] sampleFrames []
    (by simp [PduConsumer.received]) (unfinished_of_length_lt (by decide)) ⟨?_, trivial⟩
  show PduReader.NoneUnread _ _ _ _
  decide +kernel

/-- A consumer that takes its pdus at the end gets the second one without its payload. -/
theorem pdus_returned_late :
    PduConsumer.received [.data (frameBytes sampleFrames)] = frameBytes sampleFrames ∧
      (PduConsumer.finish (fun _ => 0) [.data (frameBytes sampleFrames)]).1.got =
        [⟨3, 1, [0x10]⟩, ⟨4, 1, []⟩] ∧
      (PduConsumer.finish (fun _ => 0) [.data (frameBytes sampleFrames)]).1.got ≠
        sampleFrames.map Frame.pdu := by
  decide +kernel

end Istatd
