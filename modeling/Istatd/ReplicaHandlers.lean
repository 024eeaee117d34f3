import Istatd.PduReader

/-!
# The two ends of a replica connection (`daemon/ReplicaOf.cpp`, `daemon/ReplicaServer.cpp`)

A `ReplicaOf` sends a connect pdu when its connection is up.  A `ReplicaConnection` reads pdus and
passes them to its protocol, which has two states: in `start` a handler is bound to connect pdus, in
`connected` one to request pdus.  Neither record has a state to go to.  A handler gets the payload as
a pointer, which it casts to the struct of its pdu; fields are read through `readField`, which fails
where the payload ends before the field does.

* `serve_passed`: the pdus that are passed to the protocol, for all bytes and all chunks;
* `handshake_fails`: the connect pdu is sent without a header, and the state stays `start`;
* `handlers_contained_iff`: when the handlers stay inside the payload.
-/

namespace Istatd

/-! ### The frames of a stream -/

/-- Every stream is some frames and an unfinished one. -/
theorem exists_frames (stream : Bytes) :
    ∃ frames rest, Unfinished rest ∧ stream = frameBytes frames ++ rest := by
  induction hn : stream.length using Nat.strong_induction_on generalizing stream with
  | _ n ih =>
    by_cases hlt : stream.length < 8
    · exact ⟨[], stream, unfinished_of_length_lt hlt, rfl⟩
    · have ha : (stream.take 4).length = 4 := by
        rw [List.length_take]
        omega
      have hb : ((stream.drop 4).take 4).length = 4 := by
        rw [List.length_take, List.length_drop]
        omega
      have hsplit : stream = stream.take 4 ++ ((stream.drop 4).take 4 ++ stream.drop 8) := by
        conv_lhs => rw [← List.take_append_drop 4 stream, ← List.take_append_drop 4 (stream.drop 4),
          List.drop_drop]
      rw [← uint32Bytes_readUint32 ha, ← uint32Bytes_readUint32 hb] at hsplit
      generalize readUint32 (stream.take 4) = type, readUint32 ((stream.drop 4).take 4) = size
        at hsplit
      by_cases hpay : (stream.drop 8).length < size.toNat
      · exact ⟨[], stream, by rw [hsplit]; exact unfinished_of_payload_lt type size hpay, rfl⟩
      · have hsize : ((stream.drop 8).take size.toNat).length = size.toNat := by
          rw [List.length_take]
          omega
        have hbound : ((stream.drop 8).take size.toNat).length < 2 ^ 32 := by
          rw [hsize]
          exact size.toNat_lt
        obtain ⟨frames, rest, hrest, hs⟩ :=
          ih ((stream.drop 8).drop size.toNat).length (by
            rw [List.length_drop, List.length_drop]
            omega) _ rfl
        refine ⟨⟨type, (stream.drop 8).take size.toNat, hbound⟩ :: frames, rest, hrest, ?_⟩
        have hsame : Frame.size ⟨type, (stream.drop 8).take size.toNat, hbound⟩ = size := by
          rw [Frame.size, hsize, UInt32.ofNat_toNat]
        calc stream = uint32Bytes type ++ (uint32Bytes size ++ stream.drop 8) := hsplit
          _ = uint32Bytes type ++ (uint32Bytes size ++
              ((stream.drop 8).take size.toNat ++ (frameBytes frames ++ rest))) := by
            rw [← hs, List.take_append_drop]
          _ = _ := by
            simp only [frameBytes, List.flatMap_cons, Frame.bytes, hsame, List.append_assoc]

namespace ReplicaConnection

variable {κ : Type} {table : κ → UInt32 → List (Option κ)} {start : κ} {frames got : List Frame}
  {stream rest : Bytes}

/-- `EagerConnection::on_read` for a connection that may have been closed, which disconnects its
signals. -/
def receive (s : PduProtocol κ × PduReader) (chunk : Bytes) : PduProtocol κ × PduReader :=
  if s.2.conn.opened then PduReader.onRead onPdu s chunk else s

/-- The chunks of a connection, up to one at which it is closed. -/
def serve (table : κ → UInt32 → List (Option κ)) (start : κ) (chunks : List Bytes) :
    PduProtocol κ × PduReader :=
  chunks.foldl receive (⟨table, start, []⟩, PduReader.new)

/-- The frames that are passed to the protocol: up to the first that it rejects. -/
def dispatched (table : κ → UInt32 → List (Option κ)) : κ → List Frame → List Frame
  | _, [] => []
  | k, f :: fs =>
    match nextState table k f.type with
    | none => [f]
    | some k' => f :: dispatched table k' fs

theorem dispatched_append {k : κ} (h : (got.map Frame.type).foldlM (nextState table) start = some k)
    (more : List Frame) :
    dispatched table start (got ++ more) = got ++ dispatched table k more := by
  induction got generalizing start with
  | nil =>
    cases h
    rfl
  | cons f fs ih =>
    rw [List.map_cons, List.foldlM_cons] at h
    cases hf : nextState table start f.type with
    | none =>
      rw [hf] at h
      cases h
    | some k' =>
      rw [hf] at h
      rw [List.cons_append, dispatched, hf]
      exact congrArg (f :: ·) (ih h)

theorem dispatched_isPrefix (table : κ → UInt32 → List (Option κ)) (k : κ) (frames : List Frame) :
    dispatched table k frames <+: frames := by
  induction frames generalizing k with
  | nil => exact List.prefix_rfl
  | cons f fs ih =>
    unfold dispatched
    cases nextState table k f.type with
    | none => exact List.prefix_append [f] fs
    | some k' => exact List.prefix_cons_inj f |>.2 (ih k')

theorem Rejected.dispatched {s : PduProtocol κ × PduReader} {f : Frame}
    (h : Rejected table start s got f) (hpre : got ++ [f] <+: frames) :
    dispatched table start frames = got ++ [f] := by
  obtain ⟨more, rfl⟩ := hpre
  obtain ⟨k, hk, hnone⟩ := h.unbound
  rw [List.append_assoc, dispatched_append hk, List.singleton_append, ReplicaConnection.dispatched,
    hnone]

theorem Rejected.foldl {s : PduProtocol κ × PduReader} {f : Frame}
    (h : Rejected table start s got f) (chunks : List Bytes) : chunks.foldl receive s = s := by
  induction chunks with
  | nil => rfl
  | cons chunk chunks ih =>
    have hclosed : receive s chunk = s := by
      unfold receive
      rw [h.closed]
      rfl
    rw [List.foldl_cons, hclosed, ih]

theorem foldl_serves (hrest : Unfinished rest) {chunks : List Bytes}
    {s : PduProtocol κ × PduReader} (hstream : stream ++ chunks.flatten = frameBytes frames ++ rest)
    (h : Tracks stream got s.2) (hidle : s.2.Idle)
    (hempty : s.2.pduComplete = true → s.2.pending = []) (hp : Passed table start s.1 got) :
    (chunks.foldl receive s).1.passed = (dispatched table start frames).map call ∧
      ((chunks.foldl receive s).2.conn.opened = true ↔ Accepts table start frames) := by
  induction chunks generalizing stream got s with
  | nil =>
    obtain ⟨rest', hs, hrest'⟩ := h.drained hidle hempty
    rw [List.flatten_nil, List.append_nil, hs] at hstream
    obtain rfl := frames_unique hstream hrest' hrest
    have hall := dispatched_append hp.state []
    rw [List.append_nil, ReplicaConnection.dispatched, List.append_nil] at hall
    refine ⟨by rw [List.foldl_nil, hp.passed, hall], fun _ => ?_, fun _ => h.opened⟩
    rw [Accepts, hp.state]
    rfl
  | cons chunk chunks ih =>
    rw [List.flatten_cons, ← List.append_assoc] at hstream
    have hopen : receive s chunk = PduReader.onRead onPdu s chunk := if_pos h.opened
    rw [List.foldl_cons, hopen]
    rcases onDataLoop_cases (Nat.lt_succ_self _) (h.receive chunk) hempty hp with
      ⟨got', h1, h2, h3, h4⟩ | ⟨got', f, y, hrej, hs⟩
    · exact ih hstream h1 h3 h4 h2
    · rw [hs, List.append_assoc] at hstream
      have hpre := prefix_of_frameBytes_append hstream hrest
      have hfold : chunks.foldl receive (PduReader.onRead onPdu s chunk) =
          PduReader.onRead onPdu s chunk := hrej.foldl chunks
      have hclosed : (PduReader.onRead onPdu s chunk).2.conn = ⟨false, []⟩ := hrej.closed
      rw [hfold, hrej.dispatched hpre, hclosed]
      refine ⟨hrej.passed, iff_of_false (by simp) (hrej.not_accepts hpre)⟩

/-- **What a `ReplicaConnection` passes to its protocol**: the frames of the stream up to the first
that is rejected, however the bytes are cut; the connection stays open if there is none. -/
theorem serve_passed (hrest : Unfinished rest) {chunks : List Bytes}
    (hstream : chunks.flatten = frameBytes frames ++ rest) :
    (serve table start chunks).1.passed = (dispatched table start frames).map call ∧
      ((serve table start chunks).2.conn.opened = true ↔ Accepts table start frames) :=
  foldl_serves hrest hstream Tracks.new PduReader.new_idle (fun _ => rfl) ⟨rfl, rfl, rfl⟩

end ReplicaConnection

/-! ### The sending side -/

/-- `UniqueId`. -/
structure UniqueId where
  id : Bytes
  length_id : id.length = 16

/-- A `PduWriter`: the size of its buffer, and what was written. -/
structure PduWriter where
  size : ℕ
  written : Bytes

namespace PduWriter

/-- `PduWriter::PduWriter`, at the start of the buffer. -/
def new (size : ℕ) : Except String PduWriter :=
  if size ≤ 0 then .error "No space in buffer in PduWriter::PduWriter()" else .ok ⟨size, []⟩

/-- `PduWriter::write`. -/
def write (pw : PduWriter) (src : Bytes) : Except String PduWriter :=
  if pw.size < src.length ∨ pw.size - src.length < pw.written.length then
    .error "Overflow writing to PDU"
  else .ok { pw with written := pw.written ++ src }

end PduWriter

/-- `PduConnect::Id`. -/
def pduConnectId : UInt32 := 1

/-- `PduRequest::Id`. -/
def pduRequestId : UInt32 := 3

/-- `ReplicateProtocolVersion1`. -/
def replicateProtocolVersion1 : UInt32 := 1

/-- `PduConnect::make`: what is written to the buffer. -/
def PduConnect.make (size : ℕ) (version : UInt32) (server : UniqueId) : Except String Bytes := do
  let pw ← PduWriter.new size
  let pw ← pw.write (uint32Bytes version)
  let pw ← pw.write server.id
  return pw.written

/-- `ReplicaOf::on_connection`: what is emitted. -/
def ReplicaOf.onConnection (uid : UniqueId) : Except String Bytes :=
  PduConnect.make 1024 replicateProtocolVersion1 uid

theorem PduWriter.write_ok {pw : PduWriter} {src : Bytes}
    (h : pw.written.length + src.length ≤ pw.size) :
    pw.write src = .ok { pw with written := pw.written ++ src } := if_neg (by omega)

theorem ReplicaOf.onConnection_eq (uid : UniqueId) :
    ReplicaOf.onConnection uid = .ok (uint32Bytes replicateProtocolVersion1 ++ uid.id) := by
  have hversion : PduWriter.write ⟨1024, []⟩ (uint32Bytes replicateProtocolVersion1) =
      .ok ⟨1024, uint32Bytes replicateProtocolVersion1⟩ := PduWriter.write_ok (by decide)
  have hid : PduWriter.write ⟨1024, uint32Bytes replicateProtocolVersion1⟩ uid.id =
      .ok ⟨1024, uint32Bytes replicateProtocolVersion1 ++ uid.id⟩ :=
    PduWriter.write_ok (by rw [uid.length_id]; decide)
  have hnew : PduWriter.new 1024 = .ok ⟨1024, []⟩ := rfl
  unfold onConnection PduConnect.make
  simp only [hnew, bind, Except.bind, hversion, hid]
  rfl

/-! ### The receiving side -/

/-- The states of the protocol of a `ReplicaConnection`. -/
inductive ReplicaState
  | start
  | connected
  deriving DecidableEq

/-- `ReplicaConnection::setupProtocol`.  No record has a state to go to. -/
def setupProtocol : ReplicaState → UInt32 → List (Option ReplicaState)
  | .start, type => if type = pduConnectId then [none] else []
  | .connected, type => if type = pduRequestId then [none] else []

/-- What can go wrong when a field of a payload is read. -/
inductive PayloadFault
  | nullPointer
  | outOfBounds
  deriving DecidableEq

/-- The bytes of a field of the struct that the payload is cast to. -/
def readField (data : Option Bytes) (offset size : ℕ) : Except PayloadFault Bytes :=
  match data with
  | none => .error .nullPointer
  | some payload =>
    if offset + size ≤ payload.length then .ok ((payload.drop offset).take size)
    else .error .outOfBounds

/-- A string that ends with a NUL. -/
def readCString (data : Option Bytes) (offset : ℕ) : Except PayloadFault Bytes :=
  match data with
  | none => .error .nullPointer
  | some payload =>
    if 0 ∈ payload.drop offset then .ok ((payload.drop offset).takeWhile (· ≠ 0))
    else .error .outOfBounds

namespace ReplicaConnection

/-- `ReplicaConnection::on_connect` of a server with the id `own`: the text of the error it sends, if
it refuses. -/
def onConnect (own : UniqueId) (data : Option Bytes) : Except PayloadFault (Option String) := do
  let version ← readField data 0 4
  if readUint32 version ≠ replicateProtocolVersion1 then return some "Unsupported protocol version"
  else
    let serverId ← readField data 4 16
    if own.id = serverId then return some "I refuse to talk to myself"
    else return none

/-- `ReplicaConnection::on_request`: what it logs. -/
def onRequest (data : Option Bytes) : Except PayloadFault (Bytes × Bytes × Bytes) := do
  let fromTime ← readField data 0 8
  let numBuckets ← readField data 8 8
  let name ← readCString data 16
  return (fromTime, numBuckets, name)

/-- The handler that is bound to the type of a pdu, as a function of its payload. -/
def handler (own : UniqueId) :
    ReplicaState → UInt32 → Option (Option Bytes → Except PayloadFault Unit)
  | .start, type =>
    if type = pduConnectId then some fun data => (onConnect own data).map fun _ => () else none
  | .connected, type =>
    if type = pduRequestId then some fun data => (onRequest data).map fun _ => () else none

theorem handler_isSome (own : UniqueId) (k : ReplicaState) (type : UInt32) :
    (handler own k type).isSome = true ↔ setupProtocol k type ≠ [] := by
  cases k <;> simp only [handler, setupProtocol] <;> split_ifs <;> simp

/-- The state stays as it is. -/
theorem nextState_setupProtocol (k : ReplicaState) (type : UInt32) :
    nextState setupProtocol k type = if setupProtocol k type = [] then none else some k := by
  cases k <;> simp only [nextState, setupProtocol] <;> split_ifs <;> simp_all

theorem dispatched_setupProtocol (k : ReplicaState) (frames : List Frame) :
    ∃ more, dispatched setupProtocol k frames =
        frames.takeWhile (fun f => setupProtocol k f.type ≠ []) ++ more ∧
      ∀ f ∈ more, setupProtocol k f.type = [] := by
  induction frames with
  | nil => exact ⟨[], rfl, nofun⟩
  | cons f fs ih =>
    unfold dispatched
    rw [nextState_setupProtocol]
    by_cases hf : setupProtocol k f.type = []
    · rw [if_pos hf, List.takeWhile_cons_of_neg (by simpa using hf)]
      exact ⟨[f], rfl, by simpa using hf⟩
    · obtain ⟨more, hmore, hnot⟩ := ih
      rw [if_neg hf, List.takeWhile_cons_of_pos (by simpa using hf)]
      exact ⟨more, congrArg (f :: ·) hmore, hnot⟩

/-! ### The handshake -/

/-- The frame of a connect pdu, as the reader expects it. -/
def connectFrame (payload : Bytes) (h : payload.length < 2 ^ 32) : Frame :=
  ⟨pduConnectId, payload, h⟩

/-- A request pdu is rejected after a connect pdu. -/
theorem not_accepts_request {connect request : Frame} (hconnect : connect.type = pduConnectId)
    (hrequest : request.type = pduRequestId) :
    ¬ Accepts setupProtocol .start [connect, request] := by
  have hstays : nextState setupProtocol .start connect.type = some .start := by
    rw [hconnect]
    rfl
  have hnone : nextState setupProtocol .start request.type = none := by
    rw [hrequest]
    rfl
  simp [Accepts, hstays, hnone]

/-- **The handshake fails for every id.** The bytes that are emitted are never read as one connect
pdu with them as its payload, however they are cut; and after a connect pdu with this payload a
request pdu closes the connection, since the protocol is still in its first state. -/
theorem handshake_fails (uid : UniqueId) :
    ∃ emitted, ReplicaOf.onConnection uid = .ok emitted ∧
      ∃ h : emitted.length < 2 ^ 32,
        (∀ chunks, chunks.flatten = emitted →
          (serve setupProtocol .start chunks).1.passed ≠ [call (connectFrame emitted h)]) ∧
        (∀ chunks request, request.type = pduRequestId →
          chunks.flatten = frameBytes [connectFrame emitted h, request] →
          (serve setupProtocol .start chunks).2.conn.opened = false) := by
  have hlen : (uint32Bytes replicateProtocolVersion1 ++ uid.id).length = 20 := by
    rw [List.length_append, uid.length_id]
    rfl
  refine ⟨_, ReplicaOf.onConnection_eq uid, by rw [hlen]; decide, fun chunks hchunks hpassed => ?_,
    fun chunks request htype hchunks => ?_⟩
  · obtain ⟨frames, rest, hrest, hs⟩ := exists_frames chunks.flatten
    rw [(serve_passed hrest hs).1] at hpassed
    obtain ⟨f, hf, hcall⟩ := List.map_eq_singleton_iff.1 hpassed
    -- a frame with this payload has eight bytes more
    have hsize : f.payload.length = 20 := by
      have h := congrArg (fun c : PduCall => c.2.1.toNat) hcall
      simp only [call, Frame.size_toNat] at h
      exact h.trans hlen
    obtain ⟨more, hmore⟩ := dispatched_isPrefix setupProtocol .start frames
    rw [hf] at hmore
    have htotal := congrArg List.length (hchunks.symm.trans hs)
    rw [hlen, ← hmore, frameBytes_append, List.length_append, List.length_append] at htotal
    have hframe : (frameBytes [f]).length = 28 := by
      simp [frameBytes, Frame.bytes, hsize, uint32Bytes]
    omega
  · have hunf : Unfinished [] := unfinished_of_length_lt (by decide)
    have hopen : (serve setupProtocol .start chunks).2.conn.opened = true ↔
        Accepts setupProtocol .start _ :=
      (serve_passed hunf (hchunks.trans (List.append_nil _).symm)).2
    simpa using mt hopen.1 (not_accepts_request rfl htype)

/-- The id of zeros: it is read as an empty connect pdu and a pdu of type 0, at which the connection
is closed. -/
theorem handshake_zero_id :
    ¬ ∀ (uid : UniqueId) (emitted : Bytes) (h : emitted.length < 2 ^ 32),
      ReplicaOf.onConnection uid = .ok emitted → ∀ chunks, chunks.flatten = emitted →
        (serve setupProtocol .start chunks).1.passed = [call (connectFrame emitted h)] ∧
        ∀ request : Frame, request.type = pduRequestId →
          ((serve setupProtocol .start chunks).1.onPdu request.type request.size
            (some request.payload)).1 = false := by
  intro hclaim
  have hpassed := (hclaim ⟨List.replicate 16 0, rfl⟩ (1 :: List.replicate 19 0) (by decide)
    (ReplicaOf.onConnection_eq _) [1 :: List.replicate 19 0] rfl).1
  revert hpassed
  decide +kernel

/-! ### The fields the handlers read -/

/-- The payload is long enough for the struct of its type, and a name is terminated. -/
def WellFormed (c : PduCall) : Prop :=
  (c.1 = pduConnectId → 20 ≤ (c.2.2.getD []).length) ∧
    (c.1 = pduRequestId → 0 ∈ (c.2.2.getD []).drop 16)

instance (c : PduCall) : Decidable (WellFormed c) := inferInstanceAs (Decidable (_ ∧ _))

/-- The handler of a pdu reads inside its payload only, and a pdu that is not well formed has none
that runs. -/
def Contained (own : UniqueId) (k : ReplicaState) (c : PduCall) : Prop :=
  (∀ h, handler own k c.1 = some h → h c.2.2 = .ok ()) ∧
    (¬ WellFormed c → handler own k c.1 = none)

theorem readField_ok {payload : Bytes} {offset size : ℕ} (h : offset + size ≤ payload.length) :
    readField (some payload) offset size = .ok ((payload.drop offset).take size) := if_pos h

theorem onConnect_ok (own : UniqueId) {payload : Bytes} (h : 20 ≤ payload.length) :
    ∃ text, onConnect own (some payload) = .ok text := by
  unfold onConnect
  rw [readField_ok (by omega), readField_ok (by omega)]
  simp only [bind, Except.bind]
  split_ifs <;> exact ⟨_, rfl⟩

theorem onRequest_ok {payload : Bytes} (h : 0 ∈ payload.drop 16) :
    ∃ fields, onRequest (some payload) = .ok fields := by
  have hlen : 16 < payload.length := by
    by_contra hcon
    rw [List.drop_of_length_le (not_lt.1 hcon)] at h
    cases h
  have hname : readCString (some payload) 16 = .ok ((payload.drop 16).takeWhile (· ≠ 0)) := if_pos h
  unfold onRequest
  rw [readField_ok (by omega), readField_ok (by omega), hname]
  exact ⟨_, rfl⟩

/-- A handler of a well-formed pdu reads inside the payload. -/
theorem handler_ok (own : UniqueId) {k : ReplicaState} {c : PduCall} (h : WellFormed c)
    {run : Option Bytes → Except PayloadFault Unit} (hrun : handler own k c.1 = some run) :
    run c.2.2 = .ok () := by
  obtain ⟨type, size, data⟩ := c
  cases k with
  | start =>
    simp only [handler] at hrun
    split_ifs at hrun with htype
    cases hrun
    have hlen : 20 ≤ (data.getD []).length := h.1 htype
    cases data with
    | none => simp at hlen
    | some payload =>
      obtain ⟨text, htext⟩ := onConnect_ok own (show 20 ≤ payload.length from hlen)
      simp only [htext]
      rfl
  | connected =>
    simp only [handler] at hrun
    split_ifs at hrun with htype
    cases hrun
    have hname : 0 ∈ (data.getD []).drop 16 := h.2 htype
    cases data with
    | none => simp at hname
    | some payload =>
      obtain ⟨fields, hfields⟩ := onRequest_ok (show 0 ∈ payload.drop 16 from hname)
      simp only [hfields]
      rfl

theorem contained_iff (own : UniqueId) (k : ReplicaState) (c : PduCall) :
    Contained own k c ↔ (setupProtocol k c.1 ≠ [] → WellFormed c) := by
  rw [← handler_isSome own]
  constructor
  · rintro ⟨-, hreject⟩ hsome
    by_contra hwf
    rw [hreject hwf] at hsome
    cases hsome
  · intro h
    refine ⟨fun run hrun => handler_ok own (h (by rw [hrun]; rfl)) hrun, fun hwf => ?_⟩
    simpa using mt h hwf

/-- **When the handlers stay inside the payload.** In each state of the protocol and for every byte
stream, in any chunks: the pdus of a bound type that come before the first pdu of another type are
long enough and have their names terminated. -/
theorem handlers_contained_iff (own : UniqueId) (k : ReplicaState) (chunks : List Bytes) :
    ∃ frames rest, Unfinished rest ∧ chunks.flatten = frameBytes frames ++ rest ∧
      ((∀ c ∈ (serve setupProtocol k chunks).1.passed, Contained own k c) ↔
        ∀ f ∈ frames.takeWhile (fun f => setupProtocol k f.type ≠ []), WellFormed (call f)) := by
  obtain ⟨frames, rest, hrest, hs⟩ := exists_frames chunks.flatten
  refine ⟨frames, rest, hrest, hs, ?_⟩
  obtain ⟨more, hmore, hnot⟩ := dispatched_setupProtocol k frames
  rw [(serve_passed hrest hs).1, hmore, List.map_append, List.forall_mem_append,
    List.forall_mem_map, List.forall_mem_map]
  simp only [contained_iff]
  have hbound : ∀ f ∈ frames.takeWhile (fun f => setupProtocol k f.type ≠ []),
      setupProtocol k f.type ≠ [] := fun f hf => by
    simpa using List.mem_takeWhile_imp hf
  constructor
  · intro h f hf
    exact h.1 f hf (hbound f hf)
  · intro h
    exact ⟨fun f hf _ => h f hf, fun f hf hb => absurd (hnot f hf) hb⟩

/-- A connect pdu without payload: its handler runs on a null pointer. -/
theorem handler_null_pointer :
    ¬ ∀ (own : UniqueId) (k : ReplicaState) (chunks : List Bytes),
      ∀ c ∈ (serve setupProtocol k chunks).1.passed, Contained own k c := by
  intro h
  have hpassed : (serve setupProtocol .start [[1, 0, 0, 0, 0, 0, 0, 0]]).1.passed =
      [(1, 0, none)] := by decide +kernel
  have hcontained := h ⟨List.replicate 16 0, rfl⟩ .start [[1, 0, 0, 0, 0, 0, 0, 0]] (1, 0, none)
    (by rw [hpassed]; simp)
  have hrun := hcontained.1 _ rfl
  cases hrun

end ReplicaConnection

end Istatd
