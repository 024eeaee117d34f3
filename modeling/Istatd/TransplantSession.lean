import Istatd.TransplantOffer

/-!
# A session of the transplant tool (`ClientConnection`, `ServerClient`)

The client sends an offer for one file after another, and waits for the answer to each.  A packet is
its size in four bytes and the bytes of an offer.  The client writes and reads with
`async_write_some` and `async_read_some`, which may take any part of what is asked for; the server
reads with `async_read`, which waits for all of it, and writes with `async_send`, which may take a
part.

* `IoEvent`, `Session.step`: the handlers of both sides, with the bytes under way.  What is done
  between packets is a parameter: `next` makes the next offer, `complete` is `complete_request` from
  a request to the bytes of the answer, and `received` is `received_offer`;
* `exchange`: what a request and its answer come to, without packets; `sim_run`: a session is a
  sequence of exchanges;
* `Peers`: both sides with the offers that they make and read, and `Peers.offerExchange`: an offer
  and its answer, without bytes;
* `session_exchanges`: a session is a sequence of these, and does not come to a standstill.

The connection loses no bytes and stays open.  A buffer that is being filled is the bytes read so
far and its size.
-/

namespace Istatd

namespace TransplantSession

/-- The four bytes in front of a packet. -/
def sizeBytes (sz : ℕ) : Bytes :=
  [UInt8.ofNat (sz >>> 24), UInt8.ofNat (sz >>> 16), UInt8.ofNat (sz >>> 8), UInt8.ofNat sz]

/-- The size that the first four bytes of a buffer give.  The source has it as an `int`, which is
negative from `2 ^ 31` on: as an unsigned number it is then too large as well. -/
def packetSize (buffer : Bytes) : ℕ :=
  (buffer.getD 0 0).toNat <<< 24 ||| (buffer.getD 1 0).toNat <<< 16 |||
    (buffer.getD 2 0).toNat <<< 8 ||| (buffer.getD 3 0).toNat

/-- A packet. -/
def packet (payload : Bytes) : Bytes := sizeBytes payload.length ++ payload

/-- The client, between its handlers. -/
inductive ClientPhase
  | nextFile
  | writing (buffer : Bytes) (offset : ℕ)
  | reading (got : Bytes) (size : ℕ)
  | stopped
  deriving DecidableEq

/-- The server, between its handlers. -/
inductive ServerPhase
  | reading (got : Bytes) (size : ℕ)
  | writing (buffer : Bytes) (offset : ℕ)
  | stopped
  deriving DecidableEq

/-- Both sides, what they work on, and the bytes under way to each. -/
structure Session (A B : Type) where
  client : ClientPhase
  server : ServerPhase
  files : A
  store : B
  toServer : Bytes
  toClient : Bytes
  deriving DecidableEq

/-- The handler that runs next: `next_file`, or one that gets the number of bytes of a read or
write.  The server reads all that it has asked for. -/
inductive IoEvent
  | clientNext
  | clientWrite (n : ℕ)
  | serverRead
  | serverWrite (n : ℕ)
  | clientRead (n : ℕ)

section

variable {A B : Type} (next : A → Option (Bytes × A)) (complete : Bytes → B → Option (Bytes × B))
  (received : Bytes → A → Option A)

namespace Session

/-- `ClientConnection::next_file` and `do_offer`.  An offer that is too large is not sent, and
nothing else is done then. -/
def nextFile (s : Session A B) : Session A B :=
  match next s.files with
  | none => { s with client := .stopped }
  | some (payload, files) =>
    { s with
      client := if maxTransferSize < payload.length then .stopped else .writing (packet payload) 0
      files := files }

/-- `ClientConnection::on_write`. -/
def clientOnWrite (s : Session A B) (buffer : Bytes) (offset n : ℕ) : Session A B :=
  { s with
    client := if offset + n < buffer.length then .writing buffer (offset + n) else .reading [] 4
    toServer := s.toServer ++ (buffer.drop offset).take n }

/-- `ServerClient::on_read` and `complete_request`. -/
def serverOnRead (s : Session A B) (got : Bytes) (size : ℕ) (data : Bytes) : Session A B :=
  if data = [] then { s with server := .stopped }
  else
    let got := got ++ data
    if got.length = size then
      if got.length = 4 then
        if maxTransferSize < packetSize got then { s with server := .stopped }
        else { s with server := .reading got (packetSize got + 4) }
      else
        match complete got s.store with
        | none => { s with server := .stopped }
        | some (reply, store) => { s with server := .writing (packet reply) 0, store := store }
    else { s with server := .reading got size }

/-- `ServerClient::on_write`. -/
def serverOnWrite (s : Session A B) (buffer : Bytes) (offset n : ℕ) : Session A B :=
  { s with
    server := if offset + n < buffer.length then .writing buffer (offset + n) else .reading [] 4
    toClient := s.toClient ++ (buffer.drop offset).take n }

/-- `ClientConnection::on_read`. -/
def clientOnRead (s : Session A B) (got : Bytes) (size : ℕ) (data : Bytes) : Session A B :=
  if data = [] then { s with client := .stopped }
  else
    let got := got ++ data
    if got.length = size then
      if size = 4 then
        if maxTransferSize < packetSize got then { s with client := .stopped }
        else { s with client := .reading got (packetSize got + 4) }
      else
        match received got s.files with
        | none => { s with client := .stopped }
        | some files => { s with client := .nextFile, files := files }
    else { s with client := .reading got size }

/-- One handler, if it can run. -/
def step (s : Session A B) : IoEvent → Option (Session A B)
  | .clientNext => if s.client = .nextFile then some (s.nextFile next) else none
  | .clientWrite n =>
    match s.client with
    | .writing buffer offset =>
      if 0 < n ∧ offset + n ≤ buffer.length then some (s.clientOnWrite buffer offset n) else none
    | _ => none
  | .serverRead =>
    match s.server with
    | .reading got size =>
      let n := size - got.length
      if n ≤ s.toServer.length then
        some ({ s with toServer := s.toServer.drop n }.serverOnRead complete got size
          (s.toServer.take n))
      else none
    | _ => none
  | .serverWrite n =>
    match s.server with
    | .writing buffer offset =>
      if 0 < n ∧ offset + n ≤ buffer.length then some (s.serverOnWrite buffer offset n) else none
    | _ => none
  | .clientRead n =>
    match s.client with
    | .reading got size =>
      -- a read into no bytes ends at once
      if n ≤ size - got.length ∧ n ≤ s.toClient.length ∧ (n = 0 → size = got.length) then
        some ({ s with toClient := s.toClient.drop n }.clientOnRead received got size
          (s.toClient.take n))
      else none
    | _ => none

/-- A session at its beginning, or between two exchanges. -/
def start (a : A) (b : B) : Session A B := ⟨.nextFile, .reading [] 4, a, b, [], []⟩

/-- A run. -/
def run (s : Session A B) (es : List IoEvent) : Option (Session A B) :=
  es.foldlM (step next complete received) s

/-- One of the sides has given up, or the client has no more files. -/
def Stopped (s : Session A B) : Prop := s.client = .stopped ∨ s.server = .stopped

end Session

/-- An offer and its answer, without packets; none if one of the sides stops. -/
def exchange (ab : A × B) : Option (A × B) :=
  match next ab.1 with
  | none => none
  | some (payload, a) =>
    if maxTransferSize < payload.length then none
    else
      match complete (packet payload) ab.2 with
      | none => none
      | some (reply, b) =>
        if maxTransferSize < reply.length then none
        else (received (packet reply) a).map fun a => (a, b)

/-- An offer that is sent is not empty, nor is the answer to it, whose size fits its four bytes. -/
structure Wire : Prop where
  ask : ∀ {a payload a'}, next a = some (payload, a') → payload ≠ []
  answer : ∀ {a payload a' b reply b'}, next a = some (payload, a') →
    payload.length ≤ maxTransferSize → complete (packet payload) b = some (reply, b') →
    reply ≠ [] ∧ reply.length < 2 ^ 32

end

/-- A number of exchanges. -/
def exchanges {A B : Type} (exchange : A × B → Option (A × B)) : ℕ → A × B → Option (A × B)
  | 0, ab => some ab
  | k + 1, ab => (exchanges exchange k ab).bind exchange

/-! ### Packets -/

theorem shiftLeft_or_byte {y : ℕ} (hy : y < 256) (a k : ℕ) :
    a <<< (k + 8) ||| y <<< k = (a * 256 + y) <<< k := by
  have hlt : y <<< k < 2 ^ (k + 8) := by
    rw [Nat.shiftLeft_eq, pow_add, mul_comm]
    exact Nat.mul_lt_mul_of_pos_left hy (by positivity)
  rw [← Nat.shiftLeft_add_eq_or_of_lt hlt, Nat.shiftLeft_eq, Nat.shiftLeft_eq, Nat.shiftLeft_eq,
    pow_add]
  ring

theorem packetSize_packet {payload : Bytes} (h : payload.length < 2 ^ 32) (rest : Bytes) :
    packetSize (sizeBytes payload.length ++ rest) = payload.length := by
  have hbyte : ∀ k, (UInt8.ofNat k).toNat = k % 256 := fun k => UInt8.toNat_ofNat'
  have hlt : ∀ k, k % 256 < 256 := fun k => Nat.mod_lt k (by decide)
  have hsize : packetSize (sizeBytes payload.length ++ rest) =
      (payload.length >>> 24 % 256) <<< (16 + 8) ||| (payload.length >>> 16 % 256) <<< 16 |||
        (payload.length >>> 8 % 256) <<< 8 ||| (payload.length % 256) <<< 0 := by
    simp [packetSize, sizeBytes, hbyte]
  rw [hsize, shiftLeft_or_byte (hlt _), shiftLeft_or_byte (hlt _), shiftLeft_or_byte (hlt _)]
  simp only [Nat.shiftRight_eq_div_pow, Nat.shiftLeft_zero]
  omega

theorem length_packet (payload : Bytes) : (packet payload).length = payload.length + 4 := by
  rw [packet, List.length_append, Nat.add_comm]
  rfl

/-- The first four bytes of a packet. -/
theorem take_packet (payload : Bytes) : (packet payload).take 4 = sizeBytes payload.length :=
  List.take_left' rfl

theorem packetSize_take_packet {payload : Bytes} (h : payload.length < 2 ^ 32) :
    packetSize ((packet payload).take 4) = payload.length := by
  rw [take_packet, ← List.append_nil (sizeBytes _), packetSize_packet h]

/-! ### The state of an exchange -/

/-- A side has handed `sent` of its packet `p` to the connection, and waits when this is all. -/
def Sent {φ : Type} (writing : Bytes → ℕ → φ) (waiting c : φ) (p sent : Bytes) : Prop :=
  (∃ offset < p.length, c = writing p offset ∧ sent = p.take offset) ∨ c = waiting ∧ sent = p

section

variable {A B : Type} (next : A → Option (Bytes × A)) (complete : Bytes → B → Option (Bytes × B))
  (received : Bytes → A → Option A)

/-- The session is in the exchange that follows the state `(a, b)`: it has not begun, or the offer
or the answer is on its way. -/
inductive Sim (a : A) (b : B) : Session A B → Prop
  | rest : Sim a b (Session.start a b)
  | asking {payload : Bytes} {a' : A} {client : ClientPhase} {got flight sent : Bytes} {size : ℕ}
      (hnext : next a = some (payload, a')) (hmax : payload.length ≤ maxTransferSize)
      (hsent : Sent .writing (.reading [] 4) client (packet payload) sent)
      (hgot : got ++ flight = sent)
      (hsize : size = 4 ∧ got = [] ∨
        size = (packet payload).length ∧ got = (packet payload).take 4) :
      Sim a b ⟨client, .reading got size, a', b, flight, []⟩
  | answering {payload reply : Bytes} {a' : A} {b' : B} {server : ServerPhase}
      {got flight sent : Bytes} {size : ℕ}
      (hnext : next a = some (payload, a')) (hmax : payload.length ≤ maxTransferSize)
      (hcomplete : complete (packet payload) b = some (reply, b'))
      (hsent : Sent .writing (.reading [] 4) server (packet reply) sent)
      (hgot : got ++ flight = sent) (hlt : got.length < size)
      (hsize : size = 4 ∨
        size = (packet reply).length ∧ reply.length ≤ maxTransferSize ∧ 4 ≤ got.length) :
      Sim a b ⟨.reading got size, server, a', b', [], flight⟩
  | stopped {s : Session A B} (hstop : s.Stopped)
      (hno : exchange next complete received (a, b) = none) : Sim a b s

variable {next complete received} {a a' : A} {b b' : B} {s s' : Session A B}
  {payload reply got flight sent p : Bytes} {size n : ℕ}

section

variable {φ : Type} {writing : Bytes → ℕ → φ} {waiting c : φ}

/-- What a side has sent is a beginning of its packet. -/
theorem Sent.isPrefix (h : Sent writing waiting c p sent) : sent <+: p := by
  rcases h with ⟨offset, -, -, rfl⟩ | ⟨-, rfl⟩
  · exact ⟨_, List.take_append_drop _ _⟩
  · exact List.prefix_rfl

/-- A side that has sent all of its packet waits. -/
theorem Sent.of_length_le (h : Sent writing waiting c p sent) (hlen : p.length ≤ sent.length) :
    c = waiting ∧ sent = p := by
  rcases h with ⟨offset, hlt, -, rfl⟩ | h
  · rw [List.length_take] at hlen
    omega
  · exact h

/-- What a write sends. -/
theorem sent_write {offset : ℕ} (hle : offset + n ≤ p.length) :
    Sent writing waiting (if offset + n < p.length then writing p (offset + n) else waiting) p
      (p.take offset ++ (p.drop offset).take n) := by
  rw [← List.take_add]
  split_ifs with hlt
  · exact .inl ⟨_, hlt, rfl, rfl⟩
  · exact .inr ⟨rfl, List.take_of_length_le (by omega)⟩

end

/-! ### The handlers in an exchange -/

/-- A write by the client. -/
theorem step_clientWrite {client : ClientPhase} {server : ServerPhase} {toClient : Bytes}
    (hsent : Sent .writing (.reading [] 4) client p sent) (hgot : got ++ flight = sent)
    (h : Session.step next complete received ⟨client, server, a, b, flight, toClient⟩
      (.clientWrite n) = some s') :
    ∃ client' flight' sent', s' = ⟨client', server, a, b, flight', toClient⟩ ∧
      Sent .writing (.reading [] 4) client' p sent' ∧ got ++ flight' = sent' := by
  rcases hsent with ⟨offset, hlt, rfl, rfl⟩ | ⟨rfl, rfl⟩
  · simp only [Session.step] at h
    split_ifs at h with hn
    obtain rfl := Option.some.inj h
    refine ⟨_, _, _, rfl, sent_write hn.2, ?_⟩
    rw [← List.append_assoc, hgot]
  · cases h

/-- A write by the server. -/
theorem step_serverWrite {client : ClientPhase} {server : ServerPhase} {toServer : Bytes}
    (hsent : Sent .writing (.reading [] 4) server p sent) (hgot : got ++ flight = sent)
    (h : Session.step next complete received ⟨client, server, a, b, toServer, flight⟩
      (.serverWrite n) = some s') :
    ∃ server' flight' sent', s' = ⟨client, server', a, b, toServer, flight'⟩ ∧
      Sent .writing (.reading [] 4) server' p sent' ∧ got ++ flight' = sent' := by
  rcases hsent with ⟨offset, hlt, rfl, rfl⟩ | ⟨rfl, rfl⟩
  · simp only [Session.step] at h
    split_ifs at h with hn
    obtain rfl := Option.some.inj h
    refine ⟨_, _, _, rfl, sent_write hn.2, ?_⟩
    rw [← List.append_assoc, hgot]
  · cases h

/-- What the exchange comes to once the offer is made. -/
theorem exchange_of_next (complete : Bytes → B → Option (Bytes × B))
    (received : Bytes → A → Option A) (b : B) (hnext : next a = some (payload, a'))
    (hmax : payload.length ≤ maxTransferSize) :
    exchange next complete received (a, b) =
      match complete (packet payload) b with
      | none => none
      | some (reply, b) =>
        if maxTransferSize < reply.length then none
        else (received (packet reply) a').map fun a => (a, b) := by
  simp only [exchange, hnext, if_neg (Nat.not_lt.2 hmax)]

/-- The client begins an exchange. -/
theorem step_clientNext
    (h : Session.step next complete received (Session.start a b) .clientNext = some s') :
    Sim next complete received a b s' := by
  obtain rfl : (Session.start a b).nextFile next = s' := Option.some.inj h
  unfold Session.nextFile
  split
  · rename_i hnone
    exact .stopped (.inl rfl) (by simp only [exchange, show next a = none from hnone])
  · rename_i payload a' hnext
    replace hnext : next a = some (payload, a') := hnext
    split_ifs with hlt
    · exact .stopped (.inl rfl) (by simp only [exchange, hnext, if_pos hlt])
    · refine .asking hnext (Nat.not_lt.1 hlt) (.inl ⟨0, ?_, rfl, rfl⟩) rfl (.inl ⟨rfl, rfl⟩)
      rw [length_packet]
      omega

/-- The server reads the size of an offer, or the rest of the offer. -/
theorem step_serverRead (hwire : Wire next complete) {client : ClientPhase}
    (hnext : next a = some (payload, a')) (hmax : payload.length ≤ maxTransferSize)
    (hsent : Sent .writing (.reading [] 4) client (packet payload) sent)
    (hgot : got ++ flight = sent)
    (hsize : size = 4 ∧ got = [] ∨ size = (packet payload).length ∧ got = (packet payload).take 4)
    (h : Session.step next complete received ⟨client, .reading got size, a', b, flight, []⟩
      .serverRead = some s') : Sim next complete received a b s' := by
  have hmax32 : payload.length < 2 ^ 32 := lt_of_le_of_lt hmax (by decide)
  have hpos := List.length_pos_iff.2 (hwire.ask hnext)
  have hlen := length_packet payload
  simp only [Session.step] at h
  split_ifs at h with hn
  obtain rfl := Option.some.inj h
  rcases hsize with ⟨rfl, rfl⟩ | ⟨rfl, rfl⟩
  · -- the size
    obtain rfl : flight = sent := hgot
    have hn' : 4 ≤ flight.length := hn
    have hdata : flight.take 4 = (packet payload).take 4 := by
      obtain ⟨t, ht⟩ := hsent.isPrefix
      rw [← ht, List.take_append_of_le_length hn']
    have hfour : (flight.take 4).length = 4 := by rw [List.length_take]; omega
    have hne : flight.take 4 ≠ [] := List.ne_nil_of_length_pos (by omega)
    have hps : packetSize (flight.take 4) = payload.length := by
      rw [hdata, packetSize_take_packet hmax32]
    have hs : Session.serverOnRead complete
        { ({ client := client, server := .reading [] 4, files := a', store := b,
             toServer := flight, toClient := [] } : Session A B) with toServer := flight.drop 4 }
        [] 4 (flight.take 4) =
        ⟨client, .reading (flight.take 4) (packet payload).length, a', b, flight.drop 4, []⟩ := by
      simp only [Session.serverOnRead, hne, if_false, List.nil_append, hfour, if_true, hps,
        if_neg (Nat.not_lt.2 hmax), hlen]
    rw [List.length_nil, Nat.sub_zero]
    rw [hs]
    exact .asking hnext hmax hsent (List.take_append_drop 4 flight) (.inr ⟨rfl, hdata⟩)
  · -- the rest
    have hgl : ((packet payload).take 4).length = 4 := by rw [List.length_take]; omega
    have hn' : (packet payload).length - 4 ≤ flight.length := by rwa [hgl] at hn
    have hsl : (packet payload).length ≤ sent.length := by
      rw [← hgot, List.length_append, hgl]; omega
    obtain ⟨rfl, rfl⟩ := hsent.of_length_le hsl
    have hfl : flight.length = (packet payload).length - 4 := by
      have := congrArg List.length hgot
      rw [List.length_append, hgl] at this
      omega
    have hne : flight ≠ [] := List.ne_nil_of_length_pos (by omega)
    have hsize4 : (packet payload).length ≠ 4 := by omega
    rw [hgl, ← hfl, List.take_length, List.drop_length]
    simp only [Session.serverOnRead, hne, if_false, hgot, if_true, hsize4]
    have hex := exchange_of_next complete received b hnext hmax
    rcases hcomp : complete (packet payload) b with _ | ⟨reply, b'⟩
    · exact .stopped (.inr rfl) (by rw [hex, hcomp])
    · refine .answering hnext hmax hcomp (.inl ⟨0, ?_, rfl, rfl⟩) rfl (by decide) (.inl rfl)
      rw [length_packet]
      omega

/-- The client reads of an answer. -/
theorem step_clientRead (hwire : Wire next complete) {server : ServerPhase}
    (hnext : next a = some (payload, a')) (hmax : payload.length ≤ maxTransferSize)
    (hcomplete : complete (packet payload) b = some (reply, b'))
    (hsent : Sent .writing (.reading [] 4) server (packet reply) sent) (hgot : got ++ flight = sent)
    (hlt : got.length < size)
    (hsize : size = 4 ∨
      size = (packet reply).length ∧ reply.length ≤ maxTransferSize ∧ 4 ≤ got.length)
    (h : Session.step next complete received ⟨.reading got size, server, a', b', [], flight⟩
      (.clientRead n) = some s') :
    Sim next complete received a b s' ∨ ∃ a'' b'',
      exchange next complete received (a, b) = some (a'', b'') ∧ s' = Session.start a'' b'' := by
  obtain ⟨hne, h32⟩ := hwire.answer hnext hmax hcomplete
  have hpos := List.length_pos_iff.2 hne
  have hlen := length_packet reply
  have hex := exchange_of_next complete received b hnext hmax
  simp only [hcomplete] at hex
  simp only [Session.step] at h
  split_ifs at h with hn
  obtain ⟨hn1, hn2, hn3⟩ := hn
  obtain rfl := Option.some.inj h
  have hn0 : 0 < n := Nat.pos_of_ne_zero fun h0 => by
    have := hn3 h0
    omega
  have htl : (flight.take n).length = n := List.length_take_of_le hn2
  have hdata : flight.take n ≠ [] := List.ne_nil_of_length_pos (by omega)
  have hgot' : (got ++ flight.take n) ++ flight.drop n = sent := by
    rw [List.append_assoc, List.take_append_drop, hgot]
  have hgl : (got ++ flight.take n).length = got.length + n := by rw [List.length_append, htl]
  have hpre : got ++ flight.take n <+: packet reply :=
    (List.prefix_append _ _).trans (hgot' ▸ hsent.isPrefix)
  have hps (hfour : (got ++ flight.take n).length = 4) :
      packetSize (got ++ flight.take n) = reply.length := by
    rw [List.prefix_iff_eq_take.1 hpre, hfour, packetSize_take_packet h32]
  simp only [Session.clientOnRead, hdata, if_false]
  split_ifs with hfull hfour hbig
  · -- a size that is too large
    subst hfour
    rw [hps hfull] at hbig
    exact .inl (.stopped (.inl rfl) (by rw [hex]; exact if_pos hbig))
  · -- the size
    subst hfour
    rw [hps hfull] at hbig ⊢
    exact .inl (.answering hnext hmax hcomplete hsent hgot' (by omega)
      (.inr ⟨hlen.symm, Nat.not_lt.1 hbig, hfull.ge⟩))
  · -- the answer is complete
    obtain rfl | ⟨rfl, hrmax, -⟩ := hsize
    · exact absurd rfl hfour
    have hall : got ++ flight.take n = packet reply := hpre.eq_of_length hfull
    obtain ⟨rfl, rfl⟩ := hsent.of_length_le (by
      rw [← hgot', List.length_append]
      omega)
    have hrest : flight.drop n = [] := by
      rw [hall] at hgot'
      exact List.append_right_eq_self.1 hgot'
    rw [hall, hrest]
    rw [if_neg (Nat.not_lt.2 hrmax)] at hex
    rcases hrec : received (packet reply) a' with _ | a''
    · exact .inl (.stopped (.inl rfl) (by rw [hex, hrec]; rfl))
    · exact .inr ⟨a'', b', by rw [hex, hrec]; rfl, rfl⟩
  · -- more to read
    refine .inl (.answering hnext hmax hcomplete hsent hgot' ?_ ?_)
    · omega
    · refine hsize.imp id ?_
      rintro ⟨rfl, hrmax, hge⟩
      exact ⟨rfl, hrmax, by omega⟩

/-- A read changes the side that reads. -/
theorem client_serverOnRead (got : Bytes) (size : ℕ) (data : Bytes) :
    (s.serverOnRead complete got size data).client = s.client := by
  simp only [Session.serverOnRead]
  split_ifs
  iterate 3 rfl
  · split <;> rfl
  · rfl

theorem server_clientOnRead (got : Bytes) (size : ℕ) (data : Bytes) :
    (s.clientOnRead received got size data).server = s.server := by
  simp only [Session.clientOnRead]
  split_ifs
  iterate 3 rfl
  · split <;> rfl
  · rfl

/-- A side that has given up stays so. -/
theorem Session.Stopped.step (hstop : s.Stopped) {e : IoEvent}
    (h : Session.step next complete received s e = some s') : s'.Stopped := by
  obtain ⟨client, server, files, store, toServer, toClient⟩ := s
  rcases hstop with hc | hs
  · obtain rfl : client = .stopped := hc
    refine .inl ?_
    cases e with
    | clientNext => cases h
    | clientWrite n => cases h
    | clientRead n => cases h
    | serverRead =>
      simp only [Session.step] at h
      split at h
      · split_ifs at h
        obtain rfl := Option.some.inj h
        exact client_serverOnRead _ _ _
      · cases h
    | serverWrite n =>
      simp only [Session.step] at h
      split at h
      · split_ifs at h
        obtain rfl := Option.some.inj h
        rfl
      · cases h
  · obtain rfl : server = .stopped := hs
    refine .inr ?_
    cases e with
    | serverRead => cases h
    | serverWrite n => cases h
    | clientNext =>
      simp only [Session.step] at h
      split_ifs at h
      obtain rfl := Option.some.inj h
      unfold Session.nextFile
      split <;> rfl
    | clientWrite n =>
      simp only [Session.step] at h
      split at h
      · split_ifs at h
        obtain rfl := Option.some.inj h
        rfl
      · cases h
    | clientRead n =>
      simp only [Session.step] at h
      split at h
      · split_ifs at h
        obtain rfl := Option.some.inj h
        exact server_clientOnRead _ _ _
      · cases h

/-- A handler stays in the exchange, or ends it. -/
theorem Sim.step (hwire : Wire next complete) (hsim : Sim next complete received a b s)
    {e : IoEvent} (h : Session.step next complete received s e = some s') :
    Sim next complete received a b s' ∨ ∃ a' b',
      exchange next complete received (a, b) = some (a', b') ∧ s' = Session.start a' b' := by
  cases hsim with
  | stopped hstop hno => exact .inl (.stopped (hstop.step h) hno)
  | rest =>
    cases e with
    | clientNext => exact .inl (step_clientNext h)
    | clientWrite n => cases h
    | serverRead => cases h
    | serverWrite n => cases h
    | clientRead n => cases h
  | @asking payload a' client got flight sent size hnext hmax hsent hgot hsize =>
    cases e with
    | clientWrite n =>
      obtain ⟨client', flight', sent', rfl, hsent', hgot'⟩ := step_clientWrite hsent hgot h
      exact .inl (.asking hnext hmax hsent' hgot' hsize)
    | serverRead => exact .inl (step_serverRead hwire hnext hmax hsent hgot hsize h)
    | serverWrite n => cases h
    | clientNext =>
      rcases hsent with ⟨offset, -, rfl, -⟩ | ⟨rfl, -⟩
      · cases h
      · cases h
    | clientRead n =>
      -- there is nothing to read, and the client has asked for four bytes
      rcases hsent with ⟨offset, -, rfl, -⟩ | ⟨rfl, -⟩
      · cases h
      · have hnone : Session.step next complete received
            ⟨.reading [] 4, .reading got size, a', b, flight, []⟩ (.clientRead n) = none :=
          if_neg fun hn => absurd (hn.2.2 (Nat.le_zero.1 hn.2.1)) (by decide)
        cases hnone.symm.trans h
  | answering hnext hmax hcomplete hsent hgot hlt hsize =>
    cases e with
    | serverWrite n =>
      obtain ⟨server', flight', sent', rfl, hsent', hgot'⟩ := step_serverWrite hsent hgot h
      exact .inl (.answering hnext hmax hcomplete hsent' hgot' hlt hsize)
    | clientRead n => exact step_clientRead hwire hnext hmax hcomplete hsent hgot hlt hsize h
    | clientNext => cases h
    | clientWrite n => cases h
    | serverRead =>
      rcases hsent with ⟨offset, -, rfl, -⟩ | ⟨rfl, -⟩
      · cases h
      · cases h

/-- A session that has not stopped can go on. -/
theorem Sim.progress (hsim : Sim next complete received a b s)
    (hgo : ¬s.Stopped) : ∃ e s', Session.step next complete received s e = some s' := by
  cases hsim with
  | stopped hstop hno => exact absurd hstop hgo
  | rest => exact ⟨.clientNext, _, rfl⟩
  | @asking payload a' client got flight sent size hnext hmax hsent hgot hsize =>
    rcases hsent with ⟨offset, hlt, rfl, rfl⟩ | ⟨rfl, rfl⟩
    · exact ⟨.clientWrite ((packet payload).length - offset), _, if_pos ⟨by omega, by omega⟩⟩
    · have hlen := length_packet payload
      have hsum := congrArg List.length hgot
      rw [List.length_append] at hsum
      refine ⟨.serverRead, _, if_pos ?_⟩
      show size - got.length ≤ flight.length
      rcases hsize with ⟨rfl, rfl⟩ | ⟨rfl, rfl⟩
      · simp only [List.length_nil] at *
        omega
      · omega
  | @answering payload reply a' b' server got flight sent size hnext hmax hcomplete hsent hgot hlt
      hsize =>
    rcases hsent with ⟨offset, hlt', rfl, rfl⟩ | ⟨rfl, rfl⟩
    · exact ⟨.serverWrite ((packet reply).length - offset), _, if_pos ⟨by omega, by omega⟩⟩
    · have hlen := length_packet reply
      have hsum := congrArg List.length hgot
      rw [List.length_append] at hsum
      refine ⟨.clientRead 1, _, if_pos ?_⟩
      show 1 ≤ size - got.length ∧ 1 ≤ flight.length ∧ (1 = 0 → size = got.length)
      omega

/-- Where a side has given up, there is no exchange. -/
theorem Sim.exchange_of_stopped (hsim : Sim next complete received a b s) (hstop : s.Stopped) :
    exchange next complete received (a, b) = none := by
  cases hsim with
  | stopped _ hno => exact hno
  | rest => rcases hstop with h | h <;> cases h
  | asking _ _ hsent _ _ =>
    rcases hsent with ⟨offset, -, rfl, -⟩ | ⟨rfl, -⟩ <;> rcases hstop with h | h <;> cases h
  | answering _ _ _ hsent _ _ _ =>
    rcases hsent with ⟨offset, -, rfl, -⟩ | ⟨rfl, -⟩ <;> rcases hstop with h | h <;> cases h

/-! ### Runs -/

/-- A run is in an exchange that the exchanges before it lead to. -/
theorem sim_run (hwire : Wire next complete) {es : List IoEvent} :
    ∀ {s s' : Session A B} {k : ℕ} {ab : A × B} {a : A} {b : B},
      exchanges (exchange next complete received) k ab = some (a, b) →
      Sim next complete received a b s → Session.run next complete received s es = some s' →
      ∃ k a' b', exchanges (exchange next complete received) k ab = some (a', b') ∧
        Sim next complete received a' b' s' := by
  induction es with
  | nil =>
    intro s s' k ab a b hk hsim h
    obtain rfl : s = s' := Option.some.inj h
    exact ⟨k, a, b, hk, hsim⟩
  | cons e es ih =>
    intro s s' k ab a b hk hsim h
    obtain ⟨s₁, hstep, hrest⟩ := Option.bind_eq_some_iff.1 (show
      (Session.step next complete received s e).bind
        (fun s => Session.run next complete received s es) = some s' from h)
    rcases hsim.step hwire hstep with hsim' | ⟨a', b', hex, rfl⟩
    · exact ih hk hsim' hrest
    · have hk' : exchanges (exchange next complete received) (k + 1) ab = some (a', b') := by
        rw [exchanges, hk, Option.bind_some, hex]
      exact ih hk' .rest hrest

/-- Where the client takes the next file, nothing is under way. -/
theorem Sim.eq_start (hsim : Sim next complete received a b s) (hgo : ¬s.Stopped)
    (hclient : s.client = .nextFile) : s = Session.start a b := by
  cases hsim with
  | stopped hstop _ => exact absurd hstop hgo
  | rest => rfl
  | asking _ _ hsent _ _ =>
    rcases hsent with ⟨offset, -, rfl, -⟩ | ⟨rfl, -⟩ <;> cases hclient
  | answering => cases hclient

end

/-! ### Offers -/

/-- What both sides do with offers: `next_file` with `do_file`, and the path of its `FileState`;
`apply_and_extract_other_empty_buckets` with the file that the server opens; `apply_offer_to_file`.
-/
structure Peers (A B : Type) where
  available : ℕ
  nextOffer : A → Option (ProtoOffer BucketLayout × A)
  filepath : A → Bytes
  answer : ProtoOffer BucketLayout → B → ProtoOffer BucketLayout × B
  applyOffer : ProtoOffer BucketLayout → A → A

/-- The bytes behind the size of a packet; none if `marshal_offer` throws. -/
def payloadOf (offer : ProtoOffer BucketLayout) : Option Bytes :=
  match marshalOffer offer [0, 0, 0, 0] with
  | .ok buf => some (buf.drop 4)
  | .error _ => none

namespace Peers

section

variable {A B : Type} (p : Peers A B)

/-- `next_file`, `do_file` and `do_offer`, as far as the bytes. -/
def next (a : A) : Option (Bytes × A) :=
  match p.nextOffer a with
  | none => none
  | some (offer, a) => (payloadOf offer).map fun payload => (payload, a)

/-- `complete_request`. -/
def complete (buffer : Bytes) (b : B) : Option (Bytes × B) :=
  match completeRequest p.available buffer with
  | .ok (some offer) =>
    (payloadOf (p.answer offer b).1).map fun reply => (reply, (p.answer offer b).2)
  | _ => none

/-- `received_offer`, which reads and checks a packet as `complete_request` does. -/
def received (buffer : Bytes) (a : A) : Option A :=
  match completeRequest p.available buffer with
  | .ok (some offer) => if offer.filepath ≠ p.filepath a then none else some (p.applyOffer offer a)
  | _ => none

/-- An offer and its answer, if none is too large. -/
def offerExchange (ab : A × B) : Option (A × B) :=
  match p.nextOffer ab.1 with
  | none => none
  | some (offer, a) =>
    if 0x1000 < offer.filepath.length ∨ maxTransferSize < (offerBytes offer).length then none
    else if maxTransferSize < (offerBytes (p.answer offer ab.2).1).length then none
    else some (p.applyOffer (p.answer offer ab.2).1 a, (p.answer offer ab.2).2)

/-- The allocator has room for the buckets of a packet; the paths of files have no NUL, and are
those of the answers; and the size of an answer fits its four bytes. -/
structure Sound : Prop where
  room : maxTransferSize / 32 ≤ p.available
  offered : ∀ {a offer a'}, p.nextOffer a = some (offer, a') →
    (0 : UInt8) ∉ offer.filepath ∧ p.filepath a' = offer.filepath
  answered : ∀ {a offer a'} b, p.nextOffer a = some (offer, a') →
    (p.answer offer b).1.filepath = offer.filepath ∧
      (offerBytes (p.answer offer b).1).length < 2 ^ 32

end

end Peers

theorem payloadOf_of_le {offer : ProtoOffer BucketLayout} (hlen : offer.filepath.length ≤ 0x1000) :
    payloadOf offer = some (offerBytes offer) := by
  rw [payloadOf, marshalOffer_eq hlen]
  rfl

theorem payloadOf_of_lt {offer : ProtoOffer BucketLayout} (hlen : 0x1000 < offer.filepath.length) :
    payloadOf offer = none := by
  rw [payloadOf, marshalOffer, marshalString, if_pos hlen]

theorem offerBytes_ne_nil (offer : ProtoOffer BucketLayout) : offerBytes offer ≠ [] :=
  List.append_ne_nil_of_left_ne_nil (isWord_word_uint64 _).ne_nil _

/-- The buckets of an offer are a part of its bytes. -/
theorem length_buckets_le (offer : ProtoOffer BucketLayout) :
    offer.buckets.length * 32 ≤ (offerBytes offer).length := by
  have hbuckets : ((offer.buckets.map Subtype.val).flatten).length = offer.buckets.length * 32 := by
    rw [List.length_flatten, List.map_map]
    exact List.sum_eq_card_nsmul _ _ (by
      intro x hx
      obtain ⟨b, -, rfl⟩ := List.mem_map.1 hx
      exact b.property) |>.trans (by rw [List.length_map, smul_eq_mul])
  simp only [offerBytes, List.length_append, hbuckets]
  omega

/-- The packet of an offer is read as the offer. -/
theorem completeRequest_packet {available : ℕ} {offer : ProtoOffer BucketLayout}
    (hroom : maxTransferSize / 32 ≤ available) (hnul : (0 : UInt8) ∉ offer.filepath)
    (hlen : offer.filepath.length ≤ 0x1000)
    (hmax : (offerBytes offer).length ≤ maxTransferSize) :
    completeRequest available (packet (offerBytes offer)) = .ok (some offer) := by
  have hbuckets := length_buckets_le offer
  have hle : offer.buckets.length ≤ maxTransferSize / 32 := by omega
  obtain ⟨hres, hoff⟩ := demarshalOffer_offerBytes available
    (sizeBytes (offerBytes offer).length) hnul hlen (hle.trans (by decide)) (hle.trans hroom)
  unfold completeRequest
  rw [show (⟨4, []⟩ : Cursor) = ⟨(sizeBytes (offerBytes offer).length).length, []⟩ from rfl, packet]
  simp only [hres, hoff, ne_eq, not_true_eq_false, if_false]

section

variable {A B : Type} {p : Peers A B} {a a' : A} {payload : Bytes}

/-- What the client sends. -/
theorem Peers.next_eq_some (h : p.next a = some (payload, a')) :
    ∃ offer, p.nextOffer a = some (offer, a') ∧ offer.filepath.length ≤ 0x1000 ∧
      payload = offerBytes offer := by
  unfold Peers.next at h
  split at h
  · cases h
  · rename_i offer a₁ hoffer
    rcases le_or_gt offer.filepath.length 0x1000 with hlen | hlen
    · rw [payloadOf_of_le hlen] at h
      cases h
      exact ⟨offer, hoffer, hlen, rfl⟩
    · rw [payloadOf_of_lt hlen] at h
      cases h

/-- What the server answers. -/
theorem Peers.complete_packet (hp : p.Sound) {offer : ProtoOffer BucketLayout} (b : B)
    (hoffer : p.nextOffer a = some (offer, a')) (hlen : offer.filepath.length ≤ 0x1000)
    (hmax : (offerBytes offer).length ≤ maxTransferSize) :
    p.complete (packet (offerBytes offer)) b =
      some (offerBytes (p.answer offer b).1, (p.answer offer b).2) := by
  have hpath := (hp.answered b hoffer).1
  simp only [Peers.complete, completeRequest_packet hp.room (hp.offered hoffer).1 hlen hmax,
    payloadOf_of_le (hpath ▸ hlen), Option.map_some]

theorem Peers.Sound.wire (hp : p.Sound) : Wire p.next p.complete where
  ask h := by
    obtain ⟨offer, -, -, rfl⟩ := Peers.next_eq_some h
    exact offerBytes_ne_nil offer
  answer h hmax hcomplete := by
    obtain ⟨offer, hoffer, hlen, rfl⟩ := Peers.next_eq_some h
    rw [Peers.complete_packet hp _ hoffer hlen hmax] at hcomplete
    cases hcomplete
    exact ⟨offerBytes_ne_nil _, (hp.answered _ hoffer).2⟩

/-- An exchange of packets is one of offers. -/
theorem Peers.exchange_eq (hp : p.Sound) :
    exchange p.next p.complete p.received = p.offerExchange := by
  funext ⟨a, b⟩
  rcases hoffer : p.nextOffer a with _ | ⟨offer, a'⟩
  · simp only [exchange, Peers.next, Peers.offerExchange, hoffer]
  obtain ⟨hnul, hfile⟩ := hp.offered hoffer
  obtain ⟨hpath, -⟩ := hp.answered b hoffer
  rcases lt_or_ge 0x1000 offer.filepath.length with hlong | hlen
  · simp only [exchange, Peers.next, Peers.offerExchange, hoffer, payloadOf_of_lt hlong, hlong,
      true_or, if_true, Option.map_none]
  have hnext : p.next a = some (offerBytes offer, a') := by
    simp only [Peers.next, hoffer, payloadOf_of_le hlen, Option.map_some]
  rcases lt_or_ge maxTransferSize (offerBytes offer).length with hbig | hmax
  · simp only [exchange, hnext, Peers.offerExchange, hoffer, hbig, or_true, if_true]
  rw [exchange_of_next _ _ b hnext hmax, Peers.complete_packet hp b hoffer hlen hmax]
  simp only [Peers.offerExchange, hoffer, hlen.not_gt, hmax.not_gt, or_self, if_false]
  split_ifs with hreply
  · rfl
  · simp only [Peers.received, completeRequest_packet hp.room (hpath ▸ hnul) (hpath ▸ hlen)
      (Nat.not_lt.1 hreply), hpath, hfile, ne_eq, not_true_eq_false, if_false, Option.map_some]

/-- **A session is a sequence of exchanges of offers**, however the reads and writes cut its
packets: whenever the client takes the next file, nothing is under way and both sides are where some
exchanges lead to; a side gives up only where there is no next exchange; and until then one of the
handlers can run. -/
theorem session_exchanges (hp : p.Sound) {b : B} {es : List IoEvent} {s : Session A B}
    (h : Session.run p.next p.complete p.received (Session.start a b) es = some s) :
    (¬s.Stopped → s.client = .nextFile → s = Session.start s.files s.store ∧
      ∃ k, exchanges p.offerExchange k (a, b) = some (s.files, s.store)) ∧
    (s.Stopped → ∃ k ab, exchanges p.offerExchange k (a, b) = some ab ∧
      p.offerExchange ab = none) ∧
    (¬s.Stopped → ∃ e s', Session.step p.next p.complete p.received s e = some s') := by
  rw [← Peers.exchange_eq hp]
  obtain ⟨k, a', b', hk, hsim⟩ := sim_run (k := 0) hp.wire rfl .rest h
  refine ⟨fun hgo hclient => ?_, fun hstop => ⟨k, (a', b'), hk, hsim.exchange_of_stopped hstop⟩,
    hsim.progress⟩
  obtain rfl := hsim.eq_start hgo hclient
  exact ⟨rfl, k, hk⟩

end

/-- A client with one file, which keeps the answers that it gets, and a server that keeps the offers
and answers with no buckets. -/
def samplePeers :
    Peers (Bool × List (ProtoOffer BucketLayout)) (List (ProtoOffer BucketLayout)) where
  available := maxTransferSize / 32
  nextOffer a :=
    if a.1 then some (⟨bytes "/a", 10, 20, [⟨List.replicate 32 7, by decide⟩]⟩, false, a.2)
    else none
  filepath _ := bytes "/a"
  answer offer b := ({ offer with buckets := [] }, b ++ [offer])
  applyOffer offer a := (a.1, a.2 ++ [offer])

theorem samplePeers_sound : samplePeers.Sound where
  room := le_rfl
  offered h := by
    simp only [samplePeers] at h
    split_ifs at h
    cases h
    exact ⟨by decide, rfl⟩
  answered b h := by
    simp only [samplePeers] at h
    split_ifs at h
    cases h
    exact ⟨rfl, show (offerBytes ⟨bytes "/a", 10, 20, []⟩).length < 2 ^ 32 by decide⟩

/-- A session with one file: the packets arrive in parts. -/
theorem session_exchanges_sample :
    ∃ k, exchanges samplePeers.offerExchange k ((true, []), []) =
      some ((false, [⟨bytes "/a", 10, 20, []⟩]),
        [⟨bytes "/a", 10, 20, [⟨List.replicate 32 7, by decide⟩]⟩]) := by
  have hrun : Session.run samplePeers.next samplePeers.complete samplePeers.received
      (Session.start (true, []) [])
      [.clientNext, .clientWrite 3, .clientWrite 39, .serverRead, .serverRead, .serverWrite 6,
        .clientRead 1, .clientRead 3, .clientRead 2, .serverWrite 4, .clientRead 4] =
      some (Session.start (false, [⟨bytes "/a", 10, 20, []⟩])
        [⟨bytes "/a", 10, 20, [⟨List.replicate 32 7, by decide⟩]⟩]) := by rfl
  exact ((session_exchanges samplePeers_sound hrun).1 (by rintro (h | h) <;> cases h) rfl).2

end TransplantSession

end Istatd
