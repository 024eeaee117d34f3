import Istatd.Outgoing

/-!
# Flushing an agent

`syncAgent` makes an `AgentFlushRequest` and calls `clearForward`, which gives its strings to the
connections and notes for each how many bytes it still has to write.  `on_forwardWrite` takes what a
connection has written off these numbers.  When all of them are zero the request goes away, and its
destructor calls `on_complete`.

The number that is noted is what is left in `outgoing_` when `writeOut` returns.  It is zero if a
write of these bytes was started at once.  It is noted under the position of the connection among
those that can be used, and taken off under its position in `forward_`; and all that the connection
writes is taken off, also what was under way before.

* `AgentFlushRequest`, `AgentSync.step`: requests and completions in any order;
* `Calm`: the steps at which none of this matters;
* `sync_completes_after_write`: in calm runs `on_complete` comes after the bytes are written;
* `idle_connection_completes_early`: with an idle connection it comes at once.
-/

namespace Istatd

/-- The places of bytes given to `writeOut` of a connection, from `start` up to `stop`. -/
structure Span where
  conn : ℕ
  start : ℕ
  stop : ℕ
  deriving DecidableEq

/-- `AgentFlushRequest`, with the bytes that its `clearForward` gave to the connections. -/
structure AgentFlushRequest where
  sizes : List ℕ
  spans : List Span
  deriving DecidableEq

namespace AgentFlushRequest

/-- `AgentFlushRequest::add`. -/
def add (r : AgentFlushRequest) (index n : ℕ) : AgentFlushRequest :=
  let sizes :=
    if r.sizes.length < index + 1 then
      r.sizes ++ List.replicate (index + 1 - r.sizes.length) 0
    else r.sizes
  { r with sizes := sizes.set index n }

/-- `completed()`. -/
def completed (r : AgentFlushRequest) : Bool := r.sizes.all (· = 0)

/-- What `completed(index, n)` does to the sizes. -/
def credit (r : AgentFlushRequest) (index n : ℕ) : AgentFlushRequest :=
  { r with sizes := r.sizes.modify index fun size => if size ≤ n then 0 else size - n }

end AgentFlushRequest

/-- The connections in `forward_`, the requests of calls of `syncAgent` that have yet to put them into
the list, `agentFlushRequests_`, and the requests for which `on_complete` was called. -/
structure AgentSync where
  conns : List TracedOutgoing
  starting : List AgentFlushRequest
  requests : List AgentFlushRequest
  completed : List AgentFlushRequest

/-- A call of `syncAgent` up to the end of `clearForward`, with the positions of the connections it
may use and the strings for them; the rest of such a call; or a call or handler of a connection.
`clearForward(NULL)` only calls `writeOut`. -/
inductive SyncOp
  | sync (usable : List ℕ) (strs : List Bytes)
  | push
  | conn (i : ℕ) (op : OutgoingOp UInt8)

namespace AgentSync

/-- The last loop of `clearForward`, from its index `i` on. -/
def clearLoop (maxBufferSize : ℕ) : ℕ → List (ℕ × Bytes) → List TracedOutgoing →
    AgentFlushRequest → List TracedOutgoing × AgentFlushRequest
  | _, [], conns, r => (conns, r)
  | i, (j, str) :: rest, conns, r =>
    match conns[j]? with
    | none => clearLoop maxBufferSize (i + 1) rest conns r
    | some t =>
      if str = [] then clearLoop maxBufferSize (i + 1) rest conns r
      else
        let t' := t.step maxBufferSize (.writeOut str)
        let pending := t'.conn.outgoing.length
        clearLoop maxBufferSize (i + 1) rest (conns.set j t')
          { r.add i pending with spans := r.spans ++ [⟨j, t.queued.length, t'.queued.length⟩] }

/-- `on_forwardWrite`. -/
def onForwardWrite (s : AgentSync) (forwardIndex n : ℕ) : AgentSync :=
  let requests := s.requests.map (·.credit forwardIndex n)
  { s with
    requests := requests.filter (!·.completed)
    completed := s.completed ++ requests.filter (·.completed) }

/-- One step. -/
def step (maxBufferSize : ℕ) (s : AgentSync) : SyncOp → AgentSync
  | .sync usable strs =>
    let (conns, r) := clearLoop maxBufferSize 0 (usable.zip strs) s.conns ⟨[], []⟩
    if r.completed then { s with conns := conns, completed := s.completed ++ [r] }
    else { s with conns := conns, starting := s.starting ++ [r] }
  | .push =>
    { s with starting := s.starting.drop 1, requests := s.requests ++ s.starting.take 1 }
  | .conn i op =>
    match s.conns[i]? with
    | none => s
    | some t =>
      let s' := { s with conns := s.conns.set i (t.step maxBufferSize op) }
      match op with
      | .onWrite err xfer =>
        if err ∨ xfer < t.conn.writeBuf.length then s' else s'.onForwardWrite i xfer
      | _ => s'

/-- Connections after `open`, and no request. -/
def start (opened : List (Bytes × Bool × Bool)) : AgentSync where
  conns := opened.map fun e => .start e.1 e.2.1 e.2.2
  starting := []
  requests := []
  completed := []

end AgentSync

/-! ### Calm steps -/

/-- The places of traced bytes. -/
def places (l : List TracedByte) : List ℕ := l.filterMap Prod.snd

/-- A place in a span of a connection. -/
def Span.At (x : Span) (i p : ℕ) : Prop := x.conn = i ∧ x.start ≤ p ∧ p < x.stop

instance (x : Span) (i p : ℕ) : Decidable (x.At i p) := inferInstanceAs (Decidable (_ ∧ _ ∧ _))

namespace AgentSync

/-- The bytes that requests wait for, at the connection `i`, are not cut off by `writeOut`. -/
def KeptByPrune (maxBufferSize : ℕ) (waiting : List AgentFlushRequest) (i : ℕ)
    (t : TracedOutgoing) : Prop :=
  ∀ r ∈ waiting, ∀ x ∈ r.spans, ∀ p ∈ places t.conn.outgoing, x.At i p →
    p ∈ places (EagerOutgoing.prune Prod.fst maxBufferSize t.conn.outgoing)

/-- A write to the connection `i` is not started at once. -/
def Busy (t : TracedOutgoing) : Prop := t.conn.isOpen → t.conn.writePending ∨ t.conn.tryingLater

/-- Steps at which a request waits for the right bytes.  A call of `syncAgent` writes to connections
whose position is the same among all connections and among those that can be used, and which do not
start the write at once.  What requests wait for is neither cut off nor lost with a connection, and
a write that does not hold it is shorter than what the request still waits for. -/
def Calm (maxBufferSize : ℕ) (s : AgentSync) : SyncOp → Prop
  | .sync usable strs =>
    ∀ e ∈ (usable.zip strs).zipIdx, e.1.2 ≠ [] → e.1.1 = e.2 ∧ ∀ t ∈ s.conns[e.2]?,
      Busy t ∧ KeptByPrune maxBufferSize (s.starting ++ s.requests) e.2 t
  | .push => True
  | .conn i op => ∀ t ∈ s.conns[i]?,
    match op with
    | .writeOut _ => KeptByPrune maxBufferSize (s.starting ++ s.requests) i t
    | .onWrite err xfer =>
      t.conn.writePending = true ∧
        if err ∨ xfer < t.conn.writeBuf.length then
          ∀ r ∈ s.starting ++ s.requests, ∀ x ∈ r.spans, ∀ p ∈ places t.conn.writeBuf, ¬x.At i p
        else
          ∀ r ∈ s.requests, ∀ x ∈ r.spans, ∀ p ∈ places t.conn.outgoing, x.At i p →
            xfer < r.sizes.getD i 0
    | _ => True

instance (maxBufferSize : ℕ) (waiting : List AgentFlushRequest) (i : ℕ) (t : TracedOutgoing) :
    Decidable (KeptByPrune maxBufferSize waiting i t) :=
  inferInstanceAs (Decidable (∀ r ∈ waiting, ∀ x ∈ r.spans, ∀ p ∈ places t.conn.outgoing, x.At i p →
    p ∈ places (EagerOutgoing.prune Prod.fst maxBufferSize t.conn.outgoing)))

instance (t : TracedOutgoing) : Decidable (Busy t) := inferInstanceAs (Decidable (_ → _))

instance decidableCalm (maxBufferSize : ℕ) (s : AgentSync) :
    ∀ op, Decidable (Calm maxBufferSize s op)
  | .sync usable strs => inferInstanceAs (Decidable (∀ e ∈ (usable.zip strs).zipIdx, _ → _))
  | .push => isTrue trivial
  | .conn i (.writeOut _) => inferInstanceAs (Decidable (∀ t ∈ s.conns[i]?, KeptByPrune _ _ i t))
  | .conn i (.onWrite err xfer) =>
    inferInstanceAs (Decidable (∀ t ∈ s.conns[i]?, t.conn.writePending = true ∧
      if err ∨ xfer < t.conn.writeBuf.length then
        ∀ r ∈ s.starting ++ s.requests, ∀ x ∈ r.spans, ∀ p ∈ places t.conn.writeBuf, ¬x.At i p
      else ∀ r ∈ s.requests, ∀ x ∈ r.spans, ∀ p ∈ places t.conn.outgoing, x.At i p →
        xfer < r.sizes.getD i 0))
  | .conn _ (.onResolve _) => isTrue fun _ _ => trivial
  | .conn _ (.onConnect _) => isTrue fun _ _ => trivial
  | .conn _ (.onRead _) => isTrue fun _ _ => trivial

end AgentSync

/-! ### Where the bytes are -/

namespace TracedOutgoing

variable {t : TracedOutgoing} {c : EagerOutgoing TracedByte} {queued : Bytes} {x : Span}
  {maxBufferSize : ℕ}

/-- All bytes of the span were reported as written. -/
def Reported (t : TracedOutgoing) (x : Span) : Prop :=
  ∀ p, x.start ≤ p → p < x.stop → p ∈ places t.conn.written.flatten

instance (t : TracedOutgoing) (x : Span) : Decidable (t.Reported x) :=
  decidable_of_iff
    (∀ p ∈ List.range' x.start (x.stop - x.start), p ∈ places t.conn.written.flatten) <| by
    unfold Reported
    simp only [List.mem_range'_1]
    refine forall_congr' fun p => ⟨fun h hstart hstop => h ⟨hstart, by omega⟩, fun h hp => ?_⟩
    exact h hp.1 (by omega)

/-- All bytes of the span are in the queue. -/
def Queued (t : TracedOutgoing) (x : Span) : Prop :=
  ∀ p, x.start ≤ p → p < x.stop → p ∈ places t.conn.outgoing

/-- All bytes of the span are in the write under way. -/
def InFlight (t : TracedOutgoing) (x : Span) : Prop :=
  t.conn.writePending = true ∧ ∀ p, x.start ≤ p → p < x.stop → p ∈ places t.conn.writeBuf

/-- The bytes of the span are on their way. -/
def Waiting (t : TracedOutgoing) (x : Span) : Prop := t.Queued x ∨ t.InFlight x

theorem Waiting.startWrite (h : Waiting ⟨c, queued⟩ x) : Waiting ⟨c.startWrite, queued⟩ x := by
  unfold EagerOutgoing.startWrite
  split_ifs with hcan
  · rcases h with h | h
    · exact .inr ⟨rfl, h⟩
    · exact absurd h.1 hcan.2.2.1
  · exact h

theorem written_startWrite : c.startWrite.written = c.written := by
  unfold EagerOutgoing.startWrite
  split_ifs <;> rfl

/-- What was written stays so. -/
theorem written_prefix_step (maxBufferSize : ℕ) (t : TracedOutgoing) (op : OutgoingOp UInt8) :
    t.conn.written <+: (t.step maxBufferSize op).conn.written := by
  obtain ⟨-, hsame, -⟩ | ⟨data, -, hstep⟩ | ⟨-, hstep⟩ | ⟨err, xfer, -, -, hsame, -⟩ |
    ⟨err, xfer, -, -, hstep⟩ := step_cases maxBufferSize t op
  · rw [hsame.written]
  · rw [hstep, written_startWrite]
  · rw [hstep, written_startWrite]
  · rw [hsame.written]
  · rw [hstep, written_startWrite]
    exact List.prefix_append _ _

theorem Reported.step (h : t.Reported x) (op : OutgoingOp UInt8) :
    (t.step maxBufferSize op).Reported x := by
  obtain ⟨l, hl⟩ := written_prefix_step maxBufferSize t op
  intro p hstart hstop
  rw [places, ← hl, List.flatten_append, List.filterMap_append]
  exact List.mem_append_left _ (h p hstart hstop)

/-- Bytes stay on their way, unless a write ends or they are cut off. -/
theorem Waiting.step (h : t.Waiting x) {op : OutgoingOp UInt8}
    (hprune : ∀ data, op = .writeOut data → t.Queued x →
      ∀ p, x.start ≤ p → p < x.stop →
        p ∈ places (EagerOutgoing.prune Prod.fst maxBufferSize t.conn.outgoing))
    (hwrite : ∀ err xfer, op ≠ .onWrite err xfer) : (t.step maxBufferSize op).Waiting x := by
  obtain ⟨-, hsame, -⟩ | ⟨data, hdata, hstep⟩ | ⟨-, hstep⟩ | ⟨err, xfer, hop, -⟩ |
    ⟨err, xfer, hop, -⟩ := step_cases maxBufferSize t op
  · unfold Waiting Queued InFlight
    rw [hsame.outgoing, hsame.writePending, hsame.writeBuf]
    exact h
  · rw [hstep]
    refine Waiting.startWrite ?_
    rcases h with h | h
    · refine .inl fun p hstart hstop => ?_
      rw [places, List.filterMap_append]
      exact List.mem_append_left _ (hprune data hdata h p hstart hstop)
    · exact .inr h
  · rw [hstep]
    refine Waiting.startWrite ?_
    rcases h with h | h
    · refine .inl fun p hstart hstop => ?_
      rw [places, List.filterMap_append]
      exact List.mem_append_right _ (h p hstart hstop)
    · exact .inr h
  · exact absurd hop (hwrite err xfer)
  · exact absurd hop (hwrite err xfer)

/-- A write ends that does not hold the bytes of the span. -/
theorem Queued.step (h : t.Queued x) (err : Bool) (xfer : ℕ) :
    (t.step maxBufferSize (.onWrite err xfer)).Waiting x := by
  obtain ⟨hop, -⟩ | ⟨data, hdata, -⟩ | ⟨hop, -⟩ | ⟨err', xfer', -, -, hsame, -⟩ |
    ⟨err', xfer', -, -, hstep⟩ := step_cases maxBufferSize t (.onWrite err xfer)
  · exact absurd rfl (hop err xfer)
  · cases hdata
  · cases hop
  · left
    unfold Queued
    rw [hsame.outgoing]
    exact h
  · rw [hstep]
    exact Waiting.startWrite (.inl h)

/-- A write succeeds with the bytes of the span. -/
theorem InFlight.step_written (h : t.InFlight x) {err : Bool} {xfer : ℕ}
    (hok : ¬(err = true ∨ xfer < t.conn.writeBuf.length)) :
    (t.step maxBufferSize (.onWrite err xfer)).Reported x := by
  intro p hstart hstop
  rw [TracedOutgoing.step, EagerOutgoing.onWrite, if_neg hok, written_startWrite, places,
    List.flatten_append, List.filterMap_append]
  exact List.mem_append_right _ (by simpa [places] using h.2 p hstart hstop)

theorem opened_startWrite : c.startWrite.opened = c.opened := by
  unfold EagerOutgoing.startWrite
  split_ifs <;> rfl

/-- Connections stay open. -/
theorem opened_step (h : t.conn.opened = true) (op : OutgoingOp UInt8) :
    (t.step maxBufferSize op).conn.opened = true := by
  obtain ⟨-, hsame, -⟩ | ⟨data, -, hstep⟩ | ⟨-, hstep⟩ | ⟨err, xfer, -, -, hsame, -⟩ |
    ⟨err, xfer, -, -, hstep⟩ := step_cases maxBufferSize t op
  · rw [hsame.opened]
    exact h
  · rw [hstep, opened_startWrite]
    exact h
  · rw [hstep, opened_startWrite]
    exact h
  · rw [hsame.opened]
    exact h
  · rw [hstep, opened_startWrite]
    exact h

/-- A call of `writeOut` that does not start a write. -/
theorem step_writeOut_of_busy (hopened : t.conn.opened = true)
    (hbusy : t.conn.isOpen → t.conn.writePending ∨ t.conn.tryingLater) (data : Bytes) :
    (t.step maxBufferSize (.writeOut data)).conn.outgoing =
      EagerOutgoing.prune Prod.fst maxBufferSize t.conn.outgoing ++ traced t.queued.length data := by
  rw [step, EagerOutgoing.step_writeOut_of_opened hopened, EagerOutgoing.startWrite, if_neg]
  rintro ⟨hisOpen, -, hpending, htrying⟩
  exact (hbusy hisOpen).elim hpending htrying

end TracedOutgoing

/-! ### Sizes -/

namespace AgentFlushRequest

theorem getD_append_zeros (l : List ℕ) (k j : ℕ) :
    (l ++ List.replicate k 0).getD j 0 = l.getD j 0 := by
  rw [List.getD_eq_getElem?_getD, List.getD_eq_getElem?_getD, List.getElem?_append]
  split_ifs with h
  · rfl
  · rw [List.getElem?_eq_none (by omega : l.length ≤ j), List.getElem?_replicate]
    split_ifs <;> rfl

theorem getD_set (l : List ℕ) {i : ℕ} (hi : i < l.length) (n j : ℕ) :
    (l.set i n).getD j 0 = if j = i then n else l.getD j 0 := by
  rw [List.getD_eq_getElem?_getD, List.getD_eq_getElem?_getD, List.getElem?_set]
  by_cases hj : j = i
  · rw [if_pos hj.symm, if_pos hj, if_pos (by omega)]
    rfl
  · rw [if_neg (Ne.symm hj), if_neg hj]

theorem getD_add (r : AgentFlushRequest) (i n j : ℕ) :
    (r.add i n).sizes.getD j 0 = if j = i then n else r.sizes.getD j 0 := by
  unfold add
  by_cases hlen : r.sizes.length < i + 1
  · simp only [if_pos hlen]
    rw [getD_set _ (by rw [List.length_append, List.length_replicate]; omega), getD_append_zeros]
  · simp only [if_neg hlen]
    rw [getD_set _ (by omega)]

theorem getD_credit (r : AgentFlushRequest) (i n j : ℕ) :
    (r.credit i n).sizes.getD j 0 = if j = i then r.sizes.getD j 0 - n else r.sizes.getD j 0 := by
  unfold credit
  simp only [List.getD_eq_getElem?_getD, List.getElem?_modify]
  cases r.sizes[j]? with
  | none => simp
  | some size =>
    by_cases hj : j = i
    · subst hj
      by_cases hn : size ≤ n
      · simp [hn]
      · simp [hn]
    · simp [hj, Ne.symm hj]

theorem getD_of_completed {r : AgentFlushRequest} (h : r.completed = true) (j : ℕ) :
    r.sizes.getD j 0 = 0 := by
  unfold completed at h
  rw [List.all_eq_true] at h
  rw [List.getD_eq_getElem?_getD]
  cases hj : r.sizes[j]? with
  | none => rfl
  | some n => simpa using h n (List.mem_of_getElem? hj)

end AgentFlushRequest

/-! ### What requests wait for -/

namespace AgentSync

variable {s : AgentSync} {conns : List TracedOutgoing} {r : AgentFlushRequest} {t t' : TracedOutgoing}
  {i : ℕ} {maxBufferSize : ℕ}

/-- The bytes of a request were reported, or they are on their way and the request waits for their
connection. -/
def Tracked (conns : List TracedOutgoing) (r : AgentFlushRequest) : Prop :=
  ∀ x ∈ r.spans, x.start < x.stop ∧ ∃ t, conns[x.conn]? = some t ∧
    (t.Reported x ∨ 0 < r.sizes.getD x.conn 0 ∧ t.Waiting x)

/-- All bytes of a request were reported as written by their connections. -/
def Written (conns : List TracedOutgoing) (r : AgentFlushRequest) : Prop :=
  ∀ x ∈ r.spans, ∃ t, conns[x.conn]? = some t ∧ t.Reported x

instance (conns : List TracedOutgoing) (r : AgentFlushRequest) : Decidable (Written conns r) :=
  decidable_of_iff (∀ x ∈ r.spans, (conns[x.conn]?.any (·.Reported x)) = true) <| by
    unfold Written
    refine forall₂_congr fun x _ => ?_
    cases conns[x.conn]? with
    | none => simp
    | some t => simp

/-- A request that is completed is written. -/
theorem Tracked.written (h : Tracked conns r) (hcompleted : r.completed = true) :
    Written conns r := by
  intro x hx
  obtain ⟨-, t, ht, hreported | ⟨hpos, -⟩⟩ := h x hx
  · exact ⟨t, ht, hreported⟩
  · rw [AgentFlushRequest.getD_of_completed hcompleted] at hpos
    exact absurd hpos (lt_irrefl 0)

/-- One connection has changed. -/
theorem Tracked.set (h : Tracked conns r) (ht : conns[i]? = some t) {r' : AgentFlushRequest}
    (hspans : r'.spans = r.spans)
    (hother : ∀ j, j ≠ i → r'.sizes.getD j 0 = r.sizes.getD j 0)
    (hself : ∀ x ∈ r.spans, x.conn = i → x.start < x.stop →
      (t.Reported x ∨ 0 < r.sizes.getD i 0 ∧ t.Waiting x) →
        t'.Reported x ∨ 0 < r'.sizes.getD i 0 ∧ t'.Waiting x) :
    Tracked (conns.set i t') r' := by
  intro x hx
  rw [hspans] at hx
  obtain ⟨hlt, u, hu, hwhere⟩ := h x hx
  refine ⟨hlt, ?_⟩
  by_cases hi : x.conn = i
  · subst hi
    obtain rfl : t = u := Option.some.inj (ht.symm.trans hu)
    obtain ⟨hlen, -⟩ := List.getElem?_eq_some_iff.1 ht
    exact ⟨t', by rw [List.getElem?_set_self hlen], hself x hx rfl hlt hwhere⟩
  · refine ⟨u, by rw [List.getElem?_set_ne (Ne.symm hi)]; exact hu, ?_⟩
    rw [hother _ hi]
    exact hwhere

theorem Written.set (h : Written conns r) (ht : conns[i]? = some t)
    (hself : ∀ x, t.Reported x → t'.Reported x) : Written (conns.set i t') r := by
  intro x hx
  obtain ⟨u, hu, hreported⟩ := h x hx
  by_cases hi : x.conn = i
  · subst hi
    obtain rfl : t = u := Option.some.inj (ht.symm.trans hu)
    obtain ⟨hlen, -⟩ := List.getElem?_eq_some_iff.1 ht
    exact ⟨t', by rw [List.getElem?_set_self hlen], hself x hreported⟩
  · exact ⟨u, by rw [List.getElem?_set_ne (Ne.symm hi)]; exact hu, hreported⟩

/-- What a calm run keeps. -/
structure Inv (s : AgentSync) : Prop where
  opened : ∀ t ∈ s.conns, t.conn.opened = true
  waiting : ∀ r ∈ s.starting ++ s.requests, Tracked s.conns r
  completed : ∀ r ∈ s.completed, Written s.conns r

theorem opened_set (maxBufferSize : ℕ) (h : ∀ u ∈ conns, u.conn.opened = true)
    (ht : conns[i]? = some t) (op : OutgoingOp UInt8) :
    ∀ u ∈ conns.set i (t.step maxBufferSize op), u.conn.opened = true := by
  intro u hu
  rcases List.mem_or_eq_of_mem_set hu with hu | rfl
  · exact h u hu
  · exact TracedOutgoing.opened_step (h t (List.mem_of_getElem? ht)) op

/-- A step of a connection that is not the end of a write. -/
theorem Tracked.step (h : Tracked conns r) (ht : conns[i]? = some t) {op : OutgoingOp UInt8}
    (hprune : ∀ data, op = .writeOut data → ∀ x ∈ r.spans, ∀ p ∈ places t.conn.outgoing, x.At i p →
      p ∈ places (EagerOutgoing.prune Prod.fst maxBufferSize t.conn.outgoing))
    (hwrite : ∀ err xfer, op ≠ .onWrite err xfer) :
    Tracked (conns.set i (t.step maxBufferSize op)) r := by
  refine h.set ht rfl (fun _ _ => rfl) fun x hx hi hlt hwhere => ?_
  rcases hwhere with hreported | ⟨hpos, hwaiting⟩
  · exact .inl (hreported.step op)
  · refine .inr ⟨hpos, hwaiting.step (fun data hop hqueued p hstart hstop => ?_) hwrite⟩
    exact hprune data hop x hx p (hqueued p hstart hstop) ⟨hi, hstart, hstop⟩

/-- The end of a write that failed. -/
theorem Tracked.step_failed (h : Tracked conns r) (ht : conns[i]? = some t) {err : Bool} {xfer : ℕ}
    (hlost : ∀ x ∈ r.spans, ∀ p ∈ places t.conn.writeBuf, ¬x.At i p) :
    Tracked (conns.set i (t.step maxBufferSize (.onWrite err xfer))) r := by
  refine h.set ht rfl (fun _ _ => rfl) fun x hx hi hlt hwhere => ?_
  rcases hwhere with hreported | ⟨hpos, hqueued | hflight⟩
  · exact .inl (hreported.step _)
  · exact .inr ⟨hpos, hqueued.step err xfer⟩
  · exact absurd ⟨hi, le_rfl, hlt⟩ (hlost x hx x.start (hflight.2 _ le_rfl hlt))

/-- The end of a write that succeeded, for a request that is not in the list. -/
theorem Tracked.step_written (h : Tracked conns r) (ht : conns[i]? = some t) {err : Bool} {xfer : ℕ}
    (hok : ¬(err = true ∨ xfer < t.conn.writeBuf.length)) :
    Tracked (conns.set i (t.step maxBufferSize (.onWrite err xfer))) r := by
  refine h.set ht rfl (fun _ _ => rfl) fun x hx hi hlt hwhere => ?_
  rcases hwhere with hreported | ⟨hpos, hqueued | hflight⟩
  · exact .inl (hreported.step _)
  · exact .inr ⟨hpos, hqueued.step err xfer⟩
  · exact .inl (hflight.step_written hok)

/-- The end of a write that succeeded, for a request in the list. -/
theorem Tracked.step_credited (h : Tracked conns r) (ht : conns[i]? = some t) {err : Bool} {xfer : ℕ}
    (hok : ¬(err = true ∨ xfer < t.conn.writeBuf.length))
    (hless : ∀ x ∈ r.spans, ∀ p ∈ places t.conn.outgoing, x.At i p → xfer < r.sizes.getD i 0) :
    Tracked (conns.set i (t.step maxBufferSize (.onWrite err xfer))) (r.credit i xfer) := by
  refine h.set ht rfl (fun j hj => by rw [AgentFlushRequest.getD_credit, if_neg hj])
    fun x hx hi hlt hwhere => ?_
  rcases hwhere with hreported | ⟨hpos, hqueued | hflight⟩
  · exact .inl (hreported.step _)
  · have hsize := hless x hx x.start (hqueued _ le_rfl hlt) ⟨hi, le_rfl, hlt⟩
    refine .inr ⟨?_, hqueued.step err xfer⟩
    rw [AgentFlushRequest.getD_credit, if_pos rfl]
    omega
  · exact .inl (hflight.step_written hok)

/-- The state after a step of a connection, but for the requests. -/
theorem step_conn (ht : s.conns[i]? = some t) {op : OutgoingOp UInt8}
    (hwrite : ∀ err xfer, op ≠ .onWrite err xfer) :
    s.step maxBufferSize (.conn i op) =
      { s with conns := s.conns.set i (t.step maxBufferSize op) } := by
  rw [step]
  cases op with
  | onWrite err xfer => exact absurd rfl (hwrite err xfer)
  | _ => simp only [ht]

theorem step_conn_onWrite (ht : s.conns[i]? = some t) (err : Bool) (xfer : ℕ) :
    s.step maxBufferSize (.conn i (.onWrite err xfer)) =
      if err = true ∨ xfer < t.conn.writeBuf.length then
        { s with conns := s.conns.set i (t.step maxBufferSize (.onWrite err xfer)) }
      else onForwardWrite { s with
        conns := s.conns.set i (t.step maxBufferSize (.onWrite err xfer)) } i xfer := by
  rw [step]
  simp only [ht]

/-- A handler of a connection, or `writeOut`. -/
theorem Inv.step_conn (h : s.Inv) {op : OutgoingOp UInt8} (hop : Calm maxBufferSize s (.conn i op)) :
    (s.step maxBufferSize (.conn i op)).Inv := by
  cases ht : s.conns[i]? with
  | none =>
    have hstep : s.step maxBufferSize (.conn i op) = s := by
      unfold step
      simp only [ht]
    rw [hstep]
    exact h
  | some t =>
    have hcalm := hop t ht
    have hopened := opened_set maxBufferSize h.opened ht op
    have hcompleted : ∀ r ∈ s.completed, Written (s.conns.set i (t.step maxBufferSize op)) r :=
      fun r hr => (h.completed r hr).set ht fun x hx => hx.step op
    by_cases hwrite : ∃ err xfer, op = .onWrite err xfer
    · obtain ⟨err, xfer, rfl⟩ := hwrite
      rw [step_conn_onWrite ht]
      obtain ⟨-, hcalm⟩ := hcalm
      split_ifs at hcalm ⊢ with hfail
      · exact ⟨hopened, fun r hr => (h.waiting r hr).step_failed ht (hcalm r hr), hcompleted⟩
      · have hcredit : ∀ r ∈ s.requests.map (·.credit i xfer),
            Tracked (s.conns.set i (t.step maxBufferSize (.onWrite err xfer))) r := by
          intro r hr
          obtain ⟨r', hr', rfl⟩ := List.mem_map.1 hr
          exact (h.waiting r' (List.mem_append_right _ hr')).step_credited ht hfail (hcalm r' hr')
        refine ⟨hopened, List.forall_mem_append.2 ⟨fun r hr => ?_, fun r hr => ?_⟩,
          List.forall_mem_append.2 ⟨hcompleted, fun r hr => ?_⟩⟩
        · exact (h.waiting r (List.mem_append_left _ hr)).step_written ht hfail
        · exact hcredit r (List.mem_filter.1 hr).1
        · obtain ⟨hr, hdone⟩ := List.mem_filter.1 hr
          exact (hcredit r hr).written hdone
    · have hwrite' : ∀ err xfer, op ≠ .onWrite err xfer := fun err xfer e => hwrite ⟨err, xfer, e⟩
      rw [AgentSync.step_conn ht hwrite']
      refine ⟨hopened, fun r hr => ?_, hcompleted⟩
      refine (h.waiting r hr).step ht (fun data hdata => ?_) hwrite'
      subst hdata
      exact hcalm r hr

/-! ### A new request -/

/-- The new request waits for all it has written to. -/
def Waits (conns : List TracedOutgoing) (r : AgentFlushRequest) (i : ℕ) : Prop :=
  Tracked conns r ∧ ∀ x ∈ r.spans, x.conn < i ∧ 0 < r.sizes.getD x.conn 0

theorem Waits.mono {j : ℕ} (h : Waits conns r i) (hij : i ≤ j) : Waits conns r j :=
  ⟨h.1, fun x hx => ⟨(h.2 x hx).1.trans_le hij, (h.2 x hx).2⟩⟩

/-- One string of the loop. -/
theorem Waits.add (h : Waits conns r i) (ht : conns[i]? = some t) (hopened : t.conn.opened = true)
    (hbusy : Busy t) {str : Bytes} (hstr : str ≠ []) :
    Waits (conns.set i (t.step maxBufferSize (.writeOut str)))
      { r.add i (t.step maxBufferSize (.writeOut str)).conn.outgoing.length with
        spans := r.spans ++
          [⟨i, t.queued.length, (t.step maxBufferSize (.writeOut str)).queued.length⟩] } (i + 1) := by
  have houtgoing : (t.step maxBufferSize (.writeOut str)).conn.outgoing =
      EagerOutgoing.prune Prod.fst maxBufferSize t.conn.outgoing ++ traced t.queued.length str :=
    TracedOutgoing.step_writeOut_of_busy hopened hbusy str
  have hqueued : (t.step maxBufferSize (.writeOut str)).queued.length =
      t.queued.length + str.length := List.length_append
  have hpos : 0 < str.length := List.length_pos_iff.2 hstr
  have hsize : 0 < (t.step maxBufferSize (.writeOut str)).conn.outgoing.length := by
    have hlen : (traced t.queued.length str).length = str.length := List.length_mapIdx
    rw [houtgoing, List.length_append, hlen]
    omega
  have hget : (conns.set i (t.step maxBufferSize (.writeOut str)))[i]? =
      some (t.step maxBufferSize (.writeOut str)) :=
    List.getElem?_set_self (List.getElem?_eq_some_iff.1 ht).1
  constructor
  · intro x hx
    rcases List.mem_append.1 hx with hx | hx
    · obtain ⟨hlt, u, hu, hwhere⟩ := h.1 x hx
      have hne : x.conn ≠ i := (h.2 x hx).1.ne
      refine ⟨hlt, u, by rw [List.getElem?_set_ne hne.symm]; exact hu, ?_⟩
      rw [AgentFlushRequest.getD_add, if_neg hne]
      exact hwhere
    · obtain rfl := List.mem_singleton.1 hx
      refine ⟨by simp only; omega, _, hget, .inr ⟨?_, .inl fun p hstart hstop => ?_⟩⟩
      · rw [AgentFlushRequest.getD_add, if_pos rfl]
        exact hsize
      · rw [houtgoing, places, List.filterMap_append, LineAligned.places_traced]
        simp only at hstart hstop
        exact List.mem_append_right _ (List.mem_range'_1.2 ⟨hstart, by omega⟩)
  · intro x hx
    rcases List.mem_append.1 hx with hx | hx
    · obtain ⟨hlt, hxpos⟩ := h.2 x hx
      refine ⟨by omega, ?_⟩
      rw [AgentFlushRequest.getD_add, if_neg hlt.ne]
      exact hxpos
    · obtain rfl := List.mem_singleton.1 hx
      refine ⟨Nat.lt_succ_self i, ?_⟩
      rw [AgentFlushRequest.getD_add, if_pos rfl]
      exact hsize

/-- The loop of `clearForward`, in a calm step. -/
theorem clearLoop_spec {waiting : List AgentFlushRequest} {es : List (ℕ × Bytes)}
    (hes : ∀ e ∈ es.zipIdx i, e.1.2 ≠ [] → e.1.1 = e.2 ∧ ∀ t ∈ conns[e.2]?,
      Busy t ∧ KeptByPrune maxBufferSize waiting e.2 t)
    (hopened : ∀ t ∈ conns, t.conn.opened = true) (hr : Waits conns r i) :
    let result := clearLoop maxBufferSize i es conns r
    (∀ t ∈ result.1, t.conn.opened = true) ∧ (∃ j, Waits result.1 result.2 j) ∧
      (∀ r' ∈ waiting, Tracked conns r' → Tracked result.1 r') ∧
      ∀ r', Written conns r' → Written result.1 r' := by
  induction es generalizing i conns r with
  | nil => exact ⟨hopened, ⟨i, hr⟩, fun _ _ h => h, fun _ h => h⟩
  | cons e es ih =>
    obtain ⟨j, str⟩ := e
    rw [List.zipIdx_cons] at hes
    obtain ⟨hfirst, hes⟩ := List.forall_mem_cons.1 hes
    rw [clearLoop]
    cases ht : conns[j]? with
    | none => exact ih hes hopened (hr.mono (Nat.le_succ i))
    | some t =>
      by_cases hstr : str = []
      · simp only [if_pos hstr]
        exact ih hes hopened (hr.mono (Nat.le_succ i))
      · simp only [if_neg hstr]
        obtain ⟨hj, hcalm⟩ := hfirst hstr
        change j = i at hj
        subst hj
        obtain ⟨hbusy, hkept⟩ := hcalm t ht
        -- the connections of the other strings are as before
        have hes' : ∀ e ∈ es.zipIdx (j + 1), e.1.2 ≠ [] → e.1.1 = e.2 ∧
            ∀ t' ∈ (conns.set j (t.step maxBufferSize (.writeOut str)))[e.2]?,
              Busy t' ∧ KeptByPrune maxBufferSize waiting e.2 t' := by
          intro e he hne
          have hlt : j + 1 ≤ e.2 := (List.mem_zipIdx_iff_le_and_getElem?_sub.1 he).1
          rw [List.getElem?_set_ne (by omega)]
          exact hes e he hne
        obtain ⟨h1, h2, h3, h4⟩ := ih hes' (opened_set maxBufferSize hopened ht _)
          (hr.add ht (hopened t (List.mem_of_getElem? ht)) hbusy hstr)
        refine ⟨h1, h2, fun r' hr' htracked => h3 r' hr' ?_, fun r' hwritten => h4 r' ?_⟩
        · exact htracked.step ht (fun _ _ => hkept r' hr') nofun
        · exact hwritten.set ht fun x hx => hx.step _

theorem Inv.step_sync (h : s.Inv) {usable : List ℕ} {strs : List Bytes}
    (hop : Calm maxBufferSize s (.sync usable strs)) :
    (s.step maxBufferSize (.sync usable strs)).Inv := by
  have hnew : Waits s.conns ⟨[], []⟩ 0 := ⟨nofun, nofun⟩
  obtain ⟨hopened, ⟨j, hwaits⟩, htracked, hwritten⟩ := clearLoop_spec hop h.opened hnew
  have hcompleted : ∀ r ∈ s.completed, Written _ r := fun r hr => hwritten r (h.completed r hr)
  rw [step]
  simp only
  split_ifs with hdone
  · refine ⟨hopened, fun r hr => htracked r hr (h.waiting r hr), ?_⟩
    exact List.forall_mem_append.2 ⟨hcompleted, List.forall_mem_singleton.2 (hwaits.1.written hdone)⟩
  · refine ⟨hopened, ?_, hcompleted⟩
    intro r hr
    have hr' : r ∈ s.starting ++ s.requests ∨ r = (clearLoop maxBufferSize 0 (usable.zip strs) s.conns
        ⟨[], []⟩).2 := by
      simp only [List.mem_append, List.mem_singleton] at hr ⊢
      tauto
    rcases hr' with hr' | rfl
    · exact htracked r hr' (h.waiting r hr')
    · exact hwaits.1

/-- **A calm step keeps the invariant.** -/
theorem Inv.step (h : s.Inv) {op : SyncOp} (hop : Calm maxBufferSize s op) :
    (s.step maxBufferSize op).Inv := by
  cases op with
  | sync usable strs => exact h.step_sync hop
  | push =>
    refine ⟨h.opened, fun r hr => h.waiting r ?_, h.completed⟩
    rw [AgentSync.step] at hr
    rcases List.mem_append.1 hr with hr | hr
    · exact List.mem_append_left _ (List.mem_of_mem_drop hr)
    · rcases List.mem_append.1 hr with hr | hr
      · exact List.mem_append_right _ hr
      · exact List.mem_append_left _ (List.mem_of_mem_take hr)
  | conn i op => exact h.step_conn hop

theorem inv_start (opened : List (Bytes × Bool × Bool)) : (start opened).Inv where
  opened t ht := by
    obtain ⟨e, -, rfl⟩ := List.mem_map.1 ht
    rfl
  waiting := nofun
  completed := nofun

end AgentSync

/-- **In calm runs `on_complete` comes after the bytes are written.** -/
theorem sync_completes_after_write (maxBufferSize : ℕ) (opened : List (Bytes × Bool × Bool))
    {ops : List SyncOp}
    (hops : Run.Along (AgentSync.step maxBufferSize) (AgentSync.Calm maxBufferSize) (.start opened)
      ops) :
    Run.Always (AgentSync.step maxBufferSize)
      (fun s => ∀ r ∈ s.completed, AgentSync.Written s.conns r) (.start opened) ops := by
  have halways : Run.Always (AgentSync.step maxBufferSize) AgentSync.Inv (.start opened) ops :=
    hops.always (fun s op h hop => h.step hop) (AgentSync.inv_start opened)
  exact fun l hl => (halways l hl).completed

/-- A connection that is resolved while two requests wait for it, the second while a write is under
way. -/
def syncCalls : List SyncOp :=
  [.sync [0] [bytes "a\n"], .push, .conn 0 (.onResolve false), .conn 0 (.onConnect false),
    .sync [0] [bytes "bcdefg\n"], .push, .conn 0 (.onWrite false 5), .conn 0 (.onWrite false 7)]

theorem sync_completes_after_write_sample :
    (syncCalls.foldl (AgentSync.step 524288) (.start [(bytes "#i\n", false, true)])).completed.map
      (·.spans) = [[⟨0, 0, 2⟩], [⟨0, 2, 9⟩]] ∧
    ∀ r ∈ (syncCalls.foldl (AgentSync.step 524288)
        (.start [(bytes "#i\n", false, true)])).completed,
      AgentSync.Written (syncCalls.foldl (AgentSync.step 524288)
        (.start [(bytes "#i\n", false, true)])).conns r :=
  ⟨by decide +kernel, sync_completes_after_write 524288 [(bytes "#i\n", false, true)]
    (by decide +kernel) syncCalls List.prefix_rfl⟩

/-- **With an idle connection `on_complete` comes at once**, before its bytes are written. -/
theorem idle_connection_completes_early :
    ¬∀ r ∈ ([.conn 0 (.onResolve false), .conn 0 (.onConnect false), .conn 0 (.onWrite false 3),
        .sync [0] [bytes "a\n"]].foldl (AgentSync.step 524288)
          (.start [(bytes "#i\n", false, true)])).completed,
      AgentSync.Written ([.conn 0 (.onResolve false), .conn 0 (.onConnect false),
        .conn 0 (.onWrite false 3), .sync [0] [bytes "a\n"]].foldl (AgentSync.step 524288)
          (.start [(bytes "#i\n", false, true)])).conns r := by
  decide +kernel

end Istatd
