import Istatd.Lib.Lines
import Istatd.Lib.Run
import Istatd.Framing

/-!
# The outgoing half of a connection

An `EagerConnection` keeps what is to be written in `outgoing_`.  A write takes all of it over to
`writeBuf_`, and no other is started before it ends.  When it fails, the socket is closed, the buffer
is dropped and the connection is made again after a while, with `initialData_` put in front of the
queue.  A queue that is too long is cut after a line in its middle.

The backoff of the reconnections only decides when they happen, and is left out.

* `EagerOutgoing`, `EagerOutgoing.step`: the calls and completions, for any kind of byte;
* `TracedOutgoing`: the same with bytes that know their place among all bytes given to `writeOut`;
* `LineAligned`: what every step keeps;
* `outgoing_lineAligned`: whole lines, in order, and each byte at most once.
-/

namespace Istatd

/-- The fields of `EagerConnection` for writing, the buffers given to `async_write` so far, and those
for which `onWrite_` was called.  `isOpen` is `socket_.is_open()`, and `hasResolve` says that
`resolveHost_` and `resolvePort_` are set. -/
structure EagerOutgoing (β : Type) where
  opened : Bool
  writePending : Bool
  tryingLater : Bool
  hasErrorConnect : Bool
  isOpen : Bool
  hasResolve : Bool
  initialData : List β
  outgoing : List β
  writeBuf : List β
  handed : List (List β)
  written : List (List β)
  deriving DecidableEq

/-- A call of `writeOut`, or one of the handlers. -/
inductive OutgoingOp (β : Type)
  | writeOut (data : List β)
  | onResolve (err : Bool)
  | onConnect (err : Bool)
  | onWrite (err : Bool) (xfer : ℕ)
  | onRead (err : Bool)

/-- The same call with other bytes. -/
def OutgoingOp.map {β γ : Type} (f : β → γ) : OutgoingOp β → OutgoingOp γ
  | .writeOut data => .writeOut (data.map f)
  | .onResolve err => .onResolve err
  | .onConnect err => .onConnect err
  | .onWrite err xfer => .onWrite err xfer
  | .onRead err => .onRead err

namespace EagerOutgoing

section Model

variable {β : Type} (val : β → UInt8) (maxBufferSize : ℕ) (c : EagerOutgoing β)

/-- There is something to write, and a write can be started. -/
def CanWrite : Prop := c.isOpen ∧ c.outgoing ≠ [] ∧ ¬c.writePending ∧ ¬c.tryingLater

instance : Decidable c.CanWrite := inferInstanceAs (Decidable (_ ∧ _ ∧ _ ∧ _))

/-- `startWrite`. -/
def startWrite : EagerOutgoing β :=
  if c.CanWrite then
    { c with
      writeBuf := c.outgoing
      outgoing := []
      writePending := true
      handed := c.handed ++ [c.outgoing] }
  else c

/-- What `writeOut` keeps of the queue: all of it, or what follows the first newline from the middle
on. -/
def prune (l : List β) : List β :=
  if maxBufferSize < l.length then
    match (l.drop (maxBufferSize / 2)).findIdx? (val · = newline) with
    | some i => l.drop (maxBufferSize / 2 + (i + 1))
    | none => []
  else l

/-- `writeOut`, with the size it returns.  It throws if the connection is not open. -/
def writeOut (data : List β) : Option (ℕ × EagerOutgoing β) :=
  if c.opened then
    let c' := { c with outgoing := prune val maxBufferSize c.outgoing ++ data }.startWrite
    some (c'.outgoing.length, c')
  else none

/-- `tryLater`. -/
def tryLater : EagerOutgoing β := if c.hasResolve then { c with tryingLater := true } else c

/-- `on_resolve`.  To connect opens the socket. -/
def onResolve (err : Bool) : EagerOutgoing β :=
  if err then { c with tryingLater := false, hasErrorConnect := true }.tryLater
  else { c with tryingLater := false, isOpen := true }

/-- `on_connect`. -/
def onConnect (err : Bool) : EagerOutgoing β :=
  if err then { c with hasErrorConnect := true }.tryLater
  else { c with hasErrorConnect := false, outgoing := c.initialData ++ c.outgoing }.startWrite

/-- `on_write`. -/
def onWrite (err : Bool) (xfer : ℕ) : EagerOutgoing β :=
  if err ∨ xfer < c.writeBuf.length then
    { c with writePending := false, isOpen := false }.tryLater
  else
    { c with
      writePending := false
      hasErrorConnect := false
      written := c.written ++ [c.writeBuf] }.startWrite

/-- `on_read`, as far as it is about writing. -/
def onRead (err : Bool) : EagerOutgoing β :=
  if err then
    if c.opened then { c with isOpen := false }.tryLater else { c with isOpen := false }
  else c

/-- One call. -/
def step : OutgoingOp β → EagerOutgoing β
  | .writeOut data => ((c.writeOut val maxBufferSize data).map Prod.snd).getD c
  | .onResolve err => c.onResolve err
  | .onConnect err => c.onConnect err
  | .onWrite err xfer => c.onWrite err xfer
  | .onRead err => c.onRead err

/-- A connection after `open`, with nothing to write.  An accepted one has an open socket, another
will be resolved. -/
def start (initialData : List β) (isOpen hasResolve : Bool) : EagerOutgoing β :=
  ⟨true, false, false, false, isOpen, hasResolve, initialData, [], [], [], []⟩

variable {val maxBufferSize c}

theorem step_writeOut_of_opened (h : c.opened = true) (data : List β) :
    c.step val maxBufferSize (.writeOut data) =
      { c with outgoing := prune val maxBufferSize c.outgoing ++ data }.startWrite := by
  show ((c.writeOut val maxBufferSize data).map Prod.snd).getD c = _
  rw [writeOut, if_pos h]
  rfl

theorem step_writeOut_of_not_opened (h : ¬c.opened = true) (data : List β) :
    c.step val maxBufferSize (.writeOut data) = c := by
  show ((c.writeOut val maxBufferSize data).map Prod.snd).getD c = _
  rw [writeOut, if_neg h]
  rfl

end Model

end EagerOutgoing

/-! ### Bytes that know their place -/

/-- A byte, and its place among the bytes given to `writeOut` if it is one of them. -/
abbrev TracedByte := UInt8 × Option ℕ

/-- Bytes in a row, from place `n` on. -/
def traced (n : ℕ) (data : Bytes) : List TracedByte := data.mapIdx fun i b => (b, some (n + i))

/-- A connection with traced bytes, and all bytes given to `writeOut` so far. -/
structure TracedOutgoing where
  conn : EagerOutgoing TracedByte
  queued : Bytes

namespace TracedOutgoing

/-- One call. -/
def step (maxBufferSize : ℕ) (t : TracedOutgoing) : OutgoingOp UInt8 → TracedOutgoing
  | .writeOut data =>
    ⟨t.conn.step Prod.fst maxBufferSize (.writeOut (traced t.queued.length data)), t.queued ++ data⟩
  | .onResolve err => ⟨t.conn.onResolve err, t.queued⟩
  | .onConnect err => ⟨t.conn.onConnect err, t.queued⟩
  | .onWrite err xfer => ⟨t.conn.onWrite err xfer, t.queued⟩
  | .onRead err => ⟨t.conn.onRead err, t.queued⟩

/-- The traced form of `EagerOutgoing.start`. -/
def start (initialData : Bytes) (isOpen hasResolve : Bool) : TracedOutgoing :=
  ⟨.start (initialData.map (·, none)) isOpen hasResolve, []⟩

end TracedOutgoing

/-! ### What a step does -/

/-- Nothing but the flags for connecting is different. -/
structure SameBuffers {β : Type} (c c' : EagerOutgoing β) : Prop where
  opened : c'.opened = c.opened
  writePending : c'.writePending = c.writePending
  initialData : c'.initialData = c.initialData
  outgoing : c'.outgoing = c.outgoing
  writeBuf : c'.writeBuf = c.writeBuf
  handed : c'.handed = c.handed
  written : c'.written = c.written

theorem SameBuffers.tryLater {β : Type} {c c' : EagerOutgoing β} (h : SameBuffers c c') :
    SameBuffers c c'.tryLater := by
  unfold EagerOutgoing.tryLater
  split_ifs
  · exact ⟨h.opened, h.writePending, h.initialData, h.outgoing, h.writeBuf, h.handed, h.written⟩
  · exact h

/-- Every step is one of these: the buffers stay, `writeOut` puts data into the queue, a connection is
made, or a write ends with failure or success. -/
theorem TracedOutgoing.step_cases (maxBufferSize : ℕ) (t : TracedOutgoing) (op : OutgoingOp UInt8) :
    ((∀ err xfer, op ≠ .onWrite err xfer) ∧ SameBuffers t.conn (t.step maxBufferSize op).conn ∧
      ∃ data, (t.step maxBufferSize op).queued = t.queued ++ data) ∨
    (∃ data, op = .writeOut data ∧ t.step maxBufferSize op =
      ⟨{ t.conn with
          outgoing := EagerOutgoing.prune Prod.fst maxBufferSize t.conn.outgoing ++
            traced t.queued.length data }.startWrite, t.queued ++ data⟩) ∨
    (op = .onConnect false ∧ t.step maxBufferSize op =
      ⟨{ t.conn with
          hasErrorConnect := false
          outgoing := t.conn.initialData ++ t.conn.outgoing }.startWrite, t.queued⟩) ∨
    (∃ err xfer, op = .onWrite err xfer ∧ (err = true ∨ xfer < t.conn.writeBuf.length) ∧
      SameBuffers { t.conn with writePending := false } (t.step maxBufferSize op).conn ∧
      (t.step maxBufferSize op).queued = t.queued) ∨
    (∃ err xfer, op = .onWrite err xfer ∧ ¬(err = true ∨ xfer < t.conn.writeBuf.length) ∧
      t.step maxBufferSize op =
        ⟨{ t.conn with
            writePending := false
            hasErrorConnect := false
            written := t.conn.written ++ [t.conn.writeBuf] }.startWrite, t.queued⟩) := by
  have hrefl : ∀ c : EagerOutgoing TracedByte, SameBuffers c c := fun c =>
    ⟨rfl, rfl, rfl, rfl, rfl, rfl, rfl⟩
  have hflags : ∀ (c : EagerOutgoing TracedByte) b₁ b₂ b₃,
      SameBuffers c { c with tryingLater := b₁, hasErrorConnect := b₂, isOpen := b₃ } :=
    fun c _ _ _ => ⟨rfl, rfl, rfl, rfl, rfl, rfl, rfl⟩
  cases op with
  | writeOut data =>
    by_cases hopened : t.conn.opened = true
    · refine .inr (.inl ⟨data, rfl, ?_⟩)
      rw [step, EagerOutgoing.step_writeOut_of_opened hopened]
    · refine .inl ⟨nofun, ?_, data, rfl⟩
      rw [step, EagerOutgoing.step_writeOut_of_not_opened hopened]
      exact hrefl _
  | onResolve err =>
    refine .inl ⟨nofun, ?_, [], (List.append_nil _).symm⟩
    cases err with
    | true => exact (hflags t.conn _ _ _).tryLater
    | false => exact hflags t.conn _ _ _
  | onConnect err =>
    cases err with
    | true => exact .inl ⟨nofun, (hflags t.conn _ _ _).tryLater, [], (List.append_nil _).symm⟩
    | false => exact .inr (.inr (.inl ⟨rfl, rfl⟩))
  | onWrite err xfer =>
    by_cases hfail : err = true ∨ xfer < t.conn.writeBuf.length
    · refine .inr (.inr (.inr (.inl ⟨err, xfer, rfl, hfail, ?_, rfl⟩)))
      rw [step, EagerOutgoing.onWrite, if_pos hfail]
      exact (hflags { t.conn with writePending := false } _ _ _).tryLater
    · refine .inr (.inr (.inr (.inr ⟨err, xfer, rfl, hfail, ?_⟩)))
      rw [step, EagerOutgoing.onWrite, if_neg hfail]
  | onRead err =>
    refine .inl ⟨nofun, ?_, [], (List.append_nil _).symm⟩
    cases err with
    | false => exact hrefl _
    | true =>
      show SameBuffers t.conn (if t.conn.opened = true then _ else _)
      split_ifs
      · exact (hflags t.conn _ _ _).tryLater
      · exact hflags t.conn _ _ _

/-! ### Without the places -/

namespace EagerOutgoing

section Map

variable {β γ : Type} (f : β → γ) {val : β → UInt8} {val' : γ → UInt8} {maxBufferSize : ℕ}
  {c : EagerOutgoing β}

/-- Another kind of byte. -/
def map (c : EagerOutgoing β) : EagerOutgoing γ where
  opened := c.opened
  writePending := c.writePending
  tryingLater := c.tryingLater
  hasErrorConnect := c.hasErrorConnect
  isOpen := c.isOpen
  hasResolve := c.hasResolve
  initialData := c.initialData.map f
  outgoing := c.outgoing.map f
  writeBuf := c.writeBuf.map f
  handed := c.handed.map (List.map f)
  written := c.written.map (List.map f)

theorem map_start (initialData : List β) (isOpen hasResolve : Bool) :
    (start initialData isOpen hasResolve).map f = start (initialData.map f) isOpen hasResolve := rfl

theorem canWrite_map : (c.map f).CanWrite ↔ c.CanWrite :=
  and_congr_right' (and_congr_left' (not_congr List.map_eq_nil_iff))

theorem startWrite_map : c.startWrite.map f = (c.map f).startWrite := by
  unfold startWrite
  by_cases h : c.CanWrite
  · rw [if_pos h, if_pos ((canWrite_map f).2 h)]
    simp [map]
  · rw [if_neg h, if_neg fun h' => h ((canWrite_map f).1 h')]

theorem tryLater_map : c.tryLater.map f = (c.map f).tryLater := apply_ite (map f) _ _ _

theorem prune_map (hf : ∀ b, val' (f b) = val b) (l : List β) :
    (prune val maxBufferSize l).map f = prune val' maxBufferSize (l.map f) := by
  have hfind : ∀ l : List β, (l.map f).findIdx? (val' · = newline) = l.findIdx? (val · = newline) :=
    fun l => by
      rw [List.findIdx?_map]
      congr 1
      funext b
      simp only [Function.comp_apply, hf]
  unfold prune
  rw [List.length_map, ← List.map_drop, hfind]
  split_ifs
  · cases (l.drop (maxBufferSize / 2)).findIdx? (val · = newline) with
    | none => rfl
    | some i => exact List.map_drop
  · rfl

/-- A step does not look at more than the values of the bytes. -/
theorem step_map (hf : ∀ b, val' (f b) = val b) (op : OutgoingOp β) :
    (c.step val maxBufferSize op).map f = (c.map f).step val' maxBufferSize (op.map f) := by
  cases op with
  | writeOut data =>
    by_cases hopened : c.opened = true
    · have hopened' : (c.map f).opened = true := hopened
      rw [step_writeOut_of_opened hopened, OutgoingOp.map, step_writeOut_of_opened hopened',
        startWrite_map]
      simp only [map, List.map_append, prune_map f hf]
    · have hopened' : ¬(c.map f).opened = true := hopened
      rw [step_writeOut_of_not_opened hopened, OutgoingOp.map, step_writeOut_of_not_opened hopened']
  | onResolve err =>
    cases err with
    | true => exact tryLater_map f
    | false => rfl
  | onConnect err =>
    cases err with
    | true => exact tryLater_map f
    | false =>
      refine (startWrite_map f).trans (congrArg startWrite ?_)
      simp [map]
  | onWrite err xfer =>
    show (c.onWrite err xfer).map f = (c.map f).onWrite err xfer
    have hlen : (c.map f).writeBuf.length = c.writeBuf.length := List.length_map f
    unfold onWrite
    rw [hlen]
    by_cases h : err = true ∨ xfer < c.writeBuf.length
    · rw [if_pos h, if_pos h]
      exact tryLater_map f
    · rw [if_neg h, if_neg h]
      refine (startWrite_map f).trans (congrArg startWrite ?_)
      simp [map]
  | onRead err =>
    cases err with
    | true => exact (apply_ite (map f) _ _ _).trans (if_congr Iff.rfl (tryLater_map f) rfl)
    | false => rfl

end Map

end EagerOutgoing

theorem map_fst_traced (n : ℕ) (data : Bytes) : (traced n data).map Prod.fst = data := by
  refine List.ext_getElem? fun i => ?_
  simp only [traced, List.getElem?_map, List.getElem?_mapIdx, Option.map_map]
  cases data[i]? <;> rfl

/-- The traced connection is the connection. -/
theorem TracedOutgoing.map_fst_step (maxBufferSize : ℕ) (t : TracedOutgoing)
    (op : OutgoingOp UInt8) :
    (t.step maxBufferSize op).conn.map Prod.fst =
      (t.conn.map Prod.fst).step id maxBufferSize op := by
  have hf : ∀ b : TracedByte, id (Prod.fst b) = Prod.fst b := fun _ => rfl
  cases op with
  | writeOut data =>
    refine (EagerOutgoing.step_map Prod.fst hf _).trans ?_
    rw [OutgoingOp.map, map_fst_traced]
  | onResolve err => exact EagerOutgoing.step_map Prod.fst hf (.onResolve err)
  | onConnect err => exact EagerOutgoing.step_map Prod.fst hf (.onConnect err)
  | onWrite err xfer => exact EagerOutgoing.step_map Prod.fst hf (.onWrite err xfer)
  | onRead err => exact EagerOutgoing.step_map Prod.fst hf (.onRead err)

theorem TracedOutgoing.map_fst_foldl_step (maxBufferSize : ℕ) (t : TracedOutgoing)
    (ops : List (OutgoingOp UInt8)) :
    (ops.foldl (step maxBufferSize) t).conn.map Prod.fst =
      ops.foldl (EagerOutgoing.step id maxBufferSize) (t.conn.map Prod.fst) := by
  induction ops generalizing t with
  | nil => rfl
  | cons op ops ih => rw [List.foldl_cons, ih, map_fst_step, List.foldl_cons]

/-! ### Whole lines -/

/-- The bytes without their places are whole lines. -/
def WholeLines (l : List TracedByte) : Prop := Lines.Whole newline (l.map Prod.fst)

theorem WholeLines.append {a b : List TracedByte} (ha : WholeLines a) (hb : WholeLines b) :
    WholeLines (a ++ b) := by
  rw [WholeLines, List.map_append]
  exact Lines.Whole.append ha hb

/-- Whole lines are cut off by `prune`, and whole lines are left. -/
theorem WholeLines.prune {l : List TracedByte} (h : WholeLines l) (maxBufferSize : ℕ) :
    ∃ removed, l = removed ++ EagerOutgoing.prune Prod.fst maxBufferSize l ∧ WholeLines removed ∧
      WholeLines (EagerOutgoing.prune Prod.fst maxBufferSize l) := by
  unfold EagerOutgoing.prune
  split_ifs with hlen
  · cases hfind : (l.drop (maxBufferSize / 2)).findIdx? (Prod.fst · = newline) with
    | none => exact ⟨l, by simp, h, rfl⟩
    | some i =>
      obtain ⟨hi, hnl, -⟩ := List.findIdx?_eq_some_iff_getElem.1 hfind
      have hget : l[maxBufferSize / 2 + i]?.map Prod.fst = some newline := by
        rw [← List.getElem?_drop, List.getElem?_eq_getElem hi, Option.map_some]
        exact congrArg some (of_decide_eq_true hnl)
      have hcut : WholeLines (l.take (maxBufferSize / 2 + (i + 1))) := by
        obtain ⟨b, hb, hval⟩ := Option.map_eq_some_iff.1 hget
        rw [← add_assoc, List.take_add_one, hb, WholeLines, List.map_append, Option.toList_some,
          List.map_singleton, hval]
        exact Lines.whole_append_sep _
      refine ⟨l.take (maxBufferSize / 2 + (i + 1)), (List.take_append_drop _ l).symm, hcut, ?_⟩
      refine Lines.Whole.of_append hcut ?_
      rw [← List.map_append, List.take_append_drop]
      exact h
  · exact ⟨[], rfl, rfl, h⟩

/-- What a connection keeps: whole lines in its buffers, and places that increase and are true. -/
structure LineAligned (initialData outgoing : List TracedByte) (handed : List (List TracedByte))
    (queued : Bytes) : Prop where
  initialLines : WholeLines initialData
  initialPlaces : ∀ b ∈ initialData, b.2 = none
  outgoingLines : WholeLines outgoing
  handedLines : ∀ buf ∈ handed, WholeLines buf
  order : ((handed.flatten ++ outgoing).filterMap Prod.snd).Pairwise (· < ·)
  origin : ∀ b i, (b, some i) ∈ handed.flatten ++ outgoing → queued[i]? = some b

/-- The invariant of a traced connection. -/
def TracedOutgoing.Aligned (t : TracedOutgoing) : Prop :=
  LineAligned t.conn.initialData t.conn.outgoing t.conn.handed t.queued

namespace LineAligned

variable {initialData outgoing : List TracedByte} {handed : List (List TracedByte)} {queued : Bytes}

/-- The queue is given to `async_write`. -/
theorem hand (h : LineAligned initialData outgoing handed queued) :
    LineAligned initialData [] (handed ++ [outgoing]) queued where
  initialLines := h.initialLines
  initialPlaces := h.initialPlaces
  outgoingLines := rfl
  handedLines := List.forall_mem_append.2 ⟨h.handedLines, List.forall_mem_singleton.2 h.outgoingLines⟩
  order := by simpa using h.order
  origin b i hb := h.origin b i (by simpa using hb)

/-- The initial data is put in front of the queue. -/
theorem reconnect (h : LineAligned initialData outgoing handed queued) :
    LineAligned initialData (initialData ++ outgoing) handed queued where
  initialLines := h.initialLines
  initialPlaces := h.initialPlaces
  outgoingLines := h.initialLines.append h.outgoingLines
  handedLines := h.handedLines
  order := by
    have hnone : initialData.filterMap Prod.snd = [] :=
      List.filterMap_eq_nil_iff.2 h.initialPlaces
    have horder := h.order
    rw [List.filterMap_append] at horder
    rw [List.filterMap_append, List.filterMap_append, hnone, List.nil_append]
    exact horder
  origin b i hb := by
    rcases List.mem_append.1 hb with hb | hb
    · exact h.origin b i (List.mem_append_left _ hb)
    · rcases List.mem_append.1 hb with hb | hb
      · cases h.initialPlaces _ hb
      · exact h.origin b i (List.mem_append_right _ hb)

/-- Lines are cut off the front of the queue. -/
theorem cut {removed kept : List TracedByte}
    (h : LineAligned initialData (removed ++ kept) handed queued) (hkept : WholeLines kept) :
    LineAligned initialData kept handed queued where
  initialLines := h.initialLines
  initialPlaces := h.initialPlaces
  outgoingLines := hkept
  handedLines := h.handedLines
  order := h.order.sublist
    (((List.sublist_append_right removed kept).append_left _).filterMap _)
  origin b i hb := h.origin b i (((List.sublist_append_right removed kept).append_left _).mem hb)

theorem places_traced (n : ℕ) (data : Bytes) :
    (traced n data).filterMap Prod.snd = List.range' n data.length := by
  induction data generalizing n with
  | nil => rfl
  | cons b data ih =>
    have hcons : traced n (b :: data) = (b, some n) :: traced (n + 1) data := by
      simp only [traced, List.mapIdx_cons, add_zero, Nat.add_right_comm, ← add_assoc]
    rw [hcons, List.filterMap_cons, ih, List.length_cons, List.range'_succ]

theorem mem_traced {n i : ℕ} {data : Bytes} {b : UInt8} (h : (b, some i) ∈ traced n data) :
    n ≤ i ∧ data[i - n]? = some b := by
  obtain ⟨j, hj⟩ := List.mem_iff_getElem?.1 h
  rw [traced, List.getElem?_mapIdx] at hj
  obtain ⟨b', hb', heq⟩ := Option.map_eq_some_iff.1 hj
  obtain ⟨rfl, hi⟩ := Prod.mk.inj heq
  obtain rfl := Option.some.inj hi
  exact ⟨by omega, by rw [Nat.add_sub_cancel_left]; exact hb'⟩

theorem extend (h : LineAligned initialData outgoing handed queued) (data : Bytes) :
    LineAligned initialData outgoing handed (queued ++ data) where
  initialLines := h.initialLines
  initialPlaces := h.initialPlaces
  outgoingLines := h.outgoingLines
  handedLines := h.handedLines
  order := h.order
  origin b i hb := by
    have hget := h.origin b i hb
    obtain ⟨hlt, -⟩ := List.getElem?_eq_some_iff.1 hget
    rw [List.getElem?_append_left hlt]
    exact hget

/-- Lines are put at the end of the queue. -/
theorem queue (h : LineAligned initialData outgoing handed queued) {data : Bytes}
    (hdata : Lines.Whole newline data) :
    LineAligned initialData (outgoing ++ traced queued.length data) handed (queued ++ data) where
  initialLines := h.initialLines
  initialPlaces := h.initialPlaces
  outgoingLines := h.outgoingLines.append (by rw [WholeLines, map_fst_traced]; exact hdata)
  handedLines := h.handedLines
  order := by
    rw [← List.append_assoc, List.filterMap_append, List.pairwise_append, places_traced]
    refine ⟨h.order, List.pairwise_lt_range', fun i hi j hj => ?_⟩
    -- a place so far is that of a byte so far
    obtain ⟨⟨b, _⟩, hb, rfl⟩ := List.mem_filterMap.1 hi
    obtain ⟨hlt, -⟩ := List.getElem?_eq_some_iff.1 (h.origin b i hb)
    exact hlt.trans_le (List.mem_range'_1.1 hj).1
  origin b i hb := by
    rw [← List.append_assoc] at hb
    rcases List.mem_append.1 hb with hb | hb
    · exact (h.extend data).origin b i hb
    · obtain ⟨hle, hget⟩ := mem_traced hb
      rw [List.getElem?_append_right hle]
      exact hget

end LineAligned

namespace TracedOutgoing

variable {c : EagerOutgoing TracedByte} {queued : Bytes} {maxBufferSize : ℕ}

theorem Aligned.startWrite (h : Aligned ⟨c, queued⟩) : Aligned ⟨c.startWrite, queued⟩ := by
  unfold EagerOutgoing.startWrite
  split_ifs
  · exact LineAligned.hand h
  · exact h

/-- **Every step keeps the alignment.** -/
theorem Aligned.step {t : TracedOutgoing} (h : t.Aligned) {op : OutgoingOp UInt8}
    (hop : ∀ data, op = .writeOut data → Lines.Whole newline data) :
    (t.step maxBufferSize op).Aligned := by
  obtain ⟨-, hsame, data, hqueued⟩ | ⟨data, hdata, hstep⟩ | ⟨-, hstep⟩ |
    ⟨err, xfer, -, -, hsame, hqueued⟩ | ⟨err, xfer, -, -, hstep⟩ := step_cases maxBufferSize t op
  · unfold Aligned
    rw [hsame.initialData, hsame.outgoing, hsame.handed, hqueued]
    exact h.extend data
  · obtain ⟨removed, heq, -, hkept⟩ := h.outgoingLines.prune maxBufferSize
    have hcut : LineAligned t.conn.initialData
        (EagerOutgoing.prune Prod.fst maxBufferSize t.conn.outgoing) t.conn.handed t.queued := by
      unfold Aligned at h
      rw [heq] at h
      exact h.cut hkept
    rw [hstep]
    exact Aligned.startWrite (hcut.queue (hop data hdata))
  · rw [hstep]
    exact Aligned.startWrite h.reconnect
  · unfold Aligned
    rw [hsame.initialData, hsame.outgoing, hsame.handed, hqueued]
    exact h
  · rw [hstep]
    exact Aligned.startWrite h

theorem aligned_start {initialData : Bytes} (h : Lines.Whole newline initialData)
    (isOpen hasResolve : Bool) : (start initialData isOpen hasResolve).Aligned where
  initialLines := by
    show Lines.Whole newline ((initialData.map (·, none)).map Prod.fst)
    rw [List.map_map]
    simpa [Function.comp_def] using h
  initialPlaces b hb := by
    obtain ⟨b', -, rfl⟩ := List.mem_map.1 hb
    rfl
  outgoingLines := rfl
  handedLines := nofun
  order := List.Pairwise.nil
  origin := nofun

theorem Aligned.foldl_step {t : TracedOutgoing} (h : t.Aligned) {ops : List (OutgoingOp UInt8)}
    (hops : ∀ data, .writeOut data ∈ ops → Lines.Whole newline data) :
    (ops.foldl (TracedOutgoing.step maxBufferSize) t).Aligned := by
  induction ops generalizing t with
  | nil => exact h
  | cons op ops ih =>
    refine ih (h.step fun data hdata => hops data (by simp [hdata])) fun data hdata => ?_
    exact hops data (List.mem_cons_of_mem op hdata)

end TracedOutgoing

/-- **The outgoing stream stays line-aligned.**  For every order of calls and completions: the
traced connection is the connection, every buffer given to `async_write` is whole lines, the places
of the bytes given to it increase and are their places among the bytes given to `writeOut`, and what
`writeOut` would cut off the queue is whole lines. -/
theorem outgoing_lineAligned (maxBufferSize : ℕ) {initialData : Bytes}
    (hinitial : Lines.Whole newline initialData) (isOpen hasResolve : Bool)
    {ops : List (OutgoingOp UInt8)}
    (hops : ∀ data, .writeOut data ∈ ops → Lines.Whole newline data) :
    let c := ops.foldl (EagerOutgoing.step id maxBufferSize) (.start initialData isOpen hasResolve)
    let t := ops.foldl (TracedOutgoing.step maxBufferSize) (.start initialData isOpen hasResolve)
    t.conn.map Prod.fst = c ∧
      (∀ buf ∈ c.handed, Lines.Whole newline buf) ∧
      (t.conn.handed.flatten.filterMap Prod.snd).Pairwise (· < ·) ∧
      (∀ b i, (b, some i) ∈ t.conn.handed.flatten → t.queued[i]? = some b) ∧
      ∃ removed, c.outgoing = removed ++ EagerOutgoing.prune id maxBufferSize c.outgoing ∧
        Lines.Whole newline removed := by
  intro c t
  have hmap : t.conn.map Prod.fst = c := by
    refine (TracedOutgoing.map_fst_foldl_step ..).trans ?_
    rw [TracedOutgoing.start, EagerOutgoing.map_start, List.map_map]
    simp only [Function.comp_def, List.map_id']
    rfl
  have haligned : t.Aligned :=
    (TracedOutgoing.aligned_start hinitial isOpen hasResolve).foldl_step hops
  refine ⟨hmap, fun buf hbuf => ?_, ?_, fun b i hb => ?_, ?_⟩
  · rw [← hmap] at hbuf
    obtain ⟨buf', hbuf', rfl⟩ := List.mem_map.1 hbuf
    exact haligned.handedLines buf' hbuf'
  · exact haligned.order.sublist ((List.sublist_append_left _ _).filterMap _)
  · exact haligned.origin b i (List.mem_append_left _ hb)
  · obtain ⟨removed, heq, hremoved, -⟩ := haligned.outgoingLines.prune maxBufferSize
    refine ⟨removed.map Prod.fst, ?_, hremoved⟩
    have hout : c.outgoing = t.conn.outgoing.map Prod.fst := by rw [← hmap]; rfl
    have hval : ∀ b : TracedByte, id (Prod.fst b) = Prod.fst b := fun _ => rfl
    have hprune : (EagerOutgoing.prune Prod.fst maxBufferSize t.conn.outgoing).map Prod.fst =
        EagerOutgoing.prune id maxBufferSize (t.conn.outgoing.map Prod.fst) :=
      EagerOutgoing.prune_map Prod.fst hval t.conn.outgoing
    rw [hout, ← hprune, ← List.map_append, ← heq]

/-- Lines that are queued, written, lost with their connection and cut off, with a queue of at most
four bytes. -/
def outgoingCalls : List (OutgoingOp UInt8) :=
  [.onResolve false, .onConnect false, .writeOut [97, 10], .onWrite false 3,
    .writeOut [98, 10, 99, 10], .onWrite true 1, .writeOut [100, 10], .writeOut [101, 10],
    .onResolve false, .onConnect false, .onWrite false 9]

theorem outgoing_lineAligned_sample :
    (outgoingCalls.foldl (EagerOutgoing.step id 4) (.start [35, 105, 10] false true)).handed =
      [[35, 105, 10], [97, 10], [35, 105, 10, 100, 10, 101, 10]] ∧
    ∀ buf ∈ (outgoingCalls.foldl (EagerOutgoing.step id 4) (.start [35, 105, 10] false true)).handed,
      Lines.Whole newline buf := by
  refine ⟨by decide +kernel, (outgoing_lineAligned 4 (by decide) false true ?_).2.1⟩
  intro data hdata
  simp only [outgoingCalls, List.mem_cons, OutgoingOp.writeOut.injEq, reduceCtorEq, false_or,
    List.not_mem_nil, or_false] at hdata
  rcases hdata with rfl | rfl | rfl | rfl
  all_goals decide

end Istatd
