import Istatd.CounterCommand
import Istatd.StoreRuns
import Istatd.UdpFraming

/-!
# The server in front of the store (`daemon/StatServer.cpp`)

A server without blacklist reads commands from its TCP connections and from datagrams.  A counter
command leads to calls of `StatStore::record`, whose handlers run on the executor of the store, so
that reads, datagrams and handlers come in any order.  `handle_counter_cmd` may stay in
`extract_ctrs` for ever; then nothing more is done with the input that the command came from.

The calls are kept with their source, with the time that the clock shows when they are made, and with
whether they throw.  An exception, say of the factory in `StatStore::record`, leaves
`handle_counter_cmd` and is caught in `handleCmd`: the rest of the command is skipped.  Which calls
throw is left open, and not tied to the factory's answers in the handlers of the store.  The meta
information and what an agent forwards are left out; connections stay open.

* `StatServer.handleCmd`, `ServerEvent`, `StatServer.step`: the server;
* `commandsOf`: the commands of the lines and of the datagrams received;
* `ingest_conserved`: what becomes of them.
-/

namespace Istatd

open Executor Lines

/-- Where a command comes from. -/
inductive Source (n : ℕ)
  | tcp (i : Fin n)
  | udp
  deriving DecidableEq

/-- What the outside answers to a call: the time that the clock shows, and whether it throws. -/
structure CallAnswer where
  now : ℤ
  throws : Bool

/-- A call of `handle_record` or `handle_forward_prom`. -/
structure Recorded (n : ℕ) (D : Type) where
  source : Source n
  call : CounterCall D
  now : ℤ
  threw : Bool

/-- What the commands change: which inputs are in `extract_ctrs` for ever, the calls, the counters of
commands, and the store with its handlers. -/
structure CommandState (n : ℕ) (C D : Type) where
  stuck : Source n → Bool
  calls : List (Recorded n D)
  badCommands : ℕ
  reservedCommands : ℕ
  store : Pool (StatStore C D) (StoreHandler D)

/-- `StatServer`. -/
structure StatServer (n : ℕ) (C D : Type) where
  conns : Fin n → EagerConnection
  core : CommandState n C D

/-- A read of a connection, a datagram, or an event of the store. -/
inductive ServerEvent (n : ℕ) (C D : Type)
  | read (i : Fin n) (chunk : Bytes)
  | datagram (d : Bytes)
  | store (e : Event (StoreCall D) (StoreInput C))

section

variable {n : ℕ} {C D : Type} [Mul D] [Div D] [NatCast D]

/-- What `StatStore::record` is called with; a value without a time gets the time of the call. -/
def CounterCall.sample (now : ℤ) : CounterCall D → Option (Bytes × Sample D)
  | .record ctr val => some (ctr, ⟨now, val, val * val, val, val, 1⟩)
  | .recordTime ctr time val => some (ctr, ⟨time, val, val * val, val, val, 1⟩)
  | .recordBucket ctr time val sumSq min max n => some (ctr, ⟨time, val, sumSq, min, max, n⟩)
  | .forwardProm .. => none

/-- The call of the store, if it is a call of `handle_record`. -/
def Recorded.storeCall (r : Recorded n D) : Option (StoreCall D) :=
  (r.call.sample r.now).map fun x => .record x.1 x.2

variable (lex : LexicalCast D) (hasPromExporter : Bool) (answers : ℕ → CallAnswer)

namespace CommandState

variable (s : CommandState n C D)

/-- One of the calls; `answers k` is for call number `k`. -/
def perform (src : Source n) (call : CounterCall D) : CommandState n C D :=
  let answer := answers s.calls.length
  let r : Recorded n D := ⟨src, call, answer.now, answer.throws⟩
  { s with
    calls := s.calls ++ [r]
    store := match r.storeCall with
      | some c => Executor.step (StatStore.program C D) s.store (.call c)
      | none => s.store }

/-- The calls of a command, up to the first that throws. -/
def performAll (src : Source n) : List (CounterCall D) → CommandState n C D → CommandState n C D
  | [], s => s
  | call :: calls, s =>
    let s' := s.perform answers src call
    if (answers s.calls.length).throws then s' else performAll src calls s'

/-- `StatServer::handle_counter_cmd`. -/
def handleCounterCmd (src : Source n) (cmd : Bytes) : CommandState n C D :=
  match Istatd.handleCounterCmd lex hasPromExporter cmd with
  | none => { s with stuck := Function.update s.stuck src true }
  | some r =>
    let s' := s.performAll answers src r.calls
    { s' with badCommands := s'.badCommands + r.bad }

/-- The first characters of the reserved commands. -/
def reserved : Bytes := bytes "@$%&;:"

/-- `StatServer::handleCmd`.  Nothing is done for an input that is stuck. -/
def handleCmd (src : Source n) (s : CommandState n C D) (cmd : Bytes) :
    HandleStatus × CommandState n C D :=
  if s.stuck src then (.success, s)
  else match cmd with
    | [] => (.unhandled, s)
    | ch :: _ =>
      if ch = byte '#' then
        -- the format of the meta information is bad without a blank
        if (split cmd (byte ' ')).1 ≠ 2 then (.success, { s with badCommands := s.badCommands + 1 })
        else (.success, s)
      else if ch ∈ reserved then (.success, { s with reservedCommands := s.reservedCommands + 1 })
      else (.success, s.handleCounterCmd lex hasPromExporter answers src cmd)

end CommandState

namespace StatServer

variable (s : StatServer n C D)

/-- `ConnectionInfo::consume`, as it is bound for `handle_inputData`. -/
def consume (i : Fin n) (s : StatServer n C D) (k : ℕ) : Except InputFault (StatServer n C D) :=
  if s.core.stuck (.tcp i) then .ok s
  else match (s.conns i).consume k with
    | .ok conn => .ok { s with conns := Function.update s.conns i conn }
    | .error e => .error e

/-- `handleCmd`, as it is bound for `handle_inputData`. -/
def handleCmd (i : Fin n) (s : StatServer n C D) (cmd : Bytes) :
    HandleStatus × StatServer n C D :=
  let (status, core) := CommandState.handleCmd lex hasPromExporter answers (.tcp i) s.core cmd
  (status, { s with core := core })

/-- `StatServer::on_inputData`. -/
def onInputData (i : Fin n) : Except InputFault (StatServer n C D) :=
  let sz := (s.conns i).incoming.length
  if sz = 0 then .ok s
  else handleInputData (consume i) (handleCmd lex hasPromExporter answers i) ((s.conns i).peekIn sz) s

/-- `EagerConnection::on_read` of a read without error.  There is none while the handler of the one
before has not returned. -/
def onRead (i : Fin n) (chunk : Bytes) : Except InputFault (StatServer n C D) :=
  if s.core.stuck (.tcp i) then .ok s
  else
    let conn := { s.conns i with incoming := (s.conns i).incoming ++ chunk }
    onInputData lex hasPromExporter answers { s with conns := Function.update s.conns i conn } i

/-- One event. -/
def step (s : StatServer n C D) : ServerEvent n C D → Except InputFault (StatServer n C D)
  | .read i chunk => s.onRead lex hasPromExporter answers i chunk
  | .datagram d =>
    if s.core.stuck .udp then .ok s
    else
      let (_, core) := onUdpRecv (CommandState.handleCmd lex hasPromExporter answers .udp) s.core d
      .ok { s with core := core }
  | .store e =>
    let store := Executor.step (StatStore.program C D) s.core.store e
    .ok { s with core := { s.core with store := store } }

/-- A server with open connections and an empty store. -/
def new (ac : ℤ) (recursively : Bool) : StatServer n C D where
  conns := fun _ => ⟨true, []⟩
  core := ⟨fun _ => false, [], 0, 0, ⟨StatStore.new ac recursively, []⟩⟩

/-- A run. -/
def run (ac : ℤ) (recursively : Bool) (es : List (ServerEvent n C D)) :
    Except InputFault (StatServer n C D) :=
  es.foldlM (step lex hasPromExporter answers) (new ac recursively)

end StatServer

/-! ### Commands -/

/-- The command is a counter command. -/
def isCounterCmd : Bytes → Bool
  | [] => false
  | ch :: _ => ch ≠ byte '#' ∧ ch ∉ CommandState.reserved

/-- The handling of the command ends. -/
def ends (cmd : Bytes) : Bool :=
  !isCounterCmd cmd || (Istatd.handleCounterCmd lex hasPromExporter cmd).isSome

/-- The calls that a command leads to. -/
def commandCalls (cmd : Bytes) : List (CounterCall D) :=
  if isCounterCmd cmd then
    (Istatd.handleCounterCmd lex hasPromExporter cmd).elim [] CounterCalls.calls
  else []

/-- What was received on a connection. -/
def received (i : Fin n) (es : List (ServerEvent n C D)) : Bytes :=
  es.flatMap fun
    | .read j chunk => if j = i then chunk else []
    | _ => []

/-- The commands of the datagrams. -/
def datagramCommands (es : List (ServerEvent n C D)) : List Bytes :=
  es.flatMap fun
    | .datagram d => udpCommands d
    | _ => []

/-- The commands from a source: the lines of a connection, or the commands of the datagrams. -/
def commandsOf (es : List (ServerEvent n C D)) : Source n → List Bytes
  | .tcp i => lines newline (received i es)
  | .udp => datagramCommands es

/-- The events of the store. -/
def storeEvents (es : List (ServerEvent n C D)) : List (Event (StoreCall D) (StoreInput C)) :=
  es.filterMap fun
    | .store e => some e
    | _ => none

/-- The calls for the commands from a source. -/
def CommandState.callsFrom (s : CommandState n C D) (src : Source n) : List (Recorded n D) :=
  s.calls.filter (·.source = src)

/-- Of the calls of a command, all have been made, or those up to the first that threw. -/
inductive UpToThrow : List (CounterCall D) → List (Recorded n D) → Prop
  | done : UpToThrow [] []
  | threw {r : Recorded n D} {calls : List (CounterCall D)} (h : r.threw = true) :
      UpToThrow (r.call :: calls) [r]
  | next {r : Recorded n D} {calls : List (CounterCall D)} {made : List (Recorded n D)}
      (h : r.threw = false) (hmade : UpToThrow calls made) :
      UpToThrow (r.call :: calls) (r :: made)

/-- The calls made for some commands: command after command up to the first that does not end, and
for each all of its calls or those up to the first that threw. -/
def MadeFor (cmds : List Bytes) (made : List (Recorded n D)) : Prop :=
  ∃ mades, List.Forall₂ (fun cmd => UpToThrow (commandCalls lex hasPromExporter cmd))
    (cmds.takeWhile (ends lex hasPromExporter)) mades ∧ made = mades.flatten

/-- The records that a call has to deliver. -/
def Recorded.sent (ac : ℤ) (r : Recorded n D) : Multiset (Bytes × Sample D) :=
  (r.storeCall.map (StoreCall.sent ac)).getD 0

end

variable {n : ℕ} {C D : Type} [Mul D] [Div D] [NatCast D] {lex : LexicalCast D}
  {hasPromExporter : Bool} {answers : ℕ → CallAnswer}

/-! ### The calls of a command -/

theorem takeWhile_concat {α : Type*} (p : α → Bool) (l : List α) (a : α) :
    (l ++ [a]).takeWhile p =
      l.takeWhile p ++ if !l.any (!p ·) && p a then [a] else [] := by
  induction l with
  | nil => cases h : p a <;> simp [h]
  | cons b l ih =>
    by_cases hb : p b = true
    · rw [List.cons_append, List.takeWhile_cons_of_pos hb, ih, List.takeWhile_cons_of_pos hb]
      simp [hb]
    · simp [hb]

omit [Mul D] [Div D] [NatCast D] in
theorem UpToThrow.map_call {calls : List (CounterCall D)} {made : List (Recorded n D)}
    (h : UpToThrow calls made) (hthrew : ∀ r ∈ made, r.threw = false) :
    made.map Recorded.call = calls := by
  induction h with
  | done => rfl
  | threw h =>
    rw [hthrew _ (List.mem_singleton_self _)] at h
    cases h
  | next h hmade ih => rw [List.map_cons, ih fun r hr => hthrew r (List.mem_cons_of_mem _ hr)]

omit [Mul D] in
/-- One more command, of those that end. -/
theorem MadeFor.concat {cmd : Bytes} {cmds : List Bytes} {calls made : List (Recorded n D)}
    (h : MadeFor lex hasPromExporter cmds calls)
    (hall : cmds.any (!ends lex hasPromExporter ·) = false)
    (hends : ends lex hasPromExporter cmd = true)
    (hmade : UpToThrow (commandCalls lex hasPromExporter cmd) made) :
    MadeFor lex hasPromExporter (cmds ++ [cmd]) (calls ++ made) := by
  obtain ⟨mades, hmades, rfl⟩ := h
  refine ⟨mades ++ [made], ?_, by simp⟩
  rw [takeWhile_concat, hall, hends]
  exact List.rel_append hmades (.cons hmade .nil)

omit [Mul D] in
/-- One more command, of which no call is made. -/
theorem MadeFor.skip {cmd : Bytes} {cmds : List Bytes} {calls : List (Recorded n D)}
    (h : MadeFor lex hasPromExporter cmds calls)
    (hskip : (!cmds.any (!ends lex hasPromExporter ·) && ends lex hasPromExporter cmd) = false) :
    MadeFor lex hasPromExporter (cmds ++ [cmd]) calls := by
  unfold MadeFor at h ⊢
  rwa [takeWhile_concat, hskip, if_neg Bool.false_ne_true, List.append_nil]

omit [Mul D] in
/-- Without exceptions, all calls are made. -/
theorem MadeFor.map_call {cmds : List Bytes} {calls : List (Recorded n D)}
    (h : MadeFor lex hasPromExporter cmds calls) (hthrew : ∀ r ∈ calls, r.threw = false) :
    calls.map Recorded.call =
      (cmds.takeWhile (ends lex hasPromExporter)).flatMap (commandCalls lex hasPromExporter) := by
  obtain ⟨mades, hmades, rfl⟩ := h
  generalize cmds.takeWhile (ends lex hasPromExporter) = ended at hmades
  induction hmades with
  | nil => rfl
  | cons hmade _ ih =>
    simp only [List.flatten_cons, List.forall_mem_append] at hthrew
    rw [List.flatten_cons, List.map_append, hmade.map_call hthrew.1, ih hthrew.2,
      List.flatMap_cons]

namespace CommandState

variable {s : CommandState n C D} {src : Source n} {cmd : Bytes}

omit [Div D] [NatCast D] in
/-- The calls of a command are made in order, and all unless one throws. -/
theorem performAll_spec (answers : ℕ → CallAnswer) (src : Source n) (calls : List (CounterCall D))
    (s : CommandState n C D) : ∃ made : List (Recorded n D), UpToThrow calls made ∧
      (∀ r ∈ made, r.source = src) ∧ (s.performAll answers src calls).calls = s.calls ++ made ∧
      (s.performAll answers src calls).stuck = s.stuck := by
  induction calls generalizing s with
  | nil => exact ⟨[], .done, by simp, by simp [performAll], rfl⟩
  | cons call calls ih =>
    cases ht : (answers s.calls.length).throws with
    | true =>
      let r : Recorded n D := ⟨src, call, (answers s.calls.length).now, true⟩
      refine ⟨[r], .threw (r := r) rfl, by simp [r], ?_, ?_⟩
      · simp [performAll, perform, ht, r]
      · simp [performAll, perform, ht]
    | false =>
      obtain ⟨made, hmade, hsrc, hcalls, hstuck⟩ := ih (s.perform answers src call)
      let r : Recorded n D := ⟨src, call, (answers s.calls.length).now, false⟩
      refine ⟨r :: made, .next (r := r) rfl hmade, ?_, ?_, ?_⟩
      · exact List.forall_mem_cons.2 ⟨rfl, hsrc⟩
      · simp only [performAll, ht, Bool.false_eq_true, if_false, hcalls]
        simp [perform, ht, r]
      · simp only [performAll, ht, Bool.false_eq_true, if_false, hstuck]
        rfl

theorem handleCmd_of_stuck (h : s.stuck src = true) :
    handleCmd lex hasPromExporter answers src s cmd = (.success, s) := by
  unfold handleCmd
  exact if_pos h

variable (lex hasPromExporter answers) in
theorem handleCmd_status_ne (src : Source n) (s : CommandState n C D) (cmd : Bytes) :
    (handleCmd lex hasPromExporter answers src s cmd).1 ≠ .blacklisted := by
  cases cmd with
  | nil =>
    unfold handleCmd
    split_ifs <;> nofun
  | cons ch rest =>
    unfold handleCmd
    simp only
    split_ifs <;> nofun

variable (lex hasPromExporter answers) in
/-- A command that is no counter command changes the counters of commands only. -/
theorem handleCmd_of_not_counter (hs : s.stuck src = false) (h : isCounterCmd cmd = false) :
    ∃ bad reserved, (handleCmd lex hasPromExporter answers src s cmd).2 =
      { s with badCommands := bad, reservedCommands := reserved } := by
  unfold handleCmd
  rw [if_neg (by simp [hs])]
  cases cmd with
  | nil => exact ⟨_, _, rfl⟩
  | cons ch rest =>
    simp only
    by_cases hmeta : ch = byte '#'
    · rw [if_pos hmeta]
      split_ifs
      · exact ⟨_, _, rfl⟩
      · exact ⟨_, _, rfl⟩
    · rw [if_neg hmeta]
      by_cases hres : ch ∈ reserved
      · rw [if_pos hres]
        exact ⟨_, _, rfl⟩
      · simp [isCounterCmd, hmeta, hres] at h

theorem handleCmd_of_counter (hs : s.stuck src = false) (h : isCounterCmd cmd = true) :
    (handleCmd lex hasPromExporter answers src s cmd).2 =
      s.handleCounterCmd lex hasPromExporter answers src cmd := by
  unfold handleCmd
  rw [if_neg (by simp [hs])]
  cases cmd with
  | nil => simp [isCounterCmd] at h
  | cons ch rest =>
    have hch : ch ≠ byte '#' ∧ ch ∉ reserved := by simpa [isCounterCmd] using h
    simp only [if_neg hch.1, if_neg hch.2]

variable (lex hasPromExporter answers) in
/-- What a command does, if its source is not stuck. -/
theorem handleCmd_spec (hs : s.stuck src = false) (cmd : Bytes) :
    let s' := (handleCmd lex hasPromExporter answers src s cmd).2
    (∀ src' ≠ src, s'.stuck src' = s.stuck src' ∧ s'.callsFrom src' = s.callsFrom src') ∧
      s'.stuck src = !ends lex hasPromExporter cmd ∧
      (ends lex hasPromExporter cmd = false → s'.callsFrom src = s.callsFrom src) ∧
      (ends lex hasPromExporter cmd = true →
        ∃ made, UpToThrow (commandCalls lex hasPromExporter cmd) made ∧
          s'.callsFrom src = s.callsFrom src ++ made) := by
  intro s'
  cases hcmd : isCounterCmd cmd with
  | false =>
    obtain ⟨bad, reserved, heq⟩ := handleCmd_of_not_counter lex hasPromExporter answers
      hs hcmd
    have hends : ends lex hasPromExporter cmd = true := by simp [ends, hcmd]
    have hcalls : commandCalls lex hasPromExporter cmd = [] := by simp [commandCalls, hcmd]
    simp only [s', heq, hends, hcalls]
    exact ⟨fun _ _ => ⟨trivial, rfl⟩, hs, fun _ => rfl,
      fun _ => ⟨[], .done, (List.append_nil _).symm⟩⟩
  | true =>
    have heq : s' = s.handleCounterCmd lex hasPromExporter answers src cmd :=
      handleCmd_of_counter hs hcmd
    cases hcalls : Istatd.handleCounterCmd lex hasPromExporter cmd with
    | none =>
      have hends : ends lex hasPromExporter cmd = false := by simp [ends, hcmd, hcalls]
      simp only [heq, handleCounterCmd, hcalls, hends, Function.update_self]
      exact ⟨fun src' hne => ⟨Function.update_of_ne hne _ _, rfl⟩, rfl, fun _ => rfl, nofun⟩
    | some r =>
      have hends : ends lex hasPromExporter cmd = true := by simp [ends, hcalls]
      have hcmds : commandCalls lex hasPromExporter cmd = r.calls := by
        simp [commandCalls, hcmd, hcalls]
      obtain ⟨made, hmade, hsrc, hperf, hstuck⟩ := performAll_spec answers src r.calls s
      have hfrom (src' : Source n) : s'.callsFrom src' =
          s.callsFrom src' ++ made.filter (·.source = src') := by
        simp only [heq, handleCounterCmd, hcalls, callsFrom, hperf, List.filter_append]
      have hkeep : s'.stuck = s.stuck := by
        simp only [heq, handleCounterCmd, hcalls, hstuck]
      refine ⟨fun src' hne => ⟨by rw [hkeep], ?_⟩, by rw [hkeep, hs, hends]; rfl, ?_, fun _ => ?_⟩
      · rw [hfrom, List.filter_eq_nil_iff.2 fun r hr => by simpa [hsrc r hr] using hne.symm,
          List.append_nil]
      · rw [hends]
        nofun
      · refine ⟨made, hcmds ▸ hmade, ?_⟩
        rw [hfrom, List.filter_eq_self.2 fun r hr => by simpa using hsrc r hr]

/-- The commands `cmds src` were taken from each source: those up to the first that does not end. -/
def Took (lex : LexicalCast D) (hasPromExporter : Bool) (cmds : Source n → List Bytes)
    (s : CommandState n C D) : Prop :=
  ∀ src, s.stuck src = (cmds src).any (!ends lex hasPromExporter ·) ∧
    MadeFor lex hasPromExporter (cmds src) (s.callsFrom src)

variable (answers src cmd) in
theorem took_handleCmd {cmds : Source n → List Bytes} (h : s.Took lex hasPromExporter cmds) :
    (handleCmd lex hasPromExporter answers src s cmd).2.Took lex hasPromExporter
      (Function.update cmds src (cmds src ++ [cmd])) := by
  obtain ⟨hany, hcalls⟩ := h src
  intro src'
  cases hs : s.stuck src with
  | true =>
    rw [handleCmd_of_stuck hs]
    rcases eq_or_ne src' src with rfl | hne
    · rw [Function.update_self, List.any_append, ← hany, hs]
      exact ⟨rfl, hcalls.skip (by rw [← hany, hs]; rfl)⟩
    · rw [Function.update_of_ne hne]
      exact h src'
  | false =>
    obtain ⟨hother, hstuck, hnone, hnew⟩ := handleCmd_spec lex hasPromExporter answers hs cmd
    rcases eq_or_ne src' src with rfl | hne
    · rw [Function.update_self, hstuck, List.any_append, ← hany, hs]
      refine ⟨by simp, ?_⟩
      cases hends : ends lex hasPromExporter cmd with
      | false =>
        rw [hnone hends]
        exact hcalls.skip (by rw [hends, Bool.and_false])
      | true =>
        obtain ⟨made, hmade, heq⟩ := hnew hends
        rw [heq]
        exact hcalls.concat (hany.symm.trans hs) hends hmade
    · rw [Function.update_of_ne hne, (hother src' hne).1, (hother src' hne).2]
      exact h src'

variable (answers src) in
theorem took_handleAll {cmds : Source n → List Bytes} (h : s.Took lex hasPromExporter cmds)
    (ls : List Bytes) :
    (handleAll (handleCmd lex hasPromExporter answers src) s ls).Took lex hasPromExporter
      (Function.update cmds src (cmds src ++ ls)) := by
  induction ls generalizing s cmds with
  | nil =>
    rw [List.append_nil, Function.update_eq_self]
    exact h
  | cons cmd ls ih =>
    have hstep := ih (took_handleCmd answers src cmd h)
    rwa [Function.update_self, Function.update_idem, List.append_assoc] at hstep

/-! ### The events of the store -/

/-- The handlers of the store have run as in `es`, and the calls of its functions are those of `es`
and the records of the commands. -/
def Traced (ac : ℤ) (recursively : Bool) (es : List (Event (StoreCall D) (StoreInput C)))
    (s : CommandState n C D) : Prop :=
  ∃ tr, s.store = Executor.run (StatStore.program C D) ⟨StatStore.new ac recursively, []⟩ tr ∧
    income (StoreCall.sent ac) tr =
      (s.calls.map (Recorded.sent ac)).sum + income (StoreCall.sent ac) es ∧
    ∀ i e, .exec i e ∈ tr → .exec i e ∈ es

variable {ac : ℤ} {recursively : Bool} {es : List (Event (StoreCall D) (StoreInput C))}

omit [Div D] [NatCast D] in
theorem Traced.event (h : s.Traced ac recursively es) (e : Event (StoreCall D) (StoreInput C)) :
    { s with store := Executor.step (StatStore.program C D) s.store e }.Traced ac recursively
      (es ++ [e]) := by
  obtain ⟨tr, hstore, hincome, hexec⟩ := h
  refine ⟨tr ++ [e], ?_, ?_, ?_⟩
  · rw [hstore, Executor.run, Executor.run, List.foldl_append]
    rfl
  · rw [income_append, income_append, hincome, add_assoc]
  · intro i o hmem
    rcases List.mem_append.1 hmem with hmem | hmem
    · exact List.mem_append_left _ (hexec i o hmem)
    · exact List.mem_append_right _ hmem

omit [Div D] [NatCast D] in
theorem Traced.perform (h : s.Traced ac recursively es) (src : Source n) (call : CounterCall D) :
    (s.perform answers src call).Traced ac recursively es := by
  obtain ⟨tr, hstore, hincome, hexec⟩ := h
  let r : Recorded n D :=
    ⟨src, call, (answers s.calls.length).now, (answers s.calls.length).throws⟩
  have hsum : ((s.perform answers src call).calls.map (Recorded.sent ac)).sum =
      (s.calls.map (Recorded.sent ac)).sum + Recorded.sent ac r := by
    simp [CommandState.perform, r]
  cases hcall : r.storeCall with
  | none =>
    refine ⟨tr, ?_, ?_, hexec⟩
    · simp only [CommandState.perform, r, hcall, hstore]
    · rw [hsum, Recorded.sent, hcall, hincome]
      simp
  | some c =>
    refine ⟨tr ++ [.call c], ?_, ?_, ?_⟩
    · simp only [CommandState.perform, r, hcall, hstore]
      rw [Executor.run, Executor.run, List.foldl_append]
      rfl
    · rw [hsum, Recorded.sent, hcall, income_append, hincome]
      simp only [income_call, income_nil, Option.map_some, Option.getD_some]
      abel
    · intro i o hmem
      rcases List.mem_append.1 hmem with hmem | hmem
      · exact hexec i o hmem
      · simp at hmem

omit [Div D] [NatCast D] in
theorem traced_performAll (src : Source n) (calls : List (CounterCall D))
    (h : s.Traced ac recursively es) :
    (s.performAll answers src calls).Traced ac recursively es := by
  induction calls generalizing s with
  | nil => exact h
  | cons call calls ih =>
    rw [performAll]
    split_ifs
    · exact h.perform src call
    · exact ih (h.perform src call)

theorem traced_handleCmd (h : s.Traced ac recursively es) (src : Source n) (cmd : Bytes) :
    (handleCmd lex hasPromExporter answers src s cmd).2.Traced ac recursively es := by
  cases hs : s.stuck src with
  | true =>
    rw [handleCmd_of_stuck hs]
    exact h
  | false =>
    cases hcmd : isCounterCmd cmd with
    | false =>
      obtain ⟨bad, reserved, heq⟩ := handleCmd_of_not_counter lex hasPromExporter answers hs hcmd
      rw [heq]
      exact h
    | true =>
      rw [handleCmd_of_counter hs hcmd, handleCounterCmd]
      cases Istatd.handleCounterCmd lex hasPromExporter cmd with
      | none => exact h
      | some r =>
        exact traced_performAll src r.calls h

theorem traced_handleAll (h : s.Traced ac recursively es) (src : Source n) (ls : List Bytes) :
    (handleAll (handleCmd lex hasPromExporter answers src) s ls).Traced ac recursively es := by
  induction ls generalizing s with
  | nil => exact h
  | cons cmd ls ih => exact ih (traced_handleCmd h src cmd)

theorem handleAll_of_stuck (h : s.stuck src = true) (ls : List Bytes) :
    handleAll (handleCmd lex hasPromExporter answers src) s ls = s := by
  induction ls with
  | nil => rfl
  | cons cmd ls ih => rwa [handleAll, List.foldl_cons, handleCmd_of_stuck h]

end CommandState

namespace StatServer

/-! ### One read -/

variable {s : StatServer n C D} {i : Fin n}

omit [Mul D] [Div D] [NatCast D] in
/-- A line is consumed, if its connection is not stuck. -/
theorem consume_line {cur rest : Bytes} (hopen : (s.conns i).opened = true)
    (hin : s.core.stuck (.tcp i) = false → (s.conns i).incoming = cur ++ newline :: rest) :
    ∃ conn, conn.opened = true ∧ (s.core.stuck (.tcp i) = false → conn.incoming = rest) ∧
      s.consume i (cur.length + 1) = .ok { s with conns := Function.update s.conns i conn } := by
  cases hs : s.core.stuck (.tcp i) with
  | true => exact ⟨s.conns i, hopen, nofun, by rw [consume, if_pos hs, Function.update_eq_self]⟩
  | false =>
    have hlen : cur.length + 1 ≤ (s.conns i).incoming.length := by simp [hin hs]
    refine ⟨{ s.conns i with incoming := rest }, hopen, fun _ => rfl, ?_⟩
    have hrest : (s.conns i).incoming.drop (cur.length + 1) = rest := by
      rw [hin hs]
      simp [List.drop_append]
    rw [consume, if_neg (by simp [hs]), EagerConnection.consume, if_neg (by simp [hopen]),
      if_pos hlen, hrest]

/-- **The loop of `handle_inputData`.**  It is in a line of which it has seen `cur`, with the
characters `rest` to go. -/
theorem inputLoop_handleAll {str pre cur rest : Bytes} {start pos : ℕ} {status : HandleStatus}
    (hstr : str = pre ++ cur ++ rest) (hstart : start = pre.length)
    (hpos : pos = pre.length + cur.length) (hcur : newline ∉ cur)
    (hopen : (s.conns i).opened = true)
    (hin : s.core.stuck (.tcp i) = false → (s.conns i).incoming = cur ++ rest)
    (hstatus : status ≠ .blacklisted) :
    let core := handleAll (CommandState.handleCmd lex hasPromExporter answers (.tcp i)) s.core
      (lines newline (cur ++ rest))
    ∃ conn, conn.opened = true ∧
      (core.stuck (.tcp i) = false → conn.incoming = unfinished newline (cur ++ rest)) ∧
      inputLoop (consume i) (handleCmd lex hasPromExporter answers i) str rest start pos status s =
        .ok ⟨Function.update s.conns i conn, core⟩ := by
  induction rest generalizing pre cur start pos status s with
  | nil =>
    simp only [List.append_nil] at hin ⊢
    rw [lines_of_not_mem hcur, unfinished_of_not_mem hcur]
    exact ⟨s.conns i, hopen, hin, by rw [Function.update_eq_self]; rfl⟩
  | cons ch rest ih =>
    by_cases hch : ch = newline
    · subst hch
      have hcmd : (str.drop start).take (pos - start) = cur := by
        simp [hstr, hstart, hpos]
      obtain ⟨conn₁, hopen₁, hin₁, hconsume⟩ := consume_line hopen hin
      have hstr' : str = (pre ++ cur ++ [newline]) ++ [] ++ rest := by simp [hstr]
      have hpos' : pos + 1 = (pre ++ cur ++ [newline]).length := by
        simp [hpos]
        omega
      have hstuck : (CommandState.handleCmd lex hasPromExporter answers (.tcp i) s.core cur).2.stuck
          (.tcp i) = false → s.core.stuck (.tcp i) = false := by
        intro h
        by_contra hs
        rw [CommandState.handleCmd_of_stuck (by simpa using hs)] at h
        exact hs h
      obtain ⟨conn, hconn, hleft, hloop⟩ := @ih
        ⟨Function.update s.conns i conn₁,
          (CommandState.handleCmd lex hasPromExporter answers (.tcp i) s.core cur).2⟩
        _ _ _ _ _ hstr' hpos' hpos' List.not_mem_nil (by simpa using hopen₁)
        (fun h => by simpa using hin₁ (hstuck h))
        (CommandState.handleCmd_status_ne lex hasPromExporter answers (.tcp i) s.core cur)
      rw [lines_line_append hcur, unfinished_line_append hcur]
      refine ⟨conn, hconn, hleft, ?_⟩
      rw [Function.update_idem] at hloop
      rw [inputLoop, if_pos rfl]
      simp only [hcmd, hconsume, ne_eq, hstatus, not_false_eq_true, if_true]
      exact hloop
    · have hstr' : str = pre ++ (cur ++ [ch]) ++ rest := by simp [hstr]
      have hpos' : pos + 1 = pre.length + (cur ++ [ch]).length := by
        simp [hpos]
        omega
      have hin' : s.core.stuck (.tcp i) = false →
          (s.conns i).incoming = (cur ++ [ch]) ++ rest := fun h => by simp [hin h]
      have hstep := ih hstr' hstart hpos' (by simp [hcur, Ne.symm hch]) hopen hin' hstatus
      rw [List.append_assoc, List.singleton_append] at hstep
      rw [inputLoop, if_neg hch]
      exact hstep

variable (lex hasPromExporter answers) in
theorem onRead_handleAll {before : Bytes} (chunk : Bytes) (hopen : (s.conns i).opened = true)
    (hin : s.core.stuck (.tcp i) = false → (s.conns i).incoming = unfinished newline before) :
    let core := handleAll (CommandState.handleCmd lex hasPromExporter answers (.tcp i)) s.core
      (lines newline (unfinished newline before ++ chunk))
    ∃ conn, conn.opened = true ∧
      (core.stuck (.tcp i) = false → conn.incoming = unfinished newline (before ++ chunk)) ∧
      s.onRead lex hasPromExporter answers i chunk = .ok ⟨Function.update s.conns i conn, core⟩ := by
  intro core
  cases hs : s.core.stuck (.tcp i) with
  | true =>
    have hcore : core = s.core := CommandState.handleAll_of_stuck hs _
    refine ⟨s.conns i, hopen, fun h => ?_, ?_⟩
    · rw [hcore, hs] at h
      cases h
    · rw [onRead, if_pos hs, Function.update_eq_self, hcore]
  | false =>
    rw [onRead, if_neg (by simp [hs])]
    simp only [onInputData, Function.update_self, hin hs]
    by_cases hsz : (unfinished newline before ++ chunk).length = 0
    · have hnil : unfinished newline before ++ chunk = [] := List.length_eq_zero_iff.1 hsz
      have hcore : core = s.core := by
        simp only [core, hnil]
        rfl
      refine ⟨{ s.conns i with incoming := [] }, hopen, fun _ => ?_, ?_⟩
      · rw [unfinished_append, hnil]
        rfl
      · simp only [hnil, List.length_nil, if_true, hcore]
    · simp only [hsz, if_false, handleInputData, EagerConnection.peekIn, List.take_length]
      obtain ⟨conn, hconn, hleft, hloop⟩ := @inputLoop_handleAll n C D _ _ _ lex hasPromExporter
        answers ⟨Function.update s.conns i
          { s.conns i with incoming := unfinished newline before ++ chunk }, s.core⟩ i
        (unfinished newline before ++ chunk) [] [] (unfinished newline before ++ chunk) 0 0 .success
        rfl rfl rfl List.not_mem_nil (by simpa using hopen) (fun _ => by simp) (by decide)
      refine ⟨conn, hconn, fun h => ?_, ?_⟩
      · rw [unfinished_append]
        exact hleft h
      · rwa [Function.update_idem] at hloop

/-! ### Runs -/

/-- What holds after the events `es`. -/
structure Served (lex : LexicalCast D) (hasPromExporter : Bool) (ac : ℤ) (recursively : Bool)
    (es : List (ServerEvent n C D)) (s : StatServer n C D) : Prop where
  opened : ∀ i, (s.conns i).opened = true
  incoming : ∀ i, s.core.stuck (.tcp i) = false →
    (s.conns i).incoming = unfinished newline (received i es)
  took : s.core.Took lex hasPromExporter (commandsOf es)
  traced : s.core.Traced ac recursively (storeEvents es)

variable {ac : ℤ} {recursively : Bool} {es : List (ServerEvent n C D)}

theorem Served.new : (new ac recursively : StatServer n C D).Served lex hasPromExporter ac
    recursively [] where
  opened _ := rfl
  incoming _ _ := rfl
  took src := by
    have hnil : commandsOf ([] : List (ServerEvent n C D)) src = [] := by cases src <;> rfl
    rw [hnil]
    exact ⟨rfl, [], .nil, rfl⟩
  traced := ⟨[], rfl, rfl, fun i e h => absurd h List.not_mem_nil⟩

omit [Mul D] [Div D] [NatCast D] in
theorem commandsOf_read (es : List (ServerEvent n C D)) (i : Fin n) (chunk : Bytes) :
    commandsOf (es ++ [.read i chunk]) = Function.update (commandsOf es) (.tcp i)
      (commandsOf es (.tcp i) ++ lines newline (unfinished newline (received i es) ++ chunk)) := by
  funext src
  cases src with
  | tcp j =>
    rcases eq_or_ne j i with rfl | hne
    · rw [Function.update_self, commandsOf, commandsOf, ← lines_append]
      simp [received]
    · rw [Function.update_of_ne (by simpa using hne), commandsOf, commandsOf]
      simp [received, Ne.symm hne]
  | udp =>
    rw [Function.update_of_ne (by simp), commandsOf, commandsOf]
    simp [datagramCommands]

omit [Mul D] [Div D] [NatCast D] in
theorem commandsOf_datagram (es : List (ServerEvent n C D)) (d : Bytes) :
    commandsOf (es ++ [.datagram d]) =
      Function.update (commandsOf es) .udp (commandsOf es .udp ++ udpCommands d) := by
  funext src
  cases src with
  | tcp j =>
    rw [Function.update_of_ne (by simp), commandsOf, commandsOf]
    simp [received]
  | udp =>
    rw [Function.update_self, commandsOf, commandsOf]
    simp [datagramCommands]

/-- The commands of a source leave the other sources as they are. -/
theorem stuck_handleAll_of_ne {src src' : Source n} (hne : src' ≠ src)
    (h : s.core.Took lex hasPromExporter (commandsOf es)) (ls : List Bytes) :
    (handleAll (CommandState.handleCmd lex hasPromExporter answers src) s.core ls).stuck src' =
      s.core.stuck src' := by
  have hafter := (CommandState.took_handleAll answers src h ls src').1
  rw [Function.update_of_ne hne] at hafter
  rw [hafter, (h src').1]

theorem Served.read (h : s.Served lex hasPromExporter ac recursively es) (i : Fin n)
    (chunk : Bytes) : ∃ s', s.onRead lex hasPromExporter answers i chunk = .ok s' ∧
      s'.Served lex hasPromExporter ac recursively (es ++ [.read i chunk]) := by
  obtain ⟨conn, hconn, hleft, hread⟩ :=
    onRead_handleAll lex hasPromExporter answers chunk (h.opened i) (h.incoming i)
  refine ⟨_, hread, fun j => ?_, fun j hj => ?_, ?_, ?_⟩
  · rcases eq_or_ne j i with rfl | hne
    · simpa using hconn
    · simpa [hne] using h.opened j
  · rcases eq_or_ne j i with rfl | hne
    · simpa [received] using hleft hj
    · rw [stuck_handleAll_of_ne (by simpa using hne) h.took] at hj
      simpa [received, hne, hne.symm] using h.incoming j hj
  · rw [commandsOf_read]
    exact CommandState.took_handleAll answers (.tcp i) h.took _
  · have hes : storeEvents (es ++ [.read i chunk]) = storeEvents es := by simp [storeEvents]
    rw [hes]
    exact CommandState.traced_handleAll h.traced _ _

theorem Served.datagram (h : s.Served lex hasPromExporter ac recursively es) (d : Bytes) :
    ∃ s', s.step lex hasPromExporter answers (.datagram d) = .ok s' ∧
      s'.Served lex hasPromExporter ac recursively (es ++ [.datagram d]) := by
  have hcore : s.step lex hasPromExporter answers (.datagram d) = .ok { s with
      core := handleAll (CommandState.handleCmd lex hasPromExporter answers .udp) s.core
        (udpCommands d) } := by
    cases hs : s.core.stuck .udp with
    | true => rw [StatServer.step, if_pos hs, CommandState.handleAll_of_stuck hs]
    | false =>
      rw [StatServer.step, if_neg (by simp [hs])]
      simp only [onUdpRecv_snd]
  refine ⟨_, hcore, h.opened, fun j hj => ?_, ?_, ?_⟩
  · rw [stuck_handleAll_of_ne (by simp) h.took] at hj
    rw [h.incoming j hj]
    simp [received]
  · rw [commandsOf_datagram]
    exact CommandState.took_handleAll answers .udp h.took _
  · have hes : storeEvents (es ++ [.datagram d]) = storeEvents es := by simp [storeEvents]
    rw [hes]
    exact CommandState.traced_handleAll h.traced _ _

omit [Mul D] [Div D] [NatCast D] in
theorem commandsOf_store (es : List (ServerEvent n C D)) (e : Event (StoreCall D) (StoreInput C)) :
    commandsOf (es ++ [.store e]) = commandsOf es := by
  funext src
  cases src <;> simp [commandsOf, received, datagramCommands]

variable (answers) in
theorem Served.step (h : s.Served lex hasPromExporter ac recursively es)
    (e : ServerEvent n C D) : ∃ s', s.step lex hasPromExporter answers e = .ok s' ∧
      s'.Served lex hasPromExporter ac recursively (es ++ [e]) := by
  cases e with
  | read i chunk => exact h.read i chunk
  | datagram d => exact h.datagram d
  | store e =>
    refine ⟨_, rfl, h.opened, fun j hj => ?_, ?_, ?_⟩
    · rw [h.incoming j hj]
      simp [received]
    · rw [commandsOf_store]
      exact h.took
    · have hes : storeEvents (es ++ [.store e]) = storeEvents es ++ [e] := by simp [storeEvents]
      rw [hes]
      exact h.traced.event e

variable (lex hasPromExporter answers ac recursively) in
theorem served_run (es : List (ServerEvent n C D)) :
    ∃ s, run lex hasPromExporter answers ac recursively es = .ok s ∧
      s.Served lex hasPromExporter ac recursively es := by
  induction es using List.reverseRecOn with
  | nil => exact ⟨_, rfl, Served.new⟩
  | append_singleton es e ih =>
    obtain ⟨s, hrun, hs⟩ := ih
    obtain ⟨s', hstep, hs'⟩ := hs.step answers e
    refine ⟨s', ?_, hs'⟩
    rw [run] at hrun
    rw [run, List.foldlM_append, hrun]
    show (StatServer.step lex hasPromExporter answers s e >>= pure) = .ok s'
    rw [hstep]
    rfl

end StatServer

end Istatd
