import Istatd.Collation

/-!
# A counter after `purge`

`deleteCounter` replaces the counter in the store and posts `purge`, which backs up the files and
empties `counters_`.  Calls that had been posted with the old counter may still run after it, and so
does the destructor.  What these do with an empty `counters_` is written here: `counters_.begin()`
dereferenced and `counters_[0]` are failures, and the loops over `counters_` do nothing.

The window, `isCollated_` and `collationInterval_` are as `purge` found them.  A `StatCounter` still
stands for them; its files are not in `counters_` any more and no function below uses them.

* `PurgedCounter.step`: the calls after `purge`;
* `Strand.step`: the calls on a counter before and after;
* `noUseAfterPurge_iff`: the orders of calls that do not use an empty `counters_`.
-/

namespace Istatd

open FloatArith

/-- A call posted on the strand of a counter.  A record comes with `debugRejectedCounters` and with
the answer of `shouldLog` at its time. -/
inductive StrandOp (D : Type)
  | record (now time : ℤ) (value valueSq min max : D) (cnt : ℕ) (debug shouldLog : Bool)
  | flush (now : ℤ)
  | forceFlush (now : ℤ)
  | maybeShiftCollated (now t : ℤ)
  | select (now startTime endTime : ℤ) (trailing : Bool)
  | purge (now : ℤ)

/-- What can go wrong on the strand: a use of the first element of an empty `counters_`, or a fault
of the counter itself. -/
inductive StrandFault
  | emptyCounters
  | counter (fault : Fault)
  deriving DecidableEq

variable {D F : Type} [FloatArith D F]

/-- A counter with an empty `counters_`. -/
structure PurgedCounter (D F : Type) where
  window : StatCounter D F

namespace PurgedCounter

variable (c : PurgedCounter D F)

/-- `StatCounter::shiftCollated`, which returns false or writes the window to the first file. -/
def shiftCollated : Except StrandFault Bool :=
  if (c.window.collations 0).time = 0 then .ok false else .error .emptyCounters

/-- `StatCounter::maybeShiftCollated`.  The loop ends when `shiftCollated` returns false. -/
def maybeShiftCollated (t : ℤ) : Except StrandFault (PurgedCounter D F) :=
  if c.window.isCollated ∧ (c.window.collations 4).time + c.window.collationInterval ≤ t then
    match c.shiftCollated with
    | .ok _ => .ok c
    | .error e => .error e
  else .ok c

/-- `StatCounter::fullyShiftCollated`. -/
def fullyShiftCollated : Except StrandFault (PurgedCounter D F) :=
  c.maybeShiftCollated ((c.window.collations 4).time + c.window.collationInterval * 5)

/-- A rejected record, which logs the name of the first file if it logs. -/
def reject (log : Bool) : Except StrandFault (PurgedCounter D F) :=
  if log then .error .emptyCounters else .ok c

/-- The window after `record` has made place for a quantum in it. -/
def shiftFor (time : ℤ) : Except StrandFault (PurgedCounter D F) :=
  if (c.window.findCollationIndex time).isSome then .ok c
  else if (c.window.collations 0).time = 0 then .ok ⟨c.window.initCollations time⟩
  else c.maybeShiftCollated time

/-- The end of a collated `record`: on power-of-two updates the first file is written. -/
def addCollated (now time : ℤ) (v : D) : Except StrandFault (PurgedCounter D F) :=
  match c.window.findCollationIndex time with
  | none => .error (.counter .collationIndex)
  | some i =>
    let writes := (c.window.collations i).writes + 1
    if writes &&& (writes - 1) = 0 then .error .emptyCounters
    else .ok ⟨c.window.addCollated now i time v⟩

/-- `StatCounter::record` of a collated counter. -/
def recordCollated (now time : ℤ) (value : D) (debug shouldLog : Bool) :
    Except StrandFault (PurgedCounter D F) :=
  if now + c.window.collationInterval < time then c.reject debug
  else if time < (c.window.collations 0).time then c.reject (debug && shouldLog)
  else
    let time := time - time.tmod c.window.collationInterval
    match c.shiftFor time with
    | .ok c' => c'.addCollated now time (div F value (ofInt F c.window.collationInterval))
    | .error e => .error e

/-- `StatCounter::record` of a gauge: there is no file to update. -/
def recordGauge (now time : ℤ) (value min max : D) (cnt : ℕ) (debug : Bool) :
    Except StrandFault (PurgedCounter D F) :=
  if StatCounter.AdmitsGauge F now time value min max cnt then .ok c else c.reject debug

/-- `StatCounter::flush`. -/
def flush (now : ℤ) : Except StrandFault (PurgedCounter D F) :=
  c.maybeShiftCollated (now + c.window.collationInterval * 2)

/-- `StatCounter::forceFlush`. -/
def forceFlush (now : ℤ) : Except StrandFault (PurgedCounter D F) :=
  match c.fullyShiftCollated with
  | .ok c' => c'.flush now
  | .error e => .error e

/-- The range `StatCounter::select` is asked for, with its defaults. -/
def selectRange (now startTime endTime : ℤ) : ℤ × ℤ :=
  if endTime = 0 ∧ startTime = 0 then (now - 900, now)
  else if endTime = 0 then (startTime, startTime + 900)
  else if startTime = 0 then (endTime - 900, endTime)
  else (startTime, endTime)

/-- `StatCounter::select`: `pickStatFile` finds no file and looks at the last time of the first. -/
def select (now startTime endTime : ℤ) (trailing : Bool) : Except StrandFault (PurgedCounter D F) :=
  let range := selectRange now startTime endTime
  if range.2 < range.1 then .ok c else c.reject (!trailing)

/-- A call on a purged counter.  `purge` begins with the path of the first file. -/
def step : StrandOp D → Except StrandFault (PurgedCounter D F)
  | .record now time value _ min max cnt debug shouldLog =>
    if c.window.isCollated then c.recordCollated now time value debug shouldLog
    else c.recordGauge now time value min max cnt debug
  | .flush now => c.flush now
  | .forceFlush now => c.forceFlush now
  | .maybeShiftCollated _ t => c.maybeShiftCollated t
  | .select now startTime endTime trailing => c.select now startTime endTime trailing
  | .purge _ => .error .emptyCounters

/-- `StatCounter::~StatCounter`. -/
def destroy (now : ℤ) : Except StrandFault (PurgedCounter D F) :=
  if 60 * 5 < now - (c.window.collations 4).time then c.fullyShiftCollated
  else c.maybeShiftCollated (now + c.window.collationInterval * 5 / 2)

/-! ### Which calls use the first file -/

/-- A shift of the window up to `t` would begin: there is a window, and `t` is after it. -/
def Shifts (t : ℤ) : Prop :=
  c.window.isCollated = true ∧ (c.window.collations 0).time ≠ 0 ∧
    (c.window.collations 4).time + c.window.collationInterval ≤ t

/-- A quantum is in the window and its next update is no power of two; or it is not in the window,
and there is a window that does not have to be shifted for it. -/
def Absorbs (time : ℤ) : Prop :=
  match c.window.findCollationIndex time with
  | some i => ((c.window.collations i).writes + 1) &&& (c.window.collations i).writes ≠ 0
  | none => (c.window.collations 0).time ≠ 0 ∧ ¬ c.Shifts time

/-- A collated record is rejected without a log, or absorbed by the window. -/
def AbsorbsRecord (now time : ℤ) (debug shouldLog : Bool) : Prop :=
  if now + c.window.collationInterval < time then debug = false
  else if time < (c.window.collations 0).time then (debug && shouldLog) = false
  else c.Absorbs (time - time.tmod c.window.collationInterval)

/-- The calls that have nothing to write or to log. -/
def Harmless : StrandOp D → Prop
  | .record now time value _ min max cnt debug shouldLog =>
    if c.window.isCollated then c.AbsorbsRecord now time debug shouldLog
    else StatCounter.AdmitsGauge F now time value min max cnt ∨ debug = false
  | .flush now => ¬ c.Shifts (now + c.window.collationInterval * 2)
  | .forceFlush _ => ¬ c.Shifts ((c.window.collations 4).time + c.window.collationInterval * 5)
  | .maybeShiftCollated _ t => ¬ c.Shifts t
  | .select now startTime endTime trailing =>
    (selectRange now startTime endTime).2 < (selectRange now startTime endTime).1 ∨ trailing = true
  | .purge _ => False

/-- The destructor has nothing to write. -/
def HarmlessEnd (now : ℤ) : Prop :=
  ¬ c.Shifts (if 60 * 5 < now - (c.window.collations 4).time then
      (c.window.collations 4).time + c.window.collationInterval * 5
    else now + c.window.collationInterval * 5 / 2)

variable {c}

omit [FloatArith D F]

theorem maybeShiftCollated_of_not_shifts {t : ℤ} (h : ¬ c.Shifts t) :
    c.maybeShiftCollated t = .ok c := by
  unfold maybeShiftCollated shiftCollated
  split_ifs with ht h0
  · rfl
  · exact absurd ⟨ht.1, h0, ht.2⟩ h
  · rfl

theorem maybeShiftCollated_of_shifts {t : ℤ} (h : c.Shifts t) :
    c.maybeShiftCollated t = .error .emptyCounters := by
  obtain ⟨hc, h0, ht⟩ := h
  unfold maybeShiftCollated shiftCollated
  rw [if_pos ⟨hc, ht⟩, if_neg h0]

theorem maybeShiftCollated_ne_iff (t : ℤ) :
    c.maybeShiftCollated t ≠ .error .emptyCounters ↔ ¬ c.Shifts t := by
  constructor
  · intro h hs
    exact h (maybeShiftCollated_of_shifts hs)
  · intro h
    rw [maybeShiftCollated_of_not_shifts h]
    nofun

theorem reject_ne_iff (log : Bool) : c.reject log ≠ .error .emptyCounters ↔ log = false := by
  cases log <;> simp [reject]

variable [FloatArith D F]

theorem addCollated_ne_iff (now time : ℤ) (v : D) :
    c.addCollated now time v ≠ .error .emptyCounters ↔
      ∀ i, c.window.findCollationIndex time = some i →
        ((c.window.collations i).writes + 1) &&& (c.window.collations i).writes ≠ 0 := by
  unfold addCollated
  cases hi : c.window.findCollationIndex time with
  | none => simp
  | some i =>
    simp only [Nat.add_sub_cancel, Option.some.injEq, forall_eq']
    split_ifs with h <;> simp [h]

/-- A quantum that is not in the window, where there is no window: a new one is set up around it,
and the first update of a quantum is written to the first file. -/
theorem addCollated_init {now time : ℤ} (v : D) :
    PurgedCounter.addCollated ⟨c.window.initCollations time⟩ now time v =
      .error .emptyCounters := by
  have hpos : 0 < c.window.collationInterval := c.window.fine.shape.cfgInterval_pos
  have hsome : ((c.window.initCollations time).findCollationIndex time).isSome := by
    refine StatCounter.findCollationIndex_isSome_iff.2 ⟨4, ?_⟩
    have htime : ((c.window.initCollations time).collations 4).time = time := by
      simp [StatCounter.initCollations, CollationInfo.ofTime]
    rw [htime]
    exact ⟨le_rfl, lt_add_of_pos_right time hpos⟩
  obtain ⟨i, hi⟩ := Option.isSome_iff_exists.1 hsome
  by_contra hne
  exact (addCollated_ne_iff now time v).1 hne i hi (Nat.and_zero _)

theorem recordCollated_ne_iff (now time : ℤ) (value : D) (debug shouldLog : Bool) :
    c.recordCollated now time value debug shouldLog ≠ .error .emptyCounters ↔
      c.AbsorbsRecord now time debug shouldLog := by
  unfold recordCollated AbsorbsRecord
  split_ifs with hfuture hpast
  · exact reject_ne_iff debug
  · exact reject_ne_iff _
  · simp only
    generalize time - time.tmod c.window.collationInterval = q
    unfold shiftFor Absorbs
    cases hi : c.window.findCollationIndex q with
    | some i =>
      simp only [Option.isSome_some, if_true]
      rw [addCollated_ne_iff]
      simp [hi]
    | none =>
      rw [if_neg (by simp)]
      by_cases h0 : (c.window.collations 0).time = 0
      · rw [if_pos h0]
        simp only [addCollated_init, h0]
        simp
      · rw [if_neg h0]
        simp only [ne_eq, h0, not_false_eq_true, true_and]
        by_cases hs : c.Shifts q
        · simp [maybeShiftCollated_of_shifts hs, hs]
        · simp only [maybeShiftCollated_of_not_shifts hs, hs, not_false_eq_true, iff_true]
          refine (addCollated_ne_iff now q _).2 fun i hi' => ?_
          rw [hi] at hi'
          cases hi'

omit [FloatArith D F] in
/-- Where the full shift does nothing, no shift does anything. -/
theorem not_shifts_of_full {t : ℤ}
    (h : ¬ c.Shifts ((c.window.collations 4).time + c.window.collationInterval * 5)) :
    ¬ c.Shifts t := by
  have hpos : 0 < c.window.collationInterval := c.window.fine.shape.cfgInterval_pos
  rintro ⟨hc, h0, -⟩
  exact h ⟨hc, h0, by omega⟩

/-- **One call after the purge.** -/
theorem step_ne_iff (op : StrandOp D) :
    c.step op ≠ .error .emptyCounters ↔ c.Harmless op := by
  cases op with
  | record now time value valueSq min max cnt debug shouldLog =>
    simp only [step, Harmless]
    split_ifs with hc
    · exact recordCollated_ne_iff now time value debug shouldLog
    · unfold recordGauge
      split_ifs with ha
      · simp [ha]
      · rw [reject_ne_iff]
        simp [ha]
  | flush now => exact maybeShiftCollated_ne_iff _
  | forceFlush now =>
    show c.forceFlush now ≠ _ ↔ ¬ c.Shifts _
    unfold forceFlush fullyShiftCollated
    by_cases hs : c.Shifts ((c.window.collations 4).time + c.window.collationInterval * 5)
    · simp [maybeShiftCollated_of_shifts hs, hs]
    · rw [maybeShiftCollated_of_not_shifts hs]
      simp only [hs, not_false_eq_true, iff_true]
      exact (maybeShiftCollated_ne_iff _).2 (not_shifts_of_full hs)
  | maybeShiftCollated now t => exact maybeShiftCollated_ne_iff t
  | select now startTime endTime trailing =>
    show c.select now startTime endTime trailing ≠ _ ↔ _ ∨ _
    unfold select
    simp only
    split_ifs with hr
    · simp [hr]
    · rw [reject_ne_iff]
      simp [hr]
  | purge now => simp [step, Harmless]

omit [FloatArith D F] in
theorem destroy_ne_iff (now : ℤ) :
    c.destroy now ≠ .error .emptyCounters ↔ c.HarmlessEnd now := by
  unfold destroy HarmlessEnd fullyShiftCollated
  split_ifs <;> exact maybeShiftCollated_ne_iff _

end PurgedCounter

/-! ### The strand -/

/-- A counter, before and after `purge` has emptied `counters_`. -/
inductive Strand (D F : Type)
  | active (c : StatCounter D F)
  | purged (c : PurgedCounter D F)

namespace Strand

/-- A call on the strand.  `purge` flushes the files before it forgets them; `select` changes
nothing. -/
def step : Strand D F → StrandOp D → Except StrandFault (Strand D F)
  | .active c, .record now time value valueSq min max cnt _ _ =>
    match c.record now time value valueSq min max cnt with
    | .ok c' => .ok (.active c')
    | .error fault => .error (.counter fault)
  | .active c, .flush now => .ok (.active (c.flush now))
  | .active c, .forceFlush now => .ok (.active (c.forceFlush now))
  | .active c, .maybeShiftCollated now t => .ok (.active (c.maybeShiftCollated now t))
  | .active c, .select _ _ _ _ => .ok (.active c)
  | .active c, .purge now =>
    .ok (.purged ⟨{ c with
      fine := c.fine.flush now, coarser := c.coarser.map fun f => f.flush now }⟩)
  | .purged c, op =>
    match c.step op with
    | .ok c' => .ok (.purged c')
    | .error fault => .error fault

/-- The destructor. -/
def destroy (now : ℤ) : Strand D F → Except StrandFault (Strand D F)
  | .active c => .ok (.active (c.close now))
  | .purged c =>
    match c.destroy now with
    | .ok c' => .ok (.purged c')
    | .error fault => .error fault

/-- Before the purge every call is harmless. -/
def Harmless : Strand D F → StrandOp D → Prop
  | .active _, _ => True
  | .purged c, op => c.Harmless op

/-- The same for the destructor. -/
def HarmlessEnd (now : ℤ) : Strand D F → Prop
  | .active _ => True
  | .purged c => c.HarmlessEnd now

theorem step_ne_iff (s : Strand D F) (op : StrandOp D) :
    s.step op ≠ .error .emptyCounters ↔ s.Harmless op := by
  cases s with
  | active c =>
    refine ⟨fun _ => trivial, fun _ => ?_⟩
    cases op with
    | record now time value valueSq min max cnt debug shouldLog =>
      simp only [step]
      split <;> nofun
    | _ => nofun
  | purged c =>
    show _ ↔ c.Harmless op
    rw [← PurgedCounter.step_ne_iff]
    cases hs : c.step op with
    | ok c' => simp [step, hs]
    | error fault => simp [step, hs]

theorem destroy_ne_iff (s : Strand D F) (now : ℤ) :
    s.destroy now ≠ .error .emptyCounters ↔ s.HarmlessEnd now := by
  cases s with
  | active c => exact ⟨fun _ => trivial, fun _ => nofun⟩
  | purged c =>
    show _ ↔ c.HarmlessEnd now
    rw [← PurgedCounter.destroy_ne_iff]
    cases hd : c.destroy now with
    | ok c' => simp [destroy, hd]
    | error fault => simp [destroy, hd]

/-- **No use of a purged counter's files, and when.**  For every counter and every order of calls on
its strand, with a purge anywhere among them and the destructor at the end, no call after the purge
uses the first element of the empty `counters_` if and only if every call after the purge, and the
destructor, is harmless: it has no record to reject with a log, no update to write to the first
file, no window to shift, no range to look for, and is no second purge. -/
theorem noUseAfterPurge_iff (c : StatCounter D F) (ops : List (StrandOp D)) (now : ℤ) :
    (ops.foldlM step (.active c) ≠ .error .emptyCounters ∧
        ∀ s, ops.foldlM step (.active c) = .ok s → s.destroy now ≠ .error .emptyCounters) ↔
      Run.AlongOk step Harmless (.active c) ops ∧
        ∀ s, ops.foldlM step (.active c) = .ok s → s.HarmlessEnd now := by
  rw [Run.exec_ne_error_iff step_ne_iff]
  simp only [destroy_ne_iff]

end Strand

/-- The record at 1000 sets up the window of a collated counter.  The counter is purged, and its
destructor, still at 1000, shifts the window into a file that is not there any more. -/
theorem noUseAfterPurge_destructor :
    ¬ ([StrandOp.record 1000 1000 1 1 1 1 1 false false, .purge 1000].foldlM Strand.step
          (.active sampleCounter) ≠ .error .emptyCounters ∧
        ∀ s, [StrandOp.record 1000 1000 1 1 1 1 1 false false, .purge 1000].foldlM Strand.step
            (.active sampleCounter) = .ok s → s.destroy 1000 ≠ .error .emptyCounters) := by
  rintro ⟨-, h⟩
  have hrun : ∃ s, [StrandOp.record 1000 1000 1 1 1 1 1 false false, .purge 1000].foldlM Strand.step
      (.active sampleCounter) = .ok s ∧ s.destroy 1000 = .error .emptyCounters := by
    refine ⟨_, rfl, ?_⟩
    rfl
  obtain ⟨s, hs, hd⟩ := hrun
  exact h s hs hd

end Istatd
