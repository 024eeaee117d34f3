import Istatd.Lib.Executor
import Istatd.StrFunc
import Mathlib.Data.BitVec

/-!
# Counters of the daemon itself (`daemon/LoopbackCounter.cpp`)

The daemon counts its own events.  A gauge is recorded at once; the other counters have an
`aggregate_` that any thread may add to, and that `forceUpdates` reports twice a second.  For an
event counter it takes away what it reports, for a counter of type `TypeCounted` it does not.

`forceUpdates` reads an aggregate, subtracts what it has read, and records it, in three steps, and
other threads run in between: they add to the aggregate, or are in `forceUpdates` themselves, since
an administrator can ask for it.  Each atomic operation is one handler of an `Executor.Program`.  The
counters are all there from the start.

`IStatStore::record` takes a `double`, and it may throw: what was subtracted is lost then, the pass
ends, and so does the timer if the pass was its.

* `Loopback.program`: the calls and the steps of `forceUpdates`;
* `exec_recorded`, `exec_posted`: what one step records and leaves to be recorded;
* `run_update`: a pass of `forceUpdates` that nothing interrupts;
* `loopback_conserved`: no event is reported twice, and none is lost but by an exception.
-/

namespace Istatd

open Executor

/-- `CounterType`. -/
inductive CounterType
  | gauge
  | event
  | counted
  deriving DecidableEq

/-- `LoopbackCounterRecord`, but for the aggregate. -/
structure LoopbackCounterRecord where
  name : Bytes
  type : CounterType

/-- `LoopbackCounter::LoopbackCounter`. -/
def LoopbackCounterRecord.make (name : Bytes) (type : CounterType) : LoopbackCounterRecord where
  name := (if type = .event then bytes "*istatd." else bytes "istatd.") ++ name
  type := type

/-- `isAggregate_`. -/
def LoopbackCounterRecord.isAggregate (r : LoopbackCounterRecord) : Bool := r.type ≠ .gauge

/-- The value that `record` gets: that of a gauge, or what an aggregate `v` is as a `double`. -/
inductive Report (D : Type)
  | gauge (value : D)
  | aggregate (v : BitVec 64) (value : D)

/-- `ss_`, if it is set, whether the timer is running, and the aggregates.  The calls of `record` are
written down with the counter they are for: those that returned and those that threw. -/
structure Loopback (n : ℕ) (D : Type) where
  ready : Bool
  scheduled : Bool
  aggregate : Fin n → BitVec 64
  recorded : List (Fin n × Report D)
  lost : List (Fin n × Report D)

/-- The calls of other threads, and of the timer. -/
inductive LoopbackCall (n : ℕ) (D : Type)
  | setup
  | value (c : Fin n) (value : D)
  | forceUpdates
  | updateAggregates

/-- A thread that is about to record a gauge, or in `forceUpdates`: before it reads the aggregate of
the first of some records, before it subtracts what it has read, or before it records that.  `timer`
tells whether it was called by `updateAggregates`. -/
inductive LoopbackHandler (n : ℕ) (D : Type)
  | gauge (c : Fin n) (value : D)
  | update (timer : Bool) (rs : List (Fin n))
  | subtract (timer : Bool) (r : Fin n) (v : BitVec 64) (rs : List (Fin n))
  | record (timer : Bool) (r : Fin n) (v : BitVec 64) (rs : List (Fin n))

namespace Loopback

variable {n : ℕ} {D : Type} (cs : Fin n → LoopbackCounterRecord) (toInt64 : D → BitVec 64)
  (toDouble : BitVec 64 → D)

/-- Before `setup`. -/
def new : Loopback n D := ⟨false, false, fun _ => 0, [], []⟩

/-- The list that starts at `first_`: the counter that was made last is in front. -/
def linked : List (Fin n) := ((List.finRange n).filter fun c => (cs c).isAggregate).reverse

/-- `LoopbackCounter::setup`, which throws if it is called again, `value`, `forceUpdates` and
`updateAggregates`; `toInt64` is the cast in `value`. -/
def call : LoopbackCall n D → Loopback n D → Loopback n D × List (LoopbackHandler n D)
  | .setup, s => (if s.ready then s else { s with ready := true, scheduled := true }, [])
  | .value c value, s =>
    if (cs c).isAggregate then
      ({ s with aggregate := Function.update s.aggregate c (s.aggregate c + toInt64 value) }, [])
    else (s, if s.ready then [.gauge c value] else [])
  | .forceUpdates, s => (s, if s.ready then [.update false (linked cs)] else [])
  | .updateAggregates, s =>
    if s.scheduled then ({ s with scheduled := false }, [.update true (linked cs)]) else (s, [])

/-- A call of `ss_->record`, which may throw, and what comes after it. -/
def record (throws : Bool) (x : Fin n × Report D) (rest : List (LoopbackHandler n D))
    (s : Loopback n D) : Loopback n D × List (LoopbackHandler n D) :=
  if throws then ({ s with lost := s.lost ++ [x] }, [])
  else ({ s with recorded := s.recorded ++ [x] }, rest)

/-- The steps of the loop of `forceUpdates`, with `reschedule` behind it; `toDouble` is the
conversion of an aggregate for `record`. -/
def exec (throws : Bool) :
    LoopbackHandler n D → Loopback n D → Loopback n D × List (LoopbackHandler n D)
  | .gauge c value, s => s.record throws (c, .gauge value) []
  | .update timer [], s => ({ s with scheduled := s.scheduled || timer }, [])
  | .update timer (r :: rs), s =>
    let v := s.aggregate r
    if v ≠ 0 then
      (s, if (cs r).type = .event then [.subtract timer r v rs] else [.record timer r v rs])
    else (s, [.update timer rs])
  | .subtract timer r v rs, s =>
    ({ s with aggregate := Function.update s.aggregate r (s.aggregate r + -v) },
      [.record timer r v rs])
  | .record timer r v rs, s =>
    s.record throws (r, .aggregate v (toDouble v)) [.update timer rs]

/-- The counters as a program on an executor; a handler is told whether `record` throws. -/
def program : Program (Loopback n D) (LoopbackCall n D) Bool (LoopbackHandler n D) where
  call := call cs toInt64
  exec := exec cs toDouble

/-! ### Sums -/

/-- What a call adds to an aggregate. -/
def added (r : Fin n) : LoopbackCall n D → BitVec 64
  | .value c value => if c = r then toInt64 value else 0
  | _ => 0

/-- What a report says about an aggregate, before it is converted. -/
def amount (r : Fin n) : Fin n × Report D → BitVec 64
  | (c, .aggregate v _) => if c = r then v else 0
  | _ => 0

/-- The sum of some reports of an aggregate. -/
def reported (r : Fin n) (l : List (Fin n × Report D)) : BitVec 64 := (l.map (amount r)).sum

/-- What a thread has taken from an aggregate and has yet to report. -/
def inFlight (r : Fin n) : LoopbackHandler n D → BitVec 64
  | .record _ c v _ => if c = r then v else 0
  | _ => 0

/-- What an aggregate holds, and what has been reported of it or lost. -/
def held (r : Fin n) (s : Loopback n D) : BitVec 64 :=
  s.aggregate r + reported r s.recorded + reported r s.lost

theorem reported_concat (r : Fin n) (l : List (Fin n × Report D)) (x : Fin n × Report D) :
    reported r (l ++ [x]) = reported r l + amount r x := by
  simp [reported]

variable {cs toInt64 toDouble} {r c : Fin n} {s : Loopback n D} {a : LoopbackCall n D}
  {throws timer : Bool} {h : LoopbackHandler n D} {v : BitVec 64} {x : D} {rs : List (Fin n)}

/-! ### One step -/

/-- A call records nothing itself, and leaves only a gauge or a whole pass to be done. -/
theorem call_posted (hmem : h ∈ (call cs toInt64 a s).2) :
    (∃ c value, h = .gauge c value) ∨ ∃ timer, h = .update timer (linked cs) := by
  cases a with
  | setup => cases hmem
  | value c value =>
    simp only [call] at hmem
    split_ifs at hmem
    · cases hmem
    · exact .inl ⟨c, value, List.mem_singleton.1 hmem⟩
    · cases hmem
  | forceUpdates =>
    simp only [call] at hmem
    split_ifs at hmem
    · exact .inr ⟨false, List.mem_singleton.1 hmem⟩
    · cases hmem
  | updateAggregates =>
    simp only [call] at hmem
    split_ifs at hmem
    · exact .inr ⟨true, List.mem_singleton.1 hmem⟩
    · cases hmem

@[simp] theorem call_recorded : (call cs toInt64 a s).1.recorded = s.recorded := by
  cases a <;> simp only [call] <;> split_ifs <;> rfl

@[simp] theorem call_lost : (call cs toInt64 a s).1.lost = s.lost := by
  cases a <;> simp only [call] <;> split_ifs <;> rfl

/-- What a step records was about to be recorded. -/
theorem exec_recorded (hmem : (c, .aggregate v x) ∈ (exec cs toDouble throws h s).1.recorded) :
    (c, .aggregate v x) ∈ s.recorded ∨ x = toDouble v ∧ ∃ timer rs, h = .record timer c v rs := by
  cases h with
  | gauge c' value =>
    cases throws with
    | false => simpa [exec, record] using hmem
    | true => exact .inl hmem
  | update timer rs =>
    cases rs with
    | nil => exact .inl hmem
    | cons r' rs =>
      simp only [exec] at hmem
      split_ifs at hmem <;> exact .inl hmem
  | subtract timer r' v' rs => exact .inl hmem
  | record timer c' v' rs =>
    cases throws with
    | true => exact .inl hmem
    | false =>
      rcases List.mem_append.1 hmem with hmem | hmem
      · exact .inl hmem
      · obtain ⟨rfl, hrep⟩ := Prod.mk.inj (List.mem_singleton.1 hmem)
        obtain ⟨rfl, rfl⟩ := Report.aggregate.inj hrep
        exact .inr ⟨rfl, timer, rs, rfl⟩

/-- What a step leaves to be recorded it has just read, or subtracted. -/
theorem exec_posted (hmem : .record timer c v rs ∈ (exec cs toDouble throws h s).2) :
    v = s.aggregate c ∨ h = .subtract timer c v rs := by
  cases h with
  | gauge c' value => cases throws <;> cases hmem
  | update timer' rs' =>
    cases rs' with
    | nil => cases hmem
    | cons r' rs' =>
      simp only [exec] at hmem
      split_ifs at hmem
      · simp at hmem
      · obtain ⟨-, rfl, rfl, -⟩ := LoopbackHandler.record.inj (List.mem_singleton.1 hmem)
        exact .inl rfl
      · simp at hmem
  | subtract timer' r' v' rs' =>
    obtain ⟨rfl, rfl, rfl, rfl⟩ := LoopbackHandler.record.inj (List.mem_singleton.1 hmem)
    exact .inr rfl
  | record timer' r' v' rs' => cases throws <;> simp [exec, record] at hmem

/-- A step leaves only event counters to be subtracted from. -/
theorem exec_subtracts (hmem : .subtract timer c v rs ∈ (exec cs toDouble throws h s).2) :
    (cs c).type = .event := by
  cases h with
  | gauge c' value => cases throws <;> cases hmem
  | update timer' rs' =>
    cases rs' with
    | nil => cases hmem
    | cons r' rs' =>
      simp only [exec] at hmem
      split_ifs at hmem with hv htype
      · obtain ⟨-, rfl, -⟩ := LoopbackHandler.subtract.inj (List.mem_singleton.1 hmem)
        exact htype
      · simp at hmem
      · simp at hmem
  | subtract timer' r' v' rs' => simp [exec] at hmem
  | record timer' r' v' rs' => cases throws <;> simp [exec, record] at hmem

theorem lost_of_exec (hlost : (exec cs toDouble throws h s).1.lost = []) : s.lost = [] := by
  cases h with
  | gauge c' value =>
    cases throws with
    | false => exact hlost
    | true => simp [exec, record] at hlost
  | update timer rs =>
    cases rs with
    | nil => exact hlost
    | cons r' rs =>
      simp only [exec] at hlost
      split_ifs at hlost <;> exact hlost
  | subtract timer r' v' rs => exact hlost
  | record timer r' v' rs =>
    cases throws with
    | false => exact hlost
    | true => simp [exec, record] at hlost

theorem exec_false_lost : (exec cs toDouble false h s).1.lost = s.lost := by
  cases h with
  | gauge c' value => rfl
  | update timer rs =>
    cases rs with
    | nil => rfl
    | cons r' rs =>
      simp only [exec]
      split_ifs <;> rfl
  | subtract timer r' v' rs => rfl
  | record timer r' v' rs => rfl

/-- Only event counters are subtracted from. -/
def Subtracts (cs : Fin n → LoopbackCounterRecord) (q : List (LoopbackHandler n D)) : Prop :=
  ∀ timer r v rs, .subtract timer r v rs ∈ q → (cs r).type = .event

theorem Subtracts.call {q : List (LoopbackHandler n D)} (hq : Subtracts cs q) :
    Subtracts cs (q ++ (call cs toInt64 a s).2) := by
  intro timer r v rs hmem
  rcases List.mem_append.1 hmem with hmem | hmem
  · exact hq timer r v rs hmem
  · rcases call_posted hmem with ⟨c, value, heq⟩ | ⟨timer', heq⟩ <;> cases heq

theorem Subtracts.exec {l l' : List (LoopbackHandler n D)} (hq : Subtracts cs (l ++ h :: l')) :
    Subtracts cs (l ++ l' ++ (exec cs toDouble throws h s).2) := by
  intro timer r v rs hmem
  rcases List.mem_append.1 hmem with hmem | hmem
  · exact hq timer r v rs (mem_of_mem_rest hmem)
  · exact exec_subtracts hmem

variable (cs toInt64 toDouble) in
theorem subtracts_run (es : List (Event (LoopbackCall n D) Bool)) :
    Subtracts cs (run (program cs toInt64 toDouble) ⟨new, []⟩ es).pending :=
  invariant (p := program cs toInt64 toDouble) (I := fun _ q => Subtracts cs q)
    (Q := fun _ => True) (R := fun _ => True) (fun _ _ _ _ h => h.call)
    (fun _ _ _ _ _ _ h => h.exec) (fun _ _ _ _ hmem => absurd hmem List.not_mem_nil)
    (fun _ _ => trivial) fun _ _ _ => trivial

/-! ### Events -/

/-- A call adds what it adds. -/
theorem event_call (hr : (cs r).type = .event) (a : LoopbackCall n D) (s : Loopback n D) :
    held r ((program cs toInt64 toDouble).call a s).1 +
        underWay (inFlight r) ((program cs toInt64 toDouble).call a s).2 =
      held r s + added toInt64 r a := by
  have hagg : (cs r).isAggregate = true := by simp [LoopbackCounterRecord.isAggregate, hr]
  cases a with
  | setup =>
    simp only [program, call, added]
    split_ifs <;> simp [held]
  | value c value =>
    by_cases hc : c = r
    · subst hc
      simp only [program, call, held, hagg, if_true, Function.update_self, underWay_nil, added]
      abel
    · have hne : r ≠ c := Ne.symm hc
      simp only [program, call, added, if_neg hc]
      split_ifs <;> simp [held, Function.update_of_ne hne, inFlight]
  | forceUpdates =>
    simp only [program, call, added]
    split_ifs <;> simp [held, inFlight]
  | updateAggregates =>
    simp only [program, call, added]
    split_ifs <;> simp [held, inFlight]

/-- A handler neither adds nor loses anything. -/
theorem event_exec (hr : (cs r).type = .event) (throws : Bool) (h : LoopbackHandler n D)
    (s : Loopback n D) : held r ((program cs toInt64 toDouble).exec throws h s).1 +
        underWay (inFlight r) ((program cs toInt64 toDouble).exec throws h s).2 =
      held r s + inFlight r h := by
  cases h with
  | gauge c value =>
    cases throws <;> simp [program, exec, record, held, inFlight, reported_concat, amount]
  | update timer rs =>
    cases rs with
    | nil => simp [program, exec, held, inFlight]
    | cons c rs =>
      simp only [program, exec]
      split_ifs with hv htype
      · simp [inFlight]
      · have hne : c ≠ r := by
          rintro rfl
          exact htype hr
        simp [inFlight, hne]
      · simp [inFlight]
  | subtract timer c v rs =>
    by_cases hc : c = r
    · subst hc
      simp only [program, exec, held, Function.update_self, underWay_cons, underWay_nil, inFlight,
        if_true]
      abel
    · have hne : r ≠ c := Ne.symm hc
      simp [program, exec, held, inFlight, Function.update_of_ne hne, hc]
  | record timer c v rs =>
    cases throws with
    | false =>
      simp only [program, exec, record, held, Bool.false_eq_true, if_false, reported_concat,
        underWay_cons, underWay_nil, inFlight, amount]
      abel
    | true =>
      simp only [program, exec, record, held, if_true, reported_concat, underWay_nil, inFlight,
        amount]
      abel

variable (toInt64 toDouble) in
/-- An event is in the aggregate, with a thread in `forceUpdates`, reported, or lost. -/
theorem event_balance (hr : (cs r).type = .event) (es : List (Event (LoopbackCall n D) Bool)) :
    let s := run (program cs toInt64 toDouble) ⟨new, []⟩ es
    s.state.aggregate r + reported r s.state.recorded + reported r s.state.lost +
      underWay (inFlight r) s.pending = income (added toInt64 r) es := by
  have h := balance (p := program cs toInt64 toDouble) (s := ⟨new, []⟩) (I := fun _ _ => True)
    (v := held r) (w := inFlight r) (c := added toInt64 r) (fun _ _ _ _ => trivial)
    (fun _ _ _ _ _ _ => trivial) (fun a s _ _ => event_call hr a s)
    (fun throws s _ h _ _ => event_exec hr throws h s) trivial es
  have hnew : held r (new : Loopback n D) = 0 := by simp [held, new, reported]
  rwa [hnew, underWay_nil, add_zero, zero_add] at h

/-! ### Totals -/

variable (toInt64 toDouble) in
/-- A counter of type `TypeCounted` keeps its aggregate. -/
theorem counted_balance (hr : (cs r).type = .counted)
    (es : List (Event (LoopbackCall n D) Bool)) :
    (run (program cs toInt64 toDouble) ⟨new, []⟩ es).state.aggregate r =
      income (added toInt64 r) es := by
  have hagg : (cs r).isAggregate = true := by simp [LoopbackCounterRecord.isAggregate, hr]
  have h := balance (p := program cs toInt64 toDouble) (s := ⟨new, []⟩)
    (I := fun _ q => Subtracts cs q) (v := fun s => s.aggregate r) (w := fun _ => 0)
    (c := added toInt64 r) (fun _ _ _ h => h.call) (fun _ _ _ _ _ h => h.exec) ?_ ?_
    (fun _ _ _ _ hmem => absurd hmem List.not_mem_nil) es
  · simpa [underWay, new] using h
  · intro a s q _
    cases a with
    | setup =>
      simp only [program, call, added]
      split_ifs <;> simp
    | value c value =>
      by_cases hc : c = r
      · subst hc
        simp [program, call, hagg, added]
      · have hne : r ≠ c := Ne.symm hc
        simp only [program, call, added, if_neg hc]
        split_ifs <;> simp [Function.update_of_ne hne, underWay]
    | forceUpdates => simp [program, call, added, underWay]
    | updateAggregates =>
      simp only [program, call, added]
      split_ifs <;> simp [underWay]
  · intro throws s l h l' hsub
    cases h with
    | gauge c value => cases throws <;> simp [program, exec, record]
    | update timer rs =>
      cases rs with
      | nil => simp [program, exec]
      | cons c rs =>
        simp only [program, exec]
        split_ifs <;> simp [underWay]
    | subtract timer c v rs =>
      have hne : r ≠ c := by
        rintro rfl
        have := hsub timer r v rs (List.mem_append_right l List.mem_cons_self)
        rw [hr] at this
        cases this
      simp [program, exec, Function.update_of_ne hne]
    | record timer c v rs => cases throws <;> simp [program, exec, record]

/-- What is reported of a counter, or about to be, is one of the numbers in `T`. -/
structure Reports (r : Fin n) (T : BitVec 64 → Prop) (s : Loopback n D)
    (q : List (LoopbackHandler n D)) : Prop where
  recorded : ∀ v x, (r, .aggregate v x) ∈ s.recorded → T v
  pending : ∀ timer v rs, .record timer r v rs ∈ q → T v

variable {T : BitVec 64 → Prop} {q : List (LoopbackHandler n D)}

theorem Reports.mono {T' : BitVec 64 → Prop} (h : Reports r T s q) (hT : ∀ v, T v → T' v) :
    Reports r T' s q where
  recorded v x hmem := hT v (h.recorded v x hmem)
  pending timer v rs hmem := hT v (h.pending timer v rs hmem)

theorem Reports.call (h : Reports r T s q) (a : LoopbackCall n D) :
    Reports r T (call cs toInt64 a s).1 (q ++ (call cs toInt64 a s).2) where
  recorded v x hmem := h.recorded v x (by rwa [call_recorded] at hmem)
  pending timer v rs hmem := by
    rcases List.mem_append.1 hmem with hmem | hmem
    · exact h.pending timer v rs hmem
    · rcases call_posted hmem with ⟨c, value, heq⟩ | ⟨timer', heq⟩ <;> cases heq

/-- A handler reports a total that the counter has, if nothing is subtracted from it. -/
theorem Reports.exec {e : LoopbackHandler n D} {l l' : List (LoopbackHandler n D)}
    (h : Reports r T s (l ++ e :: l')) (hsub : Subtracts cs (l ++ e :: l'))
    (hr : (cs r).type = .counted) (hT : T (s.aggregate r)) (throws : Bool) :
    Reports r T (exec cs toDouble throws e s).1 (l ++ l' ++ (exec cs toDouble throws e s).2) where
  recorded v x hmem := by
    rcases exec_recorded hmem with hmem | ⟨-, timer, rs, rfl⟩
    · exact h.recorded v x hmem
    · exact h.pending timer v rs (List.mem_append_right l List.mem_cons_self)
  pending timer v rs hmem := by
    rcases List.mem_append.1 hmem with hmem | hmem
    · exact h.pending timer v rs (mem_of_mem_rest hmem)
    · rcases exec_posted hmem with rfl | rfl
      · exact hT
      · have := hsub timer r v rs (List.mem_append_right l List.mem_cons_self)
        rw [hr] at this
        cases this

/-- One event. -/
theorem Reports.step {s : Pool (Loopback n D) (LoopbackHandler n D)}
    (h : Reports r T s.state s.pending) (hsub : Subtracts cs s.pending)
    (hr : (cs r).type = .counted) (hT : T (s.state.aggregate r))
    (e : Event (LoopbackCall n D) Bool) :
    Reports r T (step (program cs toInt64 toDouble) s e).state
      (step (program cs toInt64 toDouble) s e).pending := by
  cases e with
  | call a => exact h.call a
  | exec i throws =>
    rcases exec_cases (p := program cs toInt64 toDouble) (s := s) i throws with
      heq | ⟨l, e, l', hq, -, heq⟩
    · rw [heq]
      exact h
    · rw [heq]
      rw [hq] at h hsub
      exact h.exec hsub hr hT throws

/-- A total that a counter had at some time of a run. -/
def HadTotal (toInt64 : D → BitVec 64) (r : Fin n) (es : List (Event (LoopbackCall n D) Bool))
    (v : BitVec 64) : Prop :=
  ∃ es₁, es₁ <+: es ∧ v = income (added toInt64 r) es₁

variable (toInt64 toDouble) in
/-- What is reported of a counter, or about to be, is a total it had at some time of the run. -/
theorem counted_reports (hr : (cs r).type = .counted)
    (es : List (Event (LoopbackCall n D) Bool)) :
    let s := run (program cs toInt64 toDouble) ⟨new, []⟩ es
    Reports r (HadTotal toInt64 r es) s.state s.pending := by
  induction es using List.reverseRecOn with
  | nil =>
    exact ⟨fun _ _ hmem => absurd hmem List.not_mem_nil,
      fun _ _ _ hmem => absurd hmem List.not_mem_nil⟩
  | append_singleton es e ih =>
    have hmono : ∀ v, HadTotal toInt64 r es v → HadTotal toInt64 r (es ++ [e]) v := by
      rintro v ⟨es₁, hpre, rfl⟩
      exact ⟨es₁, hpre.trans (List.prefix_append es [e]), rfl⟩
    have hnow : HadTotal toInt64 r (es ++ [e])
        ((run (program cs toInt64 toDouble) ⟨new, []⟩ es).state.aggregate r) :=
      ⟨es, List.prefix_append es [e], counted_balance toInt64 toDouble hr es⟩
    have hrun : run (program cs toInt64 toDouble) ⟨new, []⟩ (es ++ [e]) =
        step (program cs toInt64 toDouble) (run (program cs toInt64 toDouble) ⟨new, []⟩ es) e := by
      rw [run, List.foldl_append]
      rfl
    rw [hrun]
    exact (ih.mono hmono).step (subtracts_run cs toInt64 toDouble es) hr hnow e

/-! ### Conversions, exceptions and the timer -/

variable (cs toInt64) in
/-- `record` gets a number that was read, as a `double`. -/
theorem converted (es : List (Event (LoopbackCall n D) Bool)) :
    ∀ c v x, (c, .aggregate v x) ∈
      (run (program cs toInt64 toDouble) ⟨new, []⟩ es).state.recorded → x = toDouble v :=
  invariant (p := program cs toInt64 toDouble)
    (I := fun s _ => ∀ c v x, (c, .aggregate v x) ∈ s.recorded → x = toDouble v)
    (Q := fun _ => True) (R := fun _ => True)
    (fun _ _ _ _ h c v x hmem => h c v x (by
      rw [program, call_recorded] at hmem
      exact hmem))
    (fun _ _ _ _ _ _ h c v x hmem => (exec_recorded hmem).elim (h c v x) And.left)
    (fun _ _ _ hmem => absurd hmem List.not_mem_nil) (fun _ _ => trivial) fun _ _ _ => trivial

variable (cs toInt64 toDouble) in
/-- Without an exception of `record` nothing is lost. -/
theorem lost_run {es : List (Event (LoopbackCall n D) Bool)} (hes : ∀ i, .exec i true ∉ es) :
    (run (program cs toInt64 toDouble) ⟨new, []⟩ es).state.lost = [] :=
  invariant (p := program cs toInt64 toDouble) (I := fun s _ => s.lost = []) (Q := fun _ => True)
    (R := fun throws => throws = false)
    (fun _ _ _ _ h => call_lost.trans h)
    (fun throws s l h l' hthrows hlost => by
      subst hthrows
      exact exec_false_lost.trans hlost)
    rfl (fun _ _ => trivial) fun i throws hmem => by
      cases throws with
      | false => rfl
      | true => exact absurd hmem (hes i)

/-- A handler of a pass that `updateAggregates` has called. -/
def Timed : LoopbackHandler n D → Prop
  | .gauge _ _ => False
  | .update timer _ => timer = true
  | .subtract timer _ _ _ => timer = true
  | .record timer _ _ _ => timer = true

/-- The timer is running, or its pass is under way. -/
def Ticking (s : Loopback n D) (q : List (LoopbackHandler n D)) : Prop :=
  s.ready = true → s.lost = [] → s.scheduled = true ∨ ∃ h ∈ q, Timed h

theorem Ticking.call (h : Ticking s q) (a : LoopbackCall n D) :
    Ticking (call cs toInt64 a s).1 (q ++ (call cs toInt64 a s).2) := by
  intro hready hlost
  rw [call_lost] at hlost
  have hkeep : s.ready = true → s.scheduled = true ∨
      ∃ h ∈ q ++ (Loopback.call cs toInt64 a s).2, Timed h := fun hready =>
    (h hready hlost).imp_right fun ⟨e, he, ht⟩ => ⟨e, List.mem_append_left _ he, ht⟩
  cases a with
  | setup =>
    simp only [Loopback.call] at hready hkeep ⊢
    split_ifs with hs
    · exact hkeep hs
    · exact .inl rfl
  | value c value =>
    simp only [Loopback.call] at hready hkeep ⊢
    split_ifs at hready hkeep ⊢ <;> exact hkeep hready
  | forceUpdates => exact hkeep hready
  | updateAggregates =>
    simp only [Loopback.call] at hready hkeep ⊢
    split_ifs at hready hkeep ⊢
    · exact .inr ⟨_, List.mem_append_right _ (List.mem_singleton.2 rfl), rfl⟩
    · exact hkeep hready

/-- A handler of the pass hands it on, or starts the timer again. -/
theorem timed_exec (ht : Timed h) (hlost : (exec cs toDouble throws h s).1.lost = []) :
    (exec cs toDouble throws h s).1.scheduled = true ∨
      ∃ h' ∈ (exec cs toDouble throws h s).2, Timed h' := by
  cases h with
  | gauge c value => cases ht
  | update timer rs =>
    obtain rfl : timer = true := ht
    cases rs with
    | nil => exact .inl (by simp [exec])
    | cons r' rs =>
      refine .inr ?_
      simp only [exec]
      split_ifs <;> exact ⟨_, List.mem_singleton.2 rfl, rfl⟩
  | subtract timer r' v rs => exact .inr ⟨_, List.mem_singleton.2 rfl, ht⟩
  | record timer r' v rs =>
    cases throws with
    | false => exact .inr ⟨_, List.mem_singleton.2 rfl, ht⟩
    | true => simp [exec, record] at hlost

theorem exec_ready : (exec cs toDouble throws h s).1.ready = s.ready := by
  cases h with
  | gauge c' value => cases throws <;> rfl
  | update timer rs =>
    cases rs with
    | nil => rfl
    | cons r' rs =>
      simp only [exec]
      split_ifs <;> rfl
  | subtract timer r' v' rs => rfl
  | record timer r' v' rs => cases throws <;> rfl

theorem exec_scheduled (hs : s.scheduled = true) :
    (exec cs toDouble throws h s).1.scheduled = true := by
  cases h with
  | gauge c' value => cases throws <;> exact hs
  | update timer rs =>
    cases rs with
    | nil => simp [exec, hs]
    | cons r' rs =>
      simp only [exec]
      split_ifs <;> exact hs
  | subtract timer r' v' rs => exact hs
  | record timer r' v' rs => cases throws <;> exact hs

theorem Ticking.exec {e : LoopbackHandler n D} {l l' : List (LoopbackHandler n D)}
    (h : Ticking s (l ++ e :: l')) (throws : Bool) :
    Ticking (exec cs toDouble throws e s).1 (l ++ l' ++ (exec cs toDouble throws e s).2) := by
  intro hready hlost
  rw [exec_ready] at hready
  rcases h hready (lost_of_exec hlost) with hs | ⟨e', hmem, ht⟩
  · exact .inl (exec_scheduled hs)
  · rcases List.mem_append.1 hmem with hmem | hmem
    · exact .inr ⟨e', by simp [hmem], ht⟩
    · rcases List.mem_cons.1 hmem with rfl | hmem
      · exact (timed_exec ht hlost).imp_right fun ⟨h', hh', ht'⟩ =>
          ⟨h', List.mem_append_right _ hh', ht'⟩
      · exact .inr ⟨e', by simp [hmem], ht⟩

variable (cs toInt64 toDouble) in
/-- As long as `record` throws no exception the timer goes on. -/
theorem ticking_run (es : List (Event (LoopbackCall n D) Bool)) :
    let s := run (program cs toInt64 toDouble) ⟨new, []⟩ es
    Ticking s.state s.pending :=
  invariant (p := program cs toInt64 toDouble) (I := Ticking) (Q := fun _ => True)
    (R := fun _ => True) (fun a _ _ _ h => h.call a) (fun throws _ _ _ _ _ h => h.exec throws)
    (fun hready => by cases hready) (fun _ _ => trivial) fun _ _ _ => trivial

/-! ### A pass on its own -/

/-- What a part of a pass over the counters `rs` has done when it has come to the end of them. -/
structure Updates (cs : Fin n → LoopbackCounterRecord) (toDouble : BitVec 64 → D)
    (rs : List (Fin n)) (s s' : Loopback n D) : Prop where
  lost : s'.lost = s.lost
  kept : ∀ x ∈ s.recorded, x ∈ s'.recorded
  zero : ∀ r ∈ rs, (cs r).type = .event → s'.aggregate r = 0
  same : ∀ r, r ∉ rs ∨ (cs r).type ≠ .event → s'.aggregate r = s.aggregate r
  current : ∀ r ∈ rs, (cs r).type ≠ .event → s.aggregate r ≠ 0 →
    (r, .aggregate (s.aggregate r) (toDouble (s.aggregate r))) ∈ s'.recorded

variable (cs toInt64 toDouble) in
/-- One turn of the loop. -/
theorem run_turn (c : Fin n) (rs : List (Fin n)) (s : Loopback n D) : ∃ k s₁,
    run (program cs toInt64 toDouble) ⟨s, [.update false (c :: rs)]⟩
        (List.replicate k (.exec 0 false)) = ⟨s₁, [.update false rs]⟩ ∧
      Updates cs toDouble [c] s s₁ := by
  by_cases hv : s.aggregate c = 0
  · refine ⟨1, s, by simp [run, step, program, exec, hv], rfl, fun x hx => hx, ?_, fun r _ => rfl,
      ?_⟩
    · intro r hr _
      rw [List.mem_singleton.1 hr, hv]
    · intro r hr _ hne
      rw [List.mem_singleton.1 hr] at hne
      exact absurd hv hne
  · have h0 : ¬s.aggregate c = 0#64 := hv
    by_cases htype : (cs c).type = .event
    · refine ⟨3, ⟨s.ready, s.scheduled,
        Function.update s.aggregate c (s.aggregate c + -s.aggregate c),
        s.recorded ++ [(c, .aggregate (s.aggregate c) (toDouble (s.aggregate c)))], s.lost⟩,
        by simp [List.replicate_succ, run, step, program, exec, record, h0, htype], rfl,
        fun x hx => List.mem_append_left _ hx, fun r hr _ => ?_, fun r hr => ?_,
        fun r hr hne _ => ?_⟩
      · obtain rfl := List.mem_singleton.1 hr
        simp
      · have hne : r ≠ c := by
          rintro rfl
          rcases hr with hr | hr
          · exact hr (List.mem_singleton.2 rfl)
          · exact hr htype
        exact Function.update_of_ne hne _ _
      · obtain rfl := List.mem_singleton.1 hr
        exact absurd htype hne
    · refine ⟨2, ⟨s.ready, s.scheduled, s.aggregate,
        s.recorded ++ [(c, .aggregate (s.aggregate c) (toDouble (s.aggregate c)))], s.lost⟩,
        by simp [List.replicate_succ, run, step, program, exec, record, h0, htype], rfl,
        fun x hx => List.mem_append_left _ hx, fun r hr he => ?_, fun r _ => rfl,
        fun r hr _ _ => ?_⟩
      · rw [List.mem_singleton.1 hr] at he
        exact absurd he htype
      · rw [List.mem_singleton.1 hr]
        simp

variable (cs toInt64 toDouble) in
/-- A pass that nothing interrupts comes to an end, and leaves no event behind. -/
theorem run_update (rs : List (Fin n)) (s : Loopback n D) : ∃ k s',
    run (program cs toInt64 toDouble) ⟨s, [.update false rs]⟩
        (List.replicate k (.exec 0 false)) = ⟨s', []⟩ ∧ Updates cs toDouble rs s s' := by
  induction rs generalizing s with
  | nil =>
    refine ⟨1, s, ?_, rfl, fun x hx => hx, fun r hr => absurd hr List.not_mem_nil, fun r _ => rfl,
      fun r hr => absurd hr List.not_mem_nil⟩
    simp [run, step, program, exec]
  | cons c rs ih =>
    obtain ⟨k₁, s₁, hrun₁, h₁⟩ := run_turn cs toInt64 toDouble c rs s
    obtain ⟨k, s', hrun, h⟩ := ih s₁
    refine ⟨k₁ + k, s', ?_, h.lost.trans h₁.lost, fun x hx => h.kept x (h₁.kept x hx),
      fun r hr he => ?_, fun r hr => ?_, fun r hr hne hv => ?_⟩
    · rw [List.replicate_add, run, List.foldl_append]
      rw [run] at hrun₁
      rw [hrun₁]
      exact hrun
    · by_cases hmem : r ∈ rs
      · exact h.zero r hmem he
      · obtain rfl := (List.mem_cons.1 hr).resolve_right hmem
        rw [h.same r (.inl hmem)]
        exact h₁.zero r (List.mem_singleton.2 rfl) he
    · rw [h.same r (hr.imp_left fun hr hmem => hr (List.mem_cons_of_mem _ hmem)),
        h₁.same r (hr.imp_left fun hr hmem => hr (List.mem_singleton.1 hmem ▸ List.mem_cons_self))]
    · have hsame : s₁.aggregate r = s.aggregate r := h₁.same r (.inr hne)
      rcases List.mem_cons.1 hr with rfl | hr
      · exact h.kept _ (h₁.current r (List.mem_singleton.2 rfl) hne hv)
      · have := h.current r hr hne (hsame.symm ▸ hv)
        rwa [hsame] at this

theorem mem_linked : r ∈ linked cs ↔ (cs r).type ≠ .gauge := by
  simp [linked, LoopbackCounterRecord.isAggregate]

theorem income_replicate (r : Fin n) (k : ℕ) : income (added toInt64 r)
    (List.replicate k (.exec 0 false : Event (LoopbackCall n D) Bool)) = 0 := by
  induction k with
  | zero => rfl
  | succ k ih => rw [List.replicate_succ, income_exec, ih]

/-- **Events of the daemon are conserved**, in 64-bit arithmetic, however many threads are in
`forceUpdates` and whatever their order.  What was added to an event counter is in its aggregate,
reported, about to be reported by one thread, or was taken by a call of `record` that threw; what is
reported of a `TypeCounted` counter is a total that it had.  `record` gets the `double` of such a
number.  As long as it throws no exception nothing is lost, and the timer goes on.  When no thread is
in `forceUpdates`, a pass on its own in which it throws none reports everything. -/
theorem loopback_conserved (cs : Fin n → LoopbackCounterRecord) (toInt64 : D → BitVec 64)
    (toDouble : BitVec 64 → D) (es : List (Event (LoopbackCall n D) Bool)) (r : Fin n) :
    let s := run (program cs toInt64 toDouble) ⟨new, []⟩ es
    let total := income (added toInt64 r) es
    ((cs r).type = .event →
      s.state.aggregate r + reported r s.state.recorded + reported r s.state.lost +
        underWay (inFlight r) s.pending = total) ∧
    ((cs r).type = .counted → s.state.aggregate r = total ∧
      ∀ v x, (r, .aggregate v x) ∈ s.state.recorded → HadTotal toInt64 r es v) ∧
    (∀ v x, (r, .aggregate v x) ∈ s.state.recorded → x = toDouble v) ∧
    ((∀ i, .exec i true ∉ es) → s.state.lost = [] ∧
      (s.state.ready = true → s.state.scheduled = true ∨ ∃ h ∈ s.pending, Timed h)) ∧
    (s.state.ready = true → s.pending = [] → ∃ k,
      let s' := run (program cs toInt64 toDouble) s
        (.call .forceUpdates :: List.replicate k (.exec 0 false))
      s'.pending = [] ∧ s'.state.lost = s.state.lost ∧
        ((cs r).type = .event →
          reported r s'.state.recorded + reported r s'.state.lost = total) ∧
        ((cs r).type = .counted → total ≠ 0 →
          (r, .aggregate total (toDouble total)) ∈ s'.state.recorded)) := by
  intro s total
  refine ⟨fun hr => event_balance toInt64 toDouble hr es,
    fun hr => ⟨counted_balance toInt64 toDouble hr es,
      (counted_reports toInt64 toDouble hr es).recorded⟩,
    fun v x hmem => converted cs toInt64 es r v x hmem,
    fun hes => ⟨lost_run cs toInt64 toDouble hes, fun hready =>
      ticking_run cs toInt64 toDouble es hready (lost_run cs toInt64 toDouble hes)⟩,
    fun hready hpend => ?_⟩
  obtain ⟨k, s', hrun, hupd⟩ := run_update cs toInt64 toDouble (linked cs) s.state
  have hpass : run (program cs toInt64 toDouble) s
      (.call .forceUpdates :: List.replicate k (.exec 0 false)) = ⟨s', []⟩ := by
    rw [← hrun, run, List.foldl_cons, run]
    congr 1
    simp [step, program, call, hready, hpend]
  have hwhole : run (program cs toInt64 toDouble) ⟨new, []⟩
      (es ++ .call .forceUpdates :: List.replicate k (.exec 0 false)) = ⟨s', []⟩ := by
    rw [run, List.foldl_append]
    exact hpass
  have htotal : income (added toInt64 r) (es ++ .call .forceUpdates ::
      List.replicate k (.exec 0 false)) = total := by
    have hcall : added toInt64 r (.forceUpdates : LoopbackCall n D) = 0 := rfl
    rw [income_append, income_call, income_replicate, hcall, add_zero, add_zero]
  refine ⟨k, ?_⟩
  rw [hpass]
  refine ⟨rfl, hupd.lost, fun hr => ?_, fun hr hne => ?_⟩
  · have hbal := event_balance toInt64 toDouble hr
      (es ++ .call .forceUpdates :: List.replicate k (.exec 0 false))
    rw [hwhole, htotal] at hbal
    have hzero := hupd.zero r (mem_linked.2 (by rw [hr]; decide)) hr
    simpa [hzero] using hbal
  · have hagg : s.state.aggregate r = total := counted_balance toInt64 toDouble hr es
    have := hupd.current r (mem_linked.2 (by rw [hr]; decide)) (by rw [hr]; decide)
      (hagg.symm ▸ hne)
    rwa [hagg] at this

/-- An event counter and a `TypeCounted` one. -/
def sampleRecords : Fin 2 → LoopbackCounterRecord :=
  ![.make (bytes "accepted") .event, .make (bytes "connections") .counted]

/-- Two threads read and subtract the same three events, and one of them has reported. -/
def sampleThreads : List (Event (LoopbackCall 2 ℤ) Bool) :=
  [.call .setup, .call (.value 0 3), .call (.value 1 5), .call .forceUpdates, .call .forceUpdates] ++
    List.replicate 9 (.exec 0 false)

/-- The events are reported once, about to be reported once more, and the aggregate makes up for it.
-/
theorem loopback_conserved_sample :
    let s := run (program sampleRecords (BitVec.ofInt 64) BitVec.toInt) ⟨new, []⟩ sampleThreads
    s.state.aggregate 0 + reported 0 s.state.recorded + reported 0 s.state.lost +
        underWay (inFlight 0) s.pending = 3#64 ∧
      s.state.aggregate 0 = -3#64 := by
  refine ⟨((loopback_conserved sampleRecords (BitVec.ofInt 64) BitVec.toInt sampleThreads 0).1
    (by decide)).trans ?_, ?_⟩
  · decide +kernel
  · decide +kernel

/-- The timer's pass takes three events and throws: they are gone, and so is the timer. -/
example :
    let s := run (program sampleRecords (BitVec.ofInt 64) BitVec.toInt) ⟨new, []⟩
      ([.call .setup, .call (.value 0 3), .call .updateAggregates] ++
        [.exec 0 false, .exec 0 false, .exec 0 false, .exec 0 true])
    s.state.aggregate 0 = 0 ∧ reported 0 s.state.recorded = 0 ∧ reported 0 s.state.lost = 3#64 ∧
      s.state.scheduled = false ∧ s.pending.length = 0 := by
  decide +kernel

end Loopback

end Istatd
