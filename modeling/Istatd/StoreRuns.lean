import Istatd.StoreInvariant

/-!
# Where the records go

* `StatStore.delivered`, `StoreHandler.carried`: the records that are done with, and those under way;
* `StatStore.DroppedDeleted`: a record is dropped only if its counter has been deleted;
* `records_delivered`: no record is lost, duplicated or delivered to another counter.
-/

namespace Istatd

open Executor StatStore

variable {C D : Type} {s s' : StatStore C D}

/-! ### The account -/

/-- A quantity summed over a list in which one element is changed. -/
theorem sum_map_modify {α M : Type*} [AddCommMonoid M] {g : α → M} {f : α → α} {l : List α} {i : ℕ}
    {x : α} {d : M} (hx : l[i]? = some x) (hg : g (f x) = g x + d) :
    ((l.modify i f).map g).sum = (l.map g).sum + d := by
  induction l generalizing i with
  | nil => cases hx
  | cons y l ih =>
    cases i with
    | zero =>
      obtain rfl : y = x := by simpa using hx
      simp only [List.modify_zero_cons, List.map_cons, List.sum_cons, hg]
      abel
    | succ i =>
      simp only [List.modify_succ_cons, List.map_cons, List.sum_cons, ih (by simpa using hx)]
      abel

/-- A change that a function does not see. -/
theorem map_modify_same {α β : Type*} {g : α → β} {f : α → α} (h : ∀ x, g (f x) = g x) (l : List α)
    (i : ℕ) : (l.modify i f).map g = l.map g := by
  induction l generalizing i with
  | nil => simp
  | cons y l ih =>
    cases i with
    | zero => simp [h]
    | succ i => simp [ih]

/-- The sample of a call, if it is a record. -/
def AsyncCall.sample? : AsyncCall D → Option (Sample D)
  | .record r => some r
  | _ => none

/-- The records that have run on a counter, with its key. -/
def AsyncCounter.received (x : AsyncCounter C D) : Multiset (Bytes × Sample D) :=
  ((x.calls.filterMap AsyncCall.sample?).map fun r => (x.key, r) : List (Bytes × Sample D))

/-- The records that a pending handler still has to deliver. -/
def StoreHandler.carried : StoreHandler D → Multiset (Bytes × Sample D)
  | .recordLoop c => deliveries (c.maxAgg + 1) c.cname c.sample
  | .record a _ r => {(a.key, r)}
  | _ => 0

/-- The records that a call of the store has to deliver. -/
def StoreCall.sent (aggregateCount : ℤ) : StoreCall D → Multiset (Bytes × Sample D)
  | .record ctr r => deliveries (1 + aggregateCount).toNat ctr r
  | _ => 0

namespace StatStore

/-- The records that have run on the counters. -/
def received (s : StatStore C D) : Multiset (Bytes × Sample D) :=
  (s.asyncCounters.map AsyncCounter.received).sum

/-- The records that are done with: run on a counter, or dropped or aborted. -/
def delivered (s : StatStore C D) : Multiset (Bytes × Sample D) :=
  s.received + s.dropped + s.aborted

theorem received_modify {a : AsyncPtr} {f : AsyncCounter C D → AsyncCounter C D}
    {d : Multiset (Bytes × Sample D)} (ha : s.Valid a)
    (hf : ∀ x : AsyncCounter C D, x.key = a.key → (f x).received = x.received + d) :
    (s.modify a f).received = s.received + d := by
  obtain ⟨x, hx, hk⟩ := Option.map_eq_some_iff.1 ha
  exact sum_map_modify hx (hf x hk)

theorem received_modify_same {a : AsyncPtr} {f : AsyncCounter C D → AsyncCounter C D}
    (hf : ∀ x, (f x).received = x.received) : (s.modify a f).received = s.received :=
  congrArg List.sum (map_modify_same hf _ _)

theorem received_callOn_record {a : AsyncPtr} (ha : s.Valid a) (r : Sample D) :
    (s.callOn a (.record r)).received = s.received + {(a.key, r)} := by
  refine received_modify ha fun x hx => ?_
  simp only [AsyncCounter.received, hx, List.filterMap_append, List.map_append, ← Multiset.coe_add]
  rfl

theorem received_callOn {a : AsyncPtr} {call : AsyncCall D} (h : call.sample? = none) :
    (s.callOn a call).received = s.received :=
  received_modify_same fun x => by simp [AsyncCounter.received, h]

theorem received_delete {a : AsyncPtr} :
    (s.modify a fun x => { x with deleted := true }).received = s.received :=
  received_modify_same fun _ => rfl

theorem received_insertCounter (k : Bytes) (m : C) :
    (s.insertCounter k m).received = s.received := by
  simp [received, insertCounter, AsyncCounter.received]

theorem delivered_goDelete (d : Deleter) : (s.goDelete d).1.delivered +
    underWay StoreHandler.carried (s.goDelete d).2 = s.delivered := by
  unfold goDelete
  split_ifs
  · simp [delivered, received]
  · simp [StoreHandler.carried]

theorem delivered_goFlush (f : Flusher) : (s.goFlush f).1.delivered +
    underWay StoreHandler.carried (s.goFlush f).2 = s.delivered := by
  unfold goFlush
  split_ifs
  · simp [delivered, received]
  · simp [StoreHandler.carried]

theorem delivered_callOn {a : AsyncPtr} {call : AsyncCall D} (h : call.sample? = none) :
    (s.callOn a call).delivered = s.delivered := by
  rw [delivered, received_callOn h]
  rfl

theorem delivered_openStep (c : RecordCall D) (made : Option C) (s : StatStore C D) (name : Bytes)
    (outer : Option AsyncPtr) : (c.openStep made s name outer).1.delivered +
      underWay StoreHandler.carried (c.openStep made s name outer).2 =
        s.delivered + deliveries (c.maxAgg + 1) c.cname c.sample := by
  rcases c.openStep_cases made s name outer with
    ⟨-, h⟩ | ⟨k, -, ⟨a, -, h⟩ | ⟨-, ⟨-, h⟩ | ⟨m, -, h⟩⟩⟩
  · simp [h, StoreHandler.carried]
  · simp [h, StoreHandler.carried]
  · rw [h, underWay_nil, add_zero]
    simp only [delivered, received, ← Multiset.coe_add]
    abel
  · rw [h]
    have : (s.insertCounter k m).delivered = s.delivered := by
      rw [delivered, received_insertCounter]
      rfl
    simp [this, StoreHandler.carried]

/-- The deliveries of a round and of the rounds after it. -/
theorem deliveries_next (c : RecordCall D) :
    (deliveries (c.maxAgg + 1) c.cname c.sample : Multiset (Bytes × Sample D)) =
      ↑((openedKey c.cname).toList.map fun key => (key, c.sample)) +
        underWay StoreHandler.carried (c.next.toList.map .recordLoop) := by
  have hcons (l : List Bytes) : (c.cname :: l).filterMap openedKey =
      (openedKey c.cname).toList ++ l.filterMap openedKey := by
    cases hk : openedKey c.cname <;> simp [hk]
  unfold deliveries RecordCall.next
  rw [levels, hcons, List.map_append, ← Multiset.coe_add]
  congr 1
  cases beforeLastDot c.cname with
  | none => simp
  | some p =>
    cases c.maxAgg with
    | zero => simp [levels]
    | succ n => simp [StoreHandler.carried, deliveries]

theorem delivered_step (made : Option C) {c : RecordCall D} (hc : c.Ok s) :
    (c.step made s).1.delivered + underWay StoreHandler.carried (c.step made s).2 =
      s.delivered + deliveries (c.maxAgg + 1) c.cname c.sample := by
  unfold RecordCall.Ok at hc
  unfold RecordCall.step
  cases hph : c.phase with
  | find => exact delivered_openStep c made s c.cname none
  | parent sex a => exact delivered_openStep c made s sex (some a)
  | post found =>
    rw [hph] at hc
    rw [deliveries_next, hc.1, underWay_append]
    cases found <;> simp [StoreHandler.carried]

theorem delivered_deleteLoop (throws : Bool) (names : List Bytes) (d : Deleter)
    (complete : Completion) : (s.deleteLoop throws names d complete).1.delivered +
      underWay StoreHandler.carried (s.deleteLoop throws names d complete).2 = s.delivered := by
  cases names with
  | nil =>
    rcases s.deleteLoop_nil_cases throws d complete with h | ⟨-, -, h⟩
    · rw [h, underWay_append, ← add_assoc, delivered_goDelete]
      cases complete.cmp <;> simp [StoreHandler.carried]
    · simp [h, delivered, received]
  | cons ctr names =>
    rcases s.deleteLoop_cases throws ctr names d complete with ⟨a, k, -, -, h⟩ | h <;>
      simp [h, StoreHandler.carried]

theorem delivered_deleteStuff (throws : Bool) {d : Deleter} (hne : d.toDelete ≠ []) :
    (s.deleteStuff throws d).1.delivered +
      underWay StoreHandler.carried (s.deleteStuff throws d).2 = s.delivered := by
  obtain ⟨w, rest, hw⟩ := List.exists_cons_of_ne_nil hne
  have hpurge (threw : Bool) : (s.callOn w.aCount (.purge threw)).delivered = s.delivered :=
    delivered_callOn rfl
  rcases s.deleteStuff_cases throws hw with ⟨-, h⟩ | ⟨-, -, h⟩ | ⟨-, -, h⟩
  · rw [h, delivered_goDelete]
  · rw [h, delivered_goDelete, hpurge]
  · rw [h, underWay_nil, add_zero]
    exact hpurge true

theorem delivered_flushStuff (throws : Bool) {f : Flusher} (hne : f.ptrs ≠ []) :
    (s.flushStuff throws f).1.delivered +
      underWay StoreHandler.carried (s.flushStuff throws f).2 = s.delivered := by
  obtain ⟨a, rest, ha⟩ := List.exists_cons_of_ne_nil hne
  have hflush (threw : Bool) : (s.callOn a (.forceFlush threw)).delivered = s.delivered :=
    delivered_callOn rfl
  rcases s.flushStuff_cases throws ha with ⟨-, h⟩ | ⟨-, -, h⟩ | ⟨-, -, h⟩
  · rw [h, delivered_goFlush]
  · rw [h, delivered_goFlush, hflush]
  · rw [h, underWay_nil, add_zero]
    exact hflush true

/-- A handler keeps the records that are done with or under way. -/
theorem delivered_exec (e : StoreInput C) {h : StoreHandler D} (hok : h.Ok s) :
    (exec e h s).1.delivered + underWay StoreHandler.carried (exec e h s).2 =
      s.delivered + h.carried := by
  cases h with
  | recordLoop c => exact delivered_step e.made hok
  | record a live r =>
    simp only [exec, underWay_nil, add_zero, StoreHandler.carried]
    cases live with
    | true =>
      rw [if_pos rfl, delivered, received_callOn_record hok.1]
      simp only [delivered, callOn, modify]
      abel
    | false =>
      simp only [Bool.false_eq_true, if_false, delivered, received, ← Multiset.coe_add,
        Multiset.coe_singleton]
      abel
  | flush a live =>
    simp only [exec, underWay_nil, StoreHandler.carried]
    split_ifs
    · rw [delivered_callOn rfl]
    · rfl
  | deleteLoop names d complete =>
    exact (delivered_deleteLoop e.throws names d complete).trans (add_zero _).symm
  | deleteFound a ctr names d complete => simp [exec, deleteFound, StoreHandler.carried]
  | deleteRead a live ctr names d complete =>
    have : (s.modify a fun x => { x with deleted := true }).delivered = s.delivered := by
      rw [delivered, received_delete]
      rfl
    simp [exec, deleteRead, this, StoreHandler.carried]
  | deleteStuff d => exact (delivered_deleteStuff e.throws hok.2).trans (add_zero _).symm
  | flushLoop it f =>
    simp only [exec, flushLoop, StoreHandler.carried, add_zero]
    split
    · simp [StoreHandler.carried]
    · simp [StoreHandler.carried]
    · exact delivered_goFlush f
  | flushStuff f => exact (delivered_flushStuff e.throws hok.2).trans (add_zero _).symm
  | callComplete complete => simp [exec, delivered, received, StoreHandler.carried]

/-- A call adds the records it has to deliver. -/
theorem delivered_call (c : StoreCall D) (s : StatStore C D) : (call c s).1.delivered +
    underWay StoreHandler.carried (call c s).2 = s.delivered + c.sent s.aggregateCount := by
  cases c with
  | record ctr r =>
    simp only [call, StoreCall.sent]
    cases (1 + s.aggregateCount).toNat with
    | zero => simp [deliveries, levels]
    | succ n => simp [StoreHandler.carried]
  | deleteCounter ctr complete => simp [call, StoreCall.sent, StoreHandler.carried]
  | deletePattern results complete => simp [call, StoreCall.sent, StoreHandler.carried]
  | flushAll cmp => simp [call, StoreCall.sent, StoreHandler.carried]
  | sync =>
    simp only [call, syncPass, StoreCall.sent, add_zero]
    split <;> simp [delivered, received, StoreHandler.carried]
  | sweep i => simp [call, sweep, delivered, received, StoreCall.sent]

/-- The records that were dropped had deleted counters. -/
def DroppedDeleted (s : StatStore C D) : Prop :=
  ∀ kr ∈ s.dropped, ∃ a, s.Valid a ∧ s.isDeleted a = true ∧ a.key = kr.1

theorem DroppedDeleted.extends (h : s.DroppedDeleted) (he : s.Extends s')
    (hd : s'.dropped = s.dropped) : s'.DroppedDeleted := by
  intro kr hkr
  obtain ⟨a, hv, hdel, hk⟩ := h kr (hd ▸ hkr)
  exact ⟨a, he.valid hv, he.isDeleted hdel, hk⟩

/-- Records are dropped by the handlers that are bound to `theDeletedCounter`, and aborted where the
factory throws. -/
theorem exec_losses (e : StoreInput C) (h : StoreHandler D) (s : StatStore C D) :
    ((exec e h s).1.dropped = s.dropped ∨ ∃ a r, h = .record a false r ∧
        (exec e h s).1.dropped = s.dropped ++ [(a.key, r)]) ∧
      (e.made ≠ none → (exec e h s).1.aborted = s.aborted) := by
  by_cases hloop : ∃ c, h = .recordLoop c
  · obtain ⟨c, rfl⟩ := hloop
    obtain ⟨-, hdropped, haborted⟩ := step_framed c e.made s
    exact ⟨.inl hdropped, haborted⟩
  · have hframed := exec_framed e (fun c hc => hloop ⟨c, hc⟩) s
    refine ⟨?_, fun _ => hframed.aborted⟩
    by_cases hdropped : ∃ a r, h = .record a false r
    · obtain ⟨a, r, rfl⟩ := hdropped
      exact .inr ⟨a, r, rfl, rfl⟩
    · exact .inl (hframed.dropped fun a r hr => hdropped ⟨a, r, hr⟩)

theorem droppedDeleted_exec (hwf : s.Wf) (h : s.DroppedDeleted) (e : StoreInput C)
    {x : StoreHandler D} (hok : x.Ok s) : (exec e x s).1.DroppedDeleted := by
  have he := (sound_exec hwf e hok).extends_
  rcases (exec_losses e x s).1 with hd | ⟨a, r, rfl, hd⟩
  · exact h.extends he hd
  · intro kr hkr
    rw [hd] at hkr
    rcases List.mem_append.1 hkr with hkr | hkr
    · obtain ⟨b, hv, hdel, hk⟩ := h kr hkr
      exact ⟨b, he.valid hv, he.isDeleted hdel, hk⟩
    · rw [List.mem_singleton.1 hkr]
      exact ⟨a, he.valid hok.1, he.isDeleted (hok.2 rfl), rfl⟩

/-! ### Runs -/

section

variable (ac : ℤ) (recursively : Bool) (es : List (Event (StoreCall D) (StoreInput C)))

theorem delivered_run :
    let t := run (program C D) ⟨new ac recursively, []⟩ es
    t.state.received + t.state.dropped + t.state.aborted +
      underWay StoreHandler.carried t.pending = income (StoreCall.sent ac) es := by
  have hbal := balance (p := program C D) (s := ⟨new ac recursively, []⟩)
    (I := fun s q => Inv s q ∧ s.aggregateCount = ac) (v := delivered) (w := StoreHandler.carried)
    (c := StoreCall.sent ac)
    (fun c s q h => ⟨inv_call h.1 c, (sound_call h.1.wf c).extends_.aggregateCount.trans h.2⟩)
    (fun e s l x l' h => ⟨inv_exec h.1 e,
      (sound_exec h.1.wf e (h.1.ok x (by simp))).extends_.aggregateCount.trans h.2⟩)
    (fun c s q h => by rw [← h.2]; exact delivered_call c s)
    (fun e s l x l' h => delivered_exec e (h.1.ok x (by simp)))
    ⟨inv_new ac recursively, rfl⟩ es
  have hnew : (new ac recursively : StatStore C D).delivered = 0 := rfl
  rw [hnew, underWay_nil, add_zero, zero_add] at hbal
  exact hbal

theorem droppedDeleted_run :
    (run (program C D) ⟨new ac recursively, []⟩ es).state.DroppedDeleted := by
  refine (invariant (p := program C D) (Q := fun _ => True) (R := fun _ => True)
    (I := fun s q => Inv s q ∧ s.DroppedDeleted) ?_ ?_
    ⟨inv_new ac recursively, by simp [DroppedDeleted, new]⟩
    (fun _ _ => trivial) fun _ _ _ => trivial).2
  · rintro c s q - ⟨hi, hd⟩
    exact ⟨inv_call hi c, hd.extends (sound_call hi.wf c).extends_ (call_framed c s).2.1.1⟩
  · rintro e s l x l' - ⟨hi, hd⟩
    exact ⟨inv_exec hi e, droppedDeleted_exec hi.wf hd e (hi.ok x (by simp))⟩

theorem aborted_run (hes : ∀ i e, .exec i e ∈ es → e.made ≠ none) :
    (run (program C D) ⟨new ac recursively, []⟩ es).state.aborted = [] := by
  refine invariant (p := program C D) (Q := fun _ => True) (R := fun e => e.made ≠ none)
    (I := fun s _ => s.aborted = []) ?_ ?_ rfl (fun _ _ => trivial) hes
  · rintro c s q - h
    exact (call_framed c s).2.1.2.trans h
  · rintro e s l x l' he h
    exact ((exec_losses e x s).2 he).trans h

end

end StatStore

/-- **No record is lost, duplicated or delivered to another counter.**  In every run, the records
that have run on the counters, with the keys of these, and those that were dropped, aborted or are
still under way, are together the records that the calls of `record` had to deliver: each to its own
counter and to as many of those above it as there are rounds.  A record is dropped only if its
counter has been deleted, and aborted only if the factory throws. -/
theorem records_delivered (ac : ℤ) (recursively : Bool)
    (es : List (Event (StoreCall D) (StoreInput C))) :
    let t := run (program C D) ⟨new ac recursively, []⟩ es
    t.state.received + t.state.dropped + t.state.aborted +
        underWay StoreHandler.carried t.pending = income (StoreCall.sent ac) es ∧
      t.state.DroppedDeleted ∧
      ((∀ i e, .exec i e ∈ es → e.made ≠ none) → t.state.aborted = []) :=
  ⟨delivered_run ac recursively es, droppedDeleted_run ac recursively es,
    aborted_run ac recursively es⟩

end Istatd
