import Istatd.StoreRuns

/-!
# Deletions and requests

A deletion looks a counter up, reads its `statCounter_` and writes `theDeletedCounter`, without a
lock: two deletions can both read the live counter, and both purge it.  A purge, a forced flush or
the pruning can throw, and what comes after it in the handler is not done.

* `purgeStep_exec`: the purges and the deletions of a counter change together;
* `NotOvertaken`, `overlap`: a deletion that another one has overtaken;
* `deleted_purged_once`: when each deleted counter is purged exactly once; and no two live counters
  have one key;
* `requests_completed_once`: every deletion prunes once and every request is completed once, but for
  those that an exception ends.
-/

namespace Istatd

open Executor StatStore

variable {C D : Type} {s s' : StatStore C D}

/-! ### Deletions -/

/-- The call is a purge. -/
def AsyncCall.isPurge : AsyncCall D → Bool
  | .purge _ => true
  | _ => false

/-- The purges of a counter that a deleter has still to make. -/
def Deleter.purges (id : ℕ) (d : Deleter) : ℕ :=
  d.toDelete.countP fun w => w.live && w.aCount.id = id

/-- The purges of a counter that are under way with a handler. -/
def StoreHandler.purges (id : ℕ) : StoreHandler D → ℕ
  | .deleteLoop _ d _ => d.purges id
  | .deleteFound _ _ _ d _ => d.purges id
  | .deleteRead _ _ _ _ d _ => d.purges id
  | .deleteStuff d => d.purges id
  | _ => 0

/-- A deletion that has read a live `statCounter_` writes before another one has written. -/
def StoreHandler.NotOvertaken (s : StatStore C D) : StoreHandler D → Prop
  | .deleteRead a live _ _ _ _ => live = true → s.isDeleted a = false
  | _ => True

/-- One if the handler is a deletion of the counter that another one has overtaken. -/
def StoreHandler.overlap (id : ℕ) (s : StatStore C D) : StoreHandler D → ℕ
  | .deleteRead a live _ _ _ _ => if live = true ∧ a.id = id ∧ s.isDeleted a = true then 1 else 0
  | _ => 0

namespace StatStore

/-- The purges that have run on a counter, those that threw among them. -/
def purges (id : ℕ) (s : StatStore C D) : ℕ :=
  (s.asyncCounters[id]?).elim 0 fun x => x.calls.countP AsyncCall.isPurge

/-- The purges of a counter that were not made because another one had thrown. -/
def skipped (id : ℕ) (s : StatStore C D) : ℕ := (s.abandoned.map (Deleter.purges id)).sum

/-- One if the counter has been deleted. -/
def deletions (id : ℕ) (s : StatStore C D) : ℕ :=
  (s.asyncCounters[id]?).elim 0 fun x => if x.deleted then 1 else 0

/-- Purges and deletions change together: what a handler has made, skipped and posted is what it had
to make, and a new deletion is a new purge to make. -/
def PurgeStep (id : ℕ) (s : StatStore C D) (w : ℕ) (r : StatStore C D × List (StoreHandler D)) :
    Prop :=
  r.1.purges id + (r.1.skipped id + underWay (StoreHandler.purges id) r.2) + s.deletions id =
    s.purges id + (s.skipped id + w) + r.1.deletions id

theorem purgeStep_of_fields {id w : ℕ} {r : StatStore C D × List (StoreHandler D)}
    (h : r.1.asyncCounters = s.asyncCounters)
    (hw : r.1.skipped id + underWay (StoreHandler.purges id) r.2 = s.skipped id + w) :
    PurgeStep id s w r := by
  unfold PurgeStep purges deletions
  rw [h, hw]

theorem purges_callOn (id : ℕ) {a : AsyncPtr} (ha : s.Valid a) (call : AsyncCall D) :
    (s.callOn a call).purges id =
      s.purges id + if call.isPurge = true ∧ a.id = id then 1 else 0 := by
  unfold purges
  rw [callOn, getElem?_modify]
  by_cases hid : a.id = id
  · obtain ⟨x, hx, -⟩ := Option.map_eq_some_iff.1 ha
    subst hid
    simp [hx, List.countP_append]
  · simp [hid]

theorem deletions_callOn (id : ℕ) (a : AsyncPtr) (call : AsyncCall D) :
    (s.callOn a call).deletions id = s.deletions id := by
  unfold deletions
  rw [callOn, getElem?_modify]
  split_ifs <;> cases s.asyncCounters[id]? <;> rfl

theorem purgeStep_insertCounter (id : ℕ) (k : Bytes) (m : C) (c : RecordCall D) :
    PurgeStep id s 0 (s.insertCounter k m, [.recordLoop c]) := by
  have hskip : (s.insertCounter k m).skipped id = s.skipped id := rfl
  unfold PurgeStep purges deletions
  simp only [hskip, underWay_cons, underWay_nil, StoreHandler.purges]
  simp only [insertCounter]
  rcases lt_trichotomy id s.asyncCounters.length with hlt | rfl | hgt
  · rw [List.getElem?_append_left hlt]
    omega
  · simp
  · rw [List.getElem?_eq_none (by simpa using hgt), List.getElem?_eq_none hgt.le]
    rfl

theorem purgeStep_openStep (id : ℕ) (c : RecordCall D) (made : Option C) (s : StatStore C D)
    (name : Bytes) (outer : Option AsyncPtr) : PurgeStep id s 0 (c.openStep made s name outer) := by
  rcases c.openStep_cases made s name outer with
    ⟨-, h⟩ | ⟨k, -, ⟨a, -, h⟩ | ⟨-, ⟨-, h⟩ | ⟨m, -, h⟩⟩⟩
  · rw [h]
    exact purgeStep_of_fields rfl rfl
  · rw [h]
    exact purgeStep_of_fields rfl rfl
  · rw [h]
    exact purgeStep_of_fields rfl rfl
  · rw [h]
    exact purgeStep_insertCounter id k m _

theorem goDelete_purges (id : ℕ) (s : StatStore C D) (d : Deleter) :
    (s.goDelete d).1.asyncCounters = s.asyncCounters ∧ (s.goDelete d).1.skipped id +
      underWay (StoreHandler.purges id) (s.goDelete d).2 = s.skipped id + d.purges id := by
  unfold goDelete
  split_ifs with h
  · refine ⟨rfl, ?_⟩
    rw [List.isEmpty_iff] at h
    simp [Deleter.purges, h, skipped]
  · exact ⟨rfl, by simp [StoreHandler.purges]⟩

theorem goFlush_purges (id : ℕ) (s : StatStore C D) (f : Flusher) :
    (s.goFlush f).1.asyncCounters = s.asyncCounters ∧ (s.goFlush f).1.skipped id +
      underWay (StoreHandler.purges id) (s.goFlush f).2 = s.skipped id := by
  unfold goFlush
  split_ifs
  · exact ⟨rfl, rfl⟩
  · exact ⟨rfl, rfl⟩

/-- A call on a counter; what is skipped or under way after it comes on top. -/
theorem purgeStep_callOn {id n : ℕ} {a : AsyncPtr} (ha : s.Valid a) (call : AsyncCall D)
    {r : StatStore C D × List (StoreHandler D)}
    (hr : r.1.asyncCounters = (s.callOn a call).asyncCounters)
    (hq : r.1.skipped id + underWay (StoreHandler.purges id) r.2 = s.skipped id + n) :
    PurgeStep id s (n + if call.isPurge = true ∧ a.id = id then 1 else 0) r := by
  have hp : r.1.purges id = (s.callOn a call).purges id := by rw [purges, hr]; rfl
  have hd : r.1.deletions id = (s.callOn a call).deletions id := by rw [deletions, hr]; rfl
  unfold PurgeStep
  rw [hp, hd, hq, purges_callOn id ha, deletions_callOn]
  omega

/-- The write of `theDeletedCounter`: a new purge to make if the counter was read before its
deletion, and a new deletion unless it has been deleted since. -/
theorem purgeStep_deleteRead (id : ℕ) {a : AsyncPtr} {live : Bool} (ha : s.Bound a live)
    (ctr : Bytes) (names : List Bytes) (d : Deleter) (complete : Completion) :
    PurgeStep id s (d.purges id + StoreHandler.overlap id s
        (.deleteRead a live ctr names d complete : StoreHandler D))
      (s.deleteRead a live ctr names d complete) := by
  obtain ⟨x, hx, -⟩ := Option.map_eq_some_iff.1 ha.1
  have hskip : (s.modify a fun x => { x with deleted := true }).skipped id = s.skipped id := rfl
  have hlive := ha.2
  unfold PurgeStep purges deletions deleteRead
  simp only [hskip, getElem?_modify, underWay_cons, underWay_nil, StoreHandler.purges,
    Deleter.purges, Deleter.addWork, List.countP_append, List.countP_singleton,
    StoreHandler.overlap, isDeleted] at hlive ⊢
  by_cases hid : a.id = id
  · subst hid
    cases hdel : x.deleted <;> cases live <;> simp_all
    omega
  · cases s.asyncCounters[id]? <;> simp [hid]

theorem purgeStep_deleteStuff (id : ℕ) (throws : Bool) {d : Deleter} (hd : d.Ok s)
    (hne : d.toDelete ≠ []) : PurgeStep id s (d.purges id) (s.deleteStuff throws d) := by
  obtain ⟨w, rest, hw⟩ := List.exists_cons_of_ne_nil hne
  have hwork : d.purges id = Deleter.purges id { d with toDelete := rest } +
      if w.live = true ∧ w.aCount.id = id then 1 else 0 := by
    simp [Deleter.purges, hw, List.countP_cons]
  have hval : s.Valid w.aCount := (hd.deleted w (by simp [hw])).1
  rw [hwork]
  rcases s.deleteStuff_cases throws hw with ⟨hl, h⟩ | ⟨hl, -, h⟩ | ⟨hl, -, h⟩
  · obtain ⟨hs, hq⟩ := goDelete_purges id s { d with toDelete := rest }
    rw [h, hl]
    exact purgeStep_of_fields hs (by rw [if_neg (by simp)]; exact hq)
  · obtain ⟨hs, hq⟩ := goDelete_purges id (s.callOn w.aCount (.purge false))
      { d with toDelete := rest }
    rw [h, hl]
    exact purgeStep_callOn hval (.purge false) hs hq
  · rw [h, hl]
    refine purgeStep_callOn hval (.purge true) rfl ?_
    simp [skipped]

theorem purgeStep_flushStuff (id : ℕ) (throws : Bool) {f : Flusher} (hf : ∀ a ∈ f.ptrs, s.Valid a)
    (hne : f.ptrs ≠ []) : PurgeStep id s 0 (s.flushStuff throws f) := by
  obtain ⟨a, rest, ha⟩ := List.exists_cons_of_ne_nil hne
  have hval : s.Valid a := hf a (by simp [ha])
  rcases s.flushStuff_cases throws ha with ⟨-, h⟩ | ⟨-, -, h⟩ | ⟨-, -, h⟩
  · obtain ⟨hs, hq⟩ := goFlush_purges id s { f with ptrs := rest }
    rw [h]
    exact purgeStep_of_fields hs hq
  · obtain ⟨hs, hq⟩ := goFlush_purges id (s.callOn a (.forceFlush false))
      { f with ptrs := rest }
    rw [h]
    exact purgeStep_callOn hval (.forceFlush false) hs hq
  · rw [h]
    exact purgeStep_callOn hval (.forceFlush true) rfl rfl

theorem purgeStep_deleteLoop (id : ℕ) (throws : Bool) (names : List Bytes) (d : Deleter)
    (complete : Completion) :
    PurgeStep id s (d.purges id) (s.deleteLoop throws names d complete) := by
  cases names with
  | nil =>
    rcases s.deleteLoop_nil_cases throws d complete with h | ⟨-, hd, h⟩
    · obtain ⟨hs, hq⟩ := goDelete_purges id s d
      rw [h]
      refine purgeStep_of_fields hs ?_
      rw [underWay_append, ← add_assoc, hq]
      cases complete.cmp <;> simp [StoreHandler.purges]
    · rw [h]
      refine purgeStep_of_fields rfl ?_
      simp [Deleter.purges, hd, skipped]
  | cons ctr names =>
    rcases s.deleteLoop_cases throws ctr names d complete with ⟨a, k, -, -, h⟩ | h
    · rw [h]
      exact purgeStep_of_fields rfl rfl
    · rw [h]
      exact purgeStep_of_fields rfl rfl

/-- **A handler** keeps the account of purges and deletions, but for a deletion that another one
has overtaken. -/
theorem purgeStep_exec (id : ℕ) (e : StoreInput C) {h : StoreHandler D} (hok : h.Ok s) :
    PurgeStep id s (h.purges id + h.overlap id s) (exec e h s) := by
  cases h with
  | recordLoop c =>
    simp only [exec, RecordCall.step]
    split
    · exact purgeStep_openStep id c e.made s _ _
    · exact purgeStep_openStep id c e.made s _ _
    · rename_i found _
      refine purgeStep_of_fields rfl ?_
      cases found <;> cases c.next <;> simp [StoreHandler.purges, StoreHandler.overlap]
  | record a live r =>
    cases live with
    | true => exact purgeStep_callOn hok.1 (.record r) rfl rfl
    | false => exact purgeStep_of_fields rfl rfl
  | flush a live =>
    cases live with
    | true => exact purgeStep_callOn hok.1 .flush rfl rfl
    | false => exact purgeStep_of_fields rfl rfl
  | deleteLoop names d complete => exact purgeStep_deleteLoop id e.throws names d complete
  | deleteFound a ctr names d complete => exact purgeStep_of_fields rfl rfl
  | deleteRead a live ctr names d complete =>
    exact purgeStep_deleteRead id hok.1 ctr names d complete
  | deleteStuff d => exact purgeStep_deleteStuff id e.throws hok.1 hok.2
  | flushLoop it f =>
    simp only [exec, flushLoop]
    split
    · exact purgeStep_of_fields rfl rfl
    · exact purgeStep_of_fields rfl rfl
    · obtain ⟨hs, hq⟩ := goFlush_purges id s f
      exact purgeStep_of_fields hs hq
  | flushStuff f => exact purgeStep_flushStuff id e.throws hok.1 hok.2
  | callComplete complete => exact purgeStep_of_fields rfl rfl

theorem purgeStep_call (id : ℕ) (c : StoreCall D) (s : StatStore C D) :
    PurgeStep id s 0 (call c s) := by
  cases c with
  | record ctr r =>
    refine purgeStep_of_fields rfl ?_
    simp only [call]
    split <;> rfl
  | deleteCounter ctr complete => exact purgeStep_of_fields rfl rfl
  | deletePattern results complete => exact purgeStep_of_fields rfl rfl
  | flushAll cmp => exact purgeStep_of_fields rfl rfl
  | sync =>
    simp only [call, syncPass]
    split <;> exact purgeStep_of_fields rfl rfl
  | sweep i => exact purgeStep_of_fields rfl rfl

/-! ### Deletions that overlap -/

/-- The purges of a counter that have run, were skipped, or are still under way. -/
def purgesDue (id : ℕ) (t : Pool (StatStore C D) (StoreHandler D)) : ℕ :=
  t.state.purges id + t.state.skipped id + underWay (StoreHandler.purges id) t.pending

/-- The event is not the write of a deletion that another one has overtaken. -/
def NotOvertaken (t : Pool (StatStore C D) (StoreHandler D)) :
    Event (StoreCall D) (StoreInput C) → Prop
  | .call _ => True
  | .exec i _ => ∀ h ∈ t.pending[i]?, h.NotOvertaken t.state

/-- One if the event is the write of a deletion of the counter that another one has overtaken. -/
def overlap (id : ℕ) (t : Pool (StatStore C D) (StoreHandler D)) :
    Event (StoreCall D) (StoreInput C) → ℕ
  | .call _ => 0
  | .exec i _ => (t.pending[i]?).elim 0 (StoreHandler.overlap id t.state)

variable {t : Pool (StatStore C D) (StoreHandler D)} {ev : Event (StoreCall D) (StoreInput C)}

theorem notOvertaken_handler_iff {h : StoreHandler D} :
    h.NotOvertaken s ↔ ∀ id, h.overlap id s = 0 := by
  cases h with
  | deleteRead a live ctr names d complete =>
    simp only [StoreHandler.NotOvertaken, StoreHandler.overlap, ite_eq_right_iff]
    constructor
    · rintro hap id ⟨hl, -, hd⟩
      rw [hap hl] at hd
      cases hd
    · intro hov hl
      by_contra hd
      exact absurd (hov a.id ⟨hl, rfl, by simpa using hd⟩) one_ne_zero
  | _ => simp [StoreHandler.NotOvertaken, StoreHandler.overlap]

theorem notOvertaken_iff : NotOvertaken t ev ↔ ∀ id, overlap id t ev = 0 := by
  cases ev with
  | call c => simp [NotOvertaken, overlap]
  | exec i e =>
    simp only [NotOvertaken, overlap]
    cases t.pending[i]? with
    | none => simp
    | some h => simpa using notOvertaken_handler_iff

theorem overlap_le_deletions (id : ℕ) : overlap id t ev ≤ t.state.deletions id := by
  cases ev with
  | call c => exact Nat.zero_le _
  | exec i e =>
    simp only [overlap]
    cases t.pending[i]? with
    | none => exact Nat.zero_le _
    | some h =>
      cases h with
      | deleteRead a live ctr names d complete =>
        simp only [Option.elim_some, StoreHandler.overlap]
        split_ifs with hov
        · obtain ⟨x, hx, hd⟩ := isDeleted_iff.1 hov.2.2
          rw [hov.2.1] at hx
          simp [deletions, hx, hd]
        · exact Nat.zero_le _
      | _ => exact Nat.zero_le _

theorem Extends.deletions_le (h : s.Extends s') (id : ℕ) : s.deletions id ≤ s'.deletions id := by
  unfold deletions
  cases hx : s.asyncCounters[id]? with
  | none => exact Nat.zero_le _
  | some x =>
    obtain ⟨x', hx', -, hd, -⟩ := h.counters id x hx
    rw [hx']
    cases hdel : x.deleted with
    | false => simp [hdel]
    | true => simp [hdel, hd hdel]

/-- The invariant of a pool. -/
theorem inv_step (h : Inv t.state t.pending) (ev : Event (StoreCall D) (StoreInput C)) :
    Inv (step (program C D) t ev).state (step (program C D) t ev).pending ∧
      t.state.Extends (step (program C D) t ev).state := by
  cases ev with
  | call c => exact ⟨inv_call h c, (sound_call h.wf c).extends_⟩
  | exec i e =>
    rcases exec_cases (p := program C D) (s := t) i e with heq | ⟨l, x, l', hpend, -, heq⟩
    · rw [heq]
      exact ⟨h, Extends.refl _⟩
    · rw [hpend] at h
      rw [heq]
      exact ⟨inv_exec h e, (sound_exec h.wf e (h.ok x (by simp))).extends_⟩

/-- **One event**: a new deletion is a new purge, and so is a deletion that another one has
overtaken. -/
theorem purgesDue_step (h : Inv t.state t.pending) (ev : Event (StoreCall D) (StoreInput C))
    (id : ℕ) : purgesDue id (step (program C D) t ev) + t.state.deletions id =
      purgesDue id t + (step (program C D) t ev).state.deletions id + overlap id t ev := by
  cases ev with
  | call c =>
    have hstep := purgeStep_call id c t.state
    simp only [PurgeStep, step, program, purgesDue, overlap, underWay_append] at hstep ⊢
    omega
  | exec i e =>
    cases hi : t.pending[i]? with
    | none => simp [step, hi, overlap]
    | some x =>
      obtain ⟨l, l', hpend, -, heq⟩ := exec_of_pending (p := program C D) hi e
      have hstep := purgeStep_exec id e (h.ok x (hpend ▸ by simp))
      rw [heq]
      simp only [overlap, hi, Option.elim_some]
      simp only [PurgeStep, purgesDue, program, hpend, underWay_append, underWay_cons] at hstep ⊢
      omega

/-- What every run keeps: a deleted counter has at least one purge, and one that is not deleted has
none. -/
structure Accounted (t : Pool (StatStore C D) (StoreHandler D)) : Prop where
  inv : Inv t.state t.pending
  purged : ∀ id, t.state.deletions id ≤ purgesDue id t
  kept : ∀ id, t.state.deletions id = 0 → purgesDue id t = 0

theorem Accounted.step (h : Accounted t) (ev : Event (StoreCall D) (StoreInput C)) :
    Accounted (step (program C D) t ev) := by
  obtain ⟨hinv, hext⟩ := inv_step h.inv ev
  refine ⟨hinv, fun id => ?_, fun id hdel => ?_⟩
  all_goals
    have hstep := purgesDue_step h.inv ev id
    have hle := hext.deletions_le id
    have hov : overlap id t ev ≤ t.state.deletions id := overlap_le_deletions id
    have hp := h.purged id
    have hk := h.kept id
    omega

/-- The purges are as many as the deletions exactly after runs without overtaken deletions. -/
theorem purged_once_iff (h : Accounted t) (h0 : ∀ id, purgesDue id t = t.state.deletions id)
    (es : List (Event (StoreCall D) (StoreInput C))) :
    (∀ id, purgesDue id (run (program C D) t es) =
        (run (program C D) t es).state.deletions id) ↔
      Run.Along (step (program C D)) NotOvertaken t es := by
  have hlaw (t : Pool (StatStore C D) (StoreHandler D))
      (ev : Event (StoreCall D) (StoreInput C)) (ht : Accounted t) (id : ℕ) :=
    purgesDue_step ht.inv ev id
  rw [run, ← Run.always_iff_last (J := Accounted)
      (I := fun t => ∀ id, purgesDue id t = t.state.deletions id) (fun _ ev ht => ht.step ev) ?_ h,
    Run.always_iff_along (J := Accounted) (fun _ ev ht => ht.step ev) ?_ h]
  · exact and_iff_right h0
  · intro t ev ht hI
    rw [notOvertaken_iff]
    refine forall_congr' fun id => ?_
    have := hlaw t ev ht id
    have := hI id
    omega
  · intro t ev ht hI id
    have := hlaw t ev ht id
    have := hI id
    have := ht.purged id
    omega

/-! ### Exceptions -/

/-- Calls of `on_complete` are lost for good, and only by a handler in which something throws. -/
theorem exec_ends (e : StoreInput C) (h : StoreHandler D) (s : StatStore C D) :
    s.uncompleted <+: (exec e h s).1.uncompleted ∧
      (e.throws = false → SameEnds s (exec e h s).1) := by
  by_cases hloop : ∃ c, h = .recordLoop c
  · obtain ⟨c, rfl⟩ := hloop
    have hends : SameEnds s (c.step e.made s).1 := (step_framed c e.made s).1
    refine ⟨?_, fun _ => hends⟩
    rw [exec, hends.2]
  · have hframed := exec_framed e (fun c hc => hloop ⟨c, hc⟩) s
    exact ⟨hframed.uncompleted, hframed.ends⟩

/-- Where nothing throws, no deleter and no call of `on_complete` is lost. -/
theorem ends_run (ac : ℤ) (recursively : Bool) {es : List (Event (StoreCall D) (StoreInput C))}
    (hes : ∀ i e, .exec i e ∈ es → e.throws = false) :
    SameEnds (new ac recursively) (run (program C D) ⟨new ac recursively, []⟩ es).state := by
  refine invariant (p := program C D) (Q := fun _ => True) (R := fun e => e.throws = false)
    (I := fun s _ => SameEnds (new ac recursively) s) ?_ ?_ ⟨rfl, rfl⟩ (fun _ _ => trivial) hes
  · rintro c s q - h
    obtain ⟨-, -, hc⟩ := call_framed c s
    exact ⟨hc.1.trans h.1, hc.2.trans h.2⟩
  · rintro e s l x l' he h
    have hx := (exec_ends e x s).2 he
    exact ⟨hx.1.trans h.1, hx.2.trans h.2⟩

end StatStore

/-- **When a deleted counter is purged once.**  In every run, count of each counter the purges that
have run, those skipped because a purge of the same deletion threw, and those still under way.  There
are none if the counter has not been deleted and at least one if it has.  There is exactly one for
every deleted counter if and only if no deletion in the run reads a live `statCounter_` and writes
`theDeletedCounter` after another deletion has written it in between.  If nothing throws, none is
skipped.  No two counters of one key are both not deleted. -/
theorem deleted_purged_once (ac : ℤ) (recursively : Bool)
    (es : List (Event (StoreCall D) (StoreInput C))) :
    let t := run (program C D) ⟨new ac recursively, []⟩ es
    (∀ id, t.state.deletions id ≤ purgesDue id t ∧
        (t.state.deletions id = 0 → purgesDue id t = 0)) ∧
      ((∀ id, purgesDue id t = t.state.deletions id) ↔
        Run.Along (step (program C D)) NotOvertaken ⟨new ac recursively, []⟩ es) ∧
      ((∀ i e, .exec i e ∈ es → e.throws = false) → ∀ id, t.state.skipped id = 0) ∧
      ∀ a b, t.state.Valid a → t.state.Valid b → a.key = b.key → t.state.isDeleted a = false →
        t.state.isDeleted b = false → a = b := by
  intro t
  have hnew : Accounted (⟨new ac recursively, []⟩ : Pool (StatStore C D) (StoreHandler D)) :=
    ⟨inv_new ac recursively, fun _ => le_rfl, fun _ _ => rfl⟩
  have ht : Accounted t := Run.invariant (fun _ ev h => h.step ev) hnew es
  refine ⟨fun id => ⟨ht.purged id, ht.kept id⟩, purged_once_iff hnew (fun _ => rfl) es,
    fun hes id => ?_, fun a b ha hb hk hda hdb => ?_⟩
  · rw [skipped, (ends_run ac recursively hes).1]
    rfl
  · have h1 := ht.inv.wf.listed a ha hda
    rw [hk, ht.inv.wf.listed b hb hdb] at h1
    exact (Option.some.inj h1).symm

/-- Two deletions of one counter, which both read it before either writes: it is purged twice. -/
example :
    let e : Event (StoreCall ℕ) (StoreInput Unit) := .exec 0 ⟨some (), false⟩
    let delete := .call (.deleteCounter (bytes "a") none)
    (run (program Unit ℕ) ⟨new 0 false, []⟩ (.call (.record (bytes "a") ⟨10, 1, 1, 1, 1, 1⟩) ::
      e :: e :: e :: delete :: delete :: List.replicate 10 e)).state.purges 0 = 2 := by
  decide +kernel

/-! ### Requests -/

/-- What a handler has still to complete, and the directories it has still to have pruned. -/
def StoreHandler.owes : StoreHandler D → Multiset ℕ × Multiset Bytes
  | .deleteLoop _ _ complete => (complete.cmp.toList, {[]})
  | .deleteFound _ _ _ _ complete => (complete.cmp.toList, {[]})
  | .deleteRead _ _ _ _ _ complete => (complete.cmp.toList, {[]})
  | .deleteStuff _ => (0, {[]})
  | .flushLoop _ f => ({f.cmp}, 0)
  | .flushStuff f => ({f.cmp}, 0)
  | .callComplete complete => ({complete}, 0)
  | _ => 0

/-- What a call of the store asks for. -/
def StoreCall.asks : StoreCall D → Multiset ℕ × Multiset Bytes
  | .deleteCounter _ complete => (complete.toList, {[]})
  | .deletePattern _ complete => (complete.toList, {[]})
  | .flushAll cmp => ({cmp}, 0)
  | _ => 0

namespace StatStore

/-- The calls of `on_complete` and of `pruneEmptyDirsNow`. -/
def done (s : StatStore C D) : Multiset ℕ × Multiset Bytes := (s.completed, s.pruned)

/-- Those that an exception has kept from being made. -/
def lost (s : StatStore C D) : Multiset ℕ × Multiset Bytes :=
  (s.uncompleted, s.abandoned.map Deleter.rootCtrPath)

/-- Those that are settled. -/
def settled (s : StatStore C D) : Multiset ℕ × Multiset Bytes := s.done + s.lost

theorem coe_concat {α : Type*} (l : List α) (a : α) : ((l ++ [a] : List α) : Multiset α) = l + {a} :=
  rfl

theorem settled_goDelete {d : Deleter} (hd : d.rootCtrPath = []) :
    (s.goDelete d).1.settled + underWay StoreHandler.owes (s.goDelete d).2 =
      s.settled + (0, {[]}) := by
  unfold goDelete
  split_ifs
  · simp only [settled, done, lost, hd, coe_concat, underWay_nil, Prod.mk_add_mk, add_zero]
    rw [add_right_comm]
  · simp [StoreHandler.owes]

theorem settled_goFlush (f : Flusher) :
    (s.goFlush f).1.settled + underWay StoreHandler.owes (s.goFlush f).2 =
      s.settled + ({f.cmp}, 0) := by
  unfold goFlush
  split_ifs
  · simp only [settled, done, lost, coe_concat, underWay_nil, Prod.mk_add_mk, add_zero]
    rw [add_right_comm]
  · simp [StoreHandler.owes]

theorem settled_openStep (c : RecordCall D) (made : Option C) (s : StatStore C D) (name : Bytes)
    (outer : Option AsyncPtr) : (c.openStep made s name outer).1.settled +
      underWay StoreHandler.owes (c.openStep made s name outer).2 = s.settled := by
  rcases c.openStep_cases made s name outer with
    ⟨-, h⟩ | ⟨k, -, ⟨a, -, h⟩ | ⟨-, ⟨-, h⟩ | ⟨m, -, h⟩⟩⟩ <;>
    simp [h, StoreHandler.owes, settled, done, lost, insertCounter]

theorem settled_deleteLoop (throws : Bool) (names : List Bytes) {d : Deleter}
    (hpath : d.rootCtrPath = []) (complete : Completion) :
    (s.deleteLoop throws names d complete).1.settled +
        underWay StoreHandler.owes (s.deleteLoop throws names d complete).2 =
      s.settled + ((complete.cmp.toList : Multiset ℕ), {[]}) := by
  cases names with
  | nil =>
    rcases s.deleteLoop_nil_cases throws d complete with h | ⟨-, -, h⟩
    · rw [h, underWay_append, ← add_assoc, settled_goDelete hpath]
      cases hcmp : complete.cmp <;> simp [StoreHandler.owes, add_assoc]
    · simp only [h, settled, done, lost, underWay_nil, hpath, coe_concat, Prod.mk_add_mk, add_zero]
      rw [← Multiset.coe_add]
      exact Prod.ext (add_assoc _ _ _).symm (add_right_comm _ _ _)
  | cons ctr names =>
    rcases s.deleteLoop_cases throws ctr names d complete with ⟨a, k, -, -, h⟩ | h <;>
      simp [h, StoreHandler.owes]

theorem settled_deleteStuff (throws : Bool) {d : Deleter} (hpath : d.rootCtrPath = [])
    (hne : d.toDelete ≠ []) : (s.deleteStuff throws d).1.settled +
        underWay StoreHandler.owes (s.deleteStuff throws d).2 = s.settled + (0, {[]}) := by
  obtain ⟨w, rest, hw⟩ := List.exists_cons_of_ne_nil hne
  rcases s.deleteStuff_cases throws hw with ⟨-, h⟩ | ⟨-, -, h⟩ | ⟨-, -, h⟩
  · rw [h]
    exact settled_goDelete hpath
  · rw [h]
    exact settled_goDelete (s := s.callOn w.aCount (.purge false)) hpath
  · rw [h]
    simp only [settled, done, lost, callOn, modify, hpath, coe_concat, underWay_nil,
      List.map_append, List.map_cons, List.map_nil, Prod.mk_add_mk, add_zero]
    rw [add_assoc (s.pruned : Multiset Bytes)]

theorem settled_flushStuff (throws : Bool) {f : Flusher} (hne : f.ptrs ≠ []) :
    (s.flushStuff throws f).1.settled + underWay StoreHandler.owes (s.flushStuff throws f).2 =
      s.settled + ({f.cmp}, 0) := by
  obtain ⟨a, rest, ha⟩ := List.exists_cons_of_ne_nil hne
  rcases s.flushStuff_cases throws ha with ⟨-, h⟩ | ⟨-, -, h⟩ | ⟨-, -, h⟩
  · rw [h]
    exact settled_goFlush { f with ptrs := rest }
  · rw [h]
    exact settled_goFlush (s := s.callOn a (.forceFlush false)) { f with ptrs := rest }
  · rw [h]
    simp only [settled, done, lost, callOn, modify, coe_concat, underWay_nil, Prod.mk_add_mk,
      add_zero]
    rw [add_assoc (s.completed : Multiset ℕ)]

/-- A handler keeps what is settled or under way. -/
theorem settled_exec (e : StoreInput C) {h : StoreHandler D} (hok : h.Ok s) :
    (exec e h s).1.settled + underWay StoreHandler.owes (exec e h s).2 = s.settled + h.owes := by
  cases h with
  | recordLoop c =>
    simp only [exec, RecordCall.step, StoreHandler.owes, add_zero]
    split
    · exact settled_openStep c e.made s _ _
    · exact settled_openStep c e.made s _ _
    · rename_i found _
      cases found <;> cases c.next <;> simp [StoreHandler.owes]
  | record a live r =>
    cases live <;> simp [exec, StoreHandler.owes, settled, done, lost, callOn, modify]
  | flush a live =>
    cases live <;> simp [exec, StoreHandler.owes, settled, done, lost, callOn, modify]
  | deleteLoop names d complete => exact settled_deleteLoop e.throws names hok.path complete
  | deleteFound a ctr names d complete => simp [exec, deleteFound, StoreHandler.owes]
  | deleteRead a live ctr names d complete =>
    simp [exec, deleteRead, StoreHandler.owes, settled, done, lost, modify]
  | deleteStuff d => exact settled_deleteStuff e.throws hok.1.path hok.2
  | flushLoop it f =>
    simp only [exec, flushLoop]
    split
    · simp [StoreHandler.owes]
    · simp [StoreHandler.owes]
    · exact settled_goFlush f
  | flushStuff f => exact settled_flushStuff e.throws hok.2
  | callComplete complete =>
    simp only [exec, StoreHandler.owes, settled, done, lost, coe_concat, underWay_nil,
      Prod.mk_add_mk, add_zero]
    rw [add_right_comm]

theorem settled_call (c : StoreCall D) (s : StatStore C D) :
    (call c s).1.settled + underWay StoreHandler.owes (call c s).2 = s.settled + c.asks := by
  cases c with
  | record ctr r =>
    simp only [call, StoreCall.asks]
    split <;> simp [StoreHandler.owes]
  | deleteCounter ctr complete => simp [call, StoreCall.asks, StoreHandler.owes]
  | deletePattern results complete => simp [call, StoreCall.asks, StoreHandler.owes]
  | flushAll cmp => simp [call, StoreCall.asks, StoreHandler.owes]
  | sync =>
    simp only [call, syncPass, StoreCall.asks]
    split <;> simp [StoreHandler.owes, settled, done, lost]
  | sweep i => simp [call, sweep, StoreCall.asks, settled, done, lost]

theorem settled_run {q : List (StoreHandler D)} (h : Inv s q)
    (es : List (Event (StoreCall D) (StoreInput C))) :
    (run (program C D) ⟨s, q⟩ es).state.settled +
        underWay StoreHandler.owes (run (program C D) ⟨s, q⟩ es).pending =
      s.settled + underWay StoreHandler.owes q + income StoreCall.asks es :=
  balance (I := Inv) (fun c _ _ h => inv_call h c) (fun e _ _ _ _ h => inv_exec h e)
    (fun c s _ _ => settled_call c s) (fun e _ _ x _ h => settled_exec e (h.ok x (by simp))) h es

end StatStore

/-- **Every request is completed once, or lost in an exception.**  In every run, the calls of
`on_complete` that have been made, those that an exception of a handler before them has kept from
being made and those under way are together the ones asked for by the deletions and by `flushAll`;
and so are the calls of `pruneEmptyDirsNow`, one for each deletion, always with an empty path, the
whole store, since the path of a `Deleter` is never set.  If nothing throws, none is lost. -/
theorem requests_completed_once (ac : ℤ) (recursively : Bool)
    (es : List (Event (StoreCall D) (StoreInput C))) :
    let t := run (program C D) ⟨new ac recursively, []⟩ es
    t.state.done + t.state.lost + underWay StoreHandler.owes t.pending =
        income StoreCall.asks es ∧
      ((∀ i e, .exec i e ∈ es → e.throws = false) → t.state.lost = 0) := by
  refine ⟨?_, fun hes => ?_⟩
  · have h := settled_run (inv_new (C := C) (D := D) ac recursively) es
    have hnew : (new ac recursively : StatStore C D).settled = 0 := rfl
    rwa [hnew, underWay_nil, add_zero, zero_add] at h
  · obtain ⟨hab, hun⟩ := ends_run ac recursively hes
    rw [lost, hab, hun]
    rfl

end Istatd
