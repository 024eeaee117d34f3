import Istatd.StoreFlush

/-!
# The handlers of the store come to an end

A call of `record` strips its name in every round, and so does `openCounter` in its recursion; the
iteration of `flushAll` goes through the shards, and a `Deleter` and a `Flusher` through their lists.
A new counter can make an iteration longer, but only calls of `record` make counters.

* `RecordCall.steps`: how often a call of `record` can still step;
* `StoreHandler.left`: how often the other handlers can;
* `handlers_end`: every scheduler runs out of handlers.
-/

namespace Istatd

open Executor StatStore

variable {C D : Type} {s s' : StatStore C D}

/-! ### Calls of `record` -/

/-- A bound on the steps of the rounds for a name of this length and for shorter ones. -/
def roundSteps (n : ℕ) : ℕ := (n + 1) * (n + 2)

theorem roundSteps_add_le {m n : ℕ} (h : m < n) : roundSteps m + (n + 2) ≤ roundSteps n := by
  unfold roundSteps
  nlinarith

theorem le_roundSteps (n : ℕ) : n + 2 ≤ roundSteps n := by
  unfold roundSteps
  nlinarith

namespace RecordCall

/-- A bound on the steps of the rounds after this one. -/
def laterSteps (c : RecordCall D) : ℕ := c.next.elim 0 fun c' => roundSteps c'.cname.length

/-- A bound on the steps that the call has still to make. -/
def steps (c : RecordCall D) : ℕ :=
  c.laterSteps + match c.phase with
    | .find => c.cname.length + 2
    | .parent sex _ => sex.length + 2
    | .post _ => 1

theorem next_length {c c' : RecordCall D} (h : c.next = some c') :
    c'.cname.length < c.cname.length ∧ c'.phase = .find := by
  unfold next at h
  cases hb : beforeLastDot c.cname with
  | none => simp [hb] at h
  | some p =>
    cases hm : c.maxAgg with
    | zero => simp [hb, hm] at h
    | succ n =>
      simp only [hb, hm, Option.some.injEq] at h
      rw [← h]
      exact ⟨length_lt_of_beforeLastDot hb, rfl⟩

theorem laterSteps_le (c : RecordCall D) :
    c.laterSteps + (c.cname.length + 2) ≤ roundSteps c.cname.length := by
  unfold laterSteps
  cases hn : c.next with
  | none => simpa using le_roundSteps _
  | some c' => exact roundSteps_add_le (next_length hn).1

/-- A round is a step less than the rounds from it on. -/
theorem steps_next {c c' : RecordCall D} (h : c.next = some c') : c'.steps ≤ c.laterSteps := by
  have hle := c'.laterSteps_le
  unfold steps
  rw [(next_length h).2]
  simpa [laterSteps, h] using hle

theorem steps_phase (c : RecordCall D) (ph : Opening) :
    steps { c with phase := ph } = c.laterSteps + match ph with
      | .find => c.cname.length + 2
      | .parent sex _ => sex.length + 2
      | .post _ => 1 := rfl

/-- A created counter has a shorter name to open next, or none. -/
theorem steps_created (c : RecordCall D) (recursively : Bool) (name : Bytes) (a : AsyncPtr) :
    steps { c with phase := created recursively name a } < c.laterSteps + (name.length + 2) := by
  rw [steps_phase]
  unfold created
  cases recursively with
  | false => simp
  | true =>
    cases hb : beforeLastDot name with
    | none => simp
    | some sex =>
      have := length_lt_of_beforeLastDot hb
      simp only [if_true, Option.elim_some]
      omega

end RecordCall

/-- A bound on the steps of the calls of `record` among the handlers. -/
def StoreHandler.recordSteps : StoreHandler D → ℕ
  | .recordLoop c => c.steps
  | _ => 0

theorem RecordCall.openStep_steps (c : RecordCall D) (made : Option C) (s : StatStore C D)
    (name : Bytes) (outer : Option AsyncPtr) :
    underWay StoreHandler.recordSteps (c.openStep made s name outer).2 <
      c.laterSteps + (name.length + 2) := by
  rcases c.openStep_cases made s name outer with
    ⟨-, h⟩ | ⟨k, -, ⟨a, -, h⟩ | ⟨-, ⟨-, h⟩ | ⟨m, -, h⟩⟩⟩
  · simp [h, StoreHandler.recordSteps, RecordCall.steps_phase]
  · simp [h, StoreHandler.recordSteps, RecordCall.steps_phase]
  · simp [h]
  · rw [h]
    simpa [StoreHandler.recordSteps] using c.steps_created _ name _

/-- A step of `record` leaves fewer to make. -/
theorem RecordCall.step_steps (c : RecordCall D) (made : Option C) (s : StatStore C D) :
    underWay StoreHandler.recordSteps (c.step made s).2 < c.steps := by
  unfold RecordCall.step RecordCall.steps
  cases hph : c.phase with
  | find => exact c.openStep_steps made s _ _
  | parent sex a => exact c.openStep_steps made s sex _
  | post found =>
    have hnext : underWay StoreHandler.recordSteps
        ((c.next.toList.map .recordLoop : List (StoreHandler D))) ≤ c.laterSteps := by
      cases hn : c.next with
      | none => simp
      | some c' => simpa [StoreHandler.recordSteps] using RecordCall.steps_next hn
    have hpost : underWay StoreHandler.recordSteps
        (found.map fun a => StoreHandler.record a (!s.isDeleted a) c.sample).toList = 0 := by
      cases found <;> rfl
    simp only [underWay_append, hpost]
    omega

/-! ### The other handlers -/

namespace ShardedMap

variable {V : Type*}

/-- The entries of all shards. -/
def entries (sm : ShardedMap V) : List (Bytes × V) :=
  (List.range 256).flatMap fun i => sm.maps (UInt8.ofNat i)

theorem mem_entries {sm : ShardedMap V} {p : Bytes × V} (h : sm.Holds p) : p ∈ sm.entries := by
  refine List.mem_flatMap.2 ⟨(shardIndex p.1).toNat, List.mem_range.2 (UInt8.toNat_lt _), ?_⟩
  rwa [UInt8.ofNat_toNat]

end ShardedMap

namespace ShardIterator

variable {V : Type*} {sm : ShardedMap V} {it it' : ShardIterator}

instance (it : ShardIterator) (k : Bytes) : Decidable (it.WillReach k) :=
  inferInstanceAs (Decidable (_ < _))

/-- A bound on the passes that the iterator has still to make. -/
def left (it : ShardIterator) (sm : ShardedMap V) : ℕ :=
  2 * (sm.entries.countP fun p => it.WillReach p.1) + (256 - it.index.toNat)

theorem countP_willReach_le (h : it.position ≤ it'.position) (l : List (Bytes × V)) :
    (l.countP fun p => it'.WillReach p.1) ≤ l.countP fun p => it.WillReach p.1 := by
  refine List.countP_mono_left fun p _ hp => ?_
  simp only [decide_eq_true_eq] at hp ⊢
  exact lt_of_le_of_lt h hp

/-- A pass that goes on with the next shard. -/
theorem left_nextBin (h : it.tryBin sm = (it', .nextBin)) : it'.left sm < it.left sm := by
  have he : it.isEnd = false := by
    by_contra he
    rw [tryBin_of_isEnd (by simpa using he)] at h
    cases h
  have hle : it.position ≤ it'.position := by
    have : it.position ≤ (it.tryBin sm).1.position := (position_lt_tryBin he).le
    rwa [h] at this
  have hindex : it'.index.toNat = it.index.toNat + 1 ∧ it.index.toNat < 255 := by
    unfold tryBin at h
    rw [if_neg (by simp [he])] at h
    cases hs : seek it.key (sm.maps it.index) with
    | some p => simp [hs] at h
    | none =>
      simp only [hs] at h
      split_ifs at h with hi
      · cases h
      · have hlt : it.index.toNat < 255 := by
          have hne : it.index.toNat ≠ 255 := fun e => hi (UInt8.toNat.inj e)
          have := it.index.toNat_lt
          omega
        obtain ⟨rfl, -⟩ := Prod.mk.inj h
        refine ⟨?_, hlt⟩
        rw [UInt8.toNat_add]
        exact Nat.mod_eq_of_lt (Nat.succ_lt_succ hlt)
  have := countP_willReach_le hle sm.entries
  unfold left
  omega

/-- A pass that returns an entry. -/
theorem left_found {p : Bytes × V} (h : it.tryBin sm = (it', .found p)) :
    it'.left sm + 2 ≤ it.left sm := by
  have he : it.isEnd = false := by
    by_contra he
    rw [tryBin_of_isEnd (by simpa using he)] at h
    cases h
  have hlt : it.position < it'.position := by
    have : it.position < (it.tryBin sm).1.position := position_lt_tryBin he
    rwa [h] at this
  have hseek : seek it.key (sm.maps it.index) = some p ∧ it'.index = it.index := by
    unfold tryBin at h
    rw [if_neg (by simp [he])] at h
    cases hs : seek it.key (sm.maps it.index) with
    | some q =>
      simp only [hs, Prod.mk.injEq, Pass.found.injEq] at h
      exact ⟨by rw [h.2], by rw [← h.1]⟩
    | none =>
      simp only [hs] at h
      split_ifs at h <;> cases h
  have hpos : it'.position = place p.1 := by
    have := (tryBin_of_seek he hseek.1).1
    rwa [h] at this
  -- the entry was ahead of the iterator and is not any more
  obtain ⟨l, l', hl⟩ := List.append_of_mem
    (ShardedMap.mem_entries (ShardedMap.holds_of_mem (mem_of_seek hseek.1).1))
  have h1 := countP_willReach_le hlt.le l
  have h2 := countP_willReach_le hlt.le l'
  have hnot : ¬ it'.WillReach p.1 := by
    rw [WillReach, hpos]
    exact lt_irrefl _
  have hreach : it.WillReach p.1 := by
    rw [WillReach, ← hpos]
    exact hlt
  unfold left
  rw [hl, hseek.2]
  simp only [List.countP_append, List.countP_cons, hnot, hreach, decide_false, decide_true,
    Bool.false_eq_true, if_true, if_false]
  omega

end ShardIterator

/-- A bound on the handlers that come of a handler, other than of a call of `record`. -/
def StoreHandler.left (sm : ShardedMap AsyncPtr) : StoreHandler D → ℕ
  | .recordLoop _ => 0
  | .deleteLoop names d _ => 4 * names.length + d.toDelete.length + 3
  | .deleteFound _ _ names d _ => 4 * names.length + d.toDelete.length + 6
  | .deleteRead _ _ _ names d _ => 4 * names.length + d.toDelete.length + 5
  | .deleteStuff d => d.toDelete.length + 1
  | .flushLoop it f => it.left sm + f.ptrs.length + 2
  | .flushStuff f => f.ptrs.length + 1
  | _ => 1

namespace StatStore

theorem left_goDelete (s : StatStore C D) (d : Deleter) (sm : ShardedMap AsyncPtr) :
    underWay (StoreHandler.left sm) (s.goDelete d).2 ≤
      if d.toDelete = [] then 0 else d.toDelete.length + 1 := by
  unfold goDelete
  split_ifs with h h' h'
  · rfl
  · exact absurd (List.isEmpty_iff.1 h) h'
  · exact absurd (List.isEmpty_iff.2 h') h
  · simp [StoreHandler.left]

theorem left_goFlush (s : StatStore C D) (f : Flusher) (sm : ShardedMap AsyncPtr) :
    underWay (StoreHandler.left sm) (s.goFlush f).2 ≤
      if f.ptrs = [] then 0 else f.ptrs.length + 1 := by
  unfold goFlush
  split_ifs with h h' h'
  · rfl
  · exact absurd (List.isEmpty_iff.1 h) h'
  · exact absurd (List.isEmpty_iff.2 h') h
  · simp [StoreHandler.left]

theorem recordSteps_goDelete (s : StatStore C D) (d : Deleter) :
    underWay StoreHandler.recordSteps (s.goDelete d).2 = 0 := by
  unfold goDelete
  split_ifs <;> rfl

theorem recordSteps_goFlush (s : StatStore C D) (f : Flusher) :
    underWay StoreHandler.recordSteps (s.goFlush f).2 = 0 := by
  unfold goFlush
  split_ifs <;> rfl

/-- The handlers leave fewer than `n`, and make no call of `record`. -/
def LeavesFewer (sm : ShardedMap AsyncPtr) (q : List (StoreHandler D)) (n : ℕ) : Prop :=
  underWay (StoreHandler.left sm) q < n ∧ underWay StoreHandler.recordSteps q = 0

theorem leavesFewer_goDelete (s : StatStore C D) (d : Deleter) (sm : ShardedMap AsyncPtr) :
    LeavesFewer sm (s.goDelete d).2 (d.toDelete.length + 2) := by
  refine ⟨lt_of_le_of_lt (s.left_goDelete d sm) ?_, s.recordSteps_goDelete d⟩
  split_ifs <;> omega

theorem leavesFewer_goFlush (s : StatStore C D) (f : Flusher) (sm : ShardedMap AsyncPtr) :
    LeavesFewer sm (s.goFlush f).2 (f.ptrs.length + 2) := by
  refine ⟨lt_of_le_of_lt (s.left_goFlush f sm) ?_, s.recordSteps_goFlush f⟩
  split_ifs <;> omega

theorem leavesFewer_deleteLoop (s : StatStore C D) (throws : Bool) (names : List Bytes)
    (d : Deleter) (complete : Completion) (sm : ShardedMap AsyncPtr) :
    LeavesFewer sm (s.deleteLoop throws names d complete).2
      (4 * names.length + d.toDelete.length + 3) := by
  cases names with
  | nil =>
    rcases s.deleteLoop_nil_cases throws d complete with h | ⟨-, -, h⟩
    · have hc : underWay (StoreHandler.left (D := D) sm)
            (complete.cmp.toList.map .callComplete) ≤ 1 ∧
          underWay (StoreHandler.recordSteps (D := D))
            (complete.cmp.toList.map .callComplete) = 0 := by
        cases complete.cmp <;> simp [StoreHandler.left, StoreHandler.recordSteps]
      obtain ⟨hd, hrec⟩ := s.leavesFewer_goDelete d sm
      rw [h]
      simp only [LeavesFewer, underWay_append, hrec, hc.2, List.length_nil]
      exact ⟨by omega, trivial⟩
    · rw [h]
      exact ⟨Nat.succ_pos _, rfl⟩
  | cons ctr names =>
    rcases s.deleteLoop_cases throws ctr names d complete with ⟨a, k, -, -, h⟩ | h
    · rw [h]
      simp only [LeavesFewer, underWay_cons, underWay_nil, StoreHandler.left,
        StoreHandler.recordSteps, List.length_cons]
      omega
    · rw [h]
      simp only [LeavesFewer, underWay_cons, underWay_nil, StoreHandler.left,
        StoreHandler.recordSteps, List.length_cons]
      omega

theorem leavesFewer_deleteStuff (s : StatStore C D) (throws : Bool) (d : Deleter)
    (sm : ShardedMap AsyncPtr) :
    LeavesFewer sm (s.deleteStuff throws d).2 (d.toDelete.length + 1) := by
  cases hd : d.toDelete with
  | nil =>
    simp only [deleteStuff, hd]
    exact ⟨Nat.one_pos, rfl⟩
  | cons w rest =>
    rcases s.deleteStuff_cases throws hd with ⟨-, h⟩ | ⟨-, -, h⟩ | ⟨-, -, h⟩
    · rw [h]
      exact s.leavesFewer_goDelete { d with toDelete := rest } sm
    · rw [h]
      exact leavesFewer_goDelete _ { d with toDelete := rest } sm
    · rw [h]
      exact ⟨Nat.succ_pos _, rfl⟩

theorem leavesFewer_flushStuff (s : StatStore C D) (throws : Bool) (f : Flusher)
    (sm : ShardedMap AsyncPtr) :
    LeavesFewer sm (s.flushStuff throws f).2 (f.ptrs.length + 1) := by
  cases hf : f.ptrs with
  | nil =>
    simp only [flushStuff, hf]
    exact ⟨Nat.one_pos, rfl⟩
  | cons a rest =>
    rcases s.flushStuff_cases throws hf with ⟨-, h⟩ | ⟨-, -, h⟩ | ⟨-, -, h⟩
    · rw [h]
      exact s.leavesFewer_goFlush { f with ptrs := rest } sm
    · rw [h]
      exact leavesFewer_goFlush _ { f with ptrs := rest } sm
    · rw [h]
      exact ⟨Nat.succ_pos _, rfl⟩

/-- A handler other than a call of `record` leaves fewer, and makes no call of `record`. -/
theorem exec_left (e : StoreInput C) {x : StoreHandler D} (hx : ∀ c, x ≠ .recordLoop c)
    (s : StatStore C D) :
    LeavesFewer s.counterShards (exec e x s).2 (x.left s.counterShards) := by
  cases x with
  | recordLoop c => exact absurd rfl (hx c)
  | record a live r => exact ⟨Nat.one_pos, rfl⟩
  | flush a live => exact ⟨Nat.one_pos, rfl⟩
  | deleteLoop names d complete => exact s.leavesFewer_deleteLoop e.throws names d complete _
  | deleteFound a ctr names d complete => exact ⟨Nat.lt_succ_self _, rfl⟩
  | deleteRead a live ctr names d complete =>
    simp only [LeavesFewer, exec, deleteRead, underWay_cons, underWay_nil, StoreHandler.left,
      StoreHandler.recordSteps, Deleter.addWork, List.length_append, List.length_cons,
      List.length_nil]
    omega
  | deleteStuff d => exact s.leavesFewer_deleteStuff e.throws d _
  | flushLoop it f =>
    simp only [exec, flushLoop, StoreHandler.left]
    split
    · rename_i it' h
      have := ShardIterator.left_nextBin h
      simp only [LeavesFewer, underWay_cons, underWay_nil, StoreHandler.left,
        StoreHandler.recordSteps]
      omega
    · rename_i it' p h
      have := ShardIterator.left_found h
      simp only [LeavesFewer, underWay_cons, underWay_nil, StoreHandler.left,
        StoreHandler.recordSteps, List.length_append, List.length_cons, List.length_nil]
      omega
    · obtain ⟨hf, hrec⟩ := s.leavesFewer_goFlush f s.counterShards
      exact ⟨by omega, hrec⟩
  | flushStuff f => exact s.leavesFewer_flushStuff e.throws f _
  | callComplete complete => exact ⟨Nat.one_pos, rfl⟩

/-- What every handler makes smaller. -/
def work (t : Pool (StatStore C D) (StoreHandler D)) : ℕ ×ₗ ℕ :=
  toLex (underWay StoreHandler.recordSteps t.pending,
    underWay (StoreHandler.left t.state.counterShards) t.pending)

theorem work_exec (t : Pool (StatStore C D) (StoreHandler D)) {i : ℕ} (e : StoreInput C)
    (hi : i < t.pending.length) : work (step (program C D) t (.exec i e)) < work t := by
  have hget : t.pending[i]? = some t.pending[i] := List.getElem?_eq_getElem hi
  have hstep : step (program C D) t (.exec i e) =
      ⟨(exec e t.pending[i] t.state).1,
        t.pending.eraseIdx i ++ (exec e t.pending[i] t.state).2⟩ := by
    simp only [step, hget]
    rfl
  have hsplit {w : StoreHandler D → ℕ} :
      underWay w t.pending = underWay w (t.pending.eraseIdx i) + w t.pending[i] := by
    have hl : t.pending = t.pending.take i ++ t.pending[i] :: t.pending.drop (i + 1) := by
      rw [List.getElem_cons_drop, List.take_append_drop]
    conv_lhs => rw [hl]
    rw [List.eraseIdx_eq_take_drop_succ]
    simp only [underWay_append, underWay_cons]
    omega
  rw [hstep, work, work, Prod.Lex.toLex_lt_toLex]
  simp only [underWay_append, hsplit]
  by_cases hx : ∃ c, t.pending[i] = .recordLoop c
  · obtain ⟨c, hc⟩ := hx
    left
    have := c.step_steps e.made t.state
    rw [hc]
    simp only [exec, StoreHandler.recordSteps]
    omega
  · have hx : ∀ c, t.pending[i] ≠ .recordLoop c := fun c hc => hx ⟨c, hc⟩
    obtain ⟨hleft, hrec⟩ := exec_left e hx t.state
    have h0 : t.pending[i].recordSteps = 0 := by
      cases h : t.pending[i] with
      | recordLoop c => exact absurd h (hx c)
      | _ => rfl
    right
    rw [(exec_framed e hx t.state).map.1]
    exact ⟨by omega, by omega⟩

end StatStore

/-- **The handlers come to an end.**  Without calls from outside, every scheduler that runs some
pending handler at each step, whatever the factory makes and whatever throws, comes to a state with
none pending. -/
theorem handlers_end (t : Pool (StatStore C D) (StoreHandler D))
    {pick : Pool (StatStore C D) (StoreHandler D) → ℕ × StoreInput C}
    (hpick : ∀ t, t.pending ≠ [] → (pick t).1 < t.pending.length) :
    ∃ n, ((schedule (program C D) pick)^[n] t).pending = [] :=
  exists_drained (I := fun _ => True) (fun _ _ _ _ => trivial)
    (fun t _ e _ hi => work_exec t e hi) hpick trivial

/-- Whatever is pending first is run next: a record, a deletion and a flush all end. -/
theorem handlers_end_sample :
    ∃ n, ((schedule (program Unit ℕ) fun _ => (0, ⟨some (), false⟩))^[n]
      ⟨new 0 true, [.recordLoop ⟨bytes "a.b", 3, .find, ⟨10, 1, 1, 1, 1, 1⟩⟩,
        .deleteLoop [bytes "a"] ⟨[], []⟩ ⟨some 1, false⟩,
        .flushLoop ShardIterator.begin ⟨2, []⟩]⟩).pending = [] :=
  handlers_end _ fun _ h => List.length_pos_iff.2 h

end Istatd
