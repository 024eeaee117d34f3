import Istatd.Lib.Run

/-!
# The queue of key refreshes

`scheduleRefresh` adds one to `queuedRefreshes_` and posts `refreshAllKeys` on the refresh strand if
the counter was at most `MAX_QUEUED_KEY_REFRESHES` before.  The last statement of `refreshAllKeys`
subtracts one again.  The atomic steps are the addition, the post, the start and the end of a
handler; any number of threads call `scheduleRefresh`, and the strand runs one handler at a time.

* `RefreshQueue.step`: the steps;
* `Accounted`: the counter is the number of refreshes on their way;
* `soundRun_iff`: it is so, with its consequences, in the runs whose calls all post.
-/

namespace Istatd

/-- `MAX_QUEUED_KEY_REFRESHES`. -/
def maxQueuedKeyRefreshes : ℤ := 2

/-- The value of an `int` after an atomic addition, which wraps around. -/
def wrapInt (n : ℤ) : ℤ := n.bmod (2 ^ 32)

/-- The refreshes of a store: `queuedRefreshes_`, the calls of `scheduleRefresh` that have decided
to post and have not posted yet, the handlers posted and not started, and whether one is running. -/
structure RefreshQueue where
  queued : ℤ
  posting : ℕ
  pending : ℕ
  running : Bool
  deriving DecidableEq

/-- The atomic steps. -/
inductive RefreshOp
  | schedule
  | post
  | start
  | finish
  deriving DecidableEq

namespace RefreshQueue

/-- The queue of a new store. -/
def new : RefreshQueue := ⟨0, 0, 0, false⟩

/-- The step of `StatStore::scheduleRefresh` that decides: the counter is incremented on both
branches. -/
def scheduleRefresh (s : RefreshQueue) : RefreshQueue :=
  if s.queued ≤ maxQueuedKeyRefreshes then
    { s with queued := wrapInt (s.queued + 1), posting := s.posting + 1 }
  else { s with queued := wrapInt (s.queued + 1) }

/-- The end of `StatStore::refreshAllKeys`. -/
def finishRefresh (s : RefreshQueue) : RefreshQueue :=
  { s with queued := wrapInt (s.queued - 1), running := false }

/-- One step.  A step that is not possible changes nothing. -/
def step (s : RefreshQueue) : RefreshOp → RefreshQueue
  | .schedule => s.scheduleRefresh
  | .post =>
    if 0 < s.posting then { s with posting := s.posting - 1, pending := s.pending + 1 } else s
  | .start =>
    if 0 < s.pending ∧ s.running = false then { s with pending := s.pending - 1, running := true }
    else s
  | .finish => if s.running then s.finishRefresh else s

/-- The refreshes posted, or just being posted, that have not finished. -/
def unfinished (s : RefreshQueue) : ℕ := s.posting + s.pending + s.running.toNat

/-- `queuedRefreshes_` counts them. -/
def Accounted (s : RefreshQueue) : Prop := s.queued = s.unfinished

/-- A call of `scheduleRefresh` made now posts a refresh. -/
def Posts (s : RefreshQueue) : Prop := s.scheduleRefresh.posting = s.posting + 1

/-- `scheduleRefresh` can still cause a refresh: at the latest when the refreshes under way have
gone on for long enough, with no other call in between, it posts one. -/
def CanRefresh (s : RefreshQueue) : Prop :=
  ∃ l : List RefreshOp, RefreshOp.schedule ∉ l ∧ (l.foldl step s).Posts

/-- The bookkeeping is right all along a run of a new store: in every state the counter is the
number of unfinished refreshes and a call can still cause a refresh, and after every call there is
an unfinished refresh. -/
def SoundRun (ops : List RefreshOp) : Prop :=
  ∀ l, l <+: ops →
    (l.foldl step new).Accounted ∧ (l.foldl step new).CanRefresh ∧
      (l.getLast? = some .schedule → 0 < (l.foldl step new).unfinished)

/-! ### One step -/

variable {s : RefreshQueue}

theorem posts_iff : s.Posts ↔ s.queued ≤ maxQueuedKeyRefreshes := by
  unfold Posts scheduleRefresh
  split_ifs with h <;> simp [h]

theorem wrapInt_of_nonneg {n : ℤ} (h0 : 0 ≤ n) (h : n < 2 ^ 31) : wrapInt n = n :=
  Int.bmod_eq_of_le (by omega) (by omega)

theorem wrapInt_lt (n : ℤ) : wrapInt n < 2 ^ 31 :=
  Int.bmod_lt (by decide)

/-- An addition of one changes the counter, also where it wraps around. -/
theorem wrapInt_succ_ne (n : ℤ) : wrapInt (n + 1) ≠ n := by
  intro h
  have hmod : (n + 1) % (2 ^ 32 : ℕ) = n % (2 ^ 32 : ℕ) := by
    rw [← Int.bmod_emod]
    exact congrArg (· % ((2 ^ 32 : ℕ) : ℤ)) h
  omega

/-- The counter is an `int`. -/
theorem step_queued_lt (op : RefreshOp) (h : s.queued < 2 ^ 31) : (s.step op).queued < 2 ^ 31 := by
  cases op with
  | schedule =>
    simp only [step, scheduleRefresh]
    split_ifs <;> exact wrapInt_lt _
  | post =>
    simp only [step]
    split_ifs <;> exact h
  | start =>
    simp only [step]
    split_ifs <;> exact h
  | finish =>
    simp only [step]
    split_ifs
    · exact wrapInt_lt _
    · exact h

/-- Only a call that does not post upsets the account. -/
theorem step_accounted_iff (op : RefreshOp) (hlt : s.queued < 2 ^ 31) (h : s.Accounted) :
    (s.step op).Accounted ↔ (op = .schedule → s.queued ≤ maxQueuedKeyRefreshes) := by
  unfold Accounted unfinished at h
  cases op with
  | schedule =>
    simp only [step, scheduleRefresh, true_implies]
    split_ifs with hmax
    · have hsmall : s.queued ≤ 2 := hmax
      have hwrap : wrapInt (s.queued + 1) = s.queued + 1 :=
        wrapInt_of_nonneg (by omega) (by omega)
      simp only [Accounted, unfinished, hwrap, hmax, iff_true]
      omega
    · simp only [Accounted, unfinished, hmax, iff_false, ← h]
      exact wrapInt_succ_ne s.queued
  | post =>
    simp only [step, reduceCtorEq, false_implies, iff_true]
    split_ifs with hpost
    · simp only [Accounted, unfinished]
      omega
    · exact h
  | start =>
    simp only [step, reduceCtorEq, false_implies, iff_true]
    split_ifs with hstart
    · simp only [Accounted, unfinished, hstart.2, Bool.toNat_true, Bool.toNat_false] at h ⊢
      omega
    · exact h
  | finish =>
    simp only [step, reduceCtorEq, false_implies, iff_true]
    split_ifs with hrun
    · rw [hrun, Bool.toNat_true] at h
      have hwrap : wrapInt (s.queued - 1) = s.queued - 1 :=
        wrapInt_of_nonneg (by omega) (by omega)
      simp only [finishRefresh, Accounted, unfinished, hwrap, Bool.toNat_false]
      omega
    · exact h

/-! ### Runs -/

/-- What is left to do for the refreshes under way. -/
def work (s : RefreshQueue) : ℕ := 3 * s.posting + 2 * s.pending + s.running.toNat

/-- Where something is left to do, a step does some of it. -/
theorem exists_step_work (h : s.work ≠ 0) :
    ∃ op, op ≠ .schedule ∧ (s.step op).work < s.work := by
  unfold work at h
  cases hrun : s.running with
  | true =>
    refine ⟨.finish, nofun, ?_⟩
    simp [step, finishRefresh, work, hrun]
  | false =>
    rw [hrun, Bool.toNat_false] at h
    by_cases hpend : 0 < s.pending
    · refine ⟨.start, nofun, ?_⟩
      simp only [step, hpend, hrun, and_self, if_true, work, Bool.toNat_true, Bool.toNat_false]
      omega
    · refine ⟨.post, nofun, ?_⟩
      have hpost : 0 < s.posting := by omega
      simp only [step, hpost, if_true, work]
      omega

/-- With the account in order, the refreshes under way can finish, and then a call posts. -/
theorem Accounted.canRefresh (hlt : s.queued < 2 ^ 31) (h : s.Accounted) : s.CanRefresh := by
  -- induction on the work that is left
  induction hn : s.work using Nat.strong_induction_on generalizing s with
  | _ n ih =>
    subst hn
    by_cases hw : s.work = 0
    · refine ⟨[], nofun, posts_iff.2 ?_⟩
      unfold Accounted unfinished at h
      unfold work at hw
      have hmax : maxQueuedKeyRefreshes = 2 := rfl
      rw [List.foldl_nil]
      omega
    · obtain ⟨op, hop, hlt'⟩ := exists_step_work hw
      have hacc : (s.step op).Accounted := (step_accounted_iff op hlt h).2 fun hs => absurd hs hop
      obtain ⟨l, hl, hposts⟩ := ih _ hlt' (step_queued_lt op hlt) hacc rfl
      exact ⟨op :: l, by simp [hl, hop.symm], hposts⟩

/-- **The queue of key refreshes, and when it is kept.**  In a run of a new store, with any number
of calls and handlers in any order, `queuedRefreshes_` is always the number of unfinished refreshes,
`scheduleRefresh` never loses its effect and is always followed by a refresh, if and only if every
call of the run finds at most `MAX_QUEUED_KEY_REFRESHES` in the counter. -/
theorem soundRun_iff (ops : List RefreshOp) :
    SoundRun ops ↔
      Run.Along step (fun s op => op = .schedule → s.queued ≤ maxQueuedKeyRefreshes) new ops := by
  have hiff : Run.Always step Accounted new ops ↔ new.Accounted ∧
      Run.Along step (fun s op => op = .schedule → s.queued ≤ maxQueuedKeyRefreshes) new ops :=
    Run.always_iff_along (J := fun s => s.queued < 2 ^ 31) (fun _ op => step_queued_lt op)
      (fun _ op => step_accounted_iff op) (by decide)
  constructor
  · intro h
    exact (hiff.1 fun l hl => (h l hl).1).2
  · intro h l hl
    have hacc := hiff.2 ⟨rfl, h⟩ l hl
    have hlt : (l.foldl step new).queued < 2 ^ 31 :=
      Run.invariant (I := fun q => queued q < 2 ^ 31) (fun _ op => step_queued_lt op) (by decide) l
    refine ⟨hacc, hacc.canRefresh hlt, fun hlast => ?_⟩
    obtain ⟨l', rfl⟩ := List.getLast?_eq_some_iff.1 hlast
    obtain ⟨l'', rfl⟩ := hl
    rw [List.append_assoc, Run.along_append] at h
    have hmax := h.2.1 rfl
    rw [List.foldl_append]
    simp only [List.foldl_cons, List.foldl_nil, step, scheduleRefresh, hmax, if_true, unfinished]
    omega

/-- With nothing under way, only a call changes the queue. -/
theorem foldl_step_of_idle (h : s.unfinished = 0) {l : List RefreshOp}
    (hl : RefreshOp.schedule ∉ l) : l.foldl step s = s := by
  induction l with
  | nil => rfl
  | cons op l ih =>
    have hidle : s.posting = 0 ∧ s.pending = 0 ∧ s.running = false := by
      unfold unfinished at h
      refine ⟨by omega, by omega, ?_⟩
      cases hrun : s.running with
      | false => rfl
      | true => simp [hrun] at h
    have hstep : s.step op = s := by
      cases op with
      | schedule => simp at hl
      | post => simp [step, hidle]
      | start => simp [step, hidle]
      | finish => simp [step, hidle]
    rw [List.foldl_cons, hstep]
    exact ih fun hmem => hl (List.mem_cons_of_mem op hmem)

/-- What the calls that did not post leave behind: nothing is under way, and nothing will be. -/
theorem not_canRefresh_of_idle (h : s.unfinished = 0) (hq : maxQueuedKeyRefreshes < s.queued) :
    ¬ s.CanRefresh := by
  rintro ⟨l, hl, hposts⟩
  rw [foldl_step_of_idle h hl, posts_iff] at hposts
  omega

/-- Six calls in a burst, of which three post; then the three refreshes. -/
def burst : List RefreshOp :=
  [.schedule, .schedule, .schedule, .schedule, .schedule, .schedule, .post, .post, .post,
    .start, .finish, .start, .finish, .start, .finish]

/-- When the refreshes have finished the counter is 3, there is nothing under way and no call can
cause a refresh. -/
theorem soundRun_burst : ¬ SoundRun burst := by
  intro h
  exact not_canRefresh_of_idle (by decide) (by decide) (h _ List.prefix_rfl).2.1

end RefreshQueue

end Istatd
