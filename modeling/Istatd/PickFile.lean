import Istatd.FileKinds
import Istatd.GaugeSelect

/-!
# The file picked for a request (`StatCounter::pickStatFile`)

The files of a counter are those of the intervals of its policy, in their order: the regular files,
finest first, and then the trailing ones, which hold averages and no history.  `pickStatFile` goes
through all of them, while `pickTrailingStatFile` passes over the regular ones.  So a
start that is too old for every regular file may be in a trailing one, and that one is picked.

* `shapes_step`: no call changes the kind of a file;
* `isTrailing_construct`: the trailing files are those of the seasonal intervals;
* `pickStatFile_finest_iff`: when the file picked is the finest regular one that goes back far enough.
-/

namespace Istatd

/-! ### The first of a list -/

section Find

variable {α : Type*} {p q : α → Bool} {l : List α}

/-- If the first member does not satisfy `p`, none does. -/
theorem eq_false_of_head {a : α} (h : (a :: l).Pairwise fun a b => p b = true → p a = true)
    (hp : p a = false) : ∀ b ∈ a :: l, p b = false := by
  refine List.forall_mem_cons.2 ⟨hp, fun b hb => ?_⟩
  cases hb' : p b with
  | false => rfl
  | true =>
    rw [(List.pairwise_cons.1 h).1 b hb hb'] at hp
    cases hp

/-- The members that satisfy `p` come first: when looking through all of them finds the same as
looking through these. -/
theorem find?_filter_iff (h : l.Pairwise fun a b => p b = true → p a = true) :
    l.find? q = (l.filter p).find? q ↔
      (∃ a ∈ l, p a = true ∧ q a = true) ∨ ∀ a ∈ l, p a = false → q a = false := by
  induction l with
  | nil => simp
  | cons a l ih =>
    cases hp : p a with
    | true =>
      rw [List.filter_cons_of_pos hp]
      cases hq : q a with
      | true =>
        rw [List.find?_cons_of_pos hq, List.find?_cons_of_pos hq]
        exact iff_of_true rfl (Or.inl ⟨a, List.mem_cons_self, hp, hq⟩)
      | false =>
        rw [List.find?_cons_of_neg (by simp [hq]), List.find?_cons_of_neg (by simp [hq]),
          ih h.of_cons]
        simp [hp, hq]
    | false =>
      have hnone := eq_false_of_head h hp
      have hfilter : (a :: l).filter p = [] :=
        List.filter_eq_nil_iff.2 fun b hb => by simp [hnone b hb]
      rw [hfilter, List.find?_nil, List.find?_eq_none]
      constructor
      · exact fun hq => Or.inr fun b hb _ => by simpa using hq b hb
      · rintro (⟨b, hb, hpb, -⟩ | hq) b' hb'
        · rw [hnone b hb] at hpb
          cases hpb
        · simp [hq b' hb' (hnone b' hb')]

end Find

variable {D F : Type}

namespace StatCounter

/-! ### The shapes of the files -/

/-- The shapes of the files of a counter. -/
def shapes (c : StatCounter D F) : List (Shape D) := c.files.map StatFile.shape

variable {c c' : StatCounter D F}

theorem shapes_of_map {φ : StatFile D F → StatFile D F} (hfine : c'.fine.shape = c.fine.shape)
    (hcoarser : c'.coarser = c.coarser.map φ) (hφ : ∀ g, (φ g).shape = g.shape) :
    c'.shapes = c.shapes := by
  unfold shapes files
  rw [List.map_cons, List.map_cons, hfine, hcoarser, List.map_map]
  exact congrArg _ (List.map_congr_left fun g _ => hφ g)

theorem shapes_of_eq (hfine : c'.fine.shape = c.fine.shape) (hcoarser : c'.coarser = c.coarser) :
    c'.shapes = c.shapes :=
  shapes_of_map (φ := id) hfine (by rw [List.map_id]; exact hcoarser) fun _ => rfl

variable [FloatArith D F]

theorem shapes_shiftCollated (c : StatCounter D F) (now : ℤ) :
    (c.shiftCollated now).2.shapes = c.shapes := by
  unfold shiftCollated
  split_ifs
  · rfl
  · exact shapes_of_map (writeCollations_shape c now) rfl fun g => StatFile.updateBucket_shape _ _

theorem shapes_shiftLoop (now t : ℤ) (n : ℕ) (c : StatCounter D F) :
    (shiftLoop now t n c).shapes = c.shapes := by
  induction n generalizing c with
  | zero => rfl
  | succ n ih =>
    unfold shiftLoop
    simp only
    split_ifs
    · rw [ih, shapes_shiftCollated]
    · exact shapes_shiftCollated c now
    · rfl

theorem shapes_maybeShiftCollated (c : StatCounter D F) (now t : ℤ) :
    (c.maybeShiftCollated now t).shapes = c.shapes := by
  unfold maybeShiftCollated
  split_ifs
  · exact shapes_shiftLoop now t _ c
  · rfl

theorem shapes_flush (c : StatCounter D F) (now : ℤ) : (c.flush now).shapes = c.shapes := by
  rw [← shapes_maybeShiftCollated c now (now + c.collationInterval * 2)]
  exact shapes_of_map (StatFile.flush_shape now) rfl fun g => StatFile.flush_shape now

theorem shapes_recordCollated {now time : ℤ} {value : D}
    (h : c.recordCollated now time value = .ok c') : c'.shapes = c.shapes := by
  unfold recordCollated at h
  split_ifs at h
  · simp only at h
    split at h
    · cases h
      rename_i i _
      rw [← show (c.shiftFor now _).shapes = c.shapes from ?_]
      · exact shapes_of_eq (addCollated_fine_shape _ _ _) rfl
      · unfold shiftFor
        split_ifs
        · rfl
        · rfl
        · exact shapes_maybeShiftCollated c now _
    · cases h
  · cases h
    rfl

theorem shapes_recordGauge (c : StatCounter D F) (now time : ℤ) (value valueSq min max : D)
    (cnt : ℕ) : (c.recordGauge now time value valueSq min max cnt).shapes = c.shapes := by
  unfold recordGauge
  split_ifs
  · exact shapes_of_map (StatFile.updateBucket_shape _ _) rfl
      fun g => StatFile.updateBucket_shape _ _
  · rfl

theorem shapes_close (c : StatCounter D F) (now : ℤ) : (c.close now).shapes = c.shapes := by
  unfold close
  split_ifs
  · exact shapes_maybeShiftCollated c now _
  · exact shapes_maybeShiftCollated c now _

/-- **No call changes the kind of a file.** -/
theorem shapes_step {op : CounterOp D} (h : c.step op = .ok c') : c'.shapes = c.shapes := by
  cases op with
  | record now time value valueSq min max cnt =>
    simp only [StatCounter.step, record] at h
    split_ifs at h
    · exact shapes_recordCollated h
    · cases h
      exact shapes_recordGauge c now time value valueSq min max cnt
  | flush now =>
    cases h
    exact shapes_flush c now
  | forceFlush now =>
    cases h
    unfold forceFlush fullyShiftCollated
    rw [shapes_flush, shapes_maybeShiftCollated]
  | maybeShiftCollated now t =>
    cases h
    exact shapes_maybeShiftCollated c now t
  | reopen now =>
    cases h
    rw [← shapes_close c now]
    exact shapes_of_map (φ := fun g => StatFile.ofDisk g.toDisk) rfl rfl fun g => rfl

theorem shapes_run {ops : List (CounterOp D)} (h : ops.foldlM StatCounter.step c = .ok c') :
    c'.shapes = c.shapes :=
  Run.exec_invariant (I := fun e => e.shapes = c.shapes)
    (fun _ _ _ hs hstep => (shapes_step hstep).trans hs) rfl h

/-! ### The trailing files -/

variable {sysPageSize clock ci zeroTime : ℤ} {isCollated : Bool} {set : Settings D}
  {first : RetentionInterval D F × Option (DiskFile D F)}
  {rest files : List (RetentionInterval D F × Option (DiskFile D F))}

/-- The files that exist are trailing if their intervals are seasonal. -/
def OfPolicy (files : List (RetentionInterval D F × Option (DiskFile D F))) : Prop :=
  ∀ p ∈ files, ∀ d, p.2 = some d → d.shape.isTrailing = p.1.isSeason

theorem hasFlag_forInterval_trailing (set : Settings D) (ci : ℤ) (ri : RetentionInterval D F) :
    hasFlag (set.forInterval ci ri).flags fileFlagIsTrailing = ri.isSeason := by
  unfold Settings.forInterval
  cases ri.isSeason
  · exact hasFlag_and_not_self
  · exact hasFlag_or_self (by decide)

theorem isTrailing_openOrCreate {p : RetentionInterval D F × Option (DiskFile D F)}
    {f : StatFile D F} (hp : ∀ d, p.2 = some d → d.shape.isTrailing = p.1.isSeason)
    (h : StatFile.openOrCreate sysPageSize clock p.2 (set.forInterval ci p.1) = .ok f) :
    f.shape.isTrailing = p.1.isSeason := by
  obtain ⟨ri, existing⟩ := p
  cases existing with
  | some d =>
    cases h
    exact hp d rfl
  | none =>
    obtain ⟨-, hflags, -⟩ := openOrCreate_settings h
    unfold Shape.isTrailing
    rw [hflags]
    exact hasFlag_forInterval_trailing set ci ri

theorem isTrailing_openFiles {fs : List (StatFile D F)} (hfiles : OfPolicy files)
    (h : openFiles sysPageSize clock ci set files = .ok fs) :
    fs.map (·.shape.isTrailing) = files.map (·.1.isSeason) := by
  induction files generalizing set fs with
  | nil =>
    cases h
    rfl
  | cons p files ih =>
    obtain ⟨hp, hrest⟩ := List.forall_mem_cons.1 hfiles
    obtain ⟨f, gs, hf, hgs, rfl⟩ := openFiles_cons_ok h
    rw [List.map_cons, List.map_cons, ih hrest hgs, isTrailing_openOrCreate hp hf]

/-- **The trailing files** are those of the seasonal intervals. -/
theorem isTrailing_construct (hfiles : OfPolicy (first :: rest))
    (h : construct sysPageSize clock isCollated zeroTime first rest = .ok c) :
    c.shapes.map Shape.isTrailing = (first :: rest).map (·.1.isSeason) := by
  obtain ⟨hfirst, hrest⟩ := List.forall_mem_cons.1 hfiles
  obtain ⟨fine, gs, hfine, hgs, rfl⟩ := construct_ok h
  unfold shapes StatCounter.files
  rw [List.map_map]
  show fine.shape.isTrailing :: gs.map (·.shape.isTrailing) = _
  rw [isTrailing_openOrCreate hfirst hfine, isTrailing_openFiles hrest hgs]
  rfl

/-- The regular files come first. -/
theorem regular_first {rp : RetentionPolicy D F}
    (hrp : rp.intervals = (first :: rest).map Prod.fst)
    (h : c.shapes.map Shape.isTrailing = (first :: rest).map (·.1.isSeason)) :
    c.files.Pairwise fun f g => (!g.shape.isTrailing) = true → (!f.shape.isTrailing) = true := by
  have hflags : c.files.map (·.shape.isTrailing) = rp.intervals.map (·.isSeason) := by
    have hshapes : c.files.map (·.shape.isTrailing) = c.shapes.map Shape.isTrailing := by
      unfold shapes
      rw [List.map_map]
      rfl
    rw [hshapes, h, hrp, List.map_map]
    rfl
  have hordered : (rp.intervals.map (·.isSeason)).Pairwise fun a b => b = false → a = false :=
    List.pairwise_map.2 (rp.ordered.imp fun hab hb => (hab hb).1)
  rw [← hflags, List.pairwise_map] at hordered
  simpa using hordered

/-! ### The file that is picked -/

/-- The window of the file goes back to the start time. -/
def GoesBackTo (now startTime : ℤ) (sf : StatFile D F) : Bool :=
  sf.isBucketIndexInFile now (sf.shape.mapTimeToBucketIndex startTime false)

omit [FloatArith D F] in
theorem pickLoop_fst (now startTime i : ℤ) (fs : List (StatFile D F)) :
    (pickLoop now startTime fs i).1 = fs.find? (GoesBackTo now startTime) := by
  induction fs generalizing i with
  | nil => rfl
  | cons f fs ih =>
    unfold pickLoop
    cases hin : GoesBackTo now startTime f with
    | true =>
      rw [List.find?_cons_of_pos hin, if_pos (show f.isBucketIndexInFile now _ = true from hin)]
    | false =>
      have hnot : ¬ f.isBucketIndexInFile now (f.shape.mapTimeToBucketIndex startTime false) = true :=
        Bool.eq_false_iff.1 hin
      rw [List.find?_cons_of_neg (Bool.eq_false_iff.1 hin), if_neg hnot]
      exact ih _

/-- The file picked is the first regular one whose window has the start time; none is picked if there
is no such file. -/
def PicksFinest (c : StatCounter D F) (now startTime endTime interval : ℤ) : Prop :=
  (c.pickStatFile now startTime endTime interval).1 =
    (c.files.filter fun sf => !sf.shape.isTrailing).find? (GoesBackTo now startTime)

omit [FloatArith D F] in
theorem pickStatFile_fst (c : StatCounter D F) (now interval : ℤ) {s e : ℤ} (hse : s ≤ e) :
    (c.pickStatFile now s e interval).1 = c.files.find? (GoesBackTo now s) := by
  unfold pickStatFile
  rw [if_neg (not_lt.2 hse), ← pickLoop_fst now s interval c.files]
  cases pickLoop now s c.files interval with
  | mk sf i => cases sf <;> rfl

/-- **When the finest regular file is picked**: in every run of a counter that has the files of its
policy, if and only if the start time is in the window of a regular file, or in that of no trailing
one. -/
theorem pickStatFile_finest_iff {rp : RetentionPolicy D F} {c₀ : StatCounter D F}
    (hrp : rp.intervals = (first :: rest).map Prod.fst) (hfiles : OfPolicy (first :: rest))
    (hnew : construct sysPageSize clock isCollated zeroTime first rest = .ok c₀)
    {ops : List (CounterOp D)} (hrun : ops.foldlM StatCounter.step c₀ = .ok c)
    (now interval : ℤ) {start stop : ℤ} (hstop : start ≤ stop) :
    c.PicksFinest now start stop interval ↔
      (∃ sf ∈ c.files, sf.shape.isTrailing = false ∧ GoesBackTo now start sf = true) ∨
        ∀ sf ∈ c.files, sf.shape.isTrailing = true → GoesBackTo now start sf = false := by
  have hshapes := isTrailing_construct hfiles hnew
  rw [← shapes_run hrun] at hshapes
  unfold PicksFinest
  rw [pickStatFile_fst c now interval hstop, find?_filter_iff (regular_first hrp hshapes)]
  simp

end StatCounter

/-- A season of 360 minutes. -/
def minuteSeason : RetentionInterval ℚ ℚ :=
  { oneMinute with
    lambda := ⟨1, 2, by decide, by decide⟩
    lambda_ok := Or.inr (by decide +kernel) }

/-- Ten-second intervals, and then the season. -/
def seasonalPolicy : RetentionPolicy ℚ ℚ where
  intervals := [tenSeconds, minuteSeason]
  ordered := List.pairwise_pair.2 fun h => absurd h (by decide +kernel)

/-- A gauge with the files of that policy, created at time 1000. -/
def seasonalGauge : StatCounter ℚ ℚ where
  fine := StatFile.ofDisk ⟨newShape 4096 1000 10
    ((Settings.forCounter ℚ false 0).forInterval 1 tenSeconds), newHeader ℚ 1000,
    fun _ _ => Bucket.zero⟩
  coarser := [StatFile.ofDisk ⟨newShape 4096 1000 60
    (((Settings.forCounter ℚ false 0).forInterval 1 tenSeconds).forInterval 10 minuteSeason),
    newHeader ℚ 960, fun _ _ => Bucket.zero⟩]
  collations := fun _ => CollationInfo.empty
  accepted := []
  pushed := []

theorem seasonalGauge_new :
    StatCounter.construct 4096 1000 false 0 (tenSeconds, none) [(minuteSeason, none)] =
      .ok seasonalGauge := rfl

/-- After a record at 7000, a request from 6990 on gets the ten-second file. -/
theorem pickStatFile_finest_sample :
    ∃ c, [recordAt 7000 1].foldlM StatCounter.step seasonalGauge = .ok c ∧
      c.PicksFinest 7000 6990 7000 0 := by
  obtain ⟨c, hc, hval⟩ := Run.exists_ok_of_toOption_map (show
    ([recordAt 7000 1].foldlM StatCounter.step seasonalGauge).toOption.map (fun c =>
      (c.fine.shape.isTrailing, StatCounter.GoesBackTo 7000 6990 c.fine)) = some (false, true)
    by decide +kernel)
  obtain ⟨hregular, hback⟩ := Prod.mk.inj hval
  have hfiles : StatCounter.OfPolicy [(tenSeconds, none), (minuteSeason, none)] := by
    simp [StatCounter.OfPolicy]
  have hpolicy : seasonalPolicy.intervals = [tenSeconds, minuteSeason] := rfl
  exact ⟨c, hc, (StatCounter.pickStatFile_finest_iff hpolicy hfiles seasonalGauge_new hc 7000 0
    (by decide)).2 (Or.inl ⟨c.fine, List.mem_cons_self, hregular, hback⟩)⟩

/-- A request from 1600 on, which has left the window of the ten-second file: the trailing file is
picked. -/
theorem pickStatFile_trailing :
    StatCounter.construct 4096 1000 false 0 (tenSeconds, none) [(minuteSeason, none)] =
        .ok seasonalGauge ∧
      ∃ c, [recordAt 7000 1].foldlM StatCounter.step seasonalGauge = .ok c ∧
        (c.pickStatFile 7000 1600 2000 0).1.map (·.shape.isTrailing) = some true ∧
        ¬ c.PicksFinest 7000 1600 2000 0 := by
  refine ⟨rfl, ?_⟩
  obtain ⟨c, hc, hval⟩ := Run.exists_ok_of_toOption_map (show
    ([recordAt 7000 1].foldlM StatCounter.step seasonalGauge).toOption.map (fun c =>
      ((c.pickStatFile 7000 1600 2000 0).1.map (·.shape.isTrailing),
        ((c.files.filter fun sf => !sf.shape.isTrailing).find?
          (StatCounter.GoesBackTo 7000 1600)).isSome)) = some (some true, false) by decide +kernel)
  obtain ⟨hpick, hnone⟩ := Prod.mk.inj hval
  refine ⟨c, hc, hpick, fun h => ?_⟩
  rw [← h] at hnone
  cases hsf : (c.pickStatFile 7000 1600 2000 0).1 with
  | none =>
    rw [hsf] at hpick
    cases hpick
  | some sf =>
    rw [hsf] at hnone
    cases hnone

end Istatd
