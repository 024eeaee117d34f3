import Istatd.StatCounter
import Istatd.RingInvariant

/-!
# The files of a new counter

What the constructor makes when none of the files of a counter exists.  The finest file of a
collated counter has the flag of collated files and its other files that of counter aggregates, the
files of a gauge have neither; the files of seasonal intervals have the flag of trailing files.
-/

namespace Istatd

namespace StatCounter

variable {D F : Type} [FloatArith D F] {sysPageSize clock ci : ℤ} {f : StatFile D F}
  {set : Settings D}

/-- An empty file, as `writeNewHeader` makes it. -/
def IsNewFile (f : StatFile D F) : Prop :=
  ∃ sh hd, hd.lastBucket = 0 ∧ f = StatFile.ofDisk ⟨sh, hd, fun _ _ => Bucket.zero⟩

/-- A new file has the flags and the fixed count of its settings, and their interval if that is in
range. -/
theorem openOrCreate_settings (h : StatFile.openOrCreate sysPageSize clock none set = .ok f) :
    IsNewFile f ∧ f.shape.flags = set.flags ∧ f.shape.fixedCount = set.fixedCount ∧
      (0 < set.intervalTime → set.intervalTime < 2 ^ 31 →
        f.shape.cfgInterval = set.intervalTime) := by
  obtain ⟨sh, hw, rfl⟩ := StatFile.openOrCreate_new h
  obtain ⟨hsh, -⟩ := writeNewHeader_ok hw
  refine ⟨⟨sh, _, rfl, rfl⟩, ?_, ?_, fun h0 h1 => ?_⟩
  · show sh.flags = _
    rw [hsh]
    rfl
  · show sh.fixedCount = _
    rw [hsh]
    rfl
  · show sh.cfgInterval = _
    rw [hsh]
    show (if toInt32 set.intervalTime < 1 then 1 else toInt32 set.intervalTime) = _
    rw [toInt32_of_lt h0 h1, if_neg (by omega)]

/-- The flags of a file: those of its kind, and that of trailing files for a seasonal interval. -/
def fileFlags (kind : BitVec 32) (isSeason : Bool) : BitVec 32 :=
  if isSeason then kind ||| fileFlagIsTrailing else kind

/-- The kind of the first file. -/
def firstKind (isCollated : Bool) : BitVec 32 := if isCollated then fileFlagIsCollated else 0#32

/-- The kind of the others. -/
def coarserKind (isCollated : Bool) : BitVec 32 :=
  if isCollated then fileFlagIsCounterAggregate else 0#32

theorem fileFlags_isCollated (b s : Bool) :
    hasFlag (fileFlags (firstKind b) s) fileFlagIsCollated = b ∧
      hasFlag (fileFlags (coarserKind b) s) fileFlagIsCollated = false := by
  cases b <;> cases s <;> decide

theorem fileFlags_isTrailing (b s : Bool) :
    hasFlag (fileFlags (firstKind b) s) fileFlagIsTrailing = s ∧
      hasFlag (fileFlags (coarserKind b) s) fileFlagIsTrailing = s := by
  cases b <;> cases s <;> decide

theorem fileFlags_isCounterAggregate (b s : Bool) :
    hasFlag (fileFlags (firstKind b) s) fileFlagIsCounterAggregate = false ∧
      hasFlag (fileFlags (coarserKind b) s) fileFlagIsCounterAggregate = b := by
  cases b <;> cases s <;> decide

/-- The loop sets the flag of trailing files, or takes it away, and leaves the others. -/
theorem forInterval_flags {kind : BitVec 32} {s : Bool} (hk : kind &&& ~~~fileFlagIsTrailing = kind)
    (h : set.flags = fileFlags kind s) (ci : ℤ) (ri : RetentionInterval D F) :
    (set.forInterval ci ri).flags = fileFlags kind ri.isSeason := by
  have hset : set.flags &&& ~~~fileFlagIsTrailing = kind ∧
      set.flags ||| fileFlagIsTrailing = kind ||| fileFlagIsTrailing := by
    rw [h]
    cases s
    · exact ⟨hk, rfl⟩
    · show (kind ||| fileFlagIsTrailing) &&& ~~~fileFlagIsTrailing = kind ∧
        kind ||| fileFlagIsTrailing ||| fileFlagIsTrailing = _
      rw [BitVec.and_or_distrib_right, hk, BitVec.or_assoc, BitVec.or_self]
      exact ⟨by simp, rfl⟩
  unfold Settings.forInterval
  cases ri.isSeason
  · simp only [Bool.false_eq_true, if_false]
    split_ifs
    · exact hset.1
    · exact hset.1
  · simp only [if_true]
    split_ifs
    · exact hset.2
    · exact hset.2

theorem forInterval_intervalTime (ri : RetentionInterval D F) :
    (set.forInterval ci ri).intervalTime = ri.interval := by
  unfold Settings.forInterval
  simp only
  split_ifs <;> rfl

theorem forInterval_fixedCount (h : hasFlag set.flags fileFlagIsCounterAggregate = true)
    (ri : RetentionInterval D F) :
    (set.forInterval ci ri).fixedCount = ri.interval.tdiv ci := by
  unfold Settings.forInterval
  simp only [h, if_true]
  split_ifs <;> rfl

theorem kind_and_not_trailing (b : Bool) :
    firstKind b &&& ~~~fileFlagIsTrailing = firstKind b ∧
      coarserKind b &&& ~~~fileFlagIsTrailing = coarserKind b := by
  cases b <;> decide

/-- After the first file the settings have the kind of the others. -/
theorem forCoarser_flags {b s : Bool} (h : set.flags = fileFlags (firstKind b) s) :
    (set.forCoarser b).flags = fileFlags (coarserKind b) s := by
  unfold Settings.forCoarser
  cases b
  · exact h
  · show (set.flags &&& ~~~fileFlagIsCollated) ||| fileFlagIsCounterAggregate = _
    rw [h]
    cases s <;> rfl

/-- The files of the loop, when none exists. -/
theorem openFiles_new {rest : List (RetentionInterval D F)} {b s : Bool} {fs : List (StatFile D F)}
    (hset : set.flags = fileFlags (coarserKind b) s)
    (h : openFiles sysPageSize clock ci set (rest.map fun ri => (ri, none)) = .ok fs) :
    ∀ g ∈ fs, IsNewFile g ∧ ∃ ri ∈ rest, g.shape.flags = fileFlags (coarserKind b) ri.isSeason ∧
      (b = true → g.shape.fixedCount = ri.interval.tdiv ci) := by
  induction rest generalizing set s fs with
  | nil =>
    cases h
    simp
  | cons ri rest ih =>
    have hflags := forInterval_flags (kind_and_not_trailing b).2 hset ci ri
    obtain ⟨f, gs, hf, hgs, rfl⟩ := openFiles_cons_ok h
    obtain ⟨hnew, hf1, hf2, -⟩ := openOrCreate_settings hf
    intro g hg
    rcases List.mem_cons.1 hg with rfl | hg
    · refine ⟨hnew, ri, by simp, hf1.trans hflags, fun hb => hf2.trans ?_⟩
      apply forInterval_fixedCount
      rw [hset, (fileFlags_isCounterAggregate b s).2, hb]
    · obtain ⟨hnew', ri', hmem, hrest⟩ := ih hflags hgs g hg
      exact ⟨hnew', ri', by simp [hmem], hrest⟩

/-- **A new counter**: all its files are new, of the kinds and intervals of the policy. -/
theorem construct_new {first : RetentionInterval D F} {rest : List (RetentionInterval D F)}
    {zeroTime : ℤ} {isCollated : Bool} {c : StatCounter D F}
    (h : construct sysPageSize clock isCollated zeroTime (first, none)
      (rest.map fun ri => (ri, none)) = .ok c) :
    (IsNewFile c.fine ∧ c.fine.shape.isCollated = isCollated ∧
        c.fine.shape.isTrailing = first.isSeason ∧ c.fine.shape.cfgInterval = first.interval) ∧
      ∀ g ∈ c.coarser, IsNewFile g ∧ g.shape.isCollated = false ∧
        g.shape.isCounterAggregate = isCollated ∧ ∃ ri ∈ rest, g.shape.isTrailing = ri.isSeason ∧
          (isCollated = true → g.shape.fixedCount = ri.interval.tdiv first.interval) := by
  obtain ⟨fine, gs, hfine, hgs, rfl⟩ := construct_ok h
  have hset := forInterval_flags (kind_and_not_trailing isCollated).1
    (show (Settings.forCounter F isCollated zeroTime : Settings D).flags =
      fileFlags (firstKind isCollated) false from rfl) 1 first
  obtain ⟨hnew, hflags, -, hival⟩ := openOrCreate_settings hfine
  rw [forInterval_intervalTime] at hival
  have hI : fine.shape.cfgInterval = first.interval := hival first.interval_pos first.interval_lt
  rw [hset] at hflags
  have hcol : fine.shape.isCollated = isCollated := by
    unfold Shape.isCollated
    rw [hflags, (fileFlags_isCollated isCollated _).1]
  refine ⟨⟨hnew, hcol, ?_, hI⟩, fun g hg => ?_⟩
  · unfold Shape.isTrailing
    rw [hflags, (fileFlags_isTrailing isCollated _).1]
  · rw [hcol, hI] at hgs
    obtain ⟨hnewg, ri, hri, hgf, hfix⟩ := openFiles_new (forCoarser_flags hset) hgs g hg
    refine ⟨hnewg, ?_, ?_, ri, hri, ?_, hfix⟩
    · unfold Shape.isCollated
      rw [hgf, (fileFlags_isCollated isCollated _).2]
    · unfold Shape.isCounterAggregate
      rw [hgf, (fileFlags_isCounterAggregate isCollated _).2]
    · unfold Shape.isTrailing
      rw [hgf, (fileFlags_isTrailing isCollated _).2]

/-- A coarser file for a regular interval divides into at least one interval of the first file: the
policy orders its regular intervals. -/
theorem one_le_fixedCount {rp : RetentionPolicy D F} {first : RetentionInterval D F}
    {rest : List (RetentionInterval D F)} {zeroTime : ℤ} {c : StatCounter D F}
    (hrp : rp.intervals = first :: rest)
    (h : construct sysPageSize clock true zeroTime (first, none)
      (rest.map fun ri => (ri, none)) = .ok c) {g : StatFile D F} (hg : g ∈ c.coarser)
    (hnt : g.shape.isTrailing = false) : 1 ≤ toInt32 g.shape.fixedCount := by
  have hordered := rp.ordered
  rw [hrp, List.pairwise_cons] at hordered
  obtain ⟨-, -, -, ri, hri, hs, hfix⟩ := (construct_new h).2 g hg
  have hlt := (hordered.1 ri hri (hs.symm.trans hnt)).2
  have hpos : 1 ≤ ri.interval / first.interval :=
    (Int.le_ediv_iff_mul_le first.interval_pos).2 (by omega)
  have hle : ri.interval / first.interval ≤ ri.interval :=
    Int.ediv_le_self _ ri.interval_pos.le
  rw [hfix rfl, Int.tdiv_eq_ediv_of_nonneg ri.interval_pos.le,
    toInt32_of_lt hpos (hle.trans_lt ri.interval_lt)]
  exact hpos

end StatCounter

end Istatd
