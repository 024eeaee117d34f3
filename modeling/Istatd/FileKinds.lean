import Istatd.Collation
import Istatd.NewCounter

/-!
# The kinds of the files of a counter

Files of a counter may exist when it is opened, and the constructor makes the others.  The finest
file decides whether the counter is collated, whatever name it was opened with; the settings for the
other files are changed only if it is.

* `openFiles_kinds`: a new coarser file has the flags of the settings after the first file;
* `fileKinds_iff`: when these flags are those of a coarser file of the counter.
-/

namespace Istatd

section Flags

variable {flags t m : BitVec 32}

theorem hasFlag_or (h : t &&& m = 0#32) : hasFlag (flags ||| t) m = hasFlag flags m := by
  unfold hasFlag
  rw [BitVec.and_or_distrib_right, h, BitVec.or_zero]

theorem hasFlag_and_not (h : ~~~t &&& m = m) : hasFlag (flags &&& ~~~t) m = hasFlag flags m := by
  unfold hasFlag
  rw [BitVec.and_assoc, h]

theorem hasFlag_or_self (h : m ≠ 0#32) : hasFlag (flags ||| m) m = true := by
  have hself : (flags ||| m) &&& m = m := by
    ext i hi
    simpa using Or.inr
  rw [hasFlag, hself]
  simpa using h

theorem hasFlag_and_not_self : hasFlag (flags &&& ~~~m) m = false := by
  rw [hasFlag, BitVec.and_assoc, BitVec.and_comm (~~~m), BitVec.and_not_self]
  simp

end Flags

variable {D F : Type} [FloatArith D F] {sysPageSize now ci : ℤ} {set : Settings D}

/-- The loop leaves the flags that do not concern trailing files. -/
theorem hasFlag_forInterval {m : BitVec 32} (hm : fileFlagIsTrailing &&& m = 0#32)
    (hm' : ~~~fileFlagIsTrailing &&& m = m) (ci : ℤ) (ri : RetentionInterval D F) :
    hasFlag (set.forInterval ci ri).flags m = hasFlag set.flags m := by
  have hflags : (set.forInterval ci ri).flags =
      if ri.isSeason then set.flags ||| fileFlagIsTrailing
      else set.flags &&& ~~~fileFlagIsTrailing := by
    unfold Settings.forInterval
    simp only
    split_ifs <;> rfl
  rw [hflags]
  split_ifs
  · exact hasFlag_or hm
  · exact hasFlag_and_not hm'

/-- A coarser file that is made new has the kind that the settings have after the first file. -/
theorem openFiles_kinds {files : List (RetentionInterval D F × Option (DiskFile D F))}
    {fs : List (StatFile D F)} (h : openFiles sysPageSize now ci set files = .ok fs) :
    fs.length = files.length ∧ ∀ p ∈ files.zip fs, p.1.2 = none →
      p.2.shape.isCollated = hasFlag set.flags fileFlagIsCollated ∧
        p.2.shape.isCounterAggregate = hasFlag set.flags fileFlagIsCounterAggregate := by
  induction files generalizing set fs with
  | nil =>
    cases h
    simp
  | cons p files ih =>
    obtain ⟨f, gs, hf, hgs, rfl⟩ := openFiles_cons_ok h
    obtain ⟨hlen, hkinds⟩ := ih hgs
    rw [hasFlag_forInterval (by decide) (by decide),
      hasFlag_forInterval (by decide) (by decide)] at hkinds
    refine ⟨congrArg (· + 1) hlen, fun q hq hnone => ?_⟩
    rcases List.mem_cons.1 hq with rfl | hq
    · have hnew : p.2 = none := hnone
      rw [hnew] at hf
      obtain ⟨-, hflags, -⟩ := StatCounter.openOrCreate_settings hf
      unfold Shape.isCollated Shape.isCounterAggregate
      rw [hflags, hasFlag_forInterval (by decide) (by decide),
        hasFlag_forInterval (by decide) (by decide)]
      exact ⟨rfl, rfl⟩
    · exact hkinds q hq hnone

namespace StatCounter

variable {zeroTime : ℤ} {isCollated : Bool} {c : StatCounter D F}
  {first : RetentionInterval D F × Option (DiskFile D F)}
  {rest : List (RetentionInterval D F × Option (DiskFile D F))}

/-- The file that exists is the finest, and else it is of the kind that was asked for. -/
theorem fine_isCollated
    (h : construct sysPageSize now isCollated zeroTime first rest = .ok c) :
    c.fine.shape.isCollated = (first.2.map (·.shape.isCollated)).getD isCollated := by
  obtain ⟨fine, gs, hfine, -, rfl⟩ := construct_ok h
  obtain ⟨ri, existing⟩ := first
  cases existing with
  | some d =>
    cases hfine
    rfl
  | none =>
    obtain ⟨-, hflags, -⟩ := openOrCreate_settings hfine
    show hasFlag fine.shape.flags fileFlagIsCollated = isCollated
    rw [hflags, hasFlag_forInterval (by decide) (by decide)]
    show hasFlag (firstKind isCollated) fileFlagIsCollated = isCollated
    cases isCollated <;> decide

/-- The kind of the coarser files that are made new. -/
theorem construct_kinds
    (h : construct sysPageSize now isCollated zeroTime first rest = .ok c) :
    c.coarser.length = rest.length ∧ ∀ p ∈ rest.zip c.coarser, p.1.2 = none →
      p.2.shape.isCounterAggregate = c.fine.shape.isCollated ∧
        p.2.shape.isCollated = (isCollated && !c.fine.shape.isCollated) := by
  obtain ⟨fine, gs, hfine, hgs, rfl⟩ := construct_ok h
  obtain ⟨hlen, hkinds⟩ := openFiles_kinds hgs
  refine ⟨hlen, fun p hp hnone => ?_⟩
  rw [(hkinds p hp hnone).1, (hkinds p hp hnone).2]
  have hset : ∀ m, fileFlagIsTrailing &&& m = 0#32 → ~~~fileFlagIsTrailing &&& m = m →
      hasFlag ((Settings.forCounter F isCollated zeroTime : Settings D).forInterval 1 first.1).flags
        m = hasFlag (firstKind isCollated) m :=
    fun m hm hm' => hasFlag_forInterval hm hm' 1 first.1
  unfold Settings.forCoarser
  cases hcol : fine.shape.isCollated
  · simp only [Bool.false_eq_true, if_false]
    rw [hset _ (by decide) (by decide), hset _ (by decide) (by decide)]
    cases isCollated <;> decide
  · simp only [if_true]
    rw [hasFlag_or_self (by decide), hasFlag_or (by decide), hasFlag_and_not_self]
    simp

/-- **File kinds.**  However a counter is opened and whichever of its files exist: every file that is
made new beyond the first is a counter aggregate just when the finest file is collated, and is not
collated itself, if and only if it is not so that the counter is opened as a collated one, its finest
file exists and is not collated, and a coarser file is missing. -/
theorem fileKinds_iff (sysPageSize now zeroTime : ℤ) (isCollated : Bool)
    (first : RetentionInterval D F × Option (DiskFile D F))
    (rest : List (RetentionInterval D F × Option (DiskFile D F))) (c : StatCounter D F)
    (h : construct sysPageSize now isCollated zeroTime first rest = .ok c) :
    (∀ p ∈ rest.zip c.coarser, p.1.2 = none →
      p.2.shape.isCounterAggregate = c.fine.shape.isCollated ∧ p.2.shape.isCollated = false) ↔
    ¬(isCollated = true ∧ (∃ d, first.2 = some d ∧ d.shape.isCollated = false) ∧
      ∃ p ∈ rest, p.2 = none) := by
  obtain ⟨hlen, hkinds⟩ := construct_kinds h
  have hfine := fine_isCollated h
  constructor
  · rintro hall ⟨hcol, ⟨d, hd, hnot⟩, ⟨p, hp, hnone⟩⟩
    rw [hd] at hfine
    have hfine' : c.fine.shape.isCollated = false := hfine.trans hnot
    -- the missing file is made collated
    obtain ⟨i, hi, rfl⟩ := List.getElem_of_mem hp
    have hi' : i < c.coarser.length := hlen ▸ hi
    have hmem : (rest[i], c.coarser[i]) ∈ rest.zip c.coarser := by
      have hz : i < (rest.zip c.coarser).length := by
        rw [List.length_zip]
        omega
      have hget : (rest.zip c.coarser)[i] = (rest[i], c.coarser[i]) := List.getElem_zip
      exact hget ▸ List.getElem_mem hz
    have hfalse := (hall _ hmem hnone).2
    rw [(hkinds _ hmem hnone).2, hcol, hfine'] at hfalse
    cases hfalse
  · intro hnot p hp hnone
    refine ⟨(hkinds p hp hnone).1, ?_⟩
    rw [(hkinds p hp hnone).2]
    cases hcol : isCollated with
    | false => rfl
    | true =>
      cases hex : first.2 with
      | none =>
        rw [hfine, hex, hcol]
        rfl
      | some d =>
        cases hd : d.shape.isCollated with
        | true =>
          rw [hfine, hex]
          simp [hd]
        | false => exact absurd ⟨hcol, ⟨d, hex, hd⟩, p.1, (List.of_mem_zip hp).1, hnone⟩ hnot

end StatCounter

/-- The ten-second file of a gauge, created at time 1000. -/
def gaugeFile : DiskFile ℚ ℚ :=
  ⟨newShape 4096 1000 10 ((Settings.forCounter ℚ false 0).forInterval 1 tenSeconds),
    newHeader ℚ 1000, fun _ _ => Bucket.zero⟩

/-- A gauge opened as a collated counter, with its one-minute file missing: the new file is collated
and not an aggregate. -/
theorem fileKinds_mixed :
    ∃ c, StatCounter.construct 4096 2000 true 0 (tenSeconds, some gaugeFile) [(oneMinute, none)] =
        .ok c ∧
      c.fine.shape.isCollated = false ∧
      c.coarser.map (fun f => (f.shape.isCollated, f.shape.isCounterAggregate)) =
        [(true, false)] ∧
      ¬∀ p ∈ [(oneMinute, (none : Option (DiskFile ℚ ℚ)))].zip c.coarser, p.1.2 = none →
        p.2.shape.isCounterAggregate = c.fine.shape.isCollated ∧ p.2.shape.isCollated = false := by
  refine ⟨_, rfl, rfl, rfl, fun h => ?_⟩
  have hfalse := (h _ List.mem_cons_self rfl).2
  revert hfalse
  decide

/-- A gauge opened as one, with its one-minute file missing. -/
theorem fileKinds_sample :
    ∃ c, StatCounter.construct 4096 2000 false 0 (tenSeconds, some gaugeFile) [(oneMinute, none)] =
        .ok c ∧
      ∀ p ∈ [(oneMinute, (none : Option (DiskFile ℚ ℚ)))].zip c.coarser, p.1.2 = none →
        p.2.shape.isCounterAggregate = c.fine.shape.isCollated ∧ p.2.shape.isCollated = false := by
  refine ⟨_, rfl, ?_⟩
  exact (StatCounter.fileKinds_iff 4096 2000 0 false (tenSeconds, some gaugeFile) _ _ rfl).2
    fun h => Bool.false_ne_true h.1

end Istatd
