import Istatd.StatFile
import Istatd.Retention

/-!
# Counters (`daemon/StatCounter.cpp`)

A `StatCounter` keeps one counter file per retention interval.  A gauge writes every record to all
of them.  A collated counter adds its records up in a window of five quanta of the finest interval,
in memory; when the window shifts, its buckets are written to the finest file and the oldest bucket
is merged into the coarser files.

The functions take the clock `istattime(0)` as the argument `now`.  Logging and the loopback
counters are left out.  The lists `accepted` and `pushed` have no counterpart in the program: they
record the quanta and values that reached `collatedUpdate`, and the buckets that were passed to the
coarser files.
-/

namespace Istatd

open FloatArith

variable {D F : Type} [FloatArith D F]

/-- The indices of `collations_` are numerals of `Fin 5`. -/
instance neZero_five : NeZero 5 := ⟨by decide⟩

/-- `StatCounter::CollationInfo`. -/
structure CollationInfo (D F : Type) where
  bucket : Bucket D F
  writes : ℕ
  time : ℤ

/-- `CollationInfo()`. -/
def CollationInfo.empty : CollationInfo D F := ⟨Bucket.zero, 0, 0⟩

/-- `CollationInfo(t)`. -/
def CollationInfo.ofTime (t : ℤ) : CollationInfo D F := ⟨Bucket.blank 0 t, 0, t⟩

/-- A counter: `counters_`, as its first file and the others, and `collations_`. -/
structure StatCounter (D F : Type) where
  fine : StatFile D F
  coarser : List (StatFile D F)
  collations : Fin 5 → CollationInfo D F
  accepted : List (ℤ × D)
  pushed : List (Bucket D F)

/-- What can go wrong in the functions of a counter: an access to `collations_` beyond its five
elements, a division by zero, a failed assertion. -/
inductive Fault
  | collationIndex
  | divisionByZero
  | assertion
  deriving DecidableEq

/-! ### The constructor -/

/-- The settings of the next file in the loop of the constructor. -/
def Settings.forInterval (set : Settings D) (collationInterval : ℤ) (ri : RetentionInterval D F) :
    Settings D :=
  let set := { set with intervalTime := ri.interval, numSamples := ri.samples }
  let set :=
    if hasFlag set.flags fileFlagIsCounterAggregate then
      { set with fixedCount := ri.interval.tdiv collationInterval }
    else set
  if ri.isSeason then
    { set with
      flags := set.flags ||| fileFlagIsTrailing
      lambda := ri.lambda
      season := (ri.samples * ri.interval).toNat }
  else { set with flags := set.flags &&& ~~~fileFlagIsTrailing, lambda := ofInt F 0 }

/-- The settings before the loop. -/
def Settings.forCounter (F : Type) [FloatArith D F] (isCollated : Bool) (zeroTime : ℤ) :
    Settings D where
  zeroTime := zeroTime
  intervalTime := 0
  numSamples := 0
  flags := if isCollated then fileFlagIsCollated else 0#32
  season := 0
  lambda := ofInt F 0
  fixedCount := 0

/-- The settings after the first file: coarser files of a collated counter are aggregates. -/
def Settings.forCoarser (set : Settings D) (isCollated : Bool) : Settings D :=
  if isCollated then
    { set with flags := (set.flags &&& ~~~fileFlagIsCollated) ||| fileFlagIsCounterAggregate }
  else set

/-- The loop of the constructor from its second round on.  Each interval comes with the file that
exists at its path, if there is one. -/
def openFiles (sysPageSize now collationInterval : ℤ) :
    Settings D → List (RetentionInterval D F × Option (DiskFile D F)) →
      Except String (List (StatFile D F))
  | _, [] => .ok []
  | set, (ri, existing) :: rest => do
    let set := set.forInterval collationInterval ri
    let f ← StatFile.openOrCreate sysPageSize now existing set
    let fs ← openFiles sysPageSize now collationInterval set rest
    return f :: fs

theorem openFiles_cons_ok {sysPageSize now collationInterval : ℤ} {set : Settings D}
    {p : RetentionInterval D F × Option (DiskFile D F)}
    {rest : List (RetentionInterval D F × Option (DiskFile D F))} {fs : List (StatFile D F)}
    (h : openFiles sysPageSize now collationInterval set (p :: rest) = .ok fs) :
    ∃ f gs, StatFile.openOrCreate sysPageSize now p.2 (set.forInterval collationInterval p.1) =
        .ok f ∧
      openFiles sysPageSize now collationInterval (set.forInterval collationInterval p.1) rest =
        .ok gs ∧ fs = f :: gs := by
  simp only [openFiles, bind, Except.bind] at h
  split at h
  · cases h
  · rename_i f hf
    split at h
    · cases h
    · rename_i gs hgs
      cases h
      exact ⟨f, gs, hf, hgs, rfl⟩

namespace StatCounter

/-- `StatCounter::StatCounter`, for a policy with the intervals `first` and `rest`. -/
def construct (sysPageSize now : ℤ) (isCollated : Bool) (zeroTime : ℤ)
    (first : RetentionInterval D F × Option (DiskFile D F))
    (rest : List (RetentionInterval D F × Option (DiskFile D F))) :
    Except String (StatCounter D F) := do
  let set := (Settings.forCounter F isCollated zeroTime).forInterval 1 first.1
  let fine ← StatFile.openOrCreate sysPageSize now first.2 set
  -- the file decides whether the counter is collated
  let set := set.forCoarser fine.shape.isCollated
  let coarser ← openFiles sysPageSize now fine.shape.cfgInterval set rest
  return {
    fine := fine
    coarser := coarser
    collations := fun _ => CollationInfo.empty
    accepted := []
    pushed := [] }

/-- What a successful construction did. -/
theorem construct_ok {sysPageSize now : ℤ} {isCollated : Bool} {zeroTime : ℤ}
    {first : RetentionInterval D F × Option (DiskFile D F)}
    {rest : List (RetentionInterval D F × Option (DiskFile D F))} {c : StatCounter D F}
    (h : construct sysPageSize now isCollated zeroTime first rest = .ok c) :
    ∃ fine gs, StatFile.openOrCreate sysPageSize now first.2
        ((Settings.forCounter F isCollated zeroTime).forInterval 1 first.1) = .ok fine ∧
      openFiles sysPageSize now fine.shape.cfgInterval
        (((Settings.forCounter F isCollated zeroTime).forInterval 1 first.1).forCoarser
          fine.shape.isCollated) rest = .ok gs ∧
      c = ⟨fine, gs, fun _ => CollationInfo.empty, [], []⟩ := by
  unfold construct at h
  simp only [bind, Except.bind] at h
  split at h
  · cases h
  · rename_i fine hfine
    split at h
    · cases h
    · rename_i gs hgs
      cases h
      exact ⟨fine, gs, hfine, hgs, rfl⟩

variable (c : StatCounter D F)

/-- `isCollated_`. -/
def isCollated : Bool := c.fine.shape.isCollated

/-- `collationInterval_`. -/
def collationInterval : ℤ := c.fine.shape.cfgInterval

/-! ### The collation window -/

/-- `StatCounter::findCollationIndex`; `none` is its return value 5. -/
def findCollationIndex (t : ℤ) : Option (Fin 5) :=
  (List.finRange 5).find? fun i =>
    (c.collations i).time ≤ t ∧ t < (c.collations i).time + c.collationInterval

/-- The window written to the finest file. -/
def writeCollations (now : ℤ) : StatFile D F :=
  (List.finRange 5).foldl (fun f i => (f.updateBucket now (c.collations i).bucket).2) c.fine

/-- `StatCounter::shiftCollated`: whether the window was shifted, and the counter after it. -/
def shiftCollated (now : ℤ) : Bool × StatCounter D F :=
  if (c.collations 0).time = 0 then
    -- nothing to flush yet
    (false, c)
  else
    (true, { c with
      fine := c.writeCollations now
      coarser := c.coarser.map fun f => (f.updateBucket now (c.collations 0).bucket).2
      collations := ![c.collations 1, c.collations 2, c.collations 3, c.collations 4,
        CollationInfo.ofTime ((c.collations 4).time + c.collationInterval)]
      pushed := c.pushed ++ [(c.collations 0).bucket] })

/-- The loop of `maybeShiftCollated`, for at most `n` rounds. -/
def shiftLoop (now t : ℤ) : ℕ → StatCounter D F → StatCounter D F
  | 0, c => c
  | n + 1, c =>
    if (c.collations 4).time + c.collationInterval ≤ t then
      let r := c.shiftCollated now
      if r.1 then shiftLoop now t n r.2 else r.2
    else c

/-- `StatCounter::maybeShiftCollated`.  Every shift moves the last time of the window up by one
interval, so the loop ends within the given number of rounds, see `maybeShiftCollated_exit`. -/
def maybeShiftCollated (now t : ℤ) : StatCounter D F :=
  if c.isCollated then
    shiftLoop now t ((t - (c.collations 4).time) / c.collationInterval).toNat c
  else c

/-- `StatCounter::fullyShiftCollated`. -/
def fullyShiftCollated (now : ℤ) : StatCounter D F :=
  c.maybeShiftCollated now ((c.collations 4).time + c.collationInterval * 5)

/-- The window `record` sets up around its time when there is none. -/
def initCollations (time : ℤ) : StatCounter D F :=
  { c with collations := fun i =>
      CollationInfo.ofTime (time - ((4 - i : Fin 5) : ℕ) * c.collationInterval) }

/-! ### Records -/

/-- The time checks of a collated `record`: not from the future, and not before the window. -/
def Admits (now time : ℤ) : Prop :=
  ¬ now + c.collationInterval < time ∧ ¬ time < (c.collations 0).time

instance (now time : ℤ) : Decidable (c.Admits now time) := inferInstanceAs (Decidable (_ ∧ _))

/-- The counter after `record` has made place for a quantum in the window. -/
def shiftFor (now time : ℤ) : StatCounter D F :=
  if (c.findCollationIndex time).isSome then c
  else if (c.collations 0).time = 0 then c.initCollations time
  else c.maybeShiftCollated now time

/-- The counter after `record` has added a value to slot `i` of the window.  The finest file is
written on power-of-two updates only. -/
def addCollated (now : ℤ) (i : Fin 5) (time : ℤ) (v : D) : StatCounter D F :=
  let collation := c.collations i
  let bucket := collation.bucket.collatedUpdate v time
  let writes := collation.writes + 1
  { c with
    collations := Function.update c.collations i { collation with bucket := bucket, writes := writes }
    fine := if writes &&& (writes - 1) = 0 then (c.fine.updateBucket now bucket).2 else c.fine
    accepted := c.accepted ++ [(time, v)] }

/-- `StatCounter::record` of a collated counter. -/
def recordCollated (now time : ℤ) (value : D) : Except Fault (StatCounter D F) :=
  if c.Admits now time then
    let time := time - time.tmod c.collationInterval
    let c' := c.shiftFor now time
    match c'.findCollationIndex time with
    | some i => .ok (c'.addCollated now i time (div F value (ofInt F c.collationInterval)))
    | none => .error .collationIndex
  else .ok c

/-- `x + fabs(x) * 0.0001`. -/
def withEpsilon (F : Type) [FloatArith D F] (x : D) : D :=
  add F x (mul F (abs F x) (div F (ofInt F 1) (ofInt F 10000)))

/-- The checks of `record` of a gauge: not from the future, not empty, and with the average between
the bounds. -/
def AdmitsGauge (F : Type) [FloatArith D F] (now time : ℤ) (value min max : D) (cnt : ℕ) : Prop :=
  let avg := div F value (ofInt F cnt)
  ¬ now + 60 < time ∧ ¬ cnt = 0 ∧
    ¬ (lt F (withEpsilon F max) min ∨ lt F (withEpsilon F avg) min ∨ lt F (withEpsilon F max) avg)

instance (now time : ℤ) (value min max : D) (cnt : ℕ) :
    Decidable (AdmitsGauge F now time value min max cnt) :=
  inferInstanceAs (Decidable (¬ _ ∧ ¬ _ ∧ ¬ (_ ∨ _ ∨ _)))

/-- `StatCounter::record` of a gauge. -/
def recordGauge (now time : ℤ) (value valueSq min max : D) (cnt : ℕ) : StatCounter D F :=
  if AdmitsGauge F now time value min max cnt then
    let b := Bucket.make value (narrow valueSq) (narrow min) (narrow max) (toInt32 cnt) time
    { c with
      fine := (c.fine.updateBucket now b).2
      coarser := c.coarser.map fun f => (f.updateBucket now b).2 }
  else c

/-- `StatCounter::record`. -/
def record (now time : ℤ) (value valueSq min max : D) (cnt : ℕ) : Except Fault (StatCounter D F) :=
  if c.isCollated then c.recordCollated now time value
  else .ok (c.recordGauge now time value valueSq min max cnt)

/-! ### Flushes, and the end of a session -/

/-- `StatCounter::flush`. -/
def flush (now : ℤ) : StatCounter D F :=
  let c := c.maybeShiftCollated now (now + c.collationInterval * 2)
  { c with fine := c.fine.flush now, coarser := c.coarser.map fun f => f.flush now }

/-- `StatCounter::forceFlush`. -/
def forceFlush (now : ℤ) : StatCounter D F := (c.fullyShiftCollated now).flush now

/-- The body of `StatCounter::~StatCounter`. -/
def close (now : ℤ) : StatCounter D F :=
  if 60 * 5 < now - (c.collations 4).time then c.fullyShiftCollated now
  else c.maybeShiftCollated now (now + c.collationInterval * 5 / 2)

/-- The counter destroyed, which also closes its files, and constructed again on the same files. -/
def reopen (now : ℤ) : StatCounter D F :=
  let c := c.close now
  { c with
    fine := StatFile.ofDisk c.fine.toDisk
    coarser := c.coarser.map fun f => StatFile.ofDisk f.toDisk
    collations := fun _ => CollationInfo.empty }

end StatCounter

/-- A constructor that finds all files opens them and starts with an empty window, whatever its
settings: this is what `reopen` takes the constructor to do. -/
theorem StatCounter.construct_existing (sysPageSize now : ℤ) (isCollated : Bool) (zeroTime : ℤ)
    (ri : RetentionInterval D F) (d : DiskFile D F)
    (rest : List (RetentionInterval D F × DiskFile D F)) :
    construct sysPageSize now isCollated zeroTime (ri, some d)
        (rest.map fun p => (p.1, some p.2)) =
      .ok { fine := StatFile.ofDisk d
            coarser := rest.map fun p => StatFile.ofDisk p.2
            collations := fun _ => CollationInfo.empty
            accepted := []
            pushed := [] } := by
  have hfiles : ∀ (i : ℤ) (set : Settings D), openFiles sysPageSize now i set
      (rest.map fun p => (p.1, some p.2)) = .ok (rest.map fun p => StatFile.ofDisk p.2) := by
    intro i
    induction rest with
    | nil => intro set; rfl
    | cons p rest ih =>
      intro set
      simp only [List.map_cons, openFiles, StatFile.openOrCreate]
      rw [show ∀ x : StatFile D F, (Except.ok x : Except String _) = pure x from fun _ => rfl,
        pure_bind, ih]
      rfl
  unfold construct
  simp only [StatFile.openOrCreate]
  rw [show ∀ x : StatFile D F, (Except.ok x : Except String _) = pure x from fun _ => rfl,
    pure_bind, hfiles]
  rfl

/-- A call on a counter, or the end of a session and the start of another. -/
inductive CounterOp (D : Type)
  | record (now time : ℤ) (value valueSq min max : D) (cnt : ℕ)
  | flush (now : ℤ)
  | forceFlush (now : ℤ)
  | maybeShiftCollated (now t : ℤ)
  | reopen (now : ℤ)

namespace StatCounter

/-- The counter after a call. -/
def step (c : StatCounter D F) : CounterOp D → Except Fault (StatCounter D F)
  | .record now time value valueSq min max cnt => c.record now time value valueSq min max cnt
  | .flush now => .ok (c.flush now)
  | .forceFlush now => .ok (c.forceFlush now)
  | .maybeShiftCollated now t => .ok (c.maybeShiftCollated now t)
  | .reopen now => .ok (c.reopen now)

end StatCounter

end Istatd
