import Istatd.FileQuanta
import Istatd.TransplantServer

/-!
# One exchange of the transplant tool (`do_file`, `apply_offer_to_file`)

The client offers the buckets it has in the range of times of the command line, the server applies
them and answers with the buckets the client has not offered (`applyAndExtract`), and the client
applies the answer.  For a quantum inside the range that both files retain and only one of them has
samples for, both should have them afterwards, and nothing else should change.

* `doFile`, `applyOffer`, `exchange`: the functions of the source;
* `Transplant.Synced`: what an exchange should do;
* `Transplant.IsStep`, `Taken`, `Read`: the walk of the server through the times of the offer, what
  it takes from the client, and what it reads from its own file;
* `Transplant.SyncsUp`: the files and ranges for which the walk does what it should;
* `Transplant.exchange_synced_iff`: the exchange always ends, and does what it should just for those.

Both sides read their slots without a look at the time in them, and the steps of the server are
those of the first time of the range, on the grid or not: these are the two ways to go wrong.  The
model records the file index of every bucket that is read; the program has no such record.
-/

namespace Istatd

variable {D F : Type} [FloatArith D F]

/-- The loop of `do_file`, for `n` buckets from an index on: the buckets that are not empty, the
file indices that were read, and the file. -/
def offerLoop (now : ℤ) : ℕ → ℤ → StatFile D F → List (Bucket D F) × List ℤ × StatFile D F
  | 0, _, f => ([], [], f)
  | n + 1, i, f =>
    let w := f.writableBucket now i
    let b := w.2.deref w.1
    let r := offerLoop now n (i + 1) w.2
    (if b.count ≠ 0 then b :: r.1 else r.1, f.mapBucketIndexToFileIndex now i :: r.2.1, r.2.2)

/-- `ClientConnection::do_file`, for a file that is open: the offer to the server, unless the range
misses the window of the file. -/
def doFile (now : ℤ) (path : Bytes) (fromtime totime : ℤ) (f : StatFile D F) :
    Option (ProtoOffer (Bucket D F) × List ℤ × StatFile D F) :=
  let startTime := f.firstBucketTime
  let endTime := f.lastBucketTime
  if totime < startTime ∨ endTime < fromtime then none
  else
    let startTime := if startTime < fromtime then fromtime else startTime
    let endTime := if totime < endTime then totime else endTime
    let startIndex := f.shape.mapTimeToBucketIndex startTime false
    let endIndex := f.shape.mapTimeToBucketIndex endTime false
    let r := offerLoop now (endIndex + 1 - startIndex).toNat startIndex f
    some (⟨path, toUInt64 startTime, toUInt64 endTime, r.1⟩, r.2)

/-- `apply_offer_to_file`.  A `maximum` of zero is none. -/
def applyOffer (now : ℤ) (buckets : List (Bucket D F)) (f : StatFile D F) (minimum maximum : ℤ) :
    StatFile D F :=
  let mintime := f.firstBucketTime
  let mintime := if mintime < minimum then minimum else mintime
  let maxtime := f.firstBucketTime + f.shape.bucketCount * f.shape.cfgInterval
  let maxtime := if maximum ≠ 0 ∧ maximum < maxtime then maximum else maxtime
  buckets.foldl (fun f b =>
    if mintime ≤ b.time ∧ b.time ≤ maxtime then (f.rawUpdateBucket now b .onlyIfEmpty).2 else f) f

/-- The files of a counter on the two hosts, and the range of times on the command line of the
client. -/
structure Transplant (D F : Type) where
  client : StatFile D F
  server : StatFile D F
  fromtime : ℤ
  totime : ℤ

/-- The two files after an exchange, and the file indices of the buckets that were read. -/
structure Exchanged (D F : Type) where
  client : StatFile D F
  server : StatFile D F
  clientReads : List ℤ
  serverReads : List ℤ

namespace Transplant

/-- One exchange; `clock` and `clock'` are the clock of the client when it offers and when it applies
the answer, and `now` the clock of the server. -/
def exchange (x : Transplant D F) (fuel : ℕ) (clock clock' : ℤ) (now : ℕ → ℤ) (path : Bytes) :
    Option (Exchanged D F) :=
  match doFile clock path x.fromtime x.totime x.client with
  | none => some ⟨x.client, x.server, [], []⟩
  | some (offer, reads, client) =>
    match applyAndExtract fuel now offer x.server with
    | none => none
    | some s =>
      some ⟨applyOffer clock' s.output client x.fromtime x.totime, s.file, reads, s.reads⟩

/-! ### What an exchange should do -/

section Spec

variable (x : Transplant D F)

/-- The length of a quantum, which is the same on both sides. -/
def interval : ℤ := x.client.shape.cfgInterval

/-- A quantum that is wholly inside the range and in the windows of both files. -/
def Shared (q : ℤ) : Prop :=
  x.fromtime ≤ q ∧ q + x.interval ≤ x.totime + 1 ∧ x.client.Retains q ∧ x.server.Retains q

instance (q : ℤ) : Decidable (x.Shared q) := inferInstanceAs (Decidable (_ ∧ _ ∧ _ ∧ _))

end Spec

end Transplant

/-- A slot of the file, with the bucket of its quantum if it is not empty. -/
def StatFile.FreshSlot (f : StatFile D F) (fileIndex : ℤ) : Prop :=
  fileIndex ≠ -1 ∧ ((f.slot fileIndex).count ≠ 0 → ∃ q, f.Samples q ∧
    f.shape.mapTimeToBucketIndex q false % f.shape.bucketCount = fileIndex)

namespace Transplant

/-- What an exchange should do: the quanta that both files share and one side has samples for are
the same afterwards, every other bucket and both windows are as before, and no stale slot and
nothing outside the files has been read. -/
structure Synced (x : Transplant D F) (r : Exchanged D F) : Prop where
  clientWindow : r.client.header.lastBucket = x.client.header.lastBucket
  serverWindow : r.server.header.lastBucket = x.server.header.lastBucket
  client : ∀ q, x.client.Retains q → r.client.quantum q =
    if x.Shared q ∧ x.server.Samples q ∧ ¬x.client.Samples q then x.server.quantum q
    else x.client.quantum q
  server : ∀ q, x.server.Retains q → r.server.quantum q =
    if x.Shared q ∧ x.client.Samples q ∧ ¬x.server.Samples q then x.client.quantum q
    else x.server.quantum q
  clientReads : ∀ i ∈ r.clientReads, x.client.FreshSlot i
  serverReads : ∀ i ∈ r.serverReads, r.server.FreshSlot i

/-! ### The walk of the server -/

section Walk

variable (x : Transplant D F)

/-- The range meets the window of the client. -/
def Meets : Prop := x.client.firstBucketTime ≤ x.totime ∧ x.fromtime ≤ x.client.lastBucketTime

/-- The times of the offer. -/
def startTime : ℤ := max x.client.firstBucketTime x.fromtime

@[inherit_doc startTime]
def endTime : ℤ := min x.client.lastBucketTime x.totime

/-- The client offers its bucket of a quantum (if none of its slots there is stale). -/
def Offered (p : ℤ) : Prop :=
  x.client.Samples p ∧
    x.client.shape.mapTimeToBucketIndex x.startTime false ≤
      x.client.shape.mapTimeToBucketIndex p false ∧
    x.client.shape.mapTimeToBucketIndex p false ≤
      x.client.shape.mapTimeToBucketIndex x.endTime false

/-- The first step of the server. -/
def firstStep : ℤ := max x.server.firstBucketTime x.startTime

/-- No step of the server is after this time. -/
def lastStep : ℤ := min (x.server.lastBucketTime + x.interval) x.endTime

/-- The server walks through an offer, unless its window or the offer begins before time 0, which is
a large number for it. -/
def Walks : Prop := x.Meets ∧ 0 ≤ x.server.firstBucketTime ∧ 0 ≤ x.startTime

/-- A time at which the server makes a step. -/
def IsStep (m : ℤ) : Prop :=
  x.Walks ∧ x.firstStep ≤ m ∧ m ≤ x.lastStep ∧ x.interval ∣ m - x.firstStep

/-- A bucket of time `p` belongs to a step before `m`. -/
def Passed (m p : ℤ) : Prop := x.firstStep < m ∧ p < m

/-- A step to which no offered bucket belongs: the server looks into its own file. -/
def Idle (m : ℤ) : Prop :=
  x.IsStep m ∧ ∀ p, x.Offered p → p < m + x.interval → x.Passed m p

/-- A bucket that the server takes from the offer. -/
def Taken (p : ℤ) : Prop := x.Offered p ∧ ∃ m, x.IsStep m ∧ p < m + x.interval

/-- A quantum whose slot the server reads. -/
def Read (q : ℤ) : Prop := ∃ m, x.Idle m ∧ x.server.shape.placed m = q

instance : Decidable x.Meets := inferInstanceAs (Decidable (_ ∧ _))

instance (p : ℤ) : Decidable (x.Offered p) := inferInstanceAs (Decidable (_ ∧ _ ∧ _))

instance : Decidable x.Walks := inferInstanceAs (Decidable (_ ∧ _ ∧ _))

instance (m : ℤ) : Decidable (x.IsStep m) := inferInstanceAs (Decidable (_ ∧ _ ∧ _ ∧ _))

instance (m p : ℤ) : Decidable (x.Passed m p) := inferInstanceAs (Decidable (_ ∧ _))

/-- No slot that the client reads is outside its window or stale. -/
def ClientFresh : Prop :=
  x.Meets → ∀ i, x.client.shape.mapTimeToBucketIndex x.startTime false ≤ i →
    i ≤ x.client.shape.mapTimeToBucketIndex x.endTime false → x.client.FreshAt i

/-- No slot that the server reads is outside its window, and none is stale unless a bucket of the
client has been put there before. -/
def ServerFresh : Prop :=
  ∀ m, x.Idle m → x.server.Live (x.server.shape.mapTimeToBucketIndex m false) ∧
    (¬x.Offered (x.server.shape.placed m) →
      x.server.FreshAt (x.server.shape.mapTimeToBucketIndex m false))

/-- The files and ranges for which the walk of the server does what it should. -/
structure SyncsUp : Prop where
  /-- the client reads no stale slot -/
  clientFresh : x.ClientFresh
  /-- the server reads no stale slot, and does not read behind its head -/
  serverFresh : x.ServerFresh
  /-- nothing behind the head of the server is taken -/
  window : ∀ p, x.Taken p →
    x.server.shape.mapTimeToBucketIndex p false ≤ x.server.header.lastBucket
  /-- nothing new is taken for a quantum that is only partly in the range -/
  partlyTaken : ∀ p, x.Taken p → x.server.Retains p → ¬x.server.Samples p →
    x.fromtime ≤ p ∧ p + x.interval ≤ x.totime + 1
  /-- nothing new is sent back for a quantum that is only partly in the range -/
  partlyRead : ∀ q, x.Read q → x.server.Samples q → x.client.Retains q → ¬x.client.Samples q →
    x.fromtime ≤ q → q ≤ x.totime → q + x.interval ≤ x.totime + 1
  /-- what only the client has is in the range of the walk -/
  taken : ∀ q, x.Shared q → x.client.Samples q → ¬x.server.Samples q → x.Taken q
  /-- what only the server has is at a step to which no bucket of the client belongs -/
  read : ∀ q, x.Shared q → x.server.Samples q → ¬x.client.Samples q → x.Read q

end Walk

end Transplant

/-! ### What an exchange does -/

namespace StatFile

variable {f g : StatFile D F} {q : ℤ}

omit [FloatArith D F] in
/-- The slot of an index, if it is one, is fresh just when the index is. -/
theorem freshSlot_iff (hcol : f.shape.isCollated = false) (now k : ℤ) :
    f.FreshSlot (f.mapBucketIndexToFileIndex now k) ↔ f.FreshAt k := by
  have hlive : f.mapBucketIndexToFileIndex now k ≠ -1 ↔ f.Live k := by
    rw [ServerLoop.mapBucketIndexToFileIndex_ne_iff, isBucketIndexInFile_iff_live hcol]
  by_cases hk : f.Live k
  · have hslot : f.slot (f.mapBucketIndexToFileIndex now k) = f.bucketAt k := by
      rw [mapBucketIndexToFileIndex_of_live hk]
      rfl
    unfold FreshSlot FreshAt
    rw [hlive, hslot, mapBucketIndexToFileIndex_of_live hk]
    refine and_congr_right fun _ => imp_congr_right fun hcount => ⟨?_, fun htime => ?_⟩
    · rintro ⟨q, ⟨hq, htime, -⟩, hmod⟩
      have hindex := hq.2.eq_of_emod_eq hk hmod
      rw [quantum, hindex] at htime
      rw [htime, ← hindex, mapBucketIndexToTime_mapTimeToBucketIndex hq.1]
    · have hindex := f.shape.mapTimeToBucketIndex_mapBucketIndexToTime k
      refine ⟨f.shape.mapBucketIndexToTime k, ⟨⟨f.cfgInterval_dvd_mapBucketIndexToTime k, ?_⟩, ?_⟩,
        by rw [hindex]⟩
      · rwa [hindex]
      · rw [quantum, hindex]
        exact ⟨htime, hcount⟩
  · exact ⟨fun h => absurd (hlive.1 h.1) hk, fun h => absurd h.1 hk⟩

omit [FloatArith D F] in
/-- Two conditions under which the bucket of `g` would replace that of `f`, if only `g` has samples,
have the same effect just when they agree then. -/
theorem ite_quantum_iff {P Q : Prop} [Decidable P] [Decidable Q] (hf : f.Retains q) :
    (if P ∧ g.Samples q ∧ ¬f.Samples q then g.quantum q else f.quantum q) =
        (if Q ∧ g.Samples q ∧ ¬f.Samples q then g.quantum q else f.quantum q) ↔
      (g.Samples q → ¬f.Samples q → (P ↔ Q)) := by
  by_cases h : g.Samples q ∧ ¬f.Samples q
  · have hne : g.quantum q ≠ f.quantum q := fun heq =>
      h.2 ⟨hf, heq ▸ h.1.2.1, heq ▸ h.1.2.2⟩
    by_cases hP : P <;> by_cases hQ : Q <;> simp [hP, hQ, h.1, h.2, hne, hne.symm]
  · rw [if_neg fun h' => h h'.2, if_neg fun h' => h h'.2]
    exact ⟨fun _ hg hf => absurd ⟨hg, hf⟩ h, fun _ => rfl⟩

end StatFile

namespace Transplant

open Classical in
/-- What an exchange does, in terms of the walk.  The parts about what is stored suppose that nothing
stale has been read before. -/
structure Outcome (x : Transplant D F) (r : Exchanged D F) : Prop where
  serverShape : r.server.shape = x.server.shape
  clientReads : ∀ i, i ∈ r.clientReads ↔ x.Meets ∧
    ∃ k, x.client.shape.mapTimeToBucketIndex x.startTime false ≤ k ∧
      k ≤ x.client.shape.mapTimeToBucketIndex x.endTime false ∧
      i = x.client.mapBucketIndexToFileIndex 0 k
  serverWindow : x.ClientFresh →
    (r.server.header.lastBucket = x.server.header.lastBucket ↔ ∀ p, x.Taken p →
      x.server.shape.mapTimeToBucketIndex p false ≤ x.server.header.lastBucket)
  serverReads : x.ClientFresh → r.server.header.lastBucket = x.server.header.lastBucket →
    ∀ i, i ∈ r.serverReads ↔ ∃ m, x.Idle m ∧
      i = x.server.mapBucketIndexToFileIndex 0 (x.server.shape.mapTimeToBucketIndex m false)
  server : x.ClientFresh → r.server.header.lastBucket = x.server.header.lastBucket →
    ∀ q, x.server.Retains q → r.server.quantum q =
      if x.Taken q ∧ x.client.Samples q ∧ ¬x.server.Samples q then x.client.quantum q
      else x.server.quantum q
  client : x.ClientFresh → r.server.header.lastBucket = x.server.header.lastBucket →
    x.ServerFresh →
    r.client.header.lastBucket = x.client.header.lastBucket ∧
    ∀ q, x.client.Retains q → r.client.quantum q =
      if (x.Read q ∧ x.fromtime ≤ q ∧ q ≤ x.totime) ∧ x.server.Samples q ∧ ¬x.client.Samples q then
        x.server.quantum q
      else x.client.quantum q

variable {x : Transplant D F} {r : Exchanged D F}

omit [FloatArith D F] in
theorem Outcome.clientFresh_iff (h : x.Outcome r) (hcol : x.client.shape.isCollated = false) :
    (∀ i ∈ r.clientReads, x.client.FreshSlot i) ↔ x.ClientFresh := by
  constructor
  · intro hreads hmeets k h1 h2
    exact (StatFile.freshSlot_iff hcol 0 k).1
      (hreads _ ((h.clientReads _).2 ⟨hmeets, k, h1, h2, rfl⟩))
  · intro hfresh i hi
    obtain ⟨hmeets, k, h1, h2, rfl⟩ := (h.clientReads i).1 hi
    exact (StatFile.freshSlot_iff hcol 0 k).2 (hfresh hmeets k h1 h2)

omit [FloatArith D F] in
/-- What is offered and looked up at an idle step has been taken before. -/
theorem Idle.taken {m : ℤ} (h : x.Idle m) (hint : x.server.shape.cfgInterval = x.interval)
    (hoff : x.Offered (x.server.shape.placed m)) : x.Taken (x.server.shape.placed m) :=
  ⟨hoff, m, h.1, hint ▸ x.server.shape.placed_lt m⟩

omit [FloatArith D F] in
/-- A slot the server reads is fresh at the end just when `ServerFresh` asks for it. -/
theorem Outcome.freshAt_iff (h : x.Outcome r) (hint : x.server.shape.cfgInterval = x.interval)
    (hfresh : x.ClientFresh) (hlast : r.server.header.lastBucket = x.server.header.lastBucket)
    {m : ℤ} (hm : x.Idle m) :
    r.server.FreshAt (x.server.shape.mapTimeToBucketIndex m false) ↔
      x.server.Live (x.server.shape.mapTimeToBucketIndex m false) ∧
        (¬x.Offered (x.server.shape.placed m) →
          x.server.FreshAt (x.server.shape.mapTimeToBucketIndex m false)) := by
  have hlive : r.server.Live (x.server.shape.mapTimeToBucketIndex m false) ↔
      x.server.Live (x.server.shape.mapTimeToBucketIndex m false) := by
    unfold StatFile.Live
    rw [h.serverShape, hlast]
  by_cases hk : x.server.Live (x.server.shape.mapTimeToBucketIndex m false)
  · have hret : x.server.Retains (x.server.shape.placed m) :=
      ⟨x.server.shape.dvd_placed _, by rwa [Shape.mapTimeToBucketIndex_placed]⟩
    have hbucket : r.server.bucketAt (x.server.shape.mapTimeToBucketIndex m false) =
        r.server.quantum (x.server.shape.placed m) := by
      rw [StatFile.quantum, h.serverShape, Shape.mapTimeToBucketIndex_placed]
    have hold : x.server.quantum (x.server.shape.placed m) =
        x.server.bucketAt (x.server.shape.mapTimeToBucketIndex m false) := by
      rw [StatFile.quantum, Shape.mapTimeToBucketIndex_placed]
    have hnew := h.server hfresh hlast _ hret
    rw [StatFile.FreshAt, hlive, and_iff_right hk, and_iff_right hk, hbucket, h.serverShape]
    change (_ → _ = x.server.shape.placed m) ↔ _
    by_cases hoff : x.Offered (x.server.shape.placed m)
    · refine iff_of_true (fun _ => ?_) (fun hno => absurd hoff hno)
      rw [hnew]
      by_cases hs : x.server.Samples (x.server.shape.placed m)
      · rw [if_neg fun h' => h'.2.2 hs]
        exact hs.2.1
      · rw [if_pos ⟨hm.taken hint hoff, hoff.1, hs⟩]
        exact hoff.1.2.1
    · rw [hnew, if_neg fun h' => hoff h'.1.1, hold]
      exact ⟨fun h' _ => ⟨hk, h'⟩, fun h' => (h' hoff).2⟩
  · exact ⟨fun h' => absurd (hlive.1 h'.1) hk, fun h' => absurd h'.1 hk⟩

omit [FloatArith D F] in
theorem Outcome.serverFresh_iff (h : x.Outcome r) (hcol : x.server.shape.isCollated = false)
    (hint : x.server.shape.cfgInterval = x.interval) (hfresh : x.ClientFresh)
    (hlast : r.server.header.lastBucket = x.server.header.lastBucket) :
    (∀ i ∈ r.serverReads, r.server.FreshSlot i) ↔ x.ServerFresh := by
  have hslot : ∀ k, r.server.FreshSlot (x.server.mapBucketIndexToFileIndex 0 k) ↔
      r.server.FreshAt k := fun k => by
    rw [← StatFile.mapBucketIndexToFileIndex_congr hcol h.serverShape hlast 0 0 k]
    exact StatFile.freshSlot_iff (by rw [h.serverShape]; exact hcol) 0 k
  constructor
  · intro hreads m hm
    exact (h.freshAt_iff hint hfresh hlast hm).1
      ((hslot _).1 (hreads _ ((h.serverReads hfresh hlast _).2 ⟨m, hm, rfl⟩)))
  · intro hsf i hi
    obtain ⟨m, hm, rfl⟩ := (h.serverReads hfresh hlast i).1 hi
    exact (hslot _).2 ((h.freshAt_iff hint hfresh hlast hm).2 (hsf m hm))

omit [FloatArith D F] in
/-- What is stored is what should be, if the walk takes and reads just what it should. -/
theorem Outcome.synced_iff (h : x.Outcome r) (hcolc : x.client.shape.isCollated = false)
    (hcols : x.server.shape.isCollated = false)
    (hint : x.server.shape.cfgInterval = x.interval) : x.Synced r ↔ x.SyncsUp := by
  classical
  constructor
  · intro hs
    have hfresh := (h.clientFresh_iff hcolc).1 hs.clientReads
    have hsf := (h.serverFresh_iff hcols hint hfresh hs.serverWindow).1 hs.serverReads
    have hserver : ∀ q, x.server.Retains q → x.client.Samples q → ¬x.server.Samples q →
        (x.Taken q ↔ x.Shared q) := fun q hq =>
      (StatFile.ite_quantum_iff hq).1 ((h.server hfresh hs.serverWindow q hq).symm.trans
        (hs.server q hq))
    have hclient : ∀ q, x.client.Retains q → x.server.Samples q → ¬x.client.Samples q →
        (x.Read q ∧ x.fromtime ≤ q ∧ q ≤ x.totime ↔ x.Shared q) := fun q hq =>
      (StatFile.ite_quantum_iff hq).1
        (((h.client hfresh hs.serverWindow hsf).2 q hq).symm.trans (hs.client q hq))
    refine ⟨hfresh, hsf, (h.serverWindow hfresh).1 hs.serverWindow, ?_, ?_, ?_, ?_⟩
    · intro p hp hret hno
      obtain ⟨h1, h2, -⟩ := (hserver p hret hp.1.1 hno).1 hp
      exact ⟨h1, h2⟩
    · intro q hq hsam hret hno h1 h2
      exact ((hclient q hret hsam hno).1 ⟨hq, h1, h2⟩).2.1
    · exact fun q hq hsam hno => (hserver q hq.2.2.2 hsam hno).2 hq
    · exact fun q hq hsam hno => ((hclient q hq.2.2.1 hsam hno).2 hq).1
  · intro hx
    have hwin := (h.serverWindow hx.clientFresh).2 hx.window
    obtain ⟨hcwin, hclient⟩ := h.client hx.clientFresh hwin hx.serverFresh
    have hpos : 0 < x.interval := x.client.shape.cfgInterval_pos
    refine ⟨hcwin, hwin, fun q hq => ?_, fun q hq => ?_, (h.clientFresh_iff hcolc).2 hx.clientFresh,
      (h.serverFresh_iff hcols hint hx.clientFresh hwin).2 hx.serverFresh⟩
    · rw [hclient q hq, StatFile.ite_quantum_iff hq]
      refine fun hsam hno => ⟨?_, fun hsh => ⟨hx.read q hsh hsam hno, hsh.1, ?_⟩⟩
      · rintro ⟨hread, h1, h2⟩
        exact ⟨h1, hx.partlyRead q hread hsam hq hno h1 h2, hq, hsam.1⟩
      · have := hsh.2.1
        omega
    · rw [h.server hx.clientFresh hwin q hq, StatFile.ite_quantum_iff hq]
      refine fun hsam hno => ⟨fun ht => ?_, fun hsh => hx.taken q hsh hsam hno⟩
      obtain ⟨h1, h2⟩ := hx.partlyTaken q ht hq hno
      exact ⟨h1, h2, hsam.1, hq⟩

end Transplant

end Istatd
