import Istatd.TransplantSteps

/-!
# What a transplant synchronises

* `Transplant.Ended`: the walk of the server when it is over;
* `Transplant.Paired.exchange_outcome`: every exchange ends, and what it does;
* `Transplant.exchange_synced_iff`: it does what it should just for the files and ranges of
  `SyncsUp`;
* `Transplant.Paired.syncsUp_of_whole`: among these are ranges of whole quanta, between files
  without stale slots there.
-/

namespace Istatd

variable {D F : Type} [FloatArith D F]

/-! ### The exchange -/

namespace Transplant

open ServerLoop

variable {x : Transplant D F} {m p q clock clock' : ℤ} {now : ℕ → ℤ} {path : Bytes}

/-- What `do_file` sends, if the range meets the window. -/
theorem doFile_of_meets (h : x.Meets) :
    doFile clock path x.fromtime x.totime x.client =
      some (⟨path, toUInt64 x.startTime, toUInt64 x.endTime, (x.offer clock).1⟩,
        (x.offer clock).2) := by
  obtain ⟨h1, h2⟩ := h
  have hstart : (if x.client.firstBucketTime < x.fromtime then x.fromtime
      else x.client.firstBucketTime) = x.startTime := by
    unfold startTime
    split_ifs <;> omega
  have hend : (if x.totime < x.client.lastBucketTime then x.totime
      else x.client.lastBucketTime) = x.endTime := by
    unfold endTime
    split_ifs <;> omega
  simp only [doFile, hstart, hend]
  rw [if_neg (by omega)]
  rfl

/-- The exchange, once the loop of the server has ended. -/
theorem exchange_of_meets (h : x.Meets) {n : ℕ} {st : ServerLoop D F}
    (hloop : ∀ fuel, n ≤ fuel → applyAndExtract fuel now
      ⟨path, toUInt64 x.startTime, toUInt64 x.endTime, (x.offer clock).1⟩ x.server = some st)
    {fuel : ℕ} (hfuel : n ≤ fuel) :
    x.exchange fuel clock clock' now path =
      some ⟨applyOffer clock' st.output (x.offer clock).2.2 x.fromtime x.totime, st.file,
        (x.offer clock).2.1, st.reads⟩ := by
  rw [exchange, doFile_of_meets h]
  simp only [hloop fuel hfuel]

/-- The bounds of the walk, as the code computes them. -/
theorem Paired.applyAndExtract_eq (h : x.Paired) (hw : x.Walks) (fuel : ℕ)
    (buckets : List (Bucket D F)) :
    applyAndExtract fuel now ⟨path, toUInt64 x.startTime, toUInt64 x.endTime, buckets⟩ x.server =
      loop (toUInt64 x.interval) (toUInt64 x.lastStep) fuel now
        ⟨toUInt64 x.firstStep, x.server, buckets, [], []⟩ := by
  have hle := h.startTime_le hw.1
  have hlt := x.server.firstBucketTime_lt
  have hI := x.interval_pos
  have hend : x.endTime ≤ x.client.lastBucketTime := min_le_left _ _
  have h1 := h.clientFits.2
  have h2 := h.serverFits.2
  obtain ⟨-, h3, h4⟩ := hw
  have hmin := (ite_lt_toUInt64 (a := x.server.firstBucketTime) (b := x.startTime) h3 (by omega) h4
    (by omega)).1
  have hmax := (ite_lt_toUInt64 (a := x.server.lastBucketTime + x.interval) (b := x.endTime)
    (by omega) (by omega) (by omega) (by omega)).2
  have hwindow := toUInt64_window x.server
  rw [h.interval] at hwindow
  simp only [applyAndExtract, h.interval, hwindow, hmin, hmax]
  rfl

theorem round_shape (now : ℤ) (intervalTime : UInt64) (s : ServerLoop D F) :
    (s.round now intervalTime).file.shape = s.file.shape := by
  simp only [ServerLoop.round, applyBuckets_eq]
  split_ifs <;> simp

/-- The file indices of the reads of the client. -/
theorem Paired.mem_offer_reads (h : x.Paired) (hmeets : x.Meets) (i : ℤ) :
    i ∈ (x.offer clock).2.1 ↔ x.Meets ∧
      ∃ k, x.client.shape.mapTimeToBucketIndex x.startTime false ≤ k ∧
        k ≤ x.client.shape.mapTimeToBucketIndex x.endTime false ∧
        i = x.client.mapBucketIndexToFileIndex 0 k := by
  have hclock : x.client.mapBucketIndexToFileIndex clock = x.client.mapBucketIndexToFileIndex 0 := by
    funext k
    exact StatFile.mapBucketIndexToFileIndex_congr h.clientGauge.1 rfl rfl _ _ _
  rw [and_iff_right hmeets, offer, offerLoop_reads, List.mem_map, hclock]
  constructor
  · rintro ⟨k, hk, rfl⟩
    obtain ⟨h1, h2⟩ := (h.mem_consecutive hmeets k).1 hk
    exact ⟨k, h1, h2, rfl⟩
  · rintro ⟨k, h1, h2, rfl⟩
    exact ⟨k, (h.mem_consecutive hmeets k).2 ⟨h1, h2⟩, rfl⟩

omit [FloatArith D F] in
/-- An exchange without steps changes nothing. -/
theorem Outcome.of_not_walks (hw : ¬x.Walks) {r : Exchanged D F} (hserver : r.server = x.server)
    (hreads : r.serverReads = []) (hclient : StatFile.SameRing x.client r.client)
    (hclientReads : ∀ i, i ∈ r.clientReads ↔ x.Meets ∧
      ∃ k, x.client.shape.mapTimeToBucketIndex x.startTime false ≤ k ∧
        k ≤ x.client.shape.mapTimeToBucketIndex x.endTime false ∧
        i = x.client.mapBucketIndexToFileIndex 0 k) : x.Outcome r := by
  have hstep : ∀ m, ¬x.IsStep m := fun m hm => hw hm.1
  have hidle : ∀ m, ¬x.Idle m := fun m hm => hstep m hm.1
  have htaken : ∀ p, ¬x.Taken p := fun p ⟨_, m, hm, _⟩ => hstep m hm
  have hread : ∀ q, ¬x.Read q := fun q ⟨m, hm, _⟩ => hidle m hm
  refine ⟨by rw [hserver], hclientReads, fun _ => ?_, fun _ _ i => ?_, fun _ _ q _ => ?_,
    fun _ _ _ => ⟨hclient.last, fun q _ => ?_⟩⟩
  · exact iff_of_true (by rw [hserver]) fun p hp => absurd hp (htaken p)
  · rw [hreads]
    exact iff_of_false List.not_mem_nil fun ⟨m, hm, _⟩ => hidle m hm
  · rw [if_neg fun h => htaken q h.1, hserver]
  · rw [if_neg fun h => hread q h.1.1, StatFile.quantum, hclient.ring, hclient.shape]
    rfl

end Transplant

namespace Transplant

open ServerLoop

variable {x : Transplant D F} {m p q clock clock' : ℤ} {now : ℕ → ℤ} {path : Bytes}
  {st : ServerLoop D F}

/-- The state when the walk is over. -/
structure Ended (x : Transplant D F) (m : ℤ) (st : ServerLoop D F) : Prop where
  walked : x.Walked m st
  past : x.lastStep < m
  next : m = x.firstStep ∨ x.firstStep < m ∧ m ≤ x.lastStep + x.interval

omit [FloatArith D F] in
/-- At the end, what has been passed is what belongs to a step. -/
theorem Ended.passed_iff (h : x.Ended m st) (hw : x.Walks) :
    x.Passed m p ↔ ∃ m', x.IsStep m' ∧ p < m' + x.interval := by
  have hI := x.interval_pos
  obtain ⟨-, hdvd⟩ := h.walked.onStep
  have hpast := h.past
  constructor
  · rintro ⟨h1, h2⟩
    have hle := Int.le_of_dvd (by omega) hdvd
    refine ⟨m - x.interval, ⟨hw, by omega, ?_, ?_⟩, by omega⟩
    · rcases h.next with h3 | ⟨-, h3⟩ <;> omega
    · rw [show m - x.interval - x.firstStep = m - x.firstStep - x.interval by ring]
      exact dvd_sub hdvd dvd_rfl
  · rintro ⟨m', ⟨-, h1, h2, h3⟩, hlt⟩
    have hsub : x.interval ∣ m - m' := by
      have := dvd_sub hdvd h3
      rwa [sub_sub_sub_cancel_right] at this
    have hle := Int.le_of_dvd (by omega) hsub
    exact ⟨by omega, by omega⟩

omit [FloatArith D F] in
theorem Ended.idle_iff (h : x.Ended m st) {m' : ℤ} : x.Idle m' ∧ m' < m ↔ x.Idle m' :=
  ⟨fun hm => hm.1, fun hm => ⟨hm, lt_of_le_of_lt hm.1.2.2.1 h.past⟩⟩

omit [FloatArith D F] in
/-- The buckets that are sent back, if no slot the server reads is stale. -/
theorem Ended.mem_output (h : x.Ended m st) (hsf : x.ServerFresh)
    (hcol : x.server.shape.isCollated = false)
    (hlast : st.file.header.lastBucket = x.server.header.lastBucket) (b : Bucket D F) :
    b ∈ st.output ↔ x.Read b.time ∧ b = x.held b.time ∧ b.count ≠ 0 := by
  have hreads : ∀ i ∈ st.reads, i ≠ -1 := by
    intro i hi
    obtain ⟨m', ⟨hm', -⟩, rfl⟩ := (h.walked.reads hlast i).1 hi
    rw [mapBucketIndexToFileIndex_ne_iff, StatFile.isBucketIndexInFile_iff_live hcol]
    exact (hsf m' hm').1
  have htime : ∀ m', x.Idle m' → (x.held (x.server.shape.placed m')).count ≠ 0 →
      (x.held (x.server.shape.placed m')).time = x.server.shape.placed m' := by
    intro m' hm' hcount
    by_cases hoff : x.Offered (x.server.shape.placed m')
    · unfold held
      split_ifs with hs
      · exact hoff.1.2.1
      · rw [not_and, not_not] at hs
        exact (hs hoff).2.1
    · have hslot : x.server.quantum (x.server.shape.placed m') =
          x.server.bucketAt (x.server.shape.mapTimeToBucketIndex m' false) := by
        rw [StatFile.quantum, Shape.mapTimeToBucketIndex_placed]
      rw [held_of_not_offered hoff, hslot] at hcount ⊢
      exact ((hsf m' hm').2 hoff).2 hcount
  rw [h.walked.output hlast hreads]
  simp only [h.idle_iff]
  constructor
  · rintro ⟨m', hm', rfl, hcount⟩
    rw [htime m' hm' hcount]
    exact ⟨⟨m', hm', rfl⟩, rfl, hcount⟩
  · rintro ⟨⟨m', hm', hq⟩, hb, hcount⟩
    exact ⟨m', hm', by rw [hq]; exact hb, hcount⟩

/-- What the server reads is less than an interval from the range. -/
theorem Read.bounds (h : x.Read q) (hx : x.Paired) :
    x.interval ∣ q ∧ x.startTime - x.interval < q ∧ q < x.endTime + x.interval := by
  obtain ⟨m, ⟨⟨-, h1, h2, -⟩, -⟩, rfl⟩ := h
  have hstart : x.startTime ≤ x.firstStep := le_max_right _ _
  have hend : x.lastStep ≤ x.endTime := min_le_right _ _
  have hdvd := x.server.shape.dvd_placed m
  have hlow := x.server.shape.lt_placed m
  have hhigh := x.server.shape.placed_lt m
  rw [hx.interval] at hdvd hlow hhigh
  exact ⟨hdvd, by omega, by omega⟩

/-- Of what the server sends back, the client applies what is in the range. -/
theorem Read.inRange_iff (h : x.Read q) (hx : x.Paired) (hfresh : x.ClientFresh) :
    (max x.client.firstBucketTime x.fromtime ≤ q ∧
        q ≤ if x.totime = 0 then x.client.lastBucketTime + x.interval
          else min (x.client.lastBucketTime + x.interval) x.totime) ↔
      x.fromtime ≤ q ∧ q ≤ x.totime := by
  obtain ⟨hdvd, hlow, hhigh⟩ := h.bounds hx
  obtain ⟨m, ⟨⟨hw, h1, h2, -⟩, -⟩, rfl⟩ := h
  obtain ⟨-, hfirst, hlast⟩ := hx.client_retains hw hfresh hdvd hlow hhigh
  split_ifs with hto
  · -- a walk up to the time 0 is one step there
    have hend : x.lastStep ≤ x.totime := (min_le_right _ _).trans (min_le_right _ _)
    have hzero : m = 0 := by
      have := hw.firstStep_nonneg
      omega
    have hplaced : x.server.shape.placed m = 0 := by
      rw [hzero]
      exact Shape.placed_of_dvd (dvd_zero _)
    omega
  · omega

omit [FloatArith D F] in
/-- What the server reads and the client has not offered is the bucket of the server. -/
theorem Read.samples (h : x.Read q) (hsf : x.ServerFresh) (hno : ¬x.client.Samples q) :
    x.held q = x.server.quantum q ∧ ((x.held q).count ≠ 0 ↔ x.server.Samples q) := by
  have hoff : ¬x.Offered q := fun h' => hno h'.1
  rw [held_of_not_offered hoff, and_iff_right rfl]
  refine ⟨fun hcount => ?_, fun hs => hs.2.2⟩
  obtain ⟨m, hm, rfl⟩ := h
  obtain ⟨hlive, hfresh⟩ := hsf m hm
  refine ⟨⟨x.server.shape.dvd_placed _, by rwa [Shape.mapTimeToBucketIndex_placed]⟩, ?_, hcount⟩
  rw [StatFile.quantum, Shape.mapTimeToBucketIndex_placed] at hcount ⊢
  exact (hfresh hoff).2 hcount

/-- What the client applies of the buckets that are sent back. -/
theorem Ended.mem_applied (h : x.Ended m st) (hx : x.Paired) (hfresh : x.ClientFresh)
    (hlast : st.file.header.lastBucket = x.server.header.lastBucket) (hsf : x.ServerFresh)
    {f : StatFile D F} (hheader : f.header = x.client.header) (hf : StatFile.SameRing x.client f)
    (b : Bucket D F) :
    (b ∈ st.output.filter fun b => max f.firstBucketTime x.fromtime ≤ b.time ∧
        b.time ≤ if x.totime = 0 then f.lastBucketTime + f.shape.cfgInterval
          else min (f.lastBucketTime + f.shape.cfgInterval) x.totime) ↔
      (x.Read b.time ∧ b = x.held b.time ∧ b.count ≠ 0) ∧
        x.fromtime ≤ b.time ∧ b.time ≤ x.totime := by
  have hfirst : f.firstBucketTime = x.client.firstBucketTime := by
    unfold StatFile.firstBucketTime
    rw [hheader, hf.shape]
  have hend : f.lastBucketTime + f.shape.cfgInterval = x.client.lastBucketTime + x.interval := by
    unfold StatFile.lastBucketTime
    rw [hheader, hf.shape]
    rfl
  rw [hfirst, hend, List.mem_filter, decide_eq_true_iff,
    h.mem_output hsf hx.serverGauge.1 hlast]
  exact and_congr_right fun hb => hb.1.inRange_iff hx hfresh

section Applied

variable {l : List (Bucket D F)} (hmem : ∀ b, b ∈ l ↔ (x.Read b.time ∧ b = x.held b.time ∧
  b.count ≠ 0) ∧ x.fromtime ≤ b.time ∧ b.time ≤ x.totime)

omit [FloatArith D F] in
include hmem in
/-- For a quantum that the server reads and of which the client has no samples, a bucket is applied
if the server has samples of it, in the range. -/
theorem Read.exists_applied_iff (h : x.Read q) (hsf : x.ServerFresh) (hno : ¬x.client.Samples q) :
    (∃ b ∈ l, b.time = q) ↔ x.server.Samples q ∧ x.fromtime ≤ q ∧ q ≤ x.totime := by
  obtain ⟨hheld, hcount⟩ := h.samples hsf hno
  constructor
  · rintro ⟨b, hb, rfl⟩
    obtain ⟨⟨-, hb', hne⟩, hrange⟩ := (hmem b).1 hb
    exact ⟨hcount.1 (hb' ▸ hne), hrange⟩
  · rintro ⟨hs, hrange⟩
    have htime : (x.held q).time = q := by rw [hheld]; exact hs.2.1
    refine ⟨x.held q, (hmem _).2 ?_, htime⟩
    rw [htime]
    exact ⟨⟨h, rfl, hcount.2 hs⟩, hrange⟩

open Classical in
include hmem in
/-- These buckets, filled into a file with the buckets of the client. -/
theorem Paired.fill_client (hx : x.Paired) (hw : x.Walks) (hfresh : x.ClientFresh)
    (hsf : x.ServerFresh) {f : StatFile D F} (hf : StatFile.SameRing x.client f) :
    (f.fill clock' l).header.lastBucket = x.client.header.lastBucket ∧
    ∀ q, x.client.Retains q → (f.fill clock' l).quantum q =
      if (x.Read q ∧ x.fromtime ≤ q ∧ q ≤ x.totime) ∧ x.server.Samples q ∧ ¬x.client.Samples q then
        x.server.quantum q
      else x.client.quantum q := by
  have hret : ∀ b ∈ l, x.client.Retains b.time := fun b hb => by
    obtain ⟨hdvd, hlow, hhigh⟩ := ((hmem b).1 hb).1.1.bounds hx
    exact (hx.client_retains hw hfresh hdvd hlow hhigh).1
  have htarget : ∀ b ∈ l, f.target b ≤ f.header.lastBucket := fun b hb => by
    rw [StatFile.target, hf.shape, hf.last]
    exact (hret b hb).2.2
  refine ⟨by rw [StatFile.fill_lastBucket_eq_iff.2 htarget, hf.last], fun q hq => ?_⟩
  have hquantum : f.quantum q = x.client.quantum q := by
    rw [StatFile.quantum, hf.ring, hf.shape]
    rfl
  have hretains : f.Retains q ↔ x.client.Retains q := StatFile.retains_congr hf.shape hf.last
  have hsamples : f.Samples q ↔ x.client.Samples q := by
    unfold StatFile.Samples
    rw [hretains, hquantum]
  rw [StatFile.fill_quantum (g := x.held) (by rw [hf.shape]; exact hx.clientGauge.2)
    (fun b hb => ?_) (hretains.2 hq), hquantum]
  · by_cases hno : x.client.Samples q
    · rw [if_neg fun h' => h'.2 (hsamples.2 hno), if_neg fun h' => h'.2.2 hno]
    · by_cases hread : x.Read q
      · have hheld := (hread.samples hsf hno).1
        simp only [hread.exists_applied_iff hmem hsf hno, hsamples, hno, hread, hheld, true_and,
          not_false_eq_true, and_true]
        exact if_congr and_comm rfl rfl
      · rw [if_neg, if_neg fun h' => hread h'.1.1]
        rintro ⟨⟨b, hb, rfl⟩, -⟩
        exact hread ((hmem b).1 hb).1.1
  · obtain ⟨⟨-, hb', hne⟩, -⟩ := (hmem b).1 hb
    refine ⟨hb', hne, ?_, htarget b hb⟩
    rw [hf.shape]
    exact (hret b hb).1

end Applied

open Classical in
/-- **The client after the exchange.** -/
theorem Ended.client (h : x.Ended m st) (hx : x.Paired) (hw : x.Walks) (hfresh : x.ClientFresh)
    (hlast : st.file.header.lastBucket = x.server.header.lastBucket) (hsf : x.ServerFresh)
    {f : StatFile D F} (hheader : f.header = x.client.header)
    (hf : StatFile.SameRing x.client f) :
    (applyOffer clock' st.output f x.fromtime x.totime).header.lastBucket =
        x.client.header.lastBucket ∧
    ∀ q, x.client.Retains q →
      (applyOffer clock' st.output f x.fromtime x.totime).quantum q =
        if (x.Read q ∧ x.fromtime ≤ q ∧ q ≤ x.totime) ∧ x.server.Samples q ∧ ¬x.client.Samples q then
          x.server.quantum q
        else x.client.quantum q := by
  rw [applyOffer_eq]
  exact hx.fill_client (h.mem_applied hx hfresh hlast hsf hheader hf) hw hfresh hsf hf

end Transplant

namespace Transplant

open ServerLoop

variable {x : Transplant D F} {clock clock' m : ℤ} {now : ℕ → ℤ} {path : Bytes}
  {st : ServerLoop D F}

/-- What each step keeps holds when the walk is over. -/
theorem Paired.walk_rule (h : x.Paired) (hw : x.Walks) {P : ℤ → ServerLoop D F → Prop}
    (hmin : ∀ m s, P m s → s.mintime = toUInt64 m)
    (hround : ∀ m s now, P m s → m ≤ x.lastStep →
      P (m + x.interval) (s.round now (toUInt64 x.interval)))
    {buckets : List (Bucket D F)}
    (hstart : P x.firstStep ⟨toUInt64 x.firstStep, x.server, buckets, [], []⟩)
    (now : ℕ → ℤ) (path : Bytes) :
    ∃ n m st, (∀ fuel, n ≤ fuel → applyAndExtract fuel now
      ⟨path, toUInt64 x.startTime, toUInt64 x.endTime, buckets⟩ x.server = some st) ∧
      P m st ∧ x.lastStep < m ∧
        (m = x.firstStep ∨ x.firstStep < m ∧ m ≤ x.lastStep + x.interval) := by
  have hI := x.interval_pos
  obtain ⟨hlast0, hlast1⟩ := h.lastStep_bounds hw
  have hfit := h.serverFits.2
  have hepoch := h.epoch
  have hfirst : x.firstStep < 2 ^ 64 := by
    have hlt := x.server.firstBucketTime_lt
    have hle := h.startTime_le hw.1
    have hend : x.endTime ≤ x.client.lastBucketTime := min_le_left _ _
    have hfitc := h.clientFits.2
    unfold firstStep
    omega
  obtain ⟨n, st, m, hloop, hP, hend⟩ := loop_rule hI hlast0 (by omega) hmin
    (fun m s now hs _ hle => hround m s now hs hle) hstart hw.firstStep_nonneg hfirst now
  refine ⟨n, m, st, fun fuel hfuel => ?_, hP, hend⟩
  rw [h.applyAndExtract_eq hw]
  exact hloop fuel hfuel

/-- The state before the first step. -/
theorem Paired.walked_first (h : x.Paired) (hw : x.Walks) (hfresh : x.ClientFresh) (clock : ℤ) :
    x.Walked x.firstStep ⟨toUInt64 x.firstStep, x.server, (x.offer clock).1, [], []⟩ := by
  obtain ⟨hsorted, hmem⟩ := h.offer_buckets hw.1 hfresh clock
  have hnone : ∀ p, ¬x.Passed x.firstStep p := fun p hp => lt_irrefl _ hp.1
  have hidle : ∀ m', ¬(x.Idle m' ∧ m' < x.firstStep) := fun m' ⟨hm', hlt⟩ =>
    absurd hm'.1.2.1 (not_le.2 hlt)
  refine ⟨⟨rfl, rfl, fun _ => rfl, fun b hb => ?_⟩, ⟨le_rfl, by rw [sub_self]; exact dvd_zero _⟩,
    hsorted, fun b => ?_, le_rfl, ?_, fun _ q _ => ?_, fun _ i => ?_, fun _ _ b => ?_⟩
  · have hoff := ((hmem b).1 hb).1
    have h0 := hoff.nonneg hw
    have h1 := hoff.lt_two_pow h
    exact ⟨by omega, h1⟩
  · rw [and_iff_left (hnone _)]
    exact hmem b
  · exact iff_of_true rfl fun p _ hp => absurd hp (hnone p)
  · rw [if_neg (hnone q)]
  · exact iff_of_false List.not_mem_nil fun ⟨m', hm', _⟩ => hidle m' hm'
  · exact iff_of_false List.not_mem_nil fun ⟨m', hm', _⟩ => hidle m' hm'

/-- The outcome of an exchange in which the client reads no stale slot. -/
theorem Ended.outcome (h : x.Ended m st) (hx : x.Paired) (hw : x.Walks) (hfresh : x.ClientFresh) :
    x.Outcome ⟨applyOffer clock' st.output (x.offer clock).2.2 x.fromtime x.totime, st.file,
      (x.offer clock).2.1, st.reads⟩ := by
  classical
  obtain ⟨hheader, hring⟩ := offerLoop_sameRing clock
    (x.client.shape.mapTimeToBucketIndex x.endTime false + 1 -
      x.client.shape.mapTimeToBucketIndex x.startTime false).toNat
    (x.client.shape.mapTimeToBucketIndex x.startTime false) x.client
  have hpassed : ∀ p, x.Offered p ∧ x.Passed m p ↔ x.Taken p := fun p =>
    and_congr_right fun _ => h.passed_iff hw
  refine ⟨h.walked.at_.shape, hx.mem_offer_reads hw.1, fun _ => ?_, fun _ hlast i => ?_,
    fun _ hlast q hq => ?_, fun _ hlast hsf => h.client hx hw hfresh hlast hsf hheader hring⟩
  · rw [h.walked.window]
    simp only [← hpassed, and_imp]
  · rw [h.walked.reads hlast]
    simp only [h.idle_iff]
  · rw [h.walked.quanta hlast q hq]
    by_cases hp : x.Passed m q
    · rw [if_pos hp, held]
      refine if_congr ⟨fun h' => ?_, fun h' => ?_⟩ rfl rfl
      · exact ⟨(hpassed q).1 ⟨h'.1, hp⟩, h'.1.1, h'.2⟩
      · exact ⟨h'.1.1, h'.2.2⟩
    · rw [if_neg hp, if_neg fun h' => hp ((hpassed q).2 h'.1).2]

/-- A walk that is not made begins, on one side, before time 0. -/
theorem Paired.applyAndExtract_of_not_walks (h : x.Paired) (hmeets : x.Meets) (hw : ¬x.Walks)
    (buckets : List (Bucket D F)) (now : ℕ → ℤ) (path : Bytes) :
    ∃ st, (st.file = x.server ∧ st.output = [] ∧ st.reads = []) ∧ ∀ fuel, 1 ≤ fuel →
      applyAndExtract fuel now ⟨path, toUInt64 x.startTime, toUInt64 x.endTime, buckets⟩ x.server =
        some st := by
  have hlast : x.server.lastBucketTime + x.server.shape.cfgInterval < 2 ^ 63 := by
    rw [h.interval]
    exact h.serverFits.2
  have hepoch : 0 ≤ x.server.lastBucketTime + x.server.shape.cfgInterval := by
    rw [h.interval]
    exact add_nonneg h.epoch x.interval_pos.le
  refine applyAndExtract_of_neg ?_ h.serverFits.1 hlast (.inl hepoch) now
  by_contra hcon
  obtain ⟨h1, h2⟩ := not_or.1 hcon
  refine hw ⟨hmeets, not_lt.1 h1, ?_⟩
  by_contra hneg
  have hfit := h.clientFits.1
  have hstart : x.client.firstBucketTime ≤ x.startTime := le_max_left _ _
  rw [toUInt64, UInt64.ofInt, UInt64.toNat_ofNat'] at h2
  omega

/-- **Every exchange ends**, with the outcome of the walk. -/
theorem Paired.exchange_outcome (h : x.Paired) (clock clock' : ℤ) (now : ℕ → ℤ) (path : Bytes) :
    ∃ n r, (∀ fuel, n ≤ fuel → x.exchange fuel clock clock' now path = some r) ∧ x.Outcome r := by
  by_cases hmeets : x.Meets
  · by_cases hw : x.Walks
    · by_cases hfresh : x.ClientFresh
      · obtain ⟨n, m, st, hloop, hwalked, hpast, hnext⟩ := h.walk_rule hw
          (fun m s hs => hs.at_.mintime) (fun m s now hs hle => hs.round h hw hle now)
          (h.walked_first hw hfresh clock) now path
        exact ⟨n, _, fun fuel => exchange_of_meets hmeets hloop,
          Ended.outcome ⟨hwalked, hpast, hnext⟩ h hw hfresh⟩
      · -- the loop ends for any buckets; nothing is said about what it does with stale ones
        obtain ⟨n, m, st, hloop, ⟨-, hshape⟩, -⟩ := h.walk_rule hw
          (P := fun m s => s.mintime = toUInt64 m ∧ s.file.shape = x.server.shape)
          (fun m s hs => hs.1)
          (fun m s now hs _ => by
            rw [round_mintime, round_shape, hs.1]
            exact ⟨(UInt64.ofInt_add m x.interval).symm, hs.2⟩)
          ⟨rfl, rfl⟩ now path
        exact ⟨n, _, fun fuel => exchange_of_meets hmeets hloop, hshape,
          h.mem_offer_reads hmeets, fun hf => absurd hf hfresh, fun hf => absurd hf hfresh,
          fun hf => absurd hf hfresh, fun hf => absurd hf hfresh⟩
    · obtain ⟨st, ⟨hfile, hout, hreads⟩, hloop⟩ := h.applyAndExtract_of_not_walks hmeets hw
        (x.offer clock).1 now path
      refine ⟨1, _, fun fuel => exchange_of_meets hmeets hloop, .of_not_walks hw hfile hreads ?_
        (h.mem_offer_reads hmeets)⟩
      rw [hout]
      exact (offerLoop_sameRing clock _ _ x.client).2
  · refine ⟨0, ⟨x.client, x.server, [], []⟩, fun fuel _ => ?_, ?_⟩
    · have hnone : doFile clock path x.fromtime x.totime x.client = none := by
        rw [doFile, if_pos]
        unfold Meets at hmeets
        omega
      rw [exchange, hnone]
    · refine .of_not_walks (fun hw => hmeets hw.1) rfl rfl ⟨rfl, rfl, fun _ => rfl⟩ fun i => ?_
      exact iff_of_false List.not_mem_nil fun h' => hmeets h'.1

/-- **One exchange synchronises the two files** just when the walk of the server is as it should be:
for all files of a gauge that can be reached and every range of times, the exchange ends, and it does
what it should if and only if `SyncsUp` holds of the two files and the range. -/
theorem exchange_synced_iff (h : x.Paired) (clock clock' : ℤ) (now : ℕ → ℤ) (path : Bytes) :
    ∃ n r, (∀ fuel, n ≤ fuel → x.exchange fuel clock clock' now path = some r) ∧
      (x.Synced r ↔ x.SyncsUp) := by
  obtain ⟨n, r, hrun, hout⟩ := h.exchange_outcome clock clock' now path
  exact ⟨n, r, hrun, hout.synced_iff h.clientGauge.1 h.serverGauge.1 h.interval⟩

end Transplant

/-! ### Ranges of whole quanta -/

omit [FloatArith D F] in
/-- The window of a file whose head has moved, by times. -/
theorem StatFile.Headed.bounds {f : StatFile D F} (h : f.Headed) {q : ℤ} (hq : f.Retains q) :
    f.firstBucketTime ≤ q ∧ q ≤ f.lastBucketTime := by
  have hwin := ((headAgrees_of_last h.last).window _).1 hq.2
  rwa [mapBucketIndexToTime_mapTimeToBucketIndex hq.1] at hwin

namespace Transplant

variable {x : Transplant D F}

section Whole

variable (hw : x.Walks) (hhead : x.client.Headed)
  (hfrom : x.interval ∣ x.fromtime) (hfirst : x.server.firstBucketTime ≤ x.startTime)
  (hlast : x.endTime < x.server.lastBucketTime + x.interval)

omit [FloatArith D F] in
include hhead hfrom in
theorem startTime_dvd : x.interval ∣ x.startTime := by
  rcases max_choice x.client.firstBucketTime x.fromtime with hmax | hmax
  · rw [startTime, hmax]
    exact hhead.dvd.1
  · rwa [startTime, hmax]

omit [FloatArith D F] in
include hw hhead hfrom hfirst hlast in
/-- The steps are the quanta of the range. -/
theorem isStep_iff_of_whole {m : ℤ} :
    x.IsStep m ↔ x.interval ∣ m ∧ x.startTime ≤ m ∧ m ≤ x.endTime := by
  have hfirstStep : x.firstStep = x.startTime := max_eq_right hfirst
  have hlastStep : x.lastStep = x.endTime := min_eq_right hlast.le
  unfold IsStep
  rw [hfirstStep, hlastStep, dvd_sub_left (startTime_dvd hhead hfrom)]
  tauto

omit [FloatArith D F] in
include hhead hfrom in
theorem Offered.startTime_le {p : ℤ} (hp : x.Offered p) : x.startTime ≤ p := by
  obtain ⟨hdvd, hlow, -⟩ := hp.bounds
  exact Grid.le_of_lt_add_of_dvd x.interval_pos hdvd (startTime_dvd hhead hfrom) (by omega)

omit [FloatArith D F] in
include hw hhead hfrom hfirst hlast in
theorem Taken.bounds {p : ℤ} (hp : x.Taken p) : x.startTime ≤ p ∧ p ≤ x.endTime := by
  obtain ⟨hoff, m, hm, hlt⟩ := hp
  obtain ⟨hdvd, -, hle⟩ := (isStep_iff_of_whole hw hhead hfrom hfirst hlast).1 hm
  refine ⟨hoff.startTime_le hhead hfrom, ?_⟩
  exact (Grid.le_of_lt_add_of_dvd x.interval_pos hdvd hoff.bounds.1 hlt).trans hle

omit [FloatArith D F] in
include hw hhead hfrom hfirst hlast in
theorem Shared.isStep {q : ℤ} (hq : x.Shared q) : x.IsStep q := by
  obtain ⟨h1, h2, h3, -⟩ := hq
  obtain ⟨h4, h5⟩ := hhead.bounds h3
  have := x.interval_pos
  exact (isStep_iff_of_whole hw hhead hfrom hfirst hlast).2
    ⟨h3.1, max_le h4 h1, le_min h5 (by omega)⟩

end Whole

/-- **Ranges of whole quanta are synchronised**, if they are in the windows of both files and none of
their slots is stale on either side. -/
theorem Paired.syncsUp_of_whole (h : x.Paired) (hw : x.Walks) (hpos : 0 < x.client.lastBucketTime)
    (hfrom : x.interval ∣ x.fromtime) (hto : x.interval ∣ x.totime + 1)
    (hfirst : x.server.firstBucketTime ≤ x.startTime)
    (hlast : x.endTime < x.server.lastBucketTime + x.interval) (hclient : x.ClientFresh)
    (hserver : ∀ q, x.interval ∣ q → x.startTime ≤ q → q ≤ x.endTime →
      x.server.FreshAt (x.server.shape.mapTimeToBucketIndex q false)) : x.SyncsUp := by
  have hI := x.interval_pos
  have hhead := h.client.headed_of_pos hpos
  have hend : x.endTime ≤ x.totime := min_le_right _ _
  have hfromle : x.fromtime ≤ x.startTime := le_max_right _ _
  have hstep : ∀ m, x.IsStep m ↔ x.interval ∣ m ∧ x.startTime ≤ m ∧ m ≤ x.endTime := fun m =>
    isStep_iff_of_whole hw hhead hfrom hfirst hlast
  have htaken : ∀ p, x.Taken p → x.startTime ≤ p ∧ p ≤ x.endTime := fun p hp =>
    hp.bounds hw hhead hfrom hfirst hlast
  have hplaced : ∀ m, x.interval ∣ m → x.server.shape.placed m = m := fun m hm =>
    Shape.placed_of_dvd (by rwa [h.interval])
  have hwhole : ∀ q, x.interval ∣ q → q ≤ x.endTime → q + x.interval ≤ x.totime + 1 :=
    fun q hq hqe => Grid.add_le_of_lt_of_dvd hI hq hto (by omega)
  refine ⟨hclient, ?_, ?_, ?_, ?_, ?_, ?_⟩
  · intro m hm
    obtain ⟨h1, h2, h3⟩ := (hstep m).1 hm.1
    have hfresh := hserver m h1 h2 h3
    exact ⟨hfresh.1, fun _ => hfresh⟩
  · intro p hp
    apply (h.server_headed hw).index_le
    rw [h.interval]
    exact lt_of_le_of_lt (htaken p hp).2 hlast
  · intro p hp _ _
    exact ⟨hfromle.trans (htaken p hp).1, hwhole p hp.1.bounds.1 (htaken p hp).2⟩
  · rintro q ⟨m, hm, rfl⟩ _ _ _ _ _
    obtain ⟨h1, -, h3⟩ := (hstep m).1 hm.1
    rw [hplaced m h1]
    exact hwhole m h1 h3
  · intro q hq hsam _
    have hm := hq.isStep hw hhead hfrom hfirst hlast
    obtain ⟨-, h2, h3⟩ := (hstep q).1 hm
    exact ⟨⟨hsam, x.client.shape.mapTimeToBucketIndex_mono h2,
      x.client.shape.mapTimeToBucketIndex_mono h3⟩, q, hm, by omega⟩
  · intro q hq _ hno
    have hm := hq.isStep hw hhead hfrom hfirst hlast
    have hdvd := ((hstep q).1 hm).1
    refine ⟨q, ⟨hm, fun p hoff hlt => ?_⟩, hplaced q hdvd⟩
    -- what is offered before the end of the step is of an earlier quantum
    have hne : p ≠ q := fun he => hno (he ▸ hoff.1)
    have hpq := Grid.le_of_lt_add_of_dvd hI hdvd hoff.bounds.1 hlt
    have hsp := hoff.startTime_le hhead hfrom
    have hfirstStep : x.firstStep = x.startTime := max_eq_right hfirst
    unfold Passed
    omega

/-- Two files created at 100, with two records each. -/
def sampleTransplant (t₁ t₂ u₁ u₂ fromtime totime : ℤ) : Transplant ℚ ℚ where
  client := (headed t₁).rawUpdateBucket 0 (Bucket.blank 1 t₂) .aggregate |>.2
  server := (headed u₁).rawUpdateBucket 0 (Bucket.blank 1 u₂) .aggregate |>.2
  fromtime := fromtime
  totime := totime
where
  headed (t : ℤ) : StatFile ℚ ℚ := (sampleFile.rawUpdateBucket 0 (Bucket.blank 1 t) .aggregate).2

/-- Such files make a pair, if their times fit. -/
theorem sampleTransplant_paired {t₁ t₂ u₁ u₂ fromtime totime : ℤ}
    (hrange : fromtime ≤ totime)
    (hfits : let x := sampleTransplant t₁ t₂ u₁ u₂ fromtime totime
      (-2 ^ 63 ≤ x.client.firstBucketTime ∧ x.client.lastBucketTime + x.interval < 2 ^ 63) ∧
      (-2 ^ 63 ≤ x.server.firstBucketTime ∧ x.server.lastBucketTime + x.interval < 2 ^ 63) ∧
      0 ≤ x.server.lastBucketTime) :
    (sampleTransplant t₁ t₂ u₁ u₂ fromtime totime).Paired where
  client := .update (.update (.new sampleFile_new) _ _ _) _ _ _
  server := .update (.update (.new sampleFile_new) _ _ _) _ _ _
  interval := by simp [interval, sampleTransplant, sampleTransplant.headed]
  clientGauge := by
    simp only [sampleTransplant, sampleTransplant.headed, StatFile.rawUpdateBucket_shape]
    decide
  serverGauge := by
    simp only [sampleTransplant, sampleTransplant.headed, StatFile.rawUpdateBucket_shape]
    decide
  range := hrange
  clientFits := hfits.1
  serverFits := hfits.2.1
  epoch := hfits.2.2

/-- The client has records at 6000 and 6020 and the server at 6010 and 6020: the range from 6000 to
6019 is synchronised. -/
theorem exchange_synced_sample :
    ∃ n r, (∀ fuel, n ≤ fuel →
        (sampleTransplant 6000 6020 6010 6020 6000 6019).exchange fuel 0 0 (fun _ => 0) [] =
          some r) ∧
      (sampleTransplant 6000 6020 6010 6020 6000 6019).Synced r := by
  have hpaired : (sampleTransplant 6000 6020 6010 6020 6000 6019).Paired :=
    sampleTransplant_paired (by decide) (by decide +kernel)
  obtain ⟨n, r, hrun, hiff⟩ := exchange_synced_iff hpaired 0 0 (fun _ => 0) []
  refine ⟨n, r, hrun, hiff.2 (hpaired.syncsUp_of_whole (by decide +kernel) (by decide +kernel)
    (by decide +kernel) (by decide +kernel) (by decide +kernel) (by decide +kernel) ?_ ?_)⟩
  · intro _ i h1 h2
    replace h1 : 590 ≤ i := h1
    replace h2 : i ≤ 591 := h2
    obtain rfl | rfl : i = 590 ∨ i = 591 := by omega
    · decide +kernel
    · decide +kernel
  · intro q hq h1 h2
    replace hq : (10 : ℤ) ∣ q := hq
    replace h1 : 6000 ≤ q := h1
    replace h2 : q ≤ 6019 := h2
    obtain rfl | rfl : q = 6000 ∨ q = 6010 := by omega
    · decide +kernel
    · decide +kernel

/-- **A stale slot is transferred.**  The slot of 6120 holds a record of 1000 in the file of the
client, and the server, which has a record at 6120, takes it for what the client has there: it does
not send its own. -/
theorem exchange_stale_slot :
    (sampleTransplant 1000 6130 6120 6130 6120 6129).Paired ∧
    ∃ r, (sampleTransplant 1000 6130 6120 6130 6120 6129).exchange 3 0 0 (fun _ => 0) [] = some r ∧
      ¬(sampleTransplant 1000 6130 6120 6130 6120 6129).Synced r := by
  refine ⟨sampleTransplant_paired (by decide) (by decide +kernel), ?_⟩
  have hrun : ((sampleTransplant 1000 6130 6120 6130 6120 6129).exchange 3 0 0 (fun _ => 0) []).map
      (fun r => (r.client.quantum 6120).time) = some 1000 := by decide +kernel
  obtain ⟨r, hr, htime⟩ := Option.map_eq_some_iff.1 hrun
  refine ⟨r, hr, fun h => ?_⟩
  have hclient := h.client 6120 (by decide +kernel)
  rw [if_pos (by decide +kernel)] at hclient
  rw [hclient] at htime
  exact absurd htime (by decide +kernel)

end Transplant

end Istatd
