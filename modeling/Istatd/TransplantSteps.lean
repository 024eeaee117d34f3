import Istatd.TransplantExchange

/-!
# The walk of the transplant server

What the server does at each step of an exchange, and from that at any point of its walk.

* `offerLoop_buckets`, `applyOffer_eq`: the loops of the client;
* `ServerLoop.loop_rule`: what each round keeps holds at the end of the loop;
* `Transplant.Paired`: the files and ranges in question;
* `Transplant.Walked`: the state of the loop before a step, and `Walked.round`: one step.
-/

namespace Istatd

variable {D F : Type} [FloatArith D F]

/-! ### The client -/

section Client

variable {f : StatFile D F} {now : ℤ}

/-- The reads of `do_file` leave the file as it is, but for its mappings. -/
theorem offerLoop_sameRing (now : ℤ) (n : ℕ) (i : ℤ) (f : StatFile D F) :
    (offerLoop now n i f).2.2.header = f.header ∧
      StatFile.SameRing f (offerLoop now n i f).2.2 := by
  induction n generalizing i f with
  | zero => exact ⟨rfl, rfl, rfl, fun _ => rfl⟩
  | succ n ih =>
    obtain ⟨hheader, hshape, hlast, hring⟩ := ih (i + 1) (f.writableBucket now i).2
    refine ⟨hheader, hshape, hlast, fun j => (hring j).trans ?_⟩
    unfold StatFile.bucketAt
    rw [StatFile.writableBucket_slot, StatFile.writableBucket_shape]

theorem offerLoop_reads (n : ℕ) (i : ℤ) (f : StatFile D F) :
    (offerLoop now n i f).2.1 =
      (RingIndex.consecutive i n).map (f.mapBucketIndexToFileIndex now) := by
  induction n generalizing i f with
  | zero => rfl
  | succ n ih =>
    rw [RingIndex.consecutive_succ, List.map_cons, offerLoop, ih]
    rfl

/-- The buckets of `do_file`, for indices in the window. -/
theorem offerLoop_buckets {n : ℕ} {i : ℤ} (h : ∀ k ∈ RingIndex.consecutive i n, f.Live k) :
    (offerLoop now n i f).1 =
      ((RingIndex.consecutive i n).filter fun k => (f.bucketAt k).count ≠ 0).map f.bucketAt := by
  induction n generalizing i f with
  | zero => rfl
  | succ n ih =>
    rw [RingIndex.consecutive_succ] at h ⊢
    obtain ⟨hi, hrest⟩ := List.forall_mem_cons.1 h
    have hring : (f.writableBucket now i).2.bucketAt = f.bucketAt := by
      funext j
      unfold StatFile.bucketAt
      rw [StatFile.writableBucket_slot, StatFile.writableBucket_shape]
    have hread := StatFile.writableBucket_deref (StatFile.isBucketIndexInFile_of_live now hi)
    rw [offerLoop, ih (f := (f.writableBucket now i).2) hrest, hring, hread]
    by_cases hcount : (f.bucketAt i).count = 0 <;> simp [hcount]

/-- `apply_offer_to_file` fills the empty quanta between two times. -/
theorem applyOffer_eq (l : List (Bucket D F)) (f : StatFile D F) (minimum maximum : ℤ) :
    applyOffer now l f minimum maximum =
      f.fill now (l.filter fun b => max f.firstBucketTime minimum ≤ b.time ∧
        b.time ≤ if maximum = 0 then f.lastBucketTime + f.shape.cfgInterval
          else min (f.lastBucketTime + f.shape.cfgInterval) maximum) := by
  have hmin : (if f.firstBucketTime < minimum then minimum else f.firstBucketTime) =
      max f.firstBucketTime minimum := by
    split_ifs with h
    · rw [max_eq_right h.le]
    · rw [max_eq_left (not_lt.1 h)]
  have hend : f.firstBucketTime + f.shape.bucketCount * f.shape.cfgInterval =
      f.lastBucketTime + f.shape.cfgInterval := by
    unfold StatFile.firstBucketTime StatFile.lastBucketTime
    ring
  have hmax : (if maximum ≠ 0 ∧ maximum < f.lastBucketTime + f.shape.cfgInterval then maximum
      else f.lastBucketTime + f.shape.cfgInterval) =
      if maximum = 0 then f.lastBucketTime + f.shape.cfgInterval
      else min (f.lastBucketTime + f.shape.cfgInterval) maximum := by
    split_ifs <;> omega
  have hfold : ∀ (lo hi : ℤ) (l : List (Bucket D F)) (g : StatFile D F),
      l.foldl (fun g b => if lo ≤ b.time ∧ b.time ≤ hi then
        (g.rawUpdateBucket now b .onlyIfEmpty).2 else g) g =
      g.fill now (l.filter fun b => lo ≤ b.time ∧ b.time ≤ hi) := by
    intro lo hi l
    induction l with
    | nil => exact fun _ => rfl
    | cons b l ih =>
      intro g
      rw [List.foldl_cons, ih]
      by_cases hb : lo ≤ b.time ∧ b.time ≤ hi
      · rw [if_pos hb, List.filter_cons_of_pos (by simpa using hb), StatFile.fill_cons]
      · rw [if_neg hb, List.filter_cons_of_neg (by simpa using hb)]
  rw [applyOffer, hend]
  simp only [hmin, hmax]
  exact hfold _ _ l f

end Client

/-! ### The loop of the server -/

namespace ServerLoop

theorem round_mintime (now : ℤ) (intervalTime : UInt64) (s : ServerLoop D F) :
    (s.round now intervalTime).mintime = s.mintime + intervalTime := by
  simp only [round]
  split_ifs <;> rfl

/-- **What a round keeps for the next step** holds when the loop ends, and it does end. -/
theorem loop_rule {P : ℤ → ServerLoop D F → Prop} {I maxt : ℤ} (hI : 0 < I) (hmaxt : 0 ≤ maxt)
    (hfit : maxt + I < 2 ^ 64) (hmin : ∀ m s, P m s → s.mintime = toUInt64 m)
    (hround : ∀ m s now, P m s → 0 ≤ m → m ≤ maxt → P (m + I) (s.round now (toUInt64 I)))
    {m : ℤ} {s : ServerLoop D F} (h : P m s) (hm0 : 0 ≤ m) (hm1 : m < 2 ^ 64) (now : ℕ → ℤ) :
    ∃ n s' m', (∀ fuel, n ≤ fuel → loop (toUInt64 I) (toUInt64 maxt) fuel now s = some s') ∧
      P m' s' ∧ maxt < m' ∧ (m' = m ∨ m < m' ∧ m' ≤ maxt + I) := by
  induction hk : (maxt + 1 - m).toNat using Nat.strong_induction_on generalizing m s now with
  | _ k ih =>
    have hle_iff : s.mintime ≤ toUInt64 maxt ↔ m ≤ maxt := by
      rw [hmin m s h]
      exact toUInt64_le_iff hm0 hm1 hmaxt (by omega)
    by_cases hle : m ≤ maxt
    · obtain ⟨n, s', m', hloop, hP, hend, hm'⟩ := ih _ (by omega) (hround m s (now 0) h hm0 hle)
        (by omega) (by omega) (fun k => now (k + 1)) rfl
      refine ⟨n + 1, s', m', fun fuel hfuel => ?_, hP, hend, .inr (by omega)⟩
      obtain ⟨fuel, rfl⟩ := Nat.exists_eq_succ_of_ne_zero (Nat.ne_of_gt (by omega : 0 < fuel))
      rw [loop, if_pos (hle_iff.2 hle)]
      exact hloop fuel (by omega)
    · refine ⟨1, s, m, fun fuel hfuel => ?_, h, by omega, .inl rfl⟩
      obtain ⟨fuel, rfl⟩ := Nat.exists_eq_succ_of_ne_zero (Nat.one_le_iff_ne_zero.1 hfuel)
      rw [loop, if_neg (mt hle_iff.1 hle)]

end ServerLoop

/-! ### The range of the walk -/

omit [FloatArith D F] in
/-- The ends of a window are on the grid. -/
theorem StatFile.Headed.dvd {f : StatFile D F} (h : f.Headed) :
    f.shape.cfgInterval ∣ f.firstBucketTime ∧ f.shape.cfgInterval ∣ f.lastBucketTime := by
  have hlast : f.shape.cfgInterval ∣ f.lastBucketTime := by
    rw [h.last]
    exact f.cfgInterval_dvd_mapBucketIndexToTime _
  exact ⟨dvd_sub hlast (dvd_mul_left _ _), hlast⟩

namespace Transplant

/-- Files of one gauge that can be reached, of the same interval, with times that fit `time_t`, and a
range of times. -/
structure Paired (x : Transplant D F) : Prop where
  client : x.client.Reachable
  server : x.server.Reachable
  interval : x.server.shape.cfgInterval = x.interval
  clientGauge : x.client.shape.isCollated = false ∧ x.client.shape.isTrailing = false
  serverGauge : x.server.shape.isCollated = false ∧ x.server.shape.isTrailing = false
  range : x.fromtime ≤ x.totime
  clientFits : -2 ^ 63 ≤ x.client.firstBucketTime ∧ x.client.lastBucketTime + x.interval < 2 ^ 63
  serverFits : -2 ^ 63 ≤ x.server.firstBucketTime ∧ x.server.lastBucketTime + x.interval < 2 ^ 63
  epoch : 0 ≤ x.server.lastBucketTime

variable {x : Transplant D F} {m p q : ℤ}

omit [FloatArith D F] in
theorem interval_pos (x : Transplant D F) : 0 < x.interval := x.client.shape.cfgInterval_pos

theorem Paired.startTime_le (h : x.Paired) (hmeets : x.Meets) : x.startTime ≤ x.endTime := by
  have hlt := x.client.firstBucketTime_lt
  have hrange := h.range
  obtain ⟨h1, h2⟩ := hmeets
  unfold startTime endTime
  omega

theorem Paired.server_headed (h : x.Paired) (hw : x.Walks) : x.server.Headed :=
  h.server.headed hw.2.1

omit [FloatArith D F] in
/-- What is offered is on the grid, and less than an interval from the range. -/
theorem Offered.bounds (h : x.Offered p) :
    x.interval ∣ p ∧ x.startTime - x.interval < p ∧ p < x.endTime + x.interval := by
  obtain ⟨hsam, h1, h2⟩ := h
  have hp := StatFile.mapBucketIndexToTime_mapTimeToBucketIndex hsam.1.1
  have hlow := x.client.shape.mapBucketIndexToTime_le h1
  have hhigh := x.client.shape.mapBucketIndexToTime_le h2
  rw [hp] at hlow hhigh
  exact ⟨hsam.1.1, lt_of_lt_of_le (x.client.shape.lt_placed _) hlow,
    lt_of_le_of_lt hhigh (x.client.shape.placed_lt _)⟩

/-- A multiple of the interval above `-I` is not negative. -/
theorem nonneg_of_dvd {I : ℤ} (hI : 0 < I) (hp : I ∣ p) (h : -I < p) : 0 ≤ p := by
  have := Grid.add_le_of_lt_of_dvd hI (dvd_neg.2 dvd_rfl) hp h
  omega

omit [FloatArith D F] in
theorem Offered.nonneg (h : x.Offered p) (hw : x.Walks) : 0 ≤ p := by
  obtain ⟨hdvd, hlow, -⟩ := h.bounds
  have hstart := hw.2.2
  exact nonneg_of_dvd x.interval_pos hdvd (by omega)

theorem Offered.lt_two_pow (h : x.Offered p) (hx : x.Paired) : p < 2 ^ 63 := by
  have hfit := hx.clientFits.2
  have hend : x.endTime ≤ x.client.lastBucketTime := min_le_left _ _
  have := h.bounds.2.2
  omega

/-- The quanta less than an interval from the range are in the window of the client. -/
theorem Paired.client_retains (h : x.Paired) (hw : x.Walks) (hfresh : x.ClientFresh)
    (hq : x.interval ∣ q) (hlow : x.startTime - x.interval < q)
    (hhigh : q < x.endTime + x.interval) :
    x.client.Retains q ∧ x.client.firstBucketTime ≤ q ∧ q < x.client.lastBucketTime + x.interval := by
  have hI := x.interval_pos
  have hstart : x.client.firstBucketTime ≤ x.startTime := le_max_left _ _
  have hend : x.endTime ≤ x.client.lastBucketTime := min_le_left _ _
  have hlt : q < x.client.lastBucketTime + x.interval := by omega
  by_cases hpos : 0 < x.client.lastBucketTime
  · have hhead := h.client.headed_of_pos hpos
    have hfirst : x.client.firstBucketTime ≤ q := by
      have := Grid.add_le_of_lt_of_dvd (t := x.client.firstBucketTime - x.interval) hI
        (dvd_sub hhead.dvd.1 dvd_rfl) hq (by omega)
      omega
    exact ⟨⟨hq, hhead.live hfirst hlt⟩, hfirst, hlt⟩
  · -- the head of the client has never moved, and the range is the time 0
    have hle := h.startTime_le hw.1
    have h0 := hw.2.2
    have hs0 : x.startTime = 0 := by omega
    have he0 : x.endTime = 0 := by omega
    have hq0 : q = 0 := by
      have h1 := nonneg_of_dvd hI hq (by omega)
      have h2 := nonneg_of_dvd hI (dvd_neg.2 hq) (by omega)
      omega
    refine ⟨⟨hq, ?_⟩, by omega, hlt⟩
    rw [hq0]
    refine (hfresh hw.1 _ ?_ ?_).1
    · rw [hs0]
    · rw [he0]

/-- The end of the walk. -/
theorem Paired.lastStep_bounds (h : x.Paired) (hw : x.Walks) :
    0 ≤ x.lastStep ∧ x.lastStep ≤ x.server.lastBucketTime + x.interval := by
  have hle := h.startTime_le hw.1
  have h0 := hw.2.2
  have hI := x.interval_pos
  have hepoch := h.epoch
  unfold lastStep
  omega

omit [FloatArith D F] in
theorem Walks.firstStep_nonneg (hw : x.Walks) : 0 ≤ x.firstStep := le_max_of_le_left hw.2.1

end Transplant

/-- In an ordered list the elements in front that satisfy a property closed downwards are all that
do. -/
theorem takeWhile_eq_filter {α : Type} {R : α → α → Prop} {p : α → Bool} {l : List α}
    (hl : l.Pairwise R) (hp : ∀ a ∈ l, ∀ b ∈ l, R a b → p b = true → p a = true) :
    l.takeWhile p = l.filter p ∧ l.dropWhile p = l.filter fun a => !p a := by
  induction l with
  | nil => exact ⟨rfl, rfl⟩
  | cons a l ih =>
    obtain ⟨ha, hl⟩ := List.pairwise_cons.1 hl
    by_cases hpa : p a = true
    · obtain ⟨h1, h2⟩ := ih hl fun b hb c hc =>
        hp b (List.mem_cons_of_mem _ hb) c (List.mem_cons_of_mem _ hc)
      simp [hpa, h1, h2]
    · have hnone : ∀ b ∈ l, p b = false := fun b hb => by
        rw [← Bool.not_eq_true]
        exact fun hpb => hpa (hp a List.mem_cons_self b (List.mem_cons_of_mem _ hb) (ha b hb) hpb)
      have hempty : l.filter p = [] := List.filter_eq_nil_iff.2 fun b hb => by simp [hnone b hb]
      have hall : (l.filter fun b => !p b) = l := List.filter_eq_self.2 fun b hb => by
        simp [hnone b hb]
      simp [hpa, hempty, hall]

namespace Transplant

variable {x : Transplant D F} {m p q clock : ℤ}

/-- The buckets of the offer of the client. -/
def offer (x : Transplant D F) (clock : ℤ) : List (Bucket D F) × List ℤ × StatFile D F :=
  offerLoop clock (x.client.shape.mapTimeToBucketIndex x.endTime false + 1 -
      x.client.shape.mapTimeToBucketIndex x.startTime false).toNat
    (x.client.shape.mapTimeToBucketIndex x.startTime false) x.client

theorem Paired.mem_consecutive (h : x.Paired) (hmeets : x.Meets) (k : ℤ) :
    k ∈ RingIndex.consecutive (x.client.shape.mapTimeToBucketIndex x.startTime false)
        (x.client.shape.mapTimeToBucketIndex x.endTime false + 1 -
          x.client.shape.mapTimeToBucketIndex x.startTime false).toNat ↔
      x.client.shape.mapTimeToBucketIndex x.startTime false ≤ k ∧
        k ≤ x.client.shape.mapTimeToBucketIndex x.endTime false := by
  have hle := x.client.shape.mapTimeToBucketIndex_mono (h.startTime_le hmeets)
  rw [RingIndex.mem_consecutive]
  omega

/-- **The offer**, if the client reads no stale slot: its buckets in the range, in order. -/
theorem Paired.offer_buckets (h : x.Paired) (hmeets : x.Meets) (hfresh : x.ClientFresh)
    (clock : ℤ) :
    (x.offer clock).1.Pairwise (fun a b => a.time < b.time) ∧
      ∀ b, b ∈ (x.offer clock).1 ↔ x.Offered b.time ∧ b = x.client.quantum b.time := by
  have hin := h.mem_consecutive hmeets
  have hbuckets : (x.offer clock).1 = _ :=
    offerLoop_buckets fun k hk => (hfresh hmeets k ((hin k).1 hk).1 ((hin k).1 hk).2).1
  have htime : ∀ k ∈ RingIndex.consecutive (x.client.shape.mapTimeToBucketIndex x.startTime false)
        (x.client.shape.mapTimeToBucketIndex x.endTime false + 1 -
          x.client.shape.mapTimeToBucketIndex x.startTime false).toNat,
      (x.client.bucketAt k).count ≠ 0 →
        (x.client.bucketAt k).time = x.client.shape.mapBucketIndexToTime k := fun k hk =>
    (hfresh hmeets k ((hin k).1 hk).1 ((hin k).1 hk).2).2
  rw [hbuckets]
  constructor
  · rw [List.pairwise_map]
    refine ((RingIndex.consecutive_pairwise _ _).filter _).imp_of_mem fun {a b} ha hb hlt => ?_
    rw [List.mem_filter, decide_eq_true_iff] at ha hb
    rw [htime a ha.1 ha.2, htime b hb.1 hb.2]
    exact x.client.shape.mapBucketIndexToTime_lt hlt
  · intro b
    simp only [List.mem_map, List.mem_filter, decide_eq_true_iff]
    constructor
    · rintro ⟨k, ⟨hk, hcount⟩, rfl⟩
      have hindex := x.client.shape.mapTimeToBucketIndex_mapBucketIndexToTime k
      obtain ⟨h1, h2⟩ := (hin k).1 hk
      rw [htime k hk hcount]
      have hq : x.client.quantum (x.client.shape.mapBucketIndexToTime k) = x.client.bucketAt k := by
        rw [StatFile.quantum, hindex]
      refine ⟨⟨⟨⟨x.client.cfgInterval_dvd_mapBucketIndexToTime k, ?_⟩, ?_⟩, ?_⟩, hq.symm⟩
      · rw [hindex]
        exact (hfresh hmeets k h1 h2).1
      · rw [hq]
        exact ⟨htime k hk hcount, hcount⟩
      · rw [hindex]
        exact ⟨h1, h2⟩
    · rintro ⟨⟨hsam, h1, h2⟩, hb⟩
      refine ⟨x.client.shape.mapTimeToBucketIndex b.time false, ⟨(hin _).2 ⟨h1, h2⟩, ?_⟩, hb.symm⟩
      exact hsam.2.2

/-- What the server has for a quantum, once the offered bucket has been applied. -/
def held (x : Transplant D F) (q : ℤ) : Bucket D F :=
  if x.Offered q ∧ ¬x.server.Samples q then x.client.quantum q else x.server.quantum q

/-- The state of the loop before the step at `m`.  The parts about the ring hold as long as its head
has not moved. -/
structure Walked (x : Transplant D F) (m : ℤ) (st : ServerLoop D F) : Prop where
  at_ : st.At x.server m
  onStep : x.firstStep ≤ m ∧ x.interval ∣ m - x.firstStep
  sorted : st.rest.Pairwise fun a b => a.time < b.time
  rest : ∀ b, b ∈ st.rest ↔
    (x.Offered b.time ∧ b = x.client.quantum b.time) ∧ ¬x.Passed m b.time
  window_le : x.server.header.lastBucket ≤ st.file.header.lastBucket
  window : st.file.header.lastBucket = x.server.header.lastBucket ↔ ∀ p, x.Offered p →
    x.Passed m p → x.server.shape.mapTimeToBucketIndex p false ≤ x.server.header.lastBucket
  quanta : st.file.header.lastBucket = x.server.header.lastBucket →
    ∀ q, x.server.Retains q →
      st.file.quantum q = if x.Passed m q then x.held q else x.server.quantum q
  reads : st.file.header.lastBucket = x.server.header.lastBucket →
    ∀ i, i ∈ st.reads ↔ ∃ m', (x.Idle m' ∧ m' < m) ∧
      i = x.server.mapBucketIndexToFileIndex 0 (x.server.shape.mapTimeToBucketIndex m' false)
  output : st.file.header.lastBucket = x.server.header.lastBucket → (∀ i ∈ st.reads, i ≠ -1) →
    ∀ b, b ∈ st.output ↔ ∃ m', (x.Idle m' ∧ m' < m) ∧ b = x.held (x.server.shape.placed m') ∧
      b.count ≠ 0

end Transplant

namespace Transplant

open ServerLoop

variable {x : Transplant D F} {m p q now : ℤ} {st : ServerLoop D F}

omit [FloatArith D F] in
theorem passed_add_iff (h : x.firstStep ≤ m) : x.Passed (m + x.interval) p ↔ p < m + x.interval := by
  have hI := x.interval_pos
  unfold Passed
  omega

omit [FloatArith D F] in
theorem Passed.add (h : x.Passed m p) : x.Passed (m + x.interval) p := by
  have hI := x.interval_pos
  unfold Passed at h ⊢
  omega

omit [FloatArith D F] in
/-- The idle steps before the end of the step at `m`. -/
theorem idle_lt_add_iff (h : x.firstStep ≤ m ∧ x.interval ∣ m - x.firstStep) {m' : ℤ} :
    x.Idle m' ∧ m' < m + x.interval ↔ (x.Idle m' ∧ m' < m) ∨ (x.Idle m' ∧ m' = m) := by
  have hI := x.interval_pos
  refine ⟨fun ⟨hm', hlt⟩ => ?_, ?_⟩
  · rcases lt_or_ge m' m with hm | hm
    · exact .inl ⟨hm', hm⟩
    · refine .inr ⟨hm', ?_⟩
      by_contra hne
      have hdvd : x.interval ∣ m' - m := by
        have := dvd_sub hm'.1.2.2.2 h.2
        rwa [sub_sub_sub_cancel_right] at this
      have := Int.le_of_dvd (by omega) hdvd
      omega
  · rintro (⟨hm', hlt⟩ | ⟨hm', rfl⟩)
    · exact ⟨hm', by omega⟩
    · exact ⟨hm', by omega⟩

omit [FloatArith D F] in
theorem front_eq_false_iff (rest : List (Bucket D F)) :
    front m rest = false ↔ (rest.takeWhile fun b => toUInt64 b.time < toUInt64 m) = [] := by
  cases rest with
  | nil => simp [front]
  | cons b rest => simp [front, List.takeWhile_cons]

section Round

variable (h : x.Walked m st) (hx : x.Paired) (hw : x.Walks) (hm : m ≤ x.lastStep)

include h hx hw hm in
/-- The comparison of a step, without the conversions. -/
theorem Walked.time_lt_iff {b : Bucket D F} (hb : b ∈ st.rest) :
    toUInt64 b.time < toUInt64 (m + x.interval) ↔ b.time < m + x.interval := by
  have hoff := ((h.rest b).1 hb).1.1
  have h0 := hoff.nonneg hw
  have h1 := hoff.lt_two_pow hx
  have hfirst := hw.firstStep_nonneg
  have hstep := h.onStep.1
  have hI := x.interval_pos
  have hlast := (hx.lastStep_bounds hw).2
  have hfit := hx.serverFits.2
  have hepoch := hx.epoch
  exact toUInt64_lt_iff h0 (by omega) (by omega) (by omega)

include h hx hw hm in
/-- The buckets in front of the end of a step, and those behind it. -/
theorem Walked.mem_split :
    (st.rest.takeWhile fun b => toUInt64 b.time < toUInt64 (m + x.interval)) =
        st.rest.filter (fun b => b.time < m + x.interval) ∧
      behind (m + x.interval) st.rest = st.rest.filter fun b => ¬b.time < m + x.interval := by
  have hlt := fun {b} hb => h.time_lt_iff hx hw hm (b := b) hb
  obtain ⟨h1, h2⟩ := takeWhile_eq_filter (p := fun b => toUInt64 b.time < toUInt64 (m + x.interval))
    h.sorted fun a ha b hb hab hp => by
      rw [decide_eq_true_iff, hlt hb] at hp
      rw [decide_eq_true_iff, hlt ha]
      omega
  constructor
  · rw [h1]
    exact List.filter_congr fun b hb => decide_eq_decide.2 (hlt hb)
  · rw [behind, h2]
    refine List.filter_congr fun b hb => ?_
    rw [decide_not, decide_eq_decide.2 (hlt hb)]

include h hx hw hm in
/-- A step at which nothing is applied is idle. -/
theorem Walked.idle_iff : x.Idle m ↔ front (m + x.interval) st.rest = false := by
  have hstep : x.IsStep m := ⟨hw, h.onStep.1, hm, h.onStep.2⟩
  rw [front_eq_false_iff, (h.mem_split hx hw hm).1, List.filter_eq_nil_iff]
  constructor
  · rintro ⟨-, hidle⟩ b hb hlt
    obtain ⟨⟨hoff, -⟩, hno⟩ := (h.rest b).1 hb
    exact hno (hidle _ hoff (decide_eq_true_iff.1 hlt))
  · intro hnone
    refine ⟨hstep, fun p hoff hlt => ?_⟩
    by_contra hno
    have htime := hoff.1.2.1
    refine hnone (x.client.quantum p) ((h.rest _).2 ⟨⟨?_, ?_⟩, ?_⟩) (decide_eq_true_iff.2 ?_)
    · rwa [htime]
    · rw [htime]
    · rwa [htime]
    · rwa [htime]

omit [FloatArith D F] in
include h in
/-- With its head unmoved, the file of the loop has samples where the server had them and where a
bucket has been applied. -/
theorem Walked.samples_iff (hlast : st.file.header.lastBucket = x.server.header.lastBucket)
    (hq : x.server.Retains q) :
    st.file.Samples q ↔ x.server.Samples q ∨ x.Passed m q ∧ x.Offered q := by
  unfold StatFile.Samples
  rw [StatFile.retains_congr h.at_.shape hlast, h.quanta hlast q hq]
  by_cases hp : x.Passed m q
  · rw [if_pos hp, held]
    by_cases hs : x.server.Samples q
    · rw [if_neg fun h' => h'.2 hs]
      exact iff_of_true hs (.inl hs)
    · by_cases hoff : x.Offered q
      · rw [if_pos ⟨hoff, hs⟩]
        exact iff_of_true ⟨hq, hoff.1.2⟩ (.inr ⟨hp, hoff⟩)
      · rw [if_neg fun h' => hoff h'.1]
        exact ⟨.inl, fun h' => h'.elim id fun h'' => absurd h''.2 hoff⟩
  · rw [if_neg hp]
    exact ⟨.inl, fun h' => h'.elim id fun h'' => absurd h''.1 hp⟩

omit [FloatArith D F] in
include h in
/-- The buckets that are applied at a step. -/
theorem Walked.mem_applied {b : Bucket D F} :
    (b ∈ st.rest.filter fun b => b.time < m + x.interval) ↔
      (x.Offered b.time ∧ b = x.client.quantum b.time) ∧ ¬x.Passed m b.time ∧
        x.Passed (m + x.interval) b.time := by
  rw [List.mem_filter, decide_eq_true_iff, h.rest, passed_add_iff h.onStep.1, and_assoc]

include h hx hw hm in
theorem Walked.at_round (now : ℤ) :
    (st.round now (toUInt64 x.interval)).At x.server (m + x.interval) := by
  have hstep := h.onStep.1
  have hfirst := hw.firstStep_nonneg
  have hlast := (hx.lastStep_bounds hw).2
  have hround := (h.at_.round now (hx.server_headed hw) (by omega) (by rw [hx.interval]; omega)
    (by rw [hx.interval]; exact hx.serverFits.2)).1
  rwa [hx.interval] at hround

omit [FloatArith D F] in
include h in
theorem Walked.onStep_add : x.firstStep ≤ m + x.interval ∧
    x.interval ∣ m + x.interval - x.firstStep := by
  obtain ⟨h1, h2⟩ := h.onStep
  have hI := x.interval_pos
  refine ⟨by omega, ?_⟩
  rw [show m + x.interval - x.firstStep = m - x.firstStep + x.interval by ring]
  exact dvd_add h2 dvd_rfl

omit [FloatArith D F] in
include h in
/-- A step applies a bucket of a quantum if it is offered and the step is the one that passes it. -/
theorem Walked.exists_applied_iff :
    (∃ b ∈ st.rest.filter (fun b => b.time < m + x.interval), b.time = q) ↔
      x.Offered q ∧ ¬x.Passed m q ∧ x.Passed (m + x.interval) q := by
  constructor
  · rintro ⟨b, hb, rfl⟩
    obtain ⟨⟨hoff, -⟩, hp⟩ := h.mem_applied.1 hb
    exact ⟨hoff, hp⟩
  · rintro ⟨hoff, hp⟩
    have htime := hoff.1.2.1
    refine ⟨x.client.quantum q, h.mem_applied.2 ?_, htime⟩
    rw [htime]
    exact ⟨⟨hoff, rfl⟩, hp⟩

include h in
/-- The head stays where it was if no quantum that the step passes is behind it. -/
theorem Walked.fill_applied_lastBucket (now : ℤ) :
    (st.file.fill now (st.rest.filter fun b => b.time < m + x.interval)).header.lastBucket =
        st.file.header.lastBucket ↔
      ∀ p, x.Offered p ∧ ¬x.Passed m p ∧ x.Passed (m + x.interval) p →
        x.server.shape.mapTimeToBucketIndex p false ≤ st.file.header.lastBucket := by
  have htarget : ∀ b, st.file.target b = x.server.shape.mapTimeToBucketIndex b.time false :=
    fun b => by rw [StatFile.target, h.at_.shape]
  rw [StatFile.fill_lastBucket_eq_iff]
  simp only [htarget, ← h.exists_applied_iff]
  constructor
  · rintro hle p ⟨b, hb, rfl⟩
    exact hle b hb
  · exact fun hle b hb => hle b.time ⟨b, hb, rfl⟩

include h hx in
/-- The quanta of the file after a step, if the head stays where the server had it. -/
theorem Walked.fill_applied_quantum (now : ℤ)
    (hst : st.file.header.lastBucket = x.server.header.lastBucket)
    (hfill : (st.file.fill now
      (st.rest.filter fun b => b.time < m + x.interval)).header.lastBucket =
        st.file.header.lastBucket)
    (hq : x.server.Retains q) :
    (st.file.fill now (st.rest.filter fun b => b.time < m + x.interval)).quantum q =
      if x.Passed (m + x.interval) q then x.held q else x.server.quantum q := by
  have hret := (StatFile.retains_congr h.at_.shape hst).2 hq
  rw [StatFile.fill_quantum (g := x.client.quantum)
    (by rw [h.at_.shape]; exact hx.serverGauge.2) (fun b hb => ?_) hret, h.quanta hst q hq]
  · have hadd : x.Passed m q → x.Passed (m + x.interval) q := Passed.add
    simp only [h.exists_applied_iff, h.samples_iff hst hq, held]
    by_cases h1 : x.Passed m q
    · simp [h1, hadd h1]
    · by_cases h2 : x.Passed (m + x.interval) q
      · simp [h1, h2]
      · simp [h1, h2]
  · obtain ⟨⟨hoff, hb'⟩, -⟩ := h.mem_applied.1 hb
    have hcount := hoff.1.2.2
    rw [← hb'] at hcount
    refine ⟨hb', hcount, ?_, StatFile.fill_lastBucket_eq_iff.1 hfill b hb⟩
    rw [h.at_.shape, hx.interval]
    exact hoff.bounds.1

include h hx in
/-- The file after a step at which buckets are applied. -/
theorem Walked.fill_applied (now : ℤ) {file : StatFile D F}
    (hfile : st.file.fill now (st.rest.filter fun b => b.time < m + x.interval) = file) :
    x.server.header.lastBucket ≤ file.header.lastBucket ∧
    (file.header.lastBucket = x.server.header.lastBucket ↔ ∀ p, x.Offered p →
      x.Passed (m + x.interval) p →
        x.server.shape.mapTimeToBucketIndex p false ≤ x.server.header.lastBucket) ∧
    (file.header.lastBucket = x.server.header.lastBucket →
      st.file.header.lastBucket = x.server.header.lastBucket ∧
      ∀ q, x.server.Retains q → file.quantum q =
        if x.Passed (m + x.interval) q then x.held q else x.server.quantum q) := by
  have hle := st.file.le_fill_lastBucket now (st.rest.filter fun b => b.time < m + x.interval)
  have hstays := h.fill_applied_lastBucket now
  have hquantum := fun hst hfill q hq => h.fill_applied_quantum (q := q) hx now hst hfill hq
  rw [hfile] at hle hstays hquantum
  have hwin := h.window_le
  refine ⟨by omega, ⟨fun hlast p hoff hp => ?_, fun hall => ?_⟩, fun hlast => ?_⟩
  · have hst : st.file.header.lastBucket = x.server.header.lastBucket := by omega
    by_cases hno : x.Passed m p
    · exact h.window.1 hst p hoff hno
    · rw [← hst]
      exact hstays.1 (by omega) p ⟨hoff, hno, hp⟩
  · have hst := h.window.2 fun p hoff hp => hall p hoff hp.add
    rw [← hst]
    refine hstays.2 fun p hp => ?_
    rw [hst]
    exact hall p hp.1 hp.2.2
  · have hst : st.file.header.lastBucket = x.server.header.lastBucket := by omega
    exact ⟨hst, hquantum hst (by omega)⟩

include h hx hw hm in
/-- **A step at which buckets are applied.** -/
theorem Walked.round_of_front (hfront : front (m + x.interval) st.rest = true) :
    x.Walked (m + x.interval) (st.round now (toUInt64 x.interval)) := by
  have hidle : ¬x.Idle m := by
    rw [h.idle_iff hx hw hm, hfront]
    exact Bool.noConfusion
  have hsteps : ∀ m', x.Idle m' ∧ m' < m + x.interval ↔ x.Idle m' ∧ m' < m := fun m' => by
    rw [idle_lt_add_iff h.onStep, or_iff_left]
    rintro ⟨hm', rfl⟩
    exact hidle hm'
  obtain ⟨htake, hbehind⟩ := h.mem_split hx hw hm
  have hround : st.round now (toUInt64 x.server.shape.cfgInterval) = _ :=
    h.at_.round_of_front (by rw [hx.interval]; exact hfront)
  have hat := h.at_round hx hw hm now
  rw [hx.interval, frontCalls, htake, hbehind] at hround
  obtain ⟨hle, hwin, hquanta⟩ := h.fill_applied hx now rfl
  rw [hround] at hat ⊢
  refine ⟨hat, h.onStep_add, h.sorted.filter _, fun b => ?_, hle, hwin,
    fun hlast => (hquanta hlast).2, fun hlast i => ?_, fun hlast hreads b => ?_⟩
  · rw [List.mem_filter, decide_eq_true_iff, h.rest, passed_add_iff h.onStep.1, and_assoc]
    refine and_congr_right fun _ => and_iff_right_of_imp fun hno hp => hno ?_
    exact (passed_add_iff h.onStep.1).1 hp.add
  · simp only [hsteps]
    exact h.reads (hquanta hlast).1 i
  · simp only [hsteps]
    exact h.output (hquanta hlast).1 hreads b

omit [FloatArith D F] in
theorem held_of_not_offered (h : ¬x.Offered q) : x.held q = x.server.quantum q :=
  if_neg fun h' => h h'.1

omit [FloatArith D F] in
/-- The idle step at `m` is the only one at that time. -/
theorem exists_idle_iff {P : ℤ → Prop} (hidle : x.Idle m) :
    (∃ m', (x.Idle m' ∧ m' = m) ∧ P m') ↔ P m := by
  constructor
  · rintro ⟨m', ⟨-, rfl⟩, hP⟩
    exact hP
  · exact fun hP => ⟨m, ⟨hidle, rfl⟩, hP⟩

omit [FloatArith D F] in
include h in
/-- No bucket is passed at an idle step. -/
theorem Walked.passed_iff_of_idle (hidle : x.Idle m) (hoff : x.Offered p) :
    x.Passed (m + x.interval) p ↔ x.Passed m p :=
  ⟨fun hp => hidle.2 p hoff ((passed_add_iff h.onStep.1).1 hp), Passed.add⟩

section Idle

variable (hidle : x.Idle m) (hlast : st.file.header.lastBucket = x.server.header.lastBucket)

omit [FloatArith D F] in
include h hidle hlast in
theorem Walked.quanta_of_idle (hq : x.server.Retains q) : st.file.quantum q =
    if x.Passed (m + x.interval) q then x.held q else x.server.quantum q := by
  rw [h.quanta hlast q hq]
  by_cases hoff : x.Offered q
  · simp only [h.passed_iff_of_idle hidle hoff]
  · rw [held_of_not_offered hoff, ite_self, ite_self]

include h hx hlast in
theorem Walked.fileIndex_eq (now i : ℤ) :
    st.file.mapBucketIndexToFileIndex now i = x.server.mapBucketIndexToFileIndex 0 i :=
  StatFile.mapBucketIndexToFileIndex_congr hx.serverGauge.1 h.at_.shape hlast _ _ _

include h hx hidle hlast in
/-- The bucket that is read at an idle step is the one held for the quantum of the step. -/
theorem Walked.deref_of_idle (now : ℤ)
    (hlive : x.server.Live (x.server.shape.mapTimeToBucketIndex m false)) :
    (st.file.writableBucket now (x.server.shape.mapTimeToBucketIndex m false)).2.deref
        (st.file.writableBucket now (x.server.shape.mapTimeToBucketIndex m false)).1 =
      x.held (x.server.shape.placed m) := by
  have hin : st.file.isBucketIndexInFile now (x.server.shape.mapTimeToBucketIndex m false) =
      true := by
    apply StatFile.isBucketIndexInFile_of_live
    unfold StatFile.Live
    rw [h.at_.shape]
    exact hlast ▸ hlive
  have hret : x.server.Retains (x.server.shape.placed m) :=
    ⟨x.server.shape.dvd_placed _, by rwa [Shape.mapTimeToBucketIndex_placed]⟩
  have hq := h.quanta_of_idle hidle hlast hret
  rw [if_pos ((passed_add_iff h.onStep.1).2 (hx.interval ▸ x.server.shape.placed_lt m)),
    StatFile.quantum, h.at_.shape, Shape.mapTimeToBucketIndex_placed] at hq
  rw [StatFile.writableBucket_deref hin, hq]

end Idle

include h hx hw hm in
/-- **A step at which the server looks into its own file.** -/
theorem Walked.round_of_not_front (hfront : front (m + x.interval) st.rest = false) :
    x.Walked (m + x.interval) (st.round now (toUInt64 x.interval)) := by
  have hidle : x.Idle m := (h.idle_iff hx hw hm).2 hfront
  have hm0 : 0 ≤ m := hw.firstStep_nonneg.trans h.onStep.1
  have hm1 : m < 2 ^ 63 := by
    have := (hx.lastStep_bounds hw).2
    have := hx.serverFits.2
    omega
  have hround : st.round now (toUInt64 x.server.shape.cfgInterval) = _ :=
    h.at_.round_of_not_front hm0 hm1 (by rw [hx.interval]; exact hfront)
  have hat := h.at_round hx hw hm now
  rw [hx.interval] at hround
  rw [hround] at hat ⊢
  refine ⟨hat, h.onStep_add, h.sorted, fun b => ?_, h.window_le, ?_, fun hlast q hq => ?_,
    fun hlast i => ?_, fun hlast hreads b => ?_⟩
  · rw [h.rest]
    exact and_congr_right fun hb => not_congr (h.passed_iff_of_idle hidle hb.1).symm
  · refine h.window.trans (forall₂_congr fun p hoff => ?_)
    exact imp_congr_left (h.passed_iff_of_idle hidle hoff).symm
  · rw [← h.quanta_of_idle hidle hlast hq]
    unfold StatFile.quantum StatFile.bucketAt
    rw [StatFile.writableBucket_slot, StatFile.writableBucket_shape]
  · rw [List.mem_append, h.reads hlast, List.mem_singleton, h.fileIndex_eq hx hlast]
    simp only [idle_lt_add_iff h.onStep, or_and_right, exists_or]
    rw [exists_idle_iff hidle]
  · have hreads' : ∀ i ∈ st.reads, i ≠ -1 := fun i hi => hreads i (List.mem_append_left _ hi)
    have hlive : x.server.Live (x.server.shape.mapTimeToBucketIndex m false) := by
      have hne := hreads _ (List.mem_append_right _ (List.mem_singleton_self _))
      rw [h.fileIndex_eq hx hlast, mapBucketIndexToFileIndex_ne_iff,
        StatFile.isBucketIndexInFile_iff_live hx.serverGauge.1] at hne
      exact hne
    simp only [h.deref_of_idle hx hidle hlast now hlive, idle_lt_add_iff h.onStep, or_and_right,
      exists_or]
    rw [exists_idle_iff hidle, ← h.output hlast hreads' b]
    split_ifs with hcount
    · rw [List.mem_append, List.mem_singleton]
      exact or_congr_right ⟨fun hb => ⟨hb, hb ▸ hcount⟩, fun hb => hb.1⟩
    · rw [or_iff_left]
      rintro ⟨rfl, hne⟩
      exact hcount hne

include h hx hw hm in
/-- **One step.** -/
theorem Walked.round (now : ℤ) : x.Walked (m + x.interval) (st.round now (toUInt64 x.interval)) := by
  cases hfront : front (m + x.interval) st.rest with
  | true => exact h.round_of_front hx hw hm hfront
  | false => exact h.round_of_not_front hx hw hm hfront

end Round

end Transplant

end Istatd
