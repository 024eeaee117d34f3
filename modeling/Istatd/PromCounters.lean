import Istatd.PromExporter
import Istatd.Lib.SortedMap

/-!
# The books of the exporter for Prometheus

An exporter with a limit refuses a metric if it holds more than that many, and counts it as dropped.
The counters sum up their increments and start again with the one that would lead over `COUNT_MAX`;
they are removed if they are stale, and gauges if they are old.

The log of a run says what happened to each metric: it was accepted as a counter or as a gauge, or
rejected; and what was removed.  Here the arithmetic is exact.

* `Event`, `opEvents`: the log;
* `increments`, `sinceReset`, `rejections`, `heldGauges`: what the log says about the state;
* `Booked.storeAmetric`, `Booked.step`: the state is what the log says;
* `Bounded.step`: the limit is exceeded by two at most;
* `prom_conserves`: the two together, for every run.
-/

namespace Istatd

namespace PromExporter

open PromMetric (countMax)

/-! ### The log -/

/-- What happened to a metric: an increment of a counter was accepted, or a gauge, or it was
rejected; a counter was removed, or the gauges before a time. -/
inductive Event
  | accepted (ctr : Bytes) (val : ℚ)
  | gauge (m : PromMetric ℚ)
  | rejected
  | removed (ctr : Bytes)
  | cleaned (tlower : ℤ)

/-- The metric was accepted. -/
def Event.isAccepted : Event → Bool
  | .accepted _ _ => true
  | .gauge _ => true
  | _ => false

/-- The metric was rejected. -/
def Event.isRejected : Event → Bool
  | .rejected => true
  | _ => false

/-- What `storeAmetric` does with a metric. -/
def storeEvent (cfg : PromConfig) (s : PromExporter ℚ) (p : Bytes × PromMetric ℚ) : Event :=
  if s.maxCountReached cfg then .rejected
  else if p.2.type = .counter then .accepted p.1 p.2.value
  else .gauge p.2

/-- What happens to the metrics of a call. -/
def storeEvents (cfg : PromConfig) (now : ℤ) (s : PromExporter ℚ)
    (ps : List (Bytes × PromMetric ℚ)) : List Event :=
  Run.trace (storeAmetric cfg now) (fun s p => [storeEvent cfg s p]) s ps

/-- The counter is stale. -/
def Stale (now : ℤ) (c : Bytes × PromMetric ℚ) : Prop := c.2.time < now - staleCounterInterval

instance (now : ℤ) (c : Bytes × PromMetric ℚ) : Decidable (Stale now c) :=
  inferInstanceAs (Decidable (_ < _))

/-- The metrics that an operation stores. -/
def Op.metrics (cfg : PromConfig) (lex : LexicalCast ℚ) : Op ℚ → List (Bytes × PromMetric ℚ)
  | .command now cmd => commandMetrics cfg lex now cmd
  | .store _ ctr basename cnames time val => storedMetrics cfg ctr basename cnames time val
  | _ => []

/-- What an operation adds to the log. -/
def opEvents (cfg : PromConfig) (lex : LexicalCast ℚ) (s : PromExporter ℚ) : Op ℚ → List Event
  | .command now cmd => storeEvents cfg now s (commandMetrics cfg lex now cmd)
  | .store now ctr basename cnames time val =>
    storeEvents cfg now s (storedMetrics cfg ctr basename cnames time val)
  | .cleanup now => [.cleaned (now - cfg.cleanupInterval)]
  | .removeStale now => (s.counters.filter fun c => Stale now c).map fun c => .removed c.1
  | .dump => []

/-! ### What the log says -/

/-- An event, for the increments of a counter; that of what is dropped has one for every rejected
metric. -/
def Event.apply (ctr : Bytes) (vs : List ℚ) : Event → List ℚ
  | .accepted k v => if k = ctr then vs ++ [v] else vs
  | .rejected => if metricsDroppedCounter = ctr then vs ++ [1] else vs
  | .removed k => if k = ctr then [] else vs
  | _ => vs

/-- The increments of a counter since it was last created. -/
def increments (ctr : Bytes) (log : List Event) : List ℚ := log.foldl (Event.apply ctr) []

/-- Those since the last one that would have led over `COUNT_MAX`. -/
def sinceReset (vs : List ℚ) : List ℚ :=
  vs.foldl (fun kept v => if (countMax : ℚ) < kept.sum + v then [v] else kept ++ [v]) []

/-- An event, for the number of rejected metrics. -/
def Event.reject (n : ℕ) : Event → ℕ
  | .rejected => n + 1
  | .removed k => if k = metricsDroppedCounter then 0 else n
  | _ => n

/-- The metrics rejected since the counter of what is dropped was created. -/
def rejections (log : List Event) : ℕ := log.foldl Event.reject 0

/-- An event, for the gauges. -/
def Event.hold (gs : List (PromMetric ℚ)) : Event → List (PromMetric ℚ)
  | .gauge m => insertGauge m gs
  | .cleaned tlower => gs.dropWhile fun g => g.time < tlower
  | _ => gs

/-- The gauges that were accepted and not removed. -/
def heldGauges (log : List Event) : List (PromMetric ℚ) := log.foldl Event.hold []

theorem increments_concat (ctr : Bytes) (log : List Event) (e : Event) :
    increments ctr (log ++ [e]) = e.apply ctr (increments ctr log) := by
  rw [increments, List.foldl_append]
  rfl

theorem rejections_concat (log : List Event) (e : Event) :
    rejections (log ++ [e]) = e.reject (rejections log) := by
  rw [rejections, List.foldl_append]
  rfl

theorem heldGauges_concat (log : List Event) (e : Event) :
    heldGauges (log ++ [e]) = e.hold (heldGauges log) := by
  rw [heldGauges, List.foldl_append]
  rfl

theorem sum_sinceReset_concat (vs : List ℚ) (v : ℚ) :
    (sinceReset (vs ++ [v])).sum =
      if (countMax : ℚ) - v < (sinceReset vs).sum then v else (sinceReset vs).sum + v := by
  have hcond : (countMax : ℚ) < (sinceReset vs).sum + v ↔ (countMax : ℚ) - v < (sinceReset vs).sum :=
    sub_lt_iff_lt_add.symm
  have hfold : sinceReset (vs ++ [v]) =
      if (countMax : ℚ) < (sinceReset vs).sum + v then [v] else sinceReset vs ++ [v] := by
    rw [sinceReset, List.foldl_append]
    rfl
  rw [hfold]
  by_cases h : (countMax : ℚ) < (sinceReset vs).sum + v
  · rw [if_pos h, if_pos (hcond.1 h), List.sum_singleton]
  · rw [if_neg h, if_neg fun h' => h (hcond.2 h'), List.sum_append, List.sum_singleton]

/-- Up to `COUNT_MAX` metrics are counted exactly. -/
theorem sum_sinceReset_replicate {n : ℕ} (hn : n ≤ countMax) :
    (sinceReset (List.replicate n 1)).sum = n := by
  induction n with
  | zero => rfl
  | succ n ih =>
    rw [List.replicate_succ', sum_sinceReset_concat, ih (by omega), if_neg]
    · push_cast
      rfl
    · have : (n : ℚ) + 1 ≤ countMax := by exact_mod_cast hn
      linarith

/-- Counters that are removed. -/
theorem increments_removed (ctr : Bytes) (log : List Event) (cs : List (Bytes × PromMetric ℚ)) :
    increments ctr (log ++ cs.map fun c => .removed c.1) =
      if ctr ∈ cs.map Prod.fst then [] else increments ctr log := by
  induction cs using List.reverseRecOn with
  | nil => simp
  | append_singleton cs c ih =>
    rw [List.map_append, ← List.append_assoc, List.map_singleton, increments_concat, ih]
    unfold Event.apply
    by_cases h : c.1 = ctr
    · simp [h]
    · have hmem : ctr ∈ (cs ++ [c]).map Prod.fst ↔ ctr ∈ cs.map Prod.fst := by
        rw [List.map_append, List.mem_append, List.map_singleton, List.mem_singleton]
        exact or_iff_left fun hc => h hc.symm
      simp only [if_neg h, hmem]

theorem heldGauges_removed (log : List Event) (cs : List (Bytes × PromMetric ℚ)) :
    heldGauges (log ++ cs.map fun c => .removed c.1) = heldGauges log := by
  induction cs using List.reverseRecOn with
  | nil => simp
  | append_singleton cs c ih =>
    rw [List.map_append, ← List.append_assoc, List.map_singleton, heldGauges_concat, ih]
    rfl

/-- If no client uses the name, the increments of the counter of what is dropped are its
rejections. -/
theorem increments_dropped (log : List Event)
    (h : ∀ v, .accepted metricsDroppedCounter v ∉ log) :
    increments metricsDroppedCounter log = List.replicate (rejections log) 1 := by
  induction log using List.reverseRecOn with
  | nil => rfl
  | append_singleton log e ih =>
    have ih := ih fun v hv => h v (List.mem_append_left _ hv)
    rw [increments_concat, rejections_concat, ih]
    cases e with
    | accepted k v =>
      have hk : k ≠ metricsDroppedCounter := by
        rintro rfl
        exact h v (by simp)
      exact if_neg hk
    | gauge m => rfl
    | rejected =>
      rw [Event.apply, Event.reject, if_pos rfl, List.replicate_succ']
    | removed k =>
      rw [Event.apply, Event.reject]
      split_ifs <;> rfl
    | cleaned tlower => rfl

/-! ### The counters by their keys -/

section Lookup

variable {s : PromExporter ℚ} {ctr k : Bytes} {m : PromMetric ℚ}

/-- **The counters after `insertCounter`.** -/
theorem lookup_insertCounter :
    (s.insertCounter ctr m).counters.lookup k =
      if k = ctr then some (((s.counters.lookup ctr).map (·.accumulate m)).getD m)
      else s.counters.lookup k := by
  unfold insertCounter
  cases h : s.counters.lookup ctr with
  | none =>
    simp only [List.lookup_append, SortedMap.lookup_cons_eq, List.lookup_nil]
    by_cases hk : k = ctr
    · simp [hk, h]
    · simp [hk]
  | some c =>
    have hupdate := SortedMap.lookup_update (l := s.counters) (k := ctr) (q := k) (·.accumulate m)
    rw [h] at hupdate
    exact hupdate

theorem accumulate_type (m o : PromMetric ℚ) : (m.accumulate o).type = m.type := by
  unfold PromMetric.accumulate
  split_ifs <;> rfl

theorem accumulate_value {m : PromMetric ℚ} (hm : m.type = .counter) (o : PromMetric ℚ) :
    (m.accumulate o).value =
      if (countMax : ℚ) - o.value < m.value then o.value else m.value + o.value := by
  rw [PromMetric.accumulate, if_pos hm]

theorem insertCounter_keys (s : PromExporter ℚ) (ctr : Bytes) (m : PromMetric ℚ) :
    (s.insertCounter ctr m).counters.map Prod.fst =
      s.counters.map Prod.fst ++ if (s.counters.lookup ctr).isSome then [] else [ctr] := by
  unfold insertCounter
  cases h : s.counters.lookup ctr with
  | none => simp
  | some c =>
    simp only [List.map_map, Option.isSome_some, if_true, List.append_nil]
    refine List.map_congr_left fun c _ => ?_
    simp only [Function.comp_apply]
    split_ifs <;> rfl

end Lookup

/-! ### The state is what the log says -/

/-- What the log says about a counter: nothing if there were no increments, else its value. -/
def account (ctr : Bytes) (log : List Event) : Option ℚ :=
  if increments ctr log = [] then none else some (sinceReset (increments ctr log)).sum

theorem sum_of_account {ctr : Bytes} {log : List Event} {x : ℚ} (h : account ctr log = some x) :
    x = (sinceReset (increments ctr log)).sum := by
  unfold account at h
  split_ifs at h
  exact (Option.some.inj h).symm

theorem isSome_account_iff {ctr : Bytes} {log : List Event} :
    (account ctr log).isSome = true ↔ increments ctr log ≠ [] := by
  unfold account
  split_ifs with h
  · simp [h]
  · simp [h]

/-- The counters and gauges are those of the log. -/
structure Booked (s : PromExporter ℚ) (log : List Event) : Prop where
  keys : (s.counters.map Prod.fst).Nodup
  type : ∀ ctr m, s.counters.lookup ctr = some m → m.type = .counter
  value : ∀ ctr, (s.counters.lookup ctr).map PromMetric.value = account ctr log
  gauges : s.gauges = heldGauges log

section Booked

variable {cfg : PromConfig} {lex : LexicalCast ℚ} {s : PromExporter ℚ} {log : List Event}

theorem Booked.empty : Booked empty [] := ⟨List.nodup_nil, nofun, fun _ => rfl, rfl⟩

theorem account_concat (ctr : Bytes) (log : List Event) (v : ℚ) {e : Event}
    (he : increments ctr (log ++ [e]) = increments ctr log ++ [v]) :
    account ctr (log ++ [e]) = some (match account ctr log with
      | none => v
      | some x => if (countMax : ℚ) - v < x then v else x + v) := by
  unfold account
  rw [he, if_neg (by simp), sum_sinceReset_concat]
  by_cases h : increments ctr log = []
  · rw [if_pos h, h]
    show some (if (countMax : ℚ) - v < 0 then v else 0 + v) = some v
    simp
  · rw [if_neg h]

/-- An increment of a counter. -/
theorem Booked.insertCounter (h : Booked s log) {ctr : Bytes} {m : PromMetric ℚ} {e : Event}
    (htype : m.type = .counter)
    (he : ∀ k, increments k (log ++ [e]) =
      if k = ctr then increments k log ++ [m.value] else increments k log)
    (hhold : heldGauges (log ++ [e]) = heldGauges log) :
    Booked (s.insertCounter ctr m) (log ++ [e]) where
  keys := by
    rw [insertCounter_keys]
    by_cases hheld : (s.counters.lookup ctr).isSome = true
    · rw [if_pos hheld, List.append_nil]
      exact h.keys
    · rw [if_neg hheld, ← List.concat_eq_append]
      exact h.keys.concat fun hmem => hheld (SortedMap.lookup_isSome_iff.2 hmem)
  type k m' := by
    rw [lookup_insertCounter]
    split_ifs with hk
    · intro hm
      cases hheld : s.counters.lookup ctr with
      | none =>
        rw [hheld] at hm
        cases hm
        exact htype
      | some c =>
        rw [hheld] at hm
        cases hm
        exact (accumulate_type c m).trans (h.type ctr c hheld)
    · exact h.type k m'
  value k := by
    rw [lookup_insertCounter]
    by_cases hk : k = ctr
    · subst hk
      have hinc := he k
      rw [if_pos rfl] at hinc
      rw [if_pos rfl, account_concat k log m.value hinc, ← h.value k]
      cases hheld : s.counters.lookup k with
      | none => rfl
      | some c => exact congrArg some (accumulate_value (h.type k c hheld) m)
    · rw [if_neg hk, h.value k, account, account, he k, if_neg hk]
  gauges := by
    rw [insertCounter_gauges, hhold]
    exact h.gauges

/-- **One metric**: the log says what became of it. -/
theorem Booked.storeAmetric (h : Booked s log) (now : ℤ) (p : Bytes × PromMetric ℚ) :
    Booked (s.storeAmetric cfg now p) (log ++ [storeEvent cfg s p]) := by
  unfold PromExporter.storeAmetric storeEvent
  by_cases hmax : s.maxCountReached cfg = true
  · rw [if_pos hmax, if_pos hmax]
    refine h.insertCounter rfl (fun k => ?_) (heldGauges_concat log _)
    have hvalue : (droppedMetric cfg now : PromMetric ℚ).value = 1 := Nat.cast_one
    rw [increments_concat, Event.apply, hvalue]
    exact if_congr eq_comm rfl rfl
  rw [if_neg hmax, if_neg hmax]
  by_cases htype : p.2.type = .counter
  · rw [if_pos htype, if_pos htype]
    refine h.insertCounter htype (fun k => ?_) (heldGauges_concat log _)
    rw [increments_concat, Event.apply]
    exact if_congr eq_comm rfl rfl
  · rw [if_neg htype, if_neg htype]
    refine ⟨h.keys, h.type, fun ctr => ?_, ?_⟩
    · rw [account, increments_concat]
      exact h.value ctr
    · rw [heldGauges_concat, ← h.gauges]
      rfl

theorem Booked.foldl (h : Booked s log) (now : ℤ) (ps : List (Bytes × PromMetric ℚ)) :
    Booked (ps.foldl (PromExporter.storeAmetric cfg now) s) (log ++ storeEvents cfg now s ps) :=
  Run.invariant_trace (I := Booked) (fun p _ _ _ h => h.storeAmetric now p) h

/-- Stale counters are removed. -/
theorem Booked.onRemoveStaleCounter (h : Booked s log) (now : ℤ) :
    Booked (s.onRemoveStaleCounter now)
      (log ++ (s.counters.filter fun c => Stale now c).map fun c => .removed c.1) := by
  have hlookup : ∀ ctr, (s.onRemoveStaleCounter now).counters.lookup ctr =
      (s.counters.lookup ctr).filter fun m => ¬ m.time < now - staleCounterInterval :=
    fun ctr => SortedMap.lookup_filter h.keys fun m => ¬ m.time < now - staleCounterInterval
  refine ⟨h.keys.sublist (List.filter_sublist.map _), fun ctr m hm => ?_, fun ctr => ?_, ?_⟩
  · rw [hlookup] at hm
    exact h.type ctr m (Option.filter_eq_some_iff.1 hm).1
  · have hmem : ctr ∈ (s.counters.filter fun c => Stale now c).map Prod.fst ↔
        ((s.counters.lookup ctr).filter fun m => m.time < now - staleCounterInterval).isSome := by
      rw [← SortedMap.lookup_isSome_iff]
      exact iff_of_eq (congrArg (fun o => Option.isSome o = true)
        (SortedMap.lookup_filter h.keys fun m => m.time < now - staleCounterInterval))
    have hvalue := h.value ctr
    rw [hlookup, account, increments_removed]
    simp only [hmem]
    generalize now - staleCounterInterval = tlower
    cases hheld : s.counters.lookup ctr with
    | none =>
      rw [hheld] at hvalue
      simpa [account] using hvalue
    | some m =>
      rw [hheld] at hvalue
      by_cases hstale : m.time < tlower
      · simp [Option.filter_some, hstale]
      · have hkept : (some m).filter (fun m => ¬ m.time < tlower) = some m := by
          simp [Option.filter_some, not_lt.1 hstale]
        have hnone : (some m).filter (fun m => m.time < tlower) = none := by
          simp [Option.filter_some, hstale]
        rw [hkept, hnone, if_neg (show ¬ Option.isSome none = true by simp)]
        exact hvalue
  · rw [heldGauges_removed]
    exact h.gauges

/-- **Every operation**: the state after it is what the log says. -/
theorem Booked.step (h : Booked s log) (op : Op ℚ) :
    Booked (s.step cfg lex op) (log ++ opEvents cfg lex s op) := by
  cases op with
  | command now cmd => exact h.foldl now _
  | store now ctr basename cnames time val => exact h.foldl now _
  | cleanup now =>
    refine ⟨h.keys, h.type, fun ctr => ?_, ?_⟩
    · rw [opEvents, account, increments_concat]
      exact h.value ctr
    · rw [opEvents, heldGauges_concat, ← h.gauges]
      rfl
  | removeStale now => exact h.onRemoveStaleCounter now
  | dump =>
    rw [opEvents, List.append_nil]
    exact h

end Booked

/-! ### The limit -/

/-- The limit is exceeded by one, and by one more for the counter of what is dropped. -/
def Bounded (cfg : PromConfig) (s : PromExporter ℚ) : Prop :=
  s.gauges.length + s.counters.length ≤ cfg.maxMetricCount + 1 +
    if (s.counters.lookup metricsDroppedCounter).isSome then 1 else 0

section Bounded

variable {cfg : PromConfig} {lex : LexicalCast ℚ} {s : PromExporter ℚ}

theorem length_insertGauge (m : PromMetric ℚ) (gs : List (PromMetric ℚ)) :
    (insertGauge m gs).length = gs.length + 1 := by
  induction gs with
  | nil => rfl
  | cons g gs ih =>
    unfold insertGauge
    split_ifs
    · rfl
    · rw [List.length_cons, ih, List.length_cons]

theorem length_insertCounter (ctr : Bytes) (m : PromMetric ℚ) :
    (s.insertCounter ctr m).counters.length =
      s.counters.length + if (s.counters.lookup ctr).isSome then 0 else 1 := by
  have h := congrArg List.length (s.insertCounter_keys ctr m)
  rw [List.length_map, List.length_append, List.length_map] at h
  rw [h]
  split_ifs <;> rfl

theorem Bounded.storeAmetric (hmax : 0 < cfg.maxMetricCount) (h : Bounded cfg s) (now : ℤ)
    (p : Bytes × PromMetric ℚ) : Bounded cfg (s.storeAmetric cfg now p) := by
  unfold Bounded at h ⊢
  unfold PromExporter.storeAmetric
  by_cases hreached : s.maxCountReached cfg = true
  · -- the counter of what is dropped is there afterwards
    rw [if_pos hreached, insertCounter_gauges, length_insertCounter, lookup_insertCounter,
      if_pos rfl]
    simp only [Option.isSome_some, if_true]
    split_ifs at h ⊢ <;> omega
  · have hle : s.gauges.length + s.counters.length ≤ cfg.maxMetricCount := by
      unfold maxCountReached at hreached
      simp only [decide_eq_true_eq] at hreached
      omega
    rw [if_neg hreached]
    by_cases htype : p.2.type = .counter
    · rw [if_pos htype, insertCounter_gauges, length_insertCounter]
      split_ifs <;> omega
    · rw [if_neg htype]
      simp only [length_insertGauge]
      omega

theorem Bounded.foldl (hmax : 0 < cfg.maxMetricCount) (h : Bounded cfg s) (now : ℤ)
    (ps : List (Bytes × PromMetric ℚ)) :
    Bounded cfg (ps.foldl (PromExporter.storeAmetric cfg now) s) :=
  Run.invariant (fun _ p h => h.storeAmetric hmax now p) h ps

theorem Bounded.onRemoveStaleCounter (h : Bounded cfg s) (now : ℤ) :
    Bounded cfg (s.onRemoveStaleCounter now) := by
  have hsub : (s.onRemoveStaleCounter now).counters.Sublist s.counters := List.filter_sublist
  have hlength := hsub.length_le
  unfold Bounded at h ⊢
  rw [show (s.onRemoveStaleCounter now).gauges = s.gauges from rfl]
  by_cases hafter :
      ((s.onRemoveStaleCounter now).counters.lookup metricsDroppedCounter).isSome = true
  · have hbefore : (s.counters.lookup metricsDroppedCounter).isSome = true :=
      SortedMap.lookup_isSome_iff.2 ((hsub.map _).subset (SortedMap.lookup_isSome_iff.1 hafter))
    rw [if_pos hafter]
    rw [if_pos hbefore] at h
    omega
  · rw [if_neg hafter]
    split_ifs at h with hbefore
    · -- the counter of what is dropped was removed
      obtain ⟨c, hc, hctr⟩ := List.mem_map.1 (SortedMap.lookup_isSome_iff.1 hbefore)
      have hlt : (s.onRemoveStaleCounter now).counters.length < s.counters.length := by
        refine List.length_filter_lt_length_iff_exists.2 ⟨c, hc, fun hkept => hafter ?_⟩
        exact SortedMap.lookup_isSome_iff.2
          (List.mem_map.2 ⟨c, List.mem_filter.2 ⟨hc, hkept⟩, hctr⟩)
      omega
    · omega

theorem Bounded.step (hmax : 0 < cfg.maxMetricCount) (h : Bounded cfg s) (op : Op ℚ) :
    Bounded cfg (s.step cfg lex op) := by
  cases op with
  | command now cmd => exact h.foldl hmax now _
  | store now ctr basename cnames time val => exact h.foldl hmax now _
  | cleanup now =>
    refine le_trans (Nat.add_le_add_right ?_ _) h
    exact (List.dropWhile_suffix _).length_le
  | removeStale now => exact h.onRemoveStaleCounter now
  | dump => exact h

end Bounded

/-! ### Every metric is in the log -/

section Counting

variable (cfg : PromConfig) (lex : LexicalCast ℚ)

theorem storeEvents_count (now : ℤ) (s : PromExporter ℚ) (ps : List (Bytes × PromMetric ℚ)) :
    (storeEvents cfg now s ps).countP Event.isAccepted +
      (storeEvents cfg now s ps).countP Event.isRejected = ps.length := by
  induction ps generalizing s with
  | nil => rfl
  | cons p ps ih =>
    have ih := ih (s.storeAmetric cfg now p)
    have hone : [storeEvent cfg s p].countP Event.isAccepted +
        [storeEvent cfg s p].countP Event.isRejected = 1 := by
      unfold storeEvent
      split_ifs <;> rfl
    unfold storeEvents at ih ⊢
    rw [Run.trace, List.countP_append, List.countP_append, List.length_cons]
    omega

theorem accepted_mem_storeEvents {now : ℤ} {s : PromExporter ℚ}
    {ps : List (Bytes × PromMetric ℚ)} {ctr : Bytes} {v : ℚ}
    (h : .accepted ctr v ∈ storeEvents cfg now s ps) : ∃ p ∈ ps, p.1 = ctr := by
  induction ps generalizing s with
  | nil => cases h
  | cons p ps ih =>
    unfold storeEvents at h ih
    rw [Run.trace] at h
    rcases List.mem_append.1 h with h | h
    · refine ⟨p, List.mem_cons_self, ?_⟩
      have heq := List.mem_singleton.1 h
      unfold storeEvent at heq
      split_ifs at heq
      exact (Event.accepted.inj heq).1.symm
    · obtain ⟨q, hq, hctr⟩ := ih h
      exact ⟨q, List.mem_cons_of_mem p hq, hctr⟩

theorem opEvents_count (s : PromExporter ℚ) (op : Op ℚ) :
    (opEvents cfg lex s op).countP Event.isAccepted +
      (opEvents cfg lex s op).countP Event.isRejected = (op.metrics cfg lex).length := by
  cases op with
  | command now cmd => exact storeEvents_count cfg now s _
  | store now ctr basename cnames time val => exact storeEvents_count cfg now s _
  | cleanup now => rfl
  | removeStale now =>
    have hnone : ∀ (cs : List (Bytes × PromMetric ℚ)) (f : Event → Bool),
        (∀ ctr, f (.removed ctr) = false) → (cs.map fun c => Event.removed c.1).countP f = 0 := by
      intro cs f hf
      refine List.countP_eq_zero.2 fun e he => ?_
      obtain ⟨c, -, rfl⟩ := List.mem_map.1 he
      simp [hf]
    rw [opEvents, hnone _ _ fun _ => rfl, hnone _ _ fun _ => rfl]
    rfl
  | dump => rfl

theorem accepted_mem_opEvents {s : PromExporter ℚ} {op : Op ℚ} {ctr : Bytes} {v : ℚ}
    (h : .accepted ctr v ∈ opEvents cfg lex s op) : ∃ p ∈ op.metrics cfg lex, p.1 = ctr := by
  cases op with
  | command now cmd => exact accepted_mem_storeEvents cfg h
  | store now ctr basename cnames time val => exact accepted_mem_storeEvents cfg h
  | cleanup now => simp [opEvents] at h
  | removeStale now => simp [opEvents] at h
  | dump => cases h

/-- Every metric of a run was accepted or rejected. -/
theorem trace_count (s : PromExporter ℚ) (ops : List (Op ℚ)) :
    (Run.trace (step cfg lex) (opEvents cfg lex) s ops).countP Event.isAccepted +
      (Run.trace (step cfg lex) (opEvents cfg lex) s ops).countP Event.isRejected =
        (ops.map fun op => (op.metrics cfg lex).length).sum := by
  induction ops generalizing s with
  | nil => rfl
  | cons op ops ih =>
    have ih := ih (s.step cfg lex op)
    have hop := opEvents_count cfg lex s op
    rw [Run.trace, List.countP_append, List.countP_append, List.map_cons, List.sum_cons]
    omega

/-- **The books of an exporter**, for every run from an empty one in which no client uses the name
of the counter of what is dropped: the value of a counter is the sum of the increments that were
accepted since it was created or reset, and that of what is dropped the number of the rejected
metrics; every metric was accepted or rejected, and what was accepted is held until it is removed;
and the limit is exceeded by two at most. -/
theorem prom_conserves (ops : List (Op ℚ)) (hmax : 0 < cfg.maxMetricCount)
    (hclients : ∀ op ∈ ops, ∀ p ∈ op.metrics cfg lex, p.1 ≠ metricsDroppedCounter) :
    let s := ops.foldl (step cfg lex) empty
    let log := Run.trace (step cfg lex) (opEvents cfg lex) empty ops
    (∀ ctr m, s.counters.lookup ctr = some m → m.value = (sinceReset (increments ctr log)).sum) ∧
    (rejections log ≤ countMax →
      ((s.counters.lookup metricsDroppedCounter).map PromMetric.value).getD 0 = rejections log) ∧
    (log.countP Event.isAccepted + log.countP Event.isRejected =
        (ops.map fun op => (op.metrics cfg lex).length).sum ∧
      s.gauges = heldGauges log ∧
      ∀ ctr, (s.counters.lookup ctr).isSome ↔ increments ctr log ≠ []) ∧
    s.gauges.length + s.counters.length ≤ cfg.maxMetricCount + 2 := by
  intro s log
  obtain ⟨hbooked, hunused⟩ : Booked s log ∧ ∀ v, .accepted metricsDroppedCounter v ∉ log := by
    refine Run.invariant_trace (t := [])
      (I := fun s log => Booked s log ∧ ∀ v, .accepted metricsDroppedCounter v ∉ log)
      (fun op hop s log h => ⟨h.1.step op, fun v hv => ?_⟩) ⟨Booked.empty, nofun⟩
    rcases List.mem_append.1 hv with hv | hv
    · exact h.2 v hv
    · obtain ⟨p, hp, hctr⟩ := accepted_mem_opEvents cfg lex hv
      exact hclients op hop p hp hctr
  have hempty : Bounded cfg empty := Nat.zero_le _
  have hbounded : Bounded cfg s := Run.invariant (fun _ op h => h.step hmax op) hempty ops
  refine ⟨fun ctr m hm => ?_, fun hle => ?_, ⟨trace_count cfg lex empty ops, hbooked.gauges,
    fun ctr => ?_⟩, ?_⟩
  · have hvalue := hbooked.value ctr
    rw [hm] at hvalue
    exact sum_of_account hvalue.symm
  · rw [hbooked.value, account, increments_dropped log hunused]
    by_cases hzero : rejections log = 0
    · rw [hzero]
      rfl
    · rw [if_neg (by simpa using hzero)]
      exact sum_sinceReset_replicate hle
  · rw [← isSome_account_iff, ← hbooked.value ctr, Option.isSome_map]
  · unfold Bounded at hbounded
    split_ifs at hbounded <;> omega

end Counting

/-- Two counters and two gauges. -/
def sampleStores : List (Op ℚ) :=
  [.command 1000 (bytes "*a 5"), .command 1000 (bytes "b 1"), .command 1001 (bytes "c 2"),
    .command 1002 (bytes "*d 7")]

/-- Four metrics and a limit of one: the last two are dropped. -/
theorem prom_conserves_limit :
    (∀ op ∈ sampleStores, ∀ p ∈ op.metrics (sampleConfig 1) sampleCast,
        p.1 ≠ metricsDroppedCounter) ∧
      rejections (Run.trace (step (sampleConfig 1) sampleCast)
        (opEvents (sampleConfig 1) sampleCast) empty sampleStores) = 2 ∧
      (((sampleStores.foldl (step (sampleConfig 1) sampleCast) empty).counters.lookup
        metricsDroppedCounter).map PromMetric.value).getD 0 = 2 := by
  have hclients : ∀ op ∈ sampleStores, ∀ p ∈ op.metrics (sampleConfig 1) sampleCast,
      p.1 ≠ metricsDroppedCounter := by decide +kernel
  have hrejections : rejections (Run.trace (step (sampleConfig 1) sampleCast)
      (opEvents (sampleConfig 1) sampleCast) empty sampleStores) = 2 := by decide +kernel
  refine ⟨hclients, hrejections, ?_⟩
  have h := (prom_conserves (sampleConfig 1) sampleCast sampleStores (by decide) hclients).2.1
  rw [hrejections] at h
  exact h (by decide)

end PromExporter

end Istatd
