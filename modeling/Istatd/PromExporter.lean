import Istatd.CounterCommand
import Istatd.Lib.Run

/-!
# The exporter for Prometheus (`PromExporter`, `RequestInFlight::createPromResponse`)

An exporter keeps the gauges in a multimap from times and the counters in a map from the names they
were sent with; a scrape writes all of them.  A counter is written with a line for its type, a gauge
with one if it is the first of its name.  The names are munged, so that different names of a client
may become the same, or empty.

A scrape is modelled by its lines.  The counters are kept in the order in which they were created:
the order in an `unordered_map` is not defined, and nothing here depends on it.

* `PromExporter.step`: commands, cleanups, removals and scrapes;
* `validName_promMunge_iff`: when a munged name is a name of Prometheus;
* `wellFormed_scrape_iff`: when a scrape has one type for each name, and only such names;
* `scrapes_wellFormed_iff`: in which runs all scrapes are well formed.
-/

namespace Istatd

/-! ### Names -/

/-- `prom_munge_char`. -/
def promMungeChar (ch : UInt8) : UInt8 :=
  if ¬ (byte 'a' ≤ ch ∧ ch ≤ byte 'z' ∨ byte 'A' ≤ ch ∧ ch ≤ byte 'Z' ∨ ch = byte '_' ∨
      byte '0' ≤ ch ∧ ch ≤ byte '9') then byte '_'
  else toLower ch

/-- `prom_munge`. -/
def promMunge (key : Bytes) : Bytes :=
  match key.map promMungeChar with
  | [] => []
  | ch :: rest =>
    if byte '0' ≤ ch ∧ ch ≤ byte '9' then byte '_' :: ch :: rest else ch :: rest

/-- `prom_munge_or_munge`. -/
def promMungeOrMunge (s : Bytes) (doPromMunge : Bool) : Bytes :=
  if doPromMunge then promMunge s else munge s

/-- The first character of a name of Prometheus. -/
def NameStart (ch : UInt8) : Prop :=
  byte 'a' ≤ ch ∧ ch ≤ byte 'z' ∨ byte 'A' ≤ ch ∧ ch ≤ byte 'Z' ∨ ch = byte '_' ∨ ch = byte ':'

/-- The other characters. -/
def NameChar (ch : UInt8) : Prop := NameStart ch ∨ byte '0' ≤ ch ∧ ch ≤ byte '9'

/-- The name matches `[a-zA-Z_:][a-zA-Z0-9_:]*`. -/
def ValidName : Bytes → Prop
  | [] => False
  | ch :: rest => NameStart ch ∧ ∀ c ∈ rest, NameChar c

theorem nameChar_promMungeChar (ch : UInt8) : NameChar (promMungeChar ch) := by
  unfold promMungeChar
  split_ifs with h
  · unfold toLower
    by_cases hupper : byte 'A' ≤ ch ∧ ch ≤ byte 'Z'
    · have h1 : 65 ≤ ch.toNat := hupper.1
      have h2 : ch.toNat ≤ 90 := hupper.2
      have hadd : (ch + 32).toNat = ch.toNat + 32 := by
        rw [UInt8.toNat_add]
        exact Nat.mod_eq_of_lt (by simp; omega)
      rw [if_pos hupper]
      refine Or.inl (Or.inl ⟨?_, ?_⟩)
      · show 97 ≤ (ch + 32).toNat
        omega
      · show (ch + 32).toNat ≤ 122
        omega
    · rw [if_neg hupper]
      rcases h with h | h | h | h
      · exact Or.inl (Or.inl h)
      · exact absurd h hupper
      · exact Or.inl (Or.inr (Or.inr (Or.inl h)))
      · exact Or.inr h
  · exact Or.inl (Or.inr (Or.inr (Or.inl rfl)))

/-- **A munged name is valid** unless it is empty. -/
theorem validName_promMunge_iff (key : Bytes) : ValidName (promMunge key) ↔ promMunge key ≠ [] := by
  have hchars : ∀ c ∈ key.map promMungeChar, NameChar c := by
    intro c hc
    obtain ⟨d, -, rfl⟩ := List.mem_map.1 hc
    exact nameChar_promMungeChar d
  unfold promMunge
  cases hkey : key.map promMungeChar with
  | nil => simp [ValidName]
  | cons ch rest =>
    rw [hkey] at hchars
    obtain ⟨hch, hrest⟩ := List.forall_mem_cons.1 hchars
    simp only
    by_cases hdigit : byte '0' ≤ ch ∧ ch ≤ byte '9'
    · rw [if_pos hdigit]
      exact iff_of_true ⟨Or.inr (Or.inr (Or.inl rfl)), hchars⟩ (List.cons_ne_nil _ _)
    · rw [if_neg hdigit]
      exact iff_of_true ⟨hch.resolve_right hdigit, hrest⟩ (List.cons_ne_nil _ _)

/-! ### Metrics -/

/-- `PromMetric::MetricType`. -/
inductive MetricType
  | gauge
  | counter
  | unknown
  deriving DecidableEq

/-- The tags of a metric, in groups. -/
abbrev PromTags := List (List (Bytes × Bytes))

/-- `PromMetric`. -/
structure PromMetric (D : Type) where
  type : MetricType
  time : ℤ
  value : D
  name : Bytes
  counterUpdated : Bool
  tags : PromTags

/-- A line of a scrape: the type of a name, or a sample with its labels. -/
inductive PromLine (D : Type)
  | type (name : Bytes) (type : MetricType)
  | sample (name : Bytes) (labels : List (Bytes × Bytes)) (value : D) (milliseconds : ℤ)

/-- The name in a line. -/
def PromLine.name {D : Type} : PromLine D → Bytes
  | .type name _ => name
  | .sample name _ _ _ => name

/-- The name whose type a line gives. -/
def PromLine.typed {D : Type} : PromLine D → Option Bytes
  | .type name _ => some name
  | .sample _ _ _ _ => none

namespace PromMetric

variable {D : Type}

/-- The constructors of `PromMetric`, with `init`. -/
def make (ctr : Bytes) (tags : PromTags) (time : ℤ) (val : D) (translateName : Bool) :
    PromMetric D where
  type := if ctr.head? = some (byte '*') then .counter else .gauge
  time := time
  value := val
  name := promMungeOrMunge (if ctr.head? = some (byte '*') then ctr.drop 1 else ctr) translateName
  counterUpdated := true
  tags := tags

/-- `timestampMilliseconds`; a counter has the time of the scrape, to five seconds. -/
def timestampMilliseconds (m : PromMetric D) (now : ℤ) : ℤ :=
  if m.type = .counter then now.tdiv 5 * 5 * 1000 else m.time * 1000

/-- `typeString`. -/
def typeLine (m : PromMetric D) : PromLine D := .type m.name m.type

/-- `toString`: a line for each group of tags, or one. -/
def samples (m : PromMetric D) (now : ℤ) : List (PromLine D) :=
  let label := if m.type = .counter then [(bytes "counter", bytes "1")] else []
  (if m.tags.isEmpty then [[]] else m.tags).map fun group =>
    .sample m.name (group ++ label) m.value (m.timestampMilliseconds now)

variable [Add D] [Sub D] [NatCast D] [LT D] [DecidableLT D]

/-- `COUNT_MAX`. -/
def countMax : ℕ := 0xffffffff

/-- `accumulate`. -/
def accumulate (m o : PromMetric D) : PromMetric D :=
  if m.type = .counter then
    { m with
      value := if (countMax : D) - o.value < m.value then o.value else m.value + o.value
      time := if m.time < o.time then o.time else m.time
      counterUpdated := true }
  else m

end PromMetric

/-! ### Tags -/

/-- The settings of an exporter. -/
structure PromConfig where
  cleanupInterval : ℤ
  extraAllowedTags : List Bytes
  mapMetricName : Bool
  maxMetricCount : ℕ
  hostname : Bytes

namespace PromConfig

variable (cfg : PromConfig)

/-- `agent_tags_`. -/
def agentTags : PromTags := [[(bytes "host", promMungeOrMunge cfg.hostname cfg.mapMetricName)]]

/-- `allowed_tags_`. -/
def allowedTags : List Bytes :=
  [bytes "host", bytes "role", bytes "class", bytes "pool", bytes "cluster"]

/-- `get_tag_pos`, with at most some calls; the start of each is behind the one before. -/
def getTagPos (suffix : Bytes) : ℕ → ℕ → Option ℕ
  | 0, _ => none
  | fuel + 1, start =>
    match findFirstOf suffix (byte '.') start with
    | none => none
    | some pos =>
      if pos + 1 < suffix.length then
        let candidate := (suffix.drop 1).take (pos - 1)
        if candidate ∈ allowedTags ∨ candidate ∈ cfg.extraAllowedTags then some pos
        else getTagPos suffix fuel (pos + 1)
      else none

/-- The loop over the groups: the first one without the tag gets it, or a new one. -/
def addTag (tname tvalue : Bytes) : PromTags → PromTags
  | [] => [[(tname, tvalue)]]
  | group :: rest =>
    if (group.lookup tname).isNone then (group ++ [(tname, tvalue)]) :: rest
    else group :: addTag tname tvalue rest

/-- The body of the loop of `extract_tags`. -/
def extractTag (base : Bytes) (acc : PromTags × List Bytes) (name : Bytes) :
    PromTags × List Bytes :=
  if name.length < base.length ∨ name.take base.length ≠ base ∨
      base.length < name.length ∧ name[base.length]? ≠ some (byte '.') then acc
  else if base.length < name.length then
    let maybeTag := name.drop base.length
    match cfg.getTagPos maybeTag maybeTag.length 1 with
    | some pos =>
      let tname := promMungeOrMunge ((maybeTag.drop 1).take (pos - 1)) cfg.mapMetricName
      (addTag tname (maybeTag.drop (pos + 1)) acc.1, acc.2)
    | none => (acc.1, acc.2 ++ [name])
  else (acc.1, acc.2 ++ [name])

/-- `extract_tags`. -/
def extractTags (base : Bytes) (cnames : List Bytes) : PromTags × List Bytes :=
  if base.length ≠ 0 then cnames.foldl (cfg.extractTag base) ([], []) else ([], cnames)

end PromConfig

/-! ### The exporter -/

/-- The gauges, in the order of their times, and the counters. -/
structure PromExporter (D : Type) where
  gauges : List (PromMetric D)
  counters : List (Bytes × PromMetric D)

/-- `metrics_dropped_counter`. -/
def metricsDroppedCounter : Bytes := bytes "*istatd.agent.dropped.metrics"

/-- `STALE_COUNTER_INTERVAL_SECOND`. -/
def staleCounterInterval : ℤ := 86400

namespace PromExporter

variable {D : Type}

/-- `max_count_reached`. -/
def maxCountReached (cfg : PromConfig) (s : PromExporter D) : Bool :=
  0 < cfg.maxMetricCount ∧ cfg.maxMetricCount < s.gauges.length + s.counters.length

/-- `data_gauges_.insert`: behind the gauges of the same time. -/
def insertGauge (m : PromMetric D) : List (PromMetric D) → List (PromMetric D)
  | [] => [m]
  | g :: rest => if m.time < g.time then m :: g :: rest else g :: insertGauge m rest

/-- `onCleanup`. -/
def onCleanup (cfg : PromConfig) (now : ℤ) (s : PromExporter D) : PromExporter D :=
  { s with gauges := s.gauges.dropWhile fun g => g.time < now - cfg.cleanupInterval }

/-- `onRemoveStaleCounter`. -/
def onRemoveStaleCounter (now : ℤ) (s : PromExporter D) : PromExporter D :=
  { s with counters := s.counters.filter fun c => ¬ c.2.time < now - staleCounterInterval }

/-- The loop of `dumpMetrics` over the gauges: the first ones of their names, and the others. -/
def dumpGauges : List Bytes → List (PromMetric D) → List (PromMetric D) × List (PromMetric D)
  | _, [] => ([], [])
  | newGauges, g :: rest =>
    if g.name ∈ newGauges then
      ((dumpGauges newGauges rest).1, g :: (dumpGauges newGauges rest).2)
    else
      (g :: (dumpGauges (g.name :: newGauges) rest).1, (dumpGauges (g.name :: newGauges) rest).2)

/-- `dumpMetrics`: `res` and `new_metrics`. -/
def dumpMetrics (s : PromExporter D) : List (PromMetric D) × List (PromMetric D) :=
  ((dumpGauges [] s.gauges).2, s.counters.map Prod.snd ++ (dumpGauges [] s.gauges).1)

/-- `RequestInFlight::createPromResponse`. -/
def createPromResponse (now : ℤ) (promMetrics newMetrics : List (PromMetric D)) :
    List (PromLine D) :=
  newMetrics.flatMap (fun m => m.typeLine :: m.samples now) ++
    promMetrics.flatMap fun m => m.samples now

/-- `RequestInFlight::servePrometheus`. -/
def scrape (s : PromExporter D) (now : ℤ) : List (PromLine D) :=
  createPromResponse now s.dumpMetrics.1 s.dumpMetrics.2

/-- The metrics that `storeMetrics` stores, with their keys. -/
def storedMetrics (cfg : PromConfig) (ctr basename : Bytes) (cnames : List Bytes) (time : ℤ)
    (val : D) : List (Bytes × PromMetric D) :=
  let tags := cfg.extractTags basename cnames
  (if tags.1.isEmpty then [] else [(ctr, .make basename tags.1 time val cfg.mapMetricName)]) ++
    tags.2.map fun name => (name, .make name [] time val cfg.mapMetricName)

/-- What happens to an exporter: a counter command, a call of `storeMetrics`, the two timers, and a
scrape. -/
inductive Op (D : Type)
  | command (now : ℤ) (cmd : Bytes)
  | store (now : ℤ) (ctr basename : Bytes) (cnames : List Bytes) (time : ℤ) (val : D)
  | cleanup (now : ℤ)
  | removeStale (now : ℤ)
  | dump

section Steps

variable [Add D] [Sub D] [NatCast D] [LT D] [DecidableLT D]

/-- `insertCounter`. -/
def insertCounter (s : PromExporter D) (ctr : Bytes) (m : PromMetric D) : PromExporter D :=
  match s.counters.lookup ctr with
  | none => { s with counters := s.counters ++ [(ctr, m)] }
  | some _ =>
    { s with counters := s.counters.map fun c => if c.1 = ctr then (c.1, c.2.accumulate m) else c }

/-- The metric that counts what is dropped. -/
def droppedMetric (cfg : PromConfig) (now : ℤ) : PromMetric D :=
  .make metricsDroppedCounter cfg.agentTags now (1 : ℕ) cfg.mapMetricName

/-- `storeAmetric`. -/
def storeAmetric (cfg : PromConfig) (now : ℤ) (s : PromExporter D) (p : Bytes × PromMetric D) :
    PromExporter D :=
  if s.maxCountReached cfg then s.insertCounter metricsDroppedCounter (droppedMetric cfg now)
  else if p.2.type = .counter then s.insertCounter p.1 p.2
  else { s with gauges := insertGauge p.2 s.gauges }

/-- `storeMetrics`. -/
def storeMetrics (cfg : PromConfig) (now : ℤ) (s : PromExporter D) (ctr basename : Bytes)
    (cnames : List Bytes) (time : ℤ) (val : D) : PromExporter D :=
  (storedMetrics cfg ctr basename cnames time val).foldl (storeAmetric cfg now) s

variable [Div D]

/-- The metrics that a command stores (`handle_counter_cmd`, `handle_forward_prom`). -/
def commandMetrics (cfg : PromConfig) (lex : LexicalCast D) (now : ℤ) (cmd : Bytes) :
    List (Bytes × PromMetric D) :=
  match handleCounterCmd lex true cmd with
  | none => []
  | some r => r.calls.flatMap fun
    | .forwardProm ctr basename cnames time val =>
      storedMetrics cfg ctr basename cnames (if time = 0 then now else time) val
    | _ => []

/-- One step. -/
def step (cfg : PromConfig) (lex : LexicalCast D) (s : PromExporter D) : Op D → PromExporter D
  | .command now cmd => (commandMetrics cfg lex now cmd).foldl (storeAmetric cfg now) s
  | .store now ctr basename cnames time val => s.storeMetrics cfg now ctr basename cnames time val
  | .cleanup now => s.onCleanup cfg now
  | .removeStale now => s.onRemoveStaleCounter now
  | .dump => s

/-- A new exporter. -/
def empty : PromExporter D := ⟨[], []⟩

end Steps

/-! ### Well formed scrapes -/

/-- No name has two types, and all names are valid. -/
def WellFormed (text : List (PromLine D)) : Prop :=
  (text.filterMap PromLine.typed).Nodup ∧ ∀ line ∈ text, ValidName line.name

/-- All metrics that are held. -/
def metrics (s : PromExporter D) : List (PromMetric D) := s.counters.map Prod.snd ++ s.gauges

/-- The names of the counters. -/
def counterNames (s : PromExporter D) : List Bytes := s.counters.map fun c => c.2.name

/-- The names are munged for Prometheus. -/
def Munged (s : PromExporter D) : Prop :=
  (∀ name ∈ s.counterNames, ∃ key, name = promMunge key) ∧
    ∀ g ∈ s.gauges, ∃ key, g.name = promMunge key

/-- The counters have different names, no gauge has the name of a counter, and no name is empty. -/
structure Good (s : PromExporter D) : Prop where
  nodup : s.counterNames.Nodup
  apart : ∀ g ∈ s.gauges, g.name ∉ s.counterNames
  counter : [] ∉ s.counterNames
  gauge : ∀ g ∈ s.gauges, g.name ≠ []

section Scrape

variable {s : PromExporter D}

theorem mem_dumpGauges_iff (seen : List Bytes) (gs : List (PromMetric D)) (g : PromMetric D) :
    g ∈ gs ↔ g ∈ (dumpGauges seen gs).1 ∨ g ∈ (dumpGauges seen gs).2 := by
  induction gs generalizing seen with
  | nil => simp [dumpGauges]
  | cons h gs ih =>
    unfold dumpGauges
    split_ifs
    · rw [List.mem_cons, List.mem_cons, ih seen]
      tauto
    · rw [List.mem_cons, List.mem_cons, ih (h.name :: seen)]
      tauto

/-- The gauges with a type: the names are new and different, and there are no others. -/
theorem dumpGauges_new (seen : List Bytes) (gs : List (PromMetric D)) :
    ((dumpGauges seen gs).1.map PromMetric.name).Nodup ∧
      (∀ g ∈ (dumpGauges seen gs).1, g.name ∉ seen) ∧
      ∀ g ∈ gs, g.name ∈ seen ∨ g.name ∈ (dumpGauges seen gs).1.map PromMetric.name := by
  induction gs generalizing seen with
  | nil => simp [dumpGauges]
  | cons h gs ih =>
    unfold dumpGauges
    by_cases hseen : h.name ∈ seen
    · obtain ⟨hnodup, hnew, hall⟩ := ih seen
      rw [if_pos hseen]
      exact ⟨hnodup, hnew, List.forall_mem_cons.2 ⟨Or.inl hseen, hall⟩⟩
    · obtain ⟨hnodup, hnew, hall⟩ := ih (h.name :: seen)
      rw [if_neg hseen]
      refine ⟨?_, ?_, ?_⟩
      · rw [List.map_cons, List.nodup_cons]
        refine ⟨fun hmem => ?_, hnodup⟩
        obtain ⟨g, hg, hname⟩ := List.mem_map.1 hmem
        exact hnew g hg (hname ▸ List.mem_cons_self)
      · refine List.forall_mem_cons.2 ⟨hseen, fun g hg hmem => ?_⟩
        exact hnew g hg (List.mem_cons_of_mem _ hmem)
      · refine List.forall_mem_cons.2 ⟨Or.inr List.mem_cons_self, fun g hg => ?_⟩
        rcases hall g hg with hmem | hmem
        · rcases List.mem_cons.1 hmem with heq | hmem
          · exact Or.inr (List.mem_map.2 ⟨h, List.mem_cons_self, heq.symm⟩)
          · exact Or.inl hmem
        · exact Or.inr (List.mem_cons_of_mem _ hmem)

theorem filterMap_typed_samples (m : PromMetric D) (now : ℤ) :
    (m.samples now).filterMap PromLine.typed = [] := by
  simp [PromMetric.samples, List.filterMap_map, PromLine.typed, Function.comp_def]

/-- The names with a type. -/
theorem typed_scrape (s : PromExporter D) (now : ℤ) :
    (s.scrape now).filterMap PromLine.typed =
      s.counterNames ++ (dumpGauges [] s.gauges).1.map PromMetric.name := by
  unfold scrape createPromResponse
  simp only [List.filterMap_append, List.filterMap_flatMap, List.filterMap_cons, PromLine.typed,
    PromMetric.typeLine, filterMap_typed_samples]
  have hmap : ∀ ms : List (PromMetric D), (ms.flatMap fun m => [m.name]) = ms.map PromMetric.name :=
    fun ms => (List.map_eq_flatMap).symm
  rw [hmap, dumpMetrics, List.map_append, List.map_map]
  simp [Function.comp_def, counterNames]

theorem mem_samples_name_iff (m : PromMetric D) (now : ℤ) (name : Bytes) :
    name ∈ (m.samples now).map PromLine.name ↔ name = m.name := by
  have hmap : (m.samples now).map PromLine.name =
      (if m.tags.isEmpty then [[]] else m.tags).map fun _ => m.name := by
    simp [PromMetric.samples, PromLine.name, Function.comp_def]
  have hne : (if m.tags.isEmpty then [[]] else m.tags) ≠ [] := by
    split_ifs with htags
    · exact List.cons_ne_nil _ _
    · simpa using htags
  rw [hmap, List.map_const', List.mem_replicate]
  exact and_iff_right (List.length_eq_zero_iff.not.2 hne)

/-- The names in the lines are those of the metrics. -/
theorem mem_scrape_name_iff (s : PromExporter D) (now : ℤ) (name : Bytes) :
    name ∈ (s.scrape now).map PromLine.name ↔ name ∈ s.metrics.map PromMetric.name := by
  unfold scrape createPromResponse
  rw [List.map_append, List.mem_append, List.map_flatMap, List.map_flatMap, List.mem_flatMap,
    List.mem_flatMap]
  simp only [List.map_cons, List.mem_cons, mem_samples_name_iff, PromMetric.typeLine, PromLine.name,
    or_self]
  have hmem : ∀ m, m ∈ s.metrics ↔ m ∈ s.dumpMetrics.2 ∨ m ∈ s.dumpMetrics.1 := by
    intro m
    rw [metrics, dumpMetrics, List.mem_append, List.mem_append, mem_dumpGauges_iff [] s.gauges,
      or_assoc]
  rw [List.mem_map]
  constructor
  · rintro (⟨m, hm, rfl⟩ | ⟨m, hm, rfl⟩)
    · exact ⟨m, (hmem m).2 (Or.inl hm), rfl⟩
    · exact ⟨m, (hmem m).2 (Or.inr hm), rfl⟩
  · rintro ⟨m, hm, rfl⟩
    rcases (hmem m).1 hm with hm | hm
    · exact Or.inl ⟨m, hm, rfl⟩
    · exact Or.inr ⟨m, hm, rfl⟩

/-- **When a scrape is well formed.** -/
theorem wellFormed_scrape_iff (hs : s.Munged) (now : ℤ) : WellFormed (s.scrape now) ↔ s.Good := by
  obtain ⟨hnodup, -, hall⟩ := dumpGauges_new [] s.gauges
  have hvalid : (∀ line ∈ s.scrape now, ValidName line.name) ↔ ∀ m ∈ s.metrics, m.name ≠ [] := by
    have hlines := List.forall_mem_map (f := PromLine.name) (l := s.scrape now) (P := ValidName)
    have hmetrics := List.forall_mem_map (f := PromMetric.name) (l := s.metrics) (P := ValidName)
    simp only [mem_scrape_name_iff] at hlines
    rw [← hlines, hmetrics]
    refine forall₂_congr fun m hm => ?_
    have hmunged : ∃ key, m.name = promMunge key := by
      rcases List.mem_append.1 hm with hm | hm
      · obtain ⟨c, hc, rfl⟩ := List.mem_map.1 hm
        exact hs.1 _ (List.mem_map_of_mem hc)
      · exact hs.2 m hm
    obtain ⟨key, hkey⟩ := hmunged
    rw [hkey, validName_promMunge_iff]
  have hempty : (∀ m ∈ s.metrics, m.name ≠ []) ↔
      [] ∉ s.counterNames ∧ ∀ g ∈ s.gauges, g.name ≠ [] := by
    constructor
    · intro h
      refine ⟨fun hmem => ?_, fun g hg => h g (List.mem_append_right _ hg)⟩
      obtain ⟨c, hc, hnil⟩ := List.mem_map.1 hmem
      exact h c.2 (List.mem_append_left _ (List.mem_map_of_mem hc)) hnil
    · rintro ⟨hcounters, hgauges⟩ m hm
      rcases List.mem_append.1 hm with hm | hm
      · obtain ⟨c, hc, rfl⟩ := List.mem_map.1 hm
        exact fun hnil => hcounters (List.mem_map.2 ⟨c, hc, hnil⟩)
      · exact hgauges m hm
  have htypes : ((s.scrape now).filterMap PromLine.typed).Nodup ↔
      s.counterNames.Nodup ∧ ∀ g ∈ s.gauges, g.name ∉ s.counterNames := by
    rw [typed_scrape, List.nodup_append]
    constructor
    · rintro ⟨hcounters, -, hapart⟩
      refine ⟨hcounters, fun g hg hc => ?_⟩
      rcases hall g hg with hmem | hmem
      · cases hmem
      · exact hapart _ hc _ hmem rfl
    · rintro ⟨hcounters, hapart⟩
      refine ⟨hcounters, hnodup, fun a ha b hb => ?_⟩
      obtain ⟨g, hg, rfl⟩ := List.mem_map.1 hb
      rintro rfl
      exact hapart g ((mem_dumpGauges_iff [] s.gauges g).2 (Or.inl hg)) ha
  unfold WellFormed
  rw [htypes, hvalid, hempty]
  exact ⟨fun h => ⟨h.1.1, h.1.2, h.2.1, h.2.2⟩, fun h => ⟨⟨h.nodup, h.apart⟩, h.counter, h.gauge⟩⟩

/-- An exporter with fewer metrics is good as well. -/
theorem Good.mono {s' : PromExporter D} (h : s'.Good)
    (hnames : s.counterNames.Sublist s'.counterNames) (hgauges : ∀ g ∈ s.gauges, g ∈ s'.gauges) :
    s.Good where
  nodup := h.nodup.sublist hnames
  apart g hg hmem := h.apart g (hgauges g hg) (hnames.subset hmem)
  counter hmem := h.counter (hnames.subset hmem)
  gauge g hg := h.gauge g (hgauges g hg)

end Scrape

/-! ### Storing a metric -/

theorem mem_insertGauge {m g : PromMetric D} (gs : List (PromMetric D)) :
    g ∈ insertGauge m gs ↔ g = m ∨ g ∈ gs := by
  induction gs with
  | nil => simp [insertGauge]
  | cons h gs ih =>
    unfold insertGauge
    split_ifs
    · exact List.mem_cons
    · rw [List.mem_cons, List.mem_cons, ih]
      tauto

section Store

variable [Add D] [Sub D] [NatCast D] [LT D] [DecidableLT D]

/-- A counter that is held already may get an increment; for a new one the name must not be empty,
nor that of another metric. -/
def FitsCounter (s : PromExporter D) (ctr name : Bytes) : Prop :=
  (s.counters.lookup ctr).isSome ∨
    name ≠ [] ∧ name ∉ s.counterNames ∧ ∀ g ∈ s.gauges, g.name ≠ name

/-- A metric may be stored: it is a counter that fits, or a gauge with a name that is not empty, nor
that of a counter.  If there are too many metrics, it is the counter of what is dropped. -/
def Fits (cfg : PromConfig) (now : ℤ) (s : PromExporter D) (p : Bytes × PromMetric D) : Prop :=
  if s.maxCountReached cfg then
    s.FitsCounter metricsDroppedCounter (droppedMetric (D := D) cfg now).name
  else if p.2.type = .counter then s.FitsCounter p.1 p.2.name
  else p.2.name ≠ [] ∧ p.2.name ∉ s.counterNames

instance (s : PromExporter D) (ctr name : Bytes) : Decidable (s.FitsCounter ctr name) :=
  inferInstanceAs (Decidable (_ ∨ _))

instance (cfg : PromConfig) (now : ℤ) (s : PromExporter D) (p : Bytes × PromMetric D) :
    Decidable (s.Fits cfg now p) :=
  inferInstanceAs (Decidable (if s.maxCountReached cfg then
      s.FitsCounter metricsDroppedCounter (droppedMetric (D := D) cfg now).name
    else if p.2.type = .counter then s.FitsCounter p.1 p.2.name
    else p.2.name ≠ [] ∧ p.2.name ∉ s.counterNames))

variable {cfg : PromConfig} {now : ℤ} {s : PromExporter D} {ctr : Bytes} {m : PromMetric D}

theorem accumulate_name (m o : PromMetric D) : (m.accumulate o).name = m.name := by
  unfold PromMetric.accumulate
  split_ifs <;> rfl

/-- The names after `insertCounter`. -/
theorem insertCounter_names (s : PromExporter D) (ctr : Bytes) (m : PromMetric D) :
    (s.insertCounter ctr m).counterNames =
      s.counterNames ++ if (s.counters.lookup ctr).isSome then [] else [m.name] := by
  unfold insertCounter counterNames
  cases h : s.counters.lookup ctr with
  | none => simp
  | some c =>
    simp only [List.map_map, Option.isSome_some, if_true, List.append_nil]
    refine List.map_congr_left fun c _ => ?_
    simp only [Function.comp_apply]
    split_ifs
    · exact accumulate_name _ _
    · rfl

theorem insertCounter_gauges (s : PromExporter D) (ctr : Bytes) (m : PromMetric D) :
    (s.insertCounter ctr m).gauges = s.gauges := by
  unfold insertCounter
  split <;> rfl

theorem good_insertCounter_iff (h : s.Good) (ctr : Bytes) (m : PromMetric D) :
    (s.insertCounter ctr m).Good ↔ s.FitsCounter ctr m.name := by
  have hnames := s.insertCounter_names ctr m
  have hgauges := s.insertCounter_gauges ctr m
  by_cases hheld : (s.counters.lookup ctr).isSome = true
  · rw [if_pos hheld, List.append_nil] at hnames
    refine iff_of_true ?_ (Or.inl hheld)
    exact ⟨hnames ▸ h.nodup, hnames ▸ hgauges ▸ h.apart, hnames ▸ h.counter, hgauges ▸ h.gauge⟩
  · rw [if_neg hheld] at hnames
    constructor
    · rintro ⟨hnodup, hapart, hcounter, -⟩
      rw [hnames] at hnodup hapart hcounter
      rw [hgauges] at hapart
      refine Or.inr ⟨fun hnil => ?_, ?_, fun g hg hname => ?_⟩
      · exact hcounter (List.mem_append_right _ (hnil ▸ List.mem_singleton_self _))
      · exact fun hmem => (List.nodup_append.1 hnodup).2.2 _ hmem _ (List.mem_singleton_self _) rfl
      · exact hapart g hg (List.mem_append_right _ (hname ▸ List.mem_singleton_self _))
    · intro hfits
      obtain ⟨hne, hnew, hapart⟩ := hfits.resolve_left hheld
      refine ⟨?_, ?_, ?_, hgauges ▸ h.gauge⟩
      · rw [hnames, ← List.concat_eq_append]
        exact h.nodup.concat hnew
      · rw [hnames, hgauges]
        intro g hg hmem
        rcases List.mem_append.1 hmem with hmem | hmem
        · exact h.apart g hg hmem
        · exact hapart g hg (List.mem_singleton.1 hmem)
      · rw [hnames]
        intro hmem
        rcases List.mem_append.1 hmem with hmem | hmem
        · exact h.counter hmem
        · exact hne (List.mem_singleton.1 hmem).symm

/-- **When the metrics stay good**: if the one that is stored fits. -/
theorem good_storeAmetric_iff (h : s.Good) (p : Bytes × PromMetric D) :
    (s.storeAmetric cfg now p).Good ↔ s.Fits cfg now p := by
  unfold storeAmetric Fits
  by_cases hmax : s.maxCountReached cfg = true
  · rw [if_pos hmax, if_pos hmax]
    exact good_insertCounter_iff h _ _
  rw [if_neg hmax, if_neg hmax]
  by_cases htype : p.2.type = .counter
  · rw [if_pos htype, if_pos htype]
    exact good_insertCounter_iff h _ _
  rw [if_neg htype, if_neg htype]
  have hmem := fun g => mem_insertGauge (m := p.2) (g := g) s.gauges
  constructor
  · intro hgood
    exact ⟨hgood.gauge p.2 ((hmem p.2).2 (Or.inl rfl)), hgood.apart p.2 ((hmem p.2).2 (Or.inl rfl))⟩
  · rintro ⟨hne, hnew⟩
    refine ⟨h.nodup, fun g hg => ?_, h.counter, fun g hg => ?_⟩
    · rcases (hmem g).1 hg with rfl | hg
      · exact hnew
      · exact h.apart g hg
    · rcases (hmem g).1 hg with rfl | hg
      · exact hne
      · exact h.gauge g hg

/-- Storing removes nothing. -/
theorem good_of_storeAmetric {p : Bytes × PromMetric D} (h : (s.storeAmetric cfg now p).Good) :
    s.Good := by
  have hinsert : ∀ ctr m, (s.insertCounter ctr m).Good → s.Good := by
    intro ctr m h
    refine h.mono ?_ fun g hg => s.insertCounter_gauges ctr m ▸ hg
    rw [insertCounter_names]
    exact List.sublist_append_left _ _
  unfold storeAmetric at h
  split_ifs at h
  · exact hinsert _ _ h
  · exact hinsert _ _ h
  · exact h.mono (List.Sublist.refl _) fun g hg => (mem_insertGauge s.gauges).2 (Or.inr hg)

/-- The metrics of a call, one after the other. -/
theorem good_foldl_iff (h : s.Good) (ps : List (Bytes × PromMetric D)) :
    (ps.foldl (storeAmetric cfg now) s).Good ↔
      Run.Along (storeAmetric cfg now) (Fits cfg now) s ps := by
  rw [← Run.always_iff_last (J := fun _ => True) (fun _ _ _ => trivial)
      (fun _ _ _ => good_of_storeAmetric) trivial,
    Run.always_iff_along (J := fun _ => True) (fun _ _ _ => trivial)
      (fun _ p _ h => good_storeAmetric_iff h p) trivial]
  exact and_iff_right h

end Store

/-! ### Runs -/

theorem make_munged (ctr : Bytes) (tags : PromTags) (time : ℤ) (val : D) :
    ∃ key, (PromMetric.make ctr tags time val true).name = promMunge key := ⟨_, rfl⟩

theorem storedMetrics_munged {cfg : PromConfig} (hmap : cfg.mapMetricName = true)
    {ctr basename : Bytes} {cnames : List Bytes} {time : ℤ} {val : D} :
    ∀ p ∈ storedMetrics cfg ctr basename cnames time val, ∃ key, p.2.name = promMunge key := by
  intro p hp
  unfold storedMetrics at hp
  rw [hmap] at hp
  rcases List.mem_append.1 hp with hp | hp
  · split_ifs at hp
    · cases hp
    · rw [List.mem_singleton.1 hp]
      exact make_munged _ _ _ _
  · obtain ⟨name, -, rfl⟩ := List.mem_map.1 hp
    exact make_munged _ _ _ _

theorem commandMetrics_munged [NatCast D] [Div D] {cfg : PromConfig} {lex : LexicalCast D}
    (hmap : cfg.mapMetricName = true) {now : ℤ} {cmd : Bytes} :
    ∀ p ∈ commandMetrics cfg lex now cmd, ∃ key, p.2.name = promMunge key := by
  intro p hp
  unfold commandMetrics at hp
  split at hp
  · cases hp
  · obtain ⟨call, -, hcall⟩ := List.mem_flatMap.1 hp
    cases call with
    | forwardProm ctr basename cnames time val => exact storedMetrics_munged hmap p hcall
    | record ctr val => cases hcall
    | recordTime ctr time val => cases hcall
    | recordBucket ctr time val sumSq min max n => cases hcall

section Runs

variable [Add D] [Sub D] [NatCast D] [LT D] [DecidableLT D]

variable {cfg : PromConfig} {s : PromExporter D}

theorem Munged.insertCounter {ctr : Bytes} {m : PromMetric D} (hm : ∃ key, m.name = promMunge key)
    (hs : s.Munged) : (s.insertCounter ctr m).Munged := by
  constructor
  · rw [insertCounter_names]
    intro name hname
    rcases List.mem_append.1 hname with hname | hname
    · exact hs.1 name hname
    · split_ifs at hname
      · cases hname
      · rw [List.mem_singleton.1 hname]
        exact hm
  · rw [insertCounter_gauges]
    exact hs.2

theorem Munged.storeAmetric (hmap : cfg.mapMetricName = true) {now : ℤ} {p : Bytes × PromMetric D}
    (hp : ∃ key, p.2.name = promMunge key) (hs : s.Munged) : (s.storeAmetric cfg now p).Munged := by
  unfold PromExporter.storeAmetric
  split_ifs
  · refine hs.insertCounter ?_
    rw [droppedMetric, hmap]
    exact make_munged _ _ _ _
  · exact hs.insertCounter hp
  · refine ⟨hs.1, fun g hg => ?_⟩
    rcases (mem_insertGauge s.gauges).1 hg with rfl | hg
    · exact hp
    · exact hs.2 g hg

theorem Munged.foldl (hmap : cfg.mapMetricName = true) {now : ℤ}
    {ps : List (Bytes × PromMetric D)} (hps : ∀ p ∈ ps, ∃ key, p.2.name = promMunge key)
    (hs : s.Munged) : (ps.foldl (PromExporter.storeAmetric cfg now) s).Munged := by
  induction ps generalizing s with
  | nil => exact hs
  | cons p ps ih =>
    obtain ⟨hp, hps⟩ := List.forall_mem_cons.1 hps
    exact ih hps (hs.storeAmetric hmap hp)

variable [Div D] {lex : LexicalCast D}

/-- Every metric that an operation stores fits. -/
def OpFits (cfg : PromConfig) (lex : LexicalCast D) (s : PromExporter D) : Op D → Prop
  | .command now cmd =>
    Run.Along (storeAmetric cfg now) (Fits cfg now) s (commandMetrics cfg lex now cmd)
  | .store now ctr basename cnames time val =>
    Run.Along (storeAmetric cfg now) (Fits cfg now) s
      (storedMetrics cfg ctr basename cnames time val)
  | _ => True

instance (cfg : PromConfig) (lex : LexicalCast D) (s : PromExporter D) :
    ∀ op, Decidable (s.OpFits cfg lex op)
  | .command _ _ => Run.decidableAlong _ _
  | .store _ _ _ _ _ _ => Run.decidableAlong _ _
  | .cleanup _ => instDecidableTrue
  | .removeStale _ => instDecidableTrue
  | .dump => instDecidableTrue

theorem good_step_iff (h : s.Good) (op : Op D) : (s.step cfg lex op).Good ↔ s.OpFits cfg lex op := by
  cases op with
  | command now cmd => exact good_foldl_iff h _
  | store now ctr basename cnames time val => exact good_foldl_iff h _
  | cleanup now =>
    refine iff_of_true (h.mono (List.Sublist.refl _) fun g hg => ?_) trivial
    exact (List.dropWhile_suffix _).subset hg
  | removeStale now =>
    exact iff_of_true (h.mono (List.filter_sublist.map _) fun g hg => hg) trivial
  | dump => exact iff_of_true h trivial

theorem Munged.step (hmap : cfg.mapMetricName = true) (hs : s.Munged) (op : Op D) :
    (s.step cfg lex op).Munged := by
  cases op with
  | command now cmd => exact hs.foldl hmap (commandMetrics_munged hmap)
  | store now ctr basename cnames time val => exact hs.foldl hmap (storedMetrics_munged hmap)
  | cleanup now => exact ⟨hs.1, fun g hg => hs.2 g ((List.dropWhile_suffix _).subset hg)⟩
  | removeStale now =>
    exact ⟨fun name hname => hs.1 name ((List.filter_sublist.map _).subset hname), hs.2⟩
  | dump => exact hs

/-- **In which runs all scrapes are well formed**: from an empty exporter that maps the names,
exactly in those whose commands store only metrics that fit. -/
theorem scrapes_wellFormed_iff (hmap : cfg.mapMetricName = true) (ops : List (Op D)) :
    Run.Always (PromExporter.step cfg lex) (fun s => ∀ now, WellFormed (s.scrape now)) empty ops ↔
      Run.Along (PromExporter.step cfg lex) (OpFits cfg lex) empty ops := by
  have hgood : ∀ s : PromExporter D, s.Munged → ((∀ now, WellFormed (s.scrape now)) ↔ s.Good) :=
    fun s hs => ⟨fun h => (wellFormed_scrape_iff hs 0).1 (h 0),
      fun h now => (wellFormed_scrape_iff hs now).2 h⟩
  have hempty : (empty : PromExporter D).Munged := ⟨nofun, nofun⟩
  rw [Run.always_iff_along (J := Munged) (fun s op hs => hs.step hmap op) ?_ hempty]
  · refine and_iff_right ((hgood empty hempty).2 ?_)
    exact ⟨List.nodup_nil, nofun, nofun, nofun⟩
  · intro s op hs hI
    rw [hgood _ (hs.step hmap op)]
    exact good_step_iff ((hgood s hs).1 hI) op

end Runs

/-- The number that a string of digits stands for. -/
def digitsValue (str : Bytes) : Option ℕ :=
  if str ≠ [] ∧ str.all fun c => byte '0' ≤ c ∧ c ≤ byte '9' then
    some (str.foldl (fun n c => 10 * n + (c.toNat - 48)) 0)
  else none

/-- Conversions that accept digits. -/
def sampleCast : LexicalCast ℚ where
  double str := (digitsValue str).map fun n => (n : ℚ)
  time str := (digitsValue str).map fun n => (n : ℤ)
  size := digitsValue

/-- An exporter for at most some metrics, which maps the names. -/
def sampleConfig (maxMetricCount : ℕ) : PromConfig where
  cleanupInterval := 30
  extraAllowedTags := []
  mapMetricName := true
  maxMetricCount := maxMetricCount
  hostname := bytes "h1"

/-- A counter with tags and two gauges of one name. -/
theorem scrapes_wellFormed_tags :
    Run.Always (step (sampleConfig 0) sampleCast) (fun s => ∀ now, WellFormed (s.scrape now)) empty
      [.command 1000 (bytes "*a.b^host.h1^role.r1 990 5"), .command 1000 (bytes "a.c 7"),
        .command 1001 (bytes "a_c 8"), .command 1001 (bytes "*a.b^host.h1^role.r1 1")] :=
  (scrapes_wellFormed_iff rfl _).2 (by decide +kernel)

/-- One counter with two tags: the name has two types. -/
theorem scrape_two_types :
    ¬ ∀ ops, Run.Always (step (sampleConfig 0) sampleCast)
      (fun s => ∀ now, WellFormed (s.scrape now)) empty ops := by
  intro h
  have hlast := h [.command 1000 (bytes "*a^host.h1 1"), .command 1000 (bytes "*a^host.h2 1")] _
    List.prefix_rfl 1000
  exact absurd hlast.1 (by decide +kernel)

end PromExporter

end Istatd
