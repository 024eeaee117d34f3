import Istatd.StatStore

/-!
# What the runs of the store keep

* `ShardedMap.lookup_insert`, `ShardedMap.lookup_filterShard`: looking up in a map of shards;
* `StatStore.Extends`: counters are only added, and a deletion is for good;
* `StatStore.Wf`: the map leads to the counters of its keys, and to every one that is not deleted;
* `RecordCall.openStep_cases`, `StatStore.deleteLoop_cases`: what the steps that use the map can do;
* `StatStore.deleteStuff_cases`: what becomes of the first work of a `Deleter`;
* `Inv`, `inv_call`, `inv_exec`: what calls and handlers keep;
* `exec_framed`, `step_framed`, `call_framed`: what handlers and calls leave as it is.
-/

namespace Istatd

open Executor

/-! ### Looking up in a map of shards -/

namespace ShardedMap

variable {V : Type*} {sm : ShardedMap V} {k q : Bytes} {v : V}

theorem lookup_setShard {i : UInt8} {shard : List (Bytes × V)} {hs hp} :
    (sm.setShard i shard hs hp).lookup q =
      if shardIndex q = i then shard.lookup q else sm.lookup q := by
  unfold lookup setShard
  by_cases hi : shardIndex q = i
  · subst hi
    rw [if_pos rfl]
    simp only [Function.update_self]
  · rw [if_neg hi]
    simp only [Function.update_of_ne hi]

theorem lookup_insert : (sm.insert k v).lookup q = if q = k then some v else sm.lookup q := by
  rw [insert, lookup_setShard, SortedMap.lookup_insert]
  by_cases hq : q = k
  · subst hq
    simp
  · rw [if_neg hq]
    split_ifs with hi
    · rw [lookup, hi]
    · rfl

theorem lookup_filterShard {i : UInt8} {p : V → Bool} :
    (sm.filterShard i p).lookup q =
      if shardIndex q = i then (sm.lookup q).filter p else sm.lookup q := by
  rw [filterShard, lookup_setShard]
  split_ifs with hi
  · subst hi
    exact (sm.sorted _).lookup_filter p
  · rfl

theorem holds_of_holds_filterShard {i : UInt8} {f : V → Bool} {p : Bytes × V}
    (h : (sm.filterShard i f).Holds p) : sm.Holds p := by
  rw [filterShard] at h
  rcases holds_of_holds_setShard h with h | h
  · exact holds_of_mem (List.mem_filter.1 h).1
  · exact h

theorem lookup_of_mem {i : UInt8} (h : (k, v) ∈ sm.maps i) : sm.lookup k = some v := by
  obtain rfl := sm.placed i _ h
  have hs := sm.sorted (shardIndex k)
  unfold lookup
  generalize sm.maps (shardIndex k) = l at h hs
  induction l with
  | nil => cases h
  | cons p l ih =>
    rw [SortedMap.lookup_cons_eq]
    rcases List.mem_cons.1 h with rfl | h
    · exact if_pos rfl
    · rw [if_neg fun hk => (hk ▸ (List.pairwise_cons.1 hs).1 _ h).false]
      exact ih h (List.pairwise_cons.1 hs).2

end ShardedMap

/-! ### What every run keeps -/

namespace StatStore

variable {C D : Type} {s s' s'' : StatStore C D} {a b : AsyncPtr}
  {f : AsyncCounter C D → AsyncCounter C D}

/-- The pointer is one of this store. -/
def Valid (s : StatStore C D) (a : AsyncPtr) : Prop :=
  (s.asyncCounters[a.id]?).map AsyncCounter.key = some a.key

/-- No counter is forgotten, nor a call on it, none comes back after its deletion, and the settings
stay. -/
structure Extends (s s' : StatStore C D) : Prop where
  counters : ∀ (id : ℕ) (x : AsyncCounter C D), s.asyncCounters[id]? = some x →
    ∃ x', s'.asyncCounters[id]? = some x' ∧ x'.key = x.key ∧
      (x.deleted = true → x'.deleted = true) ∧ x.calls <+: x'.calls
  aggregateCount : s'.aggregateCount = s.aggregateCount
  recursively : s'.recursivelyCreateCounters = s.recursivelyCreateCounters

theorem Extends.refl (s : StatStore C D) : s.Extends s :=
  ⟨fun _ x hx => ⟨x, hx, rfl, fun h => h, List.prefix_rfl⟩, rfl, rfl⟩

theorem Extends.trans (h : s.Extends s') (h' : s'.Extends s'') : s.Extends s'' := by
  refine ⟨fun id x hx => ?_, h'.aggregateCount.trans h.aggregateCount,
    h'.recursively.trans h.recursively⟩
  obtain ⟨x', hx', hk, hd, hc⟩ := h.counters id x hx
  obtain ⟨x'', hx'', hk', hd', hc'⟩ := h'.counters id x' hx'
  exact ⟨x'', hx'', hk'.trans hk, fun hdel => hd' (hd hdel), hc.trans hc'⟩

theorem Extends.valid (h : s.Extends s') (ha : s.Valid a) : s'.Valid a := by
  obtain ⟨x, hx, hk⟩ := Option.map_eq_some_iff.1 ha
  obtain ⟨x', hx', hk', -⟩ := h.counters _ _ hx
  exact Option.map_eq_some_iff.2 ⟨x', hx', hk'.trans hk⟩

theorem isDeleted_iff : s.isDeleted a = true ↔
    ∃ x, s.asyncCounters[a.id]? = some x ∧ x.deleted = true := by
  unfold isDeleted
  cases s.asyncCounters[a.id]? <;> simp

theorem Extends.isDeleted (h : s.Extends s') (ha : s.isDeleted a = true) :
    s'.isDeleted a = true := by
  obtain ⟨x, hx, hd⟩ := isDeleted_iff.1 ha
  obtain ⟨x', hx', -, hd', -⟩ := h.counters _ _ hx
  exact isDeleted_iff.2 ⟨x', hx', hd' hd⟩

theorem getElem?_modify (id : ℕ) : (s.modify a f).asyncCounters[id]? =
    if a.id = id then (s.asyncCounters[id]?).map f else s.asyncCounters[id]? := by
  simp only [modify, List.getElem?_modify]
  split_ifs <;> simp

theorem extends_modify (hkey : ∀ x, (f x).key = x.key)
    (hdel : ∀ x, x.deleted = true → (f x).deleted = true) (hcalls : ∀ x, x.calls <+: (f x).calls) :
    s.Extends (s.modify a f) := by
  refine ⟨fun id x hx => ?_, rfl, rfl⟩
  rw [getElem?_modify, hx]
  split_ifs
  · exact ⟨f x, rfl, hkey x, hdel x, hcalls x⟩
  · exact ⟨x, rfl, rfl, fun h => h, List.prefix_rfl⟩

theorem extends_insertCounter (k : Bytes) (c : C) : s.Extends (s.insertCounter k c) := by
  refine ⟨fun id x hx => ?_, rfl, rfl⟩
  refine ⟨x, ?_, rfl, fun h => h, List.prefix_rfl⟩
  obtain ⟨hlt, -⟩ := List.getElem?_eq_some_iff.1 hx
  simpa [insertCounter, List.getElem?_append_left hlt] using hx

/-- The map leads to the counters of its keys, and to every one that is not deleted. -/
structure Wf (s : StatStore C D) : Prop where
  mapped : ∀ k a, s.counterShards.lookup k = some a → a.key = k ∧ s.Valid a
  listed : ∀ a, s.Valid a → s.isDeleted a = false → s.counterShards.lookup a.key = some a

theorem Wf.modify (h : s.Wf) (hkey : ∀ x, (f x).key = x.key)
    (hdel : ∀ x, x.deleted = true → (f x).deleted = true) (hcalls : ∀ x, x.calls <+: (f x).calls) :
    (s.modify a f).Wf where
  mapped k b hb :=
    ⟨(h.mapped k b hb).1, (extends_modify hkey hdel hcalls).valid (h.mapped k b hb).2⟩
  listed b hb hdb := by
    have hd : s.isDeleted b = false := by
      by_contra hd
      rw [(extends_modify hkey hdel hcalls).isDeleted (by simpa using hd)] at hdb
      cases hdb
    refine h.listed b ?_ hd
    unfold Valid at hb ⊢
    rw [getElem?_modify] at hb
    split_ifs at hb
    · simpa [hkey, Function.comp_def] using hb
    · exact hb

theorem Wf.insertCounter (h : s.Wf) {k : Bytes} (hk : s.counterShards.lookup k = none) (c : C) :
    (s.insertCounter k c).Wf where
  mapped q b hb := by
    have hb : (s.counterShards.insert k ⟨s.asyncCounters.length, k⟩).lookup q = some b := hb
    rw [ShardedMap.lookup_insert] at hb
    split_ifs at hb with hq
    · obtain rfl := Option.some.inj hb
      exact ⟨hq.symm, by simp [Valid, StatStore.insertCounter]⟩
    · exact ⟨(h.mapped q b hb).1, (extends_insertCounter k c).valid (h.mapped q b hb).2⟩
  listed b hb hd := by
    change (s.counterShards.insert k ⟨s.asyncCounters.length, k⟩).lookup b.key = some b
    rw [ShardedMap.lookup_insert]
    obtain ⟨x, hx, hkey⟩ := Option.map_eq_some_iff.1 hb
    have hx : (s.asyncCounters ++ [⟨k, c, false, []⟩])[b.id]? = some x := hx
    by_cases hlt : b.id < s.asyncCounters.length
    · rw [List.getElem?_append_left hlt] at hx
      have hval : s.Valid b := Option.map_eq_some_iff.2 ⟨x, hx, hkey⟩
      have hdel : s.isDeleted b = false := by
        by_contra hdel
        rw [(extends_insertCounter k c).isDeleted (by simpa using hdel)] at hd
        cases hd
      have hb := h.listed b hval hdel
      rw [if_neg fun e => by rw [e, hk] at hb; cases hb]
      exact hb
    · obtain ⟨hle, -⟩ := List.getElem?_eq_some_iff.1 hx
      have hid : b.id = s.asyncCounters.length := by
        simp only [List.length_append, List.length_singleton] at hle
        omega
      rw [hid, List.getElem?_concat_length, Option.some.injEq] at hx
      obtain rfl : k = b.key := by rw [← hkey, ← hx]
      rw [if_pos rfl, ← hid]

theorem Wf.sweep (h : s.Wf) (i : UInt8) : (s.sweep i).Wf where
  mapped k b hb := by
    refine h.mapped k b ?_
    have hb : (s.counterShards.filterShard i fun a => !s.isDeleted a).lookup k = some b := hb
    rw [ShardedMap.lookup_filterShard] at hb
    split_ifs at hb
    · exact (Option.filter_eq_some_iff.1 hb).1
    · exact hb
  listed b hb hd := by
    change (s.counterShards.filterShard i fun a => !s.isDeleted a).lookup b.key = some b
    have hd : s.isDeleted b = false := hd
    rw [ShardedMap.lookup_filterShard, h.listed b hb hd]
    simp [hd]

/-- A handler bound to a counter, or to `theDeletedCounter` in its place. -/
def Bound (s : StatStore C D) (a : AsyncPtr) (live : Bool) : Prop :=
  s.Valid a ∧ (live = false → s.isDeleted a = true)

theorem Extends.bound {live : Bool} (h : s.Extends s') (ha : s.Bound a live) : s'.Bound a live :=
  ⟨h.valid ha.1, fun hl => h.isDeleted (ha.2 hl)⟩

theorem bound_isDeleted (ha : s.Valid a) : s.Bound a (!s.isDeleted a) :=
  ⟨ha, fun h => by simpa using h⟩

end StatStore

open StatStore

variable {C D : Type} {s s' : StatStore C D}

/-- A call of `record` goes on with a counter of its name. -/
def RecordCall.Ok (s : StatStore C D) (c : RecordCall D) : Prop :=
  match c.phase with
  | .find => True
  | .parent _ a => openedKey c.cname = some a.key ∧ s.Valid a
  | .post found => openedKey c.cname = found.map AsyncPtr.key ∧ ∀ a ∈ found, s.Valid a

/-- The work of a deleter is on deleted counters, and its path has never been set. -/
structure Deleter.Ok (s : StatStore C D) (d : Deleter) : Prop where
  path : d.rootCtrPath = []
  deleted : ∀ w ∈ d.toDelete, s.Valid w.aCount ∧ s.isDeleted w.aCount = true

/-- A pending handler uses counters of the store, and the lists of a `Deleter` and of a `Flusher`
are not empty when their first elements are taken. -/
def StoreHandler.Ok (s : StatStore C D) : StoreHandler D → Prop
  | .recordLoop c => c.Ok s
  | .record a live _ => s.Bound a live
  | .flush a live => s.Bound a live
  | .deleteLoop _ d _ => d.Ok s
  | .deleteFound a _ _ d _ => s.Valid a ∧ d.Ok s
  | .deleteRead a live _ _ d _ => s.Bound a live ∧ d.Ok s
  | .deleteStuff d => d.Ok s ∧ d.toDelete ≠ []
  | .flushLoop _ f => ∀ a ∈ f.ptrs, s.Valid a
  | .flushStuff f => (∀ a ∈ f.ptrs, s.Valid a) ∧ f.ptrs ≠ []
  | .callComplete _ => True

theorem Deleter.Ok.extends {d : Deleter} (h : d.Ok s) (he : s.Extends s') : d.Ok s' :=
  ⟨h.path, fun w hw => ⟨he.valid (h.deleted w hw).1, he.isDeleted (h.deleted w hw).2⟩⟩

theorem RecordCall.Ok.extends {c : RecordCall D} (h : c.Ok s) (he : s.Extends s') : c.Ok s' := by
  unfold RecordCall.Ok at h ⊢
  split at h
  · trivial
  · exact ⟨h.1, he.valid h.2⟩
  · exact ⟨h.1, fun a ha => he.valid (h.2 a ha)⟩

theorem StoreHandler.Ok.extends {h : StoreHandler D} (hok : h.Ok s) (he : s.Extends s') :
    h.Ok s' := by
  cases h with
  | recordLoop c => exact RecordCall.Ok.extends hok he
  | record a live r => exact he.bound hok
  | flush a live => exact he.bound hok
  | deleteLoop names d complete => exact Deleter.Ok.extends hok he
  | deleteFound a ctr names d complete => exact ⟨he.valid hok.1, hok.2.extends he⟩
  | deleteRead a live ctr names d complete => exact ⟨he.bound hok.1, hok.2.extends he⟩
  | deleteStuff d => exact ⟨hok.1.extends he, hok.2⟩
  | flushLoop it f => exact fun a ha => he.valid (hok a ha)
  | flushStuff f => exact ⟨fun a ha => he.valid (hok.1 a ha), hok.2⟩
  | callComplete complete => trivial

/-- What a call or a handler leads to from a good state. -/
structure Sound (s : StatStore C D) (r : StatStore C D × List (StoreHandler D)) : Prop where
  extends_ : s.Extends r.1
  wf : r.1.Wf
  ok : ∀ h ∈ r.2, h.Ok r.1

/-- Other fields than the map, the counters and the settings do not matter. -/
theorem sound_of_fields {r : StatStore C D × List (StoreHandler D)} (hwf : s.Wf)
    (hmap : r.1.counterShards = s.counterShards) (hasync : r.1.asyncCounters = s.asyncCounters)
    (hagg : r.1.aggregateCount = s.aggregateCount)
    (hrec : r.1.recursivelyCreateCounters = s.recursivelyCreateCounters)
    (hok : ∀ h ∈ r.2, h.Ok r.1) : Sound s r := by
  refine ⟨⟨fun id x hx => ⟨x, by rw [hasync, hx], rfl, fun h => h, List.prefix_rfl⟩, hagg, hrec⟩,
    ?_, hok⟩
  refine ⟨fun k a ha => ?_, fun a ha hd => ?_⟩
  · rw [hmap] at ha
    obtain ⟨hk, hv⟩ := hwf.mapped k a ha
    exact ⟨hk, by rwa [StatStore.Valid, hasync]⟩
  · rw [StatStore.Valid, hasync] at ha
    rw [isDeleted, hasync] at hd
    rw [hmap]
    exact hwf.listed a ha hd

theorem Sound.trans {r : StatStore C D × List (StoreHandler D)} (h : Sound s' r)
    (he : s.Extends s') : Sound s r :=
  ⟨he.trans h.extends_, h.wf, h.ok⟩

/-- The invariant of the runs. -/
structure Inv (s : StatStore C D) (q : List (StoreHandler D)) : Prop where
  wf : s.Wf
  ok : ∀ h ∈ q, h.Ok s

theorem Inv.sound {q q' : List (StoreHandler D)} {r : StatStore C D × List (StoreHandler D)}
    (h : Inv s q) (hq : ∀ h ∈ q', h ∈ q) (hr : Sound s r) : Inv r.1 (q' ++ r.2) := by
  refine ⟨hr.wf, fun x hx => ?_⟩
  rcases List.mem_append.1 hx with hx | hx
  · exact (h.ok x (hq x hx)).extends hr.extends_
  · exact hr.ok x hx

namespace StatStore

/-- What the locked part of `openCounter` can come to for `record`. -/
theorem openCounter_cases (s : StatStore C D) (name : Bytes) (made : Option C) :
    openedKey name = none ∧ s.openCounter name true made = (.null, s) ∨
    ∃ xform, openedKey name = some xform ∧
      ((∃ a, s.counterShards.lookup xform = some a ∧
          s.openCounter name true made = (.found a, s)) ∨
        s.counterShards.lookup xform = none ∧
          (made = none ∧ s.openCounter name true made = (.threw, s) ∨
            ∃ c, made = some c ∧ s.openCounter name true made =
              (.created ⟨s.asyncCounters.length, xform⟩, s.insertCounter xform c))) := by
  unfold openCounter
  cases hk : openedKey name with
  | none => exact .inl ⟨rfl, rfl⟩
  | some xform =>
    refine .inr ⟨xform, rfl, ?_⟩
    cases hl : s.counterShards.lookup xform with
    | some a => exact .inl ⟨a, rfl, by simp [hl]⟩
    | none =>
      refine .inr ⟨rfl, ?_⟩
      cases made with
      | none => exact .inl ⟨rfl, by simp [hl]⟩
      | some c => exact .inr ⟨c, rfl, by simp [hl]⟩

/-- What a turn of the loop over the names to delete can do. -/
theorem deleteLoop_cases (s : StatStore C D) (throws : Bool) (ctr : Bytes) (names : List Bytes)
    (d : Deleter) (complete : Completion) :
    (∃ a k, openedKey ctr = some k ∧ s.counterShards.lookup k = some a ∧
        s.deleteLoop throws (ctr :: names) d complete =
          (s, [.deleteFound a ctr names d complete])) ∨
      s.deleteLoop throws (ctr :: names) d complete = (s, [.deleteLoop names d complete]) := by
  simp only [deleteLoop, openCounter]
  cases hk : openedKey ctr with
  | none => exact .inr rfl
  | some k =>
    cases hl : s.counterShards.lookup k with
    | some a => exact .inl ⟨a, k, rfl, hl, by simp [hl]⟩
    | none => exact .inr (by simp [hl])

/-- What comes after the loop over the names to delete. -/
theorem deleteLoop_nil_cases (s : StatStore C D) (throws : Bool) (d : Deleter)
    (complete : Completion) :
    s.deleteLoop throws [] d complete =
        ((s.goDelete d).1, (s.goDelete d).2 ++ complete.cmp.toList.map .callComplete) ∨
      throws = true ∧ d.toDelete = [] ∧ s.deleteLoop throws [] d complete =
        ({ s with
          pruned := s.pruned ++ [d.rootCtrPath]
          uncompleted := s.uncompleted ++ complete.cmp.toList }, []) := by
  unfold deleteLoop
  by_cases h : throws = true ∧ d.toDelete = [] ∧ complete.beforeGo = false
  · exact .inr ⟨h.1, h.2.1, by rw [if_pos h, goDelete, h.2.1]; rfl⟩
  · exact .inl (if_neg h)

/-- What `Deleter::delete_stuff` does with the first work. -/
theorem deleteStuff_cases (s : StatStore C D) (throws : Bool) {d : Deleter} {w : Work}
    {rest : List Work} (hd : d.toDelete = w :: rest) :
    w.live = false ∧ s.deleteStuff throws d = s.goDelete { d with toDelete := rest } ∨
      w.live = true ∧ throws = false ∧ s.deleteStuff throws d =
        (s.callOn w.aCount (.purge false)).goDelete { d with toDelete := rest } ∨
      w.live = true ∧ throws = true ∧ s.deleteStuff throws d =
        ({ s.callOn w.aCount (.purge true) with
          abandoned := s.abandoned ++ [{ d with toDelete := rest }] }, []) := by
  simp only [deleteStuff, hd]
  cases hl : w.live with
  | false => exact .inl ⟨rfl, rfl⟩
  | true =>
    cases throws with
    | false => exact .inr (.inl ⟨rfl, rfl, rfl⟩)
    | true => exact .inr (.inr ⟨rfl, rfl, rfl⟩)

/-- What `Flusher::flush_stuff` does with the first counter. -/
theorem flushStuff_cases (s : StatStore C D) (throws : Bool) {f : Flusher} {a : AsyncPtr}
    {rest : List AsyncPtr} (hf : f.ptrs = a :: rest) :
    s.isDeleted a = true ∧ s.flushStuff throws f = s.goFlush { f with ptrs := rest } ∨
      s.isDeleted a = false ∧ throws = false ∧ s.flushStuff throws f =
        (s.callOn a (.forceFlush false)).goFlush { f with ptrs := rest } ∨
      s.isDeleted a = false ∧ throws = true ∧ s.flushStuff throws f =
        ({ s.callOn a (.forceFlush true) with uncompleted := s.uncompleted ++ [f.cmp] }, []) := by
  simp only [flushStuff, hf]
  cases hd : s.isDeleted a with
  | true => exact .inl ⟨rfl, rfl⟩
  | false =>
    cases throws with
    | false => exact .inr (.inl ⟨rfl, rfl, rfl⟩)
    | true => exact .inr (.inr ⟨rfl, rfl, rfl⟩)

end StatStore

/-- What a step of `record` in `openCounter` can do. -/
theorem RecordCall.openStep_cases (c : RecordCall D) (made : Option C) (s : StatStore C D)
    (name : Bytes) (outer : Option AsyncPtr) :
    openedKey name = none ∧ c.openStep made s name outer =
        (s, [.recordLoop { c with phase := .post outer }]) ∨
    ∃ k, openedKey name = some k ∧
      ((∃ a, s.counterShards.lookup k = some a ∧ c.openStep made s name outer =
          (s, [.recordLoop { c with phase := .post (some (outer.getD a)) }])) ∨
        s.counterShards.lookup k = none ∧
          (made = none ∧ c.openStep made s name outer = ({ s with
              aborted := s.aborted ++ deliveries (c.maxAgg + 1) c.cname c.sample }, []) ∨
            ∃ m, made = some m ∧ c.openStep made s name outer =
              (s.insertCounter k m, [.recordLoop { c with
                phase := RecordCall.created s.recursivelyCreateCounters name
                  (outer.getD ⟨s.asyncCounters.length, k⟩) }]))) := by
  unfold RecordCall.openStep
  rcases s.openCounter_cases name made with ⟨hk, h⟩ | ⟨k, hk, ⟨a, hl, h⟩ | ⟨hl, ⟨hm, h⟩ | ⟨m, hm, h⟩⟩⟩
  · exact .inl ⟨hk, by rw [h]⟩
  · exact .inr ⟨k, hk, .inl ⟨a, hl, by rw [h]⟩⟩
  · exact .inr ⟨k, hk, .inr ⟨hl, .inl ⟨hm, by rw [h]⟩⟩⟩
  · exact .inr ⟨k, hk, .inr ⟨hl, .inr ⟨m, hm, by rw [h]⟩⟩⟩

theorem RecordCall.ok_created {c : RecordCall D} {a : AsyncPtr} (hk : openedKey c.cname = some a.key)
    (ha : s.Valid a) (recursively : Bool) (name : Bytes) :
    RecordCall.Ok s { c with phase := RecordCall.created recursively name a } := by
  unfold RecordCall.created
  cases recursively with
  | false => exact ⟨hk, by simpa using ha⟩
  | true =>
    cases beforeLastDot name with
    | none => exact ⟨hk, by simpa using ha⟩
    | some sex => exact ⟨hk, ha⟩

theorem valid_insertCounter (s : StatStore C D) (k : Bytes) (m : C) :
    (s.insertCounter k m).Valid ⟨s.asyncCounters.length, k⟩ := by
  simp [StatStore.Valid, insertCounter]

/-- A step of `record` in `openCounter` is sound; `outer` is a counter of the name, if there is one
already, and otherwise the name itself is opened. -/
theorem RecordCall.sound_openStep (hwf : s.Wf) (made : Option C) {c : RecordCall D} {name : Bytes}
    {outer : Option AsyncPtr} (hname : outer = none → name = c.cname)
    (houter : ∀ a, outer = some a → openedKey c.cname = some a.key ∧ s.Valid a) :
    Sound s (c.openStep made s name outer) := by
  rcases c.openStep_cases made s name outer with
    ⟨hk, h⟩ | ⟨k, hk, ⟨a, hl, h⟩ | ⟨hl, ⟨-, h⟩ | ⟨m, -, h⟩⟩⟩
  · rw [h]
    refine ⟨Extends.refl s, hwf, List.forall_mem_singleton.2 ?_⟩
    cases outer with
    | none => exact ⟨by rw [← hname rfl, hk]; rfl, by simp⟩
    | some a => exact ⟨(houter a rfl).1, by simpa using (houter a rfl).2⟩
  · rw [h]
    refine ⟨Extends.refl s, hwf, List.forall_mem_singleton.2 ?_⟩
    cases outer with
    | none =>
      obtain ⟨hkey, hval⟩ := hwf.mapped k a hl
      exact ⟨by rw [← hname rfl, hk, ← hkey]; rfl, by simpa using hval⟩
    | some b => exact ⟨(houter b rfl).1, by simpa using (houter b rfl).2⟩
  · rw [h]
    exact sound_of_fields hwf rfl rfl rfl rfl (by simp)
  · rw [h]
    refine ⟨extends_insertCounter k m, hwf.insertCounter hl m, List.forall_mem_singleton.2 ?_⟩
    cases outer with
    | none =>
      exact RecordCall.ok_created (by rw [← hname rfl, hk]) (valid_insertCounter s k m) _ _
    | some b =>
      exact RecordCall.ok_created (houter b rfl).1
        ((extends_insertCounter k m).valid (houter b rfl).2) _ _

theorem RecordCall.sound_step (hwf : s.Wf) (made : Option C) {c : RecordCall D} (hc : c.Ok s) :
    Sound s (c.step made s) := by
  unfold RecordCall.Ok at hc
  unfold RecordCall.step
  cases hph : c.phase with
  | find => exact RecordCall.sound_openStep hwf made (fun _ => rfl) fun _ ha => nomatch ha
  | parent sex a =>
    rw [hph] at hc
    refine RecordCall.sound_openStep hwf made (fun ha => nomatch ha) fun b hb => ?_
    obtain rfl := Option.some.inj hb
    exact hc
  | post found =>
    rw [hph] at hc
    refine ⟨Extends.refl s, hwf, fun x hx => ?_⟩
    rcases List.mem_append.1 hx with hx | hx
    · obtain ⟨a, ha, rfl⟩ : ∃ a, found = some a ∧
          StoreHandler.record a (!s.isDeleted a) c.sample = x := by simpa using hx
      exact bound_isDeleted (hc.2 a ha)
    · obtain ⟨c', hc', rfl⟩ : ∃ c', c.next = some c' ∧ StoreHandler.recordLoop c' = x := by
        simpa using hx
      have hfind : c'.phase = .find := by
        unfold RecordCall.next at hc'
        cases hb : beforeLastDot c.cname with
        | none => simp [hb] at hc'
        | some cname =>
          cases hm : c.maxAgg with
          | zero => simp [hb, hm] at hc'
          | succ n =>
            simp only [hb, hm, Option.some.injEq] at hc'
            rw [← hc']
      show c'.Ok s
      unfold RecordCall.Ok
      rw [hfind]
      trivial

namespace StatStore

theorem sound_goDelete (hwf : s.Wf) {d : Deleter} (hd : d.Ok s) : Sound s (s.goDelete d) := by
  unfold goDelete
  split_ifs with h
  · exact sound_of_fields hwf rfl rfl rfl rfl (by simp)
  · exact ⟨Extends.refl s, hwf, List.forall_mem_singleton.2 ⟨hd, by simpa using h⟩⟩

theorem sound_goFlush (hwf : s.Wf) {f : Flusher} (hf : ∀ a ∈ f.ptrs, s.Valid a) :
    Sound s (s.goFlush f) := by
  unfold goFlush
  split_ifs with h
  · exact sound_of_fields hwf rfl rfl rfl rfl (by simp)
  · exact ⟨Extends.refl s, hwf, List.forall_mem_singleton.2 ⟨hf, by simpa using h⟩⟩

theorem extends_callOn (a : AsyncPtr) (call : AsyncCall D) : s.Extends (s.callOn a call) :=
  extends_modify (fun _ => rfl) (fun _ h => h) fun _ => List.prefix_append _ _

theorem Wf.callOn (h : s.Wf) (a : AsyncPtr) (call : AsyncCall D) : (s.callOn a call).Wf :=
  h.modify (fun _ => rfl) (fun _ h => h) fun _ => List.prefix_append _ _

theorem holds_of_tryBin {it it' : ShardIterator} {sm : ShardedMap AsyncPtr}
    {p : Bytes × AsyncPtr} (h : it.tryBin sm = (it', .found p)) : sm.lookup p.1 = some p.2 :=
  ShardedMap.lookup_of_mem (ShardIterator.holds_of_tryBin (p := p) (by rw [h]; rfl))

theorem sound_call (hwf : s.Wf) (c : StoreCall D) : Sound s (call c s) := by
  cases c with
  | record ctr r =>
    refine ⟨Extends.refl s, hwf, fun x hx => ?_⟩
    simp only [call] at hx
    split at hx
    · cases hx
    · obtain rfl := List.mem_singleton.1 hx
      trivial
  | deleteCounter ctr complete =>
    exact ⟨Extends.refl s, hwf, List.forall_mem_singleton.2 ⟨rfl, by simp⟩⟩
  | deletePattern results complete =>
    exact ⟨Extends.refl s, hwf, List.forall_mem_singleton.2 ⟨rfl, by simp⟩⟩
  | flushAll cmp =>
    exact ⟨Extends.refl s, hwf, List.forall_mem_singleton.2 (by simp [StoreHandler.Ok])⟩
  | sync =>
    simp only [call, syncPass]
    split
    · exact sound_of_fields hwf rfl rfl rfl rfl (by simp)
    · rename_i p h
      exact sound_of_fields hwf rfl rfl rfl rfl (List.forall_mem_singleton.2
        (bound_isDeleted (hwf.mapped p.1 p.2 (holds_of_tryBin h)).2))
    · exact sound_of_fields hwf rfl rfl rfl rfl (by simp)
  | sweep i => exact
    ⟨⟨(Extends.refl s).counters, rfl, rfl⟩, hwf.sweep i, by simp [call]⟩

theorem sound_deleteLoop (hwf : s.Wf) (throws : Bool) (names : List Bytes) {d : Deleter}
    (hd : d.Ok s) (complete : Completion) : Sound s (s.deleteLoop throws names d complete) := by
  cases names with
  | nil =>
    rcases s.deleteLoop_nil_cases throws d complete with h | ⟨-, -, h⟩
    · rw [h]
      obtain ⟨he, hw, hok⟩ := sound_goDelete hwf hd
      refine ⟨he, hw, fun x hx => ?_⟩
      rcases List.mem_append.1 hx with hx | hx
      · exact hok x hx
      · obtain ⟨n, -, rfl⟩ := List.mem_map.1 hx
        trivial
    · rw [h]
      exact sound_of_fields hwf rfl rfl rfl rfl (by simp)
  | cons ctr names =>
    rcases s.deleteLoop_cases throws ctr names d complete with ⟨a, k, -, hl, h⟩ | h
    · rw [h]
      exact ⟨Extends.refl s, hwf, List.forall_mem_singleton.2 ⟨(hwf.mapped k a hl).2, hd⟩⟩
    · rw [h]
      exact ⟨Extends.refl s, hwf, List.forall_mem_singleton.2 hd⟩

theorem sound_deleteRead (hwf : s.Wf) {a : AsyncPtr} (ha : s.Valid a) (live : Bool) (ctr : Bytes)
    (names : List Bytes) {d : Deleter} (hd : d.Ok s) (complete : Completion) :
    Sound s (s.deleteRead a live ctr names d complete) := by
  have he : s.Extends (s.modify a fun x => { x with deleted := true }) :=
    extends_modify (fun _ => rfl) (fun _ _ => rfl) fun _ => List.prefix_rfl
  refine ⟨he, hwf.modify (fun _ => rfl) (fun _ _ => rfl) fun _ => List.prefix_rfl,
    List.forall_mem_singleton.2 ⟨?_, ?_⟩⟩
  · simp [Deleter.addWork, hd.path]
  · intro w hw
    rcases List.mem_append.1 hw with hw | hw
    · exact (hd.extends he).deleted w hw
    · obtain rfl := List.mem_singleton.1 hw
      obtain ⟨x, hx, -⟩ := Option.map_eq_some_iff.1 ha
      refine ⟨he.valid ha, isDeleted_iff.2 ⟨{ x with deleted := true }, ?_, rfl⟩⟩
      change (s.modify a fun x => { x with deleted := true }).asyncCounters[a.id]? = _
      rw [getElem?_modify, if_pos rfl, hx]
      rfl

theorem sound_deleteStuff (hwf : s.Wf) (throws : Bool) {d : Deleter} (hd : d.Ok s)
    (hne : d.toDelete ≠ []) : Sound s (s.deleteStuff throws d) := by
  obtain ⟨w, rest, hw⟩ := List.exists_cons_of_ne_nil hne
  have hrest : Deleter.Ok s { d with toDelete := rest } :=
    ⟨hd.path, fun v hv => hd.deleted v (hw ▸ List.mem_cons_of_mem w hv)⟩
  have he : s.Extends (s.callOn w.aCount (.purge throws)) := extends_callOn _ _
  have hwf' : (s.callOn w.aCount (.purge throws)).Wf := hwf.callOn _ _
  rcases s.deleteStuff_cases throws hw with ⟨-, h⟩ | ⟨-, rfl, h⟩ | ⟨-, rfl, h⟩
  · rw [h]
    exact sound_goDelete hwf hrest
  · rw [h]
    exact (sound_goDelete hwf' (hrest.extends he)).trans he
  · rw [h]
    exact (sound_of_fields hwf' rfl rfl rfl rfl (by simp)).trans he

theorem sound_flushStuff (hwf : s.Wf) (throws : Bool) {f : Flusher} (hf : ∀ a ∈ f.ptrs, s.Valid a)
    (hne : f.ptrs ≠ []) : Sound s (s.flushStuff throws f) := by
  obtain ⟨a, rest, ha⟩ := List.exists_cons_of_ne_nil hne
  have hrest : ∀ b ∈ rest, s.Valid b := fun b hb => hf b (ha ▸ List.mem_cons_of_mem a hb)
  have he : s.Extends (s.callOn a (.forceFlush throws)) := extends_callOn a _
  have hwf' : (s.callOn a (.forceFlush throws)).Wf := hwf.callOn a _
  rcases s.flushStuff_cases throws ha with ⟨-, h⟩ | ⟨-, rfl, h⟩ | ⟨-, rfl, h⟩
  · rw [h]
    exact sound_goFlush hwf hrest
  · rw [h]
    exact (sound_goFlush (f := { f with ptrs := rest }) hwf'
      fun b hb => he.valid (hrest b hb)).trans he
  · rw [h]
    exact (sound_of_fields hwf' rfl rfl rfl rfl (by simp)).trans he

theorem sound_exec (hwf : s.Wf) (e : StoreInput C) {h : StoreHandler D} (hok : h.Ok s) :
    Sound s (exec e h s) := by
  cases h with
  | recordLoop c => exact RecordCall.sound_step hwf e.made hok
  | record a live r =>
    simp only [exec]
    cases live with
    | true => exact ⟨extends_callOn a _, hwf.callOn a _, by simp⟩
    | false => exact sound_of_fields hwf rfl rfl rfl rfl (by simp)
  | flush a live =>
    simp only [exec]
    cases live with
    | true => exact ⟨extends_callOn a _, hwf.callOn a _, by simp⟩
    | false => exact ⟨Extends.refl s, hwf, by simp⟩
  | deleteLoop names d complete => exact sound_deleteLoop hwf e.throws names hok complete
  | deleteFound a ctr names d complete =>
    exact ⟨Extends.refl s, hwf, List.forall_mem_singleton.2 ⟨bound_isDeleted hok.1, hok.2⟩⟩
  | deleteRead a live ctr names d complete =>
    exact sound_deleteRead hwf hok.1.1 live ctr names hok.2 complete
  | deleteStuff d => exact sound_deleteStuff hwf e.throws hok.1 hok.2
  | flushLoop it f =>
    simp only [exec, flushLoop]
    split
    · exact ⟨Extends.refl s, hwf, List.forall_mem_singleton.2 hok⟩
    · rename_i p h
      refine ⟨Extends.refl s, hwf, List.forall_mem_singleton.2 fun a ha => ?_⟩
      rcases List.mem_append.1 ha with ha | ha
      · exact hok a ha
      · rw [List.mem_singleton.1 ha]
        exact (hwf.mapped p.1 p.2 (holds_of_tryBin h)).2
    · exact sound_goFlush hwf hok
  | flushStuff f => exact sound_flushStuff hwf e.throws hok.1 hok.2
  | callComplete complete => exact sound_of_fields hwf rfl rfl rfl rfl (by simp [exec])

theorem inv_new (ac : ℤ) (recursively : Bool) : Inv (new ac recursively : StatStore C D) [] :=
  ⟨⟨nofun, fun a ha => by simp [StatStore.Valid, new] at ha⟩, by simp⟩

theorem inv_call {q : List (StoreHandler D)} (h : Inv s q) (c : StoreCall D) :
    Inv (call c s).1 (q ++ (call c s).2) :=
  h.sound (fun _ hx => hx) (sound_call h.wf c)

theorem inv_exec {x : StoreHandler D} {l l' : List (StoreHandler D)} (h : Inv s (l ++ x :: l'))
    (e : StoreInput C) : Inv (exec e x s).1 (l ++ l' ++ (exec e x s).2) := by
  refine h.sound (fun y hy => ?_) (sound_exec h.wf e (h.ok x (by simp)))
  rcases List.mem_append.1 hy with hy | hy
  · exact List.mem_append_left _ hy
  · exact List.mem_append_right _ (List.mem_cons_of_mem x hy)

/-! ### What handlers and calls leave as it is -/

/-- The map is the same, and there are as many counters. -/
def SameMap (s s' : StatStore C D) : Prop :=
  s'.counterShards = s.counterShards ∧ s'.asyncCounters.length = s.asyncCounters.length

/-- Nothing is dropped or aborted. -/
def SameLosses (s s' : StatStore C D) : Prop := s'.dropped = s.dropped ∧ s'.aborted = s.aborted

/-- No deleter and no call of `on_complete` is lost. -/
def SameEnds (s s' : StatStore C D) : Prop :=
  s'.abandoned = s.abandoned ∧ s'.uncompleted = s.uncompleted

/-- All of this is the same. -/
structure Same (s s' : StatStore C D) : Prop where
  map : SameMap s s'
  losses : SameLosses s s'
  ends : SameEnds s s'

theorem Same.refl (s : StatStore C D) : Same s s := ⟨⟨rfl, rfl⟩, ⟨rfl, rfl⟩, ⟨rfl, rfl⟩⟩

theorem Same.trans {s'' : StatStore C D} (h : Same s s') (h' : Same s' s'') : Same s s'' where
  map := ⟨h'.map.1.trans h.map.1, h'.map.2.trans h.map.2⟩
  losses := ⟨h'.losses.1.trans h.losses.1, h'.losses.2.trans h.losses.2⟩
  ends := ⟨h'.ends.1.trans h.ends.1, h'.ends.2.trans h.ends.2⟩

theorem same_goDelete (s : StatStore C D) (d : Deleter) : Same s (s.goDelete d).1 := by
  unfold goDelete
  split_ifs <;> exact ⟨⟨rfl, rfl⟩, ⟨rfl, rfl⟩, ⟨rfl, rfl⟩⟩

theorem same_goFlush (s : StatStore C D) (f : Flusher) : Same s (s.goFlush f).1 := by
  unfold goFlush
  split_ifs <;> exact ⟨⟨rfl, rfl⟩, ⟨rfl, rfl⟩, ⟨rfl, rfl⟩⟩

theorem same_modify (s : StatStore C D) (a : AsyncPtr) (f : AsyncCounter C D → AsyncCounter C D) :
    Same s (s.modify a f) :=
  ⟨⟨rfl, by simp [modify]⟩, ⟨rfl, rfl⟩, ⟨rfl, rfl⟩⟩

/-- What a handler other than a call of `record` leaves as it is: only a record on
`theDeletedCounter` is dropped, and only where something throws is a deleter or a call of
`on_complete` lost, which is for good. -/
structure Framed (e : StoreInput C) (x : StoreHandler D) (s s' : StatStore C D) : Prop where
  map : SameMap s s'
  aborted : s'.aborted = s.aborted
  dropped : (∀ a r, x ≠ .record a false r) → s'.dropped = s.dropped
  uncompleted : s.uncompleted <+: s'.uncompleted
  ends : e.throws = false → SameEnds s s'

theorem Same.framed {e : StoreInput C} {x : StoreHandler D} (h : Same s s') : Framed e x s s' where
  map := h.map
  aborted := h.losses.2
  dropped _ := h.losses.1
  uncompleted := by rw [h.ends.2]
  ends _ := h.ends

/-- A handler in which something throws. -/
theorem framed_of_throws {e : StoreInput C} {x : StoreHandler D} (ht : e.throws = true)
    (hmap : SameMap s s') (hlosses : SameLosses s s') (hun : s.uncompleted <+: s'.uncompleted) :
    Framed e x s s' where
  map := hmap
  aborted := hlosses.2
  dropped _ := hlosses.1
  uncompleted := hun
  ends he := by
    rw [ht] at he
    cases he

/-- **The frame of the handlers.** -/
theorem exec_framed (e : StoreInput C) {x : StoreHandler D} (hx : ∀ c, x ≠ .recordLoop c)
    (s : StatStore C D) : Framed e x s (exec e x s).1 := by
  cases x with
  | recordLoop c => exact absurd rfl (hx c)
  | record a live r =>
    cases live with
    | true => exact (same_modify _ _ _).framed
    | false => exact ⟨⟨rfl, rfl⟩, rfl, fun h => absurd rfl (h a r), List.prefix_rfl,
        fun _ => ⟨rfl, rfl⟩⟩
  | flush a live =>
    cases live with
    | true => exact (same_modify _ _ _).framed
    | false => exact (Same.refl s).framed
  | deleteLoop names d complete =>
    rw [exec]
    cases names with
    | nil =>
      rcases s.deleteLoop_nil_cases e.throws d complete with h | ⟨ht, -, h⟩
      · rw [h]
        exact (same_goDelete s d).framed
      · rw [h]
        exact framed_of_throws ht ⟨rfl, rfl⟩ ⟨rfl, rfl⟩ (List.prefix_append _ _)
    | cons ctr names =>
      rcases s.deleteLoop_cases e.throws ctr names d complete with ⟨a, k, -, -, h⟩ | h <;>
        exact h ▸ (Same.refl s).framed
  | deleteFound a ctr names d complete => exact (Same.refl s).framed
  | deleteRead a live ctr names d complete => exact (same_modify _ _ _).framed
  | deleteStuff d =>
    rw [exec]
    cases hd : d.toDelete with
    | nil =>
      simp only [deleteStuff, hd]
      exact (Same.refl s).framed
    | cons w rest =>
      rcases s.deleteStuff_cases e.throws hd with ⟨-, h⟩ | ⟨-, -, h⟩ | ⟨-, ht, h⟩
      · rw [h]
        exact (same_goDelete s _).framed
      · rw [h]
        exact ((same_modify _ _ _).trans (same_goDelete (s.callOn _ _) _)).framed
      · rw [h]
        exact framed_of_throws ht (same_modify s w.aCount _).map ⟨rfl, rfl⟩ List.prefix_rfl
  | flushLoop it f =>
    simp only [exec, flushLoop]
    split
    · exact (Same.refl s).framed
    · exact (Same.refl s).framed
    · exact (same_goFlush s f).framed
  | flushStuff f =>
    rw [exec]
    cases hf : f.ptrs with
    | nil =>
      simp only [flushStuff, hf]
      exact (Same.refl s).framed
    | cons a rest =>
      rcases s.flushStuff_cases e.throws hf with ⟨-, h⟩ | ⟨-, -, h⟩ | ⟨-, ht, h⟩
      · rw [h]
        exact (same_goFlush s _).framed
      · rw [h]
        exact ((same_modify _ _ _).trans (same_goFlush (s.callOn _ _) _)).framed
      · rw [h]
        exact framed_of_throws ht (same_modify s a _).map ⟨rfl, rfl⟩ (List.prefix_append _ _)
  | callComplete complete => exact Same.framed ⟨⟨rfl, rfl⟩, ⟨rfl, rfl⟩, ⟨rfl, rfl⟩⟩

/-- What a step of `record` leaves as it is: records are aborted only where the factory throws. -/
theorem step_framed (c : RecordCall D) (made : Option C) (s : StatStore C D) :
    SameEnds s (c.step made s).1 ∧ (c.step made s).1.dropped = s.dropped ∧
      (made ≠ none → (c.step made s).1.aborted = s.aborted) := by
  have hopen (name : Bytes) (outer : Option AsyncPtr) :
      SameEnds s (c.openStep made s name outer).1 ∧
        (c.openStep made s name outer).1.dropped = s.dropped ∧
        (made ≠ none → (c.openStep made s name outer).1.aborted = s.aborted) := by
    rcases c.openStep_cases made s name outer with
      ⟨-, h⟩ | ⟨k, -, ⟨a, -, h⟩ | ⟨-, ⟨hm, h⟩ | ⟨m, -, h⟩⟩⟩
    · exact h ▸ ⟨⟨rfl, rfl⟩, rfl, fun _ => rfl⟩
    · exact h ▸ ⟨⟨rfl, rfl⟩, rfl, fun _ => rfl⟩
    · exact h ▸ ⟨⟨rfl, rfl⟩, rfl, fun hne => absurd hm hne⟩
    · exact h ▸ ⟨⟨rfl, rfl⟩, rfl, fun _ => rfl⟩
  unfold RecordCall.step
  split
  · exact hopen _ _
  · exact hopen _ _
  · exact ⟨⟨rfl, rfl⟩, rfl, fun _ => rfl⟩

/-- What a call leaves as it is. -/
theorem call_framed (c : StoreCall D) (s : StatStore C D) :
    (call c s).1.asyncCounters = s.asyncCounters ∧ SameLosses s (call c s).1 ∧
      SameEnds s (call c s).1 := by
  cases c with
  | sync =>
    simp only [call, syncPass]
    split <;> exact ⟨rfl, ⟨rfl, rfl⟩, ⟨rfl, rfl⟩⟩
  | _ => exact ⟨rfl, ⟨rfl, rfl⟩, ⟨rfl, rfl⟩⟩

end StatStore

end Istatd
