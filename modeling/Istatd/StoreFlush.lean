import Istatd.StoreDeletions

/-!
# Flushing all counters

`flushAll` goes through the map with an iterator while other threads insert counters and erase
deleted ones, and then a `Flusher` has each counter it has found force its flush, one after another.

* `ShardIterator.WillReach`: the iterator has still to come to a counter;
* `WillFlush`: a handler of a `Flusher` that is going to flush a counter;
* `flushAll_flushes`: when `on_complete` is called, every counter that was there is flushed.
-/

namespace Istatd

open Executor StatStore

variable {C D : Type} {s s' : StatStore C D} {a : AsyncPtr}

/-! ### The iterator -/

namespace ShardIterator

variable {V : Type*} {sm : ShardedMap V} {it it' : ShardIterator} {k : Bytes} {v : V}

/-- The iterator has not come to the key yet. -/
def WillReach (it : ShardIterator) (k : Bytes) : Prop := it.position < place k

theorem willReach_begin (hk : k ≠ []) : begin.WillReach k :=
  lt_place hk (Nat.zero_le _)

theorem holds_of_lookup (h : sm.lookup k = some v) : sm.Holds (k, v) := by
  unfold ShardedMap.lookup at h
  unfold ShardedMap.Holds
  generalize sm.maps (shardIndex k) = l at h ⊢
  induction l with
  | nil => cases h
  | cons p l ih =>
    rw [SortedMap.lookup_cons_eq] at h
    split_ifs at h with hk
    · obtain rfl := Option.some.inj h
      rw [hk]
      exact List.mem_cons_self
    · exact List.mem_cons_of_mem _ (ih h)

/-- A pass that returns no entry does not go past one. -/
theorem WillReach.next (h : it.WillReach k) (hne : sm.NoEmptyKey) (hk : sm.lookup k = some v)
    (hnone : (it.tryBin sm).2.entry = none) : (it.tryBin sm).1.WillReach k := by
  have hstep : Scan.Step (places sm) it.position (it.tryBin sm).1.position _ := tryBin_step hne
  rw [hnone] at hstep
  cases hstep with
  | skip hle hskip => exact hskip _ ⟨(k, v), holds_of_lookup hk, rfl⟩ h

/-- A pass that returns an entry returns the one of the key, or does not go past it. -/
theorem WillReach.found (h : it.WillReach k) (hne : sm.NoEmptyKey) (hk : sm.lookup k = some v)
    {p : Bytes × V} (hp : it.tryBin sm = (it', .found p)) : p = (k, v) ∨ it'.WillReach k := by
  have hstep : Scan.Step (places sm) it.position (it.tryBin sm).1.position _ := tryBin_step hne
  rw [hp] at hstep
  have hpos : it'.position = place p.1 := hstep.of_some.2.2
  have hle : place p.1 ≤ place k := hstep.le_of_some ⟨(k, v), holds_of_lookup hk, rfl⟩ h
  rcases lt_or_eq_of_le hle with hlt | heq
  · exact .inr (by rwa [WillReach, hpos])
  · left
    have hkey : p.1 = k := place_injective heq
    have hlook : sm.lookup p.1 = some p.2 :=
      ShardedMap.lookup_of_mem (holds_of_tryBin (p := p) (by rw [hp]; rfl))
    rw [hkey, hk] at hlook
    exact Prod.ext hkey (Option.some.inj hlook).symm

/-- The iteration does not end before the key. -/
theorem WillReach.not_finished (h : it.WillReach k) (hne : sm.NoEmptyKey)
    (hk : sm.lookup k = some v) : (it.tryBin sm).2 ≠ .finished := by
  intro hfin
  have hpos : (it.tryBin sm).1.position = toLex (256, []) := by
    by_cases he : it.isEnd = true
    · rw [tryBin_of_isEnd he]
      simp [position, he]
    · unfold tryBin at hfin ⊢
      rw [if_neg he] at hfin ⊢
      cases hs : seek it.key (sm.maps it.index) with
      | some p => simp [hs] at hfin
      | none =>
        simp only [hs] at hfin ⊢
        split_ifs at hfin ⊢
        rfl
  have hreach := h.next hne hk (by rw [hfin]; rfl)
  rw [WillReach, hpos] at hreach
  exact absurd hreach (not_lt.2 (place_le k))

end ShardIterator

/-! ### The keys of the map -/

theorem openedKey_ne_nil {name k : Bytes} (h : openedKey name = some k) : k ≠ [] := by
  cases name with
  | nil => cases h
  | cons ch rest =>
    simp only [openedKey] at h
    split_ifs at h with hstar hrest
    · obtain rfl := Option.some.inj h
      simpa [munge] using hrest
    · obtain rfl := Option.some.inj h
      simp [munge]

namespace StatStore

theorem noEmptyKey_exec (h : s.counterShards.NoEmptyKey) (e : StoreInput C) (x : StoreHandler D) :
    (exec e x s).1.counterShards.NoEmptyKey := by
  have hopen (c : RecordCall D) (name : Bytes) (outer : Option AsyncPtr) :
      (c.openStep e.made s name outer).1.counterShards.NoEmptyKey := by
    rcases c.openStep_cases e.made s name outer with
      ⟨-, heq⟩ | ⟨k, hk, ⟨a, -, heq⟩ | ⟨-, ⟨-, heq⟩ | ⟨m, -, heq⟩⟩⟩
    · rwa [heq]
    · rwa [heq]
    · rwa [heq]
    · rw [heq]
      exact h.insert (openedKey_ne_nil hk)
  cases x with
  | recordLoop c =>
    simp only [exec, RecordCall.step]
    split
    · exact hopen c _ _
    · exact hopen c _ _
    · exact h
  | _ => rwa [(exec_framed e (fun c h => by cases h) s).map.1]

theorem noEmptyKey_call (h : s.counterShards.NoEmptyKey) (c : StoreCall D) :
    (call c s).1.counterShards.NoEmptyKey := by
  cases c with
  | sync =>
    simp only [call, syncPass]
    split <;> exact h
  | sweep i =>
    intro p hp
    have hp : (s.counterShards.filterShard i fun a => !s.isDeleted a).Holds p := hp
    exact h p (ShardedMap.holds_of_holds_filterShard hp)
  | _ => exact h

/-! ### What a `Flusher` has still to do -/

end StatStore

/-- The call is a forced flush that does not throw. -/
def AsyncCall.isForceFlush : AsyncCall D → Bool
  | .forceFlush throws => !throws
  | _ => false

/-- The handler is one of the `Flusher` with this `IComplete`, which is going to flush the
counter. -/
def StoreHandler.WillFlush (cmp : ℕ) (a : AsyncPtr) : StoreHandler D → Prop
  | .flushLoop it f => f.cmp = cmp ∧ (a ∈ f.ptrs ∨ it.WillReach a.key)
  | .flushStuff f => f.cmp = cmp ∧ a ∈ f.ptrs
  | _ => False

namespace StatStore

/-- The forced flushes of a counter so far. -/
def forceFlushes (s : StatStore C D) (id : ℕ) : ℕ :=
  (s.asyncCounters[id]?).elim 0 fun x => x.calls.countP AsyncCall.isForceFlush

theorem Extends.forceFlushes_le (h : s.Extends s') (id : ℕ) :
    s.forceFlushes id ≤ s'.forceFlushes id := by
  unfold forceFlushes
  cases hx : s.asyncCounters[id]? with
  | none => exact Nat.zero_le _
  | some x =>
    obtain ⟨x', hx', -, -, hcalls⟩ := h.counters id x hx
    rw [hx']
    exact hcalls.sublist.countP_le

theorem forceFlushes_callOn (ha : s.Valid a) :
    (s.callOn a (.forceFlush false)).forceFlushes a.id = s.forceFlushes a.id + 1 := by
  obtain ⟨x, hx, -⟩ := Option.map_eq_some_iff.1 ha
  simp [forceFlushes, callOn, getElem?_modify, hx, List.countP_append, AsyncCall.isForceFlush]

/-- The counter has been deleted, or flushed since there were `n` flushes, or it will be, or an
exception has ended a `Flusher` with this `IComplete`. -/
def Flushing (cmp : ℕ) (a : AsyncPtr) (n : ℕ) (s : StatStore C D) (q : List (StoreHandler D)) :
    Prop :=
  s.isDeleted a = true ∨ n < s.forceFlushes a.id ∨ cmp ∈ s.uncompleted ∨
    ∃ h ∈ q, h.WillFlush cmp a

theorem willFlush_goFlush {cmp : ℕ} {f : Flusher} (hcmp : f.cmp = cmp) (ha : a ∈ f.ptrs) :
    ∃ h ∈ (s.goFlush f).2, h.WillFlush cmp a := by
  unfold goFlush
  rw [if_neg fun h => by simp [List.isEmpty_iff.1 h] at ha]
  exact ⟨_, List.mem_singleton_self _, hcmp, ha⟩

theorem extends_goFlush (s : StatStore C D) (f : Flusher) : s.Extends (s.goFlush f).1 := by
  unfold goFlush
  split_ifs
  · exact ⟨(Extends.refl s).counters, rfl, rfl⟩
  · exact Extends.refl s

/-- The handler that is going to flush a counter flushes it or posts the one that is going to. -/
theorem flushing_exec_self {cmp n : ℕ} {x : StoreHandler D} (hwf : s.Wf)
    (hne : s.counterShards.NoEmptyKey) (ha : s.Valid a) (hdel : s.isDeleted a = false)
    (hn : n ≤ s.forceFlushes a.id) (e : StoreInput C) (hx : x.WillFlush cmp a) :
    Flushing cmp a n (exec e x s).1 (exec e x s).2 := by
  have hlook := hwf.listed a ha hdel
  cases x with
  | flushLoop it f =>
    obtain ⟨hcmp, hmem⟩ := hx
    refine .inr (.inr (.inr ?_))
    simp only [exec, flushLoop]
    split
    · rename_i it' h
      refine ⟨_, List.mem_singleton_self _, hcmp, hmem.imp_right fun hreach => ?_⟩
      have := hreach.next hne hlook (by rw [h]; rfl)
      rwa [h] at this
    · rename_i it' p h
      refine ⟨_, List.mem_singleton_self _, hcmp, ?_⟩
      rcases hmem with hmem | hreach
      · exact .inl (List.mem_append_left _ hmem)
      · rcases hreach.found hne hlook h with rfl | hreach
        · exact .inl (List.mem_append_right _ (List.mem_singleton_self _))
        · exact .inr hreach
    · rename_i it' h
      refine willFlush_goFlush hcmp (hmem.resolve_right fun hreach => ?_)
      exact hreach.not_finished hne hlook (by rw [h])
  | flushStuff f =>
    obtain ⟨hcmp, hmem⟩ := hx
    obtain ⟨b, rest, hptrs⟩ := List.exists_cons_of_ne_nil (List.ne_nil_of_mem hmem)
    have hrest : a ≠ b → a ∈ rest := (List.mem_cons.1 (hptrs ▸ hmem)).resolve_left
    rw [exec]
    rcases s.flushStuff_cases e.throws hptrs with ⟨hb, h⟩ | ⟨-, -, h⟩ | ⟨-, -, h⟩
    · rw [h]
      refine .inr (.inr (.inr (willFlush_goFlush hcmp (hrest ?_))))
      rintro rfl
      rw [hb] at hdel
      cases hdel
    · rw [h]
      by_cases hab : a = b
      · subst hab
        have := (extends_goFlush (s.callOn a (.forceFlush false))
          { f with ptrs := rest }).forceFlushes_le a.id
        rw [forceFlushes_callOn ha] at this
        exact .inr (.inl (by omega))
      · exact .inr (.inr (.inr (willFlush_goFlush hcmp (hrest hab))))
    · rw [h]
      exact .inr (.inr (.inl (hcmp ▸ List.mem_append_right _ (List.mem_singleton_self _))))
  | _ => exact hx.elim

theorem Flushing.exec {cmp n : ℕ} {x : StoreHandler D} {l l' : List (StoreHandler D)}
    (h : Flushing cmp a n s (l ++ x :: l')) (hi : Inv s (l ++ x :: l'))
    (hne : s.counterShards.NoEmptyKey) (ha : s.Valid a) (hn : n ≤ s.forceFlushes a.id)
    (e : StoreInput C) :
    Flushing cmp a n (StatStore.exec e x s).1 (l ++ l' ++ (StatStore.exec e x s).2) := by
  have he := (sound_exec hi.wf e (hi.ok x (by simp))).extends_
  rcases h with hdel | hlt | hun | ⟨y, hy, hyf⟩
  · exact .inl (he.isDeleted hdel)
  · exact .inr (.inl (hlt.trans_le (he.forceFlushes_le a.id)))
  · exact .inr (.inr (.inl ((exec_ends e x s).1.subset hun)))
  · simp only [List.mem_append, List.mem_cons] at hy
    rcases hy with hy | rfl | hy
    · exact .inr (.inr (.inr ⟨y, by simp [hy], hyf⟩))
    · by_cases hdel : s.isDeleted a = true
      · exact .inl (he.isDeleted hdel)
      · rcases flushing_exec_self hi.wf hne ha (by simpa using hdel) hn e hyf with
          h | h | h | ⟨z, hz, hzf⟩
        · exact .inl h
        · exact .inr (.inl h)
        · exact .inr (.inr (.inl h))
        · exact .inr (.inr (.inr ⟨z, List.mem_append_right _ hz, hzf⟩))
    · exact .inr (.inr (.inr ⟨y, by simp [hy], hyf⟩))

/-- What a run keeps of one counter that a `Flusher` is going to flush. -/
structure FlushInv (cmp : ℕ) (a : AsyncPtr) (n : ℕ) (s : StatStore C D) (q : List (StoreHandler D)) :
    Prop where
  inv : Inv s q
  noEmptyKey : s.counterShards.NoEmptyKey
  valid : s.Valid a
  le : n ≤ s.forceFlushes a.id
  flushing : Flushing cmp a n s q

theorem FlushInv.run {cmp n : ℕ} {q : List (StoreHandler D)} (h : FlushInv cmp a n s q)
    (es : List (Event (StoreCall D) (StoreInput C))) :
    FlushInv cmp a n (Executor.run (program C D) ⟨s, q⟩ es).state
      (Executor.run (program C D) ⟨s, q⟩ es).pending := by
  refine invariant (p := program C D) (Q := fun _ => True) (R := fun _ => True)
    (I := FlushInv cmp a n) ?_ ?_ h (fun _ _ => trivial) fun _ _ _ => trivial
  · rintro c s q - h
    have he := (sound_call h.inv.wf c).extends_
    refine ⟨inv_call h.inv c, noEmptyKey_call h.noEmptyKey c, he.valid h.valid,
      h.le.trans (he.forceFlushes_le a.id), ?_⟩
    rcases h.flushing with hdel | hlt | hun | ⟨x, hx, hxf⟩
    · exact .inl (he.isDeleted hdel)
    · exact .inr (.inl (hlt.trans_le (he.forceFlushes_le a.id)))
    · exact .inr (.inr (.inl ((call_framed c s).2.2.2 ▸ hun)))
    · exact .inr (.inr (.inr ⟨x, List.mem_append_left _ hx, hxf⟩))
  · rintro e s l x l' - h
    have he := (sound_exec h.inv.wf e (h.inv.ok x (by simp))).extends_
    exact ⟨inv_exec h.inv e, noEmptyKey_exec h.noEmptyKey e x, he.valid h.valid,
      h.le.trans (he.forceFlushes_le a.id),
      h.flushing.exec h.inv h.noEmptyKey h.valid h.le e⟩

/-- What holds in every run from a new store. -/
theorem inv_run (ac : ℤ) (recursively : Bool) (es : List (Event (StoreCall D) (StoreInput C))) :
    Inv (run (program C D) ⟨new ac recursively, []⟩ es).state
        (run (program C D) ⟨new ac recursively, []⟩ es).pending ∧
      (run (program C D) ⟨new ac recursively, []⟩ es).state.counterShards.NoEmptyKey := by
  refine invariant (p := program C D) (Q := fun _ => True) (R := fun _ => True)
    (I := fun s q => Inv s q ∧ s.counterShards.NoEmptyKey) ?_ ?_
    ⟨inv_new ac recursively, ShardedMap.noEmptyKey_empty⟩ (fun _ _ => trivial) fun _ _ _ => trivial
  · rintro c s q - ⟨hi, hne⟩
    exact ⟨inv_call hi c, noEmptyKey_call hne c⟩
  · rintro e s l x l' - ⟨hi, hne⟩
    exact ⟨inv_exec hi e, noEmptyKey_exec hne e x⟩

/-- A handler that is going to flush counters has its `IComplete` still to call. -/
theorem mem_owes_of_willFlush {cmp : ℕ} {x : StoreHandler D} (h : x.WillFlush cmp a) :
    cmp ∈ x.owes.1 := by
  cases x with
  | flushLoop it f => simp [StoreHandler.owes, h.1]
  | flushStuff f => simp [StoreHandler.owes, h.1]
  | _ => exact h.elim

theorem mem_underWay_owes {cmp : ℕ} {x : StoreHandler D} {q : List (StoreHandler D)} (hx : x ∈ q)
    (h : cmp ∈ x.owes.1) : cmp ∈ (underWay StoreHandler.owes q).1 := by
  induction q with
  | nil => cases hx
  | cons y q ih =>
    rw [underWay_cons, Prod.fst_add, Multiset.mem_add]
    rcases List.mem_cons.1 hx with rfl | hx
    · exact .inl h
    · exact .inr (ih hx)

end StatStore

/-- **A flush of all counters flushes them all.**  If no other request has the same `IComplete`,
then in every run, once it has been called, every counter that was there when `flushAll` was called
has been flushed since, without an exception, unless it has been deleted. -/
theorem flushAll_flushes (ac : ℤ) (recursively : Bool) (cmp : ℕ)
    (es₁ es₂ : List (Event (StoreCall D) (StoreInput C)))
    (hfresh : cmp ∉ (income StoreCall.asks es₁).1 + (income StoreCall.asks es₂).1) :
    let t₁ := run (program C D) ⟨new ac recursively, []⟩ es₁
    let t₂ := run (program C D) t₁ (.call (.flushAll cmp) :: es₂)
    cmp ∈ t₂.state.completed → ∀ a, t₁.state.Valid a → t₂.state.isDeleted a = false →
      t₁.state.forceFlushes a.id < t₂.state.forceFlushes a.id := by
  intro t₁ t₂ hdone a ha hdel
  obtain ⟨hi, hne⟩ := inv_run (C := C) (D := D) ac recursively es₁
  have hcall : Inv t₁.state (t₁.pending ++ [.flushLoop ShardIterator.begin ⟨cmp, []⟩]) :=
    inv_call hi (.flushAll cmp)
  -- the counter was there, and so the iterator has it before it
  have hstart : FlushInv cmp a (t₁.state.forceFlushes a.id) t₁.state
      (t₁.pending ++ [.flushLoop ShardIterator.begin ⟨cmp, []⟩]) := by
    refine ⟨hcall, hne, ha, le_rfl, ?_⟩
    by_cases hd : t₁.state.isDeleted a = true
    · exact .inl hd
    · refine .inr (.inr (.inr
        ⟨_, List.mem_append_right _ (List.mem_singleton_self _), rfl, .inr ?_⟩))
      have hlook := hi.wf.listed a ha (by simpa using hd)
      exact ShardIterator.willReach_begin (hne (a.key, a) (ShardIterator.holds_of_lookup hlook))
  have hend := hstart.run es₂
  change FlushInv cmp a _ t₂.state t₂.pending at hend
  rcases hend.flushing with hd | hlt | hlater
  · rw [hdel] at hd
    cases hd
  · exact hlt
  · -- the `IComplete` is asked for once, and has been called: it is not lost or still to be called
    exfalso
    have h1 := settled_run (inv_new (C := C) (D := D) ac recursively)
      (es₁ ++ .call (.flushAll cmp) :: es₂)
    have hrun : run (program C D) ⟨new ac recursively, []⟩ (es₁ ++ .call (.flushAll cmp) :: es₂) =
        t₂ := by
      simp only [t₂, t₁, run, List.foldl_append]
    have hnew : (new ac recursively : StatStore C D).settled = 0 := rfl
    have hincome : income (StoreCall.asks (D := D)) (es₁ ++ .call (.flushAll cmp) :: es₂) =
        income StoreCall.asks es₁ + (({cmp}, 0) + income StoreCall.asks es₂) := by
      rw [income_append, income_call]
      rfl
    rw [hrun, hnew, underWay_nil, zero_add, zero_add, hincome] at h1
    have hcount := congrArg (fun m => Multiset.count cmp m.1) h1
    rw [Multiset.mem_add, not_or] at hfresh
    simp only [settled, Prod.fst_add, Multiset.count_add,
      Multiset.count_eq_zero_of_notMem hfresh.1, Multiset.count_eq_zero_of_notMem hfresh.2,
      Multiset.count_singleton_self] at hcount
    have h2 : 0 < Multiset.count cmp t₂.state.done.1 := Multiset.count_pos.2 hdone
    have h3 : 0 < Multiset.count cmp t₂.state.lost.1 +
        Multiset.count cmp (underWay StoreHandler.owes t₂.pending).1 := by
      rcases hlater with hun | ⟨x, hx, hxf⟩
      · exact Nat.add_pos_left (Multiset.count_pos.2 hun) _
      · exact Nat.add_pos_right _
          (Multiset.count_pos.2 (mem_underWay_owes hx (mem_owes_of_willFlush hxf)))
    omega

/-- A record, run to its end. -/
def recordOnce : List (Event (StoreCall ℕ) (StoreInput Unit)) :=
  [.call (.record (bytes "a") ⟨10, 1, 1, 1, 1, 1⟩), .exec 0 ⟨some (), false⟩,
    .exec 0 ⟨none, false⟩, .exec 0 ⟨none, false⟩]

/-- The handlers of a flush of all counters, through all shards. -/
def flushHandlers : List (Event (StoreCall ℕ) (StoreInput Unit)) :=
  List.replicate 258 (.exec 0 ⟨none, false⟩)

theorem flushAll_flushes_sample :
    (run (program Unit ℕ) ⟨new 0 true, []⟩ recordOnce).state.forceFlushes 0 <
      (run (program Unit ℕ) (run (program Unit ℕ) ⟨new 0 true, []⟩ recordOnce)
        (.call (.flushAll 7) :: flushHandlers)).state.forceFlushes 0 :=
  flushAll_flushes 0 true 7 recordOnce flushHandlers (by decide +kernel) (by decide +kernel)
    ⟨0, bytes "a"⟩ rfl (by decide +kernel)

end Istatd
