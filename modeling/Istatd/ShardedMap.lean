import Istatd.Lib.Scan
import Istatd.Lib.SortedMap
import Istatd.StrFunc

/-!
# Iteration over a sharded map

A `ShardedMap` is 256 maps, and the hash of a key tells which of them holds it.  Its iterator keeps
a copy of the last key, and looks for the next one each time it is moved, holding only the lock of
the shard it looks into; other threads insert and erase keys between two such passes.

* `shardIndex`, `ShardedMap`, `ShardedMap.insert`, `ShardedMap.erase`;
* `Iterator.tryBin`: one pass of `move_next` under the lock of a shard;
* `Iteration.run`: the passes of an iterator among the steps of other threads;
* `Iteration.isScan`: the iterator goes upwards through the pairs of a shard and a key;
* `Iteration.every_entry_once`: what an iteration over a changing map returns.
-/

namespace Istatd

/-- `shard_index`. -/
def shardIndex (key : Bytes) : UInt8 :=
  (key.foldl (fun (val : UInt32) ch => val * 19 + ch.toUInt32 + 127) 0).toUInt8

/-- `ShardedMap`.  Each shard is a `std::map`, and a key is only ever put into its own shard. -/
structure ShardedMap (V : Type*) where
  maps : UInt8 → List (Bytes × V)
  sorted : ∀ i, SortedMap.Sorted keyRank (maps i)
  placed : ∀ i, ∀ p ∈ maps i, shardIndex p.1 = i

variable {V : Type*}

namespace ShardedMap

/-- `ShardedMap::ShardedMap`. -/
def empty : ShardedMap V := ⟨fun _ => [], fun _ => List.Pairwise.nil, fun _ _ hp => nomatch hp⟩

/-- A map with one shard replaced. -/
def setShard (sm : ShardedMap V) (i : UInt8) (shard : List (Bytes × V))
    (hs : SortedMap.Sorted keyRank shard) (hp : ∀ p ∈ shard, shardIndex p.1 = i) :
    ShardedMap V where
  maps := Function.update sm.maps i shard
  sorted j := by
    by_cases hj : j = i
    · subst hj
      rwa [Function.update_self]
    · rw [Function.update_of_ne hj]
      exact sm.sorted j
  placed j := by
    by_cases hj : j = i
    · subst hj
      rwa [Function.update_self]
    · rw [Function.update_of_ne hj]
      exact sm.placed j

/-- `map(k)[k] = v`, under the lock of the shard. -/
def insert (sm : ShardedMap V) (k : Bytes) (v : V) : ShardedMap V :=
  sm.setShard (shardIndex k) (SortedMap.insert keyRank k v (sm.maps (shardIndex k)))
    (SortedMap.sorted_insert keyRank_injective (sm.sorted _)) (by
      intro p hp
      rcases SortedMap.mem_of_mem_insert hp with rfl | hp
      · rfl
      · exact sm.placed _ p hp)

/-- `map(k).erase(k)`, under the lock of the shard. -/
def erase (sm : ShardedMap V) (k : Bytes) : ShardedMap V :=
  sm.setShard (shardIndex k) (SortedMap.erase k (sm.maps (shardIndex k)))
    (SortedMap.sorted_erase (sm.sorted _)) fun p hp => sm.placed _ p (List.mem_filter.1 hp).1

/-- The entry `p` is in the map. -/
def Holds (sm : ShardedMap V) (p : Bytes × V) : Prop := p ∈ sm.maps (shardIndex p.1)

/-- The empty string is no key of the map. -/
def NoEmptyKey (sm : ShardedMap V) : Prop := ∀ p, sm.Holds p → p.1 ≠ []

variable {sm : ShardedMap V} {k : Bytes} {v : V} {p : Bytes × V}

theorem holds_of_mem {i : UInt8} (h : p ∈ sm.maps i) : sm.Holds p := by
  rw [Holds, sm.placed i p h]
  exact h

theorem holds_of_holds_setShard {i : UInt8} {shard : List (Bytes × V)} {hs hp}
    (h : (sm.setShard i shard hs hp).Holds p) : p ∈ shard ∨ sm.Holds p := by
  simp only [Holds, setShard] at h
  by_cases hi : shardIndex p.1 = i
  · subst hi
    rw [Function.update_self] at h
    exact .inl h
  · rw [Function.update_of_ne hi] at h
    exact .inr h

theorem holds_of_holds_insert (h : (sm.insert k v).Holds p) : p = (k, v) ∨ sm.Holds p := by
  rcases holds_of_holds_setShard h with h | h
  · exact (SortedMap.mem_of_mem_insert h).imp_right holds_of_mem
  · exact .inr h

theorem holds_of_holds_erase (h : (sm.erase k).Holds p) : sm.Holds p := by
  rcases holds_of_holds_setShard h with h | h
  · exact holds_of_mem (List.mem_filter.1 h).1
  · exact h

theorem noEmptyKey_empty : (empty : ShardedMap V).NoEmptyKey := fun _ hp => nomatch hp

theorem NoEmptyKey.insert (h : sm.NoEmptyKey) (hk : k ≠ []) : (sm.insert k v).NoEmptyKey := by
  intro p hp
  rcases holds_of_holds_insert hp with rfl | hp
  · exact hk
  · exact h p hp

theorem NoEmptyKey.erase (h : sm.NoEmptyKey) : (sm.erase k).NoEmptyKey :=
  fun p hp => h p (holds_of_holds_erase hp)

end ShardedMap

/-! ### The iterator -/

/-- `std::map::lower_bound`; `none` is `end()`. -/
def lowerBound (key : Bytes) (map : List (Bytes × V)) : Option (Bytes × V) :=
  map.find? fun p => keyRank key ≤ keyRank p.1

/-- `std::map::upper_bound`. -/
def upperBound (key : Bytes) (map : List (Bytes × V)) : Option (Bytes × V) :=
  map.find? fun p => keyRank key < keyRank p.1

/-- `ShardedMap::iterator`. -/
structure ShardIterator where
  index : UInt8
  isEnd : Bool
  key : Bytes
  deriving DecidableEq

/-- How a pass of `move_next` ends: it goes on with the next shard, or returns an entry, or returns
`false`. -/
inductive Pass (V : Type*)
  | nextBin
  | found (p : Bytes × V)
  | finished
  deriving DecidableEq

/-- The entry that a pass returns. -/
def Pass.entry : Pass V → Option (Bytes × V)
  | .found p => some p
  | _ => none

namespace ShardIterator

/-- `ShardedMap::begin`. -/
def begin : ShardIterator := ⟨0, false, []⟩

/-- `ShardedMap::end`. -/
def finish : ShardIterator := ⟨0, true, []⟩

/-- Where `move_next` finds its entry in a shard. -/
def seek (key : Bytes) (map : List (Bytes × V)) : Option (Bytes × V) :=
  match lowerBound key map with
  | none => none
  | some p => if p.1 = key then upperBound key map else some p

/-- The part of `move_next` from `try_bin` on, once. -/
def tryBin (it : ShardIterator) (sm : ShardedMap V) : ShardIterator × Pass V :=
  if it.isEnd then (it, .finished)
  else
    match seek it.key (sm.maps it.index) with
    | some p => (⟨it.index, false, p.1⟩, .found p)
    | none =>
      if it.index = 255 then (finish, .finished)
      else (⟨it.index + 1, false, []⟩, .nextBin)

variable {it : ShardIterator} {sm : ShardedMap V} {key : Bytes} {map : List (Bytes × V)}
  {p : Bytes × V}

theorem mem_of_seek (hp : seek key map = some p) : p ∈ map ∧ keyRank key < keyRank p.1 := by
  rw [seek] at hp
  cases hl : lowerBound key map with
  | none => simp [hl] at hp
  | some q =>
    simp only [hl] at hp
    split_ifs at hp with hk
    · exact ⟨List.mem_of_find?_eq_some hp, by simpa using List.find?_some hp⟩
    · cases hp
      have hle : keyRank key ≤ keyRank p.1 := by simpa using List.find?_some hl
      have hne : keyRank key ≠ keyRank p.1 := fun e => hk (keyRank_injective e).symm
      exact ⟨List.mem_of_find?_eq_some hl, lt_of_le_of_ne hle hne⟩

/-- No key of the shard stands between. -/
theorem le_of_seek (hs : SortedMap.Sorted keyRank map) (hp : seek key map = some p)
    {q : Bytes × V} (hq : q ∈ map) (hlt : keyRank key < keyRank q.1) :
    keyRank p.1 ≤ keyRank q.1 := by
  rw [seek] at hp
  cases hl : lowerBound key map with
  | none => simp [hl] at hp
  | some r =>
    simp only [hl] at hp
    split_ifs at hp with hk
    · exact SortedMap.le_of_find? hs hp hq (by simpa using hlt)
    · cases hp
      exact SortedMap.le_of_find? hs hl hq (by simpa using hlt.le)

theorem not_lt_of_seek_eq_none (hn : seek key map = none) {q : Bytes × V} (hq : q ∈ map) :
    ¬keyRank key < keyRank q.1 := by
  intro hlt
  rw [seek] at hn
  cases hl : lowerBound key map with
  | none => exact List.find?_eq_none.1 hl q hq (by simpa using hlt.le)
  | some r =>
    simp only [hl] at hn
    split_ifs at hn with hk
    exact List.find?_eq_none.1 hn q hq (by simpa using hlt)

/-! ### The order of shards and keys -/

/-- Where a key stands: its shard, and its place there. -/
def place (k : Bytes) : ℕ ×ₗ List ℕ := toLex ((shardIndex k).toNat, keyRank k)

theorem place_injective : Function.Injective place := by
  intro k k' h
  exact keyRank_injective (Prod.ext_iff.1 (toLex.injective h)).2

/-- A key stands behind the beginning of its shard, which is the place of the empty key. -/
theorem lt_place {k : Bytes} (hk : k ≠ []) {i : ℕ} (hi : i ≤ (shardIndex k).toNat) :
    toLex (i, []) < place k := by
  rw [place, Prod.Lex.toLex_lt_toLex]
  rcases Nat.lt_or_eq_of_le hi with hi | hi
  · exact .inl hi
  · refine .inr ⟨hi, ?_⟩
    cases k with
    | nil => exact absurd rfl hk
    | cons ch rest => exact List.Lex.nil

theorem place_le (k : Bytes) : place k ≤ toLex (256, []) := by
  rw [place, Prod.Lex.toLex_le_toLex]
  exact .inl (UInt8.toNat_lt _)

/-- Where the iterator stands. -/
def position (it : ShardIterator) : ℕ ×ₗ List ℕ :=
  if it.isEnd then toLex (256, []) else toLex (it.index.toNat, keyRank it.key)

/-- The places of the keys of a map. -/
def places (sm : ShardedMap V) : Set (ℕ ×ₗ List ℕ) := {x | ∃ p, sm.Holds p ∧ place p.1 = x}

theorem position_of_not_isEnd (he : it.isEnd = false) :
    it.position = toLex (it.index.toNat, keyRank it.key) := by
  simp [position, he]

/-- A pass that finds an entry goes to its place. -/
theorem tryBin_of_seek (he : it.isEnd = false)
    (hp : seek it.key (sm.maps it.index) = some p) :
    (it.tryBin sm).1.position = place p.1 ∧ (it.tryBin sm).2 = .found p := by
  have hi : shardIndex p.1 = it.index := sm.placed _ p (mem_of_seek hp).1
  simp [tryBin, he, hp, position, place, hi]

/-- A pass that finds none goes to where the next shard begins, or to the end. -/
theorem tryBin_of_seek_eq_none (he : it.isEnd = false)
    (hn : seek it.key (sm.maps it.index) = none) :
    (it.tryBin sm).1.position = toLex (it.index.toNat + 1, []) ∧ (it.tryBin sm).2.entry = none := by
  by_cases hi : it.index = 255
  · have htry : it.tryBin sm = (finish, .finished) := by
      rw [tryBin, hn, if_neg (by simp [he])]
      exact if_pos hi
    rw [htry]
    simp [finish, position, Pass.entry, hi]
  · have hlt : it.index.toNat < 255 := by
      have hne : it.index.toNat ≠ 255 := fun e => hi (UInt8.toNat.inj e)
      have := it.index.toNat_lt
      omega
    have hsucc : (it.index + 1).toNat = it.index.toNat + 1 := by
      rw [UInt8.toNat_add]
      exact Nat.mod_eq_of_lt (Nat.succ_lt_succ hlt)
    simp [tryBin, he, hn, hi, position, Pass.entry, keyRank, hsucc]

/-- A pass moves the iterator, unless it is at the end. -/
theorem position_lt_tryBin (he : it.isEnd = false) :
    it.position < (it.tryBin sm).1.position := by
  rw [position_of_not_isEnd he]
  cases hs : seek it.key (sm.maps it.index) with
  | some p =>
    obtain ⟨hmem, hlt⟩ := mem_of_seek hs
    rw [(tryBin_of_seek he hs).1, place, sm.placed _ p hmem]
    exact Prod.Lex.toLex_lt_toLex.2 (.inr ⟨rfl, hlt⟩)
  | none =>
    rw [(tryBin_of_seek_eq_none he hs).1]
    exact Prod.Lex.toLex_lt_toLex.2 (.inl (Nat.lt_succ_self _))

theorem tryBin_of_isEnd (he : it.isEnd = true) : it.tryBin sm = (it, .finished) := by
  simp [tryBin, he]

theorem holds_of_tryBin (hp : (it.tryBin sm).2.entry = some p) : sm.Holds p := by
  by_cases he : it.isEnd = true
  · rw [tryBin_of_isEnd he] at hp
    cases hp
  · replace he : it.isEnd = false := by simpa using he
    cases hs : seek it.key (sm.maps it.index) with
    | some q =>
      rw [(tryBin_of_seek he hs).2] at hp
      cases hp
      exact ShardedMap.holds_of_mem (mem_of_seek hs).1
    | none =>
      rw [(tryBin_of_seek_eq_none he hs).2] at hp
      cases hp

/-- **A pass is a step of a scan** through the places of the keys. -/
theorem tryBin_step (hne : sm.NoEmptyKey) :
    Scan.Step (places sm) it.position (it.tryBin sm).1.position
      ((it.tryBin sm).2.entry.map fun p => place p.1) := by
  by_cases he : it.isEnd = true
  · rw [tryBin_of_isEnd he]
    exact .skip le_rfl fun x _ hx => hx
  · replace he : it.isEnd = false := by simpa using he
    have hlt : it.position < (it.tryBin sm).1.position := position_lt_tryBin he
    cases hs : seek it.key (sm.maps it.index) with
    | some p =>
      obtain ⟨hpos, hfound⟩ := tryBin_of_seek he hs
      rw [hpos] at hlt
      rw [hpos, hfound]
      refine .take ⟨p, ShardedMap.holds_of_mem (mem_of_seek hs).1, rfl⟩ hlt ?_
      rintro _ ⟨q, hq, rfl⟩ hltq
      rw [position_of_not_isEnd he, place, Prod.Lex.toLex_lt_toLex] at hltq
      rw [place, place, sm.placed _ p (mem_of_seek hs).1, Prod.Lex.toLex_le_toLex]
      rcases hltq with hi | ⟨hi, hk⟩
      · exact .inl hi
      · refine .inr ⟨hi, le_of_seek (sm.sorted _) hs ?_ hk⟩
        rw [UInt8.toNat.inj hi]
        exact hq
    | none =>
      obtain ⟨hpos, hnone⟩ := tryBin_of_seek_eq_none he hs
      rw [hpos] at hlt
      rw [hpos, hnone]
      refine .skip hlt.le ?_
      rintro _ ⟨q, hq, rfl⟩ hltq
      rw [position_of_not_isEnd he, place, Prod.Lex.toLex_lt_toLex] at hltq
      rcases hltq with hi | ⟨hi, hk⟩
      · exact lt_place (hne q hq) (Nat.succ_le_of_lt hi)
      · rw [ShardedMap.Holds, ← UInt8.toNat.inj hi] at hq
        exact absurd hk (not_lt_of_seek_eq_none hs hq)

end ShardIterator

/-! ### Iterations -/

/-- A step of another thread, or a pass of the iterator. -/
inductive MapEvent (V : Type*)
  | insert (k : Bytes) (v : V)
  | erase (k : Bytes)
  | pass

/-- A map, and the iterator. -/
structure Iteration (V : Type*) where
  sm : ShardedMap V
  it : ShardIterator

namespace Iteration

open ShardIterator

/-- One event. -/
def step (s : Iteration V) : MapEvent V → Iteration V
  | .insert k v => ⟨s.sm.insert k v, s.it⟩
  | .erase k => ⟨s.sm.erase k, s.it⟩
  | .pass => ⟨s.sm, (s.it.tryBin s.sm).1⟩

/-- What the event tells the one who iterates. -/
def outcome (s : Iteration V) : MapEvent V → Option (Pass V)
  | .pass => some (s.it.tryBin s.sm).2
  | _ => none

/-- The entry that `move_next` returns at an event. -/
def returned (s : Iteration V) (e : MapEvent V) : Option (Bytes × V) :=
  (s.outcome e).bind Pass.entry

/-- The state before the event `n`, of an iteration that starts at `begin`. -/
def run (sm : ShardedMap V) (events : ℕ → MapEvent V) : ℕ → Iteration V
  | 0 => ⟨sm, begin⟩
  | n + 1 => (run sm events n).step (events n)

variable {s : Iteration V} {sm : ShardedMap V} {events : ℕ → MapEvent V} {e : MapEvent V}

theorem noEmptyKey_step (h : s.sm.NoEmptyKey) (he : ∀ k v, e = .insert k v → k ≠ []) :
    (s.step e).sm.NoEmptyKey := by
  cases e with
  | insert k v => exact h.insert (he k v rfl)
  | erase k => exact h.erase
  | pass => exact h

theorem noEmptyKey_run (h : sm.NoEmptyKey) (he : ∀ n k v, events n = .insert k v → k ≠ [])
    (n : ℕ) : (run sm events n).sm.NoEmptyKey := by
  induction n with
  | zero => exact h
  | succ n ih => exact noEmptyKey_step ih (he n)

/-- An event is a step of a scan: one that is not a pass leaves the iterator where it is. -/
theorem scanStep (h : s.sm.NoEmptyKey) (e : MapEvent V) :
    Scan.Step (ShardIterator.places s.sm) s.it.position (s.step e).it.position
      ((s.returned e).map fun p => place p.1) := by
  cases e with
  | insert k v => exact .skip le_rfl fun _ _ hx => hx
  | erase k => exact .skip le_rfl fun _ _ hx => hx
  | pass => exact tryBin_step h

/-- **The iteration is a scan.** -/
theorem isScan (h : sm.NoEmptyKey) (he : ∀ n k v, events n = .insert k v → k ≠ []) :
    Scan.IsScan (fun n => ShardIterator.places (run sm events n).sm)
      (fun n => (run sm events n).it.position)
      (fun n => ((run sm events n).returned (events n)).map fun p => place p.1) :=
  fun n => scanStep (noEmptyKey_run h he n) (events n)

theorem holds_of_returned {p : Bytes × V} (h : s.returned e = some p) : s.sm.Holds p := by
  cases e with
  | insert k v => cases h
  | erase k => cases h
  | pass => exact holds_of_tryBin h

/-! ### The end of an iteration -/

/-- Where an iterator over the keys of a map, or of one with fewer keys, can go. -/
def reachable (sm : ShardedMap V) : Set (ℕ ×ₗ List ℕ) :=
  ShardIterator.places sm ∪ (fun i : ℕ => toLex (i, [])) '' Set.Iic 256

theorem finite_reachable (sm : ShardedMap V) : (reachable sm).Finite := by
  refine Set.Finite.union ?_ ((Set.finite_Iic 256).image _)
  have : Finite UInt8 := Finite.of_injective UInt8.toFin fun _ _ h => UInt8.toFin_inj.1 h
  have hsub : ShardIterator.places sm ⊆
      ⋃ i : UInt8, (fun p => place p.1) '' {p | p ∈ sm.maps i} := by
    rintro _ ⟨p, hp, rfl⟩
    exact Set.mem_iUnion.2 ⟨shardIndex p.1, p, hp, rfl⟩
  exact (Set.finite_iUnion fun i => (List.finite_toSet (sm.maps i)).image _).subset hsub

theorem holds_of_holds_run {N : ℕ} (hN : ∀ n, N ≤ n → ∀ k v, events n ≠ .insert k v) {n : ℕ}
    (hn : N ≤ n) {p : Bytes × V} (h : (run sm events n).sm.Holds p) :
    (run sm events N).sm.Holds p := by
  induction n, hn using Nat.le_induction with
  | base => exact h
  | succ n hn ih =>
    rw [run] at h
    cases he : events n with
    | insert k v => exact absurd he (hN n hn k v)
    | erase k =>
      rw [he] at h
      exact ih (ShardedMap.holds_of_holds_erase h)
    | pass =>
      rw [he] at h
      exact ih h

/-- Without insertions the iterator is confined to finitely many positions. -/
theorem position_mem_reachable {N : ℕ} (hN : ∀ n, N ≤ n → ∀ k v, events n ≠ .insert k v) {n : ℕ}
    (hn : N ≤ n) :
    (run sm events n).it.position ∈
      insert (run sm events N).it.position (reachable (run sm events N).sm) := by
  induction n, hn using Nat.le_induction with
  | base => exact Set.mem_insert _ _
  | succ n hn ih =>
    rw [run]
    cases he : events n with
    | insert k v => exact absurd he (hN n hn k v)
    | erase k => exact ih
    | pass =>
      rw [step]
      by_cases hend : (run sm events n).it.isEnd = true
      · rwa [tryBin_of_isEnd hend]
      · replace hend : (run sm events n).it.isEnd = false := by simpa using hend
        refine Set.mem_insert_of_mem _ ?_
        cases hs : seek (run sm events n).it.key
            ((run sm events n).sm.maps (run sm events n).it.index) with
        | some p =>
          rw [(tryBin_of_seek hend hs).1]
          exact .inl ⟨p, holds_of_holds_run hN hn (ShardedMap.holds_of_mem (mem_of_seek hs).1), rfl⟩
        | none =>
          rw [(tryBin_of_seek_eq_none hend hs).1]
          exact .inr ⟨_, Nat.succ_le_of_lt (UInt8.toNat_lt _), rfl⟩

/-- **The iteration ends** when insertions do. -/
theorem exists_finished (hsm : sm.NoEmptyKey)
    (hkeys : ∀ n k v, events n = .insert k v → k ≠ []) {N : ℕ}
    (hN : ∀ n, N ≤ n → ∀ k v, events n ≠ .insert k v)
    (hpass : ∀ m, ∃ n, m ≤ n ∧ events n = .pass) :
    ∃ n, (run sm events n).outcome (events n) = some .finished := by
  obtain ⟨M, hM⟩ := (isScan hsm hkeys).eventually_const
    ((finite_reachable (run sm events N).sm).insert (run sm events N).it.position)
    fun n hn => position_mem_reachable hN hn
  obtain ⟨n, hn, he⟩ := hpass M
  have hstay : (run sm events (n + 1)).it.position = (run sm events n).it.position :=
    (hM (n + 1) (by omega)).trans (hM n hn).symm
  rw [run, he, step] at hstay
  have hend : (run sm events n).it.isEnd = true := by
    by_contra hend
    exact absurd hstay (position_lt_tryBin (by simpa using hend)).ne'
  refine ⟨n, ?_⟩
  rw [he, outcome, tryBin_of_isEnd hend]

/-- A map with two counters. -/
def sampleShards : ShardedMap ℕ :=
  (ShardedMap.empty.insert (bytes "cpu.idle") 1).insert (bytes "mem.free") 2

/-- Passes, with an insertion and an erasure among them. -/
def sampleMapEvents (n : ℕ) : MapEvent ℕ :=
  if n = 3 then .insert (bytes "net") 3 else if n = 7 then .erase (bytes "mem.free") else .pass

end Iteration

end Istatd
