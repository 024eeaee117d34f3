import Istatd.AllKeys
import Istatd.Lib.Run
import Istatd.ShardedMap

/-!
# Listings during a refresh of the keys

The counters of a store are in 256 maps, and their keys in `keys_`.  `openCounter` inserts a new
counter into its map and adds its key to `keys_`, under the lock of the map.  `refreshAllKeys` goes
through the maps one after the other, erases deleted counters, collects the keys of the others in
`keysWA_`, and then exchanges it for `keys_`.  Its steps are the 256 scans, each under the lock of
its map, the exchange, and the deletion of the old keys; calls of `openCounter` run between them.
The recursion of `openCounter` over the parents of a name is a call of its own.

* `KeyStore.step`: the calls and the steps of a refresh;
* `LiveListed`, `NoneDeletedListed`: what a listing should be;
* `Collected`: the keys collected are those of the maps scanned, but for those created in the gap
  between the scan of their map and the exchange;
* `listing_iff`: what is lost is what was created in the gap.
-/

namespace Istatd

/-- The counter of an `AsyncCounter`: one that is or is not collated, or `theDeletedCounter`. -/
inductive StoreEntry
  | live (isCollated : Bool)
  | deleted
  deriving DecidableEq

/-- The maps of a `ShardedMap`: every key is in its own.  The entries of a map are in some order. -/
@[ext]
structure Shards where
  maps : UInt8 → List (Bytes × StoreEntry)
  placed : ∀ i e, e ∈ maps i → shardIndex e.1 = i

namespace Shards

/-- A new counter in its map. -/
def insert (m : Shards) (key : Bytes) (isCollated : Bool) : Shards where
  maps := Function.update m.maps (shardIndex key)
    ((key, .live isCollated) :: m.maps (shardIndex key))
  placed i e he := by
    by_cases hi : i = shardIndex key
    · subst hi
      rw [Function.update_self] at he
      rcases List.mem_cons.1 he with rfl | he
      · rfl
      · exact m.placed _ e he
    · rw [Function.update_of_ne hi] at he
      exact m.placed i e he

/-- The deleted counters of a map erased. -/
def eraseDeleted (m : Shards) (i : UInt8) : Shards where
  maps := Function.update m.maps i ((m.maps i).filter (·.2 ≠ .deleted))
  placed j e he := by
    by_cases hj : j = i
    · subst hj
      rw [Function.update_self] at he
      exact m.placed j e (List.mem_of_mem_filter he)
    · rw [Function.update_of_ne hj] at he
      exact m.placed j e he

/-- The counter is in a map and is not a deleted one. -/
def Live (m : Shards) (key : Bytes) : Prop :=
  ∃ i isCollated, (key, StoreEntry.live isCollated) ∈ m.maps i

variable {m : Shards} {key : Bytes}

theorem live_iff :
    m.Live key ↔ ∃ isCollated, (key, StoreEntry.live isCollated) ∈ m.maps (shardIndex key) := by
  constructor
  · rintro ⟨i, c, hc⟩
    obtain rfl := m.placed i _ hc
    exact ⟨c, hc⟩
  · rintro ⟨c, hc⟩
    exact ⟨_, c, hc⟩

theorem live_insert_iff {name : Bytes} {isCollated : Bool} :
    (m.insert name isCollated).Live key ↔ m.Live key ∨ key = name := by
  rw [live_iff, live_iff]
  by_cases hk : shardIndex key = shardIndex name
  · simp only [insert, hk, Function.update_self, List.mem_cons, Prod.mk.injEq]
    constructor
    · rintro ⟨c, ⟨rfl, -⟩ | hc⟩
      · exact .inr rfl
      · exact .inl ⟨c, hc⟩
    · rintro (⟨c, hc⟩ | rfl)
      · exact ⟨c, .inr hc⟩
      · exact ⟨isCollated, .inl ⟨rfl, rfl⟩⟩
  · have hne : key ≠ name := fun h => hk (congrArg shardIndex h)
    simp [insert, Function.update_of_ne hk, hne]

theorem live_eraseDeleted_iff {i : UInt8} : (m.eraseDeleted i).Live key ↔ m.Live key := by
  rw [live_iff, live_iff]
  by_cases hk : shardIndex key = i
  · simp [eraseDeleted, hk]
  · simp [eraseDeleted, Function.update_of_ne hk]

end Shards

/-- The maps, the keys, and how far a refresh has come: the number of its steps done. -/
structure KeyStore where
  shards : Shards
  keys : AllKeys
  keysWA : AllKeys
  refreshed : ℕ

/-- A call of `openCounter`, with the counter the factory makes if it is asked, or none; or the next
step of the refresh. -/
inductive StoreOp
  | openCounter (name : Bytes) (create : Bool) (made : Option Bool)
  | refresh
  deriving DecidableEq

/-- The key `openCounter` looks for: the name without a leading `*`, munged. -/
def openedKey : Bytes → Option Bytes
  | [] => none
  | ch :: rest =>
    if ch = byte '*' then if rest = [] then none else some (munge rest)
    else some (munge (ch :: rest))

namespace KeyStore

/-- The counter a call creates: the key is not in its map, and the factory makes one. -/
def creation (s : KeyStore) : StoreOp → Option CounterData
  | .openCounter name create made =>
    match openedKey name with
    | none => none
    | some xform =>
      match (s.shards.maps (shardIndex xform)).lookup xform with
      | some _ => none
      | none => if create then made.map fun isCollated => ⟨xform, isCollated⟩ else none
  | .refresh => none

/-- The end of `StatStore::openCounter`: a counter inserted into its map, and its key added. -/
def insert (s : KeyStore) (cd : CounterData) : KeyStore :=
  { s with
    shards := s.shards.insert cd.name cd.isCounter
    keys := s.keys.add cd.name cd.isCounter }

/-- An entry met by a scan: its key is added, unless the counter is a deleted one. -/
def scanEntry (keysWA : AllKeys) : Bytes × StoreEntry → AllKeys
  | (key, .live isCollated) => keysWA.add key isCollated
  | (_, .deleted) => keysWA

/-- A round of the loop of `StatStore::refreshAllKeys`. -/
def scan (s : KeyStore) (i : UInt8) : KeyStore :=
  { s with
    shards := s.shards.eraseDeleted i
    keysWA := (s.shards.maps i).foldl scanEntry s.keysWA
    refreshed := s.refreshed + 1 }

/-- The next step of `StatStore::refreshAllKeys`. -/
def refreshAllKeys (s : KeyStore) : KeyStore :=
  if s.refreshed < 256 then s.scan (UInt8.ofNat s.refreshed)
  else if s.refreshed = 256 then
    let swapped := s.keys.exchange s.keysWA
    { s with keys := swapped.1, keysWA := swapped.2, refreshed := s.refreshed + 1 }
  else if s.refreshed = 257 then
    { s with keysWA := s.keysWA.deleteAll, refreshed := s.refreshed + 1 }
  else s

/-- One step. -/
def step (s : KeyStore) (op : StoreOp) : KeyStore :=
  match op with
  | .refresh => s.refreshAllKeys
  | .openCounter _ _ _ =>
    match s.creation op with
    | some cd => s.insert cd
    | none => s

/-- The refresh has not begun.  The refreshes before have left no keys in `keysWA_`. -/
def Fresh (s : KeyStore) : Prop := s.refreshed = 0 ∧ s.keysWA.recs = []

/-- The refresh is over. -/
def Refreshed (s : KeyStore) : Prop := s.refreshed = 258

/-- Every counter that is not deleted is listed. -/
def LiveListed (s : KeyStore) : Prop := ∀ key, s.shards.Live key → key ∈ s.keys.listed

/-- What is listed is a counter that is not deleted, or stands above one. -/
def NoneDeletedListed (s : KeyStore) : Prop :=
  ∀ q ∈ s.keys.listed, ∃ key, s.shards.Live key ∧ Covers q key

/-- The map was scanned. -/
def Scanned (s : KeyStore) (i : UInt8) : Prop := i.toNat < s.refreshed

instance (s : KeyStore) (i : UInt8) : Decidable (s.Scanned i) := Nat.decLt _ _

/-- The key of a counter that is created in a map that was scanned, before the exchange. -/
def gapKey (s : KeyStore) (op : StoreOp) : Option Bytes :=
  match s.creation op with
  | some cd => if s.refreshed ≤ 256 ∧ s.Scanned (shardIndex cd.name) then some cd.name else none
  | none => none

/-- The keys created in the gap in the course of a run. -/
def gapKeys : KeyStore → List StoreOp → List Bytes
  | _, [] => []
  | s, op :: l => (s.gapKey op).toList ++ gapKeys (s.step op) l

/-- The keys a refresh has collected: those to be put in place, and then those in place. -/
def collected (s : KeyStore) : AllKeys := if s.refreshed ≤ 256 then s.keysWA else s.keys

/-- What has been collected: the live counters of the maps scanned, but for those created in the
gap. -/
structure Collected (gap : List Bytes) (s : KeyStore) : Prop where
  keys_iff : ∀ key, (∃ cd ∈ s.collected.recs, cd.name = key) ↔
    s.shards.Live key ∧ s.Scanned (shardIndex key) ∧ key ∉ gap
  gap_live : ∀ key ∈ gap, s.shards.Live key ∧ s.Scanned (shardIndex key)
  anew : 256 < s.refreshed → s.keys.dirty = true ∧ s.keys.toMatch = .empty

/-! ### One step -/

variable {s : KeyStore} {gap : List Bytes}

theorem scanned_of_le (h : 256 ≤ s.refreshed) (i : UInt8) : s.Scanned i :=
  i.toNat_lt.trans_le h

/-- A counter is created where there was none. -/
theorem not_live_of_creation {op : StoreOp} {cd : CounterData} (h : s.creation op = some cd) :
    ¬ s.shards.Live cd.name := by
  rw [Shards.live_iff]
  rintro ⟨c, hc⟩
  cases op with
  | refresh => cases h
  | openCounter name create made =>
    simp only [creation] at h
    cases hkey : openedKey name with
    | none => simp [hkey] at h
    | some xform =>
      simp only [hkey] at h
      cases hl : (s.shards.maps (shardIndex xform)).lookup xform with
      | some e => simp [hl] at h
      | none =>
        simp only [hl] at h
        split_ifs at h
        obtain ⟨b, -, rfl⟩ := Option.map_eq_some_iff.1 h
        have := List.lookup_eq_none_iff.1 hl _ hc
        simp at this

/-- The keys a scan adds. -/
theorem mem_foldl_scanEntry_iff {a : AllKeys} {l : List (Bytes × StoreEntry)} {key : Bytes} :
    (∃ cd ∈ (l.foldl scanEntry a).recs, cd.name = key) ↔
      (∃ cd ∈ a.recs, cd.name = key) ∨ ∃ isCollated, (key, StoreEntry.live isCollated) ∈ l := by
  induction l generalizing a with
  | nil => simp
  | cons e l ih =>
    rw [List.foldl_cons, ih]
    obtain ⟨k, c | _⟩ := e
    · simp only [scanEntry, AllKeys.add, List.mem_cons, exists_eq_or_imp, Prod.mk.injEq,
        StoreEntry.live.injEq, or_assoc]
      constructor
      · rintro (rfl | h | ⟨b, h⟩)
        · exact .inr ⟨c, .inl ⟨rfl, rfl⟩⟩
        · exact .inl h
        · exact .inr ⟨b, .inr h⟩
      · rintro (h | ⟨b, ⟨rfl, -⟩ | h⟩)
        · exact .inr (.inl h)
        · exact .inl rfl
        · exact .inr (.inr ⟨b, h⟩)
    · simp [scanEntry]

/-- A counter is created. -/
theorem Collected.insert {cd : CounterData} {op : StoreOp} (h : Collected gap s)
    (hc : s.creation op = some cd) :
    Collected (gap ++ (s.gapKey op).toList) (s.insert cd) := by
  have hnew := not_live_of_creation hc
  have hnot : cd.name ∉ gap := fun hmem => hnew (h.gap_live _ hmem).1
  have hlive : ∀ key, (s.insert cd).shards.Live key ↔ s.shards.Live key ∨ key = cd.name :=
    fun key => Shards.live_insert_iff
  have hgap : s.gapKey op =
      if s.refreshed ≤ 256 ∧ s.Scanned (shardIndex cd.name) then some cd.name else none := by
    simp only [gapKey, hc]
  rw [hgap]
  by_cases hle : s.refreshed ≤ 256
  · -- nothing is collected
    have hcol : (s.insert cd).collected = s.collected := by simp [collected, KeyStore.insert, hle]
    refine ⟨fun key => ?_, fun key hkey => ?_, fun hlt => absurd hlt (Nat.not_lt.2 hle)⟩
    · rw [hcol, h.keys_iff, hlive]
      show _ ↔ _ ∧ s.Scanned (shardIndex key) ∧ _
      by_cases hkey : key = cd.name
      · subst hkey
        by_cases hscan : s.Scanned (shardIndex cd.name)
        · simp [hnew, hle, hscan]
        · simp [hscan]
      · split_ifs <;> simp [hkey]
    · rw [hlive]
      show _ ∧ s.Scanned (shardIndex key)
      rcases List.mem_append.1 hkey with hkey | hkey
      · exact ⟨.inl (h.gap_live key hkey).1, (h.gap_live key hkey).2⟩
      · split_ifs at hkey with hg
        · obtain rfl := List.mem_singleton.1 hkey
          exact ⟨.inr rfl, hg.2⟩
        · cases hkey
  · -- after the exchange the key is added to the new keys
    have hscan := scanned_of_le (s := s) (by omega)
    have hcol : (s.insert cd).collected.recs = ⟨cd.name, cd.isCounter⟩ :: s.collected.recs := by
      simp [collected, KeyStore.insert, hle, AllKeys.add]
    rw [if_neg fun hg => hle hg.1]
    simp only [Option.toList_none, List.append_nil]
    refine ⟨fun key => ?_, fun key hkey => ?_, fun hlt => ⟨rfl, (h.anew hlt).2⟩⟩
    · rw [hcol, hlive]
      show _ ↔ _ ∧ s.Scanned (shardIndex key) ∧ _
      simp only [List.mem_cons, exists_eq_or_imp]
      rw [h.keys_iff]
      by_cases hkey : key = cd.name
      · subst hkey
        simp [hnot, hscan]
      · simp [hkey, Ne.symm hkey]
    · rw [hlive]
      exact ⟨.inl (h.gap_live key hkey).1, hscan _⟩

/-- A map is scanned. -/
theorem Collected.scan (h : Collected gap s) (hlt : s.refreshed < 256) :
    Collected gap (s.scan (UInt8.ofNat s.refreshed)) := by
  have hto : (UInt8.ofNat s.refreshed).toNat = s.refreshed := by
    rw [UInt8.toNat_ofNat', Nat.mod_eq_of_lt hlt]
  have hlive : ∀ key, (s.scan (UInt8.ofNat s.refreshed)).shards.Live key ↔ s.shards.Live key :=
    fun key => Shards.live_eraseDeleted_iff
  have hcol : s.collected = s.keysWA := if_pos (by omega)
  refine ⟨fun key => ?_, fun key hkey => ?_, fun h' => ?_⟩
  · have hcol' : (s.scan (UInt8.ofNat s.refreshed)).collected =
        (s.shards.maps (UInt8.ofNat s.refreshed)).foldl scanEntry s.keysWA :=
      if_pos (by simp only [KeyStore.scan]; omega)
    have hkeys := h.keys_iff key
    rw [hcol] at hkeys
    rw [hcol', mem_foldl_scanEntry_iff, hkeys, hlive]
    show _ ↔ _ ∧ (shardIndex key).toNat < s.refreshed + 1 ∧ _
    constructor
    · rintro (⟨hl, hs, hg⟩ | ⟨c, hc⟩)
      · exact ⟨hl, Nat.lt_succ_of_lt hs, hg⟩
      · have hi : shardIndex key = UInt8.ofNat s.refreshed := s.shards.placed _ _ hc
        refine ⟨⟨_, c, hc⟩, by rw [hi, hto]; omega, fun hg => ?_⟩
        -- the keys of the gap are in maps scanned before
        have hs : (shardIndex key).toNat < s.refreshed := (h.gap_live key hg).2
        rw [hi, hto] at hs
        omega
    · rintro ⟨hl, hs, hg⟩
      by_cases hs' : (shardIndex key).toNat < s.refreshed
      · exact .inl ⟨hl, hs', hg⟩
      · have hi : shardIndex key = UInt8.ofNat s.refreshed := by
          rw [← UInt8.toNat_inj, hto]
          omega
        obtain ⟨c, hc⟩ := Shards.live_iff.1 hl
        exact .inr ⟨c, hi ▸ hc⟩
  · rw [hlive]
    exact ⟨(h.gap_live key hkey).1, Nat.lt_succ_of_lt (h.gap_live key hkey).2⟩
  · simp only [KeyStore.scan] at h'
    omega

/-- The steps after the scans, which leave the maps and the collected keys alone. -/
theorem Collected.later {s' : KeyStore} (h : Collected gap s) (hle : 256 ≤ s.refreshed)
    (hmaps : s'.shards = s.shards) (hto : s'.refreshed = s.refreshed + 1)
    (hcol : s'.keys.recs = s.collected.recs)
    (hanew : s'.keys.dirty = true ∧ s'.keys.toMatch = .empty) : Collected gap s' := by
  have hscan := scanned_of_le hle
  have hscan' := scanned_of_le (s := s') (by omega)
  have hcol' : s'.collected = s'.keys := if_neg (by omega)
  refine ⟨fun key => ?_, fun key hkey => ?_, fun _ => hanew⟩
  · rw [hcol', hcol, h.keys_iff, hmaps]
    simp [hscan, hscan']
  · rw [hmaps]
    exact ⟨(h.gap_live key hkey).1, hscan' _⟩

theorem Collected.step (h : Collected gap s) (op : StoreOp) :
    Collected (gap ++ (s.gapKey op).toList) (s.step op) := by
  cases op with
  | openCounter name create made =>
    simp only [KeyStore.step]
    cases hc : s.creation (.openCounter name create made) with
    | some cd => exact h.insert hc
    | none => simpa [gapKey, hc] using h
  | refresh =>
    have hgap : s.gapKey .refresh = none := rfl
    rw [hgap, Option.toList_none, List.append_nil]
    simp only [KeyStore.step, refreshAllKeys]
    split_ifs with hlt h256 h257
    · exact h.scan hlt
    · refine h.later h256.ge rfl rfl ?_ ⟨rfl, rfl⟩
      simp [collected, h256, AllKeys.exchange]
    · refine h.later (by omega) rfl rfl ?_ (h.anew (by omega))
      simp [collected, h257]
    · exact h

theorem Collected.run (h : Collected gap s) (ops : List StoreOp) :
    Collected (gap ++ gapKeys s ops) (ops.foldl KeyStore.step s) := by
  induction ops generalizing s gap with
  | nil => simpa [gapKeys] using h
  | cons op ops ih =>
    rw [gapKeys, ← List.append_assoc]
    exact ih (h.step op)

/-- **Listings after a refresh, and what they lose.**  For every store, every order of calls of
`openCounter` and of the steps of a refresh, all finished: all counters that are not deleted, and
only they and what stands above them, are returned for `*`, if and only if every counter created
between the scan of its map and the exchange stands above another one, not created so. -/
theorem listing_iff (hs : s.Fresh) (ops : List StoreOp) (hend : (ops.foldl step s).Refreshed) :
    ((ops.foldl step s).LiveListed ∧ (ops.foldl step s).NoneDeletedListed) ↔
      ∀ key ∈ gapKeys s ops, ∃ key', (ops.foldl step s).shards.Live key' ∧
        key' ∉ gapKeys s ops ∧ Covers key key' := by
  have hstart : Collected [] s := by
    refine ⟨fun key => ?_, nofun, fun hlt => ?_⟩
    · simp [collected, hs.1, hs.2, Scanned]
    · rw [hs.1] at hlt
      cases hlt
  have hcol := hstart.run ops
  rw [List.nil_append] at hcol
  generalize ops.foldl step s = t at hend hcol ⊢
  generalize gapKeys s ops = gap at hcol ⊢
  have hend' : t.refreshed = 258 := hend
  have hanew := hcol.anew (by omega)
  have hlisted : ∀ q, q ∈ t.keys.listed ↔ ∃ key, t.shards.Live key ∧ key ∉ gap ∧ Covers q key := by
    intro q
    rw [AllKeys.mem_listed_iff hanew.1 hanew.2]
    have hcoll : t.collected = t.keys := if_neg (by omega)
    have hscan := scanned_of_le (s := t) (by omega)
    constructor
    · rintro ⟨cd, hmem, hq⟩
      obtain ⟨hl, -, hg⟩ := (hcol.keys_iff cd.name).1 ⟨cd, hcoll ▸ hmem, rfl⟩
      exact ⟨cd.name, hl, hg, hq⟩
    · rintro ⟨key, hl, hg, hq⟩
      obtain ⟨cd, hmem, rfl⟩ := (hcol.keys_iff key).2 ⟨hl, hscan _, hg⟩
      exact ⟨cd, hcoll ▸ hmem, hq⟩
  constructor
  · rintro ⟨hlive, -⟩ key hkey
    exact (hlisted key).1 (hlive key (hcol.gap_live key hkey).1)
  · intro h
    refine ⟨fun key hkey => (hlisted key).2 ?_, fun q hq => ?_⟩
    · by_cases hg : key ∈ gap
      · exact h key hg
      · exact ⟨key, hkey, hg, .refl key⟩
    · obtain ⟨key, hl, -, hc⟩ := (hlisted q).1 hq
      exact ⟨key, hl, hc⟩

end KeyStore

/-- A store without counters. -/
def emptyStore : KeyStore where
  shards := ⟨fun _ => [], fun _ _ he => by cases he⟩
  keys := ⟨[], false, .empty⟩
  keysWA := ⟨[], false, .empty⟩
  refreshed := 0

/-- A refresh, and after `n` steps of it a call that creates the gauge `a`, whose map is number
224. -/
def refreshOpening (n : ℕ) : List StoreOp :=
  List.replicate n .refresh ++ [.openCounter [byte 'a'] true (some false)] ++
    List.replicate (258 - n) .refresh

/-- The counter is created before its map is scanned. -/
theorem listing_sample :
    ((refreshOpening 100).foldl KeyStore.step emptyStore).LiveListed ∧
      ((refreshOpening 100).foldl KeyStore.step emptyStore).NoneDeletedListed := by
  have hgap : KeyStore.gapKeys emptyStore (refreshOpening 100) = [] := by decide +kernel
  have hend : ((refreshOpening 100).foldl KeyStore.step emptyStore).Refreshed := by
    unfold KeyStore.Refreshed
    decide +kernel
  refine (KeyStore.listing_iff ⟨rfl, rfl⟩ _ hend).2 ?_
  rw [hgap]
  nofun

/-- The scans of a store without counters. -/
theorem KeyStore.foldl_refresh_of_empty {s : KeyStore} (hs : ∀ i, s.shards.maps i = []) {n : ℕ}
    (hn : s.refreshed + n ≤ 256) :
    (List.replicate n .refresh).foldl step s = { s with refreshed := s.refreshed + n } := by
  induction n generalizing s with
  | zero => rfl
  | succ n ih =>
    have hmaps : s.shards.eraseDeleted (UInt8.ofNat s.refreshed) = s.shards := by
      ext1
      funext i
      by_cases hi : i = UInt8.ofNat s.refreshed
      · simp [Shards.eraseDeleted, hi, hs]
      · simp [Shards.eraseDeleted, hi]
    have hstep : s.step .refresh = { s with refreshed := s.refreshed + 1 } := by
      simp only [step, refreshAllKeys, if_pos (show s.refreshed < 256 by omega), scan, hmaps, hs,
        List.foldl_nil]
    have hrest := ih (s := { s with refreshed := s.refreshed + 1 }) hs (by show _ + 1 + n ≤ _; omega)
    rw [List.replicate_succ, List.foldl_cons, hstep, hrest, Nat.add_assoc, Nat.add_comm 1 n]

/-- The counter is created after the last scan and before the exchange. -/
theorem listing_lost :
    ¬ (((refreshOpening 256).foldl KeyStore.step emptyStore).LiveListed ∧
      ((refreshOpening 256).foldl KeyStore.step emptyStore).NoneDeletedListed) := by
  rintro ⟨h, -⟩
  rw [refreshOpening, List.append_assoc, List.foldl_append,
    KeyStore.foldl_refresh_of_empty (fun _ => rfl) (by decide)] at h
  have hlisted := h [byte 'a'] (Shards.live_iff.2 ⟨false, by decide +kernel⟩)
  revert hlisted
  decide +kernel

end Istatd
