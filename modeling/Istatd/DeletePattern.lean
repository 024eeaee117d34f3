import Istatd.Lib.Run
import Istatd.Listing
import Istatd.PatMatch

/-!
# Deletion of the counters of a pattern (`StatStore::deletePattern`)

`deletePattern` lists the names that match its pattern, and calls `deleteCounter` for one after the
other, which opens the counter and puts `theDeletedCounter` in its place.  Other calls run in between.
`openCounter` takes a leading `*` away and munges what is left.  The names listed are munged, as are
the keys they come from; and a `*` in a name is taken by a wildcard of the pattern, so that what is
left of the name is in its language as well.

* `DeletingStore.step`: the calls of the store and of the deletions that are under way;
* `Listable`: the names in the store are munged;
* `strPatMatch_sound`: the matcher ends, and no counter is deleted that the pattern does not denote.
-/

namespace Istatd

/-! ### Names that are munged -/

/-- A name that `munge` leaves alone. -/
def Munged (name : Bytes) : Prop := munge name = name

theorem mungeChar_mungeChar (ch : UInt8) : mungeChar (mungeChar ch) = mungeChar ch := by
  have hall : ∀ n < 256, mungeChar (mungeChar (UInt8.ofNat n)) = mungeChar (UInt8.ofNat n) := by
    decide +kernel
  have := hall ch.toNat ch.toNat_lt
  rwa [UInt8.ofNat_toNat] at this

theorem munged_munge (key : Bytes) : Munged (munge key) := by
  unfold Munged munge
  rw [List.map_map]
  exact List.map_congr_left fun ch _ => mungeChar_mungeChar ch

theorem Munged.left {x y : Bytes} (h : Munged (x ++ y)) : Munged x := by
  unfold Munged munge at h ⊢
  rw [List.map_append] at h
  exact (List.append_inj h (by simp)).1

theorem Munged.tail {ch : UInt8} {x : Bytes} (h : Munged (ch :: x)) : Munged x :=
  (List.cons.inj h).2

/-- What stands above a munged name. -/
theorem Munged.covers {q key : Bytes} (h : Munged key) (hq : Covers q key) : Munged q := by
  rcases hq with rfl | ⟨t, rfl⟩
  · exact h
  · exact h.left.left

theorem munged_openedKey {name key : Bytes} (h : openedKey name = some key) : Munged key := by
  unfold openedKey at h
  split at h
  · cases h
  · split_ifs at h
    · obtain rfl := Option.some.inj h
      exact munged_munge _
    · obtain rfl := Option.some.inj h
      exact munged_munge _

/-- The key of a munged name is in the language of every pattern that the name is in. -/
theorem Denotes.openedKey {pat name key : Bytes} (h : Denotes pat name) (hname : Munged name)
    (hkey : openedKey name = some key) : Denotes pat key := by
  unfold Istatd.openedKey at hkey
  split at hkey
  · cases hkey
  · split_ifs at hkey with hstar
    · obtain rfl := Option.some.inj hkey
      rw [hname.tail]
      rw [hstar] at h
      exact h.of_star
    · obtain rfl := Option.some.inj hkey
      rwa [hname]

/-! ### The store -/

/-- `theDeletedCounter` in place of a counter. -/
def Shards.markDeleted (m : Shards) (key : Bytes) : Shards where
  maps i := (m.maps i).map fun e => if e.1 = key then (e.1, .deleted) else e
  placed i e he := by
    obtain ⟨e', he', rfl⟩ := List.mem_map.1 he
    have := m.placed i e' he'
    split_ifs
    · exact this
    · exact this

/-- `StatStore::deleteCounter`, of a counter that `openCounter` finds. -/
def KeyStore.deleteCounter (s : KeyStore) (ctr : Bytes) : KeyStore :=
  match openedKey ctr with
  | none => s
  | some xform => { s with shards := s.shards.markDeleted xform }

/-- A call of `deletePattern`: its pattern, and the names of its list that are still to come. -/
structure Deletion where
  pattern : Bytes
  results : List Bytes
  deriving DecidableEq

/-- A store and the calls of `deletePattern` that are under way. -/
structure DeletingStore where
  store : KeyStore
  deletions : List Deletion

/-- A call of `openCounter` or the next step of a refresh; the beginning of another refresh; a call
of `deleteCounter`; a call of `deletePattern`, up to its loop; the next round of the loop of a call
that is under way. -/
inductive DeletingOp
  | store (op : StoreOp)
  | scheduleRefresh
  | deleteCounter (ctr : Bytes)
  | deletePattern (pattern : Bytes)
  | deleteNext (i : ℕ)
  deriving DecidableEq

namespace DeletingStore

/-- One step. -/
def step (s : DeletingStore) : DeletingOp → DeletingStore
  | .store op => { s with store := s.store.step op }
  | .scheduleRefresh =>
    if s.store.refreshed = 258 then { s with store := { s.store with refreshed := 0 } } else s
  | .deleteCounter ctr => { s with store := s.store.deleteCounter ctr }
  | .deletePattern pattern =>
    let matched := s.store.keys.matchKeys pattern
    { store := { s.store with keys := matched.2 }
      deletions := s.deletions ++ [⟨pattern, matched.1.map Prod.fst⟩] }
  | .deleteNext i =>
    match s.deletions[i]? with
    | some ⟨pattern, name :: results⟩ =>
      { store := s.store.deleteCounter name
        deletions := s.deletions.set i ⟨pattern, results⟩ }
    | _ => s

/-- A step deletes the counter. -/
def Deletes (s : DeletingStore) (op : DeletingOp) (key : Bytes) : Prop :=
  s.store.shards.Live key ∧ ¬ (s.step op).store.shards.Live key

end DeletingStore

/-- A store that has just been made. -/
def emptyDeleting : DeletingStore := ⟨emptyStore, []⟩

/-! ### The names in a store -/

theorem KeyMatch.Closed.foldl_insert {m : KeyMatch} (h : m.Closed) (cds : List CounterData) :
    (cds.foldl KeyMatch.insert m).Closed := by
  induction cds generalizing m with
  | nil => exact h
  | cons cd cds ih => exact ih (KeyMatch.insert_spec h cd).1

/-- The names of the keys, and of what has been made of them, are munged. -/
structure AllKeys.Listable (a : AllKeys) : Prop where
  recs : ∀ cd ∈ a.recs, Munged cd.name
  closed : a.toMatch.Closed
  names : ∀ q ∈ a.toMatch.names, Munged q

namespace AllKeys

variable {a ak : AllKeys}

theorem Listable.add (h : a.Listable) {str : Bytes} (hstr : Munged str) (isCollated : Bool) :
    (a.add str isCollated).Listable :=
  ⟨List.forall_mem_cons.2 ⟨hstr, h.recs⟩, h.closed, h.names⟩

theorem listable_of_empty (h : ∀ cd ∈ a.recs, Munged cd.name) (hempty : a.toMatch = .empty) :
    a.Listable := by
  refine ⟨h, ?_, ?_⟩
  · rw [hempty]
    nofun
  · rw [hempty]
    nofun

theorem Listable.exchange (h : a.Listable) (hak : ak.Listable) :
    (a.exchange ak).1.Listable ∧ (a.exchange ak).2.Listable :=
  ⟨listable_of_empty hak.recs rfl, h.recs, hak.closed, hak.names⟩

theorem listable_deleteAll (a : AllKeys) : a.deleteAll.Listable := listable_of_empty nofun rfl

theorem Listable.matchKeys (h : a.Listable) (path : Bytes) :
    (a.matchKeys path).2.Listable ∧
      ∀ e ∈ (a.matchKeys path).1, Munged e.1 ∧ strPatMatch e.1 path = some true := by
  -- an entry that is extracted has a name of the map
  have hextract : ∀ {m : KeyMatch}, (∀ q ∈ m.names, Munged q) → ∀ e ∈ m.extract path,
      Munged e.1 ∧ strPatMatch e.1 path = some true := by
    intro m hm e he
    obtain ⟨hmem, hmatch⟩ := List.mem_filter.1 he
    exact ⟨hm e.1 (List.mem_map_of_mem hmem), of_decide_eq_true hmatch⟩
  have hnames : ∀ q ∈ (a.recs.foldl KeyMatch.insert a.toMatch).names, Munged q := by
    intro q hq
    rcases (KeyMatch.mem_names_foldl_insert_iff h.closed a.recs).1 hq with hq | ⟨cd, hcd, hcov⟩
    · exact h.names q hq
    · exact (h.recs cd hcd).covers hcov
  unfold AllKeys.matchKeys
  split_ifs
  · exact ⟨⟨h.recs, h.closed.foldl_insert a.recs, hnames⟩, hextract hnames⟩
  · exact ⟨h, hextract h.names⟩

end AllKeys

namespace KeyStore

variable {s : KeyStore}

/-- The names in the maps and those of the keys are munged. -/
structure Listable (s : KeyStore) : Prop where
  maps : ∀ i, ∀ e ∈ s.shards.maps i, Munged e.1
  keys : s.keys.Listable
  keysWA : s.keysWA.Listable

theorem munged_of_creation {op : StoreOp} {cd : CounterData} (h : s.creation op = some cd) :
    Munged cd.name := by
  cases op with
  | refresh => cases h
  | openCounter name create made =>
    simp only [creation] at h
    split at h
    · cases h
    · rename_i xform hkey
      split at h
      · cases h
      · split_ifs at h
        obtain ⟨b, -, rfl⟩ := Option.map_eq_some_iff.1 h
        exact munged_openedKey hkey

theorem Listable.insert (h : s.Listable) {cd : CounterData} (hcd : Munged cd.name) :
    (s.insert cd).Listable := by
  refine ⟨fun i e he => ?_, h.keys.add hcd _, h.keysWA⟩
  simp only [KeyStore.insert, Shards.insert] at he
  by_cases hi : i = shardIndex cd.name
  · rw [hi, Function.update_self] at he
    rcases List.mem_cons.1 he with rfl | he
    · exact hcd
    · exact h.maps _ e he
  · rw [Function.update_of_ne hi] at he
    exact h.maps i e he

theorem listable_foldl_scanEntry {a : AllKeys} {l : List (Bytes × StoreEntry)} (ha : a.Listable)
    (hl : ∀ e ∈ l, Munged e.1) : (l.foldl scanEntry a).Listable := by
  induction l generalizing a with
  | nil => exact ha
  | cons e l ih =>
    obtain ⟨he, hrest⟩ := List.forall_mem_cons.1 hl
    obtain ⟨key, c | _⟩ := e
    · exact ih (ha.add he c) hrest
    · exact ih ha hrest

theorem Listable.scan (h : s.Listable) (i : UInt8) : (s.scan i).Listable := by
  refine ⟨fun j e he => ?_, h.keys, listable_foldl_scanEntry h.keysWA (h.maps i)⟩
  simp only [KeyStore.scan, Shards.eraseDeleted] at he
  by_cases hj : j = i
  · rw [hj, Function.update_self] at he
    exact h.maps i e (List.mem_of_mem_filter he)
  · rw [Function.update_of_ne hj] at he
    exact h.maps j e he

theorem Listable.step (h : s.Listable) (op : StoreOp) : (s.step op).Listable := by
  cases op with
  | openCounter name create made =>
    simp only [KeyStore.step]
    cases hc : s.creation (.openCounter name create made) with
    | none => exact h
    | some cd => exact h.insert (munged_of_creation hc)
  | refresh =>
    simp only [KeyStore.step, refreshAllKeys]
    split_ifs
    · exact h.scan _
    · obtain ⟨hkeys, hkeysWA⟩ := h.keys.exchange h.keysWA
      exact ⟨h.maps, hkeys, hkeysWA⟩
    · exact ⟨h.maps, h.keys, s.keysWA.listable_deleteAll⟩
    · exact h

theorem Listable.deleteCounter (h : s.Listable) (ctr : Bytes) : (s.deleteCounter ctr).Listable := by
  unfold KeyStore.deleteCounter
  split
  · exact h
  · refine ⟨fun i e he => ?_, h.keys, h.keysWA⟩
    obtain ⟨e', he', rfl⟩ := List.mem_map.1 he
    have := h.maps i e' he'
    split_ifs
    · exact this
    · exact this

/-- `deleteCounter` deletes the counter whose key it opens, and no other. -/
theorem openedKey_of_deleted {ctr key : Bytes} (hlive : s.shards.Live key)
    (hdead : ¬ (s.deleteCounter ctr).shards.Live key) : openedKey ctr = some key := by
  by_contra hne
  apply hdead
  unfold KeyStore.deleteCounter
  split
  · exact hlive
  · rename_i xform hkey
    have hkx : key ≠ xform := fun h => hne (h ▸ hkey)
    obtain ⟨i, c, hc⟩ := hlive
    refine ⟨i, c, List.mem_map.2 ⟨_, hc, ?_⟩⟩
    rw [if_neg hkx]

end KeyStore

namespace DeletingStore

variable {s : DeletingStore}

/-- The names that are to be deleted were matched, and all names are munged. -/
structure Listable (s : DeletingStore) : Prop where
  store : s.store.Listable
  results : ∀ d ∈ s.deletions, ∀ name ∈ d.results,
    Munged name ∧ strPatMatch name d.pattern = some true

theorem Listable.step (h : s.Listable) (op : DeletingOp) : (s.step op).Listable := by
  cases op with
  | store op => exact ⟨h.store.step op, h.results⟩
  | scheduleRefresh =>
    unfold DeletingStore.step
    simp only
    split_ifs
    · exact ⟨⟨h.store.maps, h.store.keys, h.store.keysWA⟩, h.results⟩
    · exact h
  | deleteCounter ctr => exact ⟨h.store.deleteCounter ctr, h.results⟩
  | deletePattern pattern =>
    obtain ⟨hkeys, hmatched⟩ := h.store.keys.matchKeys pattern
    refine ⟨⟨h.store.maps, hkeys, h.store.keysWA⟩, fun d hd => ?_⟩
    rcases List.mem_append.1 hd with hd | hd
    · exact h.results d hd
    · obtain rfl := List.mem_singleton.1 hd
      intro name hname
      obtain ⟨e, he, rfl⟩ := List.mem_map.1 hname
      exact hmatched e he
  | deleteNext i =>
    unfold DeletingStore.step
    simp only
    split
    · rename_i pattern name results hd
      have hresults := h.results _ (List.mem_of_getElem? hd)
      refine ⟨h.store.deleteCounter name, fun d hmem => ?_⟩
      rcases List.mem_or_eq_of_mem_set hmem with hmem | rfl
      · exact h.results d hmem
      · exact (List.forall_mem_cons.1 hresults).2
    · exact h

theorem listable_run (ops : List DeletingOp) : (ops.foldl step emptyDeleting).Listable := by
  refine Run.invariant (fun s op h => h.step op) ?_ ops
  exact ⟨⟨nofun, AllKeys.listable_of_empty nofun rfl, AllKeys.listable_of_empty nofun rfl⟩, nofun⟩

/-- What the next round of a deletion deletes is in the language of its pattern. -/
theorem Listable.denotes {pat key : Bytes} {i : ℕ} {results : List Bytes} (h : s.Listable)
    (h0 : 0 ∉ pat) (hd : s.deletions[i]? = some ⟨pat, results⟩)
    (hkey : s.Deletes (.deleteNext i) key) : Denotes pat key := by
  obtain ⟨hlive, hdead⟩ := hkey
  simp only [DeletingStore.step, hd] at hdead
  cases results with
  | nil => exact absurd hlive hdead
  | cons name results =>
    obtain ⟨hname, hmatch⟩ := h.results _ (List.mem_of_getElem? hd) name List.mem_cons_self
    have hopened := KeyStore.openedKey_of_deleted hlive hdead
    exact (denotes_of_strPatMatch h0 hmatch).openedKey hname hopened

end DeletingStore

/-- **Soundness.**  The matcher ends, and a string that it accepts is in the language of the pattern;
in every run of the store a call of `deletePattern` only deletes counters whose names are in it. -/
theorem strPatMatch_sound {pat : Bytes} (h0 : 0 ∉ pat) :
    (∀ str, ∃ result, strPatMatch str pat = some result ∧ (result = true → Denotes pat str)) ∧
      ∀ (ops : List DeletingOp) (i : ℕ) (results : List Bytes) (key : Bytes),
        (ops.foldl DeletingStore.step emptyDeleting).deletions[i]? = some ⟨pat, results⟩ →
        (ops.foldl DeletingStore.step emptyDeleting).Deletes (.deleteNext i) key →
          Denotes pat key := by
  refine ⟨fun str => ?_, fun ops i results key hd hkey => ?_⟩
  · obtain ⟨result, hresult, hiff⟩ := strPatMatch_spec h0 str
    exact ⟨result, hresult, fun h => denotes_of_readAs (hiff.1 h)⟩
  · exact (DeletingStore.listable_run ops).denotes h0 hd hkey

/-- A counter is made, and the deletion of those of a pattern begins. -/
def deletionSample : List DeletingOp :=
  [.store (.openCounter (bytes "Ab") true (some false)), .deletePattern (bytes "a?")]

theorem strPatMatch_sound_sample :
    (deletionSample.foldl DeletingStore.step emptyDeleting).Deletes (.deleteNext 0) (bytes "ab") ∧
      Denotes (bytes "a?") (bytes "ab") := by
  have hdeletes : (deletionSample.foldl DeletingStore.step emptyDeleting).Deletes (.deleteNext 0)
      (bytes "ab") := by
    refine ⟨Shards.live_iff.2 ⟨false, by decide +kernel⟩, fun h => ?_⟩
    obtain ⟨c, hc⟩ := Shards.live_iff.1 h
    cases c
    · revert hc
      decide +kernel
    · revert hc
      decide +kernel
  exact ⟨hdeletes, (strPatMatch_sound (by decide)).2 deletionSample 0 [bytes "ab"] _
    (by decide +kernel) hdeletes⟩

end Istatd
