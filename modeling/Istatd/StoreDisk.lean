import Istatd.CounterPaths
import Istatd.DeletePattern
import Istatd.KeyTree
import Istatd.Lib.FileTree
import Istatd.StoreParents

/-!
# The directory of the store (`daemon/StatStore.cpp`, `daemon/StatCounterFactory.cpp`)

The data files of a counter are all that is left of it when the daemon stops.  When it starts,
`scanDir` goes through the directories of the store, each after those in it, and opens a counter for
every one: `loadCtr` makes a name of the path.  Unless counters are created recursively, it opens
only those whose data files are all there.

A data file knows its path from its header, where it is cut to 255 bytes: this is the path that is
linked to a copy, and removed, when the counter is purged.  If that fails the rest of the deletion
is not done.

The operations are taken one after another, each with all that it posts; `Istatd/StatStore.lean` has
them cut at their locks.  Data files are made and removed when the tree has room for that, and
those that are there can be opened and copied; the removal of an empty store by pruning is left out.
The keys are a list, not a sharded map.

* `DiskStore`: the keys, and the directory of the store as a `Disk`;
* `DiskStore.openCounter`, `deletePattern`, `pruneEmptyDirs`, `restart`: the operations;
* `Storable`: a key with paths that are not cut, and that keep it apart from others;
* `Holds`: the directory holds some counters and nothing else;
* `openCounter_spec`, `restart_spec`, `purge_spec`, `prune_spec`: what becomes of that;
* `restart_recovers`: what is on the disk after any operations, and what a restart makes of it.
-/

namespace Istatd

open Paths FileTree

/-- A name of a file in the directory of a counter. -/
abbrev FileName := {name : Bytes // IsFileName name}

/-- A store: `recursivelyCreateCounters_`, `rootPath_`, the names of the intervals of `policy_`, the
keys of `counterShards_`, those of them with `theDeletedCounter`, the directory `rootPath_`, and what
there is in the backup directory. -/
structure DiskStore where
  recursivelyCreateCounters : Bool
  rootPath : Bytes
  policy : List FileName
  keys : List Bytes
  deleted : List Bytes
  disk : Disk Bytes
  backup : List (List Bytes)

/-- The directory of a counter, from the root of the store. -/
def counterDir (key : Bytes) : List Bytes :=
  walk dotName dotdotName [] (components (counterFilename key))

/-- What `StatCounterFactory::create` comes to. -/
inductive Created
  | null
  | made
  | threw
  deriving DecidableEq

namespace DiskStore

variable (s : DiskStore)

/-! ### The factory -/

/-- `StatCounterFactory::statCounterFilesExist`. -/
def statCounterFilesExist (dir : List Bytes) : Bool :=
  s.policy.all fun name => s.disk.stat (dir ++ [name.1]) ≠ none

/-- The loop of `StatCounter::StatCounter` over the intervals; it ends with an exception at a file
that cannot be opened. -/
def openDataFiles (dir : List Bytes) : List FileName → Disk Bytes → Disk Bytes × Bool
  | [], disk => (disk, true)
  | name :: names, disk =>
    match disk.addFile dir name.1 with
    | none => (disk, false)
    | some disk => openDataFiles dir names disk

/-- `StatCounter::StatCounter`, as far as it changes the directory. -/
def construct (dir : List Bytes) : Disk Bytes × Bool :=
  match (if s.disk.stat dir = none then s.disk.mkdirs dir else some s.disk) with
  | none => (s.disk, false)
  | some disk => openDataFiles dir s.policy disk

/-- `StatCounterFactory::create`. -/
def create (key : Bytes) (onlyExisting : Bool) : Created × DiskStore :=
  if onlyExisting ∧ ¬s.statCounterFilesExist (counterDir key) then (.null, s)
  else (if (s.construct (counterDir key)).2 then .made else .threw,
    { s with disk := (s.construct (counterDir key)).1 })

/-! ### The store -/

/-- `StatStore::openCounter` with `create` set, for a name of at most `n` bytes. -/
def openCounter (onlyExisting : Bool) : ℕ → Bytes → DiskStore → DiskStore
  | 0, _, s => s
  | n + 1, name, s =>
    match openedKey name with
    | none => s
    | some xform =>
      if xform ∈ s.keys then s
      else
        match s.create xform onlyExisting with
        | (.made, s) =>
          let s := { s with keys := s.keys ++ [xform] }
          if s.recursivelyCreateCounters then
            match beforeLastDot name with
            | none => s
            | some sex => openCounter onlyExisting n sex s
          else s
        | (_, s) => s

/-- `StatStore::loadCtr`. -/
def loadCtr (file : Bytes) (s : DiskStore) : DiskStore :=
  let cname := file.map fun ch => if ch = slash then byte '.' else ch
  openCounter (!s.recursivelyCreateCounters) cname.length cname s

/-- `StatStore::scanDir`, with the entries of the directory as `readdir` returns them. -/
def scanDir (dir : Bytes) : FileTree Bytes → DiskStore → DiskStore
  | .empty, s => s
  | .file _ rest, s => scanDir dir rest s
  | .dir name sub rest, s =>
    if name.head? = some (byte '.') then scanDir dir rest s
    else
      let path := dir ++ name
      scanDir dir rest (loadCtr path (scanDir (path ++ [slash]) sub s))

/-- `StatFile::getPath` of a data file, from `rootPath_` on: the `name` in the header has room for 255
bytes. -/
def getPath (rootPath key : Bytes) (name : FileName) : List Bytes :=
  walk dotName dotdotName [] (components
    (((rootPath ++ slash :: dataPath key name.1).take 255).drop (rootPath.length + 1)))

/-- `StatCounter::wrap_remove`. -/
def wrapRemove (path : List Bytes) (disk : Disk Bytes) : Disk Bytes :=
  match path.reverse with
  | [] => disk
  | name :: above => disk.remove above.reverse name

/-- The loop of `StatCounter::purge` over the files; it ends with an exception if there is no copy of
a file, or the file stays. -/
def purgeFiles : List (List Bytes) → Disk Bytes → List (List Bytes) →
    (Disk Bytes × List (List Bytes)) × Bool
  | [], disk, backup => ((disk, backup), true)
  | path :: paths, disk, backup =>
    if disk.stat path = some .file ∨ path ∈ backup then
      if (wrapRemove path disk).stat path = none then
        purgeFiles paths (wrapRemove path disk) (path :: backup)
      else ((wrapRemove path disk, path :: backup), false)
    else ((disk, backup), false)

/-- `StatCounter::purge` of the counter with a key; false if it throws. -/
def purge (key : Bytes) : DiskStore × Bool :=
  let paths := s.policy.map (getPath s.rootPath key)
  let parentPath := (paths.headD []).dropLast
  match purgeFiles paths s.disk (s.backup ++ parentPath.inits) with
  | ((disk, backup), true) =>
    ({ s with disk := wrapRemove parentPath disk, backup := backup }, true)
  | ((disk, backup), false) => ({ s with disk := disk, backup := backup }, false)

/-- `StatStore::pruneEmptyDirs` of the root. -/
def pruneEmptyDirs (s : DiskStore) : DiskStore := { s with disk := s.disk.prune }

/-- `StatStore::refreshKeys`. -/
def refreshKeys (s : DiskStore) : DiskStore :=
  { s with keys := s.keys.filter (· ∉ s.deleted), deleted := [] }

/-- `StatStore::deleteCounter` for a `Deleter`: the key of the counter to be purged, if it is not
`theDeletedCounter`. -/
def deleteCounter (ctr : Bytes) (s : DiskStore) : DiskStore × Option Bytes :=
  match openedKey ctr with
  | none => (s, none)
  | some key =>
    if key ∈ s.keys ∧ key ∉ s.deleted then ({ s with deleted := s.deleted ++ [key] }, some key)
    else (s, none)

/-- The loop of `StatStore::deletePattern`, with the work it adds. -/
def deleteCounters : List Bytes → DiskStore → DiskStore × List Bytes
  | [], s => (s, [])
  | ctr :: names, s =>
    let r := deleteCounters names (deleteCounter ctr s).1
    (r.1, (deleteCounter ctr s).2.toList ++ r.2)

/-- `Deleter::go` and `Deleter::delete_stuff`, until a purge throws. -/
def goDelete : List Bytes → DiskStore → DiskStore
  | [], s => s.pruneEmptyDirs.refreshKeys
  | key :: toDelete, s =>
    match s.purge key with
    | (s, true) => goDelete toDelete s
    | (s, false) => s

/-- What is done with a store: a counter is opened or created, some are deleted, empty directories
are pruned, the keys are refreshed, or the daemon is stopped and started. -/
inductive Op
  | openCounter (name : Bytes)
  | delete (names : List Bytes)
  | prune
  | refresh
  | restart

/-- One operation. -/
def step (s : DiskStore) : Op → DiskStore
  | .openCounter name => openCounter false name.length name s
  | .delete names => goDelete (deleteCounters names s).2 (deleteCounters names s).1
  | .prune => s.pruneEmptyDirs
  | .refresh => s.refreshKeys
  | .restart => scanDir [] s.disk.root { s with keys := [], deleted := [] }

/-- An empty store. -/
def new (recursively : Bool) (rootPath : Bytes) (policy : List FileName) : DiskStore :=
  ⟨recursively, rootPath, policy, [], [], Disk.empty, []⟩

/-- The store after some operations. -/
def run (recursively : Bool) (rootPath : Bytes) (policy : List FileName) (ops : List Op) :
    DiskStore :=
  ops.foldl step (new recursively rootPath policy)

end DiskStore

/-! ### Keys and paths -/

/-- The name of a counter that `loadCtr` makes of a path. -/
def joinDots (p : List Bytes) : Bytes := [byte '.'].intercalate p

/-- A key that a path stands for: it is munged, has no empty part and no star in front, no part of it
is the name of a data file, and the paths of its data files have no more than 255 bytes. -/
structure Storable (root : Bytes) (policy : List FileName) (key : Bytes) : Prop where
  munged : Munged key
  full : [] ∉ key.splitOn (byte '.')
  star : key.head? ≠ some (byte '*')
  apart : ∀ name ∈ policy, name.1 ∉ parts key
  short : ∀ name ∈ policy, (root ++ slash :: dataPath key name.1).length ≤ 255

theorem intercalate_append {sep : Bytes} {p r : List Bytes} (hp : p ≠ []) (hr : r ≠ []) :
    sep.intercalate (p ++ r) = sep.intercalate p ++ (sep ++ sep.intercalate r) := by
  induction p with
  | nil => exact absurd rfl hp
  | cons x p ih =>
    rw [List.cons_append, List.intercalate_cons_of_ne_nil (by simp [hr])]
    by_cases hnil : p = []
    · subst hnil
      rw [List.nil_append, List.intercalate_singleton, List.append_assoc]
    · rw [ih hnil, List.intercalate_cons_of_ne_nil hnil]
      simp only [List.append_assoc]

theorem mem_intercalate {sep c : Bytes} {p : List Bytes} {ch : UInt8} (hc : c ∈ p) (hch : ch ∈ c) :
    ch ∈ sep.intercalate p := by
  induction p with
  | nil => cases hc
  | cons x p ih =>
    by_cases hnil : p = []
    · subst hnil
      rw [List.intercalate_singleton, ← List.mem_singleton.1 hc]
      exact hch
    · rw [List.intercalate_cons_of_ne_nil hnil]
      rcases List.mem_cons.1 hc with rfl | hc
      · simp [hch]
      · simp [ih hc]

namespace Storable

variable {root : Bytes} {policy : List FileName} {key q k : Bytes} {p : List Bytes}

theorem slash_not_mem (h : Storable root policy key) : slash ∉ key := by
  have := slash_not_mem_munge key
  rwa [h.munged] at this

theorem parts_eq (h : Storable root policy key) : parts key = key.splitOn (byte '.') := by
  refine List.filter_eq_self.2 fun c hc => ?_
  have hne : c ≠ [] := fun e => h.full (e ▸ hc)
  simpa using hne

theorem parts_ne_nil (h : Storable root policy key) : parts key ≠ [] := by
  rw [h.parts_eq]
  exact List.splitOn_ne_nil _ _

theorem joinDots_parts (h : Storable root policy key) : joinDots (parts key) = key := by
  rw [h.parts_eq]
  exact List.intercalate_splitOn _

theorem slash_not_mem_part (h : Storable root policy key) {c : Bytes} (hc : c ∈ parts key) :
    slash ∉ c := fun hmem => h.slash_not_mem (by
  rw [← h.joinDots_parts]
  exact mem_intercalate hc hmem)

theorem eq_of_parts (h : Storable root policy key) (hk : Storable root policy k)
    (e : parts key = parts k) : key = k := by
  rw [← h.joinDots_parts, e, hk.joinDots_parts]

theorem counterDir_eq (h : Storable root policy key) : counterDir key = parts key := by
  have hcomp : components (counterFilename key) = parts key := by
    unfold components parts
    rw [splitOn_counterFilename h.slash_not_mem]
  rw [counterDir, hcomp, walk_of_names (names_parts key), List.nil_append]

theorem fileOf_eq (h : Storable root policy key) (name : FileName) :
    fileOf [] key name.1 = parts key ++ [name.1] := by
  rw [fileOf, components_dataPath h.slash_not_mem, components_of_isFileName name.2,
    walk_of_names (names_data name.2 key), List.nil_append]

/-- The path in the header of a data file is that of the file. -/
theorem getPath_eq (h : Storable root policy key) {name : FileName} (hname : name ∈ policy) :
    DiskStore.getPath root key name = parts key ++ [name.1] := by
  have hwhole : (root ++ slash :: dataPath key name.1).take 255 =
      root ++ slash :: dataPath key name.1 := List.take_of_length_le (h.short name hname)
  have hdrop : (root ++ slash :: dataPath key name.1).drop (root.length + 1) =
      dataPath key name.1 := by
    rw [← List.singleton_append, ← List.append_assoc]
    exact List.drop_left' (by simp)
  rw [DiskStore.getPath, hwhole, hdrop]
  exact h.fileOf_eq name

/-- A data file is below no counter but its own. -/
theorem not_isPrefix (h : Storable root policy key) {name : FileName} (hname : name ∈ policy) :
    ¬p ++ [name.1] <+: parts key := fun hp =>
  h.apart name hname (hp.mem (List.mem_append_right p (List.mem_singleton.2 rfl)))

/-- What stands above such a key is another one. -/
theorem above (h : Storable root policy key) (hq : Above q key) :
    Storable root policy q ∧ parts q <+: parts key := by
  obtain ⟨r, rfl⟩ := hq
  have hsplit : (q ++ [byte '.'] ++ r).splitOn (byte '.') =
      q.splitOn (byte '.') ++ r.splitOn (byte '.') := by
    rw [List.append_assoc, List.singleton_append]
    exact List.splitOn_append_cons_self _ _
  have hfull : [] ∉ q.splitOn (byte '.') := fun hn => h.full (by
    rw [hsplit]
    exact List.mem_append_left _ hn)
  have hparts : parts (q ++ [byte '.'] ++ r) = parts q ++ parts r := by
    unfold parts
    rw [hsplit, List.filter_append]
  refine ⟨⟨h.munged.left.left, hfull, ?_, fun name hname hc => ?_, fun name hname => ?_⟩,
    hparts ▸ List.prefix_append _ _⟩
  · cases q with
    | nil => simp
    | cons ch q => simpa using h.star
  · refine h.apart name hname ?_
    rw [hparts]
    exact List.mem_append_left _ hc
  · have hlen := h.short name hname
    simp only [List.length_append, List.length_cons, List.length_map, dataPath,
      counterFilename] at hlen ⊢
    omega

/-- The path above such a key is that of another one. -/
theorem of_isPrefix (h : Storable root policy key) (hp : p <+: parts key) (hne : p ≠ []) :
    Covers (joinDots p) key ∧ Storable root policy (joinDots p) ∧ parts (joinDots p) = p := by
  have hcovers : Covers (joinDots p) key := by
    obtain ⟨r, hr⟩ := hp
    by_cases hnil : r = []
    · left
      rw [← h.joinDots_parts, ← hr, hnil, List.append_nil]
    · right
      refine ⟨joinDots r, ?_⟩
      rw [List.append_assoc, joinDots, joinDots, ← intercalate_append hne hnil, hr]
      exact h.joinDots_parts
  have hst : Storable root policy (joinDots p) := by
    rcases hcovers with e | habove
    · exact e ▸ h
    · exact (h.above habove).1
  refine ⟨hcovers, hst, ?_⟩
  rw [hst.parts_eq]
  refine List.splitOn_intercalate _ (fun c hc => ?_) hne
  have hmem : c ∈ key.splitOn (byte '.') := by
    rw [← h.parts_eq]
    exact hp.mem hc
  exact Lines.not_mem_of_mem_splitOn hmem

theorem openedKey (h : Storable root policy key) : Istatd.openedKey key = some key := by
  cases key with
  | nil => exact absurd (by simp) h.full
  | cons ch rest =>
    have hstar : ch ≠ byte '*' := by simpa using h.star
    rw [Istatd.openedKey, if_neg hstar, h.munged]

end Storable

theorem above_munge (x r : Bytes) : Above (munge x) (munge (x ++ byte '.' :: r)) := by
  refine ⟨munge r, ?_⟩
  have hdot : mungeChar (byte '.') = byte '.' := by decide
  simp [munge, hdot]

/-- The name that `openCounter` goes on with leads to the parent. -/
theorem openedKey_stripped {name key sex q : Bytes} (hk : openedKey name = some key)
    (hsex : beforeLastDot name = some sex) (hq : openedKey sex = some q) : Above q key := by
  obtain ⟨r, rfl, -⟩ := beforeLastDot_eq_some_iff.1 hsex
  cases sex with
  | nil => cases hq
  | cons ch rest =>
    simp only [List.cons_append, openedKey] at hk hq
    split_ifs at hk hq
    · obtain rfl := Option.some.inj hk
      obtain rfl := Option.some.inj hq
      exact above_munge rest r
    · obtain rfl := Option.some.inj hk
      obtain rfl := Option.some.inj hq
      exact above_munge (ch :: rest) r

/-! ### What the directory holds -/

/-- The data files in the directory are those of the counters with the keys `K`. -/
structure HoldsFiles (root : Bytes) (policy : List FileName) (K : Set Bytes) (disk : Disk Bytes) :
    Prop where
  storable : ∀ k ∈ K, Storable root policy k
  files : ∀ p, disk.stat p = some .file ↔ ∃ k ∈ K, ∃ name ∈ policy, p = parts k ++ [name.1]

/-- The directory holds the counters with the keys `K` and nothing else. -/
structure Holds (root : Bytes) (policy : List FileName) (K : Set Bytes) (disk : Disk Bytes) : Prop
    extends HoldsFiles root policy K disk where
  dirs : ∀ p, disk.stat p = some .dir ↔ p = [] ∨ ∃ k ∈ K, p <+: parts k

variable {root : Bytes} {policy : List FileName} {K : Set Bytes} {disk : Disk Bytes} {s : DiskStore}
  {key : Bytes} {p q : List Bytes}

/-- There is no file on the way to a counter. -/
theorem HoldsFiles.not_file (h : HoldsFiles root policy K disk) (hk : Storable root policy key)
    (hq : q <+: parts key) : disk.stat q ≠ some .file := fun hfile => by
  obtain ⟨k, -, name, hname, rfl⟩ := (h.files q).1 hfile
  exact hk.not_isPrefix hname hq

/-- There is no directory in the place of a data file. -/
theorem Holds.not_dir (h : Holds root policy K disk) {name : FileName} (hname : name ∈ policy) :
    disk.stat (q ++ [name.1]) ≠ some .dir := fun hdir => by
  rcases (h.dirs _).1 hdir with hnil | ⟨k, hk, hpre⟩
  · simp at hnil
  · exact (h.storable k hk).not_isPrefix hname hpre

namespace DiskStore

/-- The data files of a counter are opened. -/
theorem openDataFiles_spec (p : List Bytes) (names : List FileName) (disk : Disk Bytes)
    (hdir : disk.stat p = some .dir) (hno : ∀ name ∈ names, disk.stat (p ++ [name.1]) ≠ some .dir) :
    ∃ disk', openDataFiles p names disk = (disk', true) ∧ ∀ q, disk'.stat q =
      if ∃ name ∈ names, q = p ++ [name.1] then some .file else disk.stat q := by
  induction names generalizing disk with
  | nil => exact ⟨disk, rfl, fun q => by simp⟩
  | cons name names ih =>
    obtain ⟨hname, hnames⟩ := List.forall_mem_cons.1 hno
    obtain ⟨disk₁, hadd⟩ := Option.isSome_iff_exists.1 (Disk.addFile_isSome_iff.2 ⟨hdir, hname⟩)
    have hstat : ∀ q, disk₁.stat q = if q = p ++ [name.1] then some .file else disk.stat q :=
      fun q => Disk.stat_addFile hadd
    obtain ⟨disk', hopen, hdisk'⟩ := ih disk₁
      (by rw [hstat, if_neg (by simp), hdir])
      (fun n hn => by
        rw [hstat]
        split_ifs
        · simp
        · exact hnames n hn)
    refine ⟨disk', by rw [openDataFiles, hadd]; exact hopen, fun q => ?_⟩
    rw [hdisk', hstat]
    by_cases hq : q = p ++ [name.1]
    · rw [if_pos hq, ite_self]
      exact (if_pos ⟨name, List.mem_cons_self, hq⟩).symm
    · have hiff : (∃ n ∈ name :: names, q = p ++ [n.1]) ↔ ∃ n ∈ names, q = p ++ [n.1] := by
        rw [List.exists_mem_cons_iff, or_iff_right hq]
      rw [if_neg hq]
      exact if_congr hiff.symm rfl rfl

/-- A counter is made, or opened. -/
theorem construct_spec (h : Holds s.rootPath s.policy K s.disk)
    (hk : Storable s.rootPath s.policy key) : ∃ disk, s.construct (parts key) = (disk, true) ∧
      Holds s.rootPath s.policy (insert key K) disk := by
  have hdirs : ∃ disk, (if s.disk.stat (parts key) = none then s.disk.mkdirs (parts key)
      else some s.disk) = some disk ∧
      ∀ q, disk.stat q = if q <+: parts key then some .dir else s.disk.stat q := by
    split_ifs with hnone
    · obtain ⟨disk, hmk⟩ := Option.isSome_iff_exists.1
        (Disk.mkdirs_isSome_iff.2 fun q hq => h.not_file hk hq)
      exact ⟨disk, hmk, fun q => Disk.stat_mkdirs hmk⟩
    · refine ⟨s.disk, rfl, fun q => ?_⟩
      split_ifs with hq
      · obtain ⟨r, hr⟩ := hq
        by_cases hnil : r = []
        · rw [hnil, List.append_nil] at hr
          subst hr
          cases hstat : s.disk.stat (parts key) with
          | none => exact absurd hstat hnone
          | some kind =>
            cases kind with
            | file => exact absurd hstat (h.not_file hk List.prefix_rfl)
            | dir => rfl
        · exact Disk.stat_eq_dir_of_append (hr ▸ hnone) hnil
      · rfl
  obtain ⟨disk₁, hmk, hstat₁⟩ := hdirs
  have hlong : ∀ name : FileName, ¬parts key ++ [name.1] <+: parts key := fun name hp => by
    have := hp.length_le
    simp at this
  obtain ⟨disk₂, hopen, hstat₂⟩ := openDataFiles_spec (parts key) s.policy disk₁
    (by rw [hstat₁, if_pos List.prefix_rfl])
    (fun name hname => by rw [hstat₁, if_neg (hlong name)]; exact h.not_dir hname)
  refine ⟨disk₂, by rw [DiskStore.construct, hmk]; exact hopen, ⟨?_, fun q => ?_⟩, fun q => ?_⟩
  · rintro k (rfl | hk')
    · exact hk
    · exact h.storable k hk'
  · rw [hstat₂, hstat₁]
    have hnot : q <+: parts key → ¬∃ k ∈ insert key K, ∃ name ∈ s.policy,
        q = parts k ++ [name.1] := by
      rintro hq ⟨k, -, name, hname, rfl⟩
      exact hk.not_isPrefix hname hq
    split_ifs with hfile hpre
    · obtain ⟨name, hname, rfl⟩ := hfile
      exact iff_of_true rfl ⟨key, Set.mem_insert _ _, name, hname, rfl⟩
    · exact iff_of_false (by simp) (hnot hpre)
    · rw [h.files]
      constructor
      · rintro ⟨k, hk', hq⟩
        exact ⟨k, Set.mem_insert_of_mem _ hk', hq⟩
      · rintro ⟨k, rfl | hk', hq⟩
        · exact absurd hq hfile
        · exact ⟨k, hk', hq⟩
  · rw [hstat₂, hstat₁]
    split_ifs with hfile hpre
    · refine iff_of_false (by simp) ?_
      obtain ⟨name, hname, rfl⟩ := hfile
      rintro (hnil | ⟨k, rfl | hk', hpre⟩)
      · simp at hnil
      · exact hlong name hpre
      · exact (h.storable k hk').not_isPrefix hname hpre
    · exact iff_of_true rfl (.inr ⟨key, Set.mem_insert _ _, hpre⟩)
    · rw [h.dirs]
      refine or_congr_right ⟨?_, ?_⟩
      · rintro ⟨k, hk', hq⟩
        exact ⟨k, Set.mem_insert_of_mem _ hk', hq⟩
      · rintro ⟨k, rfl | hk', hq⟩
        · exact absurd hq hpre
        · exact ⟨k, hk', hq⟩

/-- The counters whose data files are all there. -/
theorem filesExist_iff (h : Holds s.rootPath s.policy K s.disk) (hpol : s.policy ≠ [])
    (hk : Storable s.rootPath s.policy key) :
    s.statCounterFilesExist (parts key) = true ↔ key ∈ K := by
  rw [statCounterFilesExist, List.all_eq_true]
  simp only [decide_eq_true_eq, ne_eq]
  constructor
  · intro hall
    obtain ⟨name, hname⟩ := List.exists_mem_of_ne_nil _ hpol
    have hsome := hall name hname
    cases hstat : s.disk.stat (parts key ++ [name.1]) with
    | none => exact absurd hstat hsome
    | some kind =>
      cases kind with
      | file =>
        obtain ⟨k, hk', name', -, he⟩ := (h.files _).1 hstat
        have := (List.append_inj' he rfl).1
        rwa [hk.eq_of_parts (h.storable k hk') this]
      | dir => exact absurd hstat (h.not_dir hname)
  · intro hmem name hname hnone
    rw [(h.files _).2 ⟨key, hmem, name, hname, rfl⟩] at hnone
    cases hnone

/-! ### Opening counters -/

/-- Two stores with the same configuration and the same counters marked as deleted. -/
structure SameSettings (s s' : DiskStore) : Prop where
  recursively : s'.recursivelyCreateCounters = s.recursivelyCreateCounters
  rootPath : s'.rootPath = s.rootPath
  policy : s'.policy = s.policy
  deleted : s'.deleted = s.deleted

theorem SameSettings.trans {s₁ s₂ s₃ : DiskStore} (h : SameSettings s₁ s₂)
    (h' : SameSettings s₂ s₃) : SameSettings s₁ s₃ where
  recursively := h'.recursively.trans h.recursively
  rootPath := h'.rootPath.trans h.rootPath
  policy := h'.policy.trans h.policy
  deleted := h'.deleted.trans h.deleted

/-- What opening the counter of a key does to a store whose directory holds the counters `K`. -/
structure Opens (K : Set Bytes) (onlyExisting : Bool) (key : Bytes) (s s' : DiskStore) : Prop
    extends SameSettings s s' where
  holds : Holds s.rootPath s.policy (K ∪ {k | k ∈ s'.keys}) s'.disk
  keys : ∀ k ∈ s.keys, k ∈ s'.keys
  new : ∀ k ∈ s'.keys, k ∈ s.keys ∨ (onlyExisting = true → k ∈ K) ∧
    (k = key ∨ s.recursivelyCreateCounters = true ∧ Above k key)
  opened : key ∈ s'.keys ∨ onlyExisting = true ∧ key ∉ K

theorem create_spec (onlyExisting : Bool) (hpol : s.policy ≠ [])
    (h : Holds s.rootPath s.policy K s.disk) (hk : Storable s.rootPath s.policy key) :
    s.create key onlyExisting = (.null, s) ∧ onlyExisting = true ∧ key ∉ K ∨
      (onlyExisting = true → key ∈ K) ∧ ∃ disk, s.create key onlyExisting =
        (.made, { s with disk := disk }) ∧ Holds s.rootPath s.policy (insert key K) disk := by
  obtain ⟨disk, hdisk, hholds⟩ := construct_spec h hk
  have hiff := filesExist_iff h hpol hk
  rw [create, hk.counterDir_eq, hdisk]
  by_cases hno : onlyExisting = true ∧ ¬s.statCounterFilesExist (parts key) = true
  · rw [if_pos hno]
    exact .inl ⟨rfl, hno.1, fun hK => hno.2 (hiff.2 hK)⟩
  · rw [if_neg hno]
    refine .inr ⟨fun he => ?_, disk, rfl, hholds⟩
    by_contra hK
    exact hno ⟨he, fun hall => hK (hiff.1 hall)⟩

/-- A counter and its parent have been opened. -/
theorem Opens.parent {q : Bytes} {onlyExisting : Bool} {s₁ s' : DiskStore}
    (h : Opens K onlyExisting key s s₁)
    (hq : Opens (K ∪ {k | k ∈ s₁.keys}) onlyExisting q s₁ s') (habove : Above q key)
    (hrec : s.recursivelyCreateCounters = true) : Opens K onlyExisting key s s' where
  toSameSettings := h.toSameSettings.trans hq.toSameSettings
  holds := by
    have := hq.holds
    have hsub : {k | k ∈ s₁.keys} ⊆ {k | k ∈ s'.keys} := hq.keys
    rwa [Set.union_assoc, Set.union_eq_right.2 hsub, h.policy, h.rootPath] at this
  keys k hk := hq.keys k (h.keys k hk)
  new k hk := by
    by_cases hk₁ : k ∈ s₁.keys
    · exact h.new k hk₁
    · obtain ⟨hold, hcov⟩ := (hq.new k hk).resolve_left hk₁
      refine .inr ⟨fun he => (hold he).resolve_right hk₁, .inr ⟨hrec, ?_⟩⟩
      rcases hcov with rfl | ⟨-, hkq⟩
      · exact habove
      · exact hkq.trans_covers (.inr habove)
  opened := h.opened.imp_left (hq.keys key)

theorem openCounter_spec (onlyExisting : Bool) {n : ℕ} {name : Bytes} (hpol : s.policy ≠ [])
    (h : Holds s.rootPath s.policy K s.disk) (hkeys : ∀ k ∈ s.keys, k ∈ K) (hn : name.length ≤ n)
    (hname : openedKey name = some key) (hk : Storable s.rootPath s.policy key) :
    Opens K onlyExisting key s (openCounter onlyExisting n name s) := by
  -- induction on the names that are left; `K` grows with the keys
  induction n generalizing name key K s with
  | zero =>
    obtain rfl : name = [] := List.length_eq_zero_iff.1 (by omega)
    cases hname
  | succ n ih =>
    have hunion : K ∪ {k | k ∈ s.keys} = K := Set.union_eq_left.2 hkeys
    rw [openCounter, hname]
    by_cases hmem : key ∈ s.keys
    · simp only [if_pos hmem]
      exact ⟨⟨rfl, rfl, rfl, rfl⟩, hunion.symm ▸ h, fun k hk => hk, fun k hk => .inl hk,
        .inl hmem⟩
    simp only [if_neg hmem]
    rcases create_spec onlyExisting hpol h hk with
      ⟨hnull, hno⟩ | ⟨hold, disk, hmade, hholds⟩
    · rw [hnull]
      exact ⟨⟨rfl, rfl, rfl, rfl⟩, hunion.symm ▸ h, fun k hk => hk, fun k hk => .inl hk,
        .inr hno⟩
    rw [hmade]
    simp only
    have hK : K ∪ {k | k ∈ s.keys ++ [key]} = insert key K := by
      rw [Set.insert_eq, Set.union_comm {key}]
      nth_rewrite 2 [← hunion]
      rw [Set.union_assoc]
      congr 1
      ext k
      simp [or_comm]
    have hmade : Opens K onlyExisting key s { s with keys := s.keys ++ [key], disk := disk } := by
      refine ⟨⟨rfl, rfl, rfl, rfl⟩, hK.symm ▸ hholds, fun k hk => List.mem_append_left _ hk,
        fun k hk => ?_, .inl (by simp)⟩
      rcases List.mem_append.1 hk with hk | hk
      · exact .inl hk
      · obtain rfl := List.mem_singleton.1 hk
        exact .inr ⟨hold, .inl rfl⟩
    by_cases hrec : s.recursivelyCreateCounters = true
    · simp only [if_pos hrec]
      cases hsex : beforeLastDot name with
      | none => exact hmade
      | some sex =>
        have hlt := length_lt_of_beforeLastDot hsex
        cases hq : openedKey sex with
        | none =>
          have hstop : openCounter onlyExisting n sex
              { s with keys := s.keys ++ [key], disk := disk } =
              { s with keys := s.keys ++ [key], disk := disk } := by
            cases n with
            | zero => rfl
            | succ n => rw [openCounter, hq]
          simp only
          rw [hstop]
          exact hmade
        | some q =>
          have habove := openedKey_stripped hname hsex hq
          exact hmade.parent (ih hpol hmade.holds (fun k hk => .inr hk) (by omega) hq
            (hk.above habove).1) habove hrec
    · simp only [if_neg hrec]
      exact hmade

/-! ### The scan -/

/-- The path that `scanDir` makes of names. -/
def joinSlashes (p : List Bytes) : Bytes := [slash].intercalate p

/-- The scan calls `loadCtr` for every directory. -/
theorem scanDir_eq {t : FileTree Bytes} (h : ∀ p ∈ t.dirs, ∀ c ∈ p, c.head? ≠ some (byte '.'))
    (dir : Bytes) (s : DiskStore) :
    scanDir dir t s = t.dirs.foldl (fun s p => loadCtr (dir ++ joinSlashes p) s) s := by
  induction t generalizing dir s with
  | empty => rfl
  | file name rest ih => exact ih h dir s
  | dir name sub rest ihsub ih =>
    have hname : name.head? ≠ some (byte '.') :=
      h [name] (List.mem_append_right _ List.mem_cons_self) name List.mem_cons_self
    have hsub : ∀ p ∈ sub.dirs, ∀ c ∈ p, c.head? ≠ some (byte '.') := fun p hp c hc =>
      h (name :: p) (List.mem_append_left _ (List.mem_map_of_mem hp)) c (List.mem_cons_of_mem _ hc)
    have hrest : ∀ p ∈ rest.dirs, ∀ c ∈ p, c.head? ≠ some (byte '.') := fun p hp =>
      h p (List.mem_append_right _ (List.mem_cons_of_mem _ hp))
    have hne : ∀ p ∈ sub.dirs, p ≠ [] := FileTree.ne_nil_of_mem_dirs
    rw [scanDir, if_neg hname]
    simp only
    rw [ihsub hsub, ih hrest, FileTree.dirs, List.foldl_append, List.foldl_cons, List.foldl_map]
    congr 2
    · exact congrArg (dir ++ ·) List.intercalate_singleton.symm
    · refine List.foldl_ext _ _ _ fun s p hp => ?_
      rw [joinSlashes, joinSlashes, List.intercalate_cons_of_ne_nil (hne p hp)]
      simp only [List.append_assoc]

/-- What `loadCtr` calls the counter in a directory. -/
theorem loadCtr_joinSlashes (hp : ∀ c ∈ p, slash ∉ c) (s : DiskStore) :
    loadCtr (joinSlashes p) s =
      openCounter (!s.recursivelyCreateCounters) (joinDots p).length (joinDots p) s := by
  have hmap : (joinSlashes p).map (fun ch => if ch = slash then byte '.' else ch) = joinDots p := by
    induction p with
    | nil => rfl
    | cons c p ih =>
      obtain ⟨hc, hp⟩ := List.forall_mem_cons.1 hp
      have hcmap : c.map (fun ch => if ch = slash then byte '.' else ch) = c := by
        refine (List.map_congr_left fun ch hch => if_neg ?_).trans (List.map_id c)
        rintro rfl
        exact hc hch
      by_cases hnil : p = []
      · subst hnil
        rw [joinSlashes, joinDots, List.intercalate_singleton, List.intercalate_singleton, hcmap]
      · rw [joinSlashes, joinDots, List.intercalate_cons_of_ne_nil hnil,
          List.intercalate_cons_of_ne_nil hnil, List.map_append, List.map_append, hcmap]
        exact congrArg _ (ih hp)
  rw [loadCtr, hmap]

/-- What the scan of some directories does to a store, for a disk that holds the counters `old`. -/
structure Scans (old : Set Bytes) (ps : List (List Bytes)) (s s' : DiskStore) : Prop
    extends SameSettings s s' where
  holds : Holds s.rootPath s.policy (old ∪ {k | k ∈ s'.keys}) s'.disk
  keys : ∀ k ∈ s.keys, k ∈ s'.keys
  new : ∀ k ∈ s'.keys, ∃ k' ∈ old, k = k' ∨ s.recursivelyCreateCounters = true ∧ Above k k'
  opened : ∀ p ∈ ps, s.recursivelyCreateCounters = true ∨ joinDots p ∈ old → joinDots p ∈ s'.keys

theorem foldl_loadCtr (old : Set Bytes) {ps : List (List Bytes)} (hpol : s.policy ≠ [])
    (hps : ∀ p ∈ ps, p ≠ [] ∧ ∃ k ∈ old, p <+: parts k)
    (h : Holds s.rootPath s.policy (old ∪ {k | k ∈ s.keys}) s.disk)
    (hnew : ∀ k ∈ s.keys, ∃ k' ∈ old, k = k' ∨ s.recursivelyCreateCounters = true ∧ Above k k') :
    Scans old ps s (ps.foldl (fun s p => loadCtr (joinSlashes p) s) s) := by
  induction ps generalizing s with
  | nil =>
    exact ⟨⟨rfl, rfl, rfl, rfl⟩, h, fun k hk => hk, hnew, fun p hp => absurd hp List.not_mem_nil⟩
  | cons p ps ih =>
    obtain ⟨⟨hne, k₀, hk₀, hpre⟩, hps⟩ := List.forall_mem_cons.1 hps
    obtain ⟨hcov, hst, -⟩ := (h.storable k₀ (.inl hk₀)).of_isPrefix hpre hne
    have hslash : ∀ c ∈ p, slash ∉ c := fun c hc =>
      (h.storable k₀ (.inl hk₀)).slash_not_mem_part (hpre.mem hc)
    have hopens := openCounter_spec (!s.recursivelyCreateCounters) hpol h
      (fun k hk => .inr hk) le_rfl hst.openedKey hst
    rw [← loadCtr_joinSlashes hslash] at hopens
    rw [List.foldl_cons]
    generalize loadCtr (joinSlashes p) s = s₁ at hopens ⊢
    have hold : old ∪ {k | k ∈ s.keys} ∪ {k | k ∈ s₁.keys} = old ∪ {k | k ∈ s₁.keys} := by
      have hsub : {k | k ∈ s.keys} ⊆ {k | k ∈ s₁.keys} := hopens.keys
      rw [Set.union_assoc, Set.union_eq_right.2 hsub]
    have hnew₁ : ∀ k ∈ s₁.keys, ∃ k' ∈ old, k = k' ∨
        s₁.recursivelyCreateCounters = true ∧ Above k k' := by
      intro k hk
      rw [hopens.recursively]
      rcases hopens.new k hk with hk | ⟨hex, hk⟩
      · exact hnew k hk
      · cases hrec : s.recursivelyCreateCounters with
        | false =>
          -- only what was there has been opened
          rcases hex (by rw [hrec]; rfl) with hmem | hmem
          · exact ⟨k, hmem, .inl rfl⟩
          · have := hnew k hmem
            rwa [hrec] at this
        | true =>
          have hkp : Covers k (joinDots p) := hk.imp id And.right
          exact ⟨k₀, hk₀, (hkp.trans hcov).imp id fun habove => ⟨rfl, habove⟩⟩
    have hrest := ih (s := s₁) (hopens.policy ▸ hpol) hps
      (by rw [hopens.policy, hopens.rootPath, ← hold]; exact hopens.holds) hnew₁
    refine ⟨hopens.toSameSettings.trans hrest.toSameSettings,
      hopens.policy ▸ hopens.rootPath ▸ hrest.holds, fun k hk => hrest.keys k (hopens.keys k hk),
      hopens.recursively ▸ hrest.new, fun q hq hwhen => ?_⟩
    rcases List.mem_cons.1 hq with rfl | hq
    · refine hrest.keys _ (hopens.opened.resolve_right ?_)
      rintro ⟨hrec, hno⟩
      rcases hwhen with hwhen | hwhen
      · rw [hwhen] at hrec
        cases hrec
      · exact hno (.inl hwhen)
    · exact hrest.opened q hq (hopens.recursively ▸ hwhen)

/-- A restart. -/
theorem restart_spec (hpol : s.policy ≠ []) (h : Holds s.rootPath s.policy {k | k ∈ s.keys} s.disk) :
    SameSettings { s with deleted := [] } (s.step .restart) ∧
      Holds s.rootPath s.policy {k | k ∈ (s.step .restart).keys} (s.step .restart).disk ∧
      ∀ k, k ∈ (s.step .restart).keys ↔
        ∃ k' ∈ s.keys, k = k' ∨ s.recursivelyCreateCounters = true ∧ Above k k' := by
  have hdirs : ∀ p ∈ s.disk.root.dirs, p ≠ [] ∧ ∃ k ∈ {k | k ∈ s.keys}, p <+: parts k := by
    intro p hp
    obtain ⟨hne, hdir⟩ := Disk.mem_dirs_iff.1 hp
    exact ⟨hne, ((h.dirs p).1 hdir).resolve_left hne⟩
  have hdot : ∀ p ∈ s.disk.root.dirs, ∀ c ∈ p, c.head? ≠ some (byte '.') := by
    intro p hp c hc hhead
    obtain ⟨-, k, hk, hpre⟩ := hdirs p hp
    have hmem : c ∈ k.splitOn (byte '.') := (h.storable k hk).parts_eq ▸ hpre.mem hc
    exact Lines.not_mem_of_mem_splitOn hmem (List.mem_of_mem_head? hhead)
  have hscan : s.step .restart = s.disk.root.dirs.foldl (fun s p => loadCtr (joinSlashes p) s)
      { s with keys := [], deleted := [] } := scanDir_eq hdot [] _
  have hspec := foldl_loadCtr {k | k ∈ s.keys} (s := { s with keys := [], deleted := [] }) hpol hdirs
    (by simpa using h) (fun k hk => absurd hk List.not_mem_nil)
  rw [← hscan] at hspec
  have hkeys : ∀ k, k ∈ (s.step .restart).keys ↔
      ∃ k' ∈ s.keys, k = k' ∨ s.recursivelyCreateCounters = true ∧ Above k k' := by
    refine fun k => ⟨hspec.new k, ?_⟩
    rintro ⟨k', hk', hcov⟩
    have hst := h.storable k' hk'
    have hpre : Storable s.rootPath s.policy k ∧ parts k <+: parts k' := by
      rcases hcov with rfl | ⟨-, habove⟩
      · exact ⟨hst, List.prefix_rfl⟩
      · exact hst.above habove
    have hmem : parts k ∈ s.disk.root.dirs :=
      Disk.mem_dirs_iff.2 ⟨hpre.1.parts_ne_nil, (h.dirs _).2 (.inr ⟨k', hk', hpre.2⟩)⟩
    have hopened := hspec.opened _ hmem
    rw [hpre.1.joinDots_parts] at hopened
    refine hopened ?_
    rcases hcov with rfl | ⟨hrec, -⟩
    · exact .inr hk'
    · exact .inl hrec
  refine ⟨⟨hspec.recursively, hspec.rootPath, hspec.policy, hspec.deleted⟩, ?_, hkeys⟩
  have hsub : {k | k ∈ s.keys} ⊆ {k | k ∈ (s.step .restart).keys} := fun k hk =>
    (hkeys k).2 ⟨k, hk, .inl rfl⟩
  have := hspec.holds
  rwa [Set.union_eq_right.2 hsub] at this

/-! ### Deletions -/

theorem wrapRemove_concat (p : List Bytes) (name : Bytes) (disk : Disk Bytes) :
    wrapRemove (p ++ [name]) disk = disk.remove p name := by
  simp [wrapRemove]

/-- A file that is removed. -/
theorem stat_wrapRemove (hfile : disk.stat p = some .file) :
    (wrapRemove p disk).stat q = if q = p then none else disk.stat q := by
  rcases List.eq_nil_or_concat' p with rfl | ⟨above, name, rfl⟩
  · rw [Disk.stat_nil] at hfile
    cases hfile
  · rw [wrapRemove_concat, Disk.stat_remove (.inl hfile)]

theorem wrapRemove_of_none (hnone : disk.stat p = none) : wrapRemove p disk = disk := by
  rcases List.eq_nil_or_concat' p with rfl | ⟨above, name, rfl⟩
  · rfl
  · rw [wrapRemove_concat, Disk.remove_of_not]
    rintro (hfile | ⟨hdir, -⟩)
    · rw [hnone] at hfile
      cases hfile
    · rw [hnone] at hdir
      cases hdir

/-- The removal of a path that is no file. -/
theorem stat_wrapRemove_file (hno : disk.stat p ≠ some .file) :
    (wrapRemove p disk).stat q = some .file ↔ disk.stat q = some .file := by
  rcases List.eq_nil_or_concat' p with rfl | ⟨above, name, rfl⟩
  · rfl
  · rw [wrapRemove_concat]
    by_cases hrem : disk.Removable (above ++ [name])
    · rw [Disk.stat_remove hrem]
      split_ifs with hq
      · rw [hq]
        exact iff_of_false (by simp) hno
      · exact Iff.rfl
    · rw [Disk.remove_of_not hrem]

/-- Files that are there go; one that is listed twice is in the backup directory the second time. -/
theorem purgeFiles_spec {paths : List (List Bytes)} {backup : List (List Bytes)}
    (hpaths : ∀ path ∈ paths, disk.stat path = some .file ∨ path ∈ backup ∧ disk.stat path = none) :
    ∃ disk' backup', purgeFiles paths disk backup = ((disk', backup'), true) ∧
      ∀ q, disk'.stat q = if q ∈ paths then none else disk.stat q := by
  induction paths generalizing disk backup with
  | nil => exact ⟨disk, backup, rfl, fun q => by simp⟩
  | cons path paths ih =>
    obtain ⟨hpath, hpaths⟩ := List.forall_mem_cons.1 hpaths
    have hstat : ∀ q, (wrapRemove path disk).stat q = if q = path then none else disk.stat q := by
      intro q
      rcases hpath with hfile | ⟨-, hnone⟩
      · exact stat_wrapRemove hfile
      · rw [wrapRemove_of_none hnone]
        split_ifs with hq
        · rw [hq, hnone]
        · rfl
    have hrest : ∀ path' ∈ paths, (wrapRemove path disk).stat path' = some .file ∨
        path' ∈ path :: backup ∧ (wrapRemove path disk).stat path' = none := by
      intro path' hmem
      rw [hstat]
      by_cases heq : path' = path
      · exact .inr ⟨heq ▸ List.mem_cons_self, if_pos heq⟩
      · rw [if_neg heq]
        exact (hpaths path' hmem).imp_right (And.imp_left (List.mem_cons_of_mem _))
    obtain ⟨disk', backup', hrun, hdisk'⟩ := ih hrest
    refine ⟨disk', backup', ?_, fun q => ?_⟩
    · rw [purgeFiles, if_pos (hpath.imp_right And.left), if_pos ((hstat path).trans (if_pos rfl))]
      exact hrun
    · rw [hdisk', hstat]
      by_cases hq : q ∈ paths
      · rw [if_pos hq, if_pos (List.mem_cons_of_mem _ hq)]
      · rw [if_neg hq]
        exact if_congr (by simp [hq]) rfl rfl

/-- The data files of a purged counter go. -/
theorem purge_spec (hpol : s.policy ≠ []) (h : HoldsFiles s.rootPath s.policy K s.disk)
    (hk : key ∈ K) : ∃ disk backup,
      s.purge key = ({ s with disk := disk, backup := backup }, true) ∧
        HoldsFiles s.rootPath s.policy (K \ {key}) disk := by
  have hst := h.storable key hk
  have hpaths : s.policy.map (getPath s.rootPath key) = s.policy.map fun name =>
      parts key ++ [name.1] :=
    List.map_congr_left fun name hname => hst.getPath_eq hname
  have hmem : ∀ q, q ∈ s.policy.map (fun name => parts key ++ [name.1]) ↔
      ∃ name ∈ s.policy, q = parts key ++ [name.1] := fun q => by
    simp only [List.mem_map, eq_comm]
  have hparent : ((s.policy.map fun name => parts key ++ [name.1]).headD []).dropLast =
      parts key := by
    obtain ⟨name, names, hnames⟩ := List.exists_cons_of_ne_nil hpol
    rw [hnames, List.map_cons, List.headD_cons, List.dropLast_concat]
  have hfiles : ∀ path ∈ s.policy.map (fun name => parts key ++ [name.1]),
      s.disk.stat path = some .file ∨
        path ∈ s.backup ++ (parts key).inits ∧ s.disk.stat path = none :=
    fun path hpath => .inl ((h.files path).2 ⟨key, hk, (hmem path).1 hpath⟩)
  obtain ⟨disk', backup', hrun, hdisk'⟩ := purgeFiles_spec hfiles
  refine ⟨wrapRemove (parts key) disk', backup', ?_, fun k hk' => h.storable k hk'.1, fun q => ?_⟩
  · rw [purge]
    simp only [hpaths, hparent, hrun]
  · have hno : disk'.stat (parts key) ≠ some .file := by
      rw [hdisk']
      split_ifs
      · simp
      · exact h.not_file hst List.prefix_rfl
    rw [stat_wrapRemove_file hno, hdisk']
    split_ifs with hq
    · obtain ⟨name, hname, rfl⟩ := (hmem q).1 hq
      refine iff_of_false (by simp) ?_
      rintro ⟨k, ⟨hk', hne⟩, name', hname', he⟩
      exact hne ((h.storable k hk').eq_of_parts hst (List.append_inj' he rfl).1.symm)
    · rw [h.files]
      constructor
      · rintro ⟨k, hk', name, hname, rfl⟩
        refine ⟨k, ⟨hk', ?_⟩, name, hname, rfl⟩
        rintro rfl
        exact hq ((hmem _).2 ⟨name, hname, rfl⟩)
      · rintro ⟨k, ⟨hk', -⟩, hfile⟩
        exact ⟨k, hk', hfile⟩

/-- The counters that `deletePattern` finds are marked, each is added to the work once. -/
theorem deleteCounters_spec (names : List Bytes) (s : DiskStore) : ∃ ws,
    deleteCounters names s = ({ s with deleted := s.deleted ++ ws }, ws) ∧ ws.Nodup ∧
      ∀ k ∈ ws, k ∈ s.keys ∧ k ∉ s.deleted := by
  induction names generalizing s with
  | nil => exact ⟨[], by simp [deleteCounters], List.nodup_nil, by simp⟩
  | cons ctr names ih =>
    have hcases : deleteCounter ctr s = (s, none) ∨ ∃ key, key ∈ s.keys ∧ key ∉ s.deleted ∧
        deleteCounter ctr s = ({ s with deleted := s.deleted ++ [key] }, some key) := by
      unfold deleteCounter
      split
      · exact .inl rfl
      · rename_i key _
        split_ifs with hkey
        · exact .inr ⟨key, hkey.1, hkey.2, rfl⟩
        · exact .inl rfl
    rcases hcases with heq | ⟨key, hkey, hnot, heq⟩
    · obtain ⟨ws, hws, hnodup, hmem⟩ := ih s
      refine ⟨ws, ?_, hnodup, hmem⟩
      rw [deleteCounters, heq]
      simp [hws]
    · obtain ⟨ws, hws, hnodup, hmem⟩ := ih { s with deleted := s.deleted ++ [key] }
      refine ⟨key :: ws, ?_, List.nodup_cons.2 ⟨fun hk => (hmem key hk).2 (by simp), hnodup⟩, ?_⟩
      · rw [deleteCounters, heq]
        simp [hws]
      · refine List.forall_mem_cons.2 ⟨⟨hkey, hnot⟩, fun k hk => ⟨(hmem k hk).1, fun hd => ?_⟩⟩
        exact (hmem k hk).2 (List.mem_append_left _ hd)

/-- Pruning leaves the directories of the counters. -/
theorem prune_spec (h : HoldsFiles root policy K disk) (hpol : policy ≠ []) :
    Holds root policy K disk.prune := by
  have hfile : ∀ p, p ≠ [] → (disk.prune.stat p = some .file ↔ disk.stat p = some .file) := by
    intro p hp
    rw [Disk.stat_prune_eq_some_iff hp]
    exact ⟨And.left, fun hf => ⟨hf, [], (List.append_nil p).symm ▸ hf⟩⟩
  refine ⟨⟨h.storable, fun p => ?_⟩, fun p => ?_⟩
  · by_cases hp : p = []
    · subst hp
      refine iff_of_false (by simp [Disk.stat_nil]) ?_
      rintro ⟨k, -, name, -, he⟩
      simp at he
    · rw [hfile p hp, h.files]
  · by_cases hp : p = []
    · exact iff_of_true (hp ▸ Disk.stat_nil) (.inl hp)
    · rw [Disk.stat_prune_eq_some_iff hp, or_iff_right hp]
      constructor
      · rintro ⟨hdir, r, hr⟩
        have hne : r ≠ [] := by
          rintro rfl
          rw [List.append_nil, hdir] at hr
          cases hr
        obtain ⟨k, hk, name, -, he⟩ := (h.files _).1 hr
        obtain ⟨r', last, rfl⟩ := (List.eq_nil_or_concat' r).resolve_left hne
        rw [← List.append_assoc] at he
        exact ⟨k, hk, r', (List.append_inj' he rfl).1⟩
      · rintro ⟨k, hk, r, hr⟩
        obtain ⟨name, hname⟩ := List.exists_mem_of_ne_nil _ hpol
        have hf : disk.stat (p ++ (r ++ [name.1])) = some .file :=
          (h.files _).2 ⟨k, hk, name, hname, by rw [← hr, List.append_assoc]⟩
        refine ⟨Disk.stat_eq_dir_of_append (q := r ++ [name.1]) ?_ (by simp), _, hf⟩
        rw [hf]
        simp

/-- A whole deletion. -/
theorem goDelete_spec {ws : List Bytes} (hpol : s.policy ≠ [])
    (h : HoldsFiles s.rootPath s.policy K s.disk) (hws : ∀ k ∈ ws, k ∈ K) (hnodup : ws.Nodup) :
    ∃ disk backup, goDelete ws s = { s with disk := disk, backup := backup }.refreshKeys ∧
      Holds s.rootPath s.policy (K \ {k | k ∈ ws}) disk := by
  induction ws generalizing s K with
  | nil => exact ⟨s.disk.prune, s.backup, rfl, by simpa using prune_spec h hpol⟩
  | cons key ws ih =>
    obtain ⟨hkey, hws⟩ := List.forall_mem_cons.1 hws
    obtain ⟨hnot, hnodup⟩ := List.nodup_cons.1 hnodup
    obtain ⟨disk, backup, hpurge, hfiles⟩ := purge_spec hpol h hkey
    obtain ⟨disk', backup', hrest, hholds⟩ := ih (s := { s with disk := disk, backup := backup })
      hpol hfiles (fun k hk => ⟨hws k hk, fun heq => hnot (heq ▸ hk)⟩) hnodup
    have hset : (K \ {key}) \ {k | k ∈ ws} = K \ {k | k ∈ key :: ws} := by
      ext k
      simp [not_or, and_assoc]
    refine ⟨disk', backup', ?_, hset ▸ hholds⟩
    rw [goDelete, hpurge]
    exact hrest

/-! ### Any operations -/

/-- A name that can be opened, as far as the disk goes. -/
def Op.Storable (root : Bytes) (policy : List FileName) : Op → Prop
  | .openCounter name => ∀ key, openedKey name = some key → Istatd.Storable root policy key
  | _ => True

/-- The invariant of all operations. -/
structure Inv (recursively : Bool) (root : Bytes) (policy : List FileName) (s : DiskStore) :
    Prop where
  settings : SameSettings (new recursively root policy) s
  holds : Holds root policy {k | k ∈ s.keys} s.disk

variable {recursively : Bool}

theorem inv_new : Inv recursively root policy (new recursively root policy) := by
  refine ⟨⟨rfl, rfl, rfl, rfl⟩, ⟨fun k hk => absurd hk List.not_mem_nil, fun p => ?_⟩, fun p => ?_⟩
  · refine iff_of_false ?_ (by simp [new])
    by_cases hp : p = []
    · simp [new, hp, Disk.stat_nil]
    · simp [new, Disk.stat_empty hp]
  · by_cases hp : p = []
    · simp [new, hp, Disk.stat_nil]
    · simp [new, Disk.stat_empty hp, hp]

/-- A deletion, in a store without marked counters. -/
theorem delete_spec (names : List Bytes) (hpol : s.policy ≠ []) (hdel : s.deleted = [])
    (h : Holds s.rootPath s.policy {k | k ∈ s.keys} s.disk) :
    SameSettings s (s.step (.delete names)) ∧
      Holds s.rootPath s.policy {k | k ∈ (s.step (.delete names)).keys}
        (s.step (.delete names)).disk := by
  obtain ⟨ws, hws, hnodup, hmem⟩ := deleteCounters_spec names s
  obtain ⟨disk, backup, hgo, hholds⟩ := goDelete_spec (s := { s with deleted := s.deleted ++ ws })
    hpol h.toHoldsFiles (fun k hk => (hmem k hk).1) hnodup
  have hstep : s.step (.delete names) =
      { s with keys := s.keys.filter (· ∉ ws), deleted := [], disk := disk, backup := backup } := by
    rw [step, hws, hgo, refreshKeys, hdel, List.nil_append]
  have hset : {k | k ∈ s.keys.filter (· ∉ ws)} = {k | k ∈ s.keys} \ {k | k ∈ ws} := by
    ext k
    simp
  rw [hstep]
  refine ⟨⟨rfl, rfl, rfl, hdel.symm⟩, ?_⟩
  simp only
  rw [hset]
  exact hholds

theorem inv_step (hpol : policy ≠ []) (h : Inv recursively root policy s) {op : Op}
    (hop : op.Storable root policy) : Inv recursively root policy (s.step op) := by
  obtain ⟨hset, hholds⟩ := h
  obtain rfl : s.rootPath = root := hset.rootPath
  obtain rfl : s.policy = policy := hset.policy
  have hdel : s.deleted = [] := hset.deleted
  cases op with
  | openCounter name =>
    cases hname : openedKey name with
    | none =>
      have hstop : s.step (.openCounter name) = s := by
        cases name with
        | nil => rfl
        | cons ch rest => rw [step, List.length_cons, openCounter, hname]
      rw [hstop]
      exact ⟨hset, hholds⟩
    | some key =>
      have hopens := openCounter_spec false hpol hholds (fun k hk => hk) le_rfl
        hname (hop key hname)
      have hsub : {k | k ∈ s.keys} ⊆ {k | k ∈ (s.step (.openCounter name)).keys} := hopens.keys
      have := hopens.holds
      exact ⟨hset.trans hopens.toSameSettings, Set.union_eq_right.2 hsub ▸ this⟩
  | delete names =>
    obtain ⟨hsame, hdelete⟩ := delete_spec names hpol hdel hholds
    exact ⟨hset.trans hsame, hdelete⟩
  | prune => exact ⟨hset.trans ⟨rfl, rfl, rfl, rfl⟩, prune_spec hholds.toHoldsFiles hpol⟩
  | refresh =>
    have hstop : s.step .refresh = s := by
      obtain ⟨recursively', rootPath, policy, keys, deleted, disk, backup⟩ := s
      obtain rfl : deleted = [] := hdel
      simp [step, refreshKeys]
    rw [hstop]
    exact ⟨hset, hholds⟩
  | restart =>
    obtain ⟨hsame, hh, -⟩ := restart_spec hpol hholds
    exact ⟨⟨hsame.recursively.trans hset.recursively, hsame.rootPath.trans hset.rootPath,
      hsame.policy.trans hset.policy, hsame.deleted⟩, hh⟩

theorem inv_run (recursively : Bool) (hpol : policy ≠ []) {ops : List Op}
    (hops : ∀ op ∈ ops, op.Storable root policy) :
    Inv recursively root policy (run recursively root policy ops) := by
  have hfold : ∀ (ops : List Op) (s : DiskStore), (∀ op ∈ ops, op.Storable root policy) →
      Inv recursively root policy s → Inv recursively root policy (ops.foldl step s) := by
    intro ops
    induction ops with
    | nil => exact fun s _ h => h
    | cons op ops ih =>
      intro s hops h
      obtain ⟨hop, hops⟩ := List.forall_mem_cons.1 hops
      exact ih _ hops (inv_step hpol h hop)
  exact hfold ops _ hops inv_new

/-- A data file. -/
def tenSecondFile : FileName := ⟨bytes "10s", by
  unfold IsFileName
  decide +kernel⟩

/-- A counter below another one that is deleted. -/
def orphanOps : List Op := [.openCounter (bytes "*a.b"), .delete [bytes "a"], .prune]

/-- A root of 250 bytes: the path in the header is cut in the name of the file, the purge throws, and
the counter that has left the store comes back with a restart. -/
example :
    let s := run false (List.replicate 250 (byte 'r')) [tenSecondFile]
      [.openCounter (bytes "ab"), .delete [bytes "ab"], .refresh]
    s.keys = [] ∧ s.disk.stat [bytes "ab", bytes "10s"] = some .file ∧
      (s.step .restart).keys = [bytes "ab"] := by
  decide +kernel

end DiskStore

end Istatd
