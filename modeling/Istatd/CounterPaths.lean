import Istatd.Lib.Lines
import Istatd.Lib.Paths
import Istatd.Listing

/-!
# The files of a counter

The data files of a counter are in a directory that is named after it: `counter_filename` makes each
dot of the key a slash, and the name of a retention interval is put behind that.  So a dot of the
name of a counter goes down one directory, empty parts of a name vanish, and the name of a retention
interval may also be the last part of the name of a counter.

* `dataPath`, `fileOf`, `dirsOf`: the path of a data file, where it leads and through what;
* `parts`: the parts of a key between its dots, without the empty ones;
* `components_dataPath`: the directory of a counter in terms of its parts;
* `files_disjoint_iff`: when two counters have nothing to do with each other.
-/

namespace Istatd

open Paths

/-- The slash. -/
def slash : UInt8 := byte '/'

/-- The two components that are not names: `.` and `..`. -/
def dotName : Bytes := bytes "."

@[inherit_doc dotName] def dotdotName : Bytes := bytes ".."

/-- `counter_filename`. -/
def counterFilename (ctr : Bytes) : Bytes := ctr.map fun ch => if ch = byte '.' then slash else ch

/-- The path of a data file, behind `rootPath_ + "/"`: `StatCounterFactory::create` puts the name of
the counter there, and `StatCounter::StatCounter` a slash and the name of the interval behind it. -/
def dataPath (key suffix : Bytes) : Bytes := counterFilename key ++ slash :: suffix

/-- The components of a path.  Repeated slashes are one. -/
def components (path : Bytes) : List Bytes := (path.splitOn slash).filter (· ≠ [])

/-- The file that a data path leads to, from the root of the store. -/
def fileOf (root : List Bytes) (key suffix : Bytes) : List Bytes :=
  walk dotName dotdotName root (components (dataPath key suffix))

/-- The directories on a data path. -/
def dirsOf (root : List Bytes) (key suffix : Bytes) : List (List Bytes) :=
  root.inits ++ visited dotName dotdotName root (components (dataPath key suffix))

/-- No data file of a counter is one of the other counter, or a directory on the way to one. -/
def FilesDisjoint (root : List Bytes) (suffixes : List Bytes) (key key' : Bytes) : Prop :=
  ∀ s ∈ suffixes, ∀ s' ∈ suffixes, fileOf root key s ≠ fileOf root key' s' ∧
    fileOf root key s ∉ dirsOf root key' s' ∧ fileOf root key' s' ∉ dirsOf root key s

/-! ### The parts of a key -/

/-- The parts of a key between its dots. -/
def parts (key : Bytes) : List Bytes := (key.splitOn (byte '.')).filter (· ≠ [])

theorem splitOn_counterFilename {key : Bytes} (h : slash ∉ key) :
    (counterFilename key).splitOn slash = key.splitOn (byte '.') := by
  induction key with
  | nil => rfl
  | cons ch key ih =>
    obtain ⟨hch, hkey⟩ : slash ≠ ch ∧ slash ∉ key := by simpa using h
    have hcons : counterFilename (ch :: key) =
        (if ch = byte '.' then slash else ch) :: counterFilename key := rfl
    rw [hcons, List.splitOn_cons_eq_if_modifyHead, List.splitOn_cons_eq_if_modifyHead, ih hkey]
    by_cases hdot : ch = byte '.'
    · simp [hdot]
    · simp [hdot, Ne.symm hch]

theorem mungeChar_ne_slash (ch : UInt8) : mungeChar ch ≠ slash := by
  unfold mungeChar toLower
  split_ifs with hbad hupper
  · decide
  · -- an upper case letter becomes a lower case one
    intro h
    have hA : (byte 'A').toNat = 65 := by decide
    have hZ : (byte 'Z').toNat = 90 := by decide
    have hslash : slash.toNat = 47 := by decide
    have hdist : (32 : UInt8).toNat = 32 := by decide
    have hnat : (ch + 32).toNat = slash.toNat := congrArg UInt8.toNat h
    rw [UInt8.le_iff_toNat_le, UInt8.le_iff_toNat_le, hA, hZ] at hupper
    rw [UInt8.toNat_add, hdist, hslash] at hnat
    omega
  · exact fun h => hbad (.inr (.inr (.inl h)))

theorem slash_not_mem_munge (key : Bytes) : slash ∉ munge key := by
  intro h
  obtain ⟨ch, -, hch⟩ := List.mem_map.1 h
  exact mungeChar_ne_slash ch hch

theorem slash_not_mem_openedKey {name key : Bytes} (h : openedKey name = some key) :
    slash ∉ key := by
  unfold openedKey at h
  split at h
  · cases h
  · split_ifs at h
    all_goals
      obtain rfl := Option.some.inj h
      exact slash_not_mem_munge _

/-- A part has no dot, so it is a name. -/
theorem names_parts (key : Bytes) : Names dotName dotdotName (parts key) := by
  intro c hc
  have hdot : byte '.' ∉ c := Lines.not_mem_of_mem_splitOn (List.mem_of_mem_filter hc)
  constructor
  all_goals
    rintro rfl
    revert hdot
    decide

/-- The directory of a counter, and the path of its interval from there. -/
theorem components_dataPath {key : Bytes} (h : slash ∉ key) (suffix : Bytes) :
    components (dataPath key suffix) = parts key ++ components suffix := by
  rw [components, dataPath, List.splitOn_append_cons_self, List.filter_append,
    splitOn_counterFilename h]
  rfl

/-! ### Conflicts -/

/-- Two paths from the root of the store lead to different places, and neither goes through the
place to which the other leads. -/
def Apart (root path path' : List Bytes) : Prop :=
  walk dotName dotdotName root path ≠ walk dotName dotdotName root path' ∧
    walk dotName dotdotName root path ∉ root.inits ++ visited dotName dotdotName root path' ∧
    walk dotName dotdotName root path' ∉ root.inits ++ visited dotName dotdotName root path

/-- The name of a file in the directory of a counter. -/
def IsFileName (suffix : Bytes) : Prop :=
  suffix ≠ [] ∧ slash ∉ suffix ∧ suffix ≠ dotName ∧ suffix ≠ dotdotName

theorem components_of_isFileName {suffix : Bytes} (h : IsFileName suffix) :
    components suffix = [suffix] := by
  rw [components, List.splitOn_eq_singleton h.2.1]
  simp [h.1]

theorem names_data {suffix : Bytes} (h : IsFileName suffix) (key : Bytes) :
    Names dotName dotdotName (parts key ++ [suffix]) := by
  intro c hc
  rcases List.mem_append.1 hc with hc | hc
  · exact names_parts key c hc
  · rw [List.mem_singleton.1 hc]
    exact h.2.2

/-- The directories on the way to a file in the directory of a counter. -/
theorem mem_dirs_iff {suffix : Bytes} (h : IsFileName suffix) {key : Bytes} {root q : List Bytes}
    (hq : q ≠ []) :
    root ++ q ∈ root.inits ++ visited dotName dotdotName root (parts key ++ [suffix]) ↔
      q <+: parts key := by
  have hroot : ¬root ++ q <+: root := fun hp => by
    have hlen := hp.length_le
    rw [List.length_append] at hlen
    exact hq (List.length_eq_zero_iff.1 (by omega))
  rw [List.mem_append, List.mem_inits, or_iff_right hroot,
    mem_visited_of_names (names_data h key)]
  constructor
  · rintro ⟨q', r, hqr, hr, hroot⟩
    obtain rfl := List.append_cancel_left hroot
    obtain ⟨r', last, rfl⟩ := (List.eq_nil_or_concat' r).resolve_left hr
    rw [← List.append_assoc] at hqr
    exact ⟨r', (List.append_inj' hqr rfl).1.symm⟩
  · rintro ⟨r, hr⟩
    exact ⟨q, r ++ [suffix], by rw [← hr, List.append_assoc], by simp, rfl⟩

theorem apart_iff {s s' : Bytes} (hs : IsFileName s) (hs' : IsFileName s') (root : List Bytes)
    (key key' : Bytes) :
    Apart root (parts key ++ [s]) (parts key' ++ [s']) ↔
      parts key ++ [s] ≠ parts key' ++ [s'] ∧
        ¬parts key ++ [s] <+: parts key' ∧ ¬parts key' ++ [s'] <+: parts key := by
  rw [Apart, walk_of_names (names_data hs key), walk_of_names (names_data hs' key'),
    mem_dirs_iff hs' (by simp), mem_dirs_iff hs (by simp), ne_eq, List.append_cancel_left_eq]

/-- **When two counters have disjoint files.**  In terms of the parts of their keys, for all names of
intervals; and if these are names of files, just when the parts of the two keys are not the same
(unless there are no intervals), and no key has the parts of the other one and the name of an
interval as its first parts. -/
theorem files_disjoint_iff (root suffixes : List Bytes) (name name' key key' : Bytes)
    (hkey : openedKey name = some key) (hkey' : openedKey name' = some key') :
    (FilesDisjoint root suffixes key key' ↔ ∀ s ∈ suffixes, ∀ s' ∈ suffixes,
      Apart root (parts key ++ components s) (parts key' ++ components s')) ∧
    ((∀ s ∈ suffixes, IsFileName s) →
      (FilesDisjoint root suffixes key key' ↔
        (suffixes = [] ∨ parts key ≠ parts key') ∧
          ∀ s ∈ suffixes, ¬parts key ++ [s] <+: parts key' ∧ ¬parts key' ++ [s] <+: parts key)) := by
  have hall : FilesDisjoint root suffixes key key' ↔ ∀ s ∈ suffixes, ∀ s' ∈ suffixes,
      Apart root (parts key ++ components s) (parts key' ++ components s') := by
    unfold FilesDisjoint Apart fileOf dirsOf
    simp only [components_dataPath (slash_not_mem_openedKey hkey),
      components_dataPath (slash_not_mem_openedKey hkey')]
  refine ⟨hall, fun hnames => hall.trans ?_⟩
  have hapart : ∀ s ∈ suffixes, ∀ s' ∈ suffixes,
      (Apart root (parts key ++ components s) (parts key' ++ components s') ↔
        parts key ++ [s] ≠ parts key' ++ [s'] ∧
          ¬parts key ++ [s] <+: parts key' ∧ ¬parts key' ++ [s'] <+: parts key) :=
    fun s hs s' hs' => by
      rw [components_of_isFileName (hnames s hs), components_of_isFileName (hnames s' hs'),
        apart_iff (hnames s hs) (hnames s' hs')]
  constructor
  · intro h
    refine ⟨?_, fun s hs => ((hapart s hs s hs).1 (h s hs s hs)).2⟩
    cases suffixes with
    | nil => exact .inl rfl
    | cons s rest =>
      have hself := (hapart s List.mem_cons_self s List.mem_cons_self).1
        (h s List.mem_cons_self s List.mem_cons_self)
      exact .inr fun e => hself.1 (by rw [e])
  · rintro ⟨hparts, hchild⟩ s hs s' hs'
    refine (hapart s hs s' hs').2 ⟨fun e => ?_, (hchild s hs).1, (hchild s' hs').2⟩
    rcases hparts with rfl | hparts
    · cases hs
    · exact hparts (List.append_inj' e rfl).1

/-- Two names with different keys, one with an empty part. -/
theorem files_not_disjoint :
    openedKey (bytes "a.b") = some (bytes "a.b") ∧ openedKey (bytes "a..b") = some (bytes "a..b") ∧
      bytes "a.b" ≠ bytes "a..b" ∧
      fileOf [] (bytes "a.b") (bytes "10s") = fileOf [] (bytes "a..b") (bytes "10s") ∧
      ¬FilesDisjoint [] [bytes "10s"] (bytes "a.b") (bytes "a..b") := by
  have hsame : fileOf [] (bytes "a.b") (bytes "10s") = fileOf [] (bytes "a..b") (bytes "10s") := by
    decide +kernel
  refine ⟨by decide, by decide, by decide, hsame, fun h => ?_⟩
  exact (h (bytes "10s") List.mem_cons_self (bytes "10s") List.mem_cons_self).1 hsame

/-- A counter and its child. -/
theorem files_disjoint_sample :
    FilesDisjoint [bytes "var"] [bytes "10s", bytes "5m"] (bytes "cpu") (bytes "cpu.idle") := by
  have hiff := (files_disjoint_iff [bytes "var"] [bytes "10s", bytes "5m"] (bytes "cpu")
    (bytes "*cpu.idle") (bytes "cpu") (bytes "cpu.idle") (by decide) (by decide)).2
  have hparts : parts (bytes "cpu") = [bytes "cpu"] ∧
      parts (bytes "cpu.idle") = [bytes "cpu", bytes "idle"] := by decide +kernel
  refine (hiff ?_).2 ?_
  · unfold IsFileName
    decide +kernel
  · rw [hparts.1, hparts.2]
    exact ⟨.inr (by decide), by decide +kernel⟩

end Istatd
