import Mathlib.Data.List.Infix
import Mathlib.Tactic

/-!
# Trees of files and directories

A directory is a list of entries with names, in the order in which they are listed; an entry is a
file or a directory.  What can be seen of a tree is what `stat` says about each path; every operation
is described by what it makes of that.

* `FileTree`, `Disk`: a tree, and one whose directories have no two entries of one name;
* `Disk.stat_mkdirs`, `Disk.mkdirs_isSome_iff`: the directories on a path are made;
* `Disk.stat_addFile`, `Disk.addFile_isSome_iff`: a file is made in a directory;
* `Disk.stat_remove`, `Disk.remove_of_not`: a file or an empty directory is removed;
* `Disk.stat_prune_eq_some_iff`: the directories without a file below them are removed;
* `Disk.mem_dirs_iff`: all directories, each after those in it.
-/

/-- The entries of a directory. -/
inductive FileTree (N : Type*)
  | empty
  | file (name : N) (rest : FileTree N)
  | dir (name : N) (sub rest : FileTree N)

namespace FileTree

variable {N : Type*}

/-- An entry without its name. -/
inductive Entry (N : Type*)
  | file
  | dir (sub : FileTree N)

/-- What `stat` says about a path that leads somewhere. -/
inductive Kind
  | file
  | dir
  deriving DecidableEq

/-- A directory without entries. -/
def isEmpty : FileTree N → Bool
  | empty => true
  | _ => false

/-- The names of the entries. -/
def names : FileTree N → List N
  | empty => []
  | file name rest => name :: rest.names
  | dir name _ rest => name :: rest.names

/-- No directory has two entries of one name. -/
def Wf : FileTree N → Prop
  | empty => True
  | file name rest => name ∉ rest.names ∧ rest.Wf
  | dir name sub rest => name ∉ rest.names ∧ sub.Wf ∧ rest.Wf

/-- The trees that an entry has are well-formed. -/
def Entry.Wf : Entry N → Prop
  | file => True
  | dir sub => sub.Wf

/-- An entry in front of others. -/
def Entry.cons (name : N) : Entry N → FileTree N → FileTree N
  | file, rest => .file name rest
  | dir sub, rest => .dir name sub rest

/-- The directories below, each after those in it. -/
def dirs : FileTree N → List (List N)
  | empty => []
  | file _ rest => rest.dirs
  | dir name sub rest => sub.dirs.map (name :: ·) ++ [name] :: rest.dirs

/-- Directories that are empty, or become so, are removed. -/
def prune : FileTree N → FileTree N
  | empty => empty
  | file name rest => file name rest.prune
  | dir name sub rest => if sub.prune.isEmpty then rest.prune else dir name sub.prune rest.prune

theorem eq_empty_of_isEmpty {t : FileTree N} (h : t.isEmpty = true) : t = empty := by
  cases t with
  | empty => rfl
  | file name rest => cases h
  | dir name sub rest => cases h

theorem wf_cons {n : N} {e : Entry N} {rest : FileTree N} :
    (e.cons n rest).Wf ↔ n ∉ rest.names ∧ e.Wf ∧ rest.Wf := by
  cases e with
  | file => simp [Entry.cons, Wf, Entry.Wf]
  | dir sub => rfl

theorem names_prune {n : N} {t : FileTree N} (h : n ∈ t.prune.names) : n ∈ t.names := by
  induction t with
  | empty => exact h
  | file name rest ih =>
    rcases List.mem_cons.1 h with h | h
    · exact List.mem_cons.2 (.inl h)
    · exact List.mem_cons.2 (.inr (ih h))
  | dir name sub rest _ ih =>
    rw [prune] at h
    split_ifs at h
    · exact List.mem_cons.2 (.inr (ih h))
    · rcases List.mem_cons.1 h with h | h
      · exact List.mem_cons.2 (.inl h)
      · exact List.mem_cons.2 (.inr (ih h))

theorem Wf.prune {t : FileTree N} (h : t.Wf) : t.prune.Wf := by
  induction t with
  | empty => trivial
  | file name rest ih => exact ⟨fun hn => h.1 (names_prune hn), ih h.2⟩
  | dir name sub rest ihsub ih =>
    rw [FileTree.prune]
    split_ifs
    · exact ih h.2.2
    · exact ⟨fun hn => h.1 (names_prune hn), ihsub h.2.1, ih h.2.2⟩

theorem ne_nil_of_mem_dirs {t : FileTree N} : ∀ p ∈ t.dirs, p ≠ [] := by
  induction t with
  | empty => exact fun p hp => absurd hp List.not_mem_nil
  | file name rest ih => exact ih
  | dir name sub rest _ ih =>
    intro p hp
    rcases List.mem_append.1 hp with hp | hp
    · obtain ⟨q, -, rfl⟩ := List.mem_map.1 hp
      exact List.cons_ne_nil name q
    · rcases List.mem_cons.1 hp with rfl | hp
      · exact List.cons_ne_nil name []
      · exact ih p hp

variable [DecidableEq N]

/-- The entry of a name. -/
def get (n : N) : FileTree N → Option (Entry N)
  | empty => none
  | file name rest => if name = n then some .file else rest.get n
  | dir name sub rest => if name = n then some (.dir sub) else rest.get n

/-- An entry takes the place of the one of its name, or goes behind the others. -/
def put (n : N) (e : Entry N) : FileTree N → FileTree N
  | empty => e.cons n empty
  | file name rest => if name = n then e.cons n rest else file name (rest.put n e)
  | dir name sub rest => if name = n then e.cons n rest else dir name sub (rest.put n e)

/-- The entries of a name go. -/
def erase (n : N) : FileTree N → FileTree N
  | empty => empty
  | file name rest => if name = n then rest.erase n else file name (rest.erase n)
  | dir name sub rest => if name = n then rest.erase n else dir name sub (rest.erase n)

/-- What is at the end of a path. -/
def stat : List N → FileTree N → Option Kind
  | [], _ => some .dir
  | n :: p, t =>
    match t.get n with
    | none => none
    | some .file => if p = [] then some .file else none
    | some (.dir sub) => sub.stat p

/-- A change of the directory at the end of a path, if there is one. -/
def alter (f : FileTree N → Option (FileTree N)) : List N → FileTree N → Option (FileTree N)
  | [], t => f t
  | n :: p, t =>
    match t.get n with
    | some (.dir sub) => (alter f p sub).map fun sub' => t.put n (.dir sub')
    | _ => none

/-- The directories on a path are made, unless a file is in the way. -/
def mkdirs : List N → FileTree N → Option (FileTree N)
  | [], t => some t
  | n :: p, t =>
    match t.get n with
    | none => (mkdirs p empty).map fun sub => t.put n (.dir sub)
    | some .file => none
    | some (.dir sub) => (mkdirs p sub).map fun sub' => t.put n (.dir sub')

/-- A file is opened in a directory, and made if it is not there. -/
def addEntry (n : N) (t : FileTree N) : Option (FileTree N) :=
  match t.get n with
  | none => some (t.put n .file)
  | some .file => some t
  | some (.dir _) => none

/-- A file or an empty directory goes. -/
def removeEntry (n : N) (t : FileTree N) : Option (FileTree N) :=
  match t.get n with
  | none => none
  | some .file => some (t.erase n)
  | some (.dir sub) => if sub.isEmpty then some (t.erase n) else none

/-! ### Entries -/

variable {n m : N} {e : Entry N} {t sub : FileTree N} {p q : List N}

theorem get_cons (rest : FileTree N) :
    (e.cons n rest).get m = if n = m then some e else rest.get m := by
  cases e <;> rfl

theorem get_eq_none_iff : t.get n = none ↔ n ∉ t.names := by
  induction t with
  | empty => simp [get, names]
  | file name rest ih =>
    rw [get, names, List.mem_cons, not_or]
    split_ifs with h
    · simp [h]
    · simp [ih, Ne.symm h]
  | dir name sub rest _ ih =>
    rw [get, names, List.mem_cons, not_or]
    split_ifs with h
    · simp [h]
    · simp [ih, Ne.symm h]

theorem get_put : (t.put n e).get m = if n = m then some e else t.get m := by
  induction t with
  | empty => rw [put, get_cons]
  | file name rest ih =>
    rw [put]
    split_ifs with hname hm hm
    · rw [get_cons, if_pos hm]
    · rw [get_cons, if_neg hm, get, if_neg (hname ▸ hm)]
    · rw [get, if_neg (hm ▸ hname), ih, if_pos hm]
    · rw [get, get, ih, if_neg hm]
  | dir name sub rest _ ih =>
    rw [put]
    split_ifs with hname hm hm
    · rw [get_cons, if_pos hm]
    · rw [get_cons, if_neg hm, get, if_neg (hname ▸ hm)]
    · rw [get, if_neg (hm ▸ hname), ih, if_pos hm]
    · rw [get, get, ih, if_neg hm]

theorem get_erase : (t.erase n).get m = if n = m then none else t.get m := by
  induction t with
  | empty => simp [erase, get]
  | file name rest ih =>
    rw [erase]
    split_ifs with hname hm hm
    · rw [ih, if_pos hm]
    · rw [ih, if_neg hm, get, if_neg (hname ▸ hm)]
    · rw [get, if_neg (hm ▸ hname), ih, if_pos hm]
    · rw [get, get, ih, if_neg hm]
  | dir name sub rest _ ih =>
    rw [erase]
    split_ifs with hname hm hm
    · rw [ih, if_pos hm]
    · rw [ih, if_neg hm, get, if_neg (hname ▸ hm)]
    · rw [get, if_neg (hm ▸ hname), ih, if_pos hm]
    · rw [get, get, ih, if_neg hm]

theorem mem_names_put : m ∈ (t.put n e).names ↔ m = n ∨ m ∈ t.names := by
  have h := get_put (t := t) (n := n) (m := m) (e := e)
  have hput := get_eq_none_iff (t := t.put n e) (n := m)
  have ht := get_eq_none_iff (t := t) (n := m)
  by_cases hm : n = m
  · rw [if_pos hm] at h
    rw [h] at hput
    simp only [reduceCtorEq, false_iff, not_not] at hput
    exact ⟨fun _ => .inl hm.symm, fun _ => hput⟩
  · rw [if_neg hm] at h
    rw [h, ht] at hput
    rw [← not_iff_not, ← hput, not_or]
    exact ⟨fun h' => ⟨Ne.symm hm, h'⟩, fun h' => h'.2⟩

theorem mem_names_erase (h : m ∈ (t.erase n).names) : m ∈ t.names := by
  by_contra hm
  refine get_eq_none_iff.1 ?_ h
  rw [get_erase, get_eq_none_iff.2 hm, ite_self]

theorem Wf.get (h : t.Wf) (hget : t.get n = some e) : e.Wf := by
  induction t with
  | empty => cases hget
  | file name rest ih =>
    rw [FileTree.get] at hget
    split_ifs at hget with hname
    · cases hget
      trivial
    · exact ih h.2 hget
  | dir name sub rest _ ih =>
    rw [FileTree.get] at hget
    split_ifs at hget with hname
    · cases hget
      exact h.2.1
    · exact ih h.2.2 hget

theorem Wf.put (h : t.Wf) (he : e.Wf) : (t.put n e).Wf := by
  induction t with
  | empty => exact wf_cons.2 ⟨by simp [names], he, trivial⟩
  | file name rest ih =>
    rw [FileTree.put]
    split_ifs with hname
    · exact wf_cons.2 ⟨hname ▸ h.1, he, h.2⟩
    · refine ⟨fun hmem => ?_, ih h.2⟩
      exact (mem_names_put.1 hmem).elim hname h.1
  | dir name sub rest _ ih =>
    rw [FileTree.put]
    split_ifs with hname
    · exact wf_cons.2 ⟨hname ▸ h.1, he, h.2.2⟩
    · refine ⟨fun hmem => ?_, h.2.1, ih h.2.2⟩
      exact (mem_names_put.1 hmem).elim hname h.1

theorem Wf.erase (h : t.Wf) : (t.erase n).Wf := by
  induction t with
  | empty => trivial
  | file name rest ih =>
    rw [FileTree.erase]
    split_ifs
    · exact ih h.2
    · exact ⟨fun hmem => h.1 (mem_names_erase hmem), ih h.2⟩
  | dir name sub rest _ ih =>
    rw [FileTree.erase]
    split_ifs
    · exact ih h.2.2
    · exact ⟨fun hmem => h.1 (mem_names_erase hmem), h.2.1, ih h.2.2⟩

/-! ### Paths -/

theorem stat_cons : t.stat (n :: p) =
    match t.get n with
    | none => none
    | some .file => if p = [] then some .file else none
    | some (.dir sub) => sub.stat p := rfl

theorem stat_cons_of_dir (h : t.get n = some (.dir sub)) : t.stat (n :: p) = sub.stat p := by
  rw [stat_cons, h]

theorem stat_empty (h : p ≠ []) : (empty : FileTree N).stat p = none := by
  cases p with
  | nil => exact absurd rfl h
  | cons n p => rfl

theorem stat_file_of_ne {rest : FileTree N} (h : m ≠ n) :
    (file m rest).stat (n :: p) = rest.stat (n :: p) := by
  rw [stat_cons, get, if_neg h, stat_cons]

theorem stat_dir_of_ne {rest : FileTree N} (h : m ≠ n) :
    (dir m sub rest).stat (n :: p) = rest.stat (n :: p) := by
  rw [stat_cons, get, if_neg h, stat_cons]

theorem stat_cons_congr {t' : FileTree N} (h : t'.get n = t.get n) :
    t'.stat (n :: p) = t.stat (n :: p) := by
  rw [stat_cons, stat_cons, h]

/-- A path goes on behind a directory only. -/
theorem stat_eq_dir_of_append (h : t.stat (p ++ q) ≠ none) (hq : q ≠ []) : t.stat p = some .dir := by
  induction p generalizing t with
  | nil => rfl
  | cons n p ih =>
    rw [List.cons_append, stat_cons] at h
    rw [stat_cons]
    cases hget : t.get n with
    | none => simp [hget] at h
    | some e =>
      cases e with
      | file => simp [hget, hq] at h
      | dir sub =>
        simp only [hget] at h ⊢
        exact ih h

/-- What a change of one directory is for the paths. -/
theorem stat_alter {f : FileTree N → Option (FileTree N)} {t' : FileTree N}
    (h : alter f p t = some t') : ∃ sub sub', f sub = some sub' ∧
      (∀ r, t.stat (p ++ r) = sub.stat r) ∧ (∀ r, t'.stat (p ++ r) = sub'.stat r) ∧
      (∀ q, ¬p <+: q → t'.stat q = t.stat q) ∧
      (t.Wf → sub.Wf ∧ (sub'.Wf → t'.Wf)) := by
  induction p generalizing t t' with
  | nil =>
    exact ⟨t, t', h, fun r => rfl, fun r => rfl, fun q hq => absurd (List.nil_prefix) hq,
      fun ht => ⟨ht, id⟩⟩
  | cons n p ih =>
    rw [alter] at h
    split at h
    · rename_i sub hget
      obtain ⟨sub', halter, rfl⟩ := Option.map_eq_some_iff.1 h
      obtain ⟨s, s', hf, hs, hs', hother, hwf⟩ := ih halter
      refine ⟨s, s', hf, fun r => ?_, fun r => ?_, fun q hq => ?_, fun ht => ?_⟩
      · rw [List.cons_append, stat_cons_of_dir hget, hs]
      · rw [List.cons_append, stat_cons_of_dir (get_put.trans (if_pos rfl)), hs']
      · cases q with
        | nil => rfl
        | cons m q =>
          by_cases hm : n = m
          · subst hm
            rw [stat_cons_of_dir (get_put.trans (if_pos rfl)), stat_cons_of_dir hget]
            exact hother q fun hp => hq (List.cons_prefix_cons.2 ⟨rfl, hp⟩)
          · exact stat_cons_congr (get_put.trans (if_neg hm))
      · obtain ⟨hs, hs'⟩ := hwf (ht.get hget)
        exact ⟨hs, fun h => ht.put (hs' h)⟩
    · cases h

/-- A change of a directory that is there. -/
theorem alter_of_dir (f : FileTree N → Option (FileTree N)) (h : t.stat p = some .dir) :
    ∃ sub : FileTree N, (∀ r, t.stat (p ++ r) = sub.stat r) ∧
      (alter f p t).isSome = (f sub).isSome := by
  induction p generalizing t with
  | nil => exact ⟨t, fun r => rfl, rfl⟩
  | cons n p ih =>
    rw [stat_cons] at h
    cases hget : t.get n with
    | none => simp [hget] at h
    | some e =>
      cases e with
      | file =>
        simp only [hget] at h
        split_ifs at h
        cases h
      | dir sub =>
        simp only [hget] at h
        obtain ⟨s, hs, halter⟩ := ih h
        refine ⟨s, fun r => by rw [List.cons_append, stat_cons_of_dir hget, hs], ?_⟩
        rw [alter, hget]
        simpa using halter

theorem stat_singleton : t.stat [n] =
    match t.get n with
    | none => none
    | some .file => some .file
    | some (.dir _) => some .dir := by
  rw [stat_cons]
  cases t.get n with
  | none => rfl
  | some e => cases e <;> rfl

/-- A file is made, or it was there. -/
theorem stat_addEntry {t' : FileTree N} (h : addEntry n t = some t') :
    t'.stat q = if q = [n] then some .file else t.stat q := by
  have hget : t'.get n = some .file ∧ (∀ m, n ≠ m → t'.get m = t.get m) ∧
      ∀ sub, t.get n ≠ some (.dir sub) := by
    rw [addEntry] at h
    split at h
    · rename_i hn
      cases h
      exact ⟨get_put.trans (if_pos rfl), fun m hm => get_put.trans (if_neg hm), by simp [hn]⟩
    · rename_i hn
      cases h
      exact ⟨hn, fun _ _ => rfl, by simp [hn]⟩
    · cases h
  obtain ⟨hfile, hother, hdir⟩ := hget
  cases q with
  | nil => rw [if_neg (by simp)]; rfl
  | cons m q =>
    by_cases hm : n = m
    · subst hm
      rw [stat_cons, hfile]
      by_cases hq : q = []
      · subst hq
        simp
      · have hne : n :: q ≠ [n] := by simpa using hq
        rw [if_neg hne, stat_cons]
        simp only [if_neg hq]
        cases hn : t.get n with
        | none => rfl
        | some e =>
          cases e with
          | file => rfl
          | dir sub => exact absurd hn (hdir sub)
    · rw [if_neg (by simp [Ne.symm hm]), stat_cons_congr (hother m hm)]

theorem addEntry_isSome_iff : (addEntry n t).isSome ↔ t.stat [n] ≠ some .dir := by
  rw [addEntry, stat_singleton]
  cases t.get n with
  | none => simp
  | some e => cases e <;> simp

theorem Wf.addEntry {t' : FileTree N} (ht : t.Wf) (h : addEntry n t = some t') : t'.Wf := by
  rw [FileTree.addEntry] at h
  split at h
  · cases h
    exact ht.put trivial
  · cases h
    exact ht
  · cases h

theorem isEmpty_iff_stat : t.isEmpty = true ↔ ∀ m, t.stat [m] = none := by
  cases t with
  | empty => simp [isEmpty, stat_empty]
  | file name rest =>
    refine ⟨fun h => absurd h (by simp [isEmpty]), fun h => ?_⟩
    have := h name
    simp [stat_singleton, get] at this
  | dir name sub rest =>
    refine ⟨fun h => absurd h (by simp [isEmpty]), fun h => ?_⟩
    have := h name
    simp [stat_singleton, get] at this

/-- An entry is removed, and there was nothing below it. -/
theorem stat_removeEntry {t' : FileTree N} (h : removeEntry n t = some t') :
    t'.stat q = if q = [n] then none else t.stat q := by
  have hget : t' = t.erase n ∧ ∀ sub, t.get n = some (.dir sub) → sub = empty := by
    rw [removeEntry] at h
    split at h
    · cases h
    · rename_i hn
      cases h
      exact ⟨rfl, by simp [hn]⟩
    · rename_i s hn
      split_ifs at h with hs
      cases h
      refine ⟨rfl, fun sub hsub => ?_⟩
      rw [hn] at hsub
      cases hsub
      exact eq_empty_of_isEmpty hs
  obtain ⟨rfl, hempty⟩ := hget
  cases q with
  | nil => rw [if_neg (by simp)]; rfl
  | cons m q =>
    by_cases hm : n = m
    · subst hm
      rw [stat_cons, get_erase, if_pos rfl]
      by_cases hq : q = []
      · subst hq
        simp
      · have hne : n :: q ≠ [n] := by simpa using hq
        rw [if_neg hne, stat_cons]
        cases hn : t.get n with
        | none => rfl
        | some e =>
          cases e with
          | file => simp [hq]
          | dir sub => simp [hempty sub hn, stat_empty hq]
    · rw [if_neg (by simp [Ne.symm hm]), stat_cons_congr (get_erase.trans (if_neg hm))]

theorem removeEntry_isSome_iff : (removeEntry n t).isSome ↔
    t.stat [n] = some .file ∨ t.stat [n] = some .dir ∧ ∀ m, t.stat [n, m] = none := by
  rw [removeEntry, stat_singleton]
  cases hn : t.get n with
  | none => simp
  | some e =>
    cases e with
    | file => simp
    | dir sub =>
      have hempty : (∀ m, t.stat [n, m] = none) ↔ sub.isEmpty = true := by
        simp only [isEmpty_iff_stat, stat_cons_of_dir hn]
      rw [hempty]
      by_cases hs : sub.isEmpty = true
      · simp [hs]
      · simp [hs]

theorem Wf.removeEntry {t' : FileTree N} (ht : t.Wf) (h : removeEntry n t = some t') : t'.Wf := by
  rw [FileTree.removeEntry] at h
  split at h
  · cases h
  · cases h
    exact ht.erase
  · split_ifs at h
    cases h
    exact ht.erase

/-- The directories on a path are made. -/
theorem stat_mkdirs {t' : FileTree N} (h : mkdirs p t = some t') :
    t'.stat q = if q <+: p then some .dir else t.stat q := by
  induction p generalizing t t' q with
  | nil =>
    cases h
    split_ifs with hq
    · rw [List.prefix_nil.1 hq]
      rfl
    · rfl
  | cons n p ih =>
    have hsub : ∃ sub sub' : FileTree N, mkdirs p sub = some sub' ∧ t' = t.put n (.dir sub') ∧
        (t.get n = none ∧ sub = empty ∨ t.get n = some (.dir sub)) := by
      rw [mkdirs] at h
      split at h
      · rename_i hn
        obtain ⟨sub', hs, rfl⟩ := Option.map_eq_some_iff.1 h
        exact ⟨empty, sub', hs, rfl, .inl ⟨hn, rfl⟩⟩
      · cases h
      · rename_i sub hn
        obtain ⟨sub', hs, rfl⟩ := Option.map_eq_some_iff.1 h
        exact ⟨sub, sub', hs, rfl, .inr hn⟩
    obtain ⟨sub, sub', hs, rfl, hn⟩ := hsub
    cases q with
    | nil => rw [if_pos List.nil_prefix]; rfl
    | cons m q =>
      by_cases hm : n = m
      · subst hm
        rw [stat_cons_of_dir (get_put.trans (if_pos rfl)), ih hs]
        simp only [List.cons_prefix_cons, true_and]
        split_ifs with hq
        · rfl
        · rcases hn with ⟨hn, rfl⟩ | hn
          · have hne : q ≠ [] := by
              rintro rfl
              exact hq List.nil_prefix
            rw [stat_empty hne, stat_cons, hn]
          · rw [stat_cons_of_dir hn]
      · rw [if_neg fun hq => hm (List.cons_prefix_cons.1 hq).1.symm,
          stat_cons_congr (get_put.trans (if_neg hm))]

theorem mkdirs_isSome_iff : (mkdirs p t).isSome ↔ ∀ q, q <+: p → t.stat q ≠ some .file := by
  induction p generalizing t with
  | nil =>
    refine iff_of_true rfl fun q hq => ?_
    rw [List.prefix_nil.1 hq]
    simp [stat]
  | cons n p ih =>
    rw [mkdirs]
    cases hn : t.get n with
    | none =>
      refine iff_of_true ?_ fun q hq => ?_
      · rw [Option.isSome_map, ih]
        intro q _
        cases q with
        | nil => simp [stat]
        | cons m q => simp [stat_empty]
      · cases q with
        | nil => simp [stat]
        | cons m q =>
          rw [← (List.cons_prefix_cons.1 hq).1] at hn
          simp [stat_cons, hn]
    | some e =>
      cases e with
      | file =>
        refine iff_of_false (by simp) fun h => h [n] ?_ ?_
        · exact List.cons_prefix_cons.2 ⟨rfl, List.nil_prefix⟩
        · rw [stat_singleton, hn]
      | dir sub =>
        rw [Option.isSome_map, ih]
        constructor
        · intro h q hq
          cases q with
          | nil => simp [stat]
          | cons m q =>
            obtain ⟨rfl, hqp⟩ := List.cons_prefix_cons.1 hq
            rw [stat_cons_of_dir hn]
            exact h q hqp
        · intro h q hq
          rw [← stat_cons_of_dir hn]
          exact h (n :: q) (List.cons_prefix_cons.2 ⟨rfl, hq⟩)

theorem Wf.mkdirs {t' : FileTree N} (ht : t.Wf) (h : mkdirs p t = some t') : t'.Wf := by
  induction p generalizing t t' with
  | nil =>
    cases h
    exact ht
  | cons n p ih =>
    rw [FileTree.mkdirs] at h
    split at h
    · obtain ⟨sub', hs, rfl⟩ := Option.map_eq_some_iff.1 h
      exact ht.put (ih (t := empty) trivial hs)
    · cases h
    · rename_i sub hn
      obtain ⟨sub', hs, rfl⟩ := Option.map_eq_some_iff.1 h
      exact ht.put (ih (ht.get hn) hs)

/-! ### All directories -/

/-- Somewhere below there is a file. -/
def HasFile (t : FileTree N) : Prop := ∃ r, t.stat r = some .file

theorem get_prune (h : t.Wf) : t.prune.get n =
    match t.get n with
    | none => none
    | some .file => some .file
    | some (.dir sub) => if sub.prune.isEmpty then none else some (.dir sub.prune) := by
  induction t with
  | empty => rfl
  | file name rest ih =>
    rw [prune, get, get]
    by_cases hname : name = n
    · simp [hname]
    · simp only [if_neg hname]
      exact ih h.2
  | dir name sub rest _ ih =>
    rw [prune, get]
    by_cases hname : name = n
    · subst hname
      simp only [if_true]
      split_ifs
      · exact get_eq_none_iff.2 fun hn => h.1 (names_prune hn)
      · exact if_pos rfl
    · simp only [if_neg hname]
      rw [← ih h.2.2]
      split_ifs
      · rfl
      · exact if_neg hname

/-- What is left of a tree has an entry just if the tree has a file. -/
theorem isEmpty_prune_iff (h : t.Wf) : t.prune.isEmpty = true ↔ ¬t.HasFile := by
  induction t with
  | empty =>
    refine iff_of_true rfl ?_
    rintro ⟨r, hr⟩
    cases r with
    | nil => cases hr
    | cons n r => cases hr
  | file name rest ih =>
    refine iff_of_false (by simp [prune, isEmpty]) (not_not.2 ⟨[name], ?_⟩)
    simp [stat_singleton, get]
  | dir name sub rest ihsub ih =>
    have hself : (dir name sub rest).get name = some (.dir sub) := if_pos rfl
    have hfile : (dir name sub rest).HasFile ↔ sub.HasFile ∨ rest.HasFile := by
      constructor
      · rintro ⟨r, hr⟩
        cases r with
        | nil => cases hr
        | cons n r =>
          by_cases hname : name = n
          · subst hname
            exact .inl ⟨r, by rwa [stat_cons_of_dir hself] at hr⟩
          · exact .inr ⟨n :: r, by rwa [stat_dir_of_ne hname] at hr⟩
      · rintro (⟨r, hr⟩ | ⟨r, hr⟩)
        · exact ⟨name :: r, by rwa [stat_cons_of_dir hself]⟩
        · cases r with
          | nil => cases hr
          | cons n r =>
            refine ⟨n :: r, ?_⟩
            have hne : name ≠ n := by
              rintro rfl
              rw [stat_cons, get_eq_none_iff.2 h.1] at hr
              cases hr
            rwa [stat_dir_of_ne hne]
    rw [prune, hfile, not_or, ← ihsub h.2.1, ← ih h.2.2]
    by_cases hs : sub.prune.isEmpty = true
    · rw [if_pos hs, and_iff_right hs]
    · rw [if_neg hs]
      exact iff_of_false (by simp [isEmpty]) fun h => hs h.1

/-- What is left of a tree: the files, and the directories with a file below them. -/
theorem stat_prune_eq_some_iff (h : t.Wf) (hp : p ≠ []) {k : Kind} :
    t.prune.stat p = some k ↔ t.stat p = some k ∧ ∃ r, t.stat (p ++ r) = some .file := by
  induction p generalizing t with
  | nil => exact absurd rfl hp
  | cons n p ih =>
    rw [stat_cons, get_prune h]
    cases hn : t.get n with
    | none => simp [stat_cons, hn]
    | some e =>
      cases e with
      | file =>
        simp only [stat_cons, hn]
        refine ⟨fun hk => ⟨hk, [], ?_⟩, fun hk => hk.1⟩
        split_ifs at hk with hnil
        rw [hnil, List.append_nil, stat_singleton, hn]
      | dir sub =>
        have hsub : sub.Wf := h.get hn
        simp only [List.cons_append, stat_cons_of_dir hn]
        by_cases hempty : sub.prune.isEmpty = true
        · -- the directory of the first name goes, and with it all below
          rw [if_pos hempty]
          refine iff_of_false (by simp) ?_
          rintro ⟨-, r, hr⟩
          exact (isEmpty_prune_iff hsub).1 hempty ⟨p ++ r, hr⟩
        · rw [if_neg hempty]
          by_cases hnil : p = []
          · subst hnil
            refine ⟨fun hk => ⟨hk, ?_⟩, fun hk => hk.1⟩
            by_contra hno
            exact hempty ((isEmpty_prune_iff hsub).2 hno)
          · exact ih hsub hnil

theorem mem_dirs_iff (h : t.Wf) : p ∈ t.dirs ↔ p ≠ [] ∧ t.stat p = some .dir := by
  induction t generalizing p with
  | empty =>
    refine iff_of_false (by simp [dirs]) ?_
    rintro ⟨hne, hp⟩
    rw [stat_empty hne] at hp
    cases hp
  | file name rest ih =>
    rw [dirs, ih h.2]
    refine and_congr_right fun hne => ?_
    obtain ⟨n, p, rfl⟩ := List.exists_cons_of_ne_nil hne
    by_cases hname : name = n
    · subst hname
      rw [stat_cons, stat_cons, get_eq_none_iff.2 h.1, get, if_pos rfl]
      simp
    · rw [stat_file_of_ne hname]
  | dir name sub rest ihsub ih =>
    rw [dirs, List.mem_append, List.mem_cons, ih h.2.2, List.mem_map]
    have hself : (dir name sub rest).get name = some (.dir sub) := if_pos rfl
    constructor
    · rintro (⟨q, hq, rfl⟩ | rfl | ⟨hne, hp⟩)
      · exact ⟨by simp, by rw [stat_cons_of_dir hself]; exact ((ihsub h.2.1).1 hq).2⟩
      · exact ⟨by simp, by rw [stat_cons_of_dir hself]; rfl⟩
      · refine ⟨hne, ?_⟩
        obtain ⟨n, p, rfl⟩ := List.exists_cons_of_ne_nil hne
        have hname : name ≠ n := by
          rintro rfl
          rw [stat_cons, get_eq_none_iff.2 h.1] at hp
          cases hp
        rwa [stat_dir_of_ne hname]
    · rintro ⟨hne, hp⟩
      obtain ⟨n, p, rfl⟩ := List.exists_cons_of_ne_nil hne
      by_cases hname : name = n
      · subst hname
        rw [stat_cons_of_dir hself] at hp
        by_cases hnil : p = []
        · exact .inr (.inl (by rw [hnil]))
        · exact .inl ⟨p, (ihsub h.2.1).2 ⟨hnil, hp⟩, rfl⟩
      · rw [stat_dir_of_ne hname] at hp
        exact .inr (.inr ⟨hne, hp⟩)

end FileTree

/-! ### Trees with different names -/

/-- A tree whose directories have no two entries of one name. -/
structure Disk (N : Type*) where
  root : FileTree N
  distinct : root.Wf

namespace Disk

open FileTree

variable {N : Type*}

/-- A root without entries. -/
def empty : Disk N := ⟨.empty, trivial⟩

/-- A tree that an operation has made. -/
def ofTree (o : Option (FileTree N)) (h : ∀ t, o = some t → t.Wf) : Option (Disk N) :=
  o.pmap Disk.mk h

theorem ofTree_eq_some {d : Disk N} {o : Option (FileTree N)} {h : ∀ t, o = some t → t.Wf} :
    ofTree o h = some d ↔ o = some d.root := by
  cases o with
  | none => simp [ofTree]
  | some t =>
    obtain ⟨root, hroot⟩ := d
    simp [ofTree]

theorem ofTree_isSome {o : Option (FileTree N)} {h : ∀ t, o = some t → t.Wf} :
    (ofTree o h).isSome = o.isSome := by
  cases o <;> rfl

variable [DecidableEq N]

/-- What `stat` says about a path from the root. -/
def stat (d : Disk N) (p : List N) : Option Kind := FileTree.stat p d.root

/-- The directories on a path are made, unless a file is in the way. -/
def mkdirs (d : Disk N) (p : List N) : Option (Disk N) :=
  ofTree (d.root.mkdirs p) fun _ h => d.distinct.mkdirs h

/-- A file in a directory is opened, and made if it is not there. -/
def addFile (d : Disk N) (p : List N) (n : N) : Option (Disk N) :=
  ofTree (d.root.alter (addEntry n) p) fun _ h => by
    obtain ⟨sub, sub', hadd, -, -, -, hwf⟩ := stat_alter h
    exact (hwf d.distinct).2 ((hwf d.distinct).1.addEntry hadd)

/-- A file or an empty directory in a directory is removed, if it is there. -/
def remove (d : Disk N) (p : List N) (n : N) : Disk N :=
  (ofTree (d.root.alter (removeEntry n) p) fun _ h => by
    obtain ⟨sub, sub', hremove, -, -, -, hwf⟩ := stat_alter h
    exact (hwf d.distinct).2 ((hwf d.distinct).1.removeEntry hremove)).getD d

/-- The directories that are empty, or become so, are removed; the root stays. -/
def prune (d : Disk N) : Disk N := ⟨d.root.prune, d.distinct.prune⟩

/-- All directories but the root, each after those in it. -/
def dirs (d : Disk N) : List (List N) := d.root.dirs

variable {d d' : Disk N} {p q : List N} {n : N}

theorem stat_nil : d.stat [] = some .dir := rfl

theorem stat_empty (h : p ≠ []) : (empty : Disk N).stat p = none := FileTree.stat_empty h

/-- A path goes on behind a directory only. -/
theorem stat_eq_dir_of_append (h : d.stat (p ++ q) ≠ none) (hq : q ≠ []) : d.stat p = some .dir :=
  FileTree.stat_eq_dir_of_append h hq

theorem stat_mkdirs (h : d.mkdirs p = some d') :
    d'.stat q = if q <+: p then some .dir else d.stat q :=
  FileTree.stat_mkdirs (ofTree_eq_some.1 h)

theorem mkdirs_isSome_iff : (d.mkdirs p).isSome ↔ ∀ q, q <+: p → d.stat q ≠ some .file := by
  rw [mkdirs, ofTree_isSome, FileTree.mkdirs_isSome_iff]
  rfl

theorem stat_addFile (h : d.addFile p n = some d') :
    d'.stat q = if q = p ++ [n] then some .file else d.stat q := by
  obtain ⟨sub, sub', hadd, hsub, hsub', hother, -⟩ := stat_alter (ofTree_eq_some.1 h)
  by_cases hpq : p <+: q
  · obtain ⟨r, rfl⟩ := hpq
    unfold stat
    rw [hsub', hsub, stat_addEntry hadd]
    simp only [List.append_cancel_left_eq]
  · have hne : q ≠ p ++ [n] := by
      rintro rfl
      exact hpq (List.prefix_append p [n])
    rw [if_neg hne]
    exact hother q hpq

theorem addFile_isSome_iff :
    (d.addFile p n).isSome ↔ d.stat p = some .dir ∧ d.stat (p ++ [n]) ≠ some .dir := by
  rw [addFile, ofTree_isSome]
  constructor
  · intro h
    obtain ⟨t', ht'⟩ := Option.isSome_iff_exists.1 h
    obtain ⟨sub, sub', hadd, hsub, -, -, -⟩ := stat_alter ht'
    have hdir := hsub []
    rw [List.append_nil] at hdir
    refine ⟨hdir, ?_⟩
    rw [stat, hsub [n]]
    exact addEntry_isSome_iff.1 (hadd ▸ rfl)
  · rintro ⟨hdir, hn⟩
    obtain ⟨sub, hsub, hsome⟩ := alter_of_dir (addEntry n) hdir
    rw [hsome, addEntry_isSome_iff, ← hsub]
    exact hn

/-- A file, or an empty directory. -/
def Removable (d : Disk N) (p : List N) : Prop :=
  d.stat p = some .file ∨ d.stat p = some .dir ∧ ∀ m, d.stat (p ++ [m]) = none

theorem stat_remove (h : d.Removable (p ++ [n])) :
    (d.remove p n).stat q = if q = p ++ [n] then none else d.stat q := by
  have hdir : d.stat p = some .dir := by
    refine stat_eq_dir_of_append (fun hnone => ?_) (List.cons_ne_nil n [])
    rw [Removable, hnone] at h
    simp at h
  obtain ⟨sub, hsub, hsome⟩ := alter_of_dir (removeEntry n) hdir
  have hremove : (removeEntry n sub).isSome = true := by
    rw [removeEntry_isSome_iff, ← hsub]
    refine h.imp id fun h => ⟨h.1, fun m => ?_⟩
    have hm := h.2 m
    rw [List.append_assoc] at hm
    rw [← hsub]
    exact hm
  rw [← hsome] at hremove
  obtain ⟨t, ht⟩ := Option.isSome_iff_exists.1 hremove
  have hroot : (d.remove p n).root = t := by
    unfold remove
    simp [ofTree, ht]
  obtain ⟨s, s', hs, hsub, hsub', hother, -⟩ := stat_alter ht
  unfold stat
  rw [hroot]
  by_cases hpq : p <+: q
  · obtain ⟨r, rfl⟩ := hpq
    rw [hsub', hsub, stat_removeEntry hs]
    simp only [List.append_cancel_left_eq]
  · have hne : q ≠ p ++ [n] := by
      rintro rfl
      exact hpq (List.prefix_append p [n])
    rw [if_neg hne]
    exact hother q hpq

theorem remove_of_not (h : ¬d.Removable (p ++ [n])) : d.remove p n = d := by
  have hnone : d.root.alter (removeEntry n) p = none := by
    by_contra hsome
    obtain ⟨t, ht⟩ := Option.ne_none_iff_exists'.1 hsome
    obtain ⟨sub, sub', hremove, hsub, -, -, -⟩ := stat_alter ht
    refine h ((removeEntry_isSome_iff.1 (hremove ▸ rfl : (removeEntry n sub).isSome)).imp ?_ ?_)
    · exact (hsub [n]).trans
    · rintro ⟨hdir, hempty⟩
      refine ⟨(hsub [n]).trans hdir, fun m => ?_⟩
      rw [List.append_assoc]
      exact (hsub [n, m]).trans (hempty m)
  unfold remove
  simp [ofTree, hnone]

theorem stat_prune_eq_some_iff (hp : p ≠ []) {k : Kind} :
    d.prune.stat p = some k ↔ d.stat p = some k ∧ ∃ r, d.stat (p ++ r) = some .file :=
  FileTree.stat_prune_eq_some_iff d.distinct hp

theorem mem_dirs_iff : p ∈ d.dirs ↔ p ≠ [] ∧ d.stat p = some .dir :=
  FileTree.mem_dirs_iff d.distinct

end Disk
