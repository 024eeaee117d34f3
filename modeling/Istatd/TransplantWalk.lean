import Istatd.CounterPaths

/-!
# The walk of the transplant client (`tool/istatd_transplant.cpp`)

The client goes through the files of its store with two queues, of directories and of files, and two
handlers that post each other: `next_dir` fills the queues from one directory, and `next_file` takes
a file and starts its exchange, at whose end `next_file` is posted again.

`next_file` reads the front of its queue and removes the back.  A directory with `k` regular files
is therefore visited as `k` times its first file.

* `Walk.step`: one handler run by the io service, `Walk.run` for many;
* `Folder`, `Stored`: a directory tree in the order of `readdir`, and the file system that holds it;
* `visitsEachOnce_iff`: every file is visited exactly once, and the walk stops, if and only if no
  directory has two regular files.
-/

namespace Istatd

/-- What `stat` says a path is. -/
inductive FileType
  | dir
  | reg
  | other
  deriving DecidableEq

/-- The file system: the names `readdir` returns for a directory that can be opened, and `stat`. -/
structure FileSystem where
  readdir : Bytes → Option (List Bytes)
  stat : Bytes → Option FileType

/-- The handlers of the walk. -/
inductive Handler
  | nextDir
  | nextFile
  deriving DecidableEq

/-- `dirQueue_` and `fileQueue_` of a `ClientConnection`, the handlers that are posted, and the
paths `do_file` has been called with. -/
structure Walk where
  dirQueue : List Bytes
  fileQueue : List Bytes
  posted : List Handler
  visited : List Bytes
  deriving DecidableEq

/-- `dent->d_name[0] == '.'`. -/
def isDotName (name : Bytes) : Bool := name.head? == some (byte '.')

namespace Walk

/-- The state `start` leaves, with `next_dir` about to be called. -/
def start : Walk := ⟨[[]], [], [.nextDir], []⟩

/-- One round of the loop over the entries of the directory `s`. -/
def enter (fs : FileSystem) (root s : Bytes) (w : Walk) (name : Bytes) : Walk :=
  if isDotName name then w
  else
    let partpath := s ++ name
    match fs.stat (root ++ partpath) with
    | none => w
    | some .dir => { w with dirQueue := w.dirQueue ++ [partpath ++ [slash]] }
    | some .reg => { w with fileQueue := w.fileQueue ++ [partpath] }
    | some .other => w

/-- `ClientConnection::next_dir`. -/
def nextDir (fs : FileSystem) (root : Bytes) (w : Walk) : Walk :=
  match w.dirQueue with
  | [] => w
  | s :: dirQueue =>
    let w := { w with dirQueue := dirQueue }
    match fs.readdir (root ++ s) with
    | none => { w with posted := w.posted ++ [.nextDir] }
    | some names =>
      let w := names.foldl (enter fs root s) w
      { w with posted := w.posted ++ [.nextFile] }

/-- `ClientConnection::next_file`.  The exchange `do_file` starts posts `next_file` when it is done.
-/
def nextFile (w : Walk) : Walk :=
  match w.fileQueue with
  | [] => { w with posted := w.posted ++ [.nextDir] }
  | filepath :: _ =>
    { w with
      fileQueue := w.fileQueue.dropLast
      visited := w.visited ++ [filepath]
      posted := w.posted ++ [.nextFile] }

/-- The io service runs the handler that was posted first. -/
def step (fs : FileSystem) (root : Bytes) (w : Walk) : Walk :=
  match w.posted with
  | [] => w
  | .nextDir :: posted => nextDir fs root { w with posted := posted }
  | .nextFile :: posted => nextFile { w with posted := posted }

/-- The state after `n` handlers. -/
def run (fs : FileSystem) (root : Bytes) (n : ℕ) (w : Walk) : Walk := (step fs root)^[n] w

end Walk

/-! ### Directory trees -/

/-- The entries of a directory, in the order of `readdir`. -/
inductive Folder
  | empty
  | file (name : Bytes) (rest : Folder)
  | dir (name : Bytes) (sub rest : Folder)

namespace Folder

/-- The names of the entries. -/
def names : Folder → List Bytes
  | empty => []
  | file name rest => name :: rest.names
  | dir name _ rest => name :: rest.names

/-- The names of the regular files. -/
def regular : Folder → List Bytes
  | empty => []
  | file name rest => name :: rest.regular
  | dir _ _ rest => rest.regular

/-- The directories below, at any depth. -/
def folders : Folder → List Folder
  | empty => []
  | file _ rest => rest.folders
  | dir _ sub rest => sub :: (sub.folders ++ rest.folders)

/-- The paths of the regular files at any depth, for a directory with the path `s`. -/
def files (s : Bytes) : Folder → List Bytes
  | empty => []
  | file name rest => (s ++ name) :: rest.files s
  | dir name sub rest => sub.files (s ++ name ++ [slash]) ++ rest.files s

/-- The names of a directory are different and without a slash, at any depth. -/
def Wf : Folder → Prop
  | empty => True
  | file name rest => slash ∉ name ∧ name ∉ rest.names ∧ rest.Wf
  | dir name sub rest => slash ∉ name ∧ name ∉ rest.names ∧ sub.Wf ∧ rest.Wf

/-- The entries are in the file system, as what they are. -/
def Entries (fs : FileSystem) (root s : Bytes) : Folder → Prop
  | empty => True
  | file name rest => fs.stat (root ++ (s ++ name)) = some .reg ∧ rest.Entries fs root s
  | dir name sub rest =>
    fs.stat (root ++ (s ++ name)) = some .dir ∧
      (∃ ents, fs.readdir (root ++ (s ++ name ++ [slash])) = some ents ∧
        ents.filter (fun e => !isDotName e) = sub.names) ∧
      sub.Entries fs root (s ++ name ++ [slash]) ∧ rest.Entries fs root s

/-- The tree is what the file system holds below the path `s`; `readdir` may return further names
that start with a dot. -/
def Stored (fs : FileSystem) (root s : Bytes) (l : Folder) : Prop :=
  (∃ ents, fs.readdir (root ++ s) = some ents ∧ ents.filter (fun e => !isDotName e) = l.names) ∧
    l.Entries fs root s

end Folder

/-- Some time the walk of the tree has stopped, and each regular file has been visited once and
nothing else. -/
def VisitsEachOnce (fs : FileSystem) (root : Bytes) (l : Folder) : Prop :=
  ∃ n, (Walk.run fs root n Walk.start).posted = [] ∧
    ∀ path, (Walk.run fs root n Walk.start).visited.count path =
      if path ∈ l.files [] then 1 else 0

/-! ### What the queues become -/

namespace Folder

/-- The paths of the regular files of one directory. -/
def own (s : Bytes) (l : Folder) : List Bytes := l.regular.map (s ++ ·)

/-- The directories in a directory, with their paths. -/
def subdirs (s : Bytes) : Folder → List (Bytes × Folder)
  | empty => []
  | file _ rest => rest.subdirs s
  | dir name sub rest => (s ++ name ++ [slash], sub) :: rest.subdirs s

/-- The loop over the entries appends the directories and the regular files to their queues. -/
theorem foldl_enter {fs : FileSystem} {root s : Bytes} {l : Folder} (hl : l.Entries fs root s)
    {ents : List Bytes} (hents : ents.filter (fun e => !isDotName e) = l.names) (w : Walk) :
    ents.foldl (Walk.enter fs root s) w =
      { w with
        dirQueue := w.dirQueue ++ (l.subdirs s).map Prod.fst
        fileQueue := w.fileQueue ++ l.own s } := by
  induction ents generalizing l w with
  | nil =>
    cases l with
    | empty => simp [subdirs, own, regular]
    | file name rest => cases hents
    | dir name sub rest => cases hents
  | cons e ents ih =>
    rw [List.foldl_cons]
    by_cases hdot : isDotName e = true
    · rw [List.filter_cons_of_neg (by simp [hdot])] at hents
      rw [ih hl hents, Walk.enter, if_pos hdot]
    · rw [List.filter_cons_of_pos (by simp [hdot])] at hents
      cases l with
      | empty => cases hents
      | file name rest =>
        obtain ⟨rfl, hrest⟩ := List.cons.inj hents
        rw [ih hl.2 hrest, Walk.enter, if_neg hdot]
        simp only [hl.1, subdirs, own, regular, List.map_cons, List.append_assoc,
          List.singleton_append]
      | dir name sub rest =>
        obtain ⟨rfl, hrest⟩ := List.cons.inj hents
        rw [ih hl.2.2.2 hrest, Walk.enter, if_neg hdot]
        simp only [hl.1, subdirs, own, regular, List.map_cons, List.append_assoc,
          List.singleton_append]

theorem Stored.subdirs {fs : FileSystem} {root s : Bytes} {l : Folder} (h : l.Entries fs root s) :
    ∀ p ∈ l.subdirs s, p.2.Stored fs root p.1 := by
  induction l with
  | empty => exact fun p hp => absurd hp (by simp [Folder.subdirs])
  | file name rest ih => exact ih h.2
  | dir name sub rest _ ih =>
    obtain ⟨-, hents, hsub, hrest⟩ := h
    intro p hp
    rcases List.mem_cons.1 hp with rfl | hp
    · exact ⟨hents, hsub⟩
    · exact ih hrest p hp

/-- The directories below are those in the directory and those below them. -/
theorem length_folders (s : Bytes) (l : Folder) :
    ((l.subdirs s).map fun p => p.2.folders.length + 1).sum = l.folders.length := by
  induction l with
  | empty => rfl
  | file name rest ih => exact ih
  | dir name sub rest _ ih =>
    simp only [subdirs, folders, List.map_cons, List.sum_cons, List.length_cons,
      List.length_append, ih]
    ring

/-- What `next_file` visits of a queue of files: as many files as there are, all of them the first.
-/
def drain : List Bytes → List Bytes
  | [] => []
  | f :: q => List.replicate (q.length + 1) f

/-- What the walk visits below a directory. -/
def visitsBelow (s : Bytes) : Folder → List Bytes
  | empty => []
  | file _ rest => rest.visitsBelow s
  | dir name sub rest =>
    (drain (sub.own (s ++ name ++ [slash])) ++ sub.visitsBelow (s ++ name ++ [slash])) ++
      rest.visitsBelow s

/-- What the walk visits of a tree. -/
def visits (s : Bytes) (l : Folder) : List Bytes := drain (l.own s) ++ l.visitsBelow s

theorem visitsBelow_eq (s : Bytes) (l : Folder) :
    l.visitsBelow s = (l.subdirs s).flatMap fun p => p.2.visits p.1 := by
  induction l with
  | empty => rfl
  | file name rest ih => exact ih
  | dir name sub rest _ ih => rw [visitsBelow, subdirs, List.flatMap_cons, ih]; rfl

end Folder

namespace Walk

variable {fs : FileSystem} {root : Bytes}

theorem run_add (m n : ℕ) (w : Walk) : run fs root (m + n) w = run fs root n (run fs root m w) := by
  rw [run, Nat.add_comm, Function.iterate_add_apply]
  rfl

/-- The files of a queue are visited, and `next_dir` is posted. -/
theorem run_drain (ds q v : List Bytes) :
    run fs root (q.length + 1) ⟨ds, q, [.nextFile], v⟩ =
      ⟨ds, [], [.nextDir], v ++ Folder.drain q⟩ := by
  -- the front of the queue stays while its back is removed
  have hfront : ∀ (n : ℕ) (f : Bytes) (q v : List Bytes), q.length = n →
      run fs root (n + 1) ⟨ds, f :: q, [.nextFile], v⟩ =
        ⟨ds, [], [.nextFile], v ++ List.replicate (n + 1) f⟩ := by
    intro n
    induction n with
    | zero =>
      intro f q v hq
      rw [List.length_eq_zero_iff.1 hq]
      rfl
    | succ n ih =>
      intro f q v hq
      have hne : q ≠ [] := by
        rintro rfl
        cases hq
      rw [run, Function.iterate_succ_apply]
      have hstep : step fs root ⟨ds, f :: q, [.nextFile], v⟩ =
          ⟨ds, f :: q.dropLast, [.nextFile], v ++ [f]⟩ := by
        simp [step, nextFile, List.dropLast_cons_of_ne_nil hne]
      rw [hstep]
      refine (ih f q.dropLast (v ++ [f]) (by rw [List.length_dropLast, hq]; rfl)).trans ?_
      rw [List.append_assoc, List.singleton_append, ← List.replicate_succ]
  cases q with
  | nil => simp [run, step, nextFile, Folder.drain]
  | cons f q =>
    rw [run_add, List.length_cons, hfront q.length f q v rfl]
    rfl

/-- **The walk of a queue of directories.** -/
theorem run_dirs {ps : List (Bytes × Folder)} (hps : ∀ p ∈ ps, p.2.Stored fs root p.1)
    (v : List Bytes) :
    ∃ n vis, run fs root n ⟨ps.map Prod.fst, [], [.nextDir], v⟩ = ⟨[], [], [], v ++ vis⟩ ∧
      vis.Perm (ps.flatMap fun p => p.2.visits p.1) := by
  -- induction on the number of directories that are left
  induction hn : (ps.map fun p => p.2.folders.length + 1).sum using Nat.strong_induction_on
    generalizing ps v with
  | _ m ih =>
    cases ps with
    | nil => exact ⟨1, [], by simp [run, step, nextDir], List.Perm.nil⟩
    | cons p ps =>
      obtain ⟨s, l⟩ := p
      obtain ⟨⟨ents, hread, hents⟩, hl⟩ := hps (s, l) (by simp)
      have hdir : run fs root 1 ⟨((s, l) :: ps).map Prod.fst, [], [.nextDir], v⟩ =
          ⟨(ps ++ l.subdirs s).map Prod.fst, l.own s, [.nextFile], v⟩ := by
        simp only [run, Function.iterate_one, step, nextDir, List.map_cons, hread,
          Folder.foldl_enter hl hents, List.map_append, List.nil_append]
      have hsub : ∀ p ∈ ps ++ l.subdirs s, p.2.Stored fs root p.1 := by
        intro p hp
        rcases List.mem_append.1 hp with hp | hp
        · exact hps p (by simp [hp])
        · exact Folder.Stored.subdirs hl p hp
      have hlt : ((ps ++ l.subdirs s).map fun p => p.2.folders.length + 1).sum < m := by
        rw [← hn, List.map_append, List.sum_append, Folder.length_folders, List.map_cons,
          List.sum_cons]
        simp only
        omega
      obtain ⟨n, vis, hrun, hperm⟩ := ih _ hlt hsub (v ++ Folder.drain (l.own s)) rfl
      refine ⟨1 + ((l.own s).length + 1) + n, Folder.drain (l.own s) ++ vis, ?_, ?_⟩
      · rw [run_add, run_add, hdir, run_drain, hrun,
          List.append_assoc]
      · rw [List.flatMap_append, ← Folder.visitsBelow_eq] at hperm
        rw [List.flatMap_cons, Folder.visits, List.append_assoc]
        exact (hperm.trans List.perm_append_comm).append_left _

end Walk

/-! ### Which trees are visited well -/

namespace Folder

/-- The path of a file below `s`: an entry's name, and a slash if the file is deeper. -/
theorem exists_of_mem_files {s x : Bytes} {l : Folder} (h : x ∈ l.files s) :
    ∃ name ∈ l.names, x = s ++ name ∨ ∃ r, x = s ++ (name ++ slash :: r) := by
  induction l generalizing s with
  | empty => cases h
  | file name rest ih =>
    rcases List.mem_cons.1 h with rfl | h
    · exact ⟨name, by simp [names], Or.inl rfl⟩
    · obtain ⟨m, hm, hx⟩ := ih h
      exact ⟨m, by simp [names, hm], hx⟩
  | dir name sub rest ihsub ih =>
    rcases List.mem_append.1 h with h | h
    · refine ⟨name, by simp [names], Or.inr ?_⟩
      obtain ⟨m, -, rfl | ⟨r, rfl⟩⟩ := ihsub h
      · exact ⟨m, by simp⟩
      · exact ⟨m ++ slash :: r, by simp⟩
    · obtain ⟨m, hm, hx⟩ := ih h
      exact ⟨m, by simp [names, hm], hx⟩

/-- Names without a slash in front of a slash are equal if the strings are. -/
theorem name_unique {a b x y : Bytes} (ha : slash ∉ a) (hb : slash ∉ b)
    (h : a ++ slash :: x = b ++ slash :: y) : a = b := by
  have hsplit : (a ++ slash :: x).takeWhile (· ≠ slash) = (b ++ slash :: y).takeWhile (· ≠ slash) :=
    congrArg _ h
  have hpos : ∀ {c : Bytes}, slash ∉ c → ∀ z ∈ c, decide (z ≠ slash) = true := by
    intro c hc z hz
    exact decide_eq_true fun he => hc (he ▸ hz)
  rw [List.takeWhile_append_of_pos (hpos ha), List.takeWhile_append_of_pos (hpos hb)] at hsplit
  simpa using hsplit

theorem Wf.slash_not_mem {l : Folder} (h : l.Wf) : ∀ name ∈ l.names, slash ∉ name := by
  induction l with
  | empty => simp [names]
  | file name rest ih => simpa [names] using ⟨h.1, ih h.2.2⟩
  | dir name sub rest _ ih => simpa [names] using ⟨h.1, ih h.2.2.2⟩

/-- The files of a tree have different paths. -/
theorem Wf.files_nodup {l : Folder} (h : l.Wf) (s : Bytes) : (l.files s).Nodup := by
  induction l generalizing s with
  | empty => exact List.nodup_nil
  | file name rest ih =>
    obtain ⟨hname, hnew, hrest⟩ := h
    refine List.nodup_cons.2 ⟨fun hmem => ?_, ih hrest s⟩
    obtain ⟨m, hm, hx | ⟨r, hx⟩⟩ := exists_of_mem_files hmem
    · exact hnew (List.append_cancel_left hx ▸ hm)
    · exact hname (by rw [List.append_cancel_left hx]; simp)
  | dir name sub rest ihsub ih =>
    obtain ⟨hname, hnew, hsub, hrest⟩ := h
    refine List.Nodup.append (ihsub hsub _) (ih hrest s) fun x hx hx' => ?_
    obtain ⟨r, rfl⟩ : ∃ r, x = s ++ (name ++ slash :: r) := by
      obtain ⟨m, -, rfl | ⟨r, rfl⟩⟩ := exists_of_mem_files hx
      · exact ⟨m, by simp⟩
      · exact ⟨m ++ slash :: r, by simp⟩
    obtain ⟨m, hm, he | ⟨r', he⟩⟩ := exists_of_mem_files hx'
    · exact hrest.slash_not_mem m hm (by rw [← List.append_cancel_left he]; simp)
    · exact hnew (name_unique hname (hrest.slash_not_mem m hm) (List.append_cancel_left he) ▸ hm)

theorem drain_of_length_le_one {q : List Bytes} (h : q.length ≤ 1) : drain q = q := by
  match q, h with
  | [], _ => rfl
  | [f], _ => rfl

/-- Without two regular files in a directory, the visits are the files. -/
theorem visits_perm_files {l : Folder} (h : ∀ d ∈ l :: l.folders, d.regular.length ≤ 1) (s : Bytes) :
    (l.visits s).Perm (l.files s) := by
  have hbelow : ∀ (l : Folder) (s : Bytes), (∀ d ∈ l.folders, d.regular.length ≤ 1) →
      (l.own s ++ l.visitsBelow s).Perm (l.files s) := by
    intro l
    induction l with
    | empty => exact fun s _ => List.Perm.refl _
    | file name rest ih => exact fun s hd => (ih s hd).cons _
    | dir name sub rest ihsub ih =>
      intro s hd
      have hsub := ihsub (s ++ name ++ [slash]) fun d hmem => hd d (by simp [folders, hmem])
      have hrest := ih s fun d hmem => hd d (by simp [folders, hmem])
      have hone : (sub.own (s ++ name ++ [slash])).length ≤ 1 := by
        rw [own, List.length_map]
        exact hd sub (by simp [folders])
      rw [visitsBelow, drain_of_length_le_one hone, files]
      refine List.Perm.trans ?_ (hsub.append hrest)
      refine List.perm_append_comm_assoc _ _ _
  rw [visits, drain_of_length_le_one]
  · exact hbelow l s fun d hd => h d (by simp [hd])
  · rw [own, List.length_map]
    exact h l (by simp)

theorem mem_files_of_mem_own {s x : Bytes} {l : Folder} (h : x ∈ l.own s) : x ∈ l.files s := by
  induction l with
  | empty => cases h
  | file name rest ih =>
    rcases List.mem_cons.1 h with rfl | h
    · exact List.mem_cons_self
    · exact List.mem_cons_of_mem _ (ih h)
  | dir name sub rest _ ih => exact List.mem_append_right _ (ih h)

/-- The files of a directory below are files of the tree, and what is visited of them is part of the
visits. -/
theorem exists_own_of_mem_folders {l d : Folder} (hd : d ∈ l.folders) (s : Bytes) :
    ∃ s', (∀ x ∈ d.own s', x ∈ l.files s) ∧
      ∀ x, (drain (d.own s')).count x ≤ (l.visitsBelow s).count x := by
  induction l generalizing s with
  | empty => cases hd
  | file name rest ih =>
    obtain ⟨s', hfiles, hcount⟩ := ih hd s
    exact ⟨s', fun x hx => List.mem_cons_of_mem _ (hfiles x hx), hcount⟩
  | dir name sub rest ihsub ih =>
    simp only [visitsBelow, List.count_append]
    rcases List.mem_cons.1 hd with rfl | hd
    · refine ⟨s ++ name ++ [slash], fun x hx => ?_, fun x => by omega⟩
      exact List.mem_append_left _ (mem_files_of_mem_own hx)
    · rcases List.mem_append.1 hd with hd | hd
      · obtain ⟨s', hfiles, hcount⟩ := ihsub hd (s ++ name ++ [slash])
        refine ⟨s', fun x hx => List.mem_append_left _ (hfiles x hx), fun x => ?_⟩
        have := hcount x
        omega
      · obtain ⟨s', hfiles, hcount⟩ := ih hd s
        refine ⟨s', fun x hx => List.mem_append_right _ (hfiles x hx), fun x => ?_⟩
        have := hcount x
        omega

/-- The first of several regular files of a directory is visited more than once. -/
theorem exists_count_visits {l d : Folder} (hd : d ∈ l :: l.folders) (hlen : 2 ≤ d.regular.length)
    (s : Bytes) : ∃ path ∈ l.files s, 2 ≤ (l.visits s).count path := by
  have hdrain : ∀ s', ∃ x ∈ d.own s', 2 ≤ (drain (d.own s')).count x := by
    intro s'
    rw [own]
    match hreg : d.regular, hlen with
    | f :: g :: fs, _ => exact ⟨s' ++ f, by simp, by simp [drain, List.count_replicate_self]⟩
  rcases List.mem_cons.1 hd with rfl | hd
  · obtain ⟨x, hx, hcount⟩ := hdrain s
    refine ⟨x, mem_files_of_mem_own hx, ?_⟩
    rw [visits, List.count_append]
    omega
  · obtain ⟨s', hfiles, hle⟩ := exists_own_of_mem_folders hd s
    obtain ⟨x, hx, hcount⟩ := hdrain s'
    refine ⟨x, hfiles x hx, ?_⟩
    have := hle x
    rw [visits, List.count_append]
    omega

end Folder

/-- A walk that has stopped stays as it is, so that all runs that stop end in one state. -/
theorem Walk.run_eq_run {fs : FileSystem} {root : Bytes} {w : Walk} {m n : ℕ}
    (hm : (run fs root m w).posted = []) (hn : (run fs root n w).posted = []) :
    run fs root m w = run fs root n w := by
  have hstay : ∀ {v : Walk} (k : ℕ), v.posted = [] → run fs root k v = v := by
    intro v k hv
    have hstep : step fs root v = v := by
      rw [step, hv]
    exact Function.iterate_fixed hstep k
  rw [← hstay n hm, ← hstay m hn, ← run_add, ← run_add, Nat.add_comm]

/-- **The walk of the client.**  For every finite tree below the root, the walk visits each regular
file exactly once and stops, if and only if no directory has two regular files. -/
theorem visitsEachOnce_iff {fs : FileSystem} {root : Bytes} {l : Folder}
    (hl : l.Stored fs root []) (hw : l.Wf) :
    VisitsEachOnce fs root l ↔ ∀ d ∈ l :: l.folders, d.regular.length ≤ 1 := by
  have hps : ∀ p ∈ [(([] : Bytes), l)], p.2.Stored fs root p.1 := by simpa using hl
  obtain ⟨n, vis, hrun, hperm⟩ := Walk.run_dirs hps []
  rw [List.flatMap_singleton] at hperm
  have hstop : (Walk.run fs root n Walk.start).posted = [] := by
    rw [show Walk.run fs root n Walk.start = _ from hrun]
  constructor
  · rintro ⟨m, hm, hcount⟩ d hd
    by_contra hlen
    obtain ⟨path, hpath, htwo⟩ := Folder.exists_count_visits hd (by omega) []
    have hone := hcount path
    rw [Walk.run_eq_run hm hstop, show Walk.run fs root n Walk.start = _ from hrun,
      if_pos hpath] at hone
    rw [← hperm.count_eq] at htwo
    simp only [List.nil_append] at hone
    omega
  · intro h
    refine ⟨n, hstop, fun path => ?_⟩
    rw [show Walk.run fs root n Walk.start = _ from hrun]
    simp only [List.nil_append]
    rw [(hperm.trans (Folder.visits_perm_files h [])).count_eq, (hw.files_nodup []).count]

/-- A file system with the directory `r/`, which holds a file and the directory `r/d/`, and what is
given for that directory. -/
def sampleFileSystem (ents : List Bytes) : FileSystem where
  readdir p :=
    if p = bytes "r/" then some [bytes ".", bytes "..", bytes "f", bytes "d"]
    else if p = bytes "r/d/" then some (bytes "." :: bytes ".." :: ents)
    else none
  stat p := if p = bytes "r/d" then some .dir else some .reg

/-- The tree in it. -/
def sampleFolder (sub : Folder) : Folder := .file (bytes "f") (.dir (bytes "d") sub .empty)

/-- A tree with one file in each directory is visited well. -/
theorem visitsEachOnce_sample :
    VisitsEachOnce (sampleFileSystem [bytes "g"]) (bytes "r/")
      (sampleFolder (.file (bytes "g") .empty)) := by
  have hl : (sampleFolder (.file (bytes "g") .empty)).Stored (sampleFileSystem [bytes "g"])
      (bytes "r/") [] := by
    refine ⟨⟨_, rfl, by decide⟩, ?_, ?_, ⟨_, rfl, by decide⟩, ⟨?_, trivial⟩, trivial⟩
    all_goals decide
  have hw : (sampleFolder (.file (bytes "g") .empty)).Wf := by
    refine ⟨?_, ?_, ?_, ?_, ⟨?_, ?_, trivial⟩, trivial⟩
    all_goals decide
  exact (visitsEachOnce_iff hl hw).2 (by decide)

/-- A directory with the files `g` and `h`: the first is visited twice and the second never. -/
theorem visitsEachOnce_two_files :
    ¬ VisitsEachOnce (sampleFileSystem [bytes "g", bytes "h"]) (bytes "r/")
      (sampleFolder (.file (bytes "g") (.file (bytes "h") .empty))) := by
  rintro ⟨n, hn, hcount⟩
  have hstop : (Walk.run (sampleFileSystem [bytes "g", bytes "h"]) (bytes "r/") 8
      Walk.start).posted = [] := by decide +kernel
  have hh := hcount (bytes "d/h")
  rw [Walk.run_eq_run hn hstop] at hh
  revert hh
  decide +kernel

end Istatd
