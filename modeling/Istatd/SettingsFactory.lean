import Istatd.Lib.Run
import Istatd.SettingsFile

/-!
# The settings factory

`open` gives out a settings object for a name: the one that is cached, or a new one that is loaded
from the file of the name.  `set` changes the object it is called on, and starts a timer for a save;
`flush` and `flush_one` save cached objects and take them out of the cache, while clients may still
hold them.

* `SettingsFactory.load`, `openDomain`, `set`, `save`, `flush`, `flushOne`, `SettingsFactory.step`;
* `fileSettings`: what a file says, and `lookup_fileSettings_fileContent` for a file that was saved;
* `SettingsFactory.Inv`: what a run keeps in which every `set` goes to the cached object;
* `SettingsFactory.no_update_lost`: the files after such a run and a flush;
* `SettingsFactory.two_objects_one_file`: an update that is lost otherwise.
-/

namespace Istatd

open Lines

/-! ### What a file says -/

/-- The settings that the lines of a file give. -/
def fileSettings (content : Bytes) : List (Bytes × Bytes) :=
  (lines newline (content ++ [newline])).foldl loadLine []

/-- What a map has for a key that was set to `value`: nothing, if that is empty. -/
def stored (value : Bytes) : Option Bytes := if value = [] then none else some value

/-- A key that is accepted, and a value that is read back as it was written. -/
structure Lasting (key value : Bytes) : Prop where
  valid : isValidKey key = true
  trimmed_key : trim key = key
  trimmed_value : trim value = value
  zero : 0 ∉ value

instance (key value : Bytes) : Decidable (Lasting key value) :=
  decidable_of_iff (isValidKey key = true ∧ trim key = key ∧ trim value = value ∧ 0 ∉ value)
    ⟨fun h => ⟨h.1, h.2.1, h.2.2.1, h.2.2.2⟩,
      fun h => ⟨h.valid, h.trimmed_key, h.trimmed_value, h.zero⟩⟩

/-- What is so of every map that was loaded and set. -/
structure Tidy (settings : List (Bytes × Bytes)) : Prop where
  sorted : SortedMap.Sorted keyRank settings
  trimmed : ∀ p ∈ settings, trim p.1 = p.1
  equals : ∀ p ∈ settings, byte '=' ∉ p.1
  newline : ∀ p ∈ settings, newline ∉ p.1

theorem tidy_nil : Tidy [] := ⟨List.Pairwise.nil, by simp, by simp, by simp⟩

variable {settings : List (Bytes × Bytes)} {key value : Bytes}

theorem Tidy.insert (h : Tidy settings) (htrim : trim key = key) (heq : byte '=' ∉ key)
    (hnl : Istatd.newline ∉ key) : Tidy (SortedMap.insert keyRank key value settings) := by
  refine ⟨SortedMap.sorted_insert keyRank_injective h.sorted, ?_, ?_, ?_⟩ <;>
  · intro p hp
    rcases SortedMap.mem_of_mem_insert hp with rfl | hp
    · assumption
    · first | exact h.trimmed p hp | exact h.equals p hp | exact h.newline p hp

theorem Tidy.erase (h : Tidy settings) : Tidy (SortedMap.erase key settings) where
  sorted := SortedMap.sorted_erase h.sorted
  trimmed p hp := h.trimmed p (List.mem_filter.1 hp).1
  equals p hp := h.equals p (List.mem_filter.1 hp).1
  newline p hp := h.newline p (List.mem_filter.1 hp).1

theorem Tidy.loadLine (h : Tidy settings) {line : Bytes} (hline : Istatd.newline ∉ line) :
    Tidy (loadLine settings line) := by
  rw [Istatd.loadLine]
  split_ifs
  · split
    · next left right hsplit =>
      obtain ⟨rfl, heq⟩ := eq_append_of_split hsplit
      have hleft : Istatd.newline ∉ left := fun hmem => hline (by simp [hmem])
      exact h.insert (trim_trim left) (fun hmem => heq (mem_of_mem_trim hmem))
        fun hmem => hleft (mem_of_mem_trim hmem)
    · exact h
  · exact h

theorem Tidy.foldl_loadLine (h : Tidy settings) {ls : List Bytes}
    (hls : ∀ line ∈ ls, Istatd.newline ∉ line) : Tidy (ls.foldl Istatd.loadLine settings) := by
  induction ls generalizing settings with
  | nil => exact h
  | cons line ls ih =>
    obtain ⟨hline, hls⟩ := List.forall_mem_cons.1 hls
    exact ih (h.loadLine hline) hls

theorem RealSettings.tidy_set {rs : RealSettings} (h : Tidy rs.settings) (hkey : trim key = key) :
    Tidy (rs.set key value).settings := by
  by_cases hvalid : isValidKey key = true
  · have hins : Tidy (SortedMap.insert keyRank key value rs.settings) :=
      h.insert hkey (not_mem_of_isValidKey hvalid (by decide))
        (not_mem_of_isValidKey hvalid (by decide))
    rw [RealSettings.set, if_pos hvalid]
    simp only
    split_ifs
    · exact hins.erase
    · exact hins
  · rw [RealSettings.set, if_neg hvalid]
    exact h

theorem RealSettings.lookup_set {rs : RealSettings} (hvalid : isValidKey key = true) (q : Bytes) :
    (rs.set key value).settings.lookup q =
      if q = key then stored value else rs.settings.lookup q := by
  rw [RealSettings.set, if_pos hvalid]
  simp only [stored, List.length_eq_zero_iff]
  split_ifs with hv hq hq
  · rw [SortedMap.lookup_erase, if_pos hq]
  · rw [SortedMap.lookup_erase, if_neg hq, SortedMap.lookup_insert, if_neg hq]
  · rw [SortedMap.lookup_insert, if_pos hq]
  · rw [SortedMap.lookup_insert, if_neg hq]

/-- The lines of entries, read one after the other. -/
theorem lookup_foldl_settingLine {l m : List (Bytes × Bytes)} (h : Tidy l)
    (hkey : key.head? ≠ some (byte '#')) :
    ((l.map RealSettings.settingLine).foldl loadLine m).lookup key =
      ((l.lookup key).map fun v => trim (sqlUnquote (sqlQuote v))).or (m.lookup key) := by
  induction l generalizing m with
  | nil => rfl
  | cons p l ih =>
    have hp := List.mem_cons_self (a := p) (l := l)
    have hl : Tidy l := ⟨(List.pairwise_cons.1 h.sorted).2,
      fun q hq => h.trimmed q (List.mem_cons_of_mem p hq),
      fun q hq => h.equals q (List.mem_cons_of_mem p hq),
      fun q hq => h.newline q (List.mem_cons_of_mem p hq)⟩
    rw [List.map_cons, List.foldl_cons, ih hl, loadLine_settingLine_of_keys m (h.equals p hp),
      h.trimmed p hp, SortedMap.lookup_cons_eq]
    by_cases hk : key = p.1
    · subst hk
      rw [if_neg hkey, SortedMap.Sorted.lookup_tail h.sorted, SortedMap.lookup_insert, if_pos rfl,
        if_pos rfl]
      rfl
    · rw [if_neg hk]
      split_ifs with hhash
      · rfl
      · rw [SortedMap.lookup_insert, if_neg hk]

/-- **A saved value is read back.** -/
theorem lookup_fileSettings_fileContent {rs : RealSettings} (h : Tidy rs.settings)
    (hlast : Lasting key value) (hkey : rs.settings.lookup key = stored value) :
    (fileSettings rs.fileContent).lookup key = stored value := by
  have hhash : key.head? ≠ some (byte '#') := fun e =>
    not_mem_of_isValidKey hlast.valid (by decide) (List.mem_of_head? e)
  have hheader : ∀ m, loadLine m settingsHeader = m := fun m => by
    have hhash : settingsHeader.head? = some (byte '#') := by decide
    simp [loadLine, hhash]
  have hfilter : Tidy (rs.settings.filter (·.2.length ≠ 0)) :=
    ⟨List.Pairwise.filter _ h.sorted, fun p hp => h.trimmed p (List.mem_filter.1 hp).1,
      fun p hp => h.equals p (List.mem_filter.1 hp).1,
      fun p hp => h.newline p (List.mem_filter.1 hp).1⟩
  have hnonempty := SortedMap.Sorted.lookup_filter (q := key) h.sorted
    fun v => decide (v.length ≠ 0)
  rw [fileSettings, lines_fileContent_of_keys h.newline, List.cons_append, List.foldl_cons, hheader,
    List.foldl_append]
  have hempty : ∀ m, [[]].foldl loadLine m = m := fun m => by simp [loadLine]
  rw [hempty, lookup_foldl_settingLine hfilter hhash, hnonempty, hkey, stored]
  split_ifs with hv
  · rfl
  · simp [hv, sqlUnquote_sqlQuote hlast.zero, hlast.trimmed_value]

/-! ### The factory -/

/-- `RealSettings`, with its name and its timer.  `timers` is the number of calls of `save` that
wait for the timer, or for their turn after it was set again. -/
structure SettingsObject where
  name : Bytes
  rs : RealSettings
  saveQueued : Bool
  timers : ℕ

namespace SettingsObject

/-- `RealSettings::queueSave`. -/
def queueSave (o : SettingsObject) : SettingsObject :=
  if o.saveQueued then o else { o with saveQueued := true, timers := o.timers + 1 }

/-- `RealSettings::set`. -/
def set (o : SettingsObject) (key value : Bytes) : SettingsObject :=
  if isValidKey key then queueSave { o with rs := o.rs.set key value } else o

/-- What `RealSettings::save` leaves in the object. -/
def saved (o : SettingsObject) : SettingsObject :=
  { o with rs := o.rs.save.2, saveQueued := false }

end SettingsObject

/-- `RealSettingsFactory`, the files of its directory and the objects it made; an object is known by
its position.  `last` keeps for each name and key the value of the last call of `set`. -/
structure SettingsFactory where
  path : Bytes
  disk : Bytes → Option Bytes
  files : List (Bytes × ℕ)
  objects : List SettingsObject
  last : Bytes → Bytes → Option Bytes

namespace SettingsFactory

/-- The path of the file of a name. -/
def fullPath (f : SettingsFactory) (name : Bytes) : Bytes :=
  f.path ++ byte '/' :: name ++ bytes ".set"

/-- The object for a name, made if there is none.  The constructor leaves `dirty_` as it is in
memory. -/
def object (f : SettingsFactory) (name : Bytes) (dirty : Bool) : ℕ × SettingsFactory :=
  match f.files.lookup name with
  | some id => (id, f)
  | none =>
    (f.objects.length, { f with
      files := SortedMap.insert keyRank name f.objects.length f.files
      objects := f.objects ++ [⟨name, ⟨[], dirty⟩, false, 0⟩] })

/-- `RealSettingsFactory::loadSettingsPath`. -/
def load (f : SettingsFactory) (name : Bytes) (dirty : Bool) : Except Bytes SettingsFactory :=
  match f.disk name with
  | none => .error (bytes "settings: Could not open file: " ++ f.fullPath name)
  | some content =>
    if maxSettingsSize < content.length then
      .error (bytes "settings: file is too big: " ++ f.fullPath name)
    else
      let (id, f) := f.object name dirty
      .ok { f with
        objects := f.objects.modify id fun o => { o with
          rs := { o.rs with
            settings := (lines newline (content ++ [newline])).foldl loadLine o.rs.settings } } }

/-- The file that `open` creates. -/
def newFile : Bytes := settingsHeader ++ [newline]

/-- The first half of `open`, up to `close`: an empty file gets its header, which cannot be written
to a file that is open for reading only. -/
def initFile (f : SettingsFactory) (domain : Bytes) (allowCreate : Bool) :
    Except Bytes SettingsFactory :=
  match f.disk domain with
  | none =>
    if allowCreate then .ok { f with disk := Function.update f.disk domain (some newFile) }
    else .error (bytes "settings: cannot create file: " ++ f.fullPath domain)
  | some content =>
    if content.length ≠ 0 then .ok f
    else if allowCreate then .ok { f with disk := Function.update f.disk domain (some newFile) }
    else .error (bytes "settings: cannot initialize file: " ++ f.fullPath domain)

/-- `RealSettingsFactory::open`, with the object it gives out. -/
def openDomain (f : SettingsFactory) (domain : Bytes) (allowCreate dirty : Bool) :
    Option ℕ × SettingsFactory :=
  match f.files.lookup domain with
  | some id => (some id, f)
  | none =>
    match f.initFile domain allowCreate with
    | .error _ => (none, f)
    | .ok f =>
      match f.load domain dirty with
      | .error _ => (none, f)
      | .ok f => (f.files.lookup domain, f)

/-- `RealSettings::set` on an object. -/
def set (f : SettingsFactory) (id : ℕ) (key value : Bytes) : SettingsFactory :=
  match f.objects[id]? with
  | none => f
  | some o => { f with
      objects := f.objects.set id (o.set key value)
      last := Function.update f.last o.name (Function.update (f.last o.name) key (some value)) }

/-- `RealSettings::save` on an object. -/
def save (f : SettingsFactory) (id : ℕ) : SettingsFactory :=
  match f.objects[id]? with
  | none => f
  | some o => { f with
      disk := match o.rs.save.1 with
        | some content => Function.update f.disk o.name (some content)
        | none => f.disk
      objects := f.objects.set id o.saved }

/-- `RealSettingsFactory::flush`. -/
def flush (f : SettingsFactory) : SettingsFactory :=
  { f.files.foldl (fun f p => f.save p.2) f with files := [] }

/-- `RealSettingsFactory::flush_one`. -/
def flushOne (f : SettingsFactory) (name : Bytes) : SettingsFactory :=
  match f.files.lookup name with
  | none => f
  | some id => { f.save id with files := SortedMap.erase name f.files }

/-- A call of `save` that waited for the timer of an object. -/
def timer (f : SettingsFactory) (id : ℕ) : SettingsFactory :=
  match f.objects[id]? with
  | none => f
  | some o =>
    if o.timers = 0 then f
    else { f with objects := f.objects.set id { o with timers := o.timers - 1 } }.save id

end SettingsFactory

/-- What happens to a settings factory. -/
inductive SettingsEvent
  | openDomain (domain : Bytes) (allowCreate dirty : Bool)
  | set (id : ℕ) (key value : Bytes)
  | flush
  | flushOne (name : Bytes)
  | timer (id : ℕ)

namespace SettingsFactory

/-- One event. -/
def step (f : SettingsFactory) : SettingsEvent → SettingsFactory
  | .openDomain domain allowCreate dirty => (f.openDomain domain allowCreate dirty).2
  | .set id key value => f.set id key value
  | .flush => f.flush
  | .flushOne name => f.flushOne name
  | .timer id => f.timer id

/-- `RealSettingsFactory::RealSettingsFactory`, which loads the files of its directory one after the
other. -/
def scandir (path : Bytes) (disk : Bytes → Option Bytes) (names : List (Bytes × Bool)) :
    Except Bytes SettingsFactory :=
  names.foldlM (fun f p => f.load p.1 p.2) ⟨path, disk, [], [], fun _ _ => none⟩

/-! ### Runs in which updates go to the cached objects -/

/-- The file of a name has the value of the last call of `set` for each key. -/
def OnDisk (f : SettingsFactory) (name : Bytes) : Prop :=
  ∀ key value, f.last name key = some value →
    ∃ content, f.disk name = some content ∧ (fileSettings content).lookup key = stored value

/-- What is so of the cached object of a name. -/
structure Serves (f : SettingsFactory) (name : Bytes) (o : SettingsObject) : Prop where
  named : o.name = name
  tidy : Tidy o.rs.settings
  shows : ∀ key value, f.last name key = some value → o.rs.settings.lookup key = stored value
  clean : o.rs.dirty = false → f.OnDisk name

/-- A cached object has what was set last, and what is not cached has been saved. -/
structure Inv (f : SettingsFactory) : Prop where
  lasting : ∀ name key value, f.last name key = some value → Lasting key value
  cached : ∀ name id, f.files.lookup name = some id →
    ∃ o, f.objects[id]? = some o ∧ f.Serves name o
  uncached : ∀ name, f.files.lookup name = none → f.OnDisk name
  clean : ∀ id o, f.objects[id]? = some o → f.files.lookup o.name ≠ some id → o.rs.dirty = false

variable {f : SettingsFactory} {id : ℕ} {name : Bytes} {o : SettingsObject}

@[simp] theorem save_files : (f.save id).files = f.files := by
  rw [save]
  split <;> rfl

@[simp] theorem save_last : (f.save id).last = f.last := by
  rw [save]
  split <;> rfl

theorem save_objects (i : ℕ) : (f.save id).objects[i]? =
    if i = id then (f.objects[i]?).map SettingsObject.saved else f.objects[i]? := by
  rw [save]
  cases ho : f.objects[id]? with
  | none =>
    split_ifs with hi
    · subst hi
      simp [ho]
    · rfl
  | some o =>
    have hlt := (List.getElem?_eq_some_iff.1 ho).1
    by_cases hi : i = id
    · subst hi
      rw [if_pos rfl, ho]
      exact List.getElem?_set_self hlt
    · rw [if_neg hi]
      exact List.getElem?_set_ne (Ne.symm hi)

/-- The disk changes at the name of the object only, and only if that is dirty. -/
theorem save_disk (ho : f.objects[id]? = some o) :
    (f.save id).disk =
      if o.rs.dirty then Function.update f.disk o.name (some o.rs.fileContent) else f.disk := by
  simp only [save, ho, RealSettings.save]
  split_ifs <;> rfl

theorem OnDisk.congr {f' : SettingsFactory} (h : f.OnDisk name) (hlast : f'.last name = f.last name)
    (hdisk : f'.disk name = f.disk name) : f'.OnDisk name := by
  intro key value hkey
  rw [hlast] at hkey
  rw [hdisk]
  exact h key value hkey

/-- A save of the object of a name leaves the file as it should be. -/
theorem Inv.onDisk_save_of_serves (h : f.Inv) (ho : f.objects[id]? = some o)
    (hs : f.Serves name o) : (f.save id).OnDisk name := by
  by_cases hd : o.rs.dirty = true
  · intro key value hkey
    rw [save_last] at hkey
    refine ⟨o.rs.fileContent, ?_, ?_⟩
    · rw [save_disk ho, if_pos hd, hs.named, Function.update_self]
    · exact lookup_fileSettings_fileContent hs.tidy (h.lasting name key value hkey)
        (hs.shows key value hkey)
  · have hlast : (f.save id).last name = f.last name := by rw [save_last]
    refine (hs.clean (by simpa using hd)).congr hlast ?_
    rw [save_disk ho, if_neg hd]

theorem Inv.lookup_of_dirty (h : f.Inv) (ho : f.objects[id]? = some o) (hd : o.rs.dirty = true) :
    f.files.lookup o.name = some id ∧ f.Serves o.name o := by
  have hlookup : f.files.lookup o.name = some id := by
    by_contra hne
    rw [h.clean id o ho hne] at hd
    cases hd
  obtain ⟨o', ho', hs⟩ := h.cached _ _ hlookup
  rw [ho] at ho'
  cases ho'
  exact ⟨hlookup, hs⟩

/-- A save of any object leaves the other files as they are. -/
theorem Inv.onDisk_save (h : f.Inv) (hname : f.OnDisk name) : (f.save id).OnDisk name := by
  cases ho : f.objects[id]? with
  | none =>
    have hsave : f.save id = f := by simp [save, ho]
    rwa [hsave]
  | some o =>
    by_cases hd : o.rs.dirty = true ∧ o.name = name
    · obtain ⟨hd, rfl⟩ := hd
      exact h.onDisk_save_of_serves ho (h.lookup_of_dirty ho hd).2
    · have hlast : (f.save id).last name = f.last name := by rw [save_last]
      refine hname.congr hlast ?_
      rw [save_disk ho]
      split_ifs with hd'
      · exact Function.update_of_ne (fun e => hd ⟨hd', e.symm⟩) _ _
      · rfl

theorem Inv.save (h : f.Inv) (id : ℕ) : (f.save id).Inv where
  lasting name key value hkey := h.lasting name key value (by rwa [save_last] at hkey)
  cached name i hi := by
    rw [save_files] at hi
    obtain ⟨o, ho, hs⟩ := h.cached name i hi
    rw [save_objects]
    split_ifs with hid
    · subst hid
      refine ⟨o.saved, by rw [ho]; rfl, hs.named, hs.tidy, fun key value hkey => ?_, fun _ => ?_⟩
      · rw [save_last] at hkey
        exact hs.shows key value hkey
      · exact h.onDisk_save_of_serves ho hs
    · refine ⟨o, ho, hs.named, hs.tidy, fun key value hkey => ?_, fun hd => ?_⟩
      · rw [save_last] at hkey
        exact hs.shows key value hkey
      · exact h.onDisk_save (hs.clean hd)
  uncached name hname := h.onDisk_save (h.uncached name (by rwa [save_files] at hname))
  clean i o ho hne := by
    rw [save_objects] at ho
    rw [save_files] at hne
    split_ifs at ho with hid
    · obtain ⟨o', -, rfl⟩ := Option.map_eq_some_iff.1 ho
      rfl
    · exact h.clean i o ho hne

/-- Clean objects may be taken out of the cache. -/
theorem Inv.uncache (h : f.Inv) {files : List (Bytes × ℕ)}
    (hfiles : ∀ name, files.lookup name = f.files.lookup name ∨ files.lookup name = none ∧
      ∀ id o, f.files.lookup name = some id → f.objects[id]? = some o → o.rs.dirty = false) :
    { f with files := files }.Inv where
  lasting := h.lasting
  cached name id hid := by
    rcases hfiles name with heq | ⟨hnone, -⟩
    · obtain ⟨o, ho, hs⟩ := h.cached name id (heq ▸ hid)
      exact ⟨o, ho, hs.named, hs.tidy, hs.shows, hs.clean⟩
    · rw [hnone] at hid
      cases hid
  uncached name hname := by
    rcases hfiles name with heq | ⟨-, hclean⟩
    · exact h.uncached name (heq ▸ hname)
    · cases hid : f.files.lookup name with
      | none => exact h.uncached name hid
      | some id =>
        obtain ⟨o, ho, hs⟩ := h.cached name id hid
        exact hs.clean (hclean id o hid ho)
  clean id o ho hne := by
    by_cases hid : f.files.lookup o.name = some id
    · rcases hfiles o.name with heq | ⟨-, hclean⟩
      · exact absurd (heq.trans hid) hne
      · exact hclean id o hid ho
    · exact h.clean id o ho hid

theorem Inv.flushOne (h : f.Inv) (name : Bytes) : (f.flushOne name).Inv := by
  rw [SettingsFactory.flushOne]
  cases hid : f.files.lookup name with
  | none => exact h
  | some id =>
    refine (h.save id).uncache fun q => ?_
    rw [SortedMap.lookup_erase, save_files]
    split_ifs with hq
    · subst hq
      refine .inr ⟨rfl, fun i o hi ho => ?_⟩
      obtain rfl : id = i := Option.some.inj (hid.symm.trans hi)
      rw [save_objects, if_pos rfl] at ho
      obtain ⟨o', -, rfl⟩ := Option.map_eq_some_iff.1 ho
      rfl
    · exact .inl rfl

/-- After the loop of `flush` the objects it went through are clean. -/
theorem Inv.foldl_save (h : f.Inv) (l : List (Bytes × ℕ)) :
    (l.foldl (fun f p => f.save p.2) f).Inv ∧
    (l.foldl (fun f p => f.save p.2) f).files = f.files ∧
    ∀ i o, (l.foldl (fun f p => f.save p.2) f).objects[i]? = some o →
      (∃ p ∈ l, p.2 = i) ∨ (∀ o, f.objects[i]? = some o → o.rs.dirty = false) →
      o.rs.dirty = false := by
  induction l generalizing f with
  | nil =>
    refine ⟨h, rfl, fun i o ho hi => ?_⟩
    rcases hi with ⟨p, hp, -⟩ | hi
    · exact absurd hp List.not_mem_nil
    · exact hi o ho
  | cons p l ih =>
    obtain ⟨hinv, hfiles, hclean⟩ := ih (h.save p.2)
    rw [List.foldl_cons]
    refine ⟨hinv, hfiles.trans save_files, fun i o ho hi => ?_⟩
    refine hclean i o ho ?_
    -- what this save cleans, or leaves clean, stays so
    have hsaved : (∀ o, f.objects[i]? = some o → o.rs.dirty = false) ∨ p.2 = i →
        ∀ o, (f.save p.2).objects[i]? = some o → o.rs.dirty = false := by
      intro hi o ho
      rw [save_objects] at ho
      split_ifs at ho with hid
      · obtain ⟨o', -, rfl⟩ := Option.map_eq_some_iff.1 ho
        rfl
      · exact hi.elim (fun hi => hi o ho) fun e => absurd e.symm hid
    rcases hi with ⟨q, hq, hqi⟩ | hi
    · rcases List.mem_cons.1 hq with rfl | hq
      · exact .inr (hsaved (.inr hqi))
      · exact .inl ⟨q, hq, hqi⟩
    · exact .inr (hsaved (.inl hi))

theorem Inv.flush (h : f.Inv) : f.flush.Inv := by
  obtain ⟨hinv, hfiles, hclean⟩ := h.foldl_save f.files
  refine hinv.uncache fun name => .inr ⟨rfl, fun id o hid ho => hclean id o ho (.inl ?_)⟩
  rw [hfiles] at hid
  obtain ⟨l₁, l₂, hl, -⟩ := List.lookup_eq_some_iff.1 hid
  exact ⟨(name, id), by simp [hl], rfl⟩

theorem flush_last : f.flush.last = f.last := by
  suffices ∀ l : List (Bytes × ℕ), (l.foldl (fun f p => f.save p.2) f).last = f.last from this _
  intro l
  induction l generalizing f with
  | nil => rfl
  | cons p l ih => rw [List.foldl_cons, ih, save_last]

/-- The timers of an object are its own business. -/
theorem Inv.setTimers (h : f.Inv) (ho : f.objects[id]? = some o) (n : ℕ) :
    { f with objects := f.objects.set id { o with timers := n } }.Inv where
  lasting := h.lasting
  cached name i hi := by
    obtain ⟨o', ho', hs⟩ := h.cached name i hi
    simp only [List.getElem?_set]
    by_cases hid : id = i
    · subst hid
      cases ho.symm.trans ho'
      rw [if_pos rfl, if_pos (List.getElem?_eq_some_iff.1 ho).1]
      exact ⟨_, rfl, hs.named, hs.tidy, hs.shows, hs.clean⟩
    · rw [if_neg hid]
      exact ⟨o', ho', hs.named, hs.tidy, hs.shows, hs.clean⟩
  uncached := h.uncached
  clean i o' ho' hne := by
    simp only [List.getElem?_set] at ho'
    by_cases hid : id = i
    · subst hid
      rw [if_pos rfl, if_pos (List.getElem?_eq_some_iff.1 ho).1] at ho'
      cases ho'
      exact h.clean id o ho hne
    · rw [if_neg hid] at ho'
      exact h.clean i o' ho' hne

theorem Inv.timer (h : f.Inv) (id : ℕ) : (f.timer id).Inv := by
  rw [SettingsFactory.timer]
  cases ho : f.objects[id]? with
  | none => exact h
  | some o =>
    simp only
    split_ifs with ht
    · exact h
    · exact (h.setTimers ho _).save id

/-- The call goes to the object that is cached for its name, with a key that is accepted and a value
that is read back as it was written. -/
def UpdatesCached (f : SettingsFactory) : SettingsEvent → Prop
  | .set id key value =>
    (∃ o, f.objects[id]? = some o ∧ f.files.lookup o.name = some id) ∧ Lasting key value
  | _ => True

instance (f : SettingsFactory) (e : SettingsEvent) : Decidable (f.UpdatesCached e) :=
  match e with
  | .set id key value =>
    decidable_of_iff (((f.objects[id]?).any fun o => f.files.lookup o.name = some id) = true ∧
      Lasting key value) (by simp [UpdatesCached, Option.any_eq_true])
  | .openDomain _ _ _ => isTrue trivial
  | .flush => isTrue trivial
  | .flushOne _ => isTrue trivial
  | .timer _ => isTrue trivial

theorem SettingsObject.set_rs {key value : Bytes} (hkey : isValidKey key = true) :
    (o.set key value).name = o.name ∧ (o.set key value).rs = o.rs.set key value := by
  rw [SettingsObject.set, if_pos hkey, SettingsObject.queueSave]
  split_ifs <;> exact ⟨rfl, rfl⟩

theorem set_last (ho : f.objects[id]? = some o) (key value n k : Bytes) :
    (f.set id key value).last n k =
      if n = o.name ∧ k = key then some value else f.last n k := by
  simp only [SettingsFactory.set, ho]
  by_cases hn : n = o.name
  · subst hn
    rw [Function.update_self]
    by_cases hk : k = key
    · rw [hk, Function.update_self, if_pos ⟨rfl, rfl⟩]
    · rw [Function.update_of_ne hk, if_neg fun h => hk h.2]
  · rw [Function.update_of_ne hn, if_neg fun h => hn h.1]

theorem set_objects (ho : f.objects[id]? = some o) (key value : Bytes) (i : ℕ) :
    (f.set id key value).objects[i]? =
      if i = id then some (o.set key value) else f.objects[i]? := by
  simp only [SettingsFactory.set, ho]
  split_ifs with hi
  · rw [hi]
    exact List.getElem?_set_self (List.getElem?_eq_some_iff.1 ho).1
  · exact List.getElem?_set_ne (Ne.symm hi)

theorem set_files_disk (key value : Bytes) :
    (f.set id key value).files = f.files ∧ (f.set id key value).disk = f.disk := by
  rw [SettingsFactory.set]
  split <;> exact ⟨rfl, rfl⟩

theorem Inv.set (h : f.Inv) {key value : Bytes} (ho : f.objects[id]? = some o)
    (hid : f.files.lookup o.name = some id) (hkey : Lasting key value) :
    (f.set id key value).Inv := by
  obtain ⟨hname, hrs⟩ : (o.set key value).name = o.name ∧
      (o.set key value).rs = o.rs.set key value := SettingsObject.set_rs hkey.valid
  obtain ⟨hfiles, hdisk⟩ : (f.set id key value).files = f.files ∧
      (f.set id key value).disk = f.disk := set_files_disk key value
  have hother : ∀ n, n ≠ o.name → (f.set id key value).last n = f.last n := fun n hn => by
    funext k
    rw [set_last ho, if_neg fun hk => hn hk.1]
  refine ⟨fun n k v hv => ?_, fun n i hi => ?_, fun n hn => ?_, fun i o' ho' hne => ?_⟩
  · rw [set_last ho] at hv
    split_ifs at hv with hk
    · obtain rfl : value = v := Option.some.inj hv
      rw [hk.2]
      exact hkey
    · exact h.lasting n k v hv
  · rw [hfiles] at hi
    obtain ⟨o', ho', hs⟩ := h.cached n i hi
    rw [set_objects ho]
    by_cases hii : i = id
    · subst hii
      cases ho.symm.trans ho'
      obtain rfl : o.name = n := hs.named
      refine ⟨_, if_pos rfl, hname, ?_, fun k v hv => ?_, fun hd => ?_⟩
      · rw [hrs]
        exact RealSettings.tidy_set hs.tidy hkey.trimmed_key
      · rw [hrs, RealSettings.lookup_set hkey.valid]
        rw [set_last ho] at hv
        by_cases hk : k = key
        · rw [if_pos ⟨rfl, hk⟩] at hv
          rw [if_pos hk, Option.some.inj hv]
        · rw [if_neg fun h => hk h.2] at hv
          rw [if_neg hk]
          exact hs.shows k v hv
      · rw [hrs, RealSettings.set, if_pos hkey.valid] at hd
        cases hd
    · rw [if_neg hii]
      have hn : n ≠ o.name := fun e => hii (Option.some.inj (hi.symm.trans (e ▸ hid)))
      refine ⟨o', ho', hs.named, hs.tidy, fun k v hv => ?_, fun hd => ?_⟩
      · rw [hother n hn] at hv
        exact hs.shows k v hv
      · exact (hs.clean hd).congr (hother n hn) (by rw [hdisk])
  · rw [hfiles] at hn
    have hne : n ≠ o.name := fun e => by
      rw [e, hid] at hn
      cases hn
    exact (h.uncached n hn).congr (hother n hne) (by rw [hdisk])
  · rw [hfiles] at hne
    rw [set_objects ho] at ho'
    split_ifs at ho' with hii
    · cases ho'
      rw [hname, hii] at hne
      exact absurd hid hne
    · exact h.clean i o' ho' hne

/-! ### Loading -/

theorem load_last {f' : SettingsFactory} {dirty : Bool} (hl : f.load name dirty = .ok f') :
    f'.last = f.last := by
  simp only [load, object] at hl
  split at hl
  · cases hl
  · split_ifs at hl
    cases hl
    split <;> rfl

/-- A new object, with what the file says. -/
theorem load_of_lookup_eq_none {f' : SettingsFactory} {dirty : Bool}
    (hnone : f.files.lookup name = none) (hl : f.load name dirty = .ok f') :
    ∃ content, f.disk name = some content ∧ f' = { f with
      files := SortedMap.insert keyRank name f.objects.length f.files
      objects := f.objects ++ [⟨name, ⟨fileSettings content, dirty⟩, false, 0⟩] } := by
  simp only [load, object, hnone] at hl
  split at hl
  · cases hl
  · next content hdisk =>
    split_ifs at hl
    cases hl
    refine ⟨content, hdisk, ?_⟩
    congr 1
    rw [List.modify_eq_set_getElem?]
    simp [fileSettings]

theorem tidy_fileSettings (content : Bytes) : Tidy (fileSettings content) :=
  tidy_nil.foldl_loadLine fun _ hline => not_mem_of_mem_lines hline

/-- A file is loaded for a name that is not cached. -/
theorem Inv.load_new (h : f.Inv) {f' : SettingsFactory} {dirty : Bool}
    (hnone : f.files.lookup name = none) (hl : f.load name dirty = .ok f') : f'.Inv := by
  obtain ⟨content, hdisk, rfl⟩ := load_of_lookup_eq_none hnone hl
  refine ⟨h.lasting, fun n i hi => ?_, fun n hn => ?_, fun i o ho hne => ?_⟩
  · rw [SortedMap.lookup_insert] at hi
    split_ifs at hi with hn
    · obtain rfl : f.objects.length = i := Option.some.inj hi
      subst hn
      refine ⟨_, List.getElem?_concat_length, rfl, tidy_fileSettings content, fun k v hv => ?_,
        fun _ => h.uncached n hnone⟩
      obtain ⟨content', hdisk', hv'⟩ := h.uncached n hnone k v hv
      cases hdisk.symm.trans hdisk'
      exact hv'
    · obtain ⟨o, ho, hs⟩ := h.cached n i hi
      have hlt := (List.getElem?_eq_some_iff.1 ho).1
      exact ⟨o, (List.getElem?_append_left hlt).trans ho, hs.named, hs.tidy, hs.shows, hs.clean⟩
  · rw [SortedMap.lookup_insert] at hn
    split_ifs at hn with hn'
    exact h.uncached n hn
  · rw [SortedMap.lookup_insert] at hne
    by_cases hi : i < f.objects.length
    · rw [List.getElem?_append_left hi] at ho
      refine h.clean i o ho fun hold => ?_
      have hn : o.name ≠ name := fun e => by
        rw [e, hnone] at hold
        cases hold
      rw [if_neg hn] at hne
      exact hne hold
    · have hlen := (List.getElem?_eq_some_iff.1 ho).1
      rw [List.length_append, List.length_singleton] at hlen
      obtain rfl : i = f.objects.length := by omega
      rw [List.getElem?_concat_length] at ho
      cases ho
      exact absurd (if_pos rfl) hne

/-- A file is loaded before anything was set. -/
theorem Inv.load_unset (h : f.Inv) {f' : SettingsFactory} {dirty : Bool}
    (hlast : ∀ n k, f.last n k = none) (hl : f.load name dirty = .ok f') : f'.Inv := by
  cases hid : f.files.lookup name with
  | none => exact h.load_new hid hl
  | some id =>
    simp only [load, object, hid] at hl
    split at hl
    · cases hl
    · next content _ =>
      split_ifs at hl
      cases hl
      have hvoid : ∀ {P : Prop} {n k v}, f.last n k = some v → P := fun hv => by
        rw [hlast] at hv
        cases hv
      refine ⟨fun n k v hv => hvoid hv, fun n i hi => ?_, fun n hn k v hv => hvoid hv, ?_⟩
      · obtain ⟨o, ho, hs⟩ := h.cached n i hi
        simp only [List.getElem?_modify, ho]
        refine ⟨_, rfl, ?_, ?_, fun k v hv => hvoid hv, fun _ k v hv => hvoid hv⟩
        · split_ifs
          · exact hs.named
          · exact hs.named
        · split_ifs
          · exact hs.tidy.foldl_loadLine fun _ hline => not_mem_of_mem_lines hline
          · exact hs.tidy
      · intro i o ho hne
        simp only [List.getElem?_modify] at ho
        obtain ⟨o', ho', rfl⟩ := Option.map_eq_some_iff.1 ho
        split_ifs at hne ⊢
        · exact h.clean i o' ho' hne
        · exact h.clean i o' ho' hne

theorem inv_scandir {path : Bytes} {disk : Bytes → Option Bytes} {names : List (Bytes × Bool)}
    (hf : scandir path disk names = .ok f) : f.Inv := by
  have hstart : ∀ n k, (⟨path, disk, [], [], fun _ _ => none⟩ : SettingsFactory).last n k = none :=
    fun _ _ => rfl
  have hinv : (⟨path, disk, [], [], fun _ _ => none⟩ : SettingsFactory).Inv := by
    refine ⟨fun _ _ _ hv => ?_, fun _ _ hi => ?_, fun _ _ _ _ hv => ?_, fun _ _ ho => ?_⟩
    · cases hv
    · cases hi
    · cases hv
    · cases ho
  refine (Run.exec_invariant (I := fun f => f.Inv ∧ ∀ n k, f.last n k = none) ?_
    ⟨hinv, hstart⟩ hf).1
  rintro f p f' ⟨hinv, hlast⟩ hload
  refine ⟨hinv.load_unset hlast hload, ?_⟩
  rw [load_last hload]
  exact hlast

theorem Inv.initFile (h : f.Inv) {f' : SettingsFactory} {allowCreate : Bool}
    (hnone : f.files.lookup name = none) (hi : f.initFile name allowCreate = .ok f') :
    f'.Inv ∧ f'.files = f.files := by
  have hnew : (f.disk name = none ∨ f.disk name = some []) →
      { f with disk := Function.update f.disk name (some newFile) }.Inv := by
    intro hempty
    have hdisk : ∀ n, f.OnDisk n →
        { f with disk := Function.update f.disk name (some newFile) }.OnDisk n := by
      intro n hn k v hv
      obtain ⟨content, hcontent, hstored⟩ := hn k v hv
      by_cases hname : n = name
      · subst hname
        rcases hempty with he | he
        · rw [he] at hcontent
          cases hcontent
        · rw [he] at hcontent
          cases hcontent
          exact ⟨newFile, Function.update_self .., hstored⟩
      · exact ⟨content, (Function.update_of_ne hname ..).trans hcontent, hstored⟩
    refine ⟨h.lasting, fun n i hi => ?_, fun n hn => hdisk n (h.uncached n hn), h.clean⟩
    obtain ⟨o, ho, hs⟩ := h.cached n i hi
    exact ⟨o, ho, hs.named, hs.tidy, hs.shows, fun hd => hdisk n (hs.clean hd)⟩
  rw [SettingsFactory.initFile] at hi
  cases hd : f.disk name with
  | none =>
    simp only [hd] at hi
    split_ifs at hi
    cases hi
    exact ⟨hnew (.inl hd), rfl⟩
  | some content =>
    simp only [hd] at hi
    split_ifs at hi with hlen
    · cases hi
      exact ⟨h, rfl⟩
    · cases hi
      obtain rfl : content = [] := by simpa using hlen
      exact ⟨hnew (.inr hd), rfl⟩

theorem Inv.openDomain (h : f.Inv) (domain : Bytes) (allowCreate dirty : Bool) :
    (f.openDomain domain allowCreate dirty).2.Inv := by
  rw [SettingsFactory.openDomain]
  cases hid : f.files.lookup domain with
  | some id => exact h
  | none =>
    simp only
    cases hi : f.initFile domain allowCreate with
    | error e => exact h
    | ok f₁ =>
      obtain ⟨hinv, hfiles⟩ := h.initFile hid hi
      simp only
      cases hl : f₁.load domain dirty with
      | error e => exact hinv
      | ok f₂ => exact hinv.load_new (hfiles ▸ hid) hl

theorem Inv.step (h : f.Inv) {e : SettingsEvent} (he : f.UpdatesCached e) : (f.step e).Inv := by
  cases e with
  | openDomain domain allowCreate dirty => exact h.openDomain domain allowCreate dirty
  | set id key value =>
    obtain ⟨⟨o, ho, hid⟩, hlast⟩ := he
    exact h.set ho hid hlast
  | flush => exact h.flush
  | flushOne name => exact h.flushOne name
  | timer id => exact h.timer id

/-- **No update is lost** in a run in which every update goes to the object that is cached for its
name: after a flush the file of each name has the value of the last update of each key. -/
theorem no_update_lost (path : Bytes) (disk : Bytes → Option Bytes) (names : List (Bytes × Bool))
    (start : SettingsFactory) (hstart : scandir path disk names = .ok start)
    (events : List SettingsEvent) (hrun : Run.Along step UpdatesCached start events) :
    ∀ name key value, (events.foldl step start).last name key = some value →
      ∃ content, (events.foldl step start).flush.disk name = some content ∧
        (fileSettings content).lookup key = stored value := by
  have hinv : (events.foldl step start).Inv :=
    hrun.always (fun f e hf he => hf.step he) (inv_scandir hstart) events (List.prefix_refl _)
  intro name key value hlast
  refine hinv.flush.uncached name rfl key value ?_
  rw [flush_last]
  exact hlast

/-- An empty directory. -/
def emptyFactory : SettingsFactory :=
  ⟨bytes "/var/settings", fun _ => none, [], [], fun _ _ => none⟩

/-- A request that opens settings, sets a key twice, and another request after a flush. -/
def cachedUpdates : List SettingsEvent :=
  [.openDomain (bytes "site") true false, .set 0 (bytes "color") (bytes "red"), .timer 0,
    .set 0 (bytes "color") (bytes "blue"), .flushOne (bytes "site"),
    .openDomain (bytes "site") true true, .set 1 (bytes "size") (bytes "12")]

/-- The key that was set before the flush is in the file. -/
theorem no_update_lost_sample :
    ∃ content, (cachedUpdates.foldl step emptyFactory).flush.disk (bytes "site") = some content ∧
      (fileSettings content).lookup (bytes "color") = stored (bytes "blue") :=
  no_update_lost (bytes "/var/settings") (fun _ => none) [] emptyFactory rfl cachedUpdates
    (by decide +kernel) (bytes "site") (bytes "color") (bytes "blue") (by decide +kernel)

/-- Two requests for one name with a flush between: each has an object of its own. -/
def twoObjects : List SettingsEvent :=
  [.openDomain (bytes "site") true false, .flush, .openDomain (bytes "site") true false,
    .set 0 (bytes "color") (bytes "red"), .set 1 (bytes "size") (bytes "12"), .timer 0, .timer 1]

/-- **Two objects, one file.**  Both are saved, the second one over the first one, and the value
that was set in the first one is in no file. -/
theorem two_objects_one_file :
    scandir (bytes "/var/settings") (fun _ => none) [] = .ok emptyFactory ∧
    Lasting (bytes "color") (bytes "red") ∧
    (twoObjects.foldl step emptyFactory).last (bytes "site") (bytes "color") =
      some (bytes "red") ∧
    ((twoObjects.foldl step emptyFactory).objects.map (·.timers)) = [0, 0] ∧
    ¬∃ content, (twoObjects.foldl step emptyFactory).flush.disk (bytes "site") = some content ∧
      (fileSettings content).lookup (bytes "color") = stored (bytes "red") := by
  refine ⟨rfl, by decide, by decide +kernel, by decide +kernel, ?_⟩
  rintro ⟨content, hdisk, hlookup⟩
  have hfile : ((twoObjects.foldl step emptyFactory).flush.disk (bytes "site")).map
      (fun content => (fileSettings content).lookup (bytes "color")) = some none := by
    decide +kernel
  rw [hdisk] at hfile
  have hnone : (fileSettings content).lookup (bytes "color") = none := Option.some.inj hfile
  rw [hlookup] at hnone
  revert hnone
  decide

end SettingsFactory

end Istatd
