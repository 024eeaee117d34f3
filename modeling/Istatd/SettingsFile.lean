import Istatd.Lib.Lines
import Istatd.Lib.SortedMap
import Istatd.Framing

/-!
# The file of a settings map

`save` writes a line `key=value` for each entry of a settings map, with the value quoted, and
`loadSettingsPath` reads such a file line by line: it takes a line apart at the first `=`, removes
the quotes, and trims both sides.

* `RealSettings.set`, `RealSettings.save`, `loadSettingsPath`;
* `RealSettings.Wf`: what every map built by `set` satisfies;
* `loadSettingsPath_saved`: each entry comes back trimmed;
* `settings_survive_iff`: when the map comes back as it was.
-/

namespace Istatd

open Lines

/-- The characters that `is_valid_key` refuses. -/
def invalidKeyChars : Bytes := bytes " /:;*?%()[]~$^#=+-" ++ [13, 10, 9, 8, 92, 34, 39, 123, 125]

/-- `is_valid_key`. -/
def isValidKey (key : Bytes) : Bool := !key.any (· ∈ invalidKeyChars)

/-- `RealSettings`.  The constructor leaves `dirty_` as it is in memory. -/
structure RealSettings where
  settings : List (Bytes × Bytes)
  dirty : Bool

/-- The first line of a settings file. -/
def settingsHeader : Bytes := bytes "# istatd settings 1"

namespace RealSettings

/-- `RealSettings::set`. -/
def set (rs : RealSettings) (key value : Bytes) : RealSettings :=
  if isValidKey key then
    let settings := SortedMap.insert keyRank key value rs.settings
    ⟨if value.length = 0 then SortedMap.erase key settings else settings, true⟩
  else rs

/-- A map built by calls of `set`, with what was in `dirty_` at first. -/
def build (dirty : Bool) (calls : List (Bytes × Bytes)) : RealSettings :=
  calls.foldl (fun rs c => rs.set c.1 c.2) ⟨[], dirty⟩

/-- The line of an entry. -/
def settingLine (p : Bytes × Bytes) : Bytes := p.1 ++ byte '=' :: sqlQuote p.2

/-- What `save` writes into the file. -/
def fileContent (rs : RealSettings) : Bytes :=
  settingsHeader ++ newline :: (rs.settings.filter (·.2.length ≠ 0)).flatMap
    fun p => settingLine p ++ [newline]

/-- `RealSettings::save`: the file is written only if something was set. -/
def save (rs : RealSettings) : Option Bytes × RealSettings :=
  (if rs.dirty then some rs.fileContent else none, { rs with dirty := false })

end RealSettings

/-- The limit of the loader. -/
def maxSettingsSize : ℕ := 1024 * 1024

/-- What the loader does with a line. -/
def loadLine (settings : List (Bytes × Bytes)) (line : Bytes) : List (Bytes × Bytes) :=
  if line.head? ≠ some (byte '#') ∧ line ≠ [] then
    match split line (byte '=') with
    | (2, left, right) =>
      SortedMap.insert keyRank (trim left) (trim (sqlUnquote right)) settings
    | _ => settings
  else settings

/-- `loadSettingsPath` into a new `RealSettings`.  A newline is put behind the last byte. -/
def loadSettingsPath (path content : Bytes) : Except Bytes (List (Bytes × Bytes)) :=
  if maxSettingsSize < content.length then .error (bytes "settings: file is too big: " ++ path)
  else .ok ((lines newline (content ++ [newline])).foldl loadLine [])

/-! ### Maps built by `set` -/

variable {rs : RealSettings}

/-- The entries are sorted, the keys valid, and the values have some characters but no 0. -/
structure RealSettings.Wf (rs : RealSettings) : Prop where
  sorted : SortedMap.Sorted keyRank rs.settings
  key : ∀ p ∈ rs.settings, isValidKey p.1 = true
  value : ∀ p ∈ rs.settings, p.2 ≠ [] ∧ 0 ∉ p.2

theorem RealSettings.wf_set (h : rs.Wf) {key value : Bytes} (hvalue : 0 ∉ value) :
    (rs.set key value).Wf := by
  unfold set
  split_ifs with hkey hlen
  · refine ⟨SortedMap.sorted_erase (SortedMap.sorted_insert keyRank_injective h.sorted), ?_, ?_⟩
    all_goals
      intro p hp
      obtain ⟨hp, hne⟩ : p ∈ SortedMap.insert keyRank key value rs.settings ∧ p.1 ≠ key := by
        simpa [SortedMap.erase] using hp
      rcases SortedMap.mem_of_mem_insert hp with rfl | hp
      · exact absurd rfl hne
    · exact h.key p hp
    · exact h.value p hp
  · refine ⟨SortedMap.sorted_insert keyRank_injective h.sorted, fun p hp => ?_, fun p hp => ?_⟩
    · rcases SortedMap.mem_of_mem_insert hp with rfl | hp
      · exact hkey
      · exact h.key p hp
    · rcases SortedMap.mem_of_mem_insert hp with rfl | hp
      · exact ⟨fun e => hlen (List.length_eq_zero_iff.2 e), hvalue⟩
      · exact h.value p hp
  · exact h

theorem RealSettings.wf_build (dirty : Bool) {calls : List (Bytes × Bytes)}
    (h : ∀ c ∈ calls, 0 ∉ c.2) : (build dirty calls).Wf := by
  have hnew : RealSettings.Wf ⟨[], dirty⟩ :=
    ⟨List.Pairwise.nil, by simp, by simp⟩
  unfold build
  generalize (⟨[], dirty⟩ : RealSettings) = rs at hnew ⊢
  induction calls generalizing rs with
  | nil => exact hnew
  | cons c calls ih =>
    obtain ⟨hc, hcalls⟩ := List.forall_mem_cons.1 h
    exact ih hcalls _ (wf_set hnew hc)

/-! ### Reading what was written -/

theorem not_mem_of_isValidKey {key : Bytes} {ch : UInt8} (h : isValidKey key = true)
    (hch : ch ∈ invalidKeyChars) : ch ∉ key := by
  intro hmem
  simp only [isValidKey, Bool.not_eq_true', List.any_eq_false, decide_eq_true_eq] at h
  exact h ch hmem hch

theorem newline_not_mem_settingLine {p : Bytes × Bytes} (h : newline ∉ p.1) :
    newline ∉ RealSettings.settingLine p := by
  have heq : newline ≠ byte '=' := by decide
  have hquote : newline ∉ sqlQuote p.2 := not_mem_sqlQuote (Or.inl rfl) p.2
  simp [RealSettings.settingLine, h, heq, hquote]

/-- A line that was written for an entry is taken apart where it was put together, unless it looks
like a comment. -/
theorem loadLine_settingLine_of_keys (settings : List (Bytes × Bytes)) {p : Bytes × Bytes}
    (heq : byte '=' ∉ p.1) :
    loadLine settings (RealSettings.settingLine p) =
      if p.1.head? = some (byte '#') then settings
      else SortedMap.insert keyRank (trim p.1) (trim (sqlUnquote (sqlQuote p.2))) settings := by
  have hhead : (RealSettings.settingLine p).head? = some (byte '#') ↔
      p.1.head? = some (byte '#') := by
    unfold RealSettings.settingLine
    cases p.1 with
    | nil =>
      have hne : byte '=' ≠ byte '#' := by decide
      simp [hne]
    | cons ch key => simp
  have hnil : RealSettings.settingLine p ≠ [] := by simp [RealSettings.settingLine]
  rw [loadLine]
  by_cases hhash : p.1.head? = some (byte '#')
  · rw [if_neg fun h => h.1 (hhead.2 hhash), if_pos hhash]
  · rw [if_pos ⟨fun h => hhash (hhead.1 h), hnil⟩, if_neg hhash, RealSettings.settingLine,
      split_append heq]
    rfl

theorem loadLine_settingLine (settings : List (Bytes × Bytes)) {p : Bytes × Bytes}
    (hkey : isValidKey p.1 = true) (hvalue : 0 ∉ p.2) :
    loadLine settings (RealSettings.settingLine p) =
      SortedMap.insert keyRank (trim p.1) (trim p.2) settings := by
  have hhash : p.1.head? ≠ some (byte '#') := fun h =>
    not_mem_of_isValidKey hkey (by decide) (List.mem_of_head? h)
  rw [loadLine_settingLine_of_keys settings (not_mem_of_isValidKey hkey (by decide)), if_neg hhash,
    sqlUnquote_sqlQuote hvalue]

/-- The lines of the file, with the newline that the loader adds. -/
theorem lines_fileContent_of_keys (hkey : ∀ p ∈ rs.settings, newline ∉ p.1) :
    lines newline (rs.fileContent ++ [newline]) =
      settingsHeader :: (rs.settings.filter (·.2.length ≠ 0)).map RealSettings.settingLine ++
        [[]] := by
  have hheader : newline ∉ settingsHeader := by decide
  rw [RealSettings.fileContent, List.append_assoc, List.cons_append, lines_line_append hheader,
    List.cons_append]
  congr 1
  replace hkey : ∀ p ∈ rs.settings.filter (·.2.length ≠ 0), newline ∉ p.1 := fun p hp =>
    hkey p (List.mem_filter.1 hp).1
  generalize rs.settings.filter (·.2.length ≠ 0) = l at hkey ⊢
  induction l with
  | nil =>
    have hnil : newline ∉ ([] : Bytes) := List.not_mem_nil
    exact (lines_line_append hnil []).trans (by rw [lines_of_not_mem hnil]; rfl)
  | cons p l ih =>
    obtain ⟨hp, hl⟩ := List.forall_mem_cons.1 hkey
    rw [List.flatMap_cons, List.append_assoc, List.append_assoc, List.singleton_append,
      lines_line_append (newline_not_mem_settingLine hp), ih hl]
    rfl

theorem lines_fileContent (h : rs.Wf) :
    lines newline (rs.fileContent ++ [newline]) =
      settingsHeader :: rs.settings.map RealSettings.settingLine ++ [[]] := by
  have hfilter : rs.settings.filter (·.2.length ≠ 0) = rs.settings := by
    rw [List.filter_eq_self]
    intro p hp
    simpa using (h.value p hp).1
  rw [lines_fileContent_of_keys fun p hp => not_mem_of_isValidKey (h.key p hp) (by decide), hfilter]

/-- What is loaded: the entries that were saved, trimmed. -/
theorem loadSettingsPath_saved (h : rs.Wf) (path : Bytes)
    (hsize : rs.fileContent.length ≤ maxSettingsSize) :
    loadSettingsPath path rs.fileContent =
      .ok ((rs.settings.map fun p => (trim p.1, trim p.2)).foldl
        (fun m p => SortedMap.insert keyRank p.1 p.2 m) []) := by
  have hheader : ∀ m, loadLine m settingsHeader = m := fun m => by
    have hhash : settingsHeader.head? = some (byte '#') := by decide
    simp [loadLine, hhash]
  rw [loadSettingsPath, if_neg (not_lt.2 hsize), lines_fileContent h, List.cons_append,
    List.foldl_cons, hheader, List.foldl_append, List.foldl_map, List.foldl_map]
  congr 1
  have hempty : ∀ m, [[]].foldl loadLine m = m := fun m => by simp [loadLine]
  rw [hempty]
  refine List.foldl_ext _ _ _ fun m p hp => ?_
  exact loadLine_settingLine m (h.key p hp) (h.value p hp).2

/-- **When settings survive a save and load.**  For every map built by calls of `set` with values
without the character 0, and every file that `save` writes for it and that is not too large for the
loader: the loader gives back the same map just when no key and no value of the map begins or ends
with a space character. -/
theorem settings_survive_iff (dirty : Bool) (calls : List (Bytes × Bytes))
    (hcalls : ∀ c ∈ calls, 0 ∉ c.2) (path content : Bytes)
    (hsave : (RealSettings.build dirty calls).save.1 = some content)
    (hsize : content.length ≤ maxSettingsSize) :
    loadSettingsPath path content = .ok (RealSettings.build dirty calls).settings ↔
      ∀ p ∈ (RealSettings.build dirty calls).settings, trim p.1 = p.1 ∧ trim p.2 = p.2 := by
  have hwf := RealSettings.wf_build dirty hcalls
  generalize RealSettings.build dirty calls = rs at hwf hsave ⊢
  obtain rfl : rs.fileContent = content := by
    unfold RealSettings.save at hsave
    split_ifs at hsave
    exact Option.some.inj hsave
  rw [loadSettingsPath_saved hwf path hsize, Except.ok.injEq]
  constructor
  · intro h
    have hkeys : ∀ p ∈ rs.settings, trim p.1 = p.1 := fun p hp => by
      rw [← h] at hp
      rcases SortedMap.mem_of_mem_foldl_insert hp with hp | hp
      · exact absurd hp List.not_mem_nil
      · obtain ⟨q, -, rfl⟩ := List.mem_map.1 hp
        exact trim_trim q.1
    -- the keys are as they were, so the trimmed entries are in order
    have hmap : rs.settings.map (fun p => (trim p.1, trim p.2)) =
        rs.settings.map fun p => (p.1, trim p.2) :=
      List.map_congr_left fun p hp => by rw [hkeys p hp]
    have hsorted : SortedMap.Sorted keyRank (rs.settings.map fun p => (p.1, trim p.2)) := by
      rw [SortedMap.Sorted, List.pairwise_map]
      exact hwf.sorted
    rw [hmap, SortedMap.foldl_insert hsorted] at h
    intro p hp
    refine ⟨hkeys p hp, ?_⟩
    have hself : (p.1, trim p.2) = id p :=
      List.map_inj_left.1 (h.trans (List.map_id rs.settings).symm) p hp
    exact congrArg Prod.snd hself
  · intro h
    have hmap : rs.settings.map (fun p => (trim p.1, trim p.2)) = rs.settings := by
      refine (List.map_congr_left fun p hp => ?_).trans (List.map_id rs.settings)
      rw [(h p hp).1, (h p hp).2]
      rfl
    rw [hmap, SortedMap.foldl_insert hwf.sorted]

/-- One call that sets the key `k` to a value that begins with a blank. -/
def blankValueCalls : List (Bytes × Bytes) := [(bytes "k", bytes " x")]

/-- The file that is written then. -/
def blankValueFile : Bytes := settingsHeader ++ newline :: (bytes "k= x" ++ [newline])

/-- The value comes back without the blank. -/
theorem blankValue_lost :
    (∀ c ∈ blankValueCalls, isValidKey c.1 = true ∧ c.2 ≠ [] ∧ 0 ∉ c.2) ∧
      (RealSettings.build false blankValueCalls).save.1 = some blankValueFile ∧
      blankValueFile.length ≤ maxSettingsSize ∧
      (loadSettingsPath [] blankValueFile).toOption = some [(bytes "k", bytes "x")] ∧
      loadSettingsPath [] blankValueFile ≠
        .ok (RealSettings.build false blankValueCalls).settings := by
  have hload : (loadSettingsPath [] blankValueFile).toOption = some [(bytes "k", bytes "x")] := by
    decide +kernel
  refine ⟨by decide +kernel, by decide +kernel, by decide +kernel, hload, fun h => ?_⟩
  rw [h] at hload
  revert hload
  decide +kernel

/-- A value with quotes, an equals sign and a newline. -/
theorem settings_survive_sample :
    ∃ content, (RealSettings.build false [(bytes "k", [34, 61, 10, 39])]).save.1 = some content ∧
      loadSettingsPath [] content =
        .ok (RealSettings.build false [(bytes "k", [34, 61, 10, 39])]).settings := by
  refine ⟨_, rfl, ?_⟩
  refine (settings_survive_iff false [(bytes "k", [34, 61, 10, 39])] ?_ [] _ rfl ?_).2 ?_
  · decide
  · decide +kernel
  · decide +kernel

end Istatd
