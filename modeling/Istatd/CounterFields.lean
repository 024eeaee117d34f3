import Istatd.ExtractCtrs
import Istatd.PromExporter

/-!
# What a counter command records (`StatServer::handle_counter_cmd`)

The fields of a command are what stands between its white space, without what follows the seventh.
The conversions stand in the loop over the names, before the first of them is recorded, and depend
on no name; so either all names are recorded, with the same values, or none.

* `counterFields_eq`: the fields;
* `handleCounterCmd_of_parsed`, `handleCounterCmd_of_not_parsed`: the calls, if the names end;
* `handleCounterCmd_records`: both for all commands.
-/

namespace Istatd

/-! ### The fields -/

/-- The maximal runs of characters that are not white space. -/
def words (str : Bytes) : List Bytes := (str.splitOnP isSpace).filter (· ≠ [])

/-- A run that is empty is none. -/
def wordOf (w : Bytes) : List Bytes := if w = [] then [] else [w]

theorem words_of_free {w : Bytes} (hw : ∀ c ∈ w, isSpace c = false) : words w = wordOf w := by
  rw [words, wordOf, List.splitOnP_eq_singleton hw]
  by_cases hnil : w = [] <;> simp [hnil]

theorem words_append_space {w : Bytes} (hw : ∀ c ∈ w, isSpace c = false) {ch : UInt8}
    (hch : isSpace ch = true) (rest : Bytes) : words (w ++ ch :: rest) = wordOf w ++ words rest := by
  rw [words, List.splitOnP_append_cons w rest hch, List.filter_append]
  exact congrArg (· ++ words rest) (words_of_free hw)

/-- The fields behind the loop. -/
def FieldScan.fields (cmd : Bytes) (s : FieldScan) : List Bytes :=
  if s.start < s.pos then
    if maxFields ≤ s.parts.length then s.parts else s.parts ++ [s.part cmd]
  else s.parts

theorem counterFields_eq_fields (cmd : Bytes) :
    counterFields cmd = (FieldScan.scan cmd cmd ⟨0, 0, []⟩).fields cmd := rfl

section Scan

variable {cmd : Bytes} (pre w rest : Bytes) (parts : List Bytes)

/-- The state of the loop: `pre` is behind it, with `w` as the part that is not yet ended. -/
def scanAt : FieldScan := ⟨pre.length, (pre ++ w).length, parts⟩

@[simp] theorem scanAt_parts : (scanAt pre w parts).parts = parts := rfl

theorem scanAt_pos_iff : (scanAt pre w parts).pos = (scanAt pre w parts).start ↔ w = [] := by
  simp [scanAt]

theorem part_scanAt : (scanAt pre w parts).part (pre ++ w ++ rest) = w := by
  unfold FieldScan.part scanAt
  rw [List.append_assoc, List.drop_left, List.length_append, Nat.add_sub_cancel_left,
    List.take_left]

/-- What the fields are, if the loop ends here. -/
theorem fields_scanAt (hparts : parts.length ≤ maxFields) :
    (scanAt pre w parts).fields (pre ++ w ++ rest) = (parts ++ wordOf w).take maxFields := by
  have hle : (scanAt pre w parts).start ≤ (scanAt pre w parts).pos := by simp [scanAt]
  unfold FieldScan.fields wordOf
  rw [part_scanAt, scanAt_parts]
  by_cases hnil : w = []
  · have hpos := (scanAt_pos_iff pre w parts).2 hnil
    rw [if_neg (by omega), if_pos hnil, List.append_nil, List.take_of_length_le hparts]
  · have hpos := mt (scanAt_pos_iff pre w parts).1 hnil
    rw [if_pos (by omega), if_neg hnil]
    by_cases hfull : maxFields ≤ parts.length
    · rw [if_pos hfull, List.take_append_of_le_length hfull, List.take_of_length_le hparts]
    · rw [if_neg hfull, List.take_of_length_le (by simp; omega)]

variable {ch : UInt8}

/-- A character of a field. -/
theorem scan_char (hch : isSpace ch = false) :
    FieldScan.scan cmd (ch :: rest) (scanAt pre w parts) =
      FieldScan.scan cmd rest (scanAt pre (w ++ [ch]) parts) := by
  rw [FieldScan.scan, if_neg (by simp [hch])]
  simp [scanAt, Nat.add_assoc]

/-- White space in front of a field. -/
theorem scan_gap (hch : isSpace ch = true) :
    FieldScan.scan cmd (ch :: rest) (scanAt pre [] parts) =
      FieldScan.scan cmd rest (scanAt (pre ++ [ch]) [] parts) := by
  rw [FieldScan.scan, if_pos hch, if_pos ((scanAt_pos_iff pre [] parts).2 rfl)]
  simp [scanAt]

/-- White space behind a field. -/
theorem scan_field (hch : isSpace ch = true) (hw : w ≠ []) (hcmd : cmd = pre ++ w ++ ch :: rest) :
    FieldScan.scan cmd (ch :: rest) (scanAt pre w parts) =
      if maxFields ≤ parts.length then scanAt pre w parts
      else FieldScan.scan cmd rest (scanAt (pre ++ w ++ [ch]) [] (parts ++ [w])) := by
  rw [FieldScan.scan, if_pos hch, if_neg (mt (scanAt_pos_iff pre w parts).1 hw), scanAt_parts,
    hcmd, part_scanAt]
  simp [scanAt, Nat.add_assoc]

/-- The loop: the parts so far, the one that is not yet ended, and the words of what is left. -/
theorem fields_scan (hcmd : cmd = pre ++ w ++ rest) (hw : ∀ c ∈ w, isSpace c = false)
    (hparts : parts.length ≤ maxFields) :
    (FieldScan.scan cmd rest (scanAt pre w parts)).fields cmd =
      (parts ++ words (w ++ rest)).take maxFields := by
  induction rest generalizing pre w parts with
  | nil =>
    subst hcmd
    rw [FieldScan.scan, fields_scanAt _ _ _ _ hparts, List.append_nil, words_of_free hw]
  | cons ch rest ih =>
    cases hch : isSpace ch with
    | false =>
      have hw' : ∀ c ∈ w ++ [ch], isSpace c = false := by
        intro c hc
        rcases List.mem_append.1 hc with hc | hc
        · exact hw c hc
        · rw [List.mem_singleton.1 hc, hch]
      rw [scan_char pre w rest parts hch, ih pre (w ++ [ch]) parts (by simp [hcmd]) hw' hparts,
        List.append_assoc]
      rfl
    | true =>
      rw [words_append_space hw hch]
      by_cases hnil : w = []
      · subst hnil
        rw [scan_gap pre rest parts hch, ih _ [] parts (by simp [hcmd]) nofun hparts]
        rfl
      · rw [scan_field pre w rest parts hch hnil hcmd, wordOf, if_neg hnil]
        by_cases hfull : maxFields ≤ parts.length
        · -- a field after the last one ends the loop
          rw [if_pos hfull, hcmd, fields_scanAt _ _ _ _ hparts,
            List.take_append_of_le_length hfull, List.take_append_of_le_length hfull]
        · rw [if_neg hfull, ih _ [] _ (by simp [hcmd]) nofun (by simp; omega), List.append_assoc]
          rfl

end Scan

/-- **The fields of a command** are its first seven words. -/
theorem counterFields_eq (cmd : Bytes) : counterFields cmd = (words cmd).take maxFields := by
  rw [counterFields_eq_fields]
  exact fields_scan [] [] cmd [] rfl nofun (Nat.zero_le _)

/-! ### The calls -/

theorem extractCtrs_returns {istr : Bytes} (h : ¬ Adjacent istr) :
    ∃ names base, extractCtrs istr = some (names, base) := by
  by_cases hcaret : byte '^' ∈ istr
  · obtain ⟨b, rest, rfl, hb⟩ := List.eq_append_cons_of_mem hcaret
    rw [adjacent_append_of_not_mem hb] at h
    rw [extractCtrs_append hb, ctrsLoop_eq _ h b [] (by simp; omega)]
    exact ⟨_, _, rfl⟩
  · rw [extractCtrs, findFirstOf_of_not_mem hcaret]
    cases istr with
    | nil => exact ⟨_, _, rfl⟩
    | cons c istr => exact ⟨_, _, rfl⟩

variable {D : Type}

/-- The names that a call records or exports. -/
def CounterCall.names : CounterCall D → List Bytes
  | .record ctr _ => [ctr]
  | .recordTime ctr _ _ => [ctr]
  | .recordBucket ctr _ _ _ _ _ _ => [ctr]
  | .forwardProm _ _ cnames _ _ => cnames

/-- A call to `handle_record`. -/
def CounterCall.isRecord : CounterCall D → Bool
  | .forwardProm _ _ _ _ _ => false
  | _ => true

/-- The calls to `handle_record`. -/
def CounterCalls.records (r : CounterCalls D) : List (CounterCall D) := r.calls.filter (·.isRecord)

section Names

variable {record : Bytes → Option (CounterCall D)}

theorem recordNames_some {call : Bytes → CounterCall D}
    (h : ∀ name, record name = some (call name)) (names : List Bytes) :
    recordNames record names = (names.map call, false) := by
  induction names with
  | nil => rfl
  | cons name names ih => rw [recordNames, h, ih, List.map_cons]

/-- If the conversions fail, the first name ends the loop. -/
theorem recordNames_none (h : ∀ name, record name = none) (names : List Bytes) :
    recordNames record names = ([], decide (names ≠ [])) := by
  cases names with
  | nil => rfl
  | cons name names => rw [recordNames, h]; rfl

end Names

theorem storedMetrics_nil (cfg : PromConfig) (ctr base : Bytes) (time : ℤ) (val : D) :
    PromExporter.storedMetrics cfg ctr base [] time val = [] := by
  unfold PromExporter.storedMetrics PromConfig.extractTags
  split_ifs <;> rfl

variable [NatCast D]

/-- The numeric fields parse; for each name there is the call with their values. -/
inductive Parsed (lex : LexicalCast D) : List Bytes → (Bytes → CounterCall D) → Prop
  | value {ctr val : Bytes} {v : D} : lex.toDouble val = some v →
      Parsed lex [ctr, val] fun name => .record name v
  | timed {ctr time val : Bytes} {t : ℤ} {v : D} : lex.time time = some t →
      lex.toDouble val = some v → Parsed lex [ctr, time, val] fun name => .recordTime name t v
  | bucket {ctr time val sumSq min max n : Bytes} {t : ℤ} {v sq lo hi : D} {cnt : ℕ} :
      lex.time time = some t → lex.toDouble val = some v → lex.toDouble sumSq = some sq →
      lex.toDouble min = some lo → lex.toDouble max = some hi → lex.size n = some cnt →
      Parsed lex [ctr, time, val, sumSq, min, max, n] fun name =>
        .recordBucket name t v sq lo hi cnt

/-- The numbers of fields with which a command records. -/
def Recording (parts : List Bytes) : Prop :=
  parts.length = 2 ∨ parts.length = 3 ∨ parts.length = 7

section Calls

variable {lex : LexicalCast D} {parts : List Bytes} {call : Bytes → CounterCall D}

theorem Parsed.recording (h : Parsed lex parts call) : Recording parts := by
  cases h with
  | value => exact Or.inl rfl
  | timed => exact Or.inr (Or.inl rfl)
  | bucket => exact Or.inr (Or.inr rfl)

theorem Parsed.isRecord (h : Parsed lex parts call) (name : Bytes) : (call name).isRecord = true := by
  cases h <;> rfl

theorem Parsed.recordCall (h : Parsed lex parts call) (name : Bytes) :
    lex.recordCall parts name = some (call name) := by
  cases h with
  | value hv => simp [LexicalCast.recordCall, hv]
  | timed ht hv => simp [LexicalCast.recordCall, ht, hv]
  | bucket ht hv hsq hlo hhi hn => simp [LexicalCast.recordCall, ht, hv, hsq, hlo, hhi, hn]

/-- The conversions are the same for each name. -/
theorem parsed_of_recordCall {name : Bytes} {c : CounterCall D}
    (h : lex.recordCall parts name = some c) : ∃ call, Parsed lex parts call := by
  unfold LexicalCast.recordCall at h
  split at h
  · obtain ⟨v, hv, -⟩ := Option.bind_eq_some_iff.1 h
    exact ⟨_, .value hv⟩
  · obtain ⟨t, ht, h⟩ := Option.bind_eq_some_iff.1 h
    obtain ⟨v, hv, -⟩ := Option.bind_eq_some_iff.1 h
    exact ⟨_, .timed ht hv⟩
  · obtain ⟨t, ht, h⟩ := Option.bind_eq_some_iff.1 h
    obtain ⟨v, hv, h⟩ := Option.bind_eq_some_iff.1 h
    obtain ⟨sq, hsq, h⟩ := Option.bind_eq_some_iff.1 h
    obtain ⟨lo, hlo, h⟩ := Option.bind_eq_some_iff.1 h
    obtain ⟨hi, hhi, h⟩ := Option.bind_eq_some_iff.1 h
    obtain ⟨cnt, hcnt, -⟩ := Option.bind_eq_some_iff.1 h
    exact ⟨_, .bucket ht hv hsq hlo hhi hcnt⟩
  · cases h

variable [Div D]

/-- Nothing but the exporter is called behind the loop, and with the names of the command. -/
theorem promCalls_names {base : Bytes} {cnames : List Bytes} {proms : List (CounterCall D)}
    (h : lex.promCalls parts base cnames = some proms) :
    ∀ c ∈ proms, c.isRecord = false ∧ c.names = cnames := by
  unfold LexicalCast.promCalls at h
  split at h
  · obtain ⟨v, -, h⟩ := Option.bind_eq_some_iff.1 h
    cases h
    simp [CounterCall.isRecord, CounterCall.names]
  · obtain ⟨t, -, h⟩ := Option.bind_eq_some_iff.1 h
    obtain ⟨v, -, h⟩ := Option.bind_eq_some_iff.1 h
    cases h
    simp [CounterCall.isRecord, CounterCall.names]
  · obtain ⟨n, -, h⟩ := Option.bind_eq_some_iff.1 h
    split_ifs at h
    · cases h
      exact nofun
    · obtain ⟨t, -, h⟩ := Option.bind_eq_some_iff.1 h
      obtain ⟨v, -, h⟩ := Option.bind_eq_some_iff.1 h
      cases h
      simp [CounterCall.isRecord, CounterCall.names]
  · cases h
    exact nofun

/-- What is parsed for the names is parsed for the exporter. -/
theorem Parsed.promCalls (h : Parsed lex parts call) (base : Bytes) (cnames : List Bytes) :
    ∃ proms, lex.promCalls parts base cnames = some proms := by
  cases h with
  | value hv => simp [LexicalCast.promCalls, hv]
  | timed ht hv => simp [LexicalCast.promCalls, ht, hv]
  | @bucket ctr time val sumSq min max n t v sq lo hi cnt ht hv hsq hlo hhi hn =>
    by_cases hcnt : cnt = 0
    · simp [LexicalCast.promCalls, hn, hcnt]
    · simp [LexicalCast.promCalls, ht, hv, hn, hcnt]

end Calls

section Command

variable [Div D] {lex : LexicalCast D} (hasPromExporter : Bool) {cmd : Bytes}

/-- The calls of a command with such a number of fields. -/
theorem handleCounterCmd_of_recording (hparts : Recording (counterFields cmd)) {names : List Bytes}
    {base : Bytes} (hnames : extractCtrs ((counterFields cmd).headD []) = some (names, base)) :
    handleCounterCmd lex hasPromExporter cmd = some
      (if (recordNames (lex.recordCall (counterFields cmd)) names).2 then
        ⟨(recordNames (lex.recordCall (counterFields cmd)) names).1, 0, true⟩
      else if hasPromExporter then
        match lex.promCalls (counterFields cmd) base names with
        | none => ⟨(recordNames (lex.recordCall (counterFields cmd)) names).1, 0, true⟩
        | some proms =>
          ⟨(recordNames (lex.recordCall (counterFields cmd)) names).1 ++ proms, 0, false⟩
      else ⟨(recordNames (lex.recordCall (counterFields cmd)) names).1, 0, false⟩) := by
  unfold Recording at hparts
  have hlen : 1 < (counterFields cmd).length := by omega
  unfold handleCounterCmd
  simp only [if_pos hlen, hnames]
  rw [if_pos hparts]
  split_ifs
  · rfl
  · cases lex.promCalls (counterFields cmd) base names <;> rfl
  · rfl

/-- Other commands lead to no calls. -/
theorem handleCounterCmd_of_not_recording (hparts : ¬ Recording (counterFields cmd))
    {names : List Bytes} {base : Bytes}
    (hnames : extractCtrs ((counterFields cmd).headD []) = some (names, base)) :
    ∃ bad, handleCounterCmd lex hasPromExporter cmd = some ⟨[], bad, false⟩ := by
  unfold Recording at hparts
  unfold handleCounterCmd
  simp only [hnames]
  rw [if_neg hparts]
  split_ifs
  · exact ⟨_, rfl⟩
  · exact ⟨_, rfl⟩

/-- All names are recorded, with the same values. -/
theorem handleCounterCmd_of_parsed {call : Bytes → CounterCall D}
    (hcall : Parsed lex (counterFields cmd) call) {names : List Bytes} {base : Bytes}
    (hnames : extractCtrs ((counterFields cmd).headD []) = some (names, base)) :
    ∃ r, handleCounterCmd lex hasPromExporter cmd = some r ∧ r.records = names.map call ∧
      r.threw = false := by
  have hrecords : (names.map call).filter (·.isRecord) = names.map call := by
    refine List.filter_eq_self.2 fun c hc => ?_
    obtain ⟨name, -, rfl⟩ := List.mem_map.1 hc
    exact hcall.isRecord name
  obtain ⟨proms, hproms⟩ := hcall.promCalls base names
  have hfilter : proms.filter (·.isRecord) = [] :=
    List.filter_eq_nil_iff.2 fun c hc => by simp [(promCalls_names hproms c hc).1]
  rw [handleCounterCmd_of_recording hasPromExporter hcall.recording hnames,
    recordNames_some hcall.recordCall names, hproms]
  cases hasPromExporter with
  | false => exact ⟨_, rfl, hrecords, rfl⟩
  | true =>
    refine ⟨_, rfl, ?_, rfl⟩
    change (names.map call ++ proms).filter (·.isRecord) = _
    rw [List.filter_append, hrecords, hfilter, List.append_nil]

/-- No name is recorded and none is given to the exporter. -/
theorem handleCounterCmd_of_not_parsed (hparts : Recording (counterFields cmd))
    (hcall : ¬ ∃ call, Parsed lex (counterFields cmd) call) {names : List Bytes} {base : Bytes}
    (hnames : extractCtrs ((counterFields cmd).headD []) = some (names, base)) :
    ∃ r, handleCounterCmd lex hasPromExporter cmd = some r ∧
      ∀ c ∈ r.calls, c.isRecord = false ∧ c.names = [] := by
  have hfail : ∀ name, lex.recordCall (counterFields cmd) name = none := fun name =>
    Option.eq_none_iff_forall_ne_some.2 fun c hc => hcall (parsed_of_recordCall hc)
  rw [handleCounterCmd_of_recording hasPromExporter hparts hnames, recordNames_none hfail]
  refine ⟨_, rfl, ?_⟩
  by_cases hnil : names = []
  · -- no name: the conversions are made for the exporter only
    subst hnil
    simp only [ne_eq, not_true, decide_false, Bool.false_eq_true, if_false, List.nil_append]
    split_ifs
    · cases hproms : lex.promCalls (counterFields cmd) base [] with
      | none => exact nofun
      | some proms => exact promCalls_names hproms
    · exact nofun
  · rw [if_pos (by simpa using hnil)]
    exact nofun

end Command

section Export

open PromExporter

variable [Div D] {lex : LexicalCast D} {cmd : Bytes}

/-- Without names nothing is exported. -/
theorem commandMetrics_eq_nil {r : CounterCalls D} (h : handleCounterCmd lex true cmd = some r)
    (hnames : ∀ c ∈ r.calls, c.isRecord = false ∧ c.names = []) (cfg : PromConfig) (now : ℤ) :
    commandMetrics cfg lex now cmd = [] := by
  unfold commandMetrics
  rw [h]
  refine List.flatMap_eq_nil_iff.2 fun c hc => ?_
  cases c with
  | forwardProm ctr base cnames time val =>
    obtain rfl : cnames = [] := (hnames _ hc).2
    exact storedMetrics_nil _ _ _ _ _
  | record ctr val => rfl
  | recordTime ctr time val => rfl
  | recordBucket ctr time val sumSq min max n => rfl

/-- **What a counter command does**, if no two carets in its first field are adjacent: its fields
are its first seven words; if the numeric ones parse, each name is recorded once, with their values,
and if one of them does not, no name is recorded, forwarded or exported. -/
theorem handleCounterCmd_records (lex : LexicalCast D) (hasPromExporter : Bool) {cmd : Bytes}
    (h : ¬ Adjacent ((counterFields cmd).headD [])) :
    counterFields cmd = (words cmd).take 7 ∧
      ∃ names base r, extractCtrs ((counterFields cmd).headD []) = some (names, base) ∧
        handleCounterCmd lex hasPromExporter cmd = some r ∧
        (∀ call, Parsed lex (counterFields cmd) call →
          Recording (counterFields cmd) ∧ r.records = names.map call ∧ r.threw = false) ∧
        (¬ Recording (counterFields cmd) → r.calls = []) ∧
        (Recording (counterFields cmd) → (¬ ∃ call, Parsed lex (counterFields cmd) call) →
          r.records = [] ∧ (∀ c ∈ r.calls, c.names = []) ∧
            ∀ cfg now, commandMetrics cfg lex now cmd = []) := by
  obtain ⟨names, base, hnames⟩ := extractCtrs_returns h
  refine ⟨counterFields_eq cmd, names, base, ?_⟩
  by_cases hparts : Recording (counterFields cmd)
  · by_cases hcall : ∃ call, Parsed lex (counterFields cmd) call
    · obtain ⟨call, hcall⟩ := hcall
      obtain ⟨r, hr, -⟩ := handleCounterCmd_of_parsed hasPromExporter hcall hnames
      refine ⟨r, hnames, hr, fun call' hcall' => ?_, fun hn => absurd hparts hn,
        fun _ hn => absurd ⟨call, hcall⟩ hn⟩
      obtain ⟨r', hr', hrecords⟩ := handleCounterCmd_of_parsed hasPromExporter hcall' hnames
      obtain rfl : r = r' := Option.some.inj (hr.symm.trans hr')
      exact ⟨hparts, hrecords⟩
    · obtain ⟨r, hr, hcalls⟩ := handleCounterCmd_of_not_parsed hasPromExporter hparts hcall hnames
      obtain ⟨r', hr', hcalls'⟩ := handleCounterCmd_of_not_parsed true hparts hcall hnames
      refine ⟨r, hnames, hr, fun call hc => absurd ⟨call, hc⟩ hcall, fun hn => absurd hparts hn,
        fun _ _ => ⟨?_, fun c hc => (hcalls c hc).2, commandMetrics_eq_nil hr' hcalls'⟩⟩
      exact List.filter_eq_nil_iff.2 fun c hc => by simp [(hcalls c hc).1]
  · obtain ⟨bad, hr⟩ := handleCounterCmd_of_not_recording (D := D) hasPromExporter hparts hnames
    exact ⟨_, hnames, hr, fun call hc => absurd hc.recording hparts, fun _ => rfl,
      fun hp => absurd hp hparts⟩

/-- A counter with two names. -/
theorem handleCounterCmd_records_sample :
    ¬ Adjacent ((counterFields (bytes " *a^b^c  990 5 ")).headD []) ∧
      ∃ r, handleCounterCmd sampleCast true (bytes " *a^b^c  990 5 ") = some r ∧
        r.records = [.recordTime (bytes "*a.b") 990 5, .recordTime (bytes "*a.c") 990 5] := by
  have hfields : counterFields (bytes " *a^b^c  990 5 ") =
      [bytes "*a^b^c", bytes "990", bytes "5"] := by decide +kernel
  have hadj : ¬ Adjacent ((counterFields (bytes " *a^b^c  990 5 ")).headD []) := by
    rw [hfields]
    decide
  have hcall : Parsed sampleCast (counterFields (bytes " *a^b^c  990 5 ")) fun name =>
      .recordTime name 990 5 := hfields ▸ .timed (by decide +kernel) (by decide +kernel)
  obtain ⟨-, names, base, r, hnames, hr, hrecords, -⟩ :=
    handleCounterCmd_records sampleCast true hadj
  rw [hfields] at hnames
  have hexpand : extractCtrs (bytes "*a^b^c") =
      some ([bytes "*a.b", bytes "*a.c"], bytes "*a") := by decide +kernel
  cases hnames.symm.trans hexpand
  exact ⟨hadj, r, hr, (hrecords _ hcall).2.1⟩

end Export

end Istatd
