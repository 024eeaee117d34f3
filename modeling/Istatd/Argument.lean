import Istatd.Framing
import Istatd.Lib.Decimal
import Istatd.Lib.Lines

/-!
# Options and the configuration file (`daemon/Argument.cpp`)

An option is registered under its name: an `Argument<bool>` takes no value and is set by being
there, the other ones cast the text that follows.  `parseArg` reads one option of the command line.
`parseData` reads a file with an option on each line, finds the ends of the lines, of the name and
of the value by their positions, and hands each line to `parseArg` as a command line of its own.

The state is the values of the options.  What `boost::lexical_cast` makes of a text is a part of the
option.

* `parseArg`, `parseData`: the parsers;
* `skipSpace_eq`, `dropSpace_eq`: what the loops over positions come to;
* `Sets`: the grammar of a line;
* `parseData_spec`: what is accepted, with what effect, and where reading stops otherwise.
-/

namespace Istatd

open Lines

variable {V : Type}

/-- `ArgumentBase`: an `Argument<bool>`, which is set to `on`, or a `GenericArgument`. -/
inductive ArgumentBase (V : Type)
  | flag (on : V)
  | generic (lexicalCast : Bytes → Option V)

/-- `hasParameters`. -/
def ArgumentBase.hasParameters : ArgumentBase V → Bool
  | .flag _ => false
  | .generic _ => true

/-- The text of a C string: it ends at the first 0. -/
def cStr (s : Bytes) : Bytes := s.takeWhile (· ≠ 0)

/-- What can end the parsing: the error text, or an exception. -/
inductive ParseError
  | message (oErr : Bytes)
  | exception (what : Bytes)
  deriving DecidableEq

section

variable (find : Bytes → Option (ArgumentBase V))

/-! ### The code -/

/-- `ArgumentBase::parseArg`: the result, where the iterator is then, and the values.  An option that
takes a value reads the next element of `argv`; behind the last element there is a null pointer. -/
def parseArg (argc : ℕ) (argv : List Bytes) (iterator : ℕ) (values : Bytes → V) :
    Except Bytes (Bool × ℕ × (Bytes → V)) :=
  if argc ≤ iterator ∨ iterator < 1 then .ok (false, iterator, values)
  else
    let key := argv.getD iterator []
    if key.getD 0 0 ≠ byte '-' ∨ key.getD 1 0 ≠ byte '-' then .ok (false, iterator, values)
    else if key.length = 2 then .ok (false, iterator + 1, values)
    else
      let key := key.drop 2
      match find key with
      | none => .ok (false, iterator, values)
      | some (.flag on) => .ok (true, iterator + 1, Function.update values key on)
      | some (.generic lexicalCast) =>
        match argv[iterator + 1]? with
        | none => .error (bytes "Argument requires a value: --" ++ key)
        | some text =>
          match lexicalCast text with
          | none => .ok (false, iterator, values)
          | some v => .ok (true, iterator + 2, Function.update values key v)

/-- `while (pos < end && isspace(str[pos])) ++pos;` for an end that is `n` positions ahead. -/
def skipSpace (str : Bytes) : ℕ → ℕ → ℕ
  | 0, pos => pos
  | n + 1, pos => if isSpace (str.getD pos 0) then skipSpace str n (pos + 1) else pos

/-- `while (tend > pos && isspace(str[tend-1])) --tend;` for an end that is `n` positions behind. -/
def dropSpace (str : Bytes) : ℕ → ℕ → ℕ
  | 0, tend => tend
  | n + 1, tend => if isSpace (str.getD (tend - 1) 0) then dropSpace str n (tend - 1) else tend

/-- Quotes around a value go. -/
def unquote (value : Bytes) : Bytes :=
  if 2 ≤ value.length ∧ value.getD 0 0 = byte '"' ∧ value.getD (value.length - 1) 0 = byte '"' then
    (value.drop 1).take (value.length - 2)
  else value

/-- The beginning of all error texts. -/
def onLine (lineNo : ℕ) : Bytes := bytes "Error on line " ++ Decimal.text lineNo ++ bytes ": "

/-- The call of `parseArg` for the key and the value on a line. -/
def parseSetting (key value : Bytes) (lineNo : ℕ) (values : Bytes → V) :
    Except ParseError (Bytes → V) :=
  let data := [[], cStr key, cStr value, bytes "end of line"]
  match parseArg find 3 data 1 values with
  | .ok (true, _, values) => .ok values
  | .ok (false, ix, _) => .error (.message (onLine lineNo ++ bytes "near " ++ data.getD ix []))
  | .error what => .error (.exception what)

/-- What `parseData` does with a line that is not empty and no comment. -/
def parseLine (line : Bytes) (lineNo : ℕ) (values : Bytes → V) : Except ParseError (Bytes → V) :=
  match findFirstOf line (byte ' ') 0 with
  | none =>
    if 2 < line.length ∧ (find (line.drop 2)).any (!·.hasParameters) then
      parseSetting find line [] lineNo values
    else .error (.message (onLine lineNo ++ bytes "'" ++ line ++
      bytes "' should have an argument."))
  | some split =>
    let key := line.take split
    let start := skipSpace line (line.length - (split + 1)) (split + 1)
    let tend := dropSpace line (line.length - start) line.length
    let value := (line.drop start).take (tend - start)
    parseSetting find key (unquote value) lineNo values

/-- The loop of `ArgumentBase::parseData`, for at most `n` rounds. -/
def parseDataLoop (data : Bytes) : ℕ → ℕ → ℕ → (Bytes → V) → Except ParseError Unit × (Bytes → V)
  | 0, _, _, values => (.ok (), values)
  | n + 1, pos, lineNo, values =>
    if pos < data.length then
      -- the next newline, or the end of the data
      let bound := (findFirstOf data newline pos).getD data.length
      let start := skipSpace data (bound - pos) pos
      let tend := dropSpace data (bound - start) bound
      let line := (data.drop start).take (tend - start)
      if line ≠ [] ∧ line.head? ≠ some (byte '#') then
        match parseLine find line lineNo values with
        | .error e => (.error e, values)
        | .ok values => parseDataLoop data n (bound + 1) (lineNo + 1) values
      else parseDataLoop data n (bound + 1) (lineNo + 1) values
    else (.ok (), values)

/-- `ArgumentBase::parseData`. -/
def parseData (data : Bytes) (values : Bytes → V) : Except ParseError Unit × (Bytes → V) :=
  parseDataLoop find data data.length 0 1 values

/-! ### The file as lines -/

/-- The lines of the file, without blanks around them. -/
def configLines (data : Bytes) : List Bytes := (data.splitOn newline).map trim

/-- A line that is left out. -/
def Ignored (line : Bytes) : Prop := line = [] ∨ line.head? = some (byte '#')

/-- What a line sets: `--name` for an option without a value; or `--name` and a blank, and what
follows is not looked at; or `--name`, a blank, and a text for the value, perhaps in quotes. -/
inductive Sets : Bytes → Bytes → V → Prop
  | flag {name : Bytes} {on : V} (hname : name ≠ []) (hblank : byte ' ' ∉ name)
      (hfind : find name = some (.flag on)) : Sets (bytes "--" ++ name) name on
  | flagText {key name rest : Bytes} {on : V} (hblank : byte ' ' ∉ key)
      (hkey : cStr key = bytes "--" ++ name) (hname : name ≠ [])
      (hfind : find name = some (.flag on)) : Sets (key ++ byte ' ' :: rest) name on
  | generic {key name rest : Bytes} {lexicalCast : Bytes → Option V} {v : V}
      (hblank : byte ' ' ∉ key) (hkey : cStr key = bytes "--" ++ name) (hname : name ≠ [])
      (hfind : find name = some (.generic lexicalCast))
      (hcast : lexicalCast (cStr (unquote (trim rest))) = some v) :
      Sets (key ++ byte ' ' :: rest) name v

/-- The values after some lines that are all accepted: a later line replaces an earlier one. -/
inductive Applies : List Bytes → (Bytes → V) → (Bytes → V) → Prop
  | nil {values : Bytes → V} : Applies [] values values
  | ignored {line : Bytes} {ls : List Bytes} {values values' : Bytes → V} (h : Ignored line)
      (hls : Applies ls values values') : Applies (line :: ls) values values'
  | sets {line name : Bytes} {v : V} {ls : List Bytes} {values values' : Bytes → V}
      (h : ¬Ignored line) (hset : Sets find line name v)
      (hls : Applies ls (Function.update values name v) values') :
      Applies (line :: ls) values values'

end

/-! ### Loops over positions -/

theorem getD_append_cons (pre post : Bytes) (ch : UInt8) :
    (pre ++ ch :: post).getD pre.length 0 = ch := by
  simp

theorem skipSpace_eq (pre piece post : Bytes) :
    skipSpace (pre ++ (piece ++ post)) piece.length pre.length =
      pre.length + (piece.takeWhile isSpace).length := by
  induction piece generalizing pre with
  | nil => rfl
  | cons ch piece ih =>
    rw [List.cons_append, List.length_cons, skipSpace, getD_append_cons, List.takeWhile_cons]
    split_ifs with hsp
    · have h := ih (pre ++ [ch])
      simp only [List.append_assoc, List.singleton_append, List.length_append,
        List.length_singleton] at h
      rw [h, List.length_cons]
      omega
    · rfl

theorem dropSpace_eq (pre piece post : Bytes) :
    dropSpace (pre ++ (piece ++ post)) piece.length (pre.length + piece.length) =
      pre.length + (piece.rdropWhile isSpace).length := by
  induction piece using List.reverseRecOn generalizing post with
  | nil => rfl
  | append_singleton piece ch ih =>
    have hlast : (pre ++ (piece ++ [ch] ++ post)).getD
        (pre.length + (piece.length + 1) - 1) 0 = ch := by
      have h := getD_append_cons (pre ++ piece) post ch
      rw [List.length_append] at h
      rw [← h]
      simp
    rw [List.length_append, List.length_singleton, dropSpace, hlast]
    split_ifs with hsp
    · rw [List.rdropWhile_concat_pos _ _ _ hsp, ← ih (ch :: post)]
      simp [List.append_assoc]
    · rw [List.rdropWhile_concat_neg _ _ _ hsp, List.length_append, List.length_singleton]

/-- It does not matter which end is trimmed first. -/
theorem rdropWhile_dropWhile (x : Bytes) : (x.dropWhile isSpace).rdropWhile isSpace = trim x := by
  unfold trim
  induction x using List.reverseRecOn with
  | nil => rfl
  | append_singleton x ch ih =>
    by_cases hsp : isSpace ch = true
    · rw [List.rdropWhile_concat_pos _ _ _ hsp, ← ih, List.dropWhile_append]
      split_ifs with hall
      · rw [List.isEmpty_iff.1 hall]
        simp [List.dropWhile, hsp]
      · rw [List.rdropWhile_concat_pos _ _ _ hsp]
    · have hdrop : (x ++ [ch]).dropWhile isSpace = x.dropWhile isSpace ++ [ch] := by
        rw [List.dropWhile_append]
        split_ifs with hall
        · rw [List.isEmpty_iff.1 hall]
          simp [List.dropWhile, hsp]
        · rfl
      rw [List.rdropWhile_concat_neg _ _ _ hsp, hdrop, List.rdropWhile_concat_neg _ _ _ hsp]

/-- Both loops cut a part of a string down to the part without the blanks around it. -/
theorem trimmed_eq (pre piece post : Bytes) :
    let str := pre ++ (piece ++ post)
    let start := skipSpace str piece.length pre.length
    let tend := dropSpace str (pre.length + piece.length - start) (pre.length + piece.length)
    (str.drop start).take (tend - start) = trim piece := by
  intro str start tend
  have hstart : start = (pre ++ piece.takeWhile isSpace).length := by
    rw [List.length_append]
    exact skipSpace_eq pre piece post
  have hstr : str = pre ++ piece.takeWhile isSpace ++ (piece.dropWhile isSpace ++ post) := by
    simp only [str, List.append_assoc]
    rw [← List.append_assoc (piece.takeWhile isSpace), List.takeWhile_append_dropWhile]
  have hend : pre.length + piece.length = start + (piece.dropWhile isSpace).length := by
    have h := congrArg List.length (List.takeWhile_append_dropWhile (p := isSpace) (l := piece))
    rw [List.length_append] at h
    rw [hstart, List.length_append]
    omega
  have htend : tend = start + (trim piece).length := by
    have h := dropSpace_eq (pre ++ piece.takeWhile isSpace) (piece.dropWhile isSpace) post
    rw [← hstr, ← hstart, ← hend, rdropWhile_dropWhile] at h
    have hlen : pre.length + piece.length - start = (piece.dropWhile isSpace).length := by omega
    rw [← h, ← hlen]
  rw [htend, Nat.add_sub_cancel_left, hstart, hstr, List.drop_left]
  obtain ⟨r, hr⟩ := List.rdropWhile_prefix isSpace (piece.dropWhile isSpace)
  rw [rdropWhile_dropWhile] at hr
  rw [← hr, List.append_assoc, List.take_left]

/-! ### One line -/

variable {find : Bytes → Option (ArgumentBase V)} {line key value : Bytes} {lineNo : ℕ}
  {values values' : Bytes → V}

theorem dashes_iff (k : Bytes) :
    (k.getD 0 0 = byte '-' ∧ k.getD 1 0 = byte '-') ↔ ∃ name, k = bytes "--" ++ name := by
  have hdash : bytes "--" = [byte '-', byte '-'] := by decide
  have hne : (0 : UInt8) ≠ byte '-' := by decide
  rw [hdash]
  match k with
  | [] => simp [hne]
  | [a] => simp [hne]
  | a :: b :: rest => simp

theorem parseSetting_of_not_dashes {r : Except ParseError (Bytes → V)}
    (h : ¬∃ name, cStr key = bytes "--" ++ name)
    (hr : parseSetting find key value lineNo values = r) :
    ∃ text, r = .error (.message (onLine lineNo ++ text)) := by
  have hno : (cStr key).getD 0 0 ≠ byte '-' ∨ (cStr key).getD 1 0 ≠ byte '-' := by
    rw [← dashes_iff] at h
    exact not_and_or.1 h
  refine ⟨bytes "near " ++ cStr key, ?_⟩
  have harg : parseArg find 3 [[], cStr key, cStr value, bytes "end of line"] 1 values =
      .ok (false, 1, values) := by
    rw [parseArg, if_neg (by decide)]
    exact if_pos hno
  rw [← hr, parseSetting, harg, ← List.append_assoc]
  rfl

theorem parseSetting_of_dashes {name : Bytes} (h : cStr key = bytes "--" ++ name)
    (hname : name ≠ []) : parseSetting find key value lineNo values =
      match find name with
      | none => .error (.message (onLine lineNo ++ bytes "near " ++ cStr key))
      | some (.flag on) => .ok (Function.update values name on)
      | some (.generic lexicalCast) =>
        match lexicalCast (cStr value) with
        | none => .error (.message (onLine lineNo ++ bytes "near " ++ cStr key))
        | some v => .ok (Function.update values name v) := by
  obtain ⟨h0, h1⟩ := (dashes_iff (cStr key)).2 ⟨name, h⟩
  have htwo : (bytes "--").length = 2 := by decide
  have hlen : (cStr key).length ≠ 2 := by
    have hpos := List.length_pos_iff.2 hname
    rw [h, List.length_append, htwo]
    omega
  have hdrop : (cStr key).drop 2 = name := by rw [h, ← htwo, List.drop_left]
  have harg : parseArg find 3 [[], cStr key, cStr value, bytes "end of line"] 1 values =
      match find name with
      | none => .ok (false, 1, values)
      | some (.flag on) => .ok (true, 2, Function.update values name on)
      | some (.generic lexicalCast) =>
        match lexicalCast (cStr value) with
        | none => .ok (false, 1, values)
        | some v => .ok (true, 3, Function.update values name v) := by
    rw [parseArg, if_neg (by decide)]
    simp only [List.getD_cons_succ, List.getD_cons_zero, h0, h1, ne_eq, not_true_eq_false, or_self,
      if_false, if_neg hlen, hdrop]
    rfl
  rw [parseSetting, harg]
  cases find name with
  | none => rfl
  | some arg =>
    cases arg with
    | flag on => rfl
    | generic lexicalCast =>
      simp only
      cases lexicalCast (cStr value) <;> rfl

theorem parseSetting_of_end {r : Except ParseError (Bytes → V)} (h : cStr key = bytes "--")
    (hr : parseSetting find key value lineNo values = r) :
    ∃ text, r = .error (.message (onLine lineNo ++ text)) := by
  refine ⟨bytes "near " ++ cStr value, ?_⟩
  have harg : parseArg find 3 [[], cStr key, cStr value, bytes "end of line"] 1 values =
      .ok (false, 2, values) := by
    rw [h]
    rfl
  rw [← hr, parseSetting, harg, ← List.append_assoc]
  rfl

/-- What the call of `parseArg` for a line comes to. -/
theorem parseSetting_ok_iff : parseSetting find key value lineNo values = .ok values' ↔
    ∃ name v, cStr key = bytes "--" ++ name ∧ name ≠ [] ∧ values' = Function.update values name v ∧
      (find name = some (.flag v) ∨
        ∃ lexicalCast, find name = some (.generic lexicalCast) ∧
          lexicalCast (cStr value) = some v) := by
  constructor
  · intro h
    by_cases hdash : ∃ name, cStr key = bytes "--" ++ name
    · obtain ⟨name, hkey⟩ := hdash
      by_cases hname : name = []
      · rw [hname, List.append_nil] at hkey
        obtain ⟨text, herr⟩ := parseSetting_of_end hkey h
        cases herr
      · rw [parseSetting_of_dashes hkey hname] at h
        cases hfind : find name with
        | none => simp [hfind] at h
        | some arg =>
          cases arg with
          | flag on =>
            simp only [hfind, Except.ok.injEq] at h
            exact ⟨name, on, hkey, hname, h.symm, .inl hfind⟩
          | generic lexicalCast =>
            cases hcast : lexicalCast (cStr value) with
            | none => simp [hfind, hcast] at h
            | some v =>
              simp only [hfind, hcast, Except.ok.injEq] at h
              exact ⟨name, v, hkey, hname, h.symm, .inr ⟨lexicalCast, hfind, hcast⟩⟩
    · obtain ⟨text, herr⟩ := parseSetting_of_not_dashes hdash h
      cases herr
  · rintro ⟨name, v, hkey, hname, rfl, hfind | ⟨lexicalCast, hfind, hcast⟩⟩
    · rw [parseSetting_of_dashes hkey hname, hfind]
    · rw [parseSetting_of_dashes hkey hname, hfind]
      simp only [hcast]

/-- A line that is not accepted leads to an error text with its number. -/
theorem parseSetting_error {e : ParseError}
    (h : parseSetting find key value lineNo values = .error e) :
    ∃ text, e = .message (onLine lineNo ++ text) := by
  by_cases hdash : ∃ name, cStr key = bytes "--" ++ name
  · obtain ⟨name, hkey⟩ := hdash
    by_cases hname : name = []
    · rw [hname, List.append_nil] at hkey
      obtain ⟨text, herr⟩ := parseSetting_of_end hkey h
      exact ⟨text, Except.error.inj herr⟩
    · have hnear : e = .message (onLine lineNo ++ bytes "near " ++ cStr key) := by
        rw [parseSetting_of_dashes hkey hname] at h
        cases hfind : find name with
        | none =>
          simp only [hfind, Except.error.injEq] at h
          exact h.symm
        | some arg =>
          cases arg with
          | flag on => simp [hfind] at h
          | generic lexicalCast =>
            cases hcast : lexicalCast (cStr value) with
            | none =>
              simp only [hfind, hcast, Except.error.injEq] at h
              exact h.symm
            | some v => simp [hfind, hcast] at h
      exact ⟨bytes "near " ++ cStr key, by rw [hnear, List.append_assoc]⟩
  · obtain ⟨text, herr⟩ := parseSetting_of_not_dashes hdash h
    exact ⟨text, Except.error.inj herr⟩

theorem eq_of_cStr {name : Bytes} (h : cStr line = bytes "--" ++ name)
    (h0 : (0 : UInt8) ∉ line.drop 2) : line = bytes "--" ++ name := by
  have hline : cStr line ++ line.dropWhile (· ≠ 0) = line := List.takeWhile_append_dropWhile
  have htwo : (bytes "--").length = 2 := by decide
  cases hrest : line.dropWhile (· ≠ 0) with
  | nil =>
    rw [hrest, List.append_nil] at hline
    rw [← h, hline]
  | cons ch rest =>
    have hch : ch = 0 := by
      have hhead := List.head?_dropWhile_not (· ≠ 0) line
      rw [hrest] at hhead
      simpa using hhead
    rw [hrest, h, hch] at hline
    rw [← hline, List.append_assoc, ← htwo, List.drop_left] at h0
    simp at h0

/-- The value of a line: what follows the first blank, without blanks around it and quotes. -/
theorem parseLine_of_blank {rest : Bytes} (hblank : byte ' ' ∉ key) :
    parseLine find (key ++ byte ' ' :: rest) lineNo values =
      parseSetting find key (unquote (trim rest)) lineNo values := by
  have hsplit : findFirstOf (key ++ byte ' ' :: rest) (byte ' ') 0 = some key.length :=
    findFirstOf_of_drop rfl hblank
  have hvalue := trimmed_eq (key ++ [byte ' ']) rest []
  have hline : key ++ [byte ' '] ++ (rest ++ []) = key ++ byte ' ' :: rest := by simp
  have hlen : (key ++ byte ' ' :: rest).length = (key ++ [byte ' ']).length + rest.length := by
    rw [← hline, List.append_nil, List.length_append]
  have hpos : key.length + 1 = (key ++ [byte ' ']).length := by simp
  rw [hline] at hvalue
  simp only at hvalue
  simp only [parseLine, hsplit, List.take_left, hpos, hlen, Nat.add_sub_cancel_left, hvalue]

/-- **A line is accepted just if it is in the grammar**, and then the value is set. -/
theorem parseLine_ok_iff (hfind : ∀ name, find name ≠ none → (0 : UInt8) ∉ name) :
    parseLine find line lineNo values = .ok values' ↔
      ∃ name v, Sets find line name v ∧ values' = Function.update values name v := by
  have htwo : (bytes "--").length = 2 := by decide
  by_cases hblank : byte ' ' ∈ line
  · obtain ⟨key, rest, rfl, hkey⟩ := List.eq_append_cons_of_mem hblank
    rw [parseLine_of_blank hkey, parseSetting_ok_iff]
    constructor
    · rintro ⟨name, v, hname, hne, rfl, hflag | ⟨lexicalCast, hgen, hcast⟩⟩
      · exact ⟨name, v, .flagText hkey hname hne hflag, rfl⟩
      · exact ⟨name, v, .generic hkey hname hne hgen hcast, rfl⟩
    · rintro ⟨name, v, hset, rfl⟩
      have hsplit := split_append hkey rest
      generalize key ++ byte ' ' :: rest = line at hset hsplit hblank
      cases hset with
      | flag hne hno hflag =>
        rcases List.mem_append.1 hblank with hmem | hmem
        · exact absurd hmem (by decide)
        · exact absurd hmem hno
      | flagText hno hname hne hflag =>
        rw [split_append hno] at hsplit
        cases hsplit
        exact ⟨name, v, hname, hne, rfl, .inl hflag⟩
      | generic hno hname hne hgen hcast =>
        rw [split_append hno] at hsplit
        cases hsplit
        exact ⟨name, v, hname, hne, rfl, .inr ⟨_, hgen, hcast⟩⟩
  · rw [parseLine, findFirstOf_of_not_mem (by simpa using hblank)]
    constructor
    · intro h
      simp only at h
      split_ifs at h with hcond
      obtain ⟨name, v, hkey, hne, rfl, harg⟩ := parseSetting_ok_iff.1 h
      have hdrop : find (line.drop 2) ≠ none := by
        intro hnone
        simp [hnone] at hcond
      have hline := eq_of_cStr hkey (hfind _ hdrop)
      rw [hline, ← htwo, List.drop_left] at hcond
      rcases harg with hflag | ⟨lexicalCast, hgen, -⟩
      · refine ⟨name, v, ?_, rfl⟩
        rw [hline]
        refine .flag hne (fun hmem => hblank ?_) hflag
        rw [hline]
        exact List.mem_append_right _ hmem
      · simp [hgen, ArgumentBase.hasParameters] at hcond
    · rintro ⟨name, v, hset, rfl⟩
      cases hset with
      | flag hne hno hflag =>
        have hlen : 2 < (bytes "--" ++ name).length := by
          have hpos := List.length_pos_iff.2 hne
          rw [List.length_append, htwo]
          omega
        have hdrop : (bytes "--" ++ name).drop 2 = name := by rw [← htwo, List.drop_left]
        have hkey : cStr (bytes "--" ++ name) = bytes "--" ++ name := by
          have h0 := hfind name (by simp [hflag])
          rw [cStr, List.takeWhile_eq_self_iff]
          intro ch hch
          have hne0 : ch ≠ 0 := by
            rintro rfl
            rcases List.mem_append.1 hch with hmem | hmem
            · exact absurd hmem (by decide)
            · exact h0 hmem
          simpa using hne0
        simp only [hdrop, hflag, hlen]
        exact parseSetting_ok_iff.2 ⟨name, v, hkey, hne, rfl, .inl hflag⟩
      | flagText => exact absurd (by simp) hblank
      | generic => exact absurd (by simp) hblank

theorem parseLine_error {e : ParseError} (h : parseLine find line lineNo values = .error e) :
    ∃ text, e = .message (onLine lineNo ++ text) := by
  unfold parseLine at h
  split at h
  · split_ifs at h
    · exact parseSetting_error h
    · exact ⟨bytes "'" ++ line ++ bytes "' should have an argument.", by
        rw [← Except.error.inj h]
        simp only [List.append_assoc]⟩
  · exact parseSetting_error h

/-! ### The file -/

/-- The lines one after the other, the first with the number `lineNo`. -/
def parseLines (find : Bytes → Option (ArgumentBase V)) :
    List Bytes → ℕ → (Bytes → V) → Except ParseError Unit × (Bytes → V)
  | [], _, values => (.ok (), values)
  | line :: ls, lineNo, values =>
    if line ≠ [] ∧ line.head? ≠ some (byte '#') then
      match parseLine find line lineNo values with
      | .error e => (.error e, values)
      | .ok values => parseLines find ls (lineNo + 1) values
    else parseLines find ls (lineNo + 1) values

theorem parseDataLoop_of_le {data : Bytes} {n pos : ℕ} (h : data.length ≤ pos) :
    parseDataLoop find data n pos lineNo values = (.ok (), values) := by
  cases n with
  | zero => rfl
  | succ n => exact if_neg (by omega)

/-- One round: `x` is what stands before the next newline, and `post` starts with it. -/
theorem parseDataLoop_round {pre x post : Bytes} {n : ℕ} {ls : List Bytes} (hx : newline ∉ x)
    (hpost : post = [] ∨ post.head? = some newline) (hne : x ++ post ≠ [])
    (hnext : ∀ values, parseDataLoop find (pre ++ (x ++ post)) n (pre.length + x.length + 1)
      (lineNo + 1) values = parseLines find ls (lineNo + 1) values) :
    parseDataLoop find (pre ++ (x ++ post)) (n + 1) pre.length lineNo values =
      parseLines find (trim x :: ls) lineNo values := by
  have hbound : (findFirstOf (pre ++ (x ++ post)) newline pre.length).getD
      (pre ++ (x ++ post)).length = pre.length + x.length := by
    have hdrop : (pre ++ (x ++ post)).drop pre.length = x ++ post := List.drop_left
    rcases hpost with rfl | hpost
    · rw [findFirstOf_of_not_mem (by simpa using hx)]
      simp
    · obtain ⟨rest, rfl⟩ : ∃ rest, post = newline :: rest := by
        cases post with
        | nil => cases hpost
        | cons ch rest => exact ⟨rest, by rw [Option.some.inj hpost]⟩
      rw [findFirstOf_of_drop hdrop hx, Option.getD_some, Nat.add_comm]
  have hpos : pre.length < (pre ++ (x ++ post)).length := by
    have h := List.length_pos_iff.2 hne
    rw [List.length_append]
    omega
  have hline := trimmed_eq pre x post
  simp only at hline
  rw [parseDataLoop, if_pos hpos]
  simp only [hbound, Nat.add_sub_cancel_left, hline, hnext]
  rfl

theorem parseDataLoop_eq (pre l : Bytes) {n : ℕ} (hn : l.length ≤ n) :
    parseDataLoop find (pre ++ l) n pre.length lineNo values =
      parseLines find (configLines l) lineNo values := by
  induction l using lines_induction newline generalizing pre n lineNo values with
  | hfree x hx =>
    rw [configLines, List.splitOn_eq_singleton hx, List.map_singleton]
    rcases eq_or_ne x [] with rfl | hne
    · rw [parseDataLoop_of_le (by simp)]
      rfl
    · obtain ⟨m, rfl⟩ : ∃ m, n = m + 1 := Nat.exists_eq_succ_of_ne_zero (by
        have h := List.length_pos_iff.2 hne
        omega)
      have hnext : ∀ values, parseDataLoop find (pre ++ (x ++ [])) m (pre.length + x.length + 1)
          (lineNo + 1) values = parseLines find [] (lineNo + 1) values :=
        fun values => parseDataLoop_of_le (by simp)
      simpa only [List.append_nil] using
        parseDataLoop_round hx (.inl rfl) (by simpa using hne) hnext
  | hline x l hx ih =>
    rw [configLines, List.splitOn_append_cons_self_of_not_mem hx, List.map_cons]
    rw [List.length_append, List.length_cons] at hn
    obtain ⟨m, rfl⟩ : ∃ m, n = m + 1 := Nat.exists_eq_succ_of_ne_zero (by omega)
    have hnext : ∀ values, parseDataLoop find (pre ++ (x ++ newline :: l)) m
        (pre.length + x.length + 1) (lineNo + 1) values =
          parseLines find (configLines l) (lineNo + 1) values := by
      intro values
      rw [← ih (pre ++ (x ++ [newline])) (n := m) (by omega)]
      congr 1
      · simp
      · simp [Nat.add_assoc]
    exact parseDataLoop_round hx (.inr rfl) (by simp) hnext

theorem parseLines_ignored {ls : List Bytes} (h : Ignored line) :
    parseLines find (line :: ls) lineNo values = parseLines find ls (lineNo + 1) values :=
  if_neg fun hno => h.elim hno.1 hno.2

theorem parseLines_not_ignored {ls : List Bytes} (h : ¬Ignored line) :
    parseLines find (line :: ls) lineNo values =
      match parseLine find line lineNo values with
      | .error e => (.error e, values)
      | .ok values => parseLines find ls (lineNo + 1) values :=
  if_pos (not_or.1 h)

theorem parseLines_ok_iff (hfind : ∀ name, find name ≠ none → (0 : UInt8) ∉ name)
    (ls : List Bytes) (lineNo : ℕ) (values values' : Bytes → V) :
    parseLines find ls lineNo values = (.ok (), values') ↔ Applies find ls values values' := by
  induction ls generalizing lineNo values with
  | nil =>
    constructor
    · intro h
      cases h
      exact .nil
    · intro h
      cases h
      rfl
  | cons line ls ih =>
    by_cases hign : Ignored line
    · rw [parseLines_ignored hign, ih]
      constructor
      · exact .ignored hign
      · intro h
        cases h with
        | ignored _ hls => exact hls
        | sets hno => exact absurd hign hno
    · rw [parseLines_not_ignored hign]
      constructor
      · intro h
        cases hline : parseLine find line lineNo values with
        | error e => simp [hline] at h
        | ok values₁ =>
          rw [hline] at h
          obtain ⟨name, v, hset, rfl⟩ := (parseLine_ok_iff hfind).1 hline
          exact .sets hign hset ((ih _ _).1 h)
      · intro h
        cases h with
        | ignored hno => exact absurd hno hign
        | sets _ hset hls =>
          rw [(parseLine_ok_iff hfind).2 ⟨_, _, hset, rfl⟩]
          exact (ih _ _).2 hls

theorem parseLines_error (hfind : ∀ name, find name ≠ none → (0 : UInt8) ∉ name) {e : ParseError}
    (ls : List Bytes) (lineNo : ℕ) (values values' : Bytes → V)
    (h : parseLines find ls lineNo values = (.error e, values')) :
    ∃ before line after text, ls = before ++ line :: after ∧ Applies find before values values' ∧
      ¬Ignored line ∧ (∀ name v, ¬Sets find line name v) ∧
      e = .message (onLine (lineNo + before.length) ++ text) := by
  induction ls generalizing lineNo values with
  | nil => cases h
  | cons line ls ih =>
    by_cases hign : Ignored line
    · rw [parseLines_ignored hign] at h
      obtain ⟨before, l, after, text, rfl, happ, hno, hset, he⟩ := ih _ _ h
      refine ⟨line :: before, l, after, text, rfl, .ignored hign happ, hno, hset, ?_⟩
      rw [he, List.length_cons, Nat.add_assoc, Nat.add_comm 1]
    · rw [parseLines_not_ignored hign] at h
      cases hline : parseLine find line lineNo values with
      | error e' =>
        rw [hline] at h
        cases h
        obtain ⟨text, he⟩ := parseLine_error hline
        refine ⟨[], line, ls, text, rfl, .nil, hign, ?_, he⟩
        intro name v hset
        rw [(parseLine_ok_iff hfind).2 ⟨name, v, hset, rfl⟩] at hline
        cases hline
      | ok values₁ =>
        rw [hline] at h
        obtain ⟨name, v, hset, rfl⟩ := (parseLine_ok_iff hfind).1 hline
        obtain ⟨before, l, after, text, rfl, happ, hno, hset', he⟩ := ih _ _ h
        refine ⟨line :: before, l, after, text, rfl, .sets hign hset happ, hno, hset', ?_⟩
        rw [he, List.length_cons, Nat.add_assoc, Nat.add_comm 1]

/-- **The configuration file is read line by line**, whatever its bytes are.  It is accepted just if
every line is empty, a comment or a setting of the grammar, and then the settings are made in order.
Otherwise the first line that is none of these ends the reading: the settings before it are made,
those behind it are not, the error text names its number, and no exception leaves the parser. -/
theorem parseData_spec (hfind : ∀ name, find name ≠ none → (0 : UInt8) ∉ name) (data : Bytes)
    (values : Bytes → V) :
    (∀ values', parseData find data values = (.ok (), values') ↔
      Applies find (configLines data) values values') ∧
      ∀ e values', parseData find data values = (.error e, values') →
        ∃ before line after text, configLines data = before ++ line :: after ∧
          Applies find before values values' ∧ ¬Ignored line ∧ (∀ name v, ¬Sets find line name v) ∧
          e = .message (onLine (before.length + 1) ++ text) := by
  have hdata : parseData find data values = parseLines find (configLines data) 1 values :=
    parseDataLoop_eq [] data le_rfl
  rw [hdata]
  refine ⟨fun values' => parseLines_ok_iff hfind _ _ _ _, ?_⟩
  intro e values' h
  obtain ⟨before, line, after, text, hls, happ, hno, hset, he⟩ := parseLines_error hfind _ _ _ _ h
  refine ⟨before, line, after, text, hls, happ, hno, hset, ?_⟩
  rw [he, Nat.add_comm]

/-- Two options, of which the second takes a text of digits. -/
def sampleOptions (name : Bytes) : Option (ArgumentBase Bytes) :=
  if name = bytes "help" then some (.flag [1])
  else if name = bytes "port" then
    some (.generic fun text => if text ≠ [] ∧ text.all (fun ch => 48 ≤ ch ∧ ch ≤ 57) then some text
      else none)
  else none

theorem parseData_spec_sample :
    (parseData sampleOptions (bytes " --port \"80\"\n#\n--help\r\n--port x") fun _ => []).1 =
        .error (.message (bytes "Error on line 4: near --port")) ∧
      ∃ before line after text,
        configLines (bytes " --port \"80\"\n#\n--help\r\n--port x") = before ++ line :: after ∧
          (∃ values', Applies sampleOptions before (fun _ => []) values') ∧ ¬Ignored line ∧
          (∀ name v, ¬Sets sampleOptions line name v) ∧
          ParseError.message (bytes "Error on line 4: near --port") =
            .message (onLine (before.length + 1) ++ text) := by
  have hfind : ∀ name, sampleOptions name ≠ none → (0 : UInt8) ∉ name := by
    intro name h
    unfold sampleOptions at h
    split_ifs at h with hhelp hport
    · subst hhelp
      decide
    · subst hport
      decide
    · cases h rfl
  have hrun : (parseData sampleOptions (bytes " --port \"80\"\n#\n--help\r\n--port x")
      fun _ => []).1 = .error (.message (bytes "Error on line 4: near --port")) := by
    decide +kernel
  refine ⟨hrun, ?_⟩
  obtain ⟨before, line, after, text, hls, happ, hno, hset, he⟩ := (parseData_spec hfind
    (bytes " --port \"80\"\n#\n--help\r\n--port x") fun _ => []).2 _ _ (Prod.ext hrun rfl)
  exact ⟨before, line, after, text, hls, ⟨_, happ⟩, hno, hset, he⟩

end Istatd
