import Istatd.StrFunc

/-!
# Counter commands (`StatServer::handle_counter_cmd`, `extract_ctrs`)

A counter command is a line of at most seven fields: the name of a counter, and a value, a time and a
value, or the data of a bucket.  The name may stand for several ones, with carets between its parts.
Each name is recorded, and if there is an exporter for Prometheus, the command is passed to it as a
whole.

`boost::lexical_cast` is a parameter.  A double is of any type with the operations that are used.

* `extractCtrs`: the names of a command and their common base, `none` if the loop does not end;
* `counterFields`: the fields of a command;
* `handleCounterCmd`: the calls that a command leads to.
-/

namespace Istatd

/-! ### `extract_ctrs` -/

/-- What a round of the loop of `extract_ctrs` leads to: the end, or the next round. -/
inductive CtrsRound
  | done (osubs : List Bytes)
  | again (osubs : List Bytes) (pos : ℕ)

/-- The body of the loop. -/
def ctrsRound (istr base : Bytes) (osubs : List Bytes) (pos : ℕ) : CtrsRound :=
  match findFirstOf istr (byte '^') (pos + 1) with
  | none =>
    if pos + 1 < istr.length then .done (osubs ++ [base ++ istr.drop (pos + 1)])
    else if base.length ≠ 0 then .done (osubs ++ [base.take (base.length - 1)])
    else .done osubs
  | some next =>
    if pos + 1 < next then
      .again (osubs ++ [base ++ (istr.drop (pos + 1)).take (next - (pos + 1))]) next
    else .again osubs pos

/-- The loop, for at most some rounds. -/
def ctrsLoop (istr base : Bytes) : ℕ → List Bytes → ℕ → Option (List Bytes)
  | 0, _, _ => none
  | fuel + 1, osubs, pos =>
    match ctrsRound istr base osubs pos with
    | .done osubs => some osubs
    | .again osubs pos => ctrsLoop istr base fuel osubs pos

/-- `extract_ctrs`: the names and `prombase`.  A round that goes on either moves to a later caret or
is repeated for ever, so there is a result within as many rounds as there are characters or none. -/
def extractCtrs (istr : Bytes) : Option (List Bytes × Bytes) :=
  match findFirstOf istr (byte '^') 0 with
  | none => if istr.length ≠ 0 then some ([istr], istr) else some ([], [])
  | some pos =>
    let base := istr.take pos
    let base := if 0 < pos then base ++ [byte '.'] else base
    (ctrsLoop istr base (istr.length + 1) [] pos).map fun osubs => (osubs, istr.take pos)

example : extractCtrs (bytes "*a^host.h^b^") =
    some ([bytes "*a.host.h", bytes "*a.b", bytes "*a"], bytes "*a") := by decide

/-! ### The fields of a command -/

/-- The variables of the loop over the characters. -/
structure FieldScan where
  start : ℕ
  pos : ℕ
  parts : List Bytes

/-- `sizeof(parts)/sizeof(parts[0])`. -/
def maxFields : ℕ := 7

/-- `cmd.substr(start, pos-start)`. -/
def FieldScan.part (cmd : Bytes) (s : FieldScan) : Bytes := (cmd.drop s.start).take (s.pos - s.start)

/-- The loop over the characters; a field after the last one ends it. -/
def FieldScan.scan (cmd : Bytes) : Bytes → FieldScan → FieldScan
  | [], s => s
  | ch :: rest, s =>
    if isSpace ch then
      if s.pos = s.start then scan cmd rest { s with start := s.start + 1, pos := s.pos + 1 }
      else if maxFields ≤ s.parts.length then s
      else scan cmd rest ⟨s.pos + 1, s.pos + 1, s.parts ++ [s.part cmd]⟩
    else scan cmd rest { s with pos := s.pos + 1 }

/-- The parts of a command. -/
def counterFields (cmd : Bytes) : List Bytes :=
  let s := FieldScan.scan cmd cmd ⟨0, 0, []⟩
  if s.start < s.pos then
    if maxFields ≤ s.parts.length then s.parts else s.parts ++ [s.part cmd]
  else s.parts

example : counterFields (bytes " a  1 2 ") = [bytes "a", bytes "1", bytes "2"] := by decide

/-! ### The calls -/

/-- `boost::lexical_cast`, with `none` for an exception. -/
structure LexicalCast (D : Type) where
  double : Bytes → Option D
  time : Bytes → Option ℤ
  size : Bytes → Option ℕ

/-- A call to `handle_record` or to `handle_forward_prom`. -/
inductive CounterCall (D : Type)
  | record (ctr : Bytes) (val : D)
  | recordTime (ctr : Bytes) (time : ℤ) (val : D)
  | recordBucket (ctr : Bytes) (time : ℤ) (val sumSq min max : D) (n : ℕ)
  | forwardProm (ctr basename : Bytes) (cnames : List Bytes) (time : ℤ) (val : D)

/-- The calls of a command, how often `badCommands_` is increased, and whether an exception ended
it. -/
structure CounterCalls (D : Type) where
  calls : List (CounterCall D)
  bad : ℕ
  threw : Bool

variable {D : Type} [Div D] [NatCast D]

namespace LexicalCast

variable (lex : LexicalCast D)

/-- `to_double`. -/
def toDouble (str : Bytes) : Option D :=
  if str = bytes "nan" ∨ str = bytes "NaN" ∨ str = bytes "-nan" ∨ str = bytes "-NaN" ∨ str = [] then
    some (0 : ℕ)
  else lex.double str

/-- The call to `handle_record` for a name; it is made for 2, 3 and 7 parts. -/
def recordCall (parts : List Bytes) (ctr : Bytes) : Option (CounterCall D) :=
  match parts with
  | [_, val] => do return .record ctr (← lex.toDouble val)
  | [_, time, val] => do return .recordTime ctr (← lex.time time) (← lex.toDouble val)
  | [_, time, val, sumSq, min, max, n] => do
    return .recordBucket ctr (← lex.time time) (← lex.toDouble val) (← lex.toDouble sumSq)
      (← lex.toDouble min) (← lex.toDouble max) (← lex.size n)
  | _ => none

/-- The calls to `handle_forward_prom`. -/
def promCalls (parts : List Bytes) (base : Bytes) (cnames : List Bytes) :
    Option (List (CounterCall D)) :=
  match parts with
  | [ctr, val] => do return [.forwardProm ctr base cnames 0 (← lex.toDouble val)]
  | [ctr, time, val] => do
    return [.forwardProm ctr base cnames (← lex.time time) (← lex.toDouble val)]
  | [ctr, time, val, _, _, _, n] => do
    let cnt ← lex.size n
    -- a bucket without samples is refused
    if cnt = 0 then return []
    else
      return [.forwardProm ctr base cnames (← lex.time time) ((← lex.toDouble val) / (cnt : D))]
  | _ => some []

end LexicalCast

/-- The loop over the names: the calls up to the first exception, and whether there was one. -/
def recordNames (record : Bytes → Option (CounterCall D)) :
    List Bytes → List (CounterCall D) × Bool
  | [] => ([], false)
  | ctr :: rest =>
    match record ctr with
    | none => ([], true)
    | some call => (call :: (recordNames record rest).1, (recordNames record rest).2)

/-- `StatServer::handle_counter_cmd`; `none` if `extract_ctrs` does not return. -/
def handleCounterCmd (lex : LexicalCast D) (hasPromExporter : Bool) (cmd : Bytes) :
    Option (CounterCalls D) :=
  let parts := counterFields cmd
  if 1 < parts.length then
    match extractCtrs (parts.headD []) with
    | none => none
    | some (cnames, base) =>
      if parts.length = 2 ∨ parts.length = 3 ∨ parts.length = 7 then
        let records := recordNames (lex.recordCall parts) cnames
        if records.2 then some ⟨records.1, 0, true⟩
        else if hasPromExporter then
          match lex.promCalls parts base cnames with
          | none => some ⟨records.1, 0, true⟩
          | some proms => some ⟨records.1 ++ proms, 0, false⟩
        else some ⟨records.1, 0, false⟩
      else some ⟨[], cnames.length, false⟩
  else some ⟨[], 1, false⟩

end Istatd
