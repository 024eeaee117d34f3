import Istatd.Lib.Lines
import Istatd.Lib.Run
import Istatd.StrFunc

/-!
# The commands of a TCP connection

Bytes read from a connection are appended to `incoming_`, and `on_inputData` looks at all of
`incoming_`: at each newline it consumes the line and hands it to `handleCmd`.  What is left stays
for the next read.

`handle_inputData` is a template; here it is used with `consume` of the connection and `handleCmd`
of a server without blacklist, which returns for every line, catches what the handlers throw, and
does not touch the connection.

* `handleInputData`, `EagerConnection.consume`, `TcpInput.onRead`;
* `inputLoop_spec`: the loop, from any of its positions;
* `commands_framed`: the lines of the stream, however it is cut into reads.
-/

namespace Istatd

open Lines

/-- `StatServer::HandleStatus`. -/
inductive HandleStatus
  | success
  | unhandled
  | blacklisted
  deriving DecidableEq

/-- The failure of an assertion: more is consumed than there is. -/
inductive InputFault
  | consumeTooMuch
  deriving DecidableEq

/-- The newline. -/
def newline : UInt8 := 10

section Template

variable {σ : Type}

/-- The loop of `handle_inputData` over the characters `rest` of `s` from `pos` on. -/
def inputLoop (c : σ → ℕ → Except InputFault σ) (h : σ → Bytes → HandleStatus × σ) (s : Bytes) :
    Bytes → ℕ → ℕ → HandleStatus → σ → Except InputFault σ
  | [], _, _, _, t => .ok t
  | ch :: rest, start, pos, status, t =>
    if ch = newline then
      let cmd := (s.drop start).take (pos - start)
      match c t (cmd.length + 1) with
      | .error e => .error e
      | .ok t' =>
        if status ≠ .blacklisted then
          let (status', t'') := h t' cmd
          inputLoop c h s rest (pos + 1) (pos + 1) status' t''
        else inputLoop c h s rest (pos + 1) (pos + 1) status t'
    else inputLoop c h s rest start (pos + 1) status t

/-- `handle_inputData`. -/
def handleInputData (c : σ → ℕ → Except InputFault σ) (h : σ → Bytes → HandleStatus × σ) (s : Bytes)
    (t : σ) : Except InputFault σ :=
  inputLoop c h s s 0 0 .success t

end Template

/-- The incoming side of an `EagerConnection`. -/
structure EagerConnection where
  opened : Bool
  incoming : Bytes
  deriving DecidableEq

namespace EagerConnection

/-- `EagerConnection::peekIn`. -/
def peekIn (ec : EagerConnection) (maxSize : ℕ) : Bytes := ec.incoming.take maxSize

/-- `EagerConnection::consume`. -/
def consume (ec : EagerConnection) (n : ℕ) : Except InputFault EagerConnection :=
  if ec.opened = false then .ok ec
  else if n ≤ ec.incoming.length then .ok { ec with incoming := ec.incoming.drop n }
  else .error .consumeTooMuch

end EagerConnection

/-- A connection, and the strings passed to `handleCmd`. -/
structure TcpInput where
  conn : EagerConnection
  handled : List Bytes
  deriving DecidableEq

namespace TcpInput

/-- An open connection from which nothing was read. -/
def new : TcpInput := ⟨⟨true, []⟩, []⟩

/-- `ConnectionInfo::consume`, as it is bound for `handle_inputData`. -/
def consume (t : TcpInput) (n : ℕ) : Except InputFault TcpInput :=
  match t.conn.consume n with
  | .ok conn => .ok { t with conn := conn }
  | .error e => .error e

/-- `StatServer::handleCmd`, of a server without blacklist. -/
def handleCmd (t : TcpInput) (cmd : Bytes) : HandleStatus × TcpInput :=
  (if cmd = [] then .unhandled else .success, { t with handled := t.handled ++ [cmd] })

/-- `StatServer::on_inputData`. -/
def onInputData (t : TcpInput) : Except InputFault TcpInput :=
  let sz := t.conn.incoming.length
  if sz = 0 then .ok t else handleInputData consume handleCmd (t.conn.peekIn sz) t

/-- `EagerConnection::on_read` of a read without error. -/
def onRead (t : TcpInput) (chunk : Bytes) : Except InputFault TcpInput :=
  onInputData { t with conn := { t.conn with incoming := t.conn.incoming ++ chunk } }

/-! ### Lines -/

variable {t : TcpInput}

theorem consume_eq {x y : Bytes} (hopen : t.conn.opened = true) (hin : t.conn.incoming = x ++ y) :
    t.consume x.length = .ok { t with conn := { t.conn with incoming := y } } := by
  simp [consume, EagerConnection.consume, hopen, hin]

/-- **The loop of `handle_inputData`.**  It is in a line of which it has seen `cur`, with the
characters `rest` to go, and what was consumed are the lines before. -/
theorem inputLoop_spec (t : TcpInput) {s pre cur rest : Bytes} {start pos : ℕ}
    (status : HandleStatus) (hs : s = pre ++ cur ++ rest) (hstart : start = pre.length)
    (hpos : pos = pre.length + cur.length) (hopen : t.conn.opened = true)
    (hin : t.conn.incoming = cur ++ rest) (hcur : newline ∉ cur) (hstatus : status ≠ .blacklisted) :
    inputLoop consume handleCmd s rest start pos status t =
      .ok ⟨⟨true, unfinished newline (cur ++ rest)⟩, t.handled ++ lines newline (cur ++ rest)⟩ := by
  induction rest generalizing pre cur start pos status t with
  | nil =>
    simp only [List.append_nil] at hin ⊢
    rw [lines_of_not_mem hcur, unfinished_of_not_mem hcur, List.append_nil, ← hin, ← hopen]
    rfl
  | cons ch rest ih =>
    rw [inputLoop]
    by_cases hch : ch = newline
    · subst hch
      have hcmd : (s.drop start).take (pos - start) = cur := by
        simp [hs, hstart, hpos]
      have hc : t.consume (cur.length + 1) =
          .ok { t with conn := { t.conn with incoming := rest } } := by
        have hline : t.conn.incoming = (cur ++ [newline]) ++ rest := by simp [hin]
        simpa using consume_eq hopen hline
      have hs' : s = (pre ++ cur ++ [newline]) ++ [] ++ rest := by simp [hs]
      have hpos' : pos + 1 = (pre ++ cur ++ [newline]).length := by simp [hpos]; omega
      have hstatus' : (if cur = [] then HandleStatus.unhandled else .success) ≠ .blacklisted := by
        split_ifs <;> nofun
      simp only [if_true, hcmd, hc, hstatus, ne_eq, not_false_eq_true, handleCmd]
      rw [ih ⟨⟨t.conn.opened, rest⟩, t.handled ++ [cur]⟩ _ hs' hpos' hpos' hopen rfl
        List.not_mem_nil hstatus', lines_line_append hcur, unfinished_line_append hcur]
      simp
    · have hs' : s = pre ++ (cur ++ [ch]) ++ rest := by simp [hs]
      have hpos' : pos + 1 = pre.length + (cur ++ [ch]).length := by simp [hpos]; omega
      have hin' : t.conn.incoming = (cur ++ [ch]) ++ rest := by simp [hin]
      rw [if_neg hch, ih t status hs' hstart hpos' hopen hin' (by simp [hcur, Ne.symm hch]) hstatus]
      simp

/-- One read: the lines that are ended by it, together with what was left, are handled. -/
theorem onRead_eq (hopen : t.conn.opened = true) (chunk : Bytes) :
    t.onRead chunk = .ok ⟨⟨true, unfinished newline (t.conn.incoming ++ chunk)⟩,
      t.handled ++ lines newline (t.conn.incoming ++ chunk)⟩ := by
  unfold onRead onInputData
  by_cases hsz : (t.conn.incoming ++ chunk).length = 0
  · have hnil : t.conn.incoming ++ chunk = [] := List.length_eq_zero_iff.1 hsz
    simp only [hnil, List.length_nil, if_true, ← hopen]
    simp [unfinished_of_not_mem, lines_of_not_mem]
  · simp only [hsz, if_false, handleInputData, EagerConnection.peekIn, List.take_length]
    have hs : t.conn.incoming ++ chunk = [] ++ [] ++ (t.conn.incoming ++ chunk) := rfl
    exact inputLoop_spec _ .success hs rfl rfl hopen rfl List.not_mem_nil nofun

/-- The reads after which the stream `before` was received. -/
theorem foldlM_onRead (t : TcpInput) (before : Bytes) (hopen : t.conn.opened = true)
    (hin : t.conn.incoming = unfinished newline before)
    (hhandled : t.handled = lines newline before) (chunks : List Bytes) :
    chunks.foldlM onRead t =
      .ok ⟨⟨true, unfinished newline (before ++ chunks.flatten)⟩,
        lines newline (before ++ chunks.flatten)⟩ := by
  induction chunks generalizing t before with
  | nil =>
    simp only [List.flatten_nil, List.append_nil, ← hin, ← hhandled, ← hopen]
    rfl
  | cons chunk chunks ih =>
    rw [Run.foldlM_cons_ok (onRead_eq hopen chunk), hin, hhandled, ← unfinished_append,
      ← lines_append, ih _ (before ++ chunk) rfl rfl rfl]
    simp

/-- **The framing of commands is independent of the reads.**  For every way of cutting a stream into
reads of an open connection: no assertion fails, the strings passed to `handleCmd` are the lines of
the stream in order, after every read the pending input is what stands behind the last newline, and
reads that cut the stream otherwise give the same strings. -/
theorem commands_framed (chunks : List Bytes) :
    ∃ t, chunks.foldlM onRead new = .ok t ∧ t.handled = lines newline chunks.flatten ∧
      (∀ n, ∃ u, (chunks.take n).foldlM onRead new = .ok u ∧
        u.conn.incoming = unfinished newline (chunks.take n).flatten) ∧
      ∀ chunks' : List Bytes, chunks'.flatten = chunks.flatten →
        ∃ t', chunks'.foldlM onRead new = .ok t' ∧ t'.handled = t.handled := by
  have hrun : ∀ l : List Bytes, l.foldlM onRead new =
      .ok ⟨⟨true, unfinished newline l.flatten⟩, lines newline l.flatten⟩ := fun l => by
    have hnil : newline ∉ ([] : Bytes) := List.not_mem_nil
    exact foldlM_onRead new [] rfl (unfinished_of_not_mem hnil).symm (lines_of_not_mem hnil).symm l
  refine ⟨_, hrun chunks, rfl, fun n => ⟨_, hrun _, rfl⟩, fun chunks' h => ⟨_, hrun chunks', ?_⟩⟩
  rw [h]

end TcpInput

/-- A line ended by a carriage return and a newline, cut between them, an empty line and the
beginning of another one. -/
theorem commands_framed_sample :
    ∃ t, [[97, 13], [10, 10, 98]].foldlM TcpInput.onRead TcpInput.new = .ok t ∧
      t.handled = [[97, 13], []] ∧
      ∃ t', [[97], [13, 10, 10], [98]].foldlM TcpInput.onRead TcpInput.new = .ok t' ∧
        t'.handled = t.handled := by
  obtain ⟨t, ht, hlines, -, hcut⟩ := TcpInput.commands_framed [[97, 13], [10, 10, 98]]
  exact ⟨t, ht, hlines.trans (by decide), hcut [[97], [13, 10, 10], [98]] rfl⟩

end Istatd
