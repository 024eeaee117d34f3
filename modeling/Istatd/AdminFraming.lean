import Istatd.PduReader

/-!
# The commands of an admin connection (`daemon/AdminServer.cpp`)

`AdminConnection::on_data` copies at most 1024 bytes of `incoming_` into a buffer, looks for a
newline in it, consumes the line and hands it to `doCmd`, and starts again.  Where the buffer is full
its first byte is overwritten by 0, so a line that has 1024 bytes or more from its start on waiting
is not the line that was sent; and a line whose newline is not in the buffer is never found.

The handlers of the commands return and leave the connection alone, but for `quit`, which closes it.

* `onDataLoop_spec`: the loop on a connection that is in step with the stream;
* `admin_framed_iff`: the streams and reads for which the commands are the lines of the stream.
-/

namespace Istatd

open Lines

/-- An admin connection, and the strings passed to `doCmd`. -/
structure AdminConnection where
  conn : EagerConnection
  executed : List Bytes
  deriving DecidableEq

namespace AdminConnection

/-- An open connection from which nothing was read. -/
def new : AdminConnection := ⟨⟨true, []⟩, []⟩

/-- The bytes of `buf` that the loop of `on_data` looks at. -/
def buf (ec : EagerConnection) : Bytes :=
  let peeked := ec.peekIn 1024
  -- `buf[1024] = '\n'` is behind the end of the loop
  if peeked.length = 1024 then peeked.set 0 0 else peeked

/-- The first word of a command is `quit`. -/
def isQuit (cmd : Bytes) : Bool := trim (split cmd (byte ' ')).2.1 = bytes "quit"

/-- `AdminConnection::doCmd`, as far as it concerns the connection. -/
def doCmd (s : AdminConnection) (cmd : Bytes) : AdminConnection :=
  ⟨if isQuit cmd then s.conn.close else s.conn, s.executed ++ [cmd]⟩

/-- The loop of `on_data`, for at most `n` commands. -/
def onDataLoop : ℕ → AdminConnection → Except InputFault AdminConnection
  | 0, s => .ok s
  | n + 1, s =>
    match (buf s.conn).findIdx? (· = newline) with
    | none => .ok s
    | some i =>
      match s.conn.consume (i + 1) with
      | .error e => .error e
      | .ok conn => onDataLoop n (doCmd { s with conn := conn } ((buf s.conn).take i))

/-- `AdminConnection::on_data`.  Every command consumes at least a byte. -/
def onData (s : AdminConnection) : Except InputFault AdminConnection :=
  onDataLoop (s.conn.incoming.length + 1) s

/-- `EagerConnection::on_read` of a read without error; `close` has disconnected `onData_`. -/
def onRead (s : AdminConnection) (chunk : Bytes) : Except InputFault AdminConnection :=
  if s.conn.opened then onData { s with conn.incoming := s.conn.incoming ++ chunk } else .ok s

/-- The reads of a connection. -/
def run (chunks : List Bytes) : Except InputFault AdminConnection := chunks.foldlM onRead new

/-! ### What the commands should be -/

/-- The lines up to the first that closes the connection. -/
def untilQuit : List Bytes → List Bytes
  | [] => []
  | x :: ls => x :: if isQuit x then [] else untilQuit ls

/-- The commands of a stream. -/
def commands (stream : Bytes) : List Bytes := untilQuit (lines newline stream)

/-- No line of the stream closes the connection. -/
def Stays (stream : Bytes) : Prop := ∀ x ∈ lines newline stream, isQuit x = false

instance (stream : Bytes) : Decidable (Stays stream) := inferInstanceAs (Decidable (∀ _ ∈ _, _))

theorem untilQuit_of_stays {ls : List Bytes} (h : ∀ x ∈ ls, isQuit x = false) (ls' : List Bytes) :
    untilQuit (ls ++ ls') = ls ++ untilQuit ls' := by
  induction ls with
  | nil => rfl
  | cons x ls ih =>
    have hx : isQuit x = false := h x (by simp)
    rw [List.cons_append, untilQuit, hx, if_neg (by simp), ih fun y hy => h y (by simp [hy]),
      List.cons_append]

theorem untilQuit_of_quit {ls : List Bytes} (h : ∃ x ∈ ls, isQuit x = true) (ls' : List Bytes) :
    untilQuit (ls ++ ls') = untilQuit ls := by
  induction ls with
  | nil => simp at h
  | cons x ls ih =>
    rw [List.cons_append, untilQuit, untilQuit]
    by_cases hx : isQuit x = true
    · rw [if_pos hx, if_pos hx]
    · rw [if_neg hx, if_neg hx, ih]
      obtain ⟨y, hy, hq⟩ := h
      rcases List.mem_cons.1 hy with rfl | hy
      · exact absurd hq hx
      · exact ⟨y, hy, hq⟩

theorem exists_quit {stream : Bytes} (h : ¬ Stays stream) :
    ∃ x ∈ lines newline stream, isQuit x = true := by
  unfold Stays at h
  push Not at h
  simpa using h

theorem commands_append_of_stays {a : Bytes} (h : Stays a) (b : Bytes) :
    commands (a ++ b) = commands a ++ commands (unfinished newline a ++ b) := by
  have ha : commands a = lines newline a := by
    unfold commands
    rw [← List.append_nil (lines newline a), untilQuit_of_stays h]
    rfl
  rw [ha]
  unfold commands
  rw [lines_append, untilQuit_of_stays h]

theorem commands_append_of_quit {a : Bytes} (h : ¬ Stays a) (b : Bytes) :
    commands (a ++ b) = commands a := by
  unfold commands
  rw [lines_append, untilQuit_of_quit (exists_quit h)]

/-- More of the stream leaves the commands there are. -/
theorem commands_isPrefix (a b : Bytes) : commands a <+: commands (a ++ b) := by
  by_cases h : Stays a
  · rw [commands_append_of_stays h]
    exact List.prefix_append _ _
  · rw [commands_append_of_quit h]

theorem stays_append {a b : Bytes} :
    Stays (a ++ b) ↔ Stays a ∧ Stays (unfinished newline a ++ b) := by
  unfold Stays
  rw [lines_append, List.forall_mem_append]

theorem commands_of_free {x : Bytes} (h : newline ∉ x) : commands x = [] := by
  rw [commands, lines_of_not_mem h, untilQuit]

theorem commands_line {x : Bytes} (h : newline ∉ x) (l : Bytes) :
    commands (x ++ newline :: l) = x :: if isQuit x then [] else commands l := by
  rw [commands, lines_line_append h, untilQuit, commands]

theorem stays_line {x : Bytes} (h : newline ∉ x) (l : Bytes) :
    Stays (x ++ newline :: l) ↔ isQuit x = false ∧ Stays l := by
  unfold Stays
  rw [lines_line_append h, List.forall_mem_cons]

/-! ### The buffer -/

theorem buf_of_short {ec : EagerConnection} (h : ec.incoming.length < 1024) :
    buf ec = ec.incoming := by
  have htake : ec.peekIn 1024 = ec.incoming := List.take_of_length_le h.le
  unfold buf
  rw [htake]
  exact if_neg h.ne

theorem buf_of_long {ec : EagerConnection} {b : UInt8} {l : Bytes} (hin : ec.incoming = b :: l)
    (h : 1024 ≤ ec.incoming.length) : buf ec = 0 :: l.take 1023 := by
  have hlen : (ec.peekIn 1024).length = 1024 := by
    unfold EagerConnection.peekIn
    rw [List.length_take]
    omega
  unfold buf
  simp only
  rw [if_pos hlen, EagerConnection.peekIn, hin]
  rfl

theorem buf_length_le (ec : EagerConnection) : (buf ec).length ≤ ec.incoming.length := by
  unfold buf EagerConnection.peekIn
  simp only
  split_ifs
  · rw [List.length_set, List.length_take]
    omega
  · rw [List.length_take]
    omega

/-- More data does not change a full buffer. -/
theorem buf_append {ec : EagerConnection} (h : 1024 ≤ ec.incoming.length) (chunk : Bytes) :
    buf { ec with incoming := ec.incoming ++ chunk } = buf ec := by
  have htake : (ec.incoming ++ chunk).take 1024 = ec.incoming.take 1024 :=
    List.take_append_of_le_length h
  unfold buf EagerConnection.peekIn
  rw [htake]

theorem findIdx?_of_free {x : Bytes} (h : newline ∉ x) : x.findIdx? (· = newline) = none := by
  rw [List.findIdx?_eq_none_iff]
  intro c hc
  have hne : c ≠ newline := fun he => h (he ▸ hc)
  simpa using hne

theorem findIdx?_line {x : Bytes} (h : newline ∉ x) (rest : Bytes) :
    (x ++ newline :: rest).findIdx? (· = newline) = some x.length := by
  rw [List.findIdx?_append, findIdx?_of_free h, List.findIdx?_cons]
  simp

/-- The line `x` in front of `rest` is read as it is: the buffer does not fill, or the byte that is
overwritten is 0 and the newline is in the buffer. -/
def Intact (x rest : Bytes) : Prop :=
  (x ++ newline :: rest).length < 1024 ∨ (x.head? = some 0 ∧ x.length < 1024)

instance (x rest : Bytes) : Decidable (Intact x rest) := inferInstanceAs (Decidable (_ ∨ _))

theorem buf_intact (ec : EagerConnection) {x rest : Bytes}
    (hin : ec.incoming = x ++ newline :: rest) (hx : newline ∉ x) (h : Intact x rest) :
    (buf ec).findIdx? (· = newline) = some x.length ∧ (buf ec).take x.length = x := by
  have hbuf : ∃ rest', buf ec = x ++ newline :: rest' := by
    by_cases hshort : ec.incoming.length < 1024
    · exact ⟨rest, (buf_of_short hshort).trans hin⟩
    · obtain ⟨hhead, hlen⟩ := h.resolve_left (by rwa [← hin])
      obtain ⟨x', rfl⟩ : ∃ x', x = 0 :: x' := by
        cases x with
        | nil => cases hhead
        | cons b x' =>
          cases hhead
          exact ⟨x', rfl⟩
      rw [List.length_cons] at hlen
      refine ⟨rest.take (1022 - x'.length), ?_⟩
      rw [buf_of_long (l := x' ++ newline :: rest) hin (not_lt.1 hshort), List.take_append,
        List.take_of_length_le (by omega), show 1023 - x'.length = 1022 - x'.length + 1 by omega]
      rfl
  obtain ⟨rest', hbuf⟩ := hbuf
  rw [hbuf]
  exact ⟨findIdx?_line hx rest', by simp⟩

/-- A line that is not intact is not what is found. -/
theorem buf_broken (ec : EagerConnection) {x rest : Bytes}
    (hin : ec.incoming = x ++ newline :: rest) (h : ¬ Intact x rest) :
    1024 ≤ ec.incoming.length ∧
      ∀ i, (buf ec).findIdx? (· = newline) = some i → (buf ec).take i ≠ x := by
  unfold Intact at h
  rw [← hin, not_or, not_lt] at h
  refine ⟨h.1, fun i hi htake => h.2 ?_⟩
  cases hl : ec.incoming with
  | nil =>
    have := h.1
    rw [hl] at this
    simp at this
  | cons b l =>
    have hbuf := buf_of_long hl h.1
    obtain ⟨hlt, hat, -⟩ := List.findIdx?_eq_some_iff_getElem.1 hi
    have hlen : (buf ec).length ≤ 1024 := by
      rw [hbuf, List.length_cons, List.length_take]
      omega
    -- the first byte is 0, so the newline is behind it
    cases i with
    | zero => simp [hbuf, newline] at hat
    | succ i =>
      rw [← htake]
      refine ⟨by rw [hbuf]; rfl, ?_⟩
      rw [List.length_take]
      omega

/-! ### The loop -/

/-- The loop ends without a fault, and only adds to the commands. -/
theorem onDataLoop_ok (n : ℕ) (s : AdminConnection) :
    ∃ s', onDataLoop n s = .ok s' ∧ s.executed <+: s'.executed := by
  induction n generalizing s with
  | zero => exact ⟨s, rfl, List.prefix_rfl⟩
  | succ n ih =>
    unfold onDataLoop
    cases hidx : (buf s.conn).findIdx? (· = newline) with
    | none => exact ⟨s, rfl, List.prefix_rfl⟩
    | some i =>
      have hle : i + 1 ≤ s.conn.incoming.length :=
        (List.findIdx?_eq_some_iff_getElem.1 hidx).1.trans_le (buf_length_le s.conn)
      obtain ⟨conn, hconn⟩ : ∃ conn, s.conn.consume (i + 1) = .ok conn := by
        unfold EagerConnection.consume
        rw [if_pos hle]
        split_ifs <;> exact ⟨_, rfl⟩
      obtain ⟨s', hs', hpre⟩ := ih (doCmd { s with conn := conn } ((buf s.conn).take i))
      simp only [hconn]
      exact ⟨s', hs', (List.prefix_append _ _).trans hpre⟩

/-- Every line of the pending bytes is read as it is, up to one that closes the connection. -/
def FramedRead (pending : Bytes) : Prop :=
  ∀ pre x rest, pending = pre ++ (x ++ newline :: rest) → Whole newline pre → Stays pre →
    newline ∉ x → Intact x rest

theorem framedRead_of_free {x : Bytes} (h : newline ∉ x) : FramedRead x :=
  fun pre y rest hx _ _ _ => absurd (by rw [hx]; simp) h

theorem line_unique {x y l l' : Bytes} (hx : newline ∉ x) (hy : newline ∉ y)
    (h : x ++ newline :: l = y ++ newline :: l') : x = y ∧ l = l' := by
  have hlines := congrArg (lines newline) h
  rw [lines_line_append hx, lines_line_append hy] at hlines
  obtain rfl := (List.cons.inj hlines).1
  exact ⟨rfl, (List.cons.inj (List.append_cancel_left h)).2⟩

theorem framedRead_line {x : Bytes} (hx : newline ∉ x) (l : Bytes) :
    FramedRead (x ++ newline :: l) ↔ Intact x l ∧ (isQuit x = false → FramedRead l) := by
  constructor
  · intro h
    refine ⟨h [] x l rfl rfl (by simp [Stays, lines]) hx, fun hq pre y rest hl hpre hstay hy => ?_⟩
    refine h (x ++ newline :: pre) y rest (by simp [hl]) ?_ ?_ hy
    · rw [whole_iff, unfinished_line_append hx]
      exact whole_iff.1 hpre
    · intro z hz
      rw [lines_line_append hx] at hz
      rcases List.mem_cons.1 hz with rfl | hz
      · exact hq
      · exact hstay z hz
  · rintro ⟨hx', hl⟩ pre y rest heq hpre hstay hy
    induction pre using lines_induction newline with
    | hfree z hz =>
      have hnil : z = [] := by rw [← unfinished_of_not_mem hz]; exact whole_iff.1 hpre
      subst hnil
      obtain ⟨rfl, rfl⟩ := line_unique hx hy heq
      exact hx'
    | hline z p hz _ =>
      rw [List.append_assoc, List.cons_append] at heq
      obtain ⟨rfl, rfl⟩ := line_unique hx hz heq
      unfold Stays at hstay
      rw [lines_line_append hz, List.forall_mem_cons] at hstay
      refine hl hstay.1 p y rest rfl ?_ hstay.2 hy
      rw [whole_iff, unfinished_line_append hz] at hpre
      exact whole_iff.2 hpre

/-- A command was executed that is not the one at its place, or there is a command to come that will
never be found. -/
def Lost (s : AdminConnection) (cmds : List Bytes) : Prop :=
  (∃ pre c x, c ≠ x ∧ pre ++ [c] <+: s.executed ∧ pre ++ [x] <+: cmds) ∨
  (1024 ≤ s.conn.incoming.length ∧ newline ∉ buf s.conn ∧ ∃ x, s.executed ++ [x] <+: cmds)

theorem Lost.ne {s : AdminConnection} {cmds : List Bytes} (h : Lost s cmds) : s.executed ≠ cmds := by
  rintro rfl
  rcases h with ⟨pre, c, x, hne, hc, hx⟩ | ⟨-, -, x, hx⟩
  · have heq := List.prefix_of_prefix_length_le hc hx (by simp)
    have := List.append_cancel_left (heq.eq_of_length (by simp))
    exact hne (List.cons.inj this).1
  · have := hx.length_le
    simp at this

theorem Lost.mono {s : AdminConnection} {cmds cmds' : List Bytes} (h : Lost s cmds)
    (hpre : cmds <+: cmds') : Lost s cmds' := by
  rcases h with ⟨pre, c, x, hne, hc, hx⟩ | ⟨hlen, hbuf, x, hx⟩
  · exact Or.inl ⟨pre, c, x, hne, hc, hx.trans hpre⟩
  · exact Or.inr ⟨hlen, hbuf, x, hx.trans hpre⟩

theorem onDataLoop_of_free {s : AdminConnection} (h : newline ∉ buf s.conn) (n : ℕ) :
    onDataLoop n s = .ok s := by
  cases n with
  | zero => rfl
  | succ n =>
    unfold onDataLoop
    rw [findIdx?_of_free h]

/-- What was lost stays lost. -/
theorem Lost.onRead {s : AdminConnection} {cmds : List Bytes} (h : Lost s cmds) (chunk : Bytes) :
    ∃ s', s.onRead chunk = .ok s' ∧ Lost s' cmds := by
  unfold AdminConnection.onRead onData
  by_cases hopen : s.conn.opened = true
  · rw [if_pos hopen]
    rcases h with ⟨pre, c, x, hne, hc, hx⟩ | ⟨hlen, hbuf, x, hx⟩
    · obtain ⟨s', hs', hpre⟩ := onDataLoop_ok
        ((s.conn.incoming ++ chunk).length + 1) { s with conn.incoming := s.conn.incoming ++ chunk }
      exact ⟨s', hs', Or.inl ⟨pre, c, x, hne, hc.trans hpre, hx⟩⟩
    · have hbuf' : newline ∉ buf { s.conn with incoming := s.conn.incoming ++ chunk } := by
        rwa [buf_append hlen]
      refine ⟨_, onDataLoop_of_free hbuf' _, Or.inr ⟨?_, hbuf', x, hx⟩⟩
      simp only [List.length_append]
      omega
  · rw [if_neg hopen]
    exact ⟨s, rfl, h⟩

/-- The connection after a stream that was read as it is. -/
def connAfter (stream : Bytes) : EagerConnection :=
  if Stays stream then ⟨true, unfinished newline stream⟩ else ⟨false, []⟩

theorem newline_not_mem_buf {ec : EagerConnection} (h : newline ∉ ec.incoming) :
    newline ∉ buf ec := by
  by_cases hshort : ec.incoming.length < 1024
  · rwa [buf_of_short hshort]
  · cases hin : ec.incoming with
    | nil => simp [hin] at hshort
    | cons b l =>
      rw [buf_of_long hin (not_lt.1 hshort)]
      simp only [hin, List.mem_cons, not_or] at h ⊢
      exact ⟨by decide, fun hmem => h.2 (List.mem_of_mem_take hmem)⟩

section Round

variable {x : Bytes} (l : Bytes) (n : ℕ) (executed : List Bytes)

/-- A round of the loop, where the first line is read as it is. -/
theorem onDataLoop_intact (hx : newline ∉ x) (h : Intact x l) :
    onDataLoop (n + 1) ⟨⟨true, x ++ newline :: l⟩, executed⟩ =
      if isQuit x then .ok ⟨⟨false, []⟩, executed ++ [x]⟩
      else onDataLoop n ⟨⟨true, l⟩, executed ++ [x]⟩ := by
  obtain ⟨hidx, htake⟩ := buf_intact ⟨true, x ++ newline :: l⟩ rfl hx h
  have hconsume : EagerConnection.consume ⟨true, x ++ newline :: l⟩ (x.length + 1) =
      .ok ⟨true, l⟩ := by
    simp [EagerConnection.consume]
  rw [onDataLoop]
  simp only [hidx, hconsume, htake]
  by_cases hq : isQuit x = true
  · have hbuf : newline ∉ buf (EagerConnection.close ⟨true, l⟩) :=
      newline_not_mem_buf (by simp [EagerConnection.close])
    rw [doCmd, if_pos hq, if_pos hq, onDataLoop_of_free hbuf]
    rfl
  · rw [doCmd, if_neg hq, if_neg hq]

/-- A round of the loop, where the first line is not read as it is: it is never executed. -/
theorem onDataLoop_broken (h : ¬ Intact x l) (cmds : List Bytes) :
    ∃ s, onDataLoop (n + 1) ⟨⟨true, x ++ newline :: l⟩, executed⟩ = .ok s ∧
      Lost s (executed ++ x :: cmds) := by
  obtain ⟨hlen, hne⟩ := buf_broken ⟨true, x ++ newline :: l⟩ rfl h
  have hcmds : executed ++ [x] <+: executed ++ x :: cmds :=
    (List.prefix_append_right_inj executed).2 (List.prefix_append [x] cmds)
  rw [onDataLoop]
  cases hidx : (buf ⟨true, x ++ newline :: l⟩).findIdx? (· = newline) with
  | none =>
    have hbuf : newline ∉ buf ⟨true, x ++ newline :: l⟩ := fun hmem => by
      have := List.findIdx?_eq_none_iff.1 hidx newline hmem
      simp at this
    exact ⟨_, rfl, Or.inr ⟨hlen, hbuf, x, hcmds⟩⟩
  | some i =>
    -- the loop goes on with a command that was not sent
    have hle : i + 1 ≤ (x ++ newline :: l).length :=
      (List.findIdx?_eq_some_iff_getElem.1 hidx).1.trans_le (buf_length_le _)
    have hconsume : EagerConnection.consume ⟨true, x ++ newline :: l⟩ (i + 1) =
        .ok ⟨true, (x ++ newline :: l).drop (i + 1)⟩ := by
      unfold EagerConnection.consume
      rw [if_neg (by simp), if_pos hle]
    simp only [hconsume]
    obtain ⟨s, hs, hpre⟩ := onDataLoop_ok n (doCmd ⟨⟨true, (x ++ newline :: l).drop (i + 1)⟩,
      executed⟩ ((buf ⟨true, x ++ newline :: l⟩).take i))
    exact ⟨s, hs, Or.inl ⟨executed, _, x, hne i hidx, hpre, hcmds⟩⟩

end Round

theorem connAfter_line {x : Bytes} (hx : newline ∉ x) (l : Bytes) :
    connAfter (x ++ newline :: l) = if isQuit x then ⟨false, []⟩ else connAfter l := by
  unfold connAfter
  by_cases hq : isQuit x = true
  · rw [if_pos hq, if_neg (by simp [stays_line hx, hq])]
  · simp only [stays_line hx, unfinished_line_append hx, Bool.eq_false_iff.2 hq, true_and]
    rfl

/-- **The loop on an open connection**: it executes the commands of the pending bytes and keeps the
unfinished line, or else a command is lost. -/
theorem onDataLoop_spec (pending : Bytes) (n : ℕ) (executed : List Bytes)
    (hn : pending.length < n) :
    ∃ s, onDataLoop n ⟨⟨true, pending⟩, executed⟩ = .ok s ∧
      (FramedRead pending → s = ⟨connAfter pending, executed ++ commands pending⟩) ∧
      (¬ FramedRead pending → Lost s (executed ++ commands pending)) := by
  induction pending using lines_induction newline generalizing n executed with
  | hfree x hx =>
    have hstays : Stays x := by simp [Stays, lines_of_not_mem hx]
    refine ⟨_, onDataLoop_of_free (newline_not_mem_buf hx) n, fun _ => ?_,
      fun h => absurd (framedRead_of_free hx) h⟩
    rw [commands_of_free hx, List.append_nil, connAfter, if_pos hstays, unfinished_of_not_mem hx]
  | hline x l hx ih =>
    obtain ⟨n, rfl⟩ : ∃ k, n = k + 1 := ⟨n - 1, by omega⟩
    rw [framedRead_line hx, commands_line hx, connAfter_line hx]
    by_cases hintact : Intact x l
    · rw [onDataLoop_intact l n executed hx hintact]
      by_cases hq : isQuit x = true
      · rw [if_pos hq, if_pos hq, if_pos hq]
        exact ⟨_, rfl, fun _ => rfl, fun h => absurd ⟨hintact, fun h => by simp [hq] at h⟩ h⟩
      · have hlen : l.length < n := by
          rw [List.length_append, List.length_cons] at hn
          omega
        obtain ⟨s, hs, hgood, hbad⟩ := ih n (executed ++ [x]) hlen
        rw [if_neg hq, if_neg hq, if_neg hq]
        rw [List.append_assoc, List.singleton_append] at hgood hbad
        exact ⟨s, hs, fun h => hgood (h.2 (Bool.eq_false_iff.2 hq)),
          fun h => hbad fun hl => h ⟨hintact, fun _ => hl⟩⟩
    · obtain ⟨s, hs, hlost⟩ := onDataLoop_broken l n executed hintact
        (if isQuit x then [] else commands l)
      exact ⟨s, hs, fun h => absurd h.1 hintact, fun _ => hlost⟩

/-! ### The reads -/

/-- In every read, the lines that are pending are read as they are; the pending bytes are the
unfinished line of the stream before and the bytes of the read. -/
def Framed (stream : Bytes) (chunks : List Bytes) : Prop :=
  ∀ earlier chunk later, chunks = earlier ++ chunk :: later → Stays (stream ++ earlier.flatten) →
    FramedRead (unfinished newline (stream ++ earlier.flatten) ++ chunk)

theorem framed_cons {stream chunk : Bytes} {chunks : List Bytes} :
    Framed stream (chunk :: chunks) ↔
      (Stays stream → FramedRead (unfinished newline stream ++ chunk)) ∧
        Framed (stream ++ chunk) chunks := by
  constructor
  · intro h
    refine ⟨fun hs => ?_, fun earlier c later hc hs => ?_⟩
    · simpa using h [] chunk chunks rfl (by simpa using hs)
    · simpa using h (chunk :: earlier) c later (by rw [hc]; rfl) (by simpa using hs)
  · rintro ⟨h1, h2⟩ earlier c later hc hs
    cases earlier with
    | nil =>
      obtain ⟨rfl, rfl⟩ := List.cons.inj hc
      simpa using h1 (by simpa using hs)
    | cons e earlier =>
      obtain ⟨rfl, hrest⟩ := List.cons.inj hc
      simpa using h2 earlier c later hrest (by simpa using hs)

/-- The connection has executed the commands of the stream, and consumed their lines. -/
def InStep (s : AdminConnection) (stream : Bytes) : Prop :=
  s = ⟨connAfter stream, commands stream⟩

/-- A read keeps the connection in step, or a command is lost. -/
theorem InStep.onRead {s : AdminConnection} {stream : Bytes} (h : InStep s stream) (chunk : Bytes) :
    ∃ s', s.onRead chunk = .ok s' ∧
      ((Stays stream → FramedRead (unfinished newline stream ++ chunk)) →
        InStep s' (stream ++ chunk)) ∧
      (¬ (Stays stream → FramedRead (unfinished newline stream ++ chunk)) →
        Lost s' (commands (stream ++ chunk))) := by
  obtain rfl := h
  unfold AdminConnection.onRead connAfter
  by_cases hs : Stays stream
  · rw [if_pos hs, if_pos rfl, commands_append_of_stays hs]
    obtain ⟨s', hs', hgood, hbad⟩ := onDataLoop_spec (unfinished newline stream ++ chunk) _
      (commands stream) (Nat.lt_succ_self _)
    refine ⟨s', hs', fun hf => ?_, fun hf => hbad fun h => hf fun _ => h⟩
    have hafter : connAfter (unfinished newline stream ++ chunk) = connAfter (stream ++ chunk) := by
      have hiff : Stays (stream ++ chunk) ↔ Stays (unfinished newline stream ++ chunk) :=
        stays_append.trans (and_iff_right hs)
      unfold connAfter
      rw [← unfinished_append]
      exact if_congr hiff.symm rfl rfl
    rw [InStep, hgood (hf hs), commands_append_of_stays hs, hafter]
  · rw [if_neg hs, if_neg (by simp)]
    refine ⟨_, rfl, fun _ => ?_, fun hf => absurd (fun h => absurd h hs) hf⟩
    rw [InStep, commands_append_of_quit hs, connAfter, if_neg fun h => hs (stays_append.1 h).1]

theorem Lost.run {s : AdminConnection} {cmds : List Bytes} (h : Lost s cmds) (chunks : List Bytes) :
    ∃ s', chunks.foldlM AdminConnection.onRead s = .ok s' ∧ Lost s' cmds := by
  induction chunks generalizing s with
  | nil => exact ⟨s, rfl, h⟩
  | cons c cs ih =>
    obtain ⟨s', hs', h'⟩ := h.onRead c
    rw [List.foldlM_cons, hs']
    exact ih h'

theorem InStep.run {s : AdminConnection} {stream : Bytes} (h : InStep s stream)
    (chunks : List Bytes) :
    ∃ s', chunks.foldlM AdminConnection.onRead s = .ok s' ∧
      (Framed stream chunks → InStep s' (stream ++ chunks.flatten)) ∧
      (¬ Framed stream chunks → Lost s' (commands (stream ++ chunks.flatten))) := by
  induction chunks generalizing s stream with
  | nil =>
    refine ⟨s, rfl, fun _ => by simpa using h, fun hf => absurd (fun e c l hc => ?_) hf⟩
    simp at hc
  | cons c cs ih =>
    obtain ⟨s', hs', hgood, hbad⟩ := h.onRead c
    rw [List.foldlM_cons, hs', framed_cons, List.flatten_cons, ← List.append_assoc]
    by_cases hread : Stays stream → FramedRead (unfinished newline stream ++ c)
    · obtain ⟨s'', hs'', hgood', hbad'⟩ := ih (hgood hread)
      exact ⟨s'', hs'', fun hf => hgood' hf.2, fun hf => hbad' fun h' => hf ⟨hread, h'⟩⟩
    · obtain ⟨s'', hs'', hlost⟩ := (hbad hread).run cs
      exact ⟨s'', hs'', fun hf => absurd hf.1 hread,
        fun _ => hlost.mono (commands_isPrefix _ _)⟩

/-- **When the commands are the lines of the stream.** However the stream is cut into reads, the
commands executed are its lines up to the first `quit`, and all that is left of an open connection is
the unfinished line, if and only if every line is read as it is: when its newline arrives, less than
1024 bytes are pending from its start on, or it starts with the byte 0 and is shorter than that. -/
theorem admin_framed_iff (chunks : List Bytes) :
    ∃ s, run chunks = .ok s ∧
      (s.executed = commands chunks.flatten ∧
          (s.conn.opened = true → s.conn.incoming = unfinished newline chunks.flatten) ↔
        Framed [] chunks) := by
  have hnew : InStep new [] := rfl
  obtain ⟨s, hs, hgood, hbad⟩ := hnew.run chunks
  rw [List.nil_append] at hgood hbad
  refine ⟨s, hs, fun h => ?_, fun h => ?_⟩
  · by_contra hf
    exact (hbad hf).ne h.1
  · rw [hgood h]
    refine ⟨rfl, fun hopen => ?_⟩
    unfold connAfter at hopen ⊢
    split_ifs at hopen ⊢ with hstays
    rfl

/-- `help` and 1020 other bytes in one read: the command has lost its first byte. -/
theorem admin_overwrites :
    ¬ ∀ chunks : List Bytes, ∀ s, run chunks = .ok s → s.executed = commands chunks.flatten := by
  intro h
  have hrun : run [bytes "help" ++ newline :: List.replicate 1020 (byte 'x')] =
      .ok ⟨⟨true, List.replicate 1020 (byte 'x')⟩, [0 :: bytes "elp"]⟩ := by decide +kernel
  have hcmd : commands [bytes "help" ++ newline :: List.replicate 1020 (byte 'x')].flatten =
      [bytes "help"] := by decide +kernel
  have := (h _ _ hrun).trans hcmd
  revert this
  decide

end AdminConnection

end Istatd
