import Istatd.Framing

/-!
# The commands of a datagram

`on_udp_recv` looks for the newlines of a datagram itself.  A command is made of what stands between
`base` and a newline, and `base` is moved behind the newline only where a command is made.  A line of
one character or none makes no command, so it stays in front of the line that follows it.

* `onUdpRecv`, with a handler of commands as in `handleInputData`;
* `joinShort`: the commands in terms of the lines of the datagram, `udpLoop_spec`;
* `udpCommands_agree_iff`: when they are the commands a connection would make of the same bytes.
-/

namespace Istatd

open Lines

/-- `sizeof(udpBuffer_)`. -/
def udpBufferSize : ℕ := 65536

section Template

variable {σ : Type}

/-- The loop of `on_udp_recv` over the characters `rest` of `s` from `off` on. -/
def udpLoop (h : σ → Bytes → HandleStatus × σ) (s : Bytes) : Bytes → ℕ → ℕ → σ → σ
  | [], _, _, t => t
  | ch :: rest, base, off, t =>
    if ch = newline then
      if base + 1 < off then
        let cmd := (s.drop base).take (off - base)
        udpLoop h s rest (off + 1) (off + 1) (h t cmd).2
      else udpLoop h s rest base (off + 1) t
    else udpLoop h s rest base (off + 1) t

/-- `on_udp_recv` of a datagram received without error, and whether it was a good one. -/
def onUdpRecv (h : σ → Bytes → HandleStatus × σ) (t : σ) (d : Bytes) : Bool × σ :=
  if d.length < 5 ∨ udpBufferSize < d.length ∨ d.getLast? ≠ some newline then (false, t)
  else (true, udpLoop h d d 0 0 t)

/-! ### Lines -/

/-- The commands made of lines, `kept` being what stands in front of them. -/
def joinShort : Bytes → List Bytes → List Bytes
  | _, [] => []
  | kept, l :: ls =>
    if 1 < (kept ++ l).length then (kept ++ l) :: joinShort [] ls
    else joinShort (kept ++ l ++ [newline]) ls

/-- The handler called with one command after the other. -/
def handleAll (h : σ → Bytes → HandleStatus × σ) (t : σ) (cmds : List Bytes) : σ :=
  cmds.foldl (fun t cmd => (h t cmd).2) t

/-- **The loop of `on_udp_recv`.**  It has kept the short lines `kept`, and is in a line of which it
has seen `cur`. -/
theorem udpLoop_spec (h : σ → Bytes → HandleStatus × σ) (t : σ) {s pre kept cur rest : Bytes}
    {base off : ℕ} (hs : s = pre ++ kept ++ cur ++ rest) (hbase : base = pre.length)
    (hoff : off = pre.length + kept.length + cur.length) (hcur : newline ∉ cur) :
    udpLoop h s rest base off t =
      handleAll h t (joinShort kept (lines newline (cur ++ rest))) := by
  induction rest generalizing pre kept cur base off t with
  | nil =>
    rw [List.append_nil, lines_of_not_mem hcur]
    rfl
  | cons ch rest ih =>
    rw [udpLoop]
    by_cases hch : ch = newline
    · subst hch
      have hcmd : (s.drop base).take (off - base) = kept ++ cur := by
        have hlen : off - base = (kept ++ cur).length := by
          rw [List.length_append]
          omega
        rw [hlen, hbase, hs, List.append_assoc, List.append_assoc, List.drop_left,
          ← List.append_assoc, List.take_left]
      have hlen : base + 1 < off ↔ 1 < (kept ++ cur).length := by
        rw [List.length_append]
        omega
      rw [if_pos rfl, lines_line_append hcur, joinShort]
      by_cases hlong : 1 < (kept ++ cur).length
      · have hs' : s = (pre ++ kept ++ cur ++ [newline]) ++ [] ++ [] ++ rest := by simp [hs]
        have hoff' : off + 1 = (pre ++ kept ++ cur ++ [newline]).length := by
          simp [hoff]
          omega
        rw [if_pos (hlen.2 hlong), if_pos hlong, hcmd, ih _ hs' hoff' hoff' List.not_mem_nil]
        rfl
      · have hs' : s = pre ++ (kept ++ cur ++ [newline]) ++ [] ++ rest := by simp [hs]
        have hoff' : off + 1 = pre.length + (kept ++ cur ++ [newline]).length + 0 := by
          simp [hoff]
          omega
        rw [if_neg (hlen.not.2 hlong), if_neg hlong, ih t hs' hbase hoff' List.not_mem_nil]
        rfl
    · have hs' : s = pre ++ kept ++ (cur ++ [ch]) ++ rest := by simp [hs]
      have hoff' : off + 1 = pre.length + kept.length + (cur ++ [ch]).length := by
        simp [hoff]
        omega
      rw [if_neg hch, ih t hs' hbase hoff' (by simp [hcur, Ne.symm hch])]
      simp

end Template

/-- A good datagram. -/
def GoodDatagram (d : Bytes) : Prop :=
  5 ≤ d.length ∧ d.length ≤ udpBufferSize ∧ d.getLast? = some newline

instance (d : Bytes) : Decidable (GoodDatagram d) :=
  inferInstanceAs (Decidable (_ ∧ _ ∧ _))

variable {d : Bytes}

theorem onUdpRecv_of_good {σ : Type} {h : σ → Bytes → HandleStatus × σ} {t : σ}
    (hd : GoodDatagram d) :
    onUdpRecv h t d = (true, handleAll h t (joinShort [] (lines newline d))) := by
  obtain ⟨h5, hfit, hlast⟩ := hd
  have hgood : ¬(d.length < 5 ∨ udpBufferSize < d.length ∨ d.getLast? ≠ some newline) := by
    simp only [not_or, not_lt, ne_eq, not_not]
    exact ⟨h5, hfit, hlast⟩
  have hs : d = [] ++ [] ++ [] ++ d := rfl
  have hloop := udpLoop_spec h t hs rfl rfl List.not_mem_nil
  rw [onUdpRecv, if_neg hgood]
  exact congrArg (Prod.mk true) hloop

/-! ### Two ways to the same commands -/

/-- `StatServer::handleCmd` of a server without blacklist, of which the commands are kept. -/
def recordCmd (cmds : List Bytes) (cmd : Bytes) : HandleStatus × List Bytes :=
  (if cmd = [] then .unhandled else .success, cmds ++ [cmd])

theorem handleAll_recordCmd (before cmds : List Bytes) :
    handleAll recordCmd before cmds = before ++ cmds := by
  induction cmds generalizing before with
  | nil => exact (List.append_nil before).symm
  | cons cmd cmds ih => exact (ih (before ++ [cmd])).trans (List.append_assoc before [cmd] cmds)

/-- What `on_udp_recv` passes to `handleCmd` for a datagram. -/
def udpCommands (d : Bytes) : List Bytes := (onUdpRecv recordCmd [] d).2

theorem udpCommands_eq (hd : GoodDatagram d) :
    udpCommands d = joinShort [] (lines newline d) := by
  rw [udpCommands, onUdpRecv_of_good hd, handleAll_recordCmd, List.nil_append]

theorem onUdpRecv_of_not_good (hd : ¬GoodDatagram d) {σ : Type}
    {h : σ → Bytes → HandleStatus × σ} {t : σ} : onUdpRecv h t d = (false, t) := by
  have hbad : d.length < 5 ∨ udpBufferSize < d.length ∨ d.getLast? ≠ some newline := by
    by_contra hgood
    simp only [not_or, not_lt, ne_eq, not_not] at hgood
    exact hd hgood
  rw [onUdpRecv, if_pos hbad]

/-- The handler is called with the commands of the datagram, whatever it does. -/
theorem onUdpRecv_snd {σ : Type} (h : σ → Bytes → HandleStatus × σ) (t : σ) (d : Bytes) :
    (onUdpRecv h t d).2 = handleAll h t (udpCommands d) := by
  by_cases hd : GoodDatagram d
  · rw [onUdpRecv_of_good hd, udpCommands_eq hd]
  · rw [udpCommands, onUdpRecv_of_not_good hd, onUdpRecv_of_not_good hd]
    rfl

/-- What `handle_inputData` passes to `handleCmd` for the same bytes. -/
def tcpCommands (d : Bytes) : List Bytes :=
  match TcpInput.new.onRead d with
  | .ok t => t.handled
  | .error _ => []

theorem tcpCommands_eq (d : Bytes) : tcpCommands d = lines newline d := by
  have hopen : TcpInput.new.conn.opened = true := rfl
  rw [tcpCommands, TcpInput.onRead_eq hopen]
  rfl

/-- After the lines of two characters or more comes at most one other line, or two empty ones. -/
def ShortLinesLast (ls : List Bytes) : Prop :=
  ∃ longs rest, ls = longs ++ rest ∧ (∀ l ∈ longs, 2 ≤ l.length) ∧
    (rest.length ≤ 1 ∨ rest = [[], []])

theorem shortLinesLast_cons_long {l : Bytes} {ls : List Bytes} (hl : 2 ≤ l.length) :
    ShortLinesLast (l :: ls) ↔ ShortLinesLast ls := by
  constructor
  · rintro ⟨longs, rest, h, hlongs, hrest⟩
    cases longs with
    | nil =>
      obtain rfl : l :: ls = rest := h
      rcases hrest with hrest | hrest
      · exact ⟨[], ls, rfl, by simp, .inl (by simp at hrest; simp [hrest])⟩
      · rw [(List.cons.inj hrest).1] at hl
        simp at hl
    | cons l' longs =>
      obtain ⟨-, rfl⟩ := List.cons.inj h
      exact ⟨longs, rest, rfl, fun x hx => hlongs x (List.mem_cons_of_mem _ hx), hrest⟩
  · rintro ⟨longs, rest, rfl, hlongs, hrest⟩
    exact ⟨l :: longs, rest, rfl, List.forall_mem_cons.2 ⟨hl, hlongs⟩, hrest⟩

theorem shortLinesLast_cons_short {l : Bytes} {ls : List Bytes} (hl : l.length < 2) :
    ShortLinesLast (l :: ls) ↔ ls = [] ∨ (l = [] ∧ ls = [[]]) := by
  constructor
  · rintro ⟨longs, rest, h, hlongs, hrest⟩
    cases longs with
    | nil =>
      obtain rfl : l :: ls = rest := h
      rcases hrest with hrest | hrest
      · exact .inl (by simpa using hrest)
      · exact .inr (by simpa using hrest)
    | cons l' longs =>
      obtain ⟨rfl, -⟩ := List.cons.inj h
      exact absurd (hlongs l List.mem_cons_self) (by omega)
  · rintro (rfl | ⟨rfl, rfl⟩)
    · exact ⟨[], [l], rfl, by simp, .inl (by simp)⟩
    · exact ⟨[], [[], []], rfl, by simp, .inr rfl⟩

/-- Behind a short line the next command starts with it and its newline. -/
theorem joinShort_kept {kept : Bytes} (hkept : 2 ≤ kept.length) (hnl : newline ∈ kept)
    (ls : List Bytes) :
    (∀ cmd ∈ joinShort kept ls, newline ∉ cmd) ↔ ls = [] := by
  cases ls with
  | nil => simp [joinShort]
  | cons l ls =>
    have hlong : 1 < (kept ++ l).length := by
      rw [List.length_append]
      omega
    rw [joinShort, if_pos hlong]
    simp [hnl]

/-- The commands are the long lines just when no line follows a short one. -/
theorem joinShort_agrees_iff {ls : List Bytes} (hls : ∀ l ∈ ls, newline ∉ l) :
    (joinShort [] ls = ls.filter (2 ≤ ·.length) ∧
      ∀ cmd ∈ joinShort [] ls, newline ∉ cmd ∧ cmd ∈ ls) ↔ ShortLinesLast ls := by
  induction ls with
  | nil => simpa [joinShort] using ⟨[], [], rfl, by simp, .inl (by simp)⟩
  | cons l ls ih =>
    obtain ⟨hl, hls⟩ := List.forall_mem_cons.1 hls
    by_cases hlong : 2 ≤ l.length
    · have hone : 1 < l.length := hlong
      rw [shortLinesLast_cons_long hlong, ← ih hls]
      simp only [joinShort, List.nil_append, hone, if_true, List.filter_cons, hlong, decide_true,
        List.cons.injEq, true_and, List.forall_mem_cons]
      refine and_congr_right fun hagree => ?_
      constructor
      · rintro ⟨-, h⟩ cmd hcmd
        rw [hagree] at hcmd
        exact ⟨(h cmd (hagree ▸ hcmd)).1, List.mem_of_mem_filter hcmd⟩
      · intro h
        exact ⟨⟨hl, List.mem_cons_self⟩, fun cmd hcmd =>
          ⟨(h cmd hcmd).1, List.mem_cons_of_mem _ (h cmd hcmd).2⟩⟩
    · have hone : ¬1 < l.length := hlong
      rw [shortLinesLast_cons_short (not_le.1 hlong)]
      simp only [joinShort, List.nil_append, hone, if_false, List.filter_cons, hlong, decide_false,
        Bool.false_eq_true]
      cases ls with
      | nil => simp [joinShort]
      | cons l' ls =>
        by_cases hempty : l = [] ∧ l' = []
        · obtain ⟨rfl, rfl⟩ := hempty
          have hkept : (∀ cmd ∈ joinShort [newline, newline] ls, newline ∉ cmd) ↔ ls = [] :=
            joinShort_kept (by simp) (by simp) ls
          simp only [joinShort, List.nil_append, List.append_nil, List.length_singleton, lt_irrefl,
            if_false, List.singleton_append, true_and, List.cons.injEq, reduceCtorEq, false_or]
          constructor
          · rintro ⟨-, h⟩
            exact hkept.1 fun cmd hcmd => (h cmd hcmd).1
          · rintro rfl
            simp [joinShort]
        · have hlen : 1 < (l ++ [newline] ++ l').length := by
            simp only [not_and_or, ← List.length_pos_iff] at hempty
            simp only [List.length_append, List.length_singleton]
            omega
          have hright : ¬(l' :: ls = [] ∨ l = [] ∧ l' :: ls = [[]]) := by
            rintro (h | ⟨h, h'⟩)
            · exact List.cons_ne_nil _ _ h
            · exact hempty ⟨h, (List.cons.inj h').1⟩
          simp only [joinShort, hlen, if_true, hright, iff_false, List.forall_mem_cons]
          rintro ⟨-, ⟨hcmd, -⟩, -⟩
          simp at hcmd

/-- **When UDP and TCP agree.**  The commands of a good datagram are those a connection makes of its
bytes, without the lines of length 0 or 1, and none has a newline or bytes of another line, just when
no line follows one of length 0 or 1, or two empty lines end the datagram. -/
theorem udpCommands_agree_iff (d : Bytes) (hd : GoodDatagram d) :
    (udpCommands d = (tcpCommands d).filter (2 ≤ ·.length) ∧
      ∀ cmd ∈ udpCommands d, newline ∉ cmd ∧ cmd ∈ tcpCommands d) ↔
    ShortLinesLast (lines newline d) := by
  rw [udpCommands_eq hd, tcpCommands_eq]
  exact joinShort_agrees_iff fun l hl => not_mem_of_mem_lines hl

/-- The datagram `abc`, an empty line, `de`. -/
def blankLineDatagram : Bytes := [97, 98, 99, 10, 10, 100, 101, 10]

/-- The empty line is in front of the command behind it. -/
theorem blankLineDatagram_disagrees :
    GoodDatagram blankLineDatagram ∧
      udpCommands blankLineDatagram = [[97, 98, 99], [10, 100, 101]] ∧
      tcpCommands blankLineDatagram = [[97, 98, 99], [], [100, 101]] ∧
      ¬(udpCommands blankLineDatagram = (tcpCommands blankLineDatagram).filter (2 ≤ ·.length) ∧
        ∀ cmd ∈ udpCommands blankLineDatagram,
          newline ∉ cmd ∧ cmd ∈ tcpCommands blankLineDatagram) := by
  decide +kernel

/-- Two commands, and an empty line at the end. -/
theorem udpCommands_agree_sample :
    udpCommands [97, 98, 10, 99, 100, 10, 10] =
      (tcpCommands [97, 98, 10, 99, 100, 10, 10]).filter (2 ≤ ·.length) := by
  have hd : GoodDatagram [97, 98, 10, 99, 100, 10, 10] := by decide
  refine ((udpCommands_agree_iff _ hd).2 ⟨[[97, 98], [99, 100]], [[]], ?_, ?_, ?_⟩).1
  · decide
  · decide
  · exact .inl (by decide)

end Istatd
