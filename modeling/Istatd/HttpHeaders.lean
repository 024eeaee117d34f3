import Istatd.Lib.SortedMap
import Istatd.StrFunc

/-!
# The headers of a request (`HttpRequest::on_header`)

A read ends with the first empty line, and may get more bytes than that.  `on_header` goes through all
bytes that were received, from the fourth one on and up to the last two, and parses the lines; it ends
at the first empty line it comes to.  The last bound is a difference of unsigned numbers that the
position is compared with for equality.

* `HttpRequest.headerLoop`: the loop, which fails where it looks behind the bytes received;
* `headerLoop_spec`: it ends at the first empty line from the third byte on, if there is one;
* `onHeader_finds_iff`: when that is the one with which the read ended.
-/

namespace Istatd

/-! ### The data of a request -/

/-- The fields of `HttpRequest`. -/
structure HttpRequest where
  headers : List (Bytes × Bytes)
  method : Bytes
  url : Bytes
  version : Bytes
  headerData : Bytes
  headerSize : ℕ
  bodyRead : ℕ
  bodyData : Bytes
  deriving DecidableEq

/-- What a handler of a read does: it fires an event, or calls `error`. -/
inductive HttpEvent
  | onHeader
  | onBody
  | error
  deriving DecidableEq

/-- The loop looks behind the data, or does not end in the given number of rounds. -/
inductive HeaderFault
  | outside
  | rounds
  deriving DecidableEq

namespace HttpRequest

/-- A request on a new connection. -/
def empty : HttpRequest := ⟨[], [], [], [], [], 0, 0, []⟩

/-- A key of `headers_`. -/
def headerKey (key : Bytes) : Bytes := (munge key).map toLower

/-- `HttpRequest::header`. -/
def header (r : HttpRequest) (key : Bytes) : Option Bytes := r.headers.lookup (headerKey key)

/-- `HttpRequest::parseMethod`. -/
def parseMethod (r : HttpRequest) (data : Bytes) : HttpRequest :=
  let parts := (split data (byte ' ')).2
  let parts' := (split (trim parts.2) (byte ' ')).2
  { r with method := parts.1, url := parts'.1, version := parts'.2 }

/-- `HttpRequest::parseHeader`. -/
def parseHeader (r : HttpRequest) (data : Bytes) : HttpRequest :=
  let parts := (split data (byte ':')).2
  let left := headerKey parts.1
  let right := (r.headers.lookup left).getD [] ++ trim parts.2
  { r with headers := SortedMap.insert keyRank left right r.headers }

@[simp] theorem headerSize_parseMethod (r : HttpRequest) (data : Bytes) :
    (r.parseMethod data).headerSize = r.headerSize := rfl

@[simp] theorem headerSize_parseHeader (r : HttpRequest) (data : Bytes) :
    (r.parseHeader data).headerSize = r.headerSize := rfl

/-! ### The loop -/

/-- `headerData_[k]`.  The byte behind the last one is 0, and there are none behind that. -/
def byteAt (data : Bytes) (k : ℕ) : Except HeaderFault UInt8 :=
  match (data ++ [0])[k]? with
  | some c => .ok c
  | none => .error .outside

/-- A line ends at the position `p`, and the next one does not begin with a blank. -/
def lineEnds (data : Bytes) (p : ℕ) : Except HeaderFault Bool := do
  if (← byteAt data p) ≠ 10 then return false
  if (← byteAt data (p - 1)) ≠ 13 then return false
  return (← byteAt data (p + 1)) ≠ byte ' '

/-- The line behind the position `p` is empty. -/
def headersEnd (data : Bytes) (p : ℕ) : Except HeaderFault Bool := do
  if (← byteAt data (p + 1)) ≠ 13 then return false
  return (← byteAt data (p + 2)) = 10

/-- `n-2`, as a `size_t`. -/
def headerStop (n : ℕ) : ℕ := if 2 ≤ n then n - 2 else n + 2 ^ 64 - 2

/-- The bytes from `b` on, up to the `\r` before the position `p`. -/
def headerLine (data : Bytes) (b p : ℕ) : Bytes := (data.drop b).take (p - 1 - b)

/-- The variables of the loop. -/
structure HeaderScan where
  first : Bool
  b : ℕ
  request : HttpRequest

/-- The loop of `on_header` from the position `p` on, for a number of rounds. -/
def headerLoop (data : Bytes) : ℕ → ℕ → HeaderScan → Except HeaderFault HttpRequest
  | 0, _, _ => .error .rounds
  | n + 1, p, s =>
    if p = headerStop data.length then .ok s.request
    else do
      if ← lineEnds data p then
        let line := headerLine data s.b p
        if ← headersEnd data p then
          -- the final header, if it exists
          let r := if s.b < p then s.request.parseHeader line else s.request
          return { r with headerSize := p + 3 }
        else if s.first then headerLoop data n (p + 1) ⟨false, p + 1, s.request.parseMethod line⟩
        else headerLoop data n (p + 1) ⟨false, p + 1, s.request.parseHeader line⟩
      else headerLoop data n (p + 1) s

/-- `HttpRequest::on_header`, with the bytes of the buffer `header_`.  Every round goes one byte
further, so that the loop has ended or failed after the given number of rounds. -/
def onHeader (r : HttpRequest) (err : Bool) (xfer : ℕ) (data : Bytes) :
    Except HeaderFault (HttpRequest × HttpEvent) :=
  if err then .ok (r, .error)
  else do
    let r := { r with headerSize := xfer, headerData := data }
    let r ← headerLoop data (data.length + 2) 3 ⟨true, 0, r⟩
    if r.version.length = 0 ∨ r.headers.length = 0 ∨ r.headerSize = 0 then return (r, .error)
    return (r, .onHeader)

/-! ### Empty lines -/

/-- `"\r\n\r\n"`. -/
def terminator : Bytes := [13, 10, 13, 10]

/-- The empty line begins at the position `j`, with the end of the line before it. -/
def TerminatorAt (data : Bytes) (j : ℕ) : Prop := terminator <+: data.drop j

instance (data : Bytes) (j : ℕ) : Decidable (TerminatorAt data j) :=
  inferInstanceAs (Decidable (_ <+: _))

/-- The first one from the position `lo` on. -/
def FirstTerminator (data : Bytes) (lo j : ℕ) : Prop :=
  (lo ≤ j ∧ TerminatorAt data j) ∧ ∀ k, lo ≤ k → k < j → ¬ TerminatorAt data k

variable {data rest : Bytes} {a b c d : UInt8} {j lo q : ℕ}

theorem TerminatorAt.le_length (h : TerminatorAt data j) : j + 4 ≤ data.length := by
  have hle := h.length_le
  have hterm : terminator.length = 4 := rfl
  rw [List.length_drop, hterm] at hle
  omega

theorem exists_drop_eq (h : q + 4 ≤ data.length) :
    ∃ a b c d rest, data.drop q = a :: b :: c :: d :: rest := by
  have hlen : 4 ≤ (data.drop q).length := by
    rw [List.length_drop]
    omega
  match data.drop q, hlen with
  | a :: b :: c :: d :: rest, _ => exact ⟨a, b, c, d, rest, rfl⟩

theorem terminatorAt_iff (h : data.drop q = a :: b :: c :: d :: rest) :
    TerminatorAt data q ↔ (b = 10 ∧ a = 13) ∧ c = 13 ∧ d = 10 := by
  unfold TerminatorAt terminator
  rw [h]
  simp only [List.cons_prefix_cons, List.nil_prefix, and_true]
  constructor
  · rintro ⟨rfl, rfl, rfl, rfl⟩
    exact ⟨⟨rfl, rfl⟩, rfl, rfl⟩
  · rintro ⟨⟨rfl, rfl⟩, rfl, rfl⟩
    exact ⟨rfl, rfl, rfl, rfl⟩

theorem byteAt_of_drop {l : Bytes} (h : data.drop q = l) {k : ℕ} (hk : l[k]? = some c) :
    byteAt data (q + k) = .ok c := by
  subst h
  rw [List.getElem?_drop] at hk
  unfold byteAt
  rw [List.getElem?_append_left (List.getElem?_eq_some_iff.1 hk).1, hk]

theorem lineEnds_eq (h : data.drop q = a :: b :: c :: d :: rest) :
    lineEnds data (q + 1) = .ok (decide ((b = 10 ∧ a = 13) ∧ c ≠ byte ' ')) := by
  have ha : byteAt data (q + 1 - 1) = .ok a := byteAt_of_drop h (k := 0) rfl
  have hb : byteAt data (q + 1) = .ok b := byteAt_of_drop h (k := 1) rfl
  have hc : byteAt data (q + 1 + 1) = .ok c := byteAt_of_drop h (k := 2) rfl
  unfold lineEnds
  rw [ha, hb, hc]
  by_cases hb10 : b = 10
  · by_cases ha13 : a = 13
    · simp [bind, Except.bind, pure, Except.pure, hb10, ha13]
    · simp [bind, Except.bind, pure, Except.pure, hb10, ha13]
  · simp [bind, Except.bind, pure, Except.pure, hb10]

theorem headersEnd_eq (h : data.drop q = a :: b :: c :: d :: rest) :
    headersEnd data (q + 1) = .ok (decide (c = 13 ∧ d = 10)) := by
  have hc : byteAt data (q + 1 + 1) = .ok c := byteAt_of_drop h (k := 2) rfl
  have hd : byteAt data (q + 1 + 2) = .ok d := byteAt_of_drop h (k := 3) rfl
  unfold headersEnd
  rw [hc, hd]
  by_cases hc13 : c = 13
  · simp [bind, Except.bind, pure, Except.pure, hc13]
  · simp [bind, Except.bind, pure, Except.pure, hc13]

/-- The first empty line from `q` on is there, or is the first one from `q + 1` on. -/
theorem FirstTerminator.of_succ (h : FirstTerminator data (q + 1) j)
    (hq : ¬ TerminatorAt data q) : FirstTerminator data q j := by
  refine ⟨⟨(Nat.le_succ q).trans h.1.1, h.1.2⟩, fun k hk hkj => ?_⟩
  rcases hk.eq_or_lt with rfl | hlt
  · exact hq
  · exact h.2 k hlt hkj

/-- What the loop should find from the position `q` on: the end of the first empty line, and nothing
if there is none. -/
def Finds (data : Bytes) (q size size' : ℕ) : Prop :=
  ((∀ j, q ≤ j → ¬ TerminatorAt data j) ∧ size' = size) ∨
    ∃ j, FirstTerminator data q j ∧ size' = j + 4

theorem Finds.of_succ {size size' : ℕ} (h : Finds data (q + 1) size size')
    (hq : ¬ TerminatorAt data q) : Finds data q size size' := by
  rcases h with ⟨hnone, hsize⟩ | ⟨j, hj, hsize⟩
  · refine Or.inl ⟨fun j hj => ?_, hsize⟩
    rcases hj.eq_or_lt with rfl | hlt
    · exact hq
    · exact hnone j hlt
  · exact Or.inr ⟨j, hj.of_succ hq, hsize⟩

/-- **The loop** ends without looking behind the data, if there are enough of them. -/
theorem headerLoop_spec {n : ℕ} {s : HeaderScan} (hq : q + 3 ≤ data.length)
    (hn : data.length < q + 3 + n) :
    ∃ r, headerLoop data n (q + 1) s = .ok r ∧
      Finds data q s.request.headerSize r.headerSize := by
  induction n generalizing q s with
  | zero => omega
  | succ n ih =>
    unfold headerLoop
    have hstop : headerStop data.length = data.length - 2 := if_pos (by omega)
    rw [hstop]
    by_cases hend : q + 1 = data.length - 2
    · rw [if_pos hend]
      refine ⟨s.request, rfl, Or.inl ⟨fun j hj h => ?_, rfl⟩⟩
      have := h.le_length
      omega
    rw [if_neg hend]
    obtain ⟨a, b, c, d, rest, h⟩ := exists_drop_eq (by omega : q + 4 ≤ data.length)
    have hterm := terminatorAt_iff h
    rw [lineEnds_eq h, headersEnd_eq h]
    have hgo : ∀ s', ∃ r, headerLoop data n (q + 1 + 1) s' = .ok r ∧
        Finds data (q + 1) s'.request.headerSize r.headerSize :=
      fun s' => ih (by omega) (by omega)
    by_cases hline : (b = 10 ∧ a = 13) ∧ c ≠ byte ' '
    · by_cases hempty : c = 13 ∧ d = 10
      · rw [decide_eq_true hline, decide_eq_true hempty]
        refine ⟨_, rfl, Or.inr ⟨q, ?_, rfl⟩⟩
        exact ⟨⟨le_rfl, hterm.2 ⟨hline.1, hempty⟩⟩, fun k hk hkq => absurd hk hkq.not_ge⟩
      · have hnot : ¬ TerminatorAt data q := fun ht => hempty (hterm.1 ht).2
        rw [decide_eq_true hline, decide_eq_false hempty]
        cases s.first with
        | true =>
          obtain ⟨r, hr, hfinds⟩ := hgo ⟨false, q + 1 + 1, s.request.parseMethod
            (headerLine data s.b (q + 1))⟩
          exact ⟨r, hr, hfinds.of_succ hnot⟩
        | false =>
          obtain ⟨r, hr, hfinds⟩ := hgo ⟨false, q + 1 + 1, s.request.parseHeader
            (headerLine data s.b (q + 1))⟩
          exact ⟨r, hr, hfinds.of_succ hnot⟩
    · have hnot : ¬ TerminatorAt data q := fun ht => by
        obtain ⟨hba, rfl, -⟩ := hterm.1 ht
        exact hline ⟨hba, by decide⟩
      rw [decide_eq_false hline]
      obtain ⟨r, hr, hfinds⟩ := hgo s
      exact ⟨r, hr, hfinds.of_succ hnot⟩

/-! ### The handler -/

/-- The handler ends without looking behind the data, and `headerSize_` is the position behind the
empty line at `i`. -/
def EndsAt (result : Except HeaderFault (HttpRequest × HttpEvent)) (i : ℕ) : Prop :=
  ∃ r e, result = .ok (r, e) ∧ r.headerSize = i + 4

/-- There are four bytes: the loop goes past its end. -/
theorem onHeader_terminator (r : HttpRequest) (xfer : ℕ) :
    r.onHeader false xfer terminator = .error .outside := rfl

theorem exists_onHeader (r : HttpRequest) {xfer : ℕ} {r' : HttpRequest}
    (h : headerLoop data (data.length + 2) 3 ⟨true, 0, { r with
      headerSize := xfer, headerData := data }⟩ = .ok r') :
    ∃ e, r.onHeader false xfer data = .ok (r', e) := by
  unfold onHeader
  simp only [Bool.false_eq_true, if_false, h, bind, Except.bind]
  split_ifs
  · exact ⟨_, rfl⟩
  · exact ⟨_, rfl⟩

/-- **When the handler finds the empty line** with which the read ended, which is the first one: if
there is more than this line, and either it does not begin at the first two bytes or there is no
other one behind them. -/
theorem onHeader_finds_iff {i : ℕ} (h : FirstTerminator data 0 i) (r : HttpRequest) :
    EndsAt (r.onHeader false (i + 4) data) i ↔
      data ≠ terminator ∧ (2 ≤ i ∨ ∀ j, 2 ≤ j → ¬ TerminatorAt data j) := by
  by_cases hdata : data = terminator
  · subst hdata
    refine iff_of_false ?_ fun hne => hne.1 rfl
    rintro ⟨r', e, hr, -⟩
    rw [onHeader_terminator] at hr
    cases hr
  have hlen : 5 ≤ data.length := by
    have hle := h.1.2.length_le
    have hlength := h.1.2.le_length
    by_contra hshort
    -- the four bytes would be the empty line
    have hi : i = 0 := by omega
    subst hi
    have hterm : terminator.length = 4 := rfl
    exact hdata (h.1.2.eq_of_length (by rw [hterm, List.length_drop]; omega)).symm
  obtain ⟨r', hr, hfinds⟩ := headerLoop_spec (q := 2) (n := data.length + 2)
    (s := ⟨true, 0, { r with headerSize := i + 4, headerData := data }⟩) (by omega) (by omega)
  obtain ⟨e, he⟩ := exists_onHeader r hr
  rw [and_iff_right hdata, he]
  have hends : EndsAt (.ok (r', e)) i ↔ r'.headerSize = i + 4 := by
    constructor
    · rintro ⟨r'', e', heq, hsize⟩
      cases heq
      exact hsize
    · exact fun hsize => ⟨r', e, rfl, hsize⟩
  rw [hends]
  rcases hfinds with ⟨hnone, hsize⟩ | ⟨j, hj, hsize⟩
  · exact iff_of_true hsize (Or.inr hnone)
  · rw [hsize, add_left_inj]
    constructor
    · rintro rfl
      exact Or.inl hj.1.1
    · rintro (hi | hnone)
      · by_contra hne
        rcases lt_or_gt_of_ne hne with hlt | hlt
        · exact h.2 j (Nat.zero_le j) hlt hj.1.2
        · exact hj.2 i hi hlt h.1.2
      · exact absurd hj.1.2 (hnone j hj.1.1)

/-- A request with one header and the first byte of a body. -/
theorem onHeader_finds_sample :
    EndsAt (empty.onHeader false 17 (bytes "GET / 1\r\nA: b\r\n\r\nx")) 13 := by
  refine (onHeader_finds_iff ⟨⟨by decide, by decide⟩, by decide⟩ empty).2 ⟨by decide, Or.inl ?_⟩
  decide

/-- Nothing but an empty line: the loop looks behind the data. -/
theorem onHeader_outside :
    FirstTerminator terminator 0 0 ∧ ¬ EndsAt (empty.onHeader false 4 terminator) 0 := by
  refine ⟨⟨⟨le_rfl, by decide⟩, fun k _ hk => absurd hk (Nat.not_lt_zero k)⟩, ?_⟩
  rintro ⟨r, e, hr, -⟩
  rw [onHeader_terminator] at hr
  cases hr

end HttpRequest

end Istatd
