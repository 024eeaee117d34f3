import Istatd.HttpHeaders

/-!
# The body of a request (`HttpRequest::readBody`)

The bytes behind the headers that came with them are the beginning of the body, and `readBody` reads
the others.  `on_body` gets the error of this read, if there is one, and the number of its bytes; it
calls `error` only if there are some bytes and the error is not the end of the connection, and takes
the body to be complete otherwise.

* `readBody_eq`: what `readBody` keeps and what it reads;
* `body_complete_iff`: when no body is handed on that is not complete.
-/

namespace Istatd

/-- An error of a read: the connection was closed by the client, or any other one. -/
inductive ReadError
  | eof
  | other
  deriving DecidableEq

/-- How a read ends: with the bytes that were received, and with or without an error. -/
structure ReadOutcome where
  received : Bytes
  err : Option ReadError
  deriving DecidableEq

/-- `async_read` of a number of bytes: all of them, or an error. -/
def ReadOutcome.Documented (o : ReadOutcome) (toRead : ℕ) : Prop :=
  o.received.length ≤ toRead ∧ (o.err = none → o.received.length = toRead)

/-- `resize` of a vector. -/
def resize (l : Bytes) (n : ℕ) : Bytes := l.take n ++ List.replicate (n - l.length) 0

/-- Bytes copied into a vector from the position `k` on. -/
def putAt (l : Bytes) (k : ℕ) (xs : Bytes) : Bytes := l.take k ++ xs ++ l.drop (k + xs.length)

theorem length_resize (l : Bytes) (n : ℕ) : (resize l n).length = n := by
  rw [resize, List.length_append, List.length_take, List.length_replicate]
  omega

theorem putAt_nil (l : Bytes) (k : ℕ) : putAt l k [] = l := by
  simp [putAt]

theorem length_putAt {l xs : Bytes} {k : ℕ} (h : k + xs.length ≤ l.length) :
    (putAt l k xs).length = l.length := by
  rw [putAt, List.length_append, List.length_append, List.length_take, List.length_drop]
  omega

theorem take_putAt (l xs : Bytes) : (putAt l 0 xs).take xs.length = xs := by
  simp [putAt]

namespace HttpRequest

/-- What `readBody` does: it throws, calls `on_body` at once, or begins to read. -/
inductive BodyStep
  | throws (what : String)
  | complete (r : HttpRequest)
  | reading (r : HttpRequest) (toRead : ℕ)
  deriving DecidableEq

/-- The first part of `readBody`: the bytes behind the headers copied to the beginning of the body, as
far as they belong to it. -/
def copyBody (r : HttpRequest) (len : ℕ) : HttpRequest :=
  let r := { r with bodyData := resize r.bodyData len, bodyRead := 0 }
  if r.headerSize < r.headerData.length ∧ 0 < len then
    let toCopy := r.headerData.length - r.headerSize
    let toCopy := if len < toCopy then len else toCopy
    let copied := (r.headerData.drop r.headerSize).take toCopy
    { r with bodyData := putAt r.bodyData 0 copied, bodyRead := toCopy }
  else r

/-- `HttpRequest::readBody`; `size` is the `boost::lexical_cast` to `size_t`. -/
def readBody (size : Bytes → Option ℕ) (isOpen : Bool) (r : HttpRequest) : BodyStep :=
  match r.header (bytes "Content-Length") with
  | none => .throws "Can't read body without content-length"
  | some cl =>
    match size cl with
    | none => .throws "bad lexical cast: source type value could not be interpreted as target"
    | some len =>
      let r := r.copyBody len
      let toRead := r.bodyData.length - r.bodyRead
      if toRead = 0 then .complete r
      else if isOpen then .reading r toRead
      else .throws "Socket is closed inside readBody()"

/-- `HttpRequest::on_body`. -/
def onBody (err : Option ReadError) (xfer : ℕ) : HttpEvent :=
  match err with
  | none => .onBody
  | some e => if 0 < xfer ∧ e ≠ .eof then .error else .onBody

/-- What `readBody` and the end of its read come to: an event, and what is in `bodyData_` then. -/
def bodyEvent (size : Bytes → Option ℕ) (isOpen : Bool) (r : HttpRequest) (o : ReadOutcome) :
    Option (HttpEvent × Bytes) :=
  match r.readBody size isOpen with
  | .throws _ => none
  | .complete r => some (onBody none 0, r.bodyData)
  | .reading r _ => some (onBody o.err o.received.length, putAt r.bodyData r.bodyRead o.received)

/-- The bytes behind the headers that came with them. -/
def behindHeaders (r : HttpRequest) : Bytes := r.headerData.drop r.headerSize

/-- The request has a `Content-Length` of `n`. -/
def HasLength (size : Bytes → Option ℕ) (r : HttpRequest) (n : ℕ) : Prop :=
  (r.header (bytes "Content-Length")).bind size = some n

/-- All of the body is handed on, or there is an error: `onBody_` is fired with the first `n` bytes
behind the headers, which were received, or else `error` is called. -/
def CompleteOrError (stream : Bytes) (n : ℕ) (result : Option (HttpEvent × Bytes)) : Prop :=
  ∃ event body, result = some (event, body) ∧
    (event = .onBody ∧ n ≤ stream.length ∧ body = stream.take n ∨ event = .error)

variable {size : Bytes → Option ℕ} {r : HttpRequest} {n : ℕ} {o : ReadOutcome}

/-- The request with the beginning of the body. -/
def withBeginning (r : HttpRequest) (n : ℕ) : HttpRequest :=
  { r with
    bodyData := putAt (resize r.bodyData n) 0 (r.behindHeaders.take n)
    bodyRead := min r.behindHeaders.length n }

theorem length_withBeginning (r : HttpRequest) (n : ℕ) :
    (r.withBeginning n).bodyData.length = n := by
  have hle : 0 + (r.behindHeaders.take n).length ≤ (resize r.bodyData n).length := by
    rw [length_resize, List.length_take]
    omega
  exact (length_putAt hle).trans (length_resize r.bodyData n)

theorem take_withBeginning (r : HttpRequest) (n : ℕ) :
    (r.withBeginning n).bodyData.take (r.withBeginning n).bodyRead = r.behindHeaders.take n := by
  have hread : (r.withBeginning n).bodyRead = (r.behindHeaders.take n).length := by
    rw [List.length_take, Nat.min_comm]
    rfl
  rw [hread]
  exact take_putAt _ _

theorem copyBody_eq (r : HttpRequest) (n : ℕ) : r.copyBody n = r.withBeginning n := by
  have hlen : r.behindHeaders.length = r.headerData.length - r.headerSize := List.length_drop
  unfold copyBody withBeginning
  simp only
  by_cases hcopy : r.headerSize < r.headerData.length ∧ 0 < n
  · rw [if_pos hcopy, ← hlen]
    show HttpRequest.mk _ _ _ _ _ _ _ (putAt _ 0 (r.behindHeaders.take _)) = _
    by_cases hlt : n < r.behindHeaders.length
    · rw [if_pos hlt, Nat.min_eq_right hlt.le]
    · rw [if_neg hlt, Nat.min_eq_left (not_lt.1 hlt), List.take_length,
        List.take_of_length_le (not_lt.1 hlt)]
  · rw [if_neg hcopy]
    -- there are no bytes behind the headers, or none belong to the body
    have htake : r.behindHeaders.take n = [] ∧ min r.behindHeaders.length n = 0 := by
      rw [← List.length_eq_zero_iff, List.length_take]
      omega
    rw [htake.1, htake.2, putAt_nil]

theorem readBody_eq (h : r.HasLength size n) :
    r.readBody size true =
      if n ≤ r.behindHeaders.length then .complete (r.withBeginning n)
      else .reading (r.withBeginning n) (n - r.behindHeaders.length) := by
  obtain ⟨cl, hcl, hsize⟩ := Option.bind_eq_some_iff.1 h
  have htoRead : (r.withBeginning n).bodyData.length - (r.withBeginning n).bodyRead =
      n - r.behindHeaders.length := by
    rw [length_withBeginning]
    show n - min _ n = _
    omega
  unfold readBody
  simp only [hcl, hsize]
  rw [copyBody_eq, htoRead]
  by_cases hle : n ≤ r.behindHeaders.length
  · rw [if_pos hle, if_pos (Nat.sub_eq_zero_of_le hle)]
  · rw [if_neg hle, if_neg (by omega), if_pos trivial]

/-- The body is complete with the bytes that came with the headers. -/
theorem bodyData_of_le (h : n ≤ r.behindHeaders.length) :
    (r.withBeginning n).bodyData = r.behindHeaders.take n := by
  have htake := take_withBeginning r n
  have hread : (r.withBeginning n).bodyRead = n := Nat.min_eq_right h
  rwa [hread, List.take_of_length_le (length_withBeginning r n).le] at htake

/-- The body is complete with the bytes of the read. -/
theorem putAt_received {xs : Bytes} (h : r.behindHeaders.length + xs.length = n) :
    putAt (r.withBeginning n).bodyData (r.withBeginning n).bodyRead xs = r.behindHeaders ++ xs := by
  have hread : (r.withBeginning n).bodyRead = r.behindHeaders.length :=
    Nat.min_eq_left (by omega)
  have hdrop : (r.withBeginning n).bodyData.drop (r.behindHeaders.length + xs.length) = [] :=
    List.drop_eq_nil_of_le ((length_withBeginning r n).trans h.symm).le
  unfold putAt
  rw [take_withBeginning, hread, hdrop, List.append_nil, List.take_of_length_le (by omega)]

theorem onBody_eq_error_iff {err : Option ReadError} {xfer : ℕ} :
    onBody err xfer = .error ↔ 0 < xfer ∧ err = some .other := by
  cases err with
  | none => simp [onBody]
  | some e => cases e <;> simp [onBody]

theorem onBody_eq_onBody_of_ne {err : Option ReadError} {xfer : ℕ} (h : onBody err xfer ≠ .error) :
    onBody err xfer = .onBody := by
  cases err with
  | none => rfl
  | some e =>
    unfold onBody at h ⊢
    simp only at h ⊢
    split_ifs at h ⊢
    · exact absurd rfl h
    · rfl

theorem bodyEvent_of_le (h : r.HasLength size n) (hle : n ≤ r.behindHeaders.length) :
    r.bodyEvent size true o = some (.onBody, r.behindHeaders.take n) := by
  unfold bodyEvent
  rw [readBody_eq h, if_pos hle, ← bodyData_of_le hle]
  rfl

theorem bodyEvent_of_lt (h : r.HasLength size n) (hlt : r.behindHeaders.length < n) :
    r.bodyEvent size true o = some (onBody o.err o.received.length,
      putAt (r.withBeginning n).bodyData (r.withBeginning n).bodyRead o.received) := by
  unfold bodyEvent
  rw [readBody_eq h, if_neg (not_le.2 hlt)]

/-- A read that ends early is an error, unless the client has closed the connection or no byte came
at all. -/
theorem ends_of_onBody_ne {m : ℕ} (ho : o.Documented m) (hshort : o.received.length < m)
    (hne : onBody o.err o.received.length ≠ .error) : o.err = some .eof ∨ o.received = [] := by
  cases herr : o.err with
  | none => exact absurd (ho.2 herr) hshort.ne
  | some e =>
    cases e with
    | eof => exact Or.inl rfl
    | other =>
      right
      by_contra hnil
      exact hne (onBody_eq_error_iff.2 ⟨List.length_pos_iff.2 hnil, herr⟩)

/-- **When no body is handed on that is not complete**: for every request with a `Content-Length`, of
whose body any part came with the headers, and every end of the read of the others, unless some are
missing and the connection was closed by the client, or no byte came at all. -/
theorem body_complete_iff (h : r.HasLength size n)
    (ho : o.Documented (n - r.behindHeaders.length)) :
    CompleteOrError (r.behindHeaders ++ o.received) n (r.bodyEvent size true o) ↔
      ¬ ((r.behindHeaders ++ o.received).length < n ∧
        (o.err = some .eof ∨ o.received = [])) := by
  have hle := ho.1
  have hlength : (r.behindHeaders ++ o.received).length =
      r.behindHeaders.length + o.received.length := List.length_append
  by_cases hcomplete : n ≤ r.behindHeaders.length
  · rw [bodyEvent_of_le h hcomplete]
    refine iff_of_true ⟨_, _, rfl, Or.inl ⟨rfl, by omega, ?_⟩⟩ fun hmissing => by omega
    rw [List.take_append_of_le_length hcomplete]
  rw [not_le] at hcomplete
  rw [bodyEvent_of_lt h hcomplete]
  by_cases herror : onBody o.err o.received.length = .error
  · refine iff_of_true ⟨_, _, rfl, Or.inr herror⟩ fun hmissing => ?_
    obtain ⟨hpos, herr⟩ := onBody_eq_error_iff.1 herror
    rcases hmissing.2 with heof | hnil
    · rw [herr] at heof
      cases heof
    · exact List.length_pos_iff.1 hpos hnil
  have hfires := onBody_eq_onBody_of_ne herror
  by_cases hshort : (r.behindHeaders ++ o.received).length < n
  · -- an incomplete body is handed on
    have hends := ends_of_onBody_ne ho (by omega) herror
    refine iff_of_false ?_ fun hnot => hnot ⟨hshort, hends⟩
    rintro ⟨event, body, heq, ⟨-, hlen, -⟩ | hevent⟩
    · omega
    · cases heq
      exact herror hevent
  · refine iff_of_true ⟨_, _, rfl, Or.inl ⟨hfires, not_lt.1 hshort, ?_⟩⟩ fun hmissing =>
      hshort hmissing.1
    rw [putAt_received (by omega), List.take_of_length_le (by omega)]

/-- A request with a body of three bytes, one of which came with the headers. -/
def bodyRequest : HttpRequest where
  headers := [(bytes "content-length", bytes "3")]
  method := bytes "POST"
  url := bytes "/*"
  version := bytes "HTTP/1.1"
  headerData := bytes "POST /* HTTP/1.1\r\nContent-Length: 3\r\n\r\na"
  headerSize := 39
  bodyRead := 0
  bodyData := []

/-- The cast of the number of that request. -/
def castThree (number : Bytes) : Option ℕ := if number = bytes "3" then some 3 else none

theorem body_complete_sample :
    CompleteOrError (bytes "abc") 3 (bodyRequest.bodyEvent castThree true ⟨bytes "bc", none⟩) :=
  (body_complete_iff (r := bodyRequest) (n := 3) (o := ⟨bytes "bc", none⟩) (by rfl)
    ⟨by decide, fun _ => by decide⟩).2 (by decide)

/-- The client closes the connection after one more byte: the body is handed on with a zero in place
of the third one. -/
theorem body_truncated :
    empty.onHeader false 39 bodyRequest.headerData = .ok (bodyRequest, .onHeader) ∧
      bodyRequest.bodyEvent castThree true ⟨bytes "b", some .eof⟩ =
        some (.onBody, [byte 'a', byte 'b', 0]) ∧
      ¬ CompleteOrError (bytes "ab") 3
        (bodyRequest.bodyEvent castThree true ⟨bytes "b", some .eof⟩) := by
  have hevent : bodyRequest.bodyEvent castThree true ⟨bytes "b", some .eof⟩ =
      some (.onBody, [byte 'a', byte 'b', 0]) := by decide
  refine ⟨rfl, hevent, ?_⟩
  rintro ⟨event, body, heq, ⟨-, hlen, -⟩ | herror⟩
  · exact absurd hlen (by decide)
  · rw [hevent] at heq
    cases heq
    cases herror

end HttpRequest

end Istatd
