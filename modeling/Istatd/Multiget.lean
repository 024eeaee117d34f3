import Istatd.Listing
import Istatd.RangeQuery
import Istatd.Lib.JsonText

/-!
# Multiget (`RequestInFlight::on_multigetBody`, `MultiCounterWorker`)

The body of a multiget names counters.  A name without a counter is answered at once; the others are
put into a map from counters to names, and each counter of the map gets a worker.  A worker writes
its member under a lock, and then counts itself off; the last one completes the reply.  The workers
run on the strands of their counters, so they are interleaved in any order.

A counter stands for its key: the keys of a store have a counter each.  The reply is the sequence of
what is written to `strm_buffer_`; the value of a member is kept as the data it is made from.

* `Multiget.step`: one step of one worker, and `Multiget.Inv`, what holds in between;
* `answered_iff`: when the members of a reply answer every name once;
* `multiget_answers_iff`: for which requests every order of the steps leads to such a reply.
-/

namespace Istatd

open JsonText

variable {D F : Type}

/-- The value of a member of the reply. -/
inductive MemberValue (D F : Type)
  | notFound
  | data (counter : Bytes) (sel : StatCounter.Selection D F)
  | time (t : ℤ)

/-- The value says that there is no counter, or it has the data of the counter that was found. -/
def MemberValue.Answers (found : Option Bytes) : MemberValue D F → Prop
  | .notFound => found = none
  | .data counter _ => found = some counter
  | .time _ => False

/-- What is written to `strm_buffer_`.  The key of a member is written between quotation marks as it
is. -/
inductive ReplyPiece (D F : Type)
  | beginObject
  | comma
  | member (key : Bytes) (value : MemberValue D F)
  | endObject

/-- A `MultiCounterWorker` and its request: the workers that have not begun, with counter and name;
how many have written and not counted themselves off; and the replies that were sent. -/
structure Multiget (D F : Type) where
  range : RangeRequest
  data : List (Bytes × Bytes)
  num : ℤ
  delim : Bool
  wrote : Bool
  startTime : ℤ
  stopTime : ℤ
  interval : ℤ
  buffer : List (ReplyPiece D F)
  waiting : List (Bytes × Bytes)
  finishing : ℕ
  replies : List (List (ReplyPiece D F))

/-- `StatStore::find`: the key of the counter, if there is one. -/
def findCounter (store : Bytes → Option (StatCounter D F)) (name : Bytes) : Option Bytes :=
  (openedKey name).filter fun key => (store key).isSome

/-- The body of the request: the integers `start`, `stop` and `maxSamples`, the flag `trailing`, and
`keys` if it is an array. -/
structure MultigetBody where
  start : ℤ
  stop : ℤ
  maxSamples : ℤ
  trailing : Bool
  keys : Option (List Bytes)
  maxSamples_int : -2 ^ 31 ≤ maxSamples ∧ maxSamples < 2 ^ 31

/-- The names that are asked for. -/
def MultigetBody.names (body : MultigetBody) : List Bytes := body.keys.getD []

namespace Multiget

/-- The request before the loop over its keys. -/
def init (range : RangeRequest) : Multiget D F where
  range := range
  data := []
  num := 0
  delim := false
  wrote := false
  startTime := 0
  stopTime := 0
  interval := 0
  buffer := [.beginObject]
  waiting := []
  finishing := 0
  replies := []

/-- The delimiter, and a member. -/
def put (s : Multiget D F) (key : Bytes) (value : MemberValue D F) : Multiget D F :=
  { s with
    buffer := s.buffer ++ (if s.delim then [.comma] else []) ++ [.member key value]
    delim := true }

/-- `MultiCounterWorker::add`. -/
def add (s : Multiget D F) (counter name : Bytes) : Multiget D F :=
  { s with data := (counter, name) :: s.data.filter (·.1 ≠ counter) }

/-- The body of the loop over the keys. -/
def addKey (store : Bytes → Option (StatCounter D F)) (s : Multiget D F) (name : Bytes) :
    Multiget D F :=
  match findCounter store name with
  | none => s.put name .notFound
  | some counter => s.add counter name

/-- `RequestInFlight::complete`. -/
def complete (s : Multiget D F) : Multiget D F := { s with replies := s.replies ++ [s.buffer] }

/-- `MultiCounterWorker::go`. -/
def go (s : Multiget D F) : Multiget D F :=
  if s.data.length = 0 then complete { s with buffer := s.buffer ++ [.endObject] }
  else { s with num := s.data.length, waiting := s.data }

/-- `RequestInFlight::on_multigetBody`, with the texts of its errors. -/
def onMultigetBody (store : Bytes → Option (StatCounter D F)) (body : MultigetBody) :
    Except String (Multiget D F) :=
  match multigetRange body.start body.stop body.maxSamples body.trailing with
  | .error e => .error e
  | .ok range =>
    match body.keys with
    | none => .error "Missing 'key' array of keys"
    | some names => .ok (go (names.foldl (addKey store) (init range)))

/-- The steps of the workers: one of those that have not begun writes its member, with its counter
as it is then, the time, and what is in a variable before it is set; one of those that have written
counts itself off. -/
inductive Op (D F : Type)
  | work (i : ℕ) (counter : StatCounter D F) (now interval : ℤ)
  | count

/-- The locked part of `MultiCounterWorker::workOne` after `select`. -/
def work (s : Multiget D F) (counter name : Bytes) (sel : StatCounter.Selection D F) :
    Multiget D F :=
  { s.put name (.data counter sel) with
    startTime := sel.normalizedStart
    stopTime := sel.normalizedEnd
    interval := sel.interval
    wrote := true }

/-- The keys of the members that the last worker writes. -/
def trailerKeys : List Bytes := [bytes "start", bytes "stop", bytes "interval"]

/-- The end of `MultiCounterWorker::workOne`. -/
def countOff (s : Multiget D F) : Multiget D F :=
  let s := { s with num := s.num - 1 }
  if s.num = 0 then
    complete { s with
      buffer := s.buffer ++ (if s.wrote then [ReplyPiece.comma] else []) ++
        [ReplyPiece.member (bytes "start") (.time s.startTime), .comma,
          .member (bytes "stop") (.time s.stopTime), .comma,
          .member (bytes "interval") (.time s.interval), .endObject] }
  else s

/-- One step of one worker. -/
def step [FloatArith D F] (s : Multiget D F) : Op D F → Except Fault (Multiget D F)
  | .work i counter now interval =>
    match s.waiting[i]? with
    | none => .ok s
    | some w => do
      let sel ← counter.query now interval s.range
      -- the range of a request that is accepted is not reversed, so there is a selection
      let s := s.work w.1 w.2 (sel.getD ⟨[], 0, 0, interval⟩)
      return { s with waiting := s.waiting.eraseIdx i, finishing := s.finishing + 1 }
  | .count =>
    if s.finishing = 0 then .ok s else .ok { s.countOff with finishing := s.finishing - 1 }

/-- All workers have finished. -/
def Finished (s : Multiget D F) : Prop := s.waiting = [] ∧ s.finishing = 0

/-! ### The members of a reply -/

/-- An object with some members, separated by commas. -/
def objectPieces (ms : List (Bytes × MemberValue D F)) : List (ReplyPiece D F) :=
  .beginObject :: (ms.map fun m => .member m.1 m.2).intersperse .comma

/-- The members among the pieces. -/
def members (reply : List (ReplyPiece D F)) : List (Bytes × MemberValue D F) :=
  reply.filterMap fun
    | .member key value => some (key, value)
    | _ => none

theorem intersperse_concat {α : Type} (sep : α) (l : List α) (a : α) :
    (l ++ [a]).intersperse sep = l.intersperse sep ++ (if l.isEmpty then [] else [sep]) ++ [a] := by
  induction l with
  | nil => rfl
  | cons b l ih =>
    cases l with
    | nil => rfl
    | cons c l =>
      rw [List.cons_append, List.cons_append, List.intersperse_cons_cons, ← List.cons_append, ih,
        List.intersperse_cons_cons]
      rfl

theorem objectPieces_concat (ms : List (Bytes × MemberValue D F)) (m : Bytes × MemberValue D F) :
    objectPieces (ms ++ [m]) =
      objectPieces ms ++ (if ms.isEmpty then [] else [.comma]) ++ [.member m.1 m.2] := by
  unfold objectPieces
  rw [List.map_append, List.map_singleton, intersperse_concat, List.isEmpty_map]
  rfl

/-- A member that is put into an object. -/
theorem put_buffer {s : Multiget D F} {ms : List (Bytes × MemberValue D F)}
    (hbuffer : s.buffer = objectPieces ms) (hdelim : s.delim = !ms.isEmpty) (key : Bytes)
    (value : MemberValue D F) : (s.put key value).buffer = objectPieces (ms ++ [(key, value)]) := by
  unfold put
  simp only
  rw [objectPieces_concat, hbuffer, hdelim]
  cases ms.isEmpty <;> rfl

/-- Members after the first ones, each with its comma. -/
theorem objectPieces_append {ms : List (Bytes × MemberValue D F)} (hms : ms.isEmpty = false)
    (ms' : List (Bytes × MemberValue D F)) :
    objectPieces (ms ++ ms') =
      objectPieces ms ++ ms'.flatMap fun m => [.comma, .member m.1 m.2] := by
  induction ms' generalizing ms with
  | nil => simp
  | cons m ms' ih =>
    have hsplit : ms ++ m :: ms' = ms ++ [m] ++ ms' := by simp
    rw [hsplit, ih (by simp), objectPieces_concat, hms]
    simp

theorem members_append (p q : List (ReplyPiece D F)) :
    members (p ++ q) = members p ++ members q := List.filterMap_append

theorem members_objectPieces (ms : List (Bytes × MemberValue D F)) :
    members (objectPieces ms) = ms := by
  induction ms using List.reverseRecOn with
  | nil => rfl
  | append_singleton ms m ih =>
    have hcomma : members (D := D) (F := F) (if ms.isEmpty then [] else [.comma]) = [] := by
      split_ifs <;> rfl
    rw [objectPieces_concat, members_append, members_append, ih, hcomma, List.append_nil]
    rfl

/-- The object as `complete` sends it. -/
theorem members_reply (ms : List (Bytes × MemberValue D F)) :
    members (objectPieces ms ++ [.endObject]) = ms := by
  rw [members_append, members_objectPieces]
  exact List.append_nil ms

/-! ### The loop over the keys -/

section Invariant

variable {store : Bytes → Option (StatCounter D F)} {names : List Bytes}

/-- The members of the names without a counter. -/
def missing (store : Bytes → Option (StatCounter D F)) (names : List Bytes) :
    List (Bytes × MemberValue D F) :=
  (names.filter fun n => findCounter store n = none).map (·, .notFound)

/-- The map has each counter of the names once, with one of the names. -/
structure Resolved (store : Bytes → Option (StatCounter D F)) (names : List Bytes)
    (data : List (Bytes × Bytes)) : Prop where
  nodup : (data.map Prod.fst).Nodup
  found : ∀ d ∈ data, d.2 ∈ names ∧ findCounter store d.2 = some d.1
  all : ∀ n ∈ names, ∀ k, findCounter store n = some k → k ∈ data.map Prod.fst

theorem Resolved.nil : Resolved store [] [] := ⟨List.nodup_nil, by simp, by simp⟩

theorem Resolved.notFound {data : List (Bytes × Bytes)} (h : Resolved store names data) {n : Bytes}
    (hn : findCounter store n = none) : Resolved store (names ++ [n]) data where
  nodup := h.nodup
  found d hd := ⟨List.mem_append_left _ (h.found d hd).1, (h.found d hd).2⟩
  all n' hn' k hk := by
    rcases List.mem_append.1 hn' with hn' | hn'
    · exact h.all n' hn' k hk
    · rw [List.mem_singleton.1 hn', hn] at hk
      cases hk

theorem Resolved.add {data : List (Bytes × Bytes)} (h : Resolved store names data) {n k : Bytes}
    (hn : findCounter store n = some k) :
    Resolved store (names ++ [n]) ((k, n) :: data.filter (·.1 ≠ k)) where
  nodup := by
    rw [List.map_cons, List.nodup_cons]
    refine ⟨fun hmem => ?_, h.nodup.sublist (List.filter_sublist.map Prod.fst)⟩
    obtain ⟨d, hd, hdk⟩ := List.mem_map.1 hmem
    exact absurd hdk (by simpa using List.of_mem_filter hd)
  found d hd := by
    rcases List.mem_cons.1 hd with rfl | hd
    · exact ⟨List.mem_append_right _ (List.mem_singleton_self n), hn⟩
    · have hd := h.found d (List.mem_of_mem_filter hd)
      exact ⟨List.mem_append_left _ hd.1, hd.2⟩
  all n' hn' k' hk' := by
    by_cases hkk : k' = k
    · rw [hkk]
      exact List.mem_cons_self
    · -- another counter is that of an earlier name, and stays in the map
      have hmem : k' ∈ data.map Prod.fst := by
        rcases List.mem_append.1 hn' with hn' | hn'
        · exact h.all n' hn' k' hk'
        · rw [List.mem_singleton.1 hn', hn] at hk'
          exact absurd (Option.some.inj hk').symm hkk
      obtain ⟨d, hd, rfl⟩ := List.mem_map.1 hmem
      exact List.mem_map.2 ⟨d, List.mem_cons_of_mem _ (List.mem_filter.2 ⟨hd, by simpa using hkk⟩),
        rfl⟩

/-- What the loop over the keys leaves behind. -/
structure Collected (store : Bytes → Option (StatCounter D F)) (range : RangeRequest)
    (names : List Bytes) (s : Multiget D F) : Prop where
  resolved : Resolved store names s.data
  buffer : s.buffer = objectPieces (missing store names)
  delim : s.delim = !(missing store names).isEmpty
  rest : s.range = range ∧ s.num = 0 ∧ s.wrote = false ∧ s.waiting = [] ∧ s.finishing = 0 ∧
    s.replies = []

theorem missing_concat_none {n : Bytes} (hn : findCounter store n = none) :
    missing store (names ++ [n]) = missing store names ++ [(n, .notFound)] := by
  simp [missing, hn]

theorem missing_concat_some {n k : Bytes} (hn : findCounter store n = some k) :
    missing store (names ++ [n]) = missing store names := by
  simp [missing, hn]

theorem Collected.addKey {range : RangeRequest} {s : Multiget D F}
    (h : Collected store range names s) (n : Bytes) :
    Collected store range (names ++ [n]) (s.addKey store n) := by
  unfold Multiget.addKey
  cases hn : findCounter store n with
  | none =>
    refine ⟨h.resolved.notFound hn, ?_, ?_, h.rest⟩
    · rw [missing_concat_none hn]
      exact put_buffer h.buffer h.delim n .notFound
    · simp [missing_concat_none hn, put]
  | some k =>
    refine ⟨h.resolved.add hn, ?_, ?_, h.rest⟩
    · rw [missing_concat_some hn]
      exact h.buffer
    · rw [missing_concat_some hn]
      exact h.delim

theorem collected (range : RangeRequest) (names : List Bytes) :
    Collected store range names (names.foldl (Multiget.addKey store) (init range)) := by
  induction names using List.reverseRecOn with
  | nil => exact ⟨.nil, rfl, rfl, rfl, rfl, rfl, rfl, rfl, rfl⟩
  | append_singleton names n ih =>
    rw [List.foldl_append]
    exact ih.addKey n

/-! ### The workers -/

/-- A member that a worker has written, for a counter under a name. -/
abbrev Written (D F : Type) := (Bytes × Bytes) × StatCounter.Selection D F

/-- The members of the reply before the last worker counts itself off. -/
def answers (store : Bytes → Option (StatCounter D F)) (names : List Bytes)
    (written : List (Written D F)) : List (Bytes × MemberValue D F) :=
  missing store names ++ written.map fun w => (w.1.2, .data w.1.1 w.2)

/-- The members the last worker adds; there is none if there are no counters. -/
def trailer (data : List (Bytes × Bytes)) (startTime stopTime interval : ℤ) :
    List (Bytes × MemberValue D F) :=
  if data.isEmpty then []
  else [(bytes "start", .time startTime), (bytes "stop", .time stopTime),
    (bytes "interval", .time interval)]

/-- What holds between the steps, with what has been written. -/
structure Inv (store : Bytes → Option (StatCounter D F)) (range : RangeRequest)
    (names : List Bytes) (written : List (Written D F)) (s : Multiget D F) : Prop where
  range : s.range = range
  resolved : Resolved store names s.data
  shared : (s.waiting ++ written.map Prod.fst).Perm s.data
  num : s.num = s.waiting.length + s.finishing
  finishing : s.finishing ≤ written.length
  delim : s.delim = !(answers store names written).isEmpty
  wrote : s.wrote = !written.isEmpty
  unsent : ¬ s.Finished → s.replies = [] ∧ s.buffer = objectPieces (answers store names written)
  sent : s.Finished → ∃ a b i, s.replies =
    [objectPieces (answers store names written ++ trailer s.data a b i) ++ [.endObject]]

theorem inv_go {range : RangeRequest} {s : Multiget D F} (h : Collected store range names s) :
    Inv store range names [] s.go := by
  obtain ⟨hrange, hnum, hwrote, hwaiting, hfinishing, hreplies⟩ := h.rest
  have hanswers : answers store names [] = missing store names := List.append_nil _
  unfold go
  by_cases hdata : s.data.length = 0
  · have hnil : s.data = [] := List.length_eq_zero_iff.1 hdata
    rw [if_pos hdata]
    refine ⟨hrange, h.resolved, ?_, ?_, hfinishing.le, ?_, hwrote, ?_, fun _ => ⟨0, 0, 0, ?_⟩⟩
    · show (s.waiting ++ []).Perm s.data
      rw [hwaiting, hnil]
      exact List.Perm.refl _
    · show s.num = s.waiting.length + s.finishing
      rw [hnum, hwaiting, hfinishing]
      rfl
    · rw [hanswers]
      exact h.delim
    · exact fun hnot => absurd ⟨hwaiting, hfinishing⟩ hnot
    · show s.replies ++ [s.buffer ++ [ReplyPiece.endObject]] =
        [objectPieces (answers store names [] ++ trailer s.data 0 0 0) ++ [ReplyPiece.endObject]]
      rw [hreplies, h.buffer, hanswers, hnil]
      simp [trailer]
  · rw [if_neg hdata]
    refine ⟨hrange, h.resolved, ?_, ?_, hfinishing.le, ?_, hwrote, fun _ => ⟨hreplies, ?_⟩, ?_⟩
    · show (s.data ++ []).Perm s.data
      rw [List.append_nil]
    · show (s.data.length : ℤ) = s.data.length + s.finishing
      rw [hfinishing]
      simp
    · rw [hanswers]
      exact h.delim
    · rw [hanswers]
      exact h.buffer
    · exact fun hfin => absurd (List.length_eq_zero_iff.2 hfin.1) hdata

section Steps

variable {range : RangeRequest} {written : List (Written D F)} {s : Multiget D F}

/-- A worker writes its member. -/
theorem Inv.work (h : Inv store range names written s) {i : ℕ} {w : Bytes × Bytes}
    (hw : s.waiting[i]? = some w) (sel : StatCounter.Selection D F) :
    Inv store range names (written ++ [(w, sel)])
      { s.work w.1 w.2 sel with
        waiting := s.waiting.eraseIdx i
        finishing := s.finishing + 1 } := by
  obtain ⟨hi, rfl⟩ := List.getElem?_eq_some_iff.1 hw
  have hlength := List.length_eraseIdx_of_lt hi
  have hopen : ¬ s.Finished := fun hfin => by
    rw [hfin.1] at hi
    exact absurd hi (Nat.not_lt_zero i)
  obtain ⟨hreplies, hbuffer⟩ := h.unsent hopen
  have hanswers : answers store names (written ++ [(s.waiting[i], sel)]) =
      answers store names written ++ [(s.waiting[i].2, .data s.waiting[i].1 sel)] := by
    simp [answers]
  refine ⟨h.range, h.resolved, ?_, ?_, ?_, ?_, ?_, fun _ => ⟨hreplies, ?_⟩, ?_⟩
  · -- the worker moves from those that wait to those that have written
    have hmove : (s.waiting[i] :: s.waiting.eraseIdx i).Perm s.waiting :=
      List.getElem_cons_eraseIdx_perm hi
    refine List.Perm.trans ?_ h.shared
    rw [List.map_append, List.map_singleton, ← List.append_assoc]
    refine List.perm_append_comm.trans ?_
    exact (hmove.append_right _)
  · show s.num = ((s.waiting.eraseIdx i).length : ℤ) + ((s.finishing + 1 : ℕ) : ℤ)
    rw [h.num, hlength]
    omega
  · show s.finishing + 1 ≤ (written ++ [_]).length
    have := h.finishing
    simpa using this
  · rw [hanswers]
    simp [Multiget.work, put]
  · simp [Multiget.work]
  · rw [hanswers]
    exact put_buffer hbuffer h.delim _ _
  · rintro ⟨-, hfin⟩
    exact absurd hfin (Nat.succ_ne_zero _)

/-- A worker counts itself off; the last one completes the reply. -/
theorem Inv.countOff (h : Inv store range names written s) (hf : s.finishing ≠ 0) :
    Inv store range names written { s.countOff with finishing := s.finishing - 1 } := by
  have hopen : ¬ s.Finished := fun hfin => hf hfin.2
  obtain ⟨hreplies, hbuffer⟩ := h.unsent hopen
  have hnum := h.num
  unfold Multiget.countOff
  by_cases h0 : s.num - 1 = 0
  · have hwaiting : s.waiting = [] := List.length_eq_zero_iff.1 (by omega)
    have hwritten : written.isEmpty = false := by
      cases written with
      | nil => exact absurd (Nat.le_zero.1 h.finishing) hf
      | cons w ws => rfl
    have hdata : s.data.isEmpty = false := by
      have hlen := h.shared.length_eq
      cases hd : s.data with
      | nil =>
        rw [hd, hwaiting, List.nil_append, List.length_map] at hlen
        rw [List.length_eq_zero_iff.1 hlen] at hwritten
        cases hwritten
      | cons d ds => rfl
    have hne : (answers store names written).isEmpty = false := by
      cases written with
      | nil => cases hwritten
      | cons w ws => simp [answers]
    simp only
    rw [if_pos h0]
    refine ⟨h.range, h.resolved, h.shared, ?_, ?_, h.delim, h.wrote, ?_, fun _ =>
      ⟨s.startTime, s.stopTime, s.interval, ?_⟩⟩
    · show s.num - 1 = s.waiting.length + ((s.finishing - 1 : ℕ) : ℤ)
      omega
    · exact (Nat.sub_le _ _).trans h.finishing
    · refine fun hnot => absurd ⟨hwaiting, ?_⟩ hnot
      show s.finishing - 1 = 0
      omega
    · show s.replies ++ [s.buffer ++ (if s.wrote = true then _ else _) ++ _] = _
      rw [hreplies, hbuffer, h.wrote, hwritten]
      show _ = [objectPieces (answers store names written ++ trailer s.data _ _ _) ++ _]
      rw [objectPieces_append hne, trailer, hdata]
      simp
  · simp only
    rw [if_neg h0]
    refine ⟨h.range, h.resolved, h.shared, ?_, ?_, h.delim, h.wrote,
      fun _ => ⟨hreplies, hbuffer⟩, ?_⟩
    · show s.num - 1 = s.waiting.length + ((s.finishing - 1 : ℕ) : ℤ)
      omega
    · exact (Nat.sub_le _ _).trans h.finishing
    · rintro ⟨hwaiting, hfin⟩
      have hwaiting : s.waiting = [] := hwaiting
      have hfin : s.finishing - 1 = 0 := hfin
      rw [hwaiting] at hnum
      simp at hnum
      omega

end Steps

/-! ### Runs -/

theorem exists_counter {n k : Bytes} (h : findCounter store n = some k) : ∃ c, store k = some c :=
  Option.isSome_iff_exists.1 (Option.filter_eq_some_iff.1 h).2

theorem countOff_waiting (s : Multiget D F) : s.countOff.waiting = s.waiting := by
  unfold Multiget.countOff
  simp only
  split_ifs <;> rfl

section Runs

variable [FloatArith D F] {range : RangeRequest} {written : List (Written D F)} {s : Multiget D F}

/-- Every counter answers the query. -/
def Answering (D F : Type) [FloatArith D F] (range : RangeRequest) : Prop :=
  ∀ (c : StatCounter D F) (now interval : ℤ), ∃ sel, c.query now interval range = .ok (some sel)

theorem Inv.step_work (h : Inv store range names written s) {i : ℕ} {w : Bytes × Bytes}
    (hw : s.waiting[i]? = some w) {c : StatCounter D F} {now interval : ℤ}
    {sel : StatCounter.Selection D F} (hsel : c.query now interval range = .ok (some sel)) :
    s.step (.work i c now interval) = .ok { s.work w.1 w.2 sel with
      waiting := s.waiting.eraseIdx i, finishing := s.finishing + 1 } := by
  unfold step
  simp only [hw, h.range, hsel]
  rfl

/-- **Every step keeps the invariant**, if no query divides by zero. -/
theorem Inv.step (hsafe : (∃ n ∈ names, findCounter store n ≠ none) → Answering D F range)
    (h : Inv store range names written s) (op : Op D F) :
    ∃ s', s.step op = .ok s' ∧ ∃ written', Inv store range names written' s' := by
  cases op with
  | work i c now interval =>
    cases hw : s.waiting[i]? with
    | none =>
      refine ⟨s, ?_, written, h⟩
      unfold Multiget.step
      simp only [hw]
    | some w =>
      have hfound := h.resolved.found w
        (h.shared.mem_iff.1 (List.mem_append_left _ (List.mem_of_getElem? hw)))
      obtain ⟨sel, hsel⟩ := hsafe ⟨w.2, hfound.1, by simp [hfound.2]⟩ c now interval
      exact ⟨_, h.step_work hw hsel, _, h.work hw sel⟩
  | count =>
    unfold Multiget.step
    by_cases hf : s.finishing = 0
    · exact ⟨s, if_pos hf, written, h⟩
    · exact ⟨_, if_neg hf, written, h.countOff hf⟩

theorem Inv.run (hsafe : (∃ n ∈ names, findCounter store n ≠ none) → Answering D F range)
    (h : Inv store range names written s) (ops : List (Op D F)) :
    ∃ s', ops.foldlM Multiget.step s = .ok s' ∧ ∃ written', Inv store range names written' s' :=
  Run.exec_total (I := fun s => ∃ written, Inv store range names written s)
    (fun _ op ⟨_, h⟩ => h.step hsafe op) ⟨written, h⟩ ops

/-- The workers can run to their end. -/
theorem Inv.exists_finished (hsafe : (∃ n ∈ names, findCounter store n ≠ none) → Answering D F range)
    (h : Inv store range names written s) :
    ∃ (ops : List (Op D F)) (s' : Multiget D F),
      ops.foldlM Multiget.step s = .ok s' ∧ s'.Finished := by
  -- the waiting workers count twice, once for each of their steps
  induction hk : 2 * s.waiting.length + s.finishing generalizing s written with
  | zero => exact ⟨[], s, rfl, List.length_eq_zero_iff.1 (by omega), by omega⟩
  | succ k ih =>
    by_cases hf : s.finishing = 0
    · obtain ⟨w, ws, hws⟩ := List.exists_cons_of_length_pos (l := s.waiting) (by omega)
      have hw : s.waiting[0]? = some w := by rw [hws]; rfl
      have hfound := h.resolved.found w
        (h.shared.mem_iff.1 (List.mem_append_left _ (List.mem_of_getElem? hw)))
      obtain ⟨c, -⟩ := exists_counter hfound.2
      obtain ⟨sel, hsel⟩ := hsafe ⟨w.2, hfound.1, by simp [hfound.2]⟩ c 0 0
      obtain ⟨ops, s', hrun, hfin⟩ := ih (h.work hw sel) (by
        simp only [hws, List.eraseIdx_zero, List.tail_cons, List.length_cons] at hk ⊢
        omega)
      exact ⟨_, s', (Run.foldlM_cons_ok (h.step_work hw hsel)).trans hrun, hfin⟩
    · obtain ⟨ops, s', hrun, hfin⟩ := ih (h.countOff hf) (by
        simp only [countOff_waiting]
        omega)
      exact ⟨.count :: ops, s', (Run.foldlM_cons_ok (if_neg hf)).trans hrun, hfin⟩

end Runs

/-! ### Which requests are answered -/

/-- Every key is read as it is, and every name has exactly one member, with its answer. -/
structure Answered (store : Bytes → Option (StatCounter D F)) (names : List Bytes)
    (ms : List (Bytes × MemberValue D F)) : Prop where
  readable : ∀ m ∈ ms, ∀ rest, readString (m.1 ++ quotationMark :: rest) = some (m.1, rest)
  once : ∀ n ∈ names, ∃ v : MemberValue D F,
    (ms.filter fun m => m.1 = n) = [(n, v)] ∧ v.Answers (findCounter store n)

/-- The names need no quoting, those that are not found are asked for once, no two others have the
same counter, and none has the key of a member of the trailer if there is one. -/
structure Answerable (store : Bytes → Option (StatCounter D F)) (names : List Bytes) : Prop where
  unescaped : ∀ n ∈ names, ∀ c ∈ n, Unescaped c
  once : ∀ n ∈ names, findCounter store n = none → names.count n = 1
  apart : ∀ n ∈ names, ∀ n' ∈ names, ∀ k, findCounter store n = some k →
    findCounter store n' = some k → n = n'
  unreserved : (∃ n ∈ names, findCounter store n ≠ none) → ∀ t ∈ trailerKeys, t ∉ names

theorem filter_missing (n : Bytes) :
    ((missing store names).filter fun m => m.1 = n) =
      if findCounter store n = none then List.replicate (names.count n) (n, .notFound) else [] := by
  induction names using List.reverseRecOn with
  | nil => simp [missing]
  | append_singleton names m ih =>
    cases hm : findCounter store m with
    | none =>
      rw [missing_concat_none hm, List.filter_append, ih, List.count_append]
      by_cases hmn : m = n
      · subst hmn
        simp [hm, List.replicate_succ']
      · simp [hmn]
    | some k =>
      rw [missing_concat_some hm, ih, List.count_append]
      by_cases hmn : m = n
      · subst hmn
        simp [hm]
      · simp [hmn]

theorem filter_eq_singleton {α β : Type} {f : α → β} {l : List α} (hl : (l.map f).Nodup) {a : α}
    (ha : a ∈ l) {p : α → Bool} (hpa : p a = true) (hp : ∀ b ∈ l, p b = true → f b = f a) :
    l.filter p = [a] := by
  induction l with
  | nil => cases ha
  | cons b l ih =>
    obtain ⟨hb, hl⟩ := List.nodup_cons.1 hl
    have htail := fun c hc => hp c (List.mem_cons_of_mem b hc)
    rw [List.filter_cons]
    rcases List.mem_cons.1 ha with rfl | ha
    · rw [if_pos hpa, List.filter_eq_nil_iff.2 fun c hc hpc => ?_]
      exact hb (List.mem_map.2 ⟨c, hc, htail c hc hpc⟩)
    · rw [if_neg fun hpb => hb (List.mem_map.2 ⟨a, ha, (hp b List.mem_cons_self hpb).symm⟩)]
      exact ih hl ha htail

section Counting

variable {data : List (Bytes × Bytes)} {written : List (Written D F)}

theorem mem_trailer {m : Bytes × MemberValue D F} {a b i : ℤ} (h : m ∈ trailer data a b i) :
    data ≠ [] ∧ m.1 ∈ trailerKeys ∧ ∃ t, m.2 = .time t := by
  unfold trailer at h
  cases data with
  | nil => cases h
  | cons d ds =>
    refine ⟨List.cons_ne_nil d ds, List.mem_map_of_mem (f := Prod.fst) h, ?_⟩
    rcases List.mem_cons.1 h with rfl | h
    · exact ⟨a, rfl⟩
    rcases List.mem_cons.1 h with rfl | h
    · exact ⟨b, rfl⟩
    rw [List.mem_singleton.1 h]
    exact ⟨i, rfl⟩

theorem unescaped_trailerKeys : ∀ t ∈ trailerKeys, ∀ c ∈ t, Unescaped c := by decide

theorem exists_mem_trailer {t : Bytes} (ht : t ∈ trailerKeys) (hdata : data ≠ []) (a b i : ℤ) :
    ∃ x, (t, (.time x : MemberValue D F)) ∈ trailer data a b i := by
  have hkeys : trailerKeys = (trailer (D := D) (F := F) data a b i).map Prod.fst := by
    unfold trailer
    rw [if_neg (by simpa using hdata)]
    rfl
  rw [hkeys] at ht
  obtain ⟨m, hm, rfl⟩ := List.mem_map.1 ht
  obtain ⟨-, -, x, hx⟩ := mem_trailer hm
  exact ⟨x, hx ▸ hm⟩

theorem mem_answers {m : Bytes × MemberValue D F} (h : m ∈ answers store names written) :
    (m.1 ∈ names ∧ findCounter store m.1 = none ∧ m.2 = .notFound) ∨
      ∃ w ∈ written, m = (w.1.2, .data w.1.1 w.2) := by
  rcases List.mem_append.1 h with h | h
  · obtain ⟨n, hn, rfl⟩ := List.mem_map.1 h
    obtain ⟨hn, hnone⟩ := List.mem_filter.1 hn
    exact Or.inl ⟨hn, of_decide_eq_true hnone, rfl⟩
  · obtain ⟨w, hw, rfl⟩ := List.mem_map.1 h
    exact Or.inr ⟨w, hw, rfl⟩

/-- Every counter of the map has been written, under the name the map has for it. -/
structure AllWritten (store : Bytes → Option (StatCounter D F)) (names : List Bytes)
    (data : List (Bytes × Bytes)) (written : List (Written D F)) : Prop where
  resolved : Resolved store names data
  perm : (written.map Prod.fst).Perm data

section AllWritten

variable (h : AllWritten store names data written)
include h

theorem AllWritten.mem {w : Written D F} (hw : w ∈ written) : w.1 ∈ data :=
  h.perm.mem_iff.1 (List.mem_map_of_mem hw)

theorem AllWritten.name_mem {w : Written D F} (hw : w ∈ written) : w.1.2 ∈ names :=
  (h.resolved.found w.1 (h.mem hw)).1

theorem AllWritten.found {w : Written D F} (hw : w ∈ written) :
    findCounter store w.1.2 = some w.1.1 :=
  (h.resolved.found w.1 (h.mem hw)).2

theorem AllWritten.nodup : (written.map fun w => w.1.1).Nodup := by
  have hnodup := (h.perm.map Prod.fst).nodup_iff.2 h.resolved.nodup
  rwa [List.map_map] at hnodup

theorem AllWritten.exists_written {n k : Bytes} (hn : n ∈ names)
    (hk : findCounter store n = some k) : ∃ w ∈ written, w.1.1 = k := by
  obtain ⟨d, hd, rfl⟩ := List.mem_map.1 (h.resolved.all n hn k hk)
  obtain ⟨w, hw, rfl⟩ := List.mem_map.1 (h.perm.mem_iff.2 hd)
  exact ⟨w, hw, rfl⟩

/-- The members of a name without a counter. -/
theorem AllWritten.filter_answers_none {n : Bytes} (hn : findCounter store n = none) :
    ((answers store names written).filter fun m => m.1 = n) =
      List.replicate (names.count n) (n, .notFound) := by
  rw [answers, List.filter_append, filter_missing, if_pos hn, List.filter_eq_nil_iff.2,
    List.append_nil]
  intro m hm hmn
  obtain ⟨w, hw, rfl⟩ := List.mem_map.1 hm
  have hwn : w.1.2 = n := of_decide_eq_true hmn
  rw [← hwn, h.found hw] at hn
  cases hn

/-- The members of a name whose counter was written under that name. -/
theorem AllWritten.filter_answers_some {w : Written D F} (hw : w ∈ written) :
    ((answers store names written).filter fun m => m.1 = w.1.2) =
      [(w.1.2, .data w.1.1 w.2)] := by
  have hself : (written.filter fun w' => w'.1.2 = w.1.2) = [w] := by
    refine filter_eq_singleton h.nodup hw (by simp) fun w' hw' hname => ?_
    have hsame := h.found hw'
    rw [of_decide_eq_true hname, h.found hw] at hsame
    exact (Option.some.inj hsame).symm
  rw [answers, List.filter_append, filter_missing, if_neg (by simp [h.found hw]),
    List.nil_append, List.filter_map]
  exact congrArg (List.map _) hself

end AllWritten

theorem Answered.exists_mem {ms : List (Bytes × MemberValue D F)} (h : Answered store names ms)
    {n : Bytes} (hn : n ∈ names) : ∃ v, (n, v) ∈ ms := by
  obtain ⟨v, hfilter, -⟩ := h.once n hn
  have hmem : (n, v) ∈ ms.filter fun m => m.1 = n := hfilter ▸ List.mem_singleton_self (n, v)
  exact ⟨v, List.mem_of_mem_filter hmem⟩

theorem Answered.value {ms : List (Bytes × MemberValue D F)} (h : Answered store names ms)
    {n : Bytes} (hn : n ∈ names) {v : MemberValue D F} (hv : (n, v) ∈ ms) :
    v.Answers (findCounter store n) := by
  obtain ⟨v', hfilter, hv'⟩ := h.once n hn
  have hmem : (n, v) ∈ [(n, v')] := hfilter ▸ List.mem_filter.2 ⟨hv, by simp⟩
  obtain ⟨-, rfl⟩ := Prod.mk.inj (List.mem_singleton.1 hmem)
  exact hv'

section Complete

variable {a b i : ℤ} (hall : AllWritten store names data written)
include hall

/-- A counter has been written under each of its names that is answered. -/
theorem Answered.exists_written
    (h : Answered store names (answers store names written ++ trailer data a b i)) {n k : Bytes}
    (hn : n ∈ names) (hk : findCounter store n = some k) : ∃ w ∈ written, w.1 = (k, n) := by
  obtain ⟨v, hv⟩ := h.exists_mem hn
  rcases List.mem_append.1 hv with hv' | hv'
  · rcases mem_answers hv' with ⟨-, hnone, -⟩ | ⟨w, hw, hwn⟩
    · rw [hk] at hnone
      cases hnone
    · obtain ⟨rfl, rfl⟩ := Prod.mk.inj hwn
      rw [hall.found hw] at hk
      exact ⟨w, hw, Prod.ext (Option.some.inj hk) rfl⟩
  · obtain ⟨-, -, t, rfl⟩ := mem_trailer hv'
    exact (h.value hn hv).elim

theorem Answered.answerable
    (h : Answered store names (answers store names written ++ trailer data a b i)) :
    Answerable store names where
  unescaped n hn := by
    obtain ⟨v, hv⟩ := h.exists_mem hn
    exact (readString_self_iff n).1 (h.readable (n, v) hv)
  once n hn hnone := by
    obtain ⟨v, hfilter, -⟩ := h.once n hn
    rw [List.filter_append, hall.filter_answers_none hnone] at hfilter
    have hlength := congrArg List.length hfilter
    rw [List.length_append, List.length_replicate, List.length_singleton] at hlength
    have hpos : 0 < names.count n := List.count_pos_iff.2 hn
    omega
  apart n hn n' hn' k hk hk' := by
    obtain ⟨w, hw, hwk⟩ := h.exists_written hall hn hk
    obtain ⟨w', hw', hwk'⟩ := h.exists_written hall hn' hk'
    have hsame : w = w' := List.inj_on_of_nodup_map hall.nodup hw hw' (by rw [hwk, hwk'])
    rw [← hsame, hwk] at hwk'
    exact (Prod.mk.inj hwk').2
  unreserved := by
    rintro ⟨n, hn, hsome⟩ t ht htn
    obtain ⟨k, hk⟩ := Option.ne_none_iff_exists'.1 hsome
    obtain ⟨w, hw, -⟩ := h.exists_written hall hn hk
    obtain ⟨x, hx⟩ := exists_mem_trailer (D := D) (F := F) ht
      (List.ne_nil_of_mem (hall.mem hw)) a b i
    exact h.value htn (List.mem_append_right _ hx)

/-- No name has a member in the trailer. -/
theorem Answerable.filter_trailer (h : Answerable store names) {n : Bytes} (hn : n ∈ names) :
    ((trailer data a b i : List (Bytes × MemberValue D F)).filter fun m => m.1 = n) = [] := by
  refine List.filter_eq_nil_iff.2 fun m hm hmn => ?_
  obtain ⟨hne, hkey, -⟩ := mem_trailer hm
  obtain ⟨d, hd⟩ := List.exists_mem_of_ne_nil data hne
  have hfound := hall.resolved.found d hd
  refine h.unreserved ⟨d.2, hfound.1, by simp [hfound.2]⟩ n ?_ hn
  rwa [← of_decide_eq_true hmn]

theorem Answerable.answered (h : Answerable store names) :
    Answered store names (answers store names written ++ trailer data a b i) where
  readable m hm := by
    apply (readString_self_iff m.1).2
    rcases List.mem_append.1 hm with hm | hm
    · rcases mem_answers hm with ⟨hn, -⟩ | ⟨w, hw, rfl⟩
      · exact h.unescaped m.1 hn
      · exact h.unescaped _ (hall.name_mem hw)
    · exact unescaped_trailerKeys m.1 (mem_trailer hm).2.1
  once n hn := by
    rw [List.filter_append, h.filter_trailer hall hn, List.append_nil]
    cases hk : findCounter store n with
    | none =>
      refine ⟨.notFound, ?_, rfl⟩
      rw [hall.filter_answers_none hk, h.once n hn hk]
      rfl
    | some k =>
      obtain ⟨w, hw, rfl⟩ := hall.exists_written hn hk
      have hname : w.1.2 = n := h.apart _ (hall.name_mem hw) n hn _ (hall.found hw) hk
      refine ⟨.data w.1.1 w.2, ?_, rfl⟩
      rw [← hname]
      exact hall.filter_answers_some hw

/-- **Which names are answered**, by the members of a complete reply. -/
theorem answered_iff (a b i : ℤ) :
    Answered store names (answers store names written ++ trailer data a b i) ↔
      Answerable store names :=
  ⟨fun h => h.answerable hall, fun h => h.answered hall⟩

end Complete

end Counting

/-- The reply is sent once, when all workers have finished; it is an object and answers the names. -/
structure Replied (store : Bytes → Option (StatCounter D F)) (names : List Bytes)
    (s : Multiget D F) : Prop where
  once : s.replies.length ≤ 1
  finished : s.replies ≠ [] ↔ s.Finished
  answered : ∀ reply ∈ s.replies, reply = objectPieces (members reply) ++ [.endObject] ∧
    Answered store names (members reply)

section Replies

variable {range : RangeRequest} {written : List (Written D F)} {s : Multiget D F}

theorem Inv.allWritten (h : Inv store range names written s) (hfin : s.Finished) :
    AllWritten store names s.data written where
  resolved := h.resolved
  perm := by
    have hperm := h.shared
    rwa [hfin.1, List.nil_append] at hperm

theorem Inv.replied (h : Inv store range names written s) (hans : Answerable store names) :
    Replied store names s := by
  by_cases hfin : s.Finished
  · obtain ⟨a, b, i, hreplies⟩ := h.sent hfin
    refine ⟨by rw [hreplies]; rfl, iff_of_true (by simp [hreplies]) hfin, fun reply hreply => ?_⟩
    rw [hreplies, List.mem_singleton] at hreply
    rw [hreply, members_reply]
    exact ⟨rfl, (answered_iff (h.allWritten hfin) a b i).2 hans⟩
  · have hreplies := (h.unsent hfin).1
    refine ⟨by simp [hreplies], iff_of_false (by simp [hreplies]) hfin, fun reply hreply => ?_⟩
    rw [hreplies] at hreply
    cases hreply

theorem Inv.answerable (h : Inv store range names written s) (hfin : s.Finished)
    (hreplied : Replied store names s) : Answerable store names := by
  obtain ⟨a, b, i, hreplies⟩ := h.sent hfin
  have hans := (hreplied.answered _ (by rw [hreplies]; exact List.mem_singleton_self _)).2
  rw [members_reply] at hans
  exact (answered_iff (h.allWritten hfin) a b i).1 hans

theorem inv_onMultigetBody {body : MultigetBody} (h : onMultigetBody store body = .ok s) :
    ∃ range, multigetRange body.start body.stop body.maxSamples body.trailing = .ok range ∧
      Inv store range body.names [] s := by
  unfold onMultigetBody at h
  cases hrange : multigetRange body.start body.stop body.maxSamples body.trailing with
  | error e => rw [hrange] at h; cases h
  | ok range =>
    rw [hrange] at h
    cases hkeys : body.keys with
    | none => rw [hkeys] at h; cases h
    | some names =>
      rw [hkeys] at h
      cases h
      refine ⟨range, rfl, ?_⟩
      rw [MultigetBody.names, hkeys]
      exact inv_go (collected range names)

end Replies

end Invariant

section Requests

variable [FloatArith D F] {store : Bytes → Option (StatCounter D F)} {body : MultigetBody}
  {s₀ : Multiget D F}

/-- **Which requests are answered**: in every order of its workers' steps an accepted request gets
one reply, sent by the last worker, with one member for each name, exactly if the names are
answerable, and no counter is asked for a single sample of an empty range. -/
theorem multiget_answers_iff (h : onMultigetBody store body = .ok s₀) :
    (∀ ops : List (Op D F), ∃ s, ops.foldlM step s₀ = .ok s ∧ Replied store body.names s) ↔
      Answerable store body.names ∧ ((∃ n ∈ body.names, findCounter store n ≠ none) →
        ¬ (body.maxSamples = 1 ∧ EmptyRange body.start body.stop)) := by
  obtain ⟨range, hrange, hinv⟩ := inv_onMultigetBody h
  have hempty := multigetRange_empty_iff body.maxSamples_int hrange
  have hanswering : ¬ (body.maxSamples = 1 ∧ EmptyRange body.start body.stop) →
      Answering D F range := fun hne c now interval =>
    multigetRange_query_ok hrange (fun hr => hne (hempty.1 hr)) c now interval
  constructor
  · intro hall
    have hsafe : (∃ n ∈ body.names, findCounter store n ≠ none) →
        ¬ (body.maxSamples = 1 ∧ EmptyRange body.start body.stop) := by
      rintro ⟨n, hn, hsome⟩ hdiv
      -- the first worker divides by zero
      obtain ⟨k, hk⟩ := Option.ne_none_iff_exists'.1 hsome
      obtain ⟨d, hd, -⟩ := List.mem_map.1 (hinv.resolved.all n hn k hk)
      have hwaiting : s₀.waiting.Perm s₀.data := by simpa using hinv.shared
      obtain ⟨i, hi⟩ := List.getElem?_of_mem (hwaiting.mem_iff.2 hd)
      obtain ⟨c, -⟩ := exists_counter hk
      have hquery : c.query 0 0 s₀.range = .error .divisionByZero := by
        obtain ⟨hm, he⟩ := hempty.2 hdiv
        rw [hinv.range, StatCounter.query, StatCounter.select_divides_iff, defaultRange_empty_iff]
        exact ⟨hm, he⟩
      have hstep : s₀.step (.work i c 0 0) = .error .divisionByZero := by
        unfold step
        simp only [hi, hquery]
        rfl
      obtain ⟨s, hs, -⟩ := hall [.work i c 0 0]
      rw [Run.foldlM_cons_error hstep] at hs
      cases hs
    refine ⟨?_, hsafe⟩
    obtain ⟨ops, s, hrun, hfin⟩ := hinv.exists_finished fun hfound => hanswering (hsafe hfound)
    obtain ⟨s', hrun', hreplied⟩ := hall ops
    obtain ⟨s'', hrun'', written, hinv'⟩ := hinv.run (fun hfound => hanswering (hsafe hfound)) ops
    rw [hrun] at hrun' hrun''
    cases hrun'
    cases hrun''
    exact hinv'.answerable hfin hreplied
  · rintro ⟨hans, hsafe⟩ ops
    obtain ⟨s, hrun, written, hinv'⟩ := hinv.run (fun hfound => hanswering (hsafe hfound)) ops
    exact ⟨s, hrun, hinv'.replied hans⟩

end Requests

/-- A store with a counter `a`. -/
def sampleStore (key : Bytes) : Option (StatCounter ℚ ℚ) :=
  if key = bytes "a" then some sampleGauge else none

/-- A request for the minute from 1000 on. -/
def sampleBody (names : List Bytes) : MultigetBody where
  start := 1000
  stop := 1060
  maxSamples := 0
  trailing := false
  keys := some names
  maxSamples_int := by decide

/-- One name with a counter and one without. -/
theorem multiget_answers_two :
    ∃ s₀, onMultigetBody sampleStore (sampleBody [bytes "*A", bytes "b"]) = .ok s₀ ∧
      ∀ ops : List (Op ℚ ℚ), ∃ s, ops.foldlM step s₀ = .ok s ∧
        Replied sampleStore [bytes "*A", bytes "b"] s := by
  obtain ⟨s₀, h⟩ : ∃ s₀, onMultigetBody sampleStore (sampleBody [bytes "*A", bytes "b"]) = .ok s₀ :=
    ⟨_, rfl⟩
  exact ⟨s₀, h, (multiget_answers_iff h).2
    ⟨⟨by decide, by decide, by decide, by decide⟩, fun _ => by decide⟩⟩

/-- Two names of one counter: the reply has no member for the first. -/
theorem multiget_loses_name :
    ∃ s₀ s, onMultigetBody sampleStore (sampleBody [bytes "a", bytes "A"]) = .ok s₀ ∧
      [.work 0 sampleGauge 2000 10, .count].foldlM step s₀ = .ok s ∧ s.Finished ∧
      s.replies.map (fun reply => (members reply).map Prod.fst) =
        [[bytes "A", bytes "start", bytes "stop", bytes "interval"]] := by
  refine ⟨_, _, rfl, rfl, ⟨rfl, rfl⟩, ?_⟩
  decide +kernel

end Multiget

end Istatd
