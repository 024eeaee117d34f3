import Istatd.Lib.Deal
import Istatd.Lib.Run
import Istatd.Bucketizer
import Istatd.StrFunc

/-!
# Forwarding by an agent

An agent keeps a `Bucketizer` for each counter that got a sample, and from time to time
`clearForward` takes them all out and writes their buckets, one line each, to the connections that
can be used.  The counters are dealt to these round-robin.

Numbers are printed exactly, so a line is its fields.  `std::tr1::unordered_map` may have its entries
in any order; each call of `clearForward` is given one.

* `AgentForward.handleForward`, `AgentForward.clearForward`;
* `Good`: the calls under which data is kept;
* `AgentForward.conserved`: what was written and what is still there weighs as much as the samples;
* `clearForward_batches`: all lines of a counter go to one connection;
* `forwarding_preserves`: the receivers get the same buckets as from the samples themselves.
-/

namespace Istatd

open FloatArith

section Model

variable {D F : Type} [FloatArith D F]

/-- A line of `clearForward`: for counters that start with `*` the sum only. -/
inductive ForwardLine (D F : Type)
  | total (name : Bytes) (time : ℤ) (sum : D)
  | full (name : Bytes) (time : ℤ) (sum : D) (sumSq min max : F) (count : ℤ)
  deriving DecidableEq

namespace ForwardLine

/-- The line for a bucket. -/
def ofBucket (name : Bytes) (b : Bucket D F) : ForwardLine D F :=
  if name.head? = some (byte '*') then .total name b.time b.sum
  else .full name b.time b.sum b.sumSq b.min b.max b.count

/-- The counter. -/
def name : ForwardLine D F → Bytes
  | total name _ _ => name
  | full name _ _ _ _ _ _ => name

/-- The bucket that a receiver makes of a line. -/
def bucket : ForwardLine D F → Bucket D F
  | total _ time sum => Bucket.make sum (narrow (mul F sum sum)) (narrow sum) (narrow sum) 1 time
  | full _ time sum sumSq min max count => Bucket.make sum sumSq min max count time

end ForwardLine

/-- A forward connection at a call of `clearForward`. -/
structure ForwardConn where
  opened : Bool
  connected : Bool
  deriving DecidableEq

/-- The arguments of `handle_forward`, and the clock. -/
structure ForwardSample (D : Type) where
  clock : ℤ
  ctr : Bytes
  time : ℤ
  val : D
  sumSq : D
  min : D
  max : D
  n : ℤ

/-- The bucket made of a sample; its count is an `int`. -/
def ForwardSample.bucket (x : ForwardSample D) : Bucket D F :=
  Bucket.make x.val (narrow x.sumSq) (narrow x.min) (narrow x.max) (toInt32 x.n)
    (if x.time = 0 then x.clock else x.time)

/-- What the forwarding part of a server keeps, and the calls of `writeOut` so far, each with the
position of the connection in `forward_` and its lines. -/
structure AgentForward (D F : Type) where
  forwardBuckets : List (Bytes × Bucketizer D F)
  noConnectionCounts : List ℕ
  written : List (ℕ × List (ForwardLine D F))

/-- `MAX_AGENT_CONN_TRIES`. -/
def maxAgentConnTries : ℕ := 3

/-- The loop over `forward_` in `clearForward`, from position `i` on: the new counts of failures, and
the positions of the connections to be used. -/
def pollConns : ℕ → List ℕ → List ForwardConn → List ℕ × List ℕ
  | _, counts, [] => (counts, [])
  | i, [], c :: conns =>
    let r := pollConns (i + 1) [] conns
    (r.1, if c.opened then i :: r.2 else r.2)
  | i, n :: counts, c :: conns =>
    let n' := if c.opened then if c.connected then 0 else (n + 1) % 2 ^ 16 else n
    let r := pollConns (i + 1) counts conns
    (n' :: r.1, if c.opened ∧ n' ≤ maxAgentConnTries then i :: r.2 else r.2)

namespace AgentForward

variable (s : AgentForward D F)

/-- The `Bucketizer` a sample goes to. -/
def bucketizerFor (x : ForwardSample D) : Bucketizer D F :=
  (s.forwardBuckets.lookup x.ctr).getD (.new x.clock)

/-- `handle_forward`. -/
def handleForward (x : ForwardSample D) : AgentForward D F :=
  let bz := (s.bucketizerFor x).update x.bucket
  { s with forwardBuckets :=
      match s.forwardBuckets.lookup x.ctr with
      | none => (x.ctr, bz) :: s.forwardBuckets
      | some _ => s.forwardBuckets.map fun e => if e.1 = x.ctr then (e.1, bz) else e }

/-- The message of the update in `handle_forward`. -/
def updateErrMsg (x : ForwardSample D) : Option BadTime :=
  ((s.bucketizerFor x).update x.bucket : Bucketizer D F).updateErrMsg

/-- The lines for a counter. -/
def batch (name : Bytes) : List (ForwardLine D F) :=
  match s.forwardBuckets.lookup name with
  | none => []
  | some bz => (bz.buckets.filter (0 < ·.count)).map (ForwardLine.ofBucket name)

/-- The calls of `writeOut` that `clearForward` makes, with the counters in the given order. -/
def output (order : List Bytes) (conns : List ForwardConn) : List (ℕ × List (ForwardLine D F)) :=
  let usable := (pollConns 0 s.noConnectionCounts conns).2
  if 0 < usable.length ∧ 0 < s.forwardBuckets.length then
    let ss := Deal.deal (List.replicate usable.length []) 0 (order.map s.batch)
    (usable.zip ss).filter (·.2 ≠ [])
  else []

/-- `clearForward`. -/
def clearForward (order : List Bytes) (conns : List ForwardConn) : AgentForward D F where
  forwardBuckets := []
  noConnectionCounts := (pollConns 0 s.noConnectionCounts conns).1
  written := s.written ++ s.output order conns

end AgentForward

/-- A call of `handle_forward`, or of `clearForward` with the order of the map and the state of the
connections. -/
inductive ForwardOp (D : Type)
  | sample (x : ForwardSample D)
  | clear (order : List Bytes) (conns : List ForwardConn)

/-- The samples among the calls. -/
def ForwardOp.samples : List (ForwardOp D) → List (ForwardSample D)
  | [] => []
  | .sample x :: ops => x :: samples ops
  | .clear _ _ :: ops => samples ops

namespace AgentForward

/-- One call. -/
def step (s : AgentForward D F) : ForwardOp D → AgentForward D F
  | .sample x => s.handleForward x
  | .clear order conns => s.clearForward order conns

/-- Nothing was received, and there are connections to `n` agents. -/
def start (n : ℕ) : AgentForward D F := ⟨[], List.replicate n 0, []⟩

/-- The state after some calls. -/
def after (n : ℕ) (ops : List (ForwardOp D)) : AgentForward D F := ops.foldl step (start n)

/-- All lines written so far. -/
def lines (s : AgentForward D F) : List (ForwardLine D F) := s.written.flatMap Prod.snd

end AgentForward

/-- A sample that is accepted, with a bucket that counts something, at a time that is near enough for
the index of its bucket not to wrap.  A call of `clearForward` that goes through the map and finds a
connection to use. -/
def Good (s : AgentForward D F) : ForwardOp D → Prop
  | .sample x =>
    1 ≤ toInt32 x.n ∧ (s.bucketizerFor x).Fits (x.bucket : Bucket D F).time ∧
      s.updateErrMsg x = none
  | .clear order conns =>
    order.Perm (s.forwardBuckets.map Prod.fst) ∧ (pollConns 0 s.noConnectionCounts conns).2 ≠ []

instance decidableGood (s : AgentForward D F) : ∀ op, Decidable (Good s op)
  | .sample _ => inferInstanceAs (Decidable (_ ∧ _ ∧ _))
  | .clear _ _ => inferInstanceAs (Decidable (_ ∧ _))

/-- The same, with a count of at least 1 and a time that is near the clock. -/
def NearClock (s : AgentForward D F) : ForwardOp D → Prop
  | .sample x =>
    1 ≤ x.n ∧ |(x.bucket : Bucket D F).time - x.clock| < 2 ^ 31 ∧ s.updateErrMsg x = none
  | .clear order conns =>
    order.Perm (s.forwardBuckets.map Prod.fst) ∧ (pollConns 0 s.noConnectionCounts conns).2 ≠ []

instance decidableNearClock (s : AgentForward D F) : ∀ op, Decidable (NearClock s op)
  | .sample _ => inferInstanceAs (Decidable (_ ∧ _ ∧ _))
  | .clear _ _ => inferInstanceAs (Decidable (_ ∧ _))

/-- The samples of a counter, as buckets. -/
def samplesOf (n : Bytes) (l : List (ForwardSample D)) : List (Bucket D F) :=
  (l.filter (·.ctr = n)).map (·.bucket)

/-- The lines of a counter. -/
def linesOf (n : Bytes) (l : List (ForwardLine D F)) : List (ForwardLine D F) :=
  l.filter (·.name = n)

/-- The buckets of the interval of `I` seconds from `q` on. -/
def inInterval (I q : ℤ) (l : List (Bucket D F)) : List (Bucket D F) :=
  l.filter (Grid.cellStart I ·.time = q)

/-- `clearForward` calls `writeOut` at most once for a connection, and all lines of the counter `n`
go to one of them. -/
def OneConnection (s : AgentForward D F) (order : List Bytes) (conns : List ForwardConn)
    (n : Bytes) : Prop :=
  ((s.output order conns).map Prod.fst).Nodup ∧
    (s.batch n ≠ [] → ∃ e ∈ s.output order conns, linesOf n e.2 = s.batch n ∧
      ∀ e' ∈ s.output order conns, e'.1 ≠ e.1 → linesOf n e'.2 = [])

end Model

/-! ### The map -/

section Map

section Lookup

variable {κ ν : Type*} [DecidableEq κ] [BEq κ] [LawfulBEq κ] {l : List (κ × ν)}

theorem lookup_cons_eq (k : κ) (a : κ × ν) :
    (a :: l).lookup k = if k = a.1 then some a.2 else l.lookup k := by
  rw [List.lookup_cons]
  by_cases hk : k = a.1
  · rw [if_pos hk, beq_iff_eq.2 hk]
  · rw [if_neg hk, beq_false_of_ne hk]

theorem lookup_eq_none_iff_not_mem {k : κ} : l.lookup k = none ↔ k ∉ l.map Prod.fst := by
  induction l with
  | nil => simp
  | cons a l ih =>
    rw [lookup_cons_eq, List.map_cons, List.mem_cons, not_or, ← ih]
    by_cases hk : k = a.1
    · simp [hk]
    · simp [hk]

/-- A value replaced in a list of entries. -/
theorem lookup_map_replace (k n : κ) (v : ν) :
    (l.map fun e => if e.1 = k then (e.1, v) else e).lookup n =
      if n = k then (l.lookup k).map fun _ => v else l.lookup n := by
  induction l with
  | nil => simp
  | cons a l ih =>
    have hkey : (if a.1 = k then (a.1, v) else a).1 = a.1 := by split_ifs <;> rfl
    rw [List.map_cons, lookup_cons_eq, lookup_cons_eq, lookup_cons_eq, ih, hkey]
    by_cases hn : n = k
    · subst hn
      by_cases ha : n = a.1
      · simp [← ha]
      · simp [ha]
    · by_cases ha : n = a.1
      · simp [← ha, hn]
      · simp [ha, hn]

end Lookup

variable {D F : Type} [FloatArith D F] {s : AgentForward D F}

/-- The keys of the map are different. -/
def AgentForward.KeysNodup (s : AgentForward D F) : Prop := (s.forwardBuckets.map Prod.fst).Nodup

theorem AgentForward.KeysNodup.handleForward (hs : s.KeysNodup) (x : ForwardSample D) :
    (s.handleForward x).KeysNodup := by
  unfold AgentForward.handleForward
  cases hl : s.forwardBuckets.lookup x.ctr with
  | none => exact List.nodup_cons.2 ⟨lookup_eq_none_iff_not_mem.1 hl, hs⟩
  | some bz =>
    have hkeys : (s.forwardBuckets.map fun e => if e.1 = x.ctr then
        (e.1, (s.bucketizerFor x).update x.bucket) else e).map Prod.fst =
        s.forwardBuckets.map Prod.fst := by
      rw [List.map_map]
      refine List.map_congr_left fun e _ => ?_
      simp only [Function.comp_apply]
      split_ifs <;> rfl
    unfold KeysNodup
    simp only [hkeys]
    exact hs

theorem AgentForward.KeysNodup.step (hs : s.KeysNodup) (op : ForwardOp D) :
    (s.step op).KeysNodup := by
  cases op with
  | sample x => exact hs.handleForward x
  | clear order conns => exact List.nodup_nil

theorem AgentForward.keysNodup_after (k : ℕ) (ops : List (ForwardOp D)) :
    (after k ops : AgentForward D F).KeysNodup := by
  have hstart : (start k : AgentForward D F).KeysNodup := List.nodup_nil
  exact Run.invariant (I := KeysNodup) (fun s op hs => hs.step op) hstart ops

/-- The entry of a counter after a sample. -/
theorem AgentForward.lookup_handleForward (s : AgentForward D F) (x : ForwardSample D) (n : Bytes) :
    (s.handleForward x).forwardBuckets.lookup n =
      if n = x.ctr then some ((s.bucketizerFor x).update x.bucket)
      else s.forwardBuckets.lookup n := by
  unfold handleForward
  cases hl : s.forwardBuckets.lookup x.ctr with
  | none => exact lookup_cons_eq ..
  | some bz => simp only [lookup_map_replace, hl, Option.map_some]

end Map

/-! ### What `clearForward` writes -/

section Output

variable {D F : Type} [FloatArith D F] {s : AgentForward D F} {order : List Bytes}
  {conns : List ForwardConn} {n : Bytes}

/-- The positions found by the loop over the connections. -/
theorem pollConns_sorted (i : ℕ) (counts : List ℕ) (conns : List ForwardConn) :
    (∀ j ∈ (pollConns i counts conns).2, i ≤ j) ∧ (pollConns i counts conns).2.Nodup := by
  induction conns generalizing i counts with
  | nil => simp [pollConns]
  | cons c conns ih =>
    have hcons : ∀ (counts : List ℕ) (P : Prop) [Decidable P],
        (∀ j ∈ (if P then i :: (pollConns (i + 1) counts conns).2 else
          (pollConns (i + 1) counts conns).2), i ≤ j) ∧
        (if P then i :: (pollConns (i + 1) counts conns).2 else
          (pollConns (i + 1) counts conns).2).Nodup := by
      intro counts P _
      obtain ⟨hle, hnodup⟩ := ih (i + 1) counts
      split_ifs
      · refine ⟨?_, List.nodup_cons.2 ⟨fun hi => ?_, hnodup⟩⟩
        · rintro j (_ | ⟨_, hj⟩)
          · exact le_rfl
          · exact (Nat.le_succ i).trans (hle j hj)
        · exact absurd (hle i hi) (by omega)
      · exact ⟨fun j hj => (Nat.le_succ i).trans (hle j hj), hnodup⟩
    cases counts with
    | nil => exact hcons [] (c.opened = true)
    | cons n counts => exact hcons counts _

/-- Connections without a line are left out. -/
theorem flatMap_zip_filter {ι α : Type*} (us : List ι) (hs : List (List α))
    (hlen : us.length = hs.length) :
    ((us.zip hs).filter (·.2 ≠ [])).flatMap Prod.snd = hs.flatten := by
  induction us generalizing hs with
  | nil => simp [List.length_eq_zero_iff.1 hlen.symm]
  | cons u us ih =>
    obtain ⟨h, hs, rfl⟩ := List.exists_cons_of_length_pos (by rw [← hlen]; simp : 0 < hs.length)
    have ih' := ih hs (by simpa using hlen)
    by_cases hne : h = []
    · simpa [hne] using ih'
    · simpa [hne] using ih'

theorem name_of_mem_batch {m : Bytes} {x : ForwardLine D F} (hx : x ∈ s.batch m) : x.name = m := by
  unfold AgentForward.batch at hx
  cases hl : s.forwardBuckets.lookup m with
  | none =>
    rw [hl] at hx
    cases hx
  | some bz =>
    rw [hl] at hx
    obtain ⟨b, -, rfl⟩ := List.mem_map.1 hx
    unfold ForwardLine.ofBucket
    split_ifs <;> rfl

/-- A count that is an `int`, and a time near a clock that has not moved by 500 years since the
`Bucketizer` was made. -/
theorem NearClock.good {x : ForwardSample D} (h : NearClock s (.sample x)) (hint : x.n < 2 ^ 31)
    (hclock : |x.clock - (s.bucketizerFor x).now| < 2 ^ 34) : Good s (.sample x) := by
  obtain ⟨hcount, htime, haccept⟩ := h
  have hn : toInt32 x.n = x.n := toInt32_of_lt hcount hint
  refine ⟨by rwa [hn], ?_, haccept⟩
  have hlt : (x.bucket : Bucket D F).time.tmod 10 < 10 := Int.tmod_lt_of_pos _ (by decide)
  have hgt : -10 < (x.bucket : Bucket D F).time.tmod 10 := Int.lt_tmod_of_pos _ (by decide)
  unfold Bucketizer.Fits Grid.cellStart
  rw [abs_lt] at htime hclock ⊢
  omega

/-- The strings that `clearForward` makes for the connections it uses. -/
def AgentForward.strings (s : AgentForward D F) (order : List Bytes) (conns : List ForwardConn) :
    List (List (ForwardLine D F)) :=
  Deal.deal (List.replicate (pollConns 0 s.noConnectionCounts conns).2.length []) 0
    (order.map s.batch)

theorem AgentForward.length_strings (s : AgentForward D F) (order : List Bytes)
    (conns : List ForwardConn) :
    (s.strings order conns).length = (pollConns 0 s.noConnectionCounts conns).2.length := by
  rw [strings, Deal.length_deal, List.length_replicate]

/-- The output of a good call, also for an empty map. -/
theorem Good.output_eq (h : Good s (.clear order conns)) :
    s.output order conns =
      ((pollConns 0 s.noConnectionCounts conns).2.zip (s.strings order conns)).filter
        (·.2 ≠ []) := by
  obtain ⟨horder, husable⟩ := h
  have hpos := List.length_pos_iff.2 husable
  unfold AgentForward.output AgentForward.strings
  by_cases hmap : 0 < s.forwardBuckets.length
  · rw [if_pos ⟨hpos, hmap⟩]
  · have hnil : order = [] := by
      have hlen := horder.length_eq
      rw [List.length_map] at hlen
      exact List.length_eq_zero_iff.1 (by omega)
    rw [if_neg fun h => hmap h.2, hnil, List.map_nil, Deal.deal]
    refine (List.filter_eq_nil_iff.2 fun e he => ?_).symm
    have hsnd := List.eq_of_mem_replicate (List.of_mem_zip he).2
    simp [hsnd]

/-- All lines of all counters are written, in some order. -/
theorem Good.output_perm (h : Good s (.clear order conns)) :
    ((s.output order conns).flatMap Prod.snd).Perm (order.map s.batch).flatten := by
  have hpos := List.length_pos_iff.2 h.2
  rw [h.output_eq, flatMap_zip_filter _ _ (s.length_strings order conns).symm]
  refine (Deal.flatten_deal_perm (by simpa using hpos) _).trans ?_
  rw [List.flatten_replicate_nil, List.nil_append]

theorem linesOf_batch : linesOf n (s.batch n) = s.batch n :=
  List.filter_eq_self.2 fun x hx => by simpa using name_of_mem_batch hx

theorem linesOf_batch_of_ne {m : Bytes} (hm : m ≠ n) : linesOf n (s.batch m) = [] :=
  List.filter_eq_nil_iff.2 fun x hx => by simpa [name_of_mem_batch hx] using hm

theorem batch_eq_nil (hn : n ∉ s.forwardBuckets.map Prod.fst) : s.batch n = [] := by
  rw [AgentForward.batch, lookup_eq_none_iff_not_mem.2 hn]

/-- The lines of one counter are those of its batch. -/
theorem Good.linesOf_output (hs : s.KeysNodup) (h : Good s (.clear order conns)) :
    (linesOf n ((s.output order conns).flatMap Prod.snd)).Perm (s.batch n) := by
  have hflatten : ∀ order : List Bytes, order.Nodup →
      linesOf n (order.map s.batch).flatten = if n ∈ order then s.batch n else [] := by
    intro order hnodup
    induction order with
    | nil => rfl
    | cons m order ih =>
      obtain ⟨hm, hnodup⟩ := List.nodup_cons.1 hnodup
      have happend : linesOf n ((m :: order).map s.batch).flatten =
          linesOf n (s.batch m) ++ linesOf n (order.map s.batch).flatten := List.filter_append ..
      rw [happend, ih hnodup]
      by_cases hmn : m = n
      · subst hmn
        rw [linesOf_batch]
        simp [hm]
      · rw [linesOf_batch_of_ne hmn]
        simp [Ne.symm hmn]
  refine (h.output_perm.filter _).trans (List.Perm.of_eq ?_)
  refine (hflatten order (h.1.nodup_iff.2 hs)).trans ?_
  split_ifs with hn
  · rfl
  · exact (batch_eq_nil fun hmem => hn (h.1.mem_iff.2 hmem)).symm

/-- The string with the lines of a counter. -/
theorem Good.exists_string (hs : s.KeysNodup) (h : Good s (.clear order conns)) (hn : n ∈ order) :
    ∃ j < (s.strings order conns).length, ∀ i,
      ((s.strings order conns)[i]?.map (linesOf n)) =
        if i < (s.strings order conns).length then some (if i = j then s.batch n else [])
        else none := by
  have hpos := List.length_pos_iff.2 h.2
  have hnodup : order.Nodup := h.1.nodup_iff.2 hs
  have hstrings : ∃ j < (List.replicate (pollConns 0 s.noConnectionCounts conns).2.length
      ([] : List (ForwardLine D F))).length,
      (s.strings order conns).map (List.filter fun x => x.name = n) =
      (List.replicate (List.replicate (pollConns 0 s.noConnectionCounts conns).2.length
        ([] : List (ForwardLine D F))).length []).set j (s.batch n) :=
    Deal.exists_hand (fun m x hx => name_of_mem_batch hx) (by simpa using hpos) hnodup hn
      (fun hand hhand => by rw [List.eq_of_mem_replicate hhand]; rfl)
  obtain ⟨j, hj, hmap⟩ := hstrings
  rw [List.length_replicate] at hj hmap
  rw [s.length_strings]
  refine ⟨j, hj, fun i => ?_⟩
  have hi : ((s.strings order conns).map (linesOf n))[i]? =
      ((List.replicate (pollConns 0 s.noConnectionCounts conns).2.length []).set j (s.batch n))[i]? :=
    congrArg (·[i]?) hmap
  rw [← List.getElem?_map, hi, List.getElem?_set, List.getElem?_replicate, List.length_replicate]
  by_cases hij : i = j
  · subst hij
    simp [hj]
  · simp [hij, Ne.symm hij]

/-- **A batch goes to one connection.** -/
theorem Good.oneConnection (hs : s.KeysNodup) (h : Good s (.clear order conns)) (n : Bytes) :
    OneConnection s order conns n := by
  have hlen := s.length_strings order conns
  unfold OneConnection
  rw [h.output_eq]
  constructor
  · refine (pollConns_sorted 0 s.noConnectionCounts conns).2.sublist ?_
    refine (List.filter_sublist.map Prod.fst).trans ?_
    rw [List.map_fst_zip (by omega)]
  · intro hbatch
    have hmem : n ∈ order := by
      by_contra hn
      exact hbatch (batch_eq_nil fun hmem => hn (h.1.mem_iff.2 hmem))
    obtain ⟨j, hj, hstring⟩ := h.exists_string hs hmem
    have hstring' : ∀ i (hi : i < (s.strings order conns).length),
        linesOf n (s.strings order conns)[i] = if i = j then s.batch n else [] := by
      intro i hi
      have hi' := hstring i
      rw [List.getElem?_eq_getElem hi, if_pos hi] at hi'
      exact Option.some.inj hi'
    have hj' : j < (pollConns 0 s.noConnectionCounts conns).2.length := by omega
    have hlines := hstring' j hj
    rw [if_pos rfl] at hlines
    refine ⟨((pollConns 0 s.noConnectionCounts conns).2[j], (s.strings order conns)[j]), ?_, hlines,
      ?_⟩
    · rw [List.mem_filter]
      refine ⟨List.mem_iff_getElem.2 ⟨j, by simp [hj, hj'], List.getElem_zip⟩, ?_⟩
      simp only [ne_eq, decide_not, Bool.not_eq_eq_eq_not, Bool.not_true, decide_eq_false_iff_not]
      intro hnil
      rw [hnil] at hlines
      exact hbatch hlines.symm
    · intro e' he' hne
      obtain ⟨i, hi, rfl⟩ := List.mem_iff_getElem.1 (List.mem_filter.1 he').1
      rw [List.length_zip] at hi
      rw [List.getElem_zip] at hne ⊢
      have hij : i ≠ j := by
        rintro rfl
        exact hne rfl
      rw [hstring' i (by omega), if_neg hij]

end Output

/-! ### Every sample is in one line -/

section Accounted

variable {D F : Type} [FloatArith D F] {s : AgentForward D F} {n : Bytes}
  {sent pending : List (List (Bucket D F))} {xs : List (Bucket D F)}

/-- The groups of samples of a counter that are kept. -/
def AgentForward.Pending (s : AgentForward D F) (n : Bytes) (gs : List (List (Bucket D F))) : Prop :=
  match s.forwardBuckets.lookup n with
  | none => gs = []
  | some bz => bz.Holds gs

/-- The samples `xs` of a counter are in groups, those sent and those that are kept, and the lines
of the counter are the groups sent. -/
structure AgentForward.Accounted (s : AgentForward D F) (n : Bytes) (xs : List (Bucket D F))
    (sent pending : List (List (Bucket D F))) : Prop where
  kept : s.Pending n pending
  lines : (linesOf n s.lines).Perm (sent.map fun g => ForwardLine.ofBucket n (mergeAll g))
  group : ∀ g ∈ sent, g ≠ [] ∧ ∃ q, OfCell q g
  samples : (sent ++ pending).flatten.Perm xs

namespace AgentForward

/-- The groups in the `Bucketizer` for a sample. -/
theorem Pending.bucketizerFor {x : ForwardSample D} (h : s.Pending x.ctr pending) :
    ∃ gs, (s.bucketizerFor x).Holds gs ∧ gs.flatten = pending.flatten := by
  unfold Pending at h
  unfold AgentForward.bucketizerFor
  cases hl : s.forwardBuckets.lookup x.ctr with
  | none =>
    rw [hl] at h
    refine ⟨_, Bucketizer.holds_new x.clock, ?_⟩
    rw [h, List.flatten_replicate_nil]
    rfl
  | some bz =>
    rw [hl] at h
    exact ⟨pending, h, rfl⟩

/-- A good sample joins one group that is kept. -/
theorem Pending.handleForward (h : s.Pending n pending) {x : ForwardSample D}
    (hx : Good s (.sample x)) :
    ∃ pending', (s.handleForward x).Pending n pending' ∧
      pending'.flatten.Perm (pending.flatten ++ samplesOf n [x]) := by
  by_cases hn : n = x.ctr
  · subst hn
    obtain ⟨gs, hgs, hflatten⟩ := h.bucketizerFor
    obtain ⟨i, hi, hupdate⟩ := hgs.update hx.1 hx.2.1 hx.2.2
    have hone : (samplesOf x.ctr [x] : List (Bucket D F)) = [x.bucket] := by simp [samplesOf]
    refine ⟨gs.modify i (· ++ [x.bucket]), ?_, ?_⟩
    · unfold Pending
      rw [lookup_handleForward, if_pos rfl]
      exact hupdate
    · rw [hone, ← hflatten]
      exact Deal.flatten_modify_perm hi [x.bucket]
  · have hnone : (samplesOf n [x] : List (Bucket D F)) = [] := by simp [samplesOf, Ne.symm hn]
    refine ⟨pending, ?_, ?_⟩
    · unfold Pending
      rw [lookup_handleForward, if_neg hn]
      exact h
    · rw [hnone, List.append_nil]

theorem Accounted.handleForward (h : s.Accounted n xs sent pending) {x : ForwardSample D}
    (hx : Good s (.sample x)) :
    ∃ pending', (s.handleForward x).Accounted n (xs ++ samplesOf n [x]) sent pending' := by
  obtain ⟨pending', hpending', hperm⟩ := h.kept.handleForward hx
  refine ⟨pending', ⟨hpending', h.lines, h.group, ?_⟩⟩
  rw [List.flatten_append]
  refine (hperm.append_left _).trans ?_
  rw [← List.append_assoc, ← List.flatten_append]
  exact h.samples.append_right _

/-- The lines of a counter are the groups that are kept. -/
theorem Pending.batch_eq (h : s.Pending n pending) :
    s.batch n = (pending.filter (· ≠ [])).map fun g => ForwardLine.ofBucket n (mergeAll g) := by
  unfold Pending at h
  unfold batch
  cases hl : s.forwardBuckets.lookup n with
  | none =>
    rw [hl] at h
    rw [h]
    rfl
  | some bz =>
    rw [hl] at h
    have hfilter : pending.filter (fun g => 0 < (mergeAll g).count) = pending.filter (· ≠ []) := by
      refine List.filter_congr fun g hg => ?_
      obtain ⟨i, hi⟩ := List.mem_iff_getElem?.1 hg
      exact decide_eq_decide.2 (mergeAll_count_pos_iff fun b hb => (h.group i g hi b hb).1)
    simp only
    rw [h.buckets, List.filter_map, List.map_map, ← hfilter]
    rfl

theorem Pending.group (h : s.Pending n pending) {g : List (Bucket D F)} (hg : g ∈ pending) :
    ∃ q, OfCell q g := by
  unfold Pending at h
  cases hl : s.forwardBuckets.lookup n with
  | none =>
    rw [hl] at h
    rw [h] at hg
    cases hg
  | some bz =>
    rw [hl] at h
    obtain ⟨i, hi⟩ := List.mem_iff_getElem?.1 hg
    exact ⟨_, h.group i g hi⟩

/-- A good call of `clearForward` sends all groups. -/
theorem Accounted.clearForward (h : s.Accounted n xs sent pending) (hs : s.KeysNodup)
    {order : List Bytes} {conns : List ForwardConn} (hc : Good s (.clear order conns)) :
    (s.clearForward order conns).Accounted n xs (sent ++ pending.filter (· ≠ [])) [] where
  kept := rfl
  lines := by
    have happend : linesOf n (s.clearForward order conns).lines =
        linesOf n s.lines ++ linesOf n ((s.output order conns).flatMap Prod.snd) := by
      unfold AgentForward.lines AgentForward.clearForward linesOf
      rw [List.flatMap_append, List.filter_append]
    rw [happend, List.map_append, ← h.kept.batch_eq]
    exact h.lines.append (hc.linesOf_output hs)
  group g hg := by
    rcases List.mem_append.1 hg with hg | hg
    · exact h.group g hg
    · obtain ⟨hg, hne⟩ := List.mem_filter.1 hg
      exact ⟨by simpa using hne, h.kept.group hg⟩
  samples := by
    rw [List.append_nil, List.flatten_append, List.flatten_filter_ne_nil, ← List.flatten_append]
    exact h.samples

theorem samplesOf_cons (n : Bytes) (x : ForwardSample D) (l : List (ForwardSample D)) :
    (samplesOf n (x :: l) : List (Bucket D F)) = samplesOf n [x] ++ samplesOf n l := by
  unfold samplesOf
  rw [← List.singleton_append, List.filter_append, List.map_append]

/-- **Every sample is accounted for**, along every run of good calls. -/
theorem Accounted.run {ops : List (ForwardOp D)} (h : s.Accounted n xs sent pending)
    (hs : s.KeysNodup) (hops : Run.Along step Good s ops) :
    ∃ sent' pending', (ops.foldl step s).Accounted n (xs ++ samplesOf n (ForwardOp.samples ops))
      sent' pending' := by
  induction ops generalizing s xs sent pending with
  | nil =>
    refine ⟨sent, pending, ?_⟩
    rw [ForwardOp.samples, samplesOf, List.filter_nil, List.map_nil, List.append_nil]
    exact h
  | cons op ops ih =>
    obtain ⟨hop, hops⟩ := hops
    cases op with
    | sample x =>
      obtain ⟨pending', h'⟩ := h.handleForward hop
      obtain ⟨sent'', pending'', h''⟩ := ih h' (hs.handleForward x) hops
      refine ⟨sent'', pending'', ?_⟩
      rw [ForwardOp.samples, samplesOf_cons, ← List.append_assoc]
      exact h''
    | clear order conns => exact ih (h.clearForward hs hop) (hs.step (.clear order conns)) hops

theorem accounted_start (k : ℕ) (n : Bytes) :
    (start k : AgentForward D F).Accounted n [] [] [] :=
  ⟨rfl, .rfl, nofun, .rfl⟩

/-- After a last call of `clearForward` nothing is kept. -/
theorem exists_groups {k : ℕ} {ops : List (ForwardOp D)} {order : List Bytes}
    {conns : List ForwardConn}
    (h : Run.Along step Good (start k : AgentForward D F) (ops ++ [ForwardOp.clear order conns]))
    (n : Bytes) :
    ∃ gs : List (List (Bucket D F)), (∀ g ∈ gs, g ≠ [] ∧ ∃ q, OfCell q g) ∧
      gs.flatten.Perm (samplesOf n (ForwardOp.samples ops)) ∧
      (linesOf n (after k (ops ++ [ForwardOp.clear order conns]) : AgentForward D F).lines).Perm
        (gs.map fun g => ForwardLine.ofBucket n (mergeAll g)) := by
  obtain ⟨hops, hclear, -⟩ := Run.along_append.1 h
  obtain ⟨sent, pending, hrun⟩ := (accounted_start k n).run List.nodup_nil hops
  have hlast := hrun.clearForward (keysNodup_after k ops) hclear
  refine ⟨_, hlast.group, ?_, ?_⟩
  · simpa using hlast.samples
  · rw [after, List.foldl_append]
    exact hlast.lines

end AgentForward

end Accounted

/-! ### The same buckets for the receivers -/

section Exact

variable {n : Bytes} {I q : ℤ} {gs : List (List (Bucket ℚ ℚ))}

theorem ofBucket_bucket_time (n : Bytes) (b : Bucket ℚ ℚ) :
    (ForwardLine.ofBucket n b).bucket.time = b.time := by
  unfold ForwardLine.ofBucket
  split_ifs <;> rfl

theorem ofBucket_bucket_sum (n : Bytes) (b : Bucket ℚ ℚ) :
    (ForwardLine.ofBucket n b).bucket.sum_ = b.sum_ := by
  unfold ForwardLine.ofBucket
  split_ifs <;> rfl

theorem ofBucket_bucket_of_plain (hn : n.head? ≠ some (byte '*')) (b : Bucket ℚ ℚ) :
    (ForwardLine.ofBucket n b).bucket = b := by
  rw [ForwardLine.ofBucket, if_neg hn]
  rfl

/-- What is added up over the samples of an interval can be added up over its lines. -/
theorem sum_inInterval_groups {A : Type*} [AddCommMonoid A] {w v : Bucket ℚ ℚ → A} (h10 : 10 ∣ I)
    (hgs : ∀ g ∈ gs, g ≠ [] ∧ ∃ q, OfCell q g)
    (hw : ∀ g ∈ gs, v (ForwardLine.ofBucket n (mergeAll g)).bucket = (g.map w).sum) :
    ((inInterval I q (gs.map fun g => (ForwardLine.ofBucket n (mergeAll g)).bucket)).map v).sum =
      ((inInterval I q gs.flatten).map w).sum := by
  induction gs with
  | nil => rfl
  | cons g gs ih =>
    obtain ⟨⟨hne, q', hg⟩, hgs⟩ := List.forall_mem_cons.1 hgs
    obtain ⟨hwg, hw⟩ := List.forall_mem_cons.1 hw
    obtain ⟨-, b, hb, htime⟩ := mergeAll_spec (fun b hb => (hg b hb).1) hne
    have hcell : ∀ c ∈ g, Grid.cellStart I c.time =
        Grid.cellStart I (ForwardLine.ofBucket n (mergeAll g)).bucket.time := by
      intro c hc
      rw [ofBucket_bucket_time, htime]
      exact Grid.cellStart_congr_of_dvd (by decide) h10 ((hg c hc).2.trans (hg b hb).2.symm)
    have ih' := ih hgs hw
    unfold inInterval at ih' ⊢
    rw [List.map_cons, List.flatten_cons, List.filter_append, List.map_append, List.sum_append,
      ← ih', List.filter_cons]
    by_cases hq : Grid.cellStart I (ForwardLine.ofBucket n (mergeAll g)).bucket.time = q
    · have hall : g.filter (Grid.cellStart I ·.time = q) = g :=
        List.filter_eq_self.2 fun c hc => by simpa using (hcell c hc).trans hq
      rw [hall, if_pos (by simpa using hq), List.map_cons, List.sum_cons, hwg]
    · have hnone : g.filter (Grid.cellStart I ·.time = q) = [] :=
        List.filter_eq_nil_iff.2 fun c hc => by simpa [hcell c hc] using hq
      rw [hnone, if_neg (by simpa using hq), List.map_nil, List.sum_nil, zero_add]

/-- The sum of the statistics has the sum of the sums. -/
theorem sum_map_stats_fst (l : List (Bucket ℚ ℚ)) : (l.map stats).sum.1 = (l.map (·.sum_)).sum := by
  induction l with
  | nil => rfl
  | cons b l ih =>
    rw [List.map_cons, List.sum_cons, List.map_cons, List.sum_cons, Prod.fst_add, ih]
    rfl

/-- The lines and the samples of a counter give the same bucket for an interval, or the same sum. -/
def SameInInterval (n : Bytes) (I q : ℤ) (ls : List (ForwardLine ℚ ℚ)) (xs : List (Bucket ℚ ℚ)) :
    Prop :=
  if n.head? = some (byte '*') then
    ((inInterval I q (ls.map (·.bucket))).map (·.sum_)).sum = ((inInterval I q xs).map (·.sum_)).sum
  else collect q (inInterval I q (ls.map (·.bucket))) = collect q (inInterval I q xs)

instance (n : Bytes) (I q : ℤ) (ls : List (ForwardLine ℚ ℚ)) (xs : List (Bucket ℚ ℚ)) :
    Decidable (SameInInterval n I q ls xs) := by
  delta SameInInterval
  infer_instance

theorem inInterval_perm {l l' : List (Bucket ℚ ℚ)} (h : l.Perm l') :
    (inInterval I q l).Perm (inInterval I q l') := h.filter _

theorem mem_of_mem_inInterval {l : List (Bucket ℚ ℚ)} {b : Bucket ℚ ℚ} (h : b ∈ inInterval I q l) :
    b ∈ l := (List.mem_filter.1 h).1

/-- Lines that are the groups of the samples. -/
theorem sameInInterval_of_groups {ls : List (ForwardLine ℚ ℚ)} {xs : List (Bucket ℚ ℚ)} (h10 : 10 ∣ I)
    (hgs : ∀ g ∈ gs, g ≠ [] ∧ ∃ q, OfCell q g) (hperm : gs.flatten.Perm xs)
    (hlines : ls.Perm (gs.map fun g => ForwardLine.ofBucket n (mergeAll g))) :
    SameInInterval n I q ls xs := by
  have hbuckets : (ls.map (·.bucket)).Perm
      (gs.map fun g => (ForwardLine.ofBucket n (mergeAll g)).bucket) := by
    have hmap := hlines.map (·.bucket)
    rwa [List.map_map] at hmap
  have hcount : ∀ g ∈ gs, ∀ b ∈ g, 1 ≤ b.count := fun g hg b hb => by
    obtain ⟨-, q', hgroup⟩ := hgs g hg
    exact (hgroup b hb).1
  have hstats : ∀ g ∈ gs, stats (mergeAll g) = (g.map stats).sum := fun g hg =>
    stats_mergeAll (hcount g hg) (hgs g hg).1
  unfold SameInInterval
  split_ifs with hn
  · rw [((inInterval_perm hbuckets).map _).sum_eq, ← ((inInterval_perm hperm).map _).sum_eq]
    refine sum_inInterval_groups h10 hgs fun g hg => ?_
    rw [ofBucket_bucket_sum, ← sum_map_stats_fst, ← hstats g hg]
    rfl
  · refine collect_congr q (fun b hb => ?_) (fun b hb => ?_) ?_
    · obtain ⟨g, hg, rfl⟩ := List.mem_map.1 (hbuckets.mem_iff.1 (mem_of_mem_inInterval hb))
      rw [ofBucket_bucket_of_plain hn]
      exact (mergeAll_spec (hcount g hg) (hgs g hg).1).1
    · obtain ⟨g, hg, hb⟩ := List.mem_flatten.1 (hperm.mem_iff.2 (mem_of_mem_inInterval hb))
      exact hcount g hg b hb
    · rw [((inInterval_perm hbuckets).map _).sum_eq, ← ((inInterval_perm hperm).map _).sum_eq]
      refine sum_inInterval_groups h10 hgs fun g hg => ?_
      rw [ofBucket_bucket_of_plain hn, hstats g hg]

/-- **Forwarding keeps the data.**  After good calls, the last of them of `clearForward`, the lines of
a counter and its samples give the same bucket for every interval of a multiple of ten seconds, for
counters that start with `*` the same sum.  Each sample is in the group of one line, and each batch
of a counter went to one connection. -/
theorem forwarding_preserves (k : ℕ) (ops : List (ForwardOp ℚ)) (order : List Bytes)
    (conns : List ForwardConn)
    (h : Run.Along AgentForward.step Good (.start k : AgentForward ℚ ℚ)
      (ops ++ [ForwardOp.clear order conns])) (n : Bytes) :
    let xs := samplesOf n (ForwardOp.samples ops)
    let ls := linesOf n
      (AgentForward.after k (ops ++ [ForwardOp.clear order conns]) : AgentForward ℚ ℚ).lines
    (∀ I q : ℤ, 10 ∣ I → SameInInterval n I q ls xs) ∧
    (∃ gs : List (List (Bucket ℚ ℚ)), gs.flatten.Perm xs ∧ (∀ g ∈ gs, g ≠ []) ∧
      ls.Perm (gs.map fun g => ForwardLine.ofBucket n (mergeAll g))) ∧
    ∀ l order' conns' l',
      ops ++ [ForwardOp.clear order conns] = l ++ ForwardOp.clear order' conns' :: l' →
      OneConnection (AgentForward.after k l : AgentForward ℚ ℚ) order' conns' n := by
  intro xs ls
  obtain ⟨gs, hgs, hperm, hlines⟩ := AgentForward.exists_groups h n
  refine ⟨fun I q h10 => sameInInterval_of_groups h10 hgs hperm hlines,
    ⟨gs, hperm, fun g hg => (hgs g hg).1, hlines⟩, ?_⟩
  intro l order' conns' l' hl
  rw [hl] at h
  obtain ⟨-, hclear, -⟩ := Run.along_append.1 h
  exact hclear.oneConnection (AgentForward.keysNodup_after k l) n

/-- Two counters, with samples of three intervals in the first and a call of `clearForward` between
them, and the second connection not connected. -/
def forwardCalls : List (ForwardOp ℚ) :=
  [.sample ⟨1005, bytes "a", 0, 2, 4, 2, 2, 1⟩, .sample ⟨1006, bytes "*b", 0, 3, 9, 3, 3, 1⟩,
    .sample ⟨1012, bytes "a", 998, 7, 25, 3, 4, 2⟩, .sample ⟨1013, bytes "*b", 0, 1, 1, 1, 1, 1⟩,
    .clear [bytes "a", bytes "*b"] [⟨true, true⟩, ⟨true, false⟩],
    .sample ⟨1019, bytes "a", 0, 1, 1, 1, 1, 1⟩]

theorem forwarding_preserves_sample :
    SameInInterval (bytes "a") 60 960
      (linesOf (bytes "a") (AgentForward.after 2 (forwardCalls ++
        [.clear [bytes "a"] [⟨true, true⟩, ⟨false, false⟩]]) : AgentForward ℚ ℚ).lines)
      (samplesOf (bytes "a") (ForwardOp.samples forwardCalls)) :=
  (forwarding_preserves 2 forwardCalls [bytes "a"] [⟨true, true⟩, ⟨false, false⟩] (by decide +kernel)
    (bytes "a")).1 60 960 (by decide)

/-- A sample with a count of `2 ^ 32`. -/
def manyCalls : List (ForwardOp ℚ) := [.sample ⟨1000, bytes "foo", 1000, 5, 25, 5, 5, 4294967296⟩]

/-- Two samples, the second at a clock that has moved by `10 * 2 ^ 32` seconds. -/
def farCalls : List (ForwardOp ℚ) :=
  [.sample ⟨1000, bytes "a", 0, 2, 4, 2, 2, 1⟩, .sample ⟨42949673960, bytes "a", 0, 3, 9, 3, 3, 1⟩]

/-- **A count and an index may wrap.**  The sample with the large count is accepted, and no line is
written for it.  Of the two others the second is added to the bucket of the first. -/
theorem forwarding_wraps :
    (Run.Along AgentForward.step NearClock (.start 1 : AgentForward ℚ ℚ)
        (manyCalls ++ [.clear [bytes "foo"] [⟨true, true⟩]]) ∧
      samplesOf (bytes "foo") (ForwardOp.samples manyCalls) ≠ ([] : List (Bucket ℚ ℚ)) ∧
      (AgentForward.after 1 (manyCalls ++ [.clear [bytes "foo"] [⟨true, true⟩]]) :
        AgentForward ℚ ℚ).lines = []) ∧
    Run.Along AgentForward.step NearClock (.start 1 : AgentForward ℚ ℚ)
      (farCalls ++ [.clear [bytes "a"] [⟨true, true⟩]]) ∧
    ¬SameInInterval (bytes "a") 10 1000
      (linesOf (bytes "a") (AgentForward.after 1
        (farCalls ++ [.clear [bytes "a"] [⟨true, true⟩]]) : AgentForward ℚ ℚ).lines)
      (samplesOf (bytes "a") (ForwardOp.samples farCalls)) := by
  decide +kernel

end Exact

end Istatd
