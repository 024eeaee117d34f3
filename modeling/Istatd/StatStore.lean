import Istatd.Lib.Executor
import Istatd.Listing
import Istatd.ShardedMap

/-!
# The store and its handlers (`daemon/StatStore.cpp`)

The store keeps, for each key, an `AsyncCounter`: a counter and the strand its calls run on.  A
call on a counter is bound to the counter that is there at that time and posted to the strand.
Deleting a counter puts `theDeletedCounter` in its place and has a `Deleter` post its purge; the
entry goes when the keys are refreshed.  Flushing all counters is done by a `Flusher`, one counter
after another.

Any number of threads run these functions and the handlers.  A function is cut at its locks, and a
deletion also between the look-up of a counter, the read of its `statCounter_` and the write of
`theDeletedCounter`: each part is one handler of an `Executor.Program`, which posts the next.  A
strand runs its handlers one at a time, and a handler touches no other counter than that of its
strand, so that each is one atomic step; `svc_.post` of a wrapped handler promises no order, and
neither does the model.

A counter is kept as what the factory made and the calls that have run on it.  What comes from
elsewhere is left open: what the factory makes or that it throws, whether a purge, a forced flush or
the pruning of directories throws, and the results of `listMatchingCounters`.  An exception
ends the function or the handler it leaves: a `Deleter` or a `Flusher` goes no further.  The keys are
in `KeyStore`, the refresh queue in `RefreshQueue`.

* `StatStore.openCounter`, `RecordCall.step`: `record` with its aggregates;
* `Deleter`, `Flusher`: deletions, and the flush of all counters;
* `StatStore.program`: the calls and the handlers.
-/

namespace Istatd

/-! ### Counters and their handlers -/

/-- What `record` is called with. -/
structure Sample (D : Type) where
  time : ℤ
  value : D
  valueSq : D
  min : D
  max : D
  cnt : ℕ
  deriving DecidableEq

/-- A call on a counter; of a forced flush and of a purge also whether it throws. -/
inductive AsyncCall (D : Type)
  | record (r : Sample D)
  | flush
  | forceFlush (throws : Bool)
  | purge (throws : Bool)
  deriving DecidableEq

/-- A `shared_ptr<AsyncCounter>`: which one it is, and the key it was made for. -/
structure AsyncPtr where
  id : ℕ
  key : Bytes
  deriving DecidableEq

/-- `StatStore::AsyncCounter`: the counter that was made for it, whether `statCounter_` is
`theDeletedCounter` by now, and the calls that have run on the counter, in order. -/
structure AsyncCounter (C D : Type) where
  key : Bytes
  made : C
  deleted : Bool
  calls : List (AsyncCall D)

/-- The counter after its calls. -/
def AsyncCounter.counter {C D : Type} (apply : C → AsyncCall D → C) (a : AsyncCounter C D) : C :=
  a.calls.foldl apply a.made

/-- How far `openCounter` has come for a round of `record`. -/
inductive Opening
  | find
  | parent (sex : Bytes) (a : AsyncPtr)
  | post (a : Option AsyncPtr)

/-- A call of `StatStore::record` in its loop: the name, the rounds after this one, and where it is
in this round. -/
structure RecordCall (D : Type) where
  cname : Bytes
  maxAgg : ℕ
  phase : Opening
  sample : Sample D

/-- `Deleter::Work`; `live` if `counter` is not `theDeletedCounter`. -/
structure Work where
  aCount : AsyncPtr
  live : Bool
  ctr : Bytes

/-- `Deleter`. -/
structure Deleter where
  toDelete : List Work
  rootCtrPath : Bytes

/-- `Deleter::addWork`. -/
def Deleter.addWork (d : Deleter) (w : Work) : Deleter where
  toDelete := d.toDelete ++ [w]
  rootCtrPath :=
    if w.ctr.length < d.rootCtrPath.length ∧ d.rootCtrPath.length ≠ 0 then w.ctr else d.rootCtrPath

/-- The `IComplete` of a deletion, if it has one: `deleteCounter` posts its call before `Deleter::go`,
and `deletePattern` after it. -/
structure Completion where
  cmp : Option ℕ
  beforeGo : Bool

/-- `Flusher`; `cmp` names its `IComplete`. -/
structure Flusher where
  cmp : ℕ
  ptrs : List AsyncPtr

/-- What can be pending: a thread in one of the loops, or a handler.  `live` tells whether the
handler is bound to the counter or to `theDeletedCounter`, or which of them a deletion has read. -/
inductive StoreHandler (D : Type)
  | recordLoop (c : RecordCall D)
  | record (a : AsyncPtr) (live : Bool) (r : Sample D)
  | flush (a : AsyncPtr) (live : Bool)
  | deleteLoop (names : List Bytes) (d : Deleter) (complete : Completion)
  | deleteFound (a : AsyncPtr) (ctr : Bytes) (names : List Bytes) (d : Deleter)
      (complete : Completion)
  | deleteRead (a : AsyncPtr) (live : Bool) (ctr : Bytes) (names : List Bytes) (d : Deleter)
      (complete : Completion)
  | deleteStuff (d : Deleter)
  | flushLoop (it : ShardIterator) (f : Flusher)
  | flushStuff (f : Flusher)
  | callComplete (complete : ℕ)

/-- A call from outside: `sync` is one pass of `flushOne`, and `sweep` one turn of the loop of
`refreshAllKeys`. -/
inductive StoreCall (D : Type)
  | record (ctr : Bytes) (r : Sample D)
  | deleteCounter (ctr : Bytes) (complete : Option ℕ)
  | deletePattern (results : List Bytes) (complete : Option ℕ)
  | flushAll (cmp : ℕ)
  | sync
  | sweep (i : UInt8)

/-- What a handler is told from outside: what the factory makes, or none if it throws; and whether
the purge, the forced flush or the pruning that it calls throws. -/
structure StoreInput (C : Type) where
  made : Option C
  throws : Bool
  deriving DecidableEq

/-- `StatStore`, with the calls of `pruneEmptyDirsNow` and of `on_complete` so far.  The records
that ran on `theDeletedCounter`, and those that an exception of the factory kept from being
posted, are written down; so are the deleters that an exception of a purge has ended, and the calls
of `on_complete` that an exception kept from being made. -/
structure StatStore (C D : Type) where
  aggregateCount : ℤ
  recursivelyCreateCounters : Bool
  counterShards : ShardedMap AsyncPtr
  asyncCounters : List (AsyncCounter C D)
  syncIterator : ShardIterator
  pruned : List Bytes
  completed : List ℕ
  dropped : List (Bytes × Sample D)
  aborted : List (Bytes × Sample D)
  abandoned : List Deleter
  uncompleted : List ℕ

/-- What the locked part of `openCounter` comes to. -/
inductive Opened
  | null
  | found (a : AsyncPtr)
  | created (a : AsyncPtr)
  | threw
  deriving DecidableEq

/-- A map with the entries of one shard that do not satisfy `p` erased. -/
def ShardedMap.filterShard {V : Type*} (sm : ShardedMap V) (i : UInt8) (p : V → Bool) :
    ShardedMap V :=
  sm.setShard i ((sm.maps i).filter fun kv => p kv.2)
    (show SortedMap.Sorted keyRank _ from (sm.sorted i).filter _)
    fun kv h => sm.placed i kv (List.mem_filter.1 h).1

/-- `map(key).find(key)`. -/
def ShardedMap.lookup {V : Type*} (sm : ShardedMap V) (key : Bytes) : Option V :=
  (sm.maps (shardIndex key)).lookup key

namespace StatStore

variable {C D : Type}

/-- A store without counters. -/
def new (aggregateCount : ℤ) (recursivelyCreateCounters : Bool) : StatStore C D where
  aggregateCount := aggregateCount
  recursivelyCreateCounters := recursivelyCreateCounters
  counterShards := ShardedMap.empty
  asyncCounters := []
  syncIterator := ShardIterator.finish
  pruned := []
  completed := []
  dropped := []
  aborted := []
  abandoned := []
  uncompleted := []

variable (s : StatStore C D)

/-- `statCounter_` is `theDeletedCounter`. -/
def isDeleted (a : AsyncPtr) : Bool := (s.asyncCounters[a.id]?).any AsyncCounter.deleted

/-- A change of one `AsyncCounter`. -/
def modify (a : AsyncPtr) (f : AsyncCounter C D → AsyncCounter C D) : StatStore C D :=
  { s with asyncCounters := s.asyncCounters.modify a.id f }

/-- A call runs on the counter. -/
def callOn (a : AsyncPtr) (call : AsyncCall D) : StatStore C D :=
  s.modify a fun x => { x with calls := x.calls ++ [call] }

/-- A new counter in the map. -/
def insertCounter (xform : Bytes) (c : C) : StatStore C D :=
  { s with
    counterShards := s.counterShards.insert xform ⟨s.asyncCounters.length, xform⟩
    asyncCounters := s.asyncCounters ++ [⟨xform, c, false, []⟩] }

/-- The part of `StatStore::openCounter` under the lock of the shard; `made` is what the factory
makes, or none if it throws. -/
def openCounter (name : Bytes) (create : Bool) (made : Option C) : Opened × StatStore C D :=
  match openedKey name with
  | none => (.null, s)
  | some xform =>
    match s.counterShards.lookup xform with
    | some a => (.found a, s)
    | none =>
      if create = false then (.null, s)
      else match made with
        | none => (.threw, s)
        | some c => (.created ⟨s.asyncCounters.length, xform⟩, s.insertCounter xform c)

end StatStore

/-! ### `record` -/

/-- The names that `record` opens: the name, and as long as rounds are left what `stripext` makes
of it. -/
def levels : ℕ → Bytes → List Bytes
  | 0, _ => []
  | n + 1, cname => cname :: (beforeLastDot cname).elim [] (levels n)

/-- The counters that `n` rounds of `record` from a name deliver a sample to. -/
def deliveries {D : Type} (n : ℕ) (cname : Bytes) (r : Sample D) : List (Bytes × Sample D) :=
  ((levels n cname).filterMap openedKey).map fun key => (key, r)

namespace RecordCall

variable {C D : Type} (c : RecordCall D)

/-- The next round, if there is one. -/
def next : Option (RecordCall D) :=
  match beforeLastDot c.cname with
  | none => none
  | some cname =>
    match c.maxAgg with
    | 0 => none
    | n + 1 => some ⟨cname, n, .find, c.sample⟩

/-- After a counter has been created: the recursive call for the stripped name, if it is another
name.  The pointer is the one that the outermost call will return. -/
def created (recursively : Bool) (name : Bytes) (a : AsyncPtr) : Opening :=
  if recursively then (beforeLastDot name).elim (.post (some a)) fun sex => .parent sex a
  else .post (some a)

/-- `openCounter` for a name, up to the unlock; `outer` is the counter that the outermost call has
already created. -/
def openStep (made : Option C) (s : StatStore C D) (name : Bytes) (outer : Option AsyncPtr) :
    StatStore C D × List (StoreHandler D) :=
  match s.openCounter name true made with
  | (.null, s') => (s', [.recordLoop { c with phase := .post outer }])
  | (.found a, s') => (s', [.recordLoop { c with phase := .post (some (outer.getD a)) }])
  | (.created a, s') =>
    (s', [.recordLoop { c with
      phase := created s.recursivelyCreateCounters name (outer.getD a) }])
  | (.threw, s') =>
    ({ s' with aborted := s'.aborted ++ deliveries (c.maxAgg + 1) c.cname c.sample }, [])

/-- One step of the loop of `StatStore::record`: a locked part of `openCounter`, or the rest of the
round. -/
def step (made : Option C) (s : StatStore C D) : StatStore C D × List (StoreHandler D) :=
  match c.phase with
  | .find => c.openStep made s c.cname none
  | .parent sex a => c.openStep made s sex (some a)
  | .post found =>
    (s, (found.map fun a => StoreHandler.record a (!s.isDeleted a) c.sample).toList ++
      c.next.toList.map .recordLoop)

end RecordCall

/-! ### `Deleter` and `Flusher` -/

namespace StatStore

variable {C D : Type} (s : StatStore C D)

/-- `Deleter::go`. -/
def goDelete (d : Deleter) : StatStore C D × List (StoreHandler D) :=
  if d.toDelete.isEmpty then ({ s with pruned := s.pruned ++ [d.rootCtrPath] }, [])
  else (s, [.deleteStuff d])

/-- `Deleter::delete_stuff`.  The purge of `theDeletedCounter` does nothing; if the one of a counter
throws, `go` is not called. -/
def deleteStuff (throws : Bool) (d : Deleter) : StatStore C D × List (StoreHandler D) :=
  match d.toDelete with
  | [] => (s, [])
  | w :: rest =>
    if w.live then
      let s := s.callOn w.aCount (.purge throws)
      if throws then ({ s with abandoned := s.abandoned ++ [{ d with toDelete := rest }] }, [])
      else s.goDelete { d with toDelete := rest }
    else s.goDelete { d with toDelete := rest }

/-- One turn of the loop of `deletePattern` up to the look-up, or what comes after the loop; in
`deleteCounter` the one name is the loop.  If nothing is to be deleted, `go` prunes at once, which
may throw. -/
def deleteLoop (throws : Bool) (names : List Bytes) (d : Deleter) (complete : Completion) :
    StatStore C D × List (StoreHandler D) :=
  match names with
  | [] =>
    if throws ∧ d.toDelete = [] ∧ complete.beforeGo = false then
      ({ (s.goDelete d).1 with uncompleted := s.uncompleted ++ complete.cmp.toList }, [])
    else ((s.goDelete d).1, (s.goDelete d).2 ++ complete.cmp.toList.map .callComplete)
  | ctr :: names =>
    match (s.openCounter ctr false none).1 with
    | .found a => (s, [.deleteFound a ctr names d complete])
    | _ => (s, [.deleteLoop names d complete])

/-- `oldPtr = aCount->statCounter_` in `deleteCounter`. -/
def deleteFound (a : AsyncPtr) (ctr : Bytes) (names : List Bytes) (d : Deleter)
    (complete : Completion) : StatStore C D × List (StoreHandler D) :=
  (s, [.deleteRead a (!s.isDeleted a) ctr names d complete])

/-- `aCount->statCounter_ = theDeletedCounter`, and the rest of the turn. -/
def deleteRead (a : AsyncPtr) (live : Bool) (ctr : Bytes) (names : List Bytes) (d : Deleter)
    (complete : Completion) : StatStore C D × List (StoreHandler D) :=
  (s.modify a fun x => { x with deleted := true },
    [.deleteLoop names (d.addWork ⟨a, live, ctr⟩) complete])

/-- `Flusher::go`. -/
def goFlush (f : Flusher) : StatStore C D × List (StoreHandler D) :=
  if f.ptrs.isEmpty then ({ s with completed := s.completed ++ [f.cmp] }, [])
  else (s, [.flushStuff f])

/-- `Flusher::flush_stuff`.  If `forceFlush` throws, `go` is not called. -/
def flushStuff (throws : Bool) (f : Flusher) : StatStore C D × List (StoreHandler D) :=
  match f.ptrs with
  | [] => (s, [])
  | a :: rest =>
    if s.isDeleted a then s.goFlush { f with ptrs := rest }
    else
      let s := s.callOn a (.forceFlush throws)
      if throws then ({ s with uncompleted := s.uncompleted ++ [f.cmp] }, [])
      else s.goFlush { f with ptrs := rest }

/-- One pass of `move_next` in the loop of `flushAll`, or what comes after the loop. -/
def flushLoop (it : ShardIterator) (f : Flusher) : StatStore C D × List (StoreHandler D) :=
  match it.tryBin s.counterShards with
  | (it', .nextBin) => (s, [.flushLoop it' f])
  | (it', .found p) => (s, [.flushLoop it' { f with ptrs := f.ptrs ++ [p.2] }])
  | (_, .finished) => s.goFlush f

/-- One pass of `move_next` in `flushOne`, or what it does after it. -/
def syncPass : StatStore C D × List (StoreHandler D) :=
  match s.syncIterator.tryBin s.counterShards with
  | (it', .nextBin) => ({ s with syncIterator := it' }, [])
  | (it', .found p) => ({ s with syncIterator := it' }, [.flush p.2 (!s.isDeleted p.2)])
  | (_, .finished) => ({ s with syncIterator := ShardIterator.begin }, [])

/-- A turn of the loop of `refreshAllKeys`: the deleted counters of a shard leave the map. -/
def sweep (i : UInt8) : StatStore C D :=
  { s with counterShards := s.counterShards.filterShard i fun a => !s.isDeleted a }

/-- The functions of the store that are called from outside. -/
def call : StoreCall D → StatStore C D → StatStore C D × List (StoreHandler D)
  | .record ctr r, s =>
    (s, match (1 + s.aggregateCount).toNat with
      | 0 => []
      | n + 1 => [.recordLoop ⟨ctr, n, .find, r⟩])
  | .deleteCounter ctr complete, s => (s, [.deleteLoop [ctr] ⟨[], []⟩ ⟨complete, true⟩])
  | .deletePattern results complete, s => (s, [.deleteLoop results ⟨[], []⟩ ⟨complete, false⟩])
  | .flushAll cmp, s => (s, [.flushLoop ShardIterator.begin ⟨cmp, []⟩])
  | .sync, s => s.syncPass
  | .sweep i, s => (s.sweep i, [])

/-- The handlers. -/
def exec (e : StoreInput C) :
    StoreHandler D → StatStore C D → StatStore C D × List (StoreHandler D)
  | .recordLoop c, s => c.step e.made s
  | .record a live r, s =>
    (if live then s.callOn a (.record r) else { s with dropped := s.dropped ++ [(a.key, r)] }, [])
  | .flush a live, s => (if live then s.callOn a .flush else s, [])
  | .deleteLoop names d complete, s => s.deleteLoop e.throws names d complete
  | .deleteFound a ctr names d complete, s => s.deleteFound a ctr names d complete
  | .deleteRead a live ctr names d complete, s => s.deleteRead a live ctr names d complete
  | .deleteStuff d, s => s.deleteStuff e.throws d
  | .flushLoop it f, s => s.flushLoop it f
  | .flushStuff f, s => s.flushStuff e.throws f
  | .callComplete complete, s => ({ s with completed := s.completed ++ [complete] }, [])

/-- The store as a program on an executor. -/
def program (C D : Type) :
    Executor.Program (StatStore C D) (StoreCall D) (StoreInput C) (StoreHandler D) where
  call := call
  exec := exec

end StatStore

end Istatd
