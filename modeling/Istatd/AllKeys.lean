import Istatd.KeyList
import Istatd.StrFunc

/-!
# The keys of a store and the tree of names

`AllKeys` holds a list of keys, newest first, and a `KeyMatch` that `match` fills from it: the names
of the counters and of everything that stands above them.

* `KeyMatch.insert`: `KeyMatch::operator()`, with its loop over the parents of a name;
* `AllKeys.add`, `exchange`, `deleteAll`, `matchKeys`;
* `KeyMatch.mem_names_foldl_insert_iff`: the names are those of the keys and what stands above them;
* `AllKeys.mem_listed_iff`: the names `match` finds for `*`;
* `Linked.add`, `Linked.exchange`: the steps of the linked list amount to those of the list of keys.
-/

namespace Istatd

/-- `CounterResponse::CounterDisplayType`. -/
inductive DisplayType
  | gauge
  | event
  | aggregate
  deriving DecidableEq

/-- `CounterResponse`. -/
structure CounterResponse where
  isLeaf : Bool
  counterType : DisplayType
  deriving DecidableEq

/-- `KeyMatch::CounterData`. -/
structure CounterData where
  name : Bytes
  isCounter : Bool
  deriving DecidableEq

/-- `KeyMatch`: the entries of its hash map, each name once, in some order. -/
structure KeyMatch where
  ctrs : List (Bytes × CounterResponse)
  deriving DecidableEq

namespace KeyMatch

/-- An empty map. -/
def empty : KeyMatch := ⟨[]⟩

/-- The names of the entries. -/
def names (m : KeyMatch) : List Bytes := m.ctrs.map Prod.fst

/-- `ctrs[name] = cr`. -/
def set (m : KeyMatch) (name : Bytes) (cr : CounterResponse) : KeyMatch :=
  ⟨(name, cr) :: m.ctrs.filter (·.1 ≠ name)⟩

/-- The response for a name with counters below it. -/
def aggregate : CounterResponse := ⟨false, .aggregate⟩

/-- The loop of `KeyMatch::operator()` from the name `prev` upwards, until a parent is found that is
known already.  There are fewer rounds than characters. -/
def addParents : ℕ → KeyMatch → Bytes → KeyMatch
  | 0, m, _ => m
  | n + 1, m, prev =>
    match beforeLastDot prev with
    | none => m
    | some p => if p ∈ m.names then m.set p aggregate else addParents n (m.set p aggregate) p

/-- The response for a counter. -/
def leaf (cd : CounterData) : CounterResponse := ⟨true, if cd.isCounter then .event else .gauge⟩

/-- `KeyMatch::operator()`. -/
def insert (m : KeyMatch) (cd : CounterData) : KeyMatch :=
  if cd.name ∈ m.names then m
  else addParents cd.name.length (m.set cd.name (leaf cd)) cd.name

/-- `KeyMatch::extract`. -/
def extract (m : KeyMatch) (pat : Bytes) : List (Bytes × CounterResponse) :=
  m.ctrs.filter fun e => strPatMatch e.1 pat = some true

/-! ### Names -/

/-- The parent of every name is there. -/
def Closed (m : KeyMatch) : Prop :=
  ∀ k ∈ m.names, ∀ p, beforeLastDot k = some p → p ∈ m.names

/-- The parent of every name but `key` is there. -/
def ClosedBut (key : Bytes) (m : KeyMatch) : Prop :=
  ∀ k ∈ m.names, k ≠ key → ∀ p, beforeLastDot k = some p → p ∈ m.names

variable {m : KeyMatch} {q key : Bytes}

@[simp] theorem mem_names_set {cr : CounterResponse} :
    q ∈ (m.set key cr).names ↔ q = key ∨ q ∈ m.names := by
  simp only [names, set, List.map_cons, List.mem_cons, List.mem_map, List.mem_filter]
  constructor
  · rintro (h | ⟨e, ⟨he, -⟩, rfl⟩)
    · exact .inl h
    · exact .inr ⟨e, he, rfl⟩
  · rintro (h | ⟨e, he, rfl⟩)
    · exact .inl h
    · by_cases hk : e.1 = key
      · exact .inl hk
      · exact .inr ⟨e, ⟨he, by simp [hk]⟩, rfl⟩

theorem ClosedBut.closed (h : m.ClosedBut key)
    (hkey : ∀ p, beforeLastDot key = some p → p ∈ m.names) : m.Closed := by
  intro k hk p hp
  by_cases hk' : k = key
  · exact hkey p (hk' ▸ hp)
  · exact h k hk hk' p hp

/-- Everything above a name of a closed map is in the map. -/
theorem Closed.covers (h : m.Closed) (hq : Covers q key) (hkey : key ∈ m.names) :
    q ∈ m.names := by
  -- from a name to its parent, which is shorter
  induction hn : key.length using Nat.strong_induction_on generalizing key with
  | _ n ih =>
    rcases covers_iff.1 hq with rfl | ⟨p, hp, hqp⟩
    · exact hkey
    · exact ih p.length (hn ▸ length_lt_of_beforeLastDot hp) hqp (h key hkey p hp) rfl

/-- A name set above which everything is there already. -/
theorem Closed.set (h : m.Closed) {cr : CounterResponse} (hkey : key ∈ m.names) :
    (m.set key cr).Closed := by
  intro k hk p hp
  rw [mem_names_set] at hk ⊢
  rcases hk with rfl | hk
  · exact .inr (h k hkey p hp)
  · exact .inr (h k hk p hp)

/-- A name set whose parent may be missing, in place of a child of it. -/
theorem ClosedBut.set {p : Bytes} (h : m.ClosedBut key) (hp : beforeLastDot key = some p)
    {cr : CounterResponse} : (m.set p cr).ClosedBut p := by
  intro k hk hne p' hkp
  rw [mem_names_set] at hk ⊢
  rcases hk with rfl | hk
  · exact absurd rfl hne
  · by_cases hk' : k = key
    · subst hk'
      rw [hp] at hkp
      exact .inl (Option.some.inj hkp).symm
    · exact .inr (h k hk hk' p' hkp)

/-- The loop closes the map and adds what stands above `prev`. -/
theorem addParents_spec {n : ℕ} {prev : Bytes} (hn : prev.length ≤ n)
    (h : m.ClosedBut prev) (hprev : prev ∈ m.names) :
    (addParents n m prev).Closed ∧
      ∀ q, q ∈ (addParents n m prev).names ↔ q ∈ m.names ∨ Covers q prev := by
  -- where the loop ends, `prev` has no parent or one that is known
  have hend : ∀ {m : KeyMatch} {prev : Bytes}, m.ClosedBut prev → prev ∈ m.names →
      beforeLastDot prev = none →
      m.Closed ∧ ∀ q, q ∈ m.names ↔ q ∈ m.names ∨ Covers q prev := by
    intro m prev h hprev hp
    have hclosed := h.closed (by simp [hp])
    refine ⟨hclosed, fun q => ⟨.inl, fun hq => hq.elim id fun hq => ?_⟩⟩
    exact hclosed.covers hq hprev
  induction n generalizing m prev with
  | zero =>
    obtain rfl : prev = [] := List.length_eq_zero_iff.1 (Nat.le_zero.1 hn)
    exact hend h hprev rfl
  | succ n ih =>
    rw [addParents]
    cases hp : beforeLastDot prev with
    | none => exact hend h hprev hp
    | some p =>
      simp only
      split_ifs with hmem
      · have hclosed := h.closed fun p' hp' => by
          rw [hp] at hp'
          exact Option.some.inj hp' ▸ hmem
        refine ⟨hclosed.set hmem, fun q => ?_⟩
        rw [mem_names_set]
        constructor
        · rintro (rfl | hq)
          · exact .inl hmem
          · exact .inl hq
        · rintro (hq | hq)
          · exact .inr hq
          · exact .inr (hclosed.covers hq hprev)
      · have hlt := length_lt_of_beforeLastDot hp
        obtain ⟨hclosed, hnames⟩ := ih (by omega) (h.set hp) (mem_names_set.2 (.inl rfl))
        refine ⟨hclosed, fun q => ?_⟩
        have hcov : Covers q prev ↔ q = prev ∨ Covers q p := by
          rw [covers_iff, hp]
          simp
        rw [hnames, mem_names_set, hcov]
        constructor
        · rintro ((rfl | hq) | hq)
          · exact .inr (.inr (.refl q))
          · exact .inl hq
          · exact .inr (.inr hq)
        · rintro (hq | rfl | hq)
          · exact .inl (.inr hq)
          · exact .inl (.inr hprev)
          · exact .inr hq

/-- A key added: its name, and what stands above it. -/
theorem insert_spec (h : m.Closed) (cd : CounterData) :
    (m.insert cd).Closed ∧ ∀ q, q ∈ (m.insert cd).names ↔ q ∈ m.names ∨ Covers q cd.name := by
  unfold insert
  split_ifs with hmem
  · refine ⟨h, fun q => ⟨.inl, fun hq => hq.elim id fun hq => ?_⟩⟩
    exact h.covers hq hmem
  · have hbut : (m.set cd.name (leaf cd)).ClosedBut cd.name := by
      intro k hk hne p hp
      rw [mem_names_set] at hk ⊢
      exact .inr (h k (hk.resolve_left hne) p hp)
    obtain ⟨hclosed, hnames⟩ := addParents_spec le_rfl hbut (mem_names_set.2 (.inl rfl))
    refine ⟨hclosed, fun q => ?_⟩
    rw [hnames, mem_names_set]
    constructor
    · rintro ((rfl | hq) | hq)
      · exact .inr (.refl cd.name)
      · exact .inl hq
      · exact .inr hq
    · rintro (hq | hq)
      · exact .inl (.inr hq)
      · exact .inr hq

/-- **The prefix closure.**  Keys added in any order, with or without repetitions. -/
theorem mem_names_foldl_insert_iff (h : m.Closed) (cds : List CounterData) :
    q ∈ (cds.foldl insert m).names ↔ q ∈ m.names ∨ ∃ cd ∈ cds, Covers q cd.name := by
  induction cds generalizing m with
  | nil => simp
  | cons cd cds ih =>
    obtain ⟨hclosed, hnames⟩ := insert_spec h cd
    rw [List.foldl_cons, ih hclosed, hnames]
    simp [or_assoc]

end KeyMatch

/-! ### The keys -/

/-- `AllKeys`: the keys, newest first, and what `match` keeps of them. -/
structure AllKeys where
  recs : List CounterData
  dirty : Bool
  toMatch : KeyMatch
  deriving DecidableEq

namespace AllKeys

/-- `AllKeys::add`. -/
def add (a : AllKeys) (str : Bytes) (isCollated : Bool) : AllKeys :=
  { a with recs := ⟨str, isCollated⟩ :: a.recs, dirty := true }

/-- `AllKeys::exchange`, with what it leaves in its argument. -/
def exchange (a ak : AllKeys) : AllKeys × AllKeys :=
  (⟨ak.recs, true, .empty⟩, { ak with recs := a.recs })

/-- `AllKeys::delete_all`. -/
def deleteAll (a : AllKeys) : AllKeys := (a.exchange ⟨[], false, .empty⟩).1

/-- `AllKeys::match`. -/
def matchKeys (a : AllKeys) (path : Bytes) : List (Bytes × CounterResponse) × AllKeys :=
  if a.dirty then
    let toMatch := a.recs.foldl KeyMatch.insert a.toMatch
    (toMatch.extract path, { a with dirty := false, toMatch := toMatch })
  else (a.toMatch.extract path, a)

/-- The names `match` finds for `*`. -/
def listed (a : AllKeys) : List Bytes := (a.matchKeys [byte '*']).1.map Prod.fst

/-- What `match` finds when it begins anew: the keys of the list and what stands above them. -/
theorem mem_listed_iff {a : AllKeys} (hdirty : a.dirty = true) (hempty : a.toMatch = .empty)
    {q : Bytes} : q ∈ a.listed ↔ ∃ cd ∈ a.recs, Covers q cd.name := by
  have hclosed : KeyMatch.empty.Closed := by
    intro k hk
    cases hk
  have hnames : a.listed = (a.recs.foldl KeyMatch.insert .empty).names := by
    simp [listed, matchKeys, hdirty, hempty, KeyMatch.extract, strPatMatch_star, KeyMatch.names]
  rw [hnames, KeyMatch.mem_names_foldl_insert_iff hclosed]
  simp [KeyMatch.names, KeyMatch.empty]

/-! ### The linked list -/

/-- The linked lists of an `AllKeys` and of another one, in one memory, have their keys. -/
def Linked (s : KeyList CounterData) (a ak : AllKeys) : Prop :=
  s.Holds s.head a.recs ∧ s.Holds s.akHead ak.recs

/-- A call of `add` that is not interrupted does to the linked list what `add` does here. -/
theorem Linked.add {s : KeyList CounterData} {a ak : AllKeys} (h : Linked s a ak) {r : ℕ}
    (hr : s.recs r = none) (str : Bytes) (isCollated : Bool) :
    Linked ([KeyOp.add r ⟨str, isCollated⟩, .read r, .tryAdd r].foldl KeyList.step s)
      (a.add str isCollated) ak :=
  KeyList.add_alone hr h.1 h.2

/-- So does the exchange. -/
theorem Linked.exchange {s : KeyList CounterData} {a ak : AllKeys} (h : Linked s a ak)
    (hready : s.phase = .ready) :
    Linked (KeyList.exchange^[3] s) (a.exchange ak).1 (a.exchange ak).2 :=
  (KeyList.exchange_alone hready h.1 h.2).2

end AllKeys

end Istatd
