import Istatd.Lib.LinkedList
import Istatd.Lib.Run

/-!
# The list of keys and its exchange

`AllKeys` is a linked list that is only pushed to.  `add` makes a record, and then reads `head_` into
its `next` and tries to replace `head_` by the record, until `head_` has not changed in between.
`exchange` reads `head_` once and tries to replace it by the head of another list, until it is equal
to what was read.  The atomic steps are the reads and the compare-exchange attempts of any number of
calls of `add` and of one call of `exchange`.

`dirty_` and `toMatch_`, which both functions also write, are read by `match` only.

* `KeyList.step`: the steps;
* `KeyList.Inv`: the two lists, at every point of the exchange;
* `neverStuck_iff`: the runs in which the exchange can always finish;
* `add_alone`, `exchange_alone`: what a call does that is not interrupted.
-/

namespace Istatd

open LinkedList

/-- Where the call of `add` that made a record is: about to read `head_`, about to try to replace
it, or through. -/
inductive AddPhase
  | reading
  | trying
  | added
  deriving DecidableEq

/-- `AllKeys::Rec`, with the phase of the call that made it. -/
structure Rec (α : Type) where
  next : Option ℕ
  data : α
  phase : AddPhase

/-- Where the call of `exchange` is.  In its loop and after it, it remembers `old_head`. -/
inductive ExchangePhase
  | ready
  | looping (oldHead : Option ℕ)
  | swapped (oldHead : Option ℕ)
  | finished
  deriving DecidableEq

/-- The two lists of an exchange, in one memory: `head_`, the `head_` of the other one, the records
by their address, and the call of `exchange`. -/
structure KeyList (α : Type) where
  head : Option ℕ
  akHead : Option ℕ
  recs : ℕ → Option (Rec α)
  phase : ExchangePhase

/-- The steps: a call of `add` begins, with a record at an address that is free; its read and its
attempt; the next step of the exchange. -/
inductive KeyOp (α : Type)
  | add (r : ℕ) (data : α)
  | read (r : ℕ)
  | tryAdd (r : ℕ)
  | exchange

variable {α : Type}

namespace KeyList

/-- The list with the record `r` changed. -/
def setRec (s : KeyList α) (r : ℕ) (x : Rec α) : KeyList α :=
  { s with recs := Function.update s.recs r (some x) }

/-- The next step of `AllKeys::exchange`.  An attempt that fails is made again, with the same
`old_head`. -/
def exchange (s : KeyList α) : KeyList α :=
  match s.phase with
  | .ready => { s with phase := .looping s.head }
  | .looping oldHead =>
    if s.head = oldHead then { s with head := s.akHead, phase := .swapped oldHead } else s
  | .swapped oldHead => { s with akHead := oldHead, phase := .finished }
  | .finished => s

/-- The compare-exchange attempt of `AllKeys::add`.  After one that fails, `head_` is read again. -/
def tryAdd (s : KeyList α) (r : ℕ) (x : Rec α) : KeyList α :=
  if s.head = x.next then { s.setRec r { x with phase := .added } with head := some r }
  else s.setRec r { x with phase := .reading }

/-- One step.  A step that is not possible changes nothing. -/
def step (s : KeyList α) : KeyOp α → KeyList α
  | .add r data =>
    match s.recs r with
    | none => s.setRec r ⟨none, data, .reading⟩
    | some _ => s
  | .read r =>
    match s.recs r with
    | some ⟨_, data, .reading⟩ => s.setRec r ⟨s.head, data, .trying⟩
    | _ => s
  | .tryAdd r =>
    match s.recs r with
    | some ⟨next, data, .trying⟩ => s.tryAdd r ⟨next, data, .trying⟩
    | _ => s
  | .exchange => s.exchange

/-- The `next` pointers. -/
def next (s : KeyList α) (r : ℕ) : Option ℕ := (s.recs r).bind Rec.next

/-- The call that made the record is through. -/
def Added (s : KeyList α) (r : ℕ) : Prop := ∃ x, s.recs r = some x ∧ x.phase = .added

/-- The exchange is in its loop. -/
def InLoop (s : KeyList α) : Prop := ∃ oldHead, s.phase = .looping oldHead

/-- The step is an attempt of `add` that succeeds. -/
def Publishes (s : KeyList α) : KeyOp α → Prop
  | .tryAdd r => ∃ data, s.recs r = some ⟨s.head, data, .trying⟩
  | _ => False

/-- The exchange is over: the other list has been put in place, and it and the list taken out
have every record that was added exactly once. -/
def Exchanged (ak : List ℕ) (s : KeyList α) : Prop :=
  s.phase = .finished ∧ Cells s.next s.head ak ∧
    ∃ out, Cells s.next s.akHead out ∧ ∀ r, s.Added r → (out ++ ak).count r = 1

/-- If the exchange is in its loop, it finishes when only it takes steps. -/
def Unstuck (ak : List ℕ) (s : KeyList α) : Prop :=
  s.InLoop → ∃ n, Exchanged ak (exchange^[n] s)

/-- The pointer to the list that the exchange puts in place or takes out, and is not at `head_`. -/
def otherHead (s : KeyList α) : Option ℕ :=
  match s.phase with
  | .swapped oldHead => oldHead
  | _ => s.akHead

/-- The lists from `head_` and from the other pointer are disjoint and have the records added.  As
long as the exchange has not replaced `head_`, the other list is the one to put in place. -/
structure Inv (ak : List ℕ) (s : KeyList α) : Prop where
  lists : ∃ front back, Cells s.next s.head front ∧ Cells s.next s.otherHead back ∧
    (front ++ back).Nodup ∧ (∀ r, r ∈ front ++ back ↔ s.Added r) ∧
    (s.phase = .ready ∨ s.InLoop → back = ak)

/-! ### One step -/

variable {s : KeyList α} {ak : List ℕ} {r : ℕ} {x : Rec α}

theorem setRec_next : (s.setRec r x).next = Function.update s.next r x.next := by
  funext q
  by_cases hq : q = r
  · subst hq
    simp [next, setRec]
  · simp [next, setRec, hq]

theorem setRec_added_iff {q : ℕ} :
    (s.setRec r x).Added q ↔ if q = r then x.phase = .added else s.Added q := by
  unfold Added setRec
  split_ifs with hq
  · subst hq
    simp
  · simp [hq]

/-- A record that is not yet in the list may be written. -/
theorem Inv.setRec (h : Inv ak s) (hr : ¬ s.Added r) (hx : x.phase ≠ .added) :
    Inv ak (s.setRec r x) := by
  obtain ⟨front, back, hf, hb, hnd, hmem, hak⟩ := h.lists
  have hnot : r ∉ front ++ back := fun hin => hr ((hmem r).1 hin)
  rw [List.mem_append, not_or] at hnot
  refine ⟨front, back, ?_, ?_, hnd, fun q => ?_, hak⟩
  · rw [setRec_next]
    exact hf.update hnot.1 _
  · rw [setRec_next]
    exact hb.update hnot.2 _
  · rw [setRec_added_iff]
    split_ifs with hq
    · subst hq
      simp only [hx, iff_false]
      exact fun hin => hr ((hmem q).1 hin)
    · exact hmem q

/-- An attempt that succeeds puts the record in front of the list. -/
theorem Inv.publish (h : Inv ak s) (hr : ¬ s.Added r) (hnext : x.next = s.head)
    (hx : x.phase = .added) : Inv ak { s.setRec r x with head := some r } := by
  obtain ⟨front, back, hf, hb, hnd, hmem, hak⟩ := h.lists
  have hnot : r ∉ front ++ back := fun hin => hr ((hmem r).1 hin)
  have hnot' := hnot
  rw [List.mem_append, not_or] at hnot'
  refine ⟨r :: front, back, ?_, ?_, ?_, fun q => ?_, hak⟩
  · show Cells (s.setRec r x).next (some r) (r :: front)
    rw [setRec_next, hnext]
    exact hf.push hnot'.1
  · show Cells (s.setRec r x).next s.otherHead back
    rw [setRec_next]
    exact hb.update hnot'.2 _
  · rw [List.cons_append, List.nodup_cons]
    exact ⟨hnot, hnd⟩
  · show _ ↔ (s.setRec r x).Added q
    rw [setRec_added_iff, List.cons_append, List.mem_cons]
    split_ifs with hq
    · simp [hq, hx]
    · simp [hq, hmem q]

theorem Inv.exchange (h : Inv ak s) : Inv ak s.exchange := by
  obtain ⟨front, back, hf, hb, hnd, hmem, hak⟩ := h.lists
  unfold KeyList.exchange
  cases hp : s.phase with
  | ready =>
    simp only [otherHead, hp] at hb
    exact ⟨front, back, hf, hb, hnd, hmem, fun _ => hak (.inl hp)⟩
  | looping oldHead =>
    simp only [otherHead, hp] at hb
    simp only
    split_ifs with hhead
    · subst hhead
      refine ⟨back, front, hb, hf, ?_, fun q => ?_, ?_⟩
      · exact List.nodup_append_comm.1 hnd
      · rw [List.mem_append, or_comm, ← List.mem_append]
        exact hmem q
      · rintro (h' | ⟨_, h'⟩) <;> cases h'
    · exact h
  | swapped oldHead =>
    simp only [otherHead, hp] at hb
    refine ⟨front, back, hf, hb, hnd, hmem, ?_⟩
    rintro (h' | ⟨_, h'⟩) <;> cases h'
  | finished => exact h

/-- What a step can do: nothing; write a record that is not in the list; put one into it; or a step
of the exchange. -/
theorem step_cases (s : KeyList α) (op : KeyOp α) :
    (s.step op = s ∧ ¬ s.Publishes op) ∨
    (∃ r x, ¬ s.Added r ∧ x.phase ≠ .added ∧ s.step op = s.setRec r x ∧ ¬ s.Publishes op) ∨
    (∃ r data, s.recs r = some ⟨s.head, data, .trying⟩ ∧ s.Publishes op ∧
      s.step op = { s.setRec r ⟨s.head, data, .added⟩ with head := some r }) ∨
    (s.step op = s.exchange ∧ ¬ s.Publishes op) := by
  cases op with
  | add r data =>
    cases hr : s.recs r with
    | none =>
      refine .inr (.inl ⟨r, ⟨none, data, .reading⟩, ?_, nofun, by simp [step, hr], nofun⟩)
      rintro ⟨x, hx, -⟩
      rw [hr] at hx
      cases hx
    | some x => exact .inl ⟨by simp [step, hr], nofun⟩
  | read r =>
    rcases hr : s.recs r with _ | ⟨next, data, _ | _ | _⟩
    · exact .inl ⟨by simp [step, hr], nofun⟩
    · refine .inr (.inl ⟨r, ⟨s.head, data, .trying⟩, ?_, nofun, by simp [step, hr], nofun⟩)
      simp [Added, hr]
    · exact .inl ⟨by simp [step, hr], nofun⟩
    · exact .inl ⟨by simp [step, hr], nofun⟩
  | tryAdd r =>
    rcases hr : s.recs r with _ | ⟨next, data, _ | _ | _⟩
    · exact .inl ⟨by simp [step, hr], by simp [Publishes, hr]⟩
    · exact .inl ⟨by simp [step, hr], by simp [Publishes, hr]⟩
    · by_cases hhead : s.head = next
      · subst hhead
        exact .inr (.inr (.inl ⟨r, data, hr, ⟨data, hr⟩, by simp [step, hr, tryAdd]⟩))
      · refine .inr (.inl ⟨r, ⟨next, data, .reading⟩, by simp [Added, hr], nofun, ?_, ?_⟩)
        · simp [step, hr, tryAdd, hhead]
        · simp [Publishes, hr, Ne.symm hhead]
    · exact .inl ⟨by simp [step, hr], by simp [Publishes, hr]⟩
  | exchange => exact .inr (.inr (.inr ⟨rfl, nofun⟩))

theorem step_inv (op : KeyOp α) (h : Inv ak s) : Inv ak (s.step op) := by
  obtain ⟨hs, -⟩ | ⟨r, x, hr, hx, hs, -⟩ | ⟨r, data, hr, -, hs⟩ | ⟨hs, -⟩ := step_cases s op
  · rw [hs]
    exact h
  · rw [hs]
    exact h.setRec hr hx
  · rw [hs]
    exact h.publish (by simp [Added, hr]) rfl rfl
  · rw [hs]
    exact h.exchange

/-! ### When the exchange can finish -/

/-- An attempt with another `old_head` than `head_` is repeated for ever. -/
theorem exchange_of_ne {oldHead : Option ℕ} (hp : s.phase = .looping oldHead)
    (hne : s.head ≠ oldHead) : s.exchange = s := by
  simp [exchange, hp, hne]

/-- **The exchange alone.**  From inside its loop it finishes if and only if `head_` is what it has
read. -/
theorem unstuck_iff (h : Inv ak s) :
    Unstuck ak s ↔ ∀ oldHead, s.phase = .looping oldHead → s.head = oldHead := by
  constructor
  · intro hs oldHead hp
    by_contra hne
    obtain ⟨n, hfin, -⟩ := hs ⟨oldHead, hp⟩
    rw [Function.iterate_fixed (exchange_of_ne hp hne) n, hp] at hfin
    cases hfin
  · rintro hs ⟨oldHead, hp⟩
    obtain ⟨front, back, hf, hb, hnd, hmem, hak⟩ := h.lists
    obtain rfl := hak (.inr ⟨oldHead, hp⟩)
    obtain rfl := hs oldHead hp
    simp only [otherHead, hp] at hb
    have hrun : exchange^[2] s = { s with
        head := s.akHead, akHead := s.head, phase := .finished } := by
      simp [exchange, hp]
    refine ⟨2, ?_⟩
    rw [hrun]
    refine ⟨rfl, hb, front, hf, fun r hr => ?_⟩
    exact List.count_eq_one_of_mem hnd ((hmem r).2 hr)

/-- Only an attempt of `add` that succeeds while the exchange is in its loop makes it stuck. -/
theorem step_unstuck_iff (op : KeyOp α) (h : Inv ak s) (hs : Unstuck ak s) :
    Unstuck ak (s.step op) ↔ (s.InLoop → ¬ s.Publishes op) := by
  have hloop := (unstuck_iff h).1 hs
  rw [unstuck_iff (step_inv op h)]
  obtain ⟨hst, hpub⟩ | ⟨r, x, -, -, hst, hpub⟩ | ⟨r, data, hr, hpub, hst⟩ | ⟨hst, hpub⟩ :=
    step_cases s op
  · rw [hst]
    exact ⟨fun _ _ => hpub, fun _ => hloop⟩
  · rw [hst]
    exact ⟨fun _ _ => hpub, fun _ => hloop⟩
  · rw [hst]
    constructor
    · rintro hstep ⟨oldHead, hp⟩ -
      -- the new head is a record that was not in the list, the old one is `old_head`
      obtain ⟨front, back, hf, -, -, hmem, -⟩ := h.lists
      have hhead : s.head = some r := (hloop oldHead hp).trans (hstep oldHead hp).symm
      rw [hhead] at hf
      have hadded := (hmem r).1 (List.mem_append_left back hf.mem)
      simp [Added, hr] at hadded
    · intro hnot oldHead hp
      exact absurd hpub (hnot ⟨oldHead, hp⟩)
  · rw [hst]
    refine ⟨fun _ _ => hpub, fun _ oldHead hp => ?_⟩
    unfold exchange at hp ⊢
    cases hphase : s.phase with
    | ready =>
      rw [hphase] at hp
      cases hp
      rfl
    | looping old =>
      obtain rfl := hloop old hphase
      simp [hphase] at hp
    | swapped old => simp [hphase] at hp
    | finished => simp [hphase] at hp

/-- **The exchange of the key list, and when it is never stuck.**  Let `head_` and the head of the
other list start two disjoint lists of added records.  In a run of any number of calls of `add` and
of the exchange, from every state in which the exchange is in its loop it finishes when only it
takes steps, with the new list in place and every added record exactly once in the two lists, if and
only if no attempt of `add` succeeds while the exchange is in its loop. -/
theorem neverStuck_iff (hready : s.phase = .ready) (h : Inv ak s) (ops : List (KeyOp α)) :
    Run.Always step (Unstuck ak) s ops ↔
      Run.Along step (fun s op => s.InLoop → ¬ s.Publishes op) s ops := by
  have hs : Unstuck ak s := by
    rintro ⟨oldHead, hp⟩
    rw [hready] at hp
    cases hp
  rw [Run.always_iff_along (fun _ op => step_inv op) (fun _ op => step_unstuck_iff op) h]
  exact and_iff_right hs

/-! ### Calls that are not interrupted -/

/-- The cells of the linked list from `p` on, and the data `l` of their records. -/
structure HoldsAt (s : KeyList α) (p : Option ℕ) (cells : List ℕ) (l : List α) : Prop where
  linked : Cells s.next p cells
  data : cells.map (fun q => (s.recs q).map Rec.data) = l.map some

/-- The linked list from `p` on has the data `l`. -/
def Holds (s : KeyList α) (p : Option ℕ) (l : List α) : Prop := ∃ cells, s.HoldsAt p cells l

variable {p : Option ℕ} {cells : List ℕ} {l : List α}

theorem HoldsAt.not_mem (h : s.HoldsAt p cells l) (hr : s.recs r = none) : r ∉ cells := by
  intro hmem
  have hnone : none ∈ l.map some := by
    rw [← h.data, List.mem_map]
    exact ⟨r, hmem, by rw [hr]; rfl⟩
  simp at hnone

theorem HoldsAt.setRec (h : s.HoldsAt p cells l) (hr : r ∉ cells) :
    (s.setRec r x).HoldsAt p cells l := by
  refine ⟨?_, ?_⟩
  · rw [setRec_next]
    exact h.linked.update hr _
  · rw [← h.data]
    refine List.map_congr_left fun q hq => ?_
    have hne : q ≠ r := ne_of_mem_of_not_mem hq hr
    simp [KeyList.setRec, hne]

/-- **One call of `add` that is not interrupted** puts its data in front of the list. -/
theorem add_alone {data : α} {l' : List α} (hr : s.recs r = none) (h : s.Holds s.head l)
    (h' : s.Holds s.akHead l') :
    let s' := [KeyOp.add r data, .read r, .tryAdd r].foldl step s
    s'.Holds s'.head (data :: l) ∧ s'.Holds s'.akHead l' := by
  intro s'
  have hs' : s' = { s.setRec r ⟨s.head, data, .added⟩ with head := some r } := by
    simp [s', step, hr, KeyList.setRec, KeyList.tryAdd]
  obtain ⟨cells, hcells⟩ := h
  obtain ⟨cells', hcells'⟩ := h'
  have hnot := hcells.not_mem hr
  have hset : (s.setRec r ⟨s.head, data, .added⟩).HoldsAt s.head cells l := hcells.setRec hnot
  rw [hs']
  have hother : (s.setRec r ⟨s.head, data, .added⟩).HoldsAt s.akHead cells' l' :=
    hcells'.setRec (hcells'.not_mem hr)
  refine ⟨⟨r :: cells, ?_, ?_⟩, cells', hother.linked, hother.data⟩
  · show Cells (s.setRec r ⟨s.head, data, .added⟩).next (some r) (r :: cells)
    rw [setRec_next]
    exact hcells.linked.push hnot
  · rw [List.map_cons, List.map_cons, ← hset.data]
    simp [KeyList.setRec]

/-- **The exchange alone** swaps the two lists. -/
theorem exchange_alone {l' : List α} (hready : s.phase = .ready) (h : s.Holds s.head l)
    (h' : s.Holds s.akHead l') :
    let s' := exchange^[3] s
    s'.phase = .finished ∧ s'.Holds s'.head l' ∧ s'.Holds s'.akHead l := by
  intro s'
  have hs' : s' = { s with head := s.akHead, akHead := s.head, phase := .finished } := by
    simp [s', exchange, hready]
  obtain ⟨cells, hcells⟩ := h
  obtain ⟨cells', hcells'⟩ := h'
  rw [hs']
  exact ⟨rfl, ⟨cells', hcells'.linked, hcells'.data⟩, ⟨cells, hcells.linked, hcells.data⟩⟩

end KeyList

/-- A list with the record 0, to be exchanged for one with the record 1. -/
def sampleKeys : KeyList String where
  head := some 0
  akHead := some 1
  recs r :=
    if r = 0 then some ⟨none, "a", .added⟩ else if r = 1 then some ⟨none, "b", .added⟩ else none
  phase := .ready

theorem sampleKeys_inv : KeyList.Inv [1] sampleKeys := by
  refine ⟨[0], [1], ⟨rfl, rfl⟩, ⟨rfl, rfl⟩, by decide, fun r => ?_, fun _ => rfl⟩
  by_cases h0 : r = 0
  · simp [KeyList.Added, sampleKeys, h0]
  · by_cases h1 : r = 1
    · simp [KeyList.Added, sampleKeys, h1]
    · simp [KeyList.Added, sampleKeys, h0, h1]

/-- A record is added before the exchange begins. -/
theorem neverStuck_sample :
    Run.Always KeyList.step (KeyList.Unstuck [1]) sampleKeys
      [.add 2 "c", .read 2, .tryAdd 2, .exchange, .exchange, .exchange] := by
  refine (KeyList.neverStuck_iff rfl sampleKeys_inv _).2 ?_
  refine ⟨?_, ?_, ?_, fun _ => id, fun _ => id, fun _ => id, trivial⟩
  all_goals
    rintro ⟨_, hp⟩
    cases hp

/-- The same record, added between the read and the first attempt of the exchange, which tries to
replace the record 0 for ever. -/
theorem neverStuck_add_in_loop :
    ¬ Run.Always KeyList.step (KeyList.Unstuck [1]) sampleKeys
      [.add 2 "c", .read 2, .exchange, .tryAdd 2] := by
  intro h
  obtain ⟨n, hfin, -⟩ := h _ List.prefix_rfl ⟨some 0, rfl⟩
  rw [Function.iterate_fixed (KeyList.exchange_of_ne rfl (by decide)) n] at hfin
  cases hfin

end Istatd
