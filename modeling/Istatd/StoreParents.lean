import Istatd.StoreInvariant

/-!
# Counters and their parents

A store that creates counters recursively creates, with a counter, the counters above it.  The
parents are opened one by one after the counter, each under the lock of its own shard, while other
threads may use the counter.

* `openedKey_beforeLastDot`: the stripped name is the name of the parent;
* `HasParents.exec`: the parent of a counter is there, or a thread is about to open it;
* `parents_created`: when no thread is in `record`, everything above a counter is there.
-/

namespace Istatd

open Executor StatStore

/-! ### Stripped names -/

theorem mungeChar_eq_dot_iff (ch : UInt8) : mungeChar ch = byte '.' ↔ ch = byte '.' := by
  have h : ∀ n, n < 256 → (mungeChar (UInt8.ofNat n) = byte '.' ↔ UInt8.ofNat n = byte '.') := by
    decide +kernel
  simpa using h ch.toNat ch.toNat_lt

theorem beforeLastDot_munge (name : Bytes) :
    beforeLastDot (munge name) = (beforeLastDot name).map munge := by
  induction name with
  | nil => rfl
  | cons ch rest ih =>
    have hcons : munge (ch :: rest) = mungeChar ch :: munge rest := rfl
    rw [hcons, beforeLastDot, beforeLastDot, ih]
    cases beforeLastDot rest with
    | some p => rfl
    | none =>
      simp only [Option.map_none, mungeChar_eq_dot_iff]
      split_ifs <;> rfl

/-- The name without its last part is the name of the parent. -/
theorem openedKey_beforeLastDot {name k p : Bytes} (hk : openedKey name = some k)
    (hp : beforeLastDot k = some p) (hne : p ≠ []) :
    ∃ sex, beforeLastDot name = some sex ∧ openedKey sex = some p := by
  cases name with
  | nil => cases hk
  | cons ch rest =>
    simp only [openedKey] at hk
    split_ifs at hk with hstar hrest
    · -- the star is kept, since there is no dot in front of it
      obtain rfl := Option.some.inj hk
      rw [beforeLastDot_munge] at hp
      obtain ⟨sex, hsex, rfl⟩ := Option.map_eq_some_iff.1 hp
      have hsexne : sex ≠ [] := fun h => hne (by rw [h]; rfl)
      refine ⟨ch :: sex, by simp [beforeLastDot, hsex], ?_⟩
      simp [openedKey, hstar, hsexne]
    · obtain rfl := Option.some.inj hk
      rw [beforeLastDot_munge] at hp
      obtain ⟨sex, hsex, rfl⟩ := Option.map_eq_some_iff.1 hp
      refine ⟨sex, hsex, ?_⟩
      cases sex with
      | nil => exact absurd rfl hne
      | cons ch' sex' =>
        obtain ⟨r, hr, -⟩ := beforeLastDot_eq_some_iff.1 hsex
        obtain ⟨rfl, -⟩ := List.cons.inj hr
        simp [openedKey, hstar]

/-! ### The parents of the counters -/

variable {C D : Type} {s s' : StatStore C D}

/-- The key that a thread in `record` is about to open as a parent. -/
def RecordCall.parentKey (c : RecordCall D) : Option Bytes :=
  match c.phase with
  | .parent sex _ => openedKey sex
  | _ => none

/-- The key that a handler is about to open as a parent. -/
def StoreHandler.parentKey : StoreHandler D → Option Bytes
  | .recordLoop c => c.parentKey
  | _ => none

namespace StatStore

/-- There is a counter of the key, deleted or not. -/
def HasKey (s : StatStore C D) (k : Bytes) : Prop := ∃ a, s.Valid a ∧ a.key = k

/-- The parent of every counter is there, or on its way. -/
def HasParents (s : StatStore C D) (q : List (StoreHandler D)) : Prop :=
  ∀ k, s.HasKey k → ∀ p, beforeLastDot k = some p → p ≠ [] →
    s.HasKey p ∨ ∃ h ∈ q, h.parentKey = some p

theorem Extends.hasKey (h : s.Extends s') {k : Bytes} (hk : s.HasKey k) : s'.HasKey k := by
  obtain ⟨a, ha, rfl⟩ := hk
  exact ⟨a, h.valid ha, rfl⟩

theorem hasKey_insertCounter {k q : Bytes} {m : C} (h : (s.insertCounter k m).HasKey q) :
    q = k ∨ s.HasKey q := by
  obtain ⟨a, ha, rfl⟩ := h
  obtain ⟨x, hx, hk⟩ := Option.map_eq_some_iff.1 ha
  have hx : (s.asyncCounters ++ [⟨k, m, false, []⟩])[a.id]? = some x := hx
  by_cases hlt : a.id < s.asyncCounters.length
  · rw [List.getElem?_append_left hlt] at hx
    exact .inr ⟨a, Option.map_eq_some_iff.2 ⟨x, hx, hk⟩, rfl⟩
  · left
    rw [List.getElem?_append_right (by omega), List.getElem?_singleton] at hx
    split_ifs at hx
    rw [← hk, ← Option.some.inj hx]

/-- The same number of counters are the same keys. -/
theorem Extends.hasKey_of_length (h : s.Extends s')
    (hlen : s'.asyncCounters.length = s.asyncCounters.length) {k : Bytes} (hk : s'.HasKey k) :
    s.HasKey k := by
  obtain ⟨a, ha, rfl⟩ := hk
  obtain ⟨x', hx', hkey'⟩ := Option.map_eq_some_iff.1 ha
  obtain ⟨hlt, -⟩ := List.getElem?_eq_some_iff.1 hx'
  obtain ⟨x'', hx'', hkey, -⟩ := h.counters a.id _ (List.getElem?_eq_getElem (hlen ▸ hlt))
  obtain rfl := Option.some.inj (hx'.symm.trans hx'')
  exact ⟨a, Option.map_eq_some_iff.2 ⟨_, List.getElem?_eq_getElem (hlen ▸ hlt),
    hkey.symm.trans hkey'⟩, rfl⟩

/-- A handler that opens no parent and makes no counter. -/
theorem HasParents.of_length {q q' : List (StoreHandler D)} (h : s.HasParents q)
    (he : s.Extends s') (hlen : s'.asyncCounters.length = s.asyncCounters.length)
    (hq : ∀ x ∈ q, x.parentKey ≠ none → x ∈ q') : s'.HasParents q' := by
  intro k hk p hp hne
  rcases h k (he.hasKey_of_length hlen hk) p hp hne with hkey | ⟨x, hx, hxp⟩
  · exact .inl (he.hasKey hkey)
  · exact .inr ⟨x, hq x hx (by simp [hxp]), hxp⟩

/-- The step of `record` in which `openCounter` holds the lock: what it opens is there after it, and
if it has made it, its parent is next. -/
theorem HasParents.openStep {x : StoreHandler D} {l l' : List (StoreHandler D)}
    (h : s.HasParents (l ++ x :: l')) (hwf : s.Wf) (hrec : s.recursivelyCreateCounters = true)
    {made : Option C} (hmade : made ≠ none) {c : RecordCall D} {name : Bytes}
    {outer : Option AsyncPtr} (hx : ∀ p, x.parentKey = some p → openedKey name = some p) :
    (c.openStep made s name outer).1.HasParents (l ++ l' ++ (c.openStep made s name outer).2) := by
  -- a handler that was pending and is not the one that runs is still pending
  have hkeep {k p : Bytes} {q : List (StoreHandler D)} (hk : s.HasKey k)
      (hp : beforeLastDot k = some p) (hne : p ≠ []) : s.HasKey p ∨ openedKey name = some p ∨
        ∃ y ∈ l ++ l' ++ q, y.parentKey = some p := by
    rcases h k hk p hp hne with hkey | ⟨y, hy, hyp⟩
    · exact .inl hkey
    · simp only [List.mem_append, List.mem_cons] at hy
      rcases hy with hy | rfl | hy
      · exact .inr (.inr ⟨y, by simp [hy], hyp⟩)
      · exact .inr (.inl (hx p hyp))
      · exact .inr (.inr ⟨y, by simp [hy], hyp⟩)
  rcases c.openStep_cases made s name outer with
    ⟨hnone, heq⟩ | ⟨k₀, hk₀, ⟨a, hl, heq⟩ | ⟨hl, ⟨hm, -⟩ | ⟨m, -, heq⟩⟩⟩
  · rw [heq]
    intro k hk p hp hne
    rcases hkeep hk hp hne with hkey | hopen | hq
    · exact .inl hkey
    · rw [hnone] at hopen
      cases hopen
    · exact .inr hq
  · rw [heq]
    intro k hk p hp hne
    rcases hkeep hk hp hne with hkey | hopen | hq
    · exact .inl hkey
    · obtain rfl := Option.some.inj (hk₀.symm.trans hopen)
      exact .inl ⟨a, (hwf.mapped _ a hl).2, (hwf.mapped _ a hl).1⟩
    · exact .inr hq
  · exact absurd hm hmade
  · rw [heq]
    have he := extends_insertCounter (s := s) k₀ m
    have hnew : (s.insertCounter k₀ m).HasKey k₀ := ⟨_, valid_insertCounter s k₀ m, rfl⟩
    intro k hk p hp hne
    rcases hasKey_insertCounter hk with rfl | hk
    · obtain ⟨sex, hsex, hsexp⟩ := openedKey_beforeLastDot hk₀ hp hne
      refine .inr ⟨_, List.mem_append_right _ (List.mem_singleton_self _), ?_⟩
      simp [StoreHandler.parentKey, RecordCall.parentKey, RecordCall.created, hrec, hsex, hsexp]
    · rcases hkeep hk hp hne with hkey | hopen | hq
      · exact .inl (he.hasKey hkey)
      · obtain rfl := Option.some.inj (hk₀.symm.trans hopen)
        exact .inl hnew
      · exact .inr hq

theorem HasParents.exec {x : StoreHandler D} {l l' : List (StoreHandler D)}
    (h : s.HasParents (l ++ x :: l')) (hwf : s.Wf) (hrec : s.recursivelyCreateCounters = true)
    {e : StoreInput C} (hmade : e.made ≠ none) (hok : x.Ok s) :
    (StatStore.exec e x s).1.HasParents (l ++ l' ++ (StatStore.exec e x s).2) := by
  have hrest {q : List (StoreHandler D)} (hx : x.parentKey = none) :
      ∀ y ∈ l ++ x :: l', y.parentKey ≠ none → y ∈ l ++ l' ++ q := by
    intro y hy hyp
    simp only [List.mem_append, List.mem_cons] at hy
    rcases hy with hy | rfl | hy
    · simp [hy]
    · exact absurd hx hyp
    · simp [hy]
  cases x with
  | recordLoop c =>
    simp only [StatStore.exec, RecordCall.step]
    cases hph : c.phase with
    | find =>
      refine h.openStep hwf hrec hmade fun p hp => ?_
      simp [StoreHandler.parentKey, RecordCall.parentKey, hph] at hp
    | parent sex a =>
      refine h.openStep hwf hrec hmade fun p hp => ?_
      simpa [StoreHandler.parentKey, RecordCall.parentKey, hph] using hp
    | post found =>
      exact h.of_length (Extends.refl s) rfl
        (hrest (by simp [StoreHandler.parentKey, RecordCall.parentKey, hph]))
  | _ =>
    exact h.of_length (sound_exec hwf e hok).extends_
      (exec_framed e (fun c h => by cases h) s).map.2 (hrest rfl)

theorem HasParents.call {q : List (StoreHandler D)} (h : s.HasParents q) (hwf : s.Wf)
    (c : StoreCall D) : (StatStore.call c s).1.HasParents (q ++ (StatStore.call c s).2) := by
  refine h.of_length (sound_call hwf c).extends_ ?_ fun x hx _ => List.mem_append_left _ hx
  rw [(call_framed c s).1]

end StatStore

/-- **The counters are closed under their parents.**  If counters are created recursively and the
factory makes every counter it is asked for, then in every run, when no thread is in `record`, there
is a counter of every name above a counter; the map leads to it unless it has been deleted. -/
theorem parents_created (ac : ℤ) {es : List (Event (StoreCall D) (StoreInput C))}
    (hmade : ∀ i e, .exec i e ∈ es → e.made ≠ none) :
    let t := run (program C D) ⟨new ac true, []⟩ es
    (∀ c, .recordLoop c ∉ t.pending) → ∀ a, t.state.Valid a → ∀ q, Covers q a.key → q ≠ [] →
      ∃ b, t.state.Valid b ∧ b.key = q ∧
        (t.state.isDeleted b = true ∨ t.state.counterShards.lookup q = some b) := by
  intro t hidle
  have hinv : Inv t.state t.pending ∧ t.state.recursivelyCreateCounters = true ∧
      t.state.HasParents t.pending := by
    refine invariant (p := program C D) (Q := fun _ => True) (R := fun e => e.made ≠ none)
      (I := fun s q => Inv s q ∧ s.recursivelyCreateCounters = true ∧ s.HasParents q) ?_ ?_
      ⟨inv_new ac true, rfl, ?_⟩ (fun _ _ => trivial) hmade
    · rintro c s q - ⟨hi, hr, hp⟩
      exact ⟨inv_call hi c, (sound_call hi.wf c).extends_.recursively.trans hr, hp.call hi.wf c⟩
    · rintro e s l x l' he ⟨hi, hr, hp⟩
      have hok := hi.ok x (by simp)
      exact ⟨inv_exec hi e, (sound_exec hi.wf e hok).extends_.recursively.trans hr,
        hp.exec hi.wf hr he hok⟩
    · rintro k ⟨a, ha, -⟩
      simp [StatStore.Valid, new] at ha
  obtain ⟨hi, -, hp⟩ := hinv
  have hkeys : ∀ n (k : Bytes), k.length = n → t.state.HasKey k → ∀ q, Covers q k → q ≠ [] →
      t.state.HasKey q := by
    intro n
    induction n using Nat.strong_induction_on with
    | _ n ih =>
      intro k hn hk q hq hne
      rcases covers_iff.1 hq with rfl | ⟨p, hkp, hqp⟩
      · exact hk
      · have hpne : p ≠ [] := by
          rintro rfl
          rcases hqp with rfl | ⟨r, hr⟩
          · exact hne rfl
          · simp at hr
        have hkey : t.state.HasKey p := by
          rcases hp k hk p hkp hpne with hkey | ⟨x, hx, hxp⟩
          · exact hkey
          · cases x with
            | recordLoop c => exact absurd hx (hidle c)
            | _ => cases hxp
        exact ih p.length (hn ▸ length_lt_of_beforeLastDot hkp) p rfl hkey q hqp hne
  intro a ha q hq hne
  obtain ⟨b, hb, rfl⟩ := hkeys _ a.key rfl ⟨a, ha, rfl⟩ q hq hne
  by_cases hd : ∃ b', t.state.Valid b' ∧ b'.key = b.key ∧ t.state.isDeleted b' = false
  · obtain ⟨b', hb', hk', hd'⟩ := hd
    exact ⟨b', hb', hk', .inr (hk' ▸ hi.wf.listed b' hb' hd')⟩
  · refine ⟨b, hb, rfl, .inl ?_⟩
    by_contra hdel
    exact hd ⟨b, hb, rfl, by simpa using hdel⟩

/-- A record for `*a.B`: the counter is made, then its parent, then the record is posted. -/
def sampleStoreRun : List (Event (StoreCall ℕ) (StoreInput Unit)) :=
  [.call (.record (bytes "*a.B") ⟨10, 1, 1, 1, 1, 1⟩), .exec 0 ⟨some (), false⟩,
    .exec 0 ⟨some (), false⟩, .exec 0 ⟨some (), false⟩]

/-- The parent of the counter of `*a.B` is there. -/
theorem parents_created_sample :
    ∃ b, (run (program Unit ℕ) ⟨new 0 true, []⟩ sampleStoreRun).state.Valid b ∧
      b.key = bytes "a" := by
  have hpending : (run (program Unit ℕ) ⟨new 0 true, []⟩ sampleStoreRun).pending =
      [.record ⟨0, bytes "a.b"⟩ true ⟨10, 1, 1, 1, 1, 1⟩] := by
    rfl
  have hidle : ∀ c,
      .recordLoop c ∉ (run (program Unit ℕ) ⟨new 0 true, []⟩ sampleStoreRun).pending := by
    intro c hc
    rw [hpending] at hc
    simp at hc
  have hmade : ∀ i e, .exec i e ∈ sampleStoreRun → e.made ≠ none := by
    intro i e hi hnone
    simp only [sampleStoreRun, List.mem_cons, List.not_mem_nil, or_false, reduceCtorEq, false_or,
      Event.exec.injEq, or_self] at hi
    rw [hi.2] at hnone
    cases hnone
  obtain ⟨b, hb, hk, -⟩ := parents_created 0 hmade hidle ⟨0, bytes "a.b"⟩ (by rfl) (bytes "a")
    (.inr (by decide)) (by decide)
  exact ⟨b, hb, hk⟩

end Istatd
