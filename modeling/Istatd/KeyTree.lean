import Istatd.AllKeys

/-!
# The tree of the added keys

The names that `match` goes through are the added keys and everything above them.  A counter whose
name stands above the name of another one is shown as an aggregate, whichever of the two was added
first, and however often the list was gone through between.

* `Above`: a proper dotted prefix of a name;
* `KeyMatch.Built`: what a map holds that was built from some keys, in any order;
* `KeyMatch.Built.insert`: one more key;
* `AllKeys.Fed`: the same for the list and the map of an `AllKeys`, between two calls;
* `AllKeys.key_tree`: the entries after any sequence of calls.
-/

namespace Istatd

/-- `q` is a proper dotted prefix of `key`. -/
def Above (q key : Bytes) : Prop := q ++ [byte '.'] <+: key

instance (q key : Bytes) : Decidable (Above q key) := inferInstanceAs (Decidable (_ <+: _))

variable {q p key key' : Bytes}

theorem covers_iff_above : Covers q key ↔ q = key ∨ Above q key := Iff.rfl

theorem Above.length_lt (h : Above q key) : q.length < key.length := by
  have hle := h.length_le
  rw [List.length_append, List.length_singleton] at hle
  omega

theorem Covers.length_le (h : Covers q key) : q.length ≤ key.length := by
  rcases h with rfl | h
  · exact le_rfl
  · exact (Above.length_lt h).le

theorem not_above_self : ¬Above q q := fun h => lt_irrefl _ h.length_lt

theorem Above.trans_covers (h : Above q key) (h' : Covers key key') : Above q key' := by
  rcases h' with rfl | h'
  · exact h
  · exact h.trans ((List.prefix_append _ _).trans h')

theorem Covers.trans (h : Covers q key) (h' : Covers key key') : Covers q key' := by
  rcases h with rfl | h
  · exact h'
  · exact .inr (Above.trans_covers h h')

/-- What stands above a name, in terms of its parent. -/
theorem above_iff_covers (hp : beforeLastDot key = some p) : Above q key ↔ Covers q p := by
  constructor
  · intro h
    rcases covers_iff.1 (.inr h : Covers q key) with rfl | ⟨p', hp', hcov⟩
    · exact absurd h not_above_self
    · rw [hp] at hp'
      cases hp'
      exact hcov
  · intro h
    rcases covers_iff.2 (.inr ⟨p, hp, h⟩ : q = key ∨ _) with rfl | habove
    · exact absurd h.length_le (not_le.2 (length_lt_of_beforeLastDot hp))
    · exact habove

theorem not_above_of_none (hp : beforeLastDot key = none) : ¬Above q key := by
  intro h
  rcases covers_iff.1 (.inr h : Covers q key) with rfl | ⟨p, hp', -⟩
  · exact not_above_self h
  · rw [hp] at hp'
    cases hp'

namespace KeyMatch

variable {m : KeyMatch} {cr : CounterResponse}

theorem mem_ctrs_set {cr' : CounterResponse} (h : (q, cr') ∈ (m.set key cr).ctrs) :
    q = key ∧ cr' = cr ∨ q ≠ key ∧ (q, cr') ∈ m.ctrs := by
  rcases List.mem_cons.1 h with h | h
  · exact .inl (Prod.ext_iff.1 h)
  · obtain ⟨h, hne⟩ := List.mem_filter.1 h
    exact .inr ⟨by simpa using hne, h⟩

theorem nodup_names_set (h : m.names.Nodup) : (m.set key cr).names.Nodup := by
  refine List.nodup_cons.2 ⟨?_, h.sublist (List.filter_sublist.map _)⟩
  intro hk
  obtain ⟨e, he, rfl⟩ := List.mem_map.1 hk
  simpa using (List.mem_filter.1 he).2

theorem nodup_names_addParents {n : ℕ} {prev : Bytes} (h : m.names.Nodup) :
    (addParents n m prev).names.Nodup := by
  induction n generalizing m prev with
  | zero => exact h
  | succ n ih =>
    rw [addParents]
    cases beforeLastDot prev with
    | none => exact h
    | some p =>
      simp only
      split_ifs
      · exact nodup_names_set h
      · exact ih (nodup_names_set h)

/-- The loop leaves an aggregate above `prev` and nothing else is changed.  Where it stops at a
parent that is known, everything above that is an aggregate already. -/
theorem mem_ctrs_addParents {n : ℕ} {prev : Bytes} (hn : prev.length ≤ n)
    (hagg : ∀ k ∈ m.names, ¬Covers prev k → ∀ q cr, Above q k → (q, cr) ∈ m.ctrs → cr = aggregate)
    (h : (q, cr) ∈ (addParents n m prev).ctrs) :
    Above q prev ∧ cr = aggregate ∨ ¬Above q prev ∧ (q, cr) ∈ m.ctrs := by
  induction n generalizing m prev with
  | zero =>
    obtain rfl : prev = [] := List.length_eq_zero_iff.1 (Nat.le_zero.1 hn)
    exact .inr ⟨not_above_of_none rfl, h⟩
  | succ n ih =>
    rw [addParents] at h
    cases hp : beforeLastDot prev with
    | none =>
      rw [hp] at h
      exact .inr ⟨not_above_of_none hp, h⟩
    | some p =>
      have hlt := length_lt_of_beforeLastDot hp
      simp only [hp] at h
      split_ifs at h with hmem
      · rw [above_iff_covers hp, covers_iff_above]
        rcases mem_ctrs_set h with ⟨rfl, rfl⟩ | ⟨hne, h⟩
        · exact .inl ⟨.inl rfl, rfl⟩
        · by_cases hq : Above q p
          · have hcov : ¬Covers prev p := fun hcov => absurd hcov.length_le (by omega)
            exact .inl ⟨.inr hq, hagg p hmem hcov q cr hq h⟩
          · exact .inr ⟨by simp [hne, hq], h⟩
      · have hagg' : ∀ k ∈ (m.set p aggregate).names, ¬Covers p k → ∀ q cr, Above q k →
            (q, cr) ∈ (m.set p aggregate).ctrs → cr = aggregate := by
          intro k hk hcov q cr hq h
          rcases mem_ctrs_set h with ⟨rfl, rfl⟩ | ⟨-, h⟩
          · rfl
          · rcases mem_names_set.1 hk with rfl | hk
            · exact absurd (.refl k) hcov
            · refine hagg k hk (fun hprev => hcov ?_) q cr hq h
              exact (covers_iff.2 (.inr ⟨p, hp, .refl p⟩)).trans hprev
        have hcovers : Above q prev ↔ q = p ∨ Above q p := above_iff_covers hp
        rcases ih (by omega) hagg' h with ⟨hq, hcr⟩ | ⟨hq, h⟩
        · exact .inl ⟨hcovers.2 (.inr hq), hcr⟩
        · rcases mem_ctrs_set h with ⟨rfl, rfl⟩ | ⟨hne, h⟩
          · exact .inl ⟨hcovers.2 (.inl rfl), rfl⟩
          · exact .inr ⟨by simp [hcovers, hne, hq], h⟩

/-- What a map holds that was built from the keys `added`: each name once, a leaf where nothing was
added below. -/
structure Built (m : KeyMatch) (added : Set CounterData) : Prop where
  nodup : m.names.Nodup
  mem_names : ∀ q, q ∈ m.names ↔ ∃ cd ∈ added, Covers q cd.name
  response : ∀ q cr, (q, cr) ∈ m.ctrs →
    (∃ cd ∈ added, Above q cd.name) ∧ cr = aggregate ∨
      (¬∃ cd ∈ added, Above q cd.name) ∧ ∃ cd ∈ added, cd.name = q ∧ cr = leaf cd

theorem built_empty : empty.Built ∅ where
  nodup := List.nodup_nil
  mem_names q := by simp [names, empty]
  response q cr h := by cases h

variable {added : Set CounterData}

theorem Built.closed (h : m.Built added) : m.Closed := by
  intro k hk p hp
  obtain ⟨cd, hcd, hcov⟩ := (h.mem_names k).1 hk
  exact (h.mem_names p).2 ⟨cd, hcd, (covers_iff.2 (.inr ⟨p, hp, .refl p⟩)).trans hcov⟩

/-- A name above one of the map is an aggregate. -/
theorem Built.eq_aggregate (h : m.Built added) (hkey : key ∈ m.names) (hq : Above q key)
    (hcr : (q, cr) ∈ m.ctrs) : cr = aggregate := by
  obtain ⟨cd, hcd, hcov⟩ := (h.mem_names key).1 hkey
  rcases h.response q cr hcr with ⟨-, hagg⟩ | ⟨hnot, -⟩
  · exact hagg
  · exact absurd ⟨cd, hcd, hq.trans_covers hcov⟩ hnot

/-- A key whose name is known changes nothing. -/
theorem Built.of_mem {cd : CounterData} (h : m.Built added) (hmem : cd.name ∈ m.names) :
    m.Built ({cd} ∪ added) := by
  obtain ⟨cd', hcd', hcov⟩ := (h.mem_names cd.name).1 hmem
  have hcovers : ∀ q, (∃ c ∈ {cd} ∪ added, Covers q c.name) ↔ ∃ c ∈ added, Covers q c.name := by
    intro q
    constructor
    · rintro ⟨c, rfl | hc, hq⟩
      · exact ⟨cd', hcd', hq.trans hcov⟩
      · exact ⟨c, hc, hq⟩
    · rintro ⟨c, hc, hq⟩
      exact ⟨c, .inr hc, hq⟩
  have habove : ∀ q, (∃ c ∈ {cd} ∪ added, Above q c.name) ↔ ∃ c ∈ added, Above q c.name := by
    intro q
    constructor
    · rintro ⟨c, rfl | hc, hq⟩
      · exact ⟨cd', hcd', hq.trans_covers hcov⟩
      · exact ⟨c, hc, hq⟩
    · rintro ⟨c, hc, hq⟩
      exact ⟨c, .inr hc, hq⟩
  refine ⟨h.nodup, fun q => ?_, fun q cr hcr => ?_⟩
  · rw [hcovers, h.mem_names]
  · rw [habove]
    rcases h.response q cr hcr with hagg | ⟨hnot, c, hc, hleaf⟩
    · exact .inl hagg
    · exact .inr ⟨hnot, c, .inr hc, hleaf⟩

/-- **One more key.** -/
theorem Built.insert (h : m.Built added) (cd : CounterData) :
    (m.insert cd).Built ({cd} ∪ added) := by
  by_cases hmem : cd.name ∈ m.names
  · rw [KeyMatch.insert, if_pos hmem]
    exact h.of_mem hmem
  · have hnone : ∀ c ∈ added, ¬Covers cd.name c.name := fun c hc hcov =>
      hmem ((h.mem_names _).2 ⟨c, hc, hcov⟩)
    refine ⟨?_, fun q => ?_, fun q cr hcr => ?_⟩
    · rw [KeyMatch.insert, if_neg hmem]
      exact nodup_names_addParents (nodup_names_set h.nodup)
    · rw [(insert_spec h.closed cd).2, h.mem_names]
      constructor
      · rintro (⟨c, hc, hq⟩ | hq)
        · exact ⟨c, .inr hc, hq⟩
        · exact ⟨cd, .inl rfl, hq⟩
      · rintro ⟨c, rfl | hc, hq⟩
        · exact .inr hq
        · exact .inl ⟨c, hc, hq⟩
    · rw [KeyMatch.insert, if_neg hmem] at hcr
      have hagg : ∀ k ∈ (m.set cd.name (leaf cd)).names, ¬Covers cd.name k → ∀ q cr, Above q k →
          (q, cr) ∈ (m.set cd.name (leaf cd)).ctrs → cr = aggregate := by
        intro k hk hcov q cr hq hcr
        rcases mem_ctrs_set hcr with ⟨rfl, -⟩ | ⟨-, hcr⟩
        · exact absurd (.inr hq) hcov
        · rcases mem_names_set.1 hk with rfl | hk
          · exact absurd (.refl _) hcov
          · exact h.eq_aggregate hk hq hcr
      rcases mem_ctrs_addParents le_rfl hagg hcr with ⟨hq, rfl⟩ | ⟨hq, hcr⟩
      · exact .inl ⟨⟨cd, .inl rfl, hq⟩, rfl⟩
      · rcases mem_ctrs_set hcr with ⟨rfl, rfl⟩ | ⟨hne, hcr⟩
        · refine .inr ⟨?_, cd, .inl rfl, rfl, rfl⟩
          rintro ⟨c, rfl | hc, habove⟩
          · exact hq habove
          · exact hnone c hc (.inr habove)
        · rcases h.response q cr hcr with ⟨⟨c, hc, habove⟩, rfl⟩ | ⟨hnot, c, hc, hleaf⟩
          · exact .inl ⟨⟨c, .inr hc, habove⟩, rfl⟩
          · refine .inr ⟨?_, c, .inr hc, hleaf⟩
            rintro ⟨c', rfl | hc', habove⟩
            · exact hq habove
            · exact hnot ⟨c', hc', habove⟩

/-- **Several keys**, in any order. -/
theorem Built.foldl_insert (h : m.Built added) (cds : List CounterData) :
    (cds.foldl KeyMatch.insert m).Built (added ∪ {cd | cd ∈ cds}) := by
  induction cds generalizing m added with
  | nil => simpa using h
  | cons cd cds ih =>
    rw [List.foldl_cons]
    convert ih (h.insert cd) using 1
    ext c
    simp only [Set.mem_union, Set.mem_ofPred_eq, List.mem_cons, Set.mem_singleton_iff]
    tauto

/-- Leaves are the keys with nothing below them, everything else is an aggregate. -/
theorem Built.isLeaf_iff (h : m.Built added) (hcr : (q, cr) ∈ m.ctrs) :
    (cr.isLeaf = true ↔ (∃ cd ∈ added, cd.name = q) ∧ ¬∃ cd ∈ added, Above q cd.name) ∧
      (cr.isLeaf = false → cr = aggregate) := by
  rcases h.response q cr hcr with ⟨habove, rfl⟩ | ⟨hnot, cd, hcd, hname, rfl⟩
  · exact ⟨⟨nofun, fun hleaf => absurd habove hleaf.2⟩, fun _ => rfl⟩
  · exact ⟨⟨fun _ => ⟨⟨cd, hcd, hname⟩, hnot⟩, fun _ => rfl⟩, nofun⟩

/-- Two maps that were built from the same keys are the same, up to the display type of a leaf that
was added with both kinds. -/
theorem Built.same {m' : KeyMatch} (h : m.Built added) (h' : m'.Built added) :
    m'.names.Perm m.names ∧ ∀ q cr cr', (q, cr) ∈ m.ctrs → (q, cr') ∈ m'.ctrs →
      cr'.isLeaf = cr.isLeaf ∧
        (cr' = cr ∨ (⟨q, true⟩ : CounterData) ∈ added ∧ (⟨q, false⟩ : CounterData) ∈ added) := by
  refine ⟨?_, fun q cr cr' hcr hcr' => ?_⟩
  · refine (List.perm_ext_iff_of_nodup h'.nodup h.nodup).2 fun q => ?_
    rw [h.mem_names, h'.mem_names]
  · rcases h.response q cr hcr with ⟨habove, rfl⟩ | ⟨hnot, cd, hcd, rfl, rfl⟩
    · rcases h'.response q cr' hcr' with ⟨-, rfl⟩ | ⟨hnot, -⟩
      · exact ⟨rfl, .inl rfl⟩
      · exact absurd habove hnot
    · rcases h'.response _ cr' hcr' with ⟨habove, -⟩ | ⟨-, cd', hcd', hname, rfl⟩
      · exact absurd habove hnot
      · refine ⟨rfl, ?_⟩
        obtain ⟨name, kind⟩ := cd
        obtain ⟨name', kind'⟩ := cd'
        obtain rfl : name' = name := hname
        cases kind <;> cases kind'
        · exact .inl rfl
        · exact .inr ⟨hcd', hcd⟩
        · exact .inr ⟨hcd, hcd'⟩
        · exact .inl rfl

end KeyMatch

/-! ### Sequences of calls -/

/-- A call on an `AllKeys`. -/
inductive KeyCall
  | add (cd : CounterData)
  | matchKeys (path : Bytes)
  deriving DecidableEq

namespace AllKeys

/-- `AllKeys::AllKeys`, which leaves `dirty_` as it is in memory. -/
def start (dirty : Bool) : AllKeys := ⟨[], dirty, .empty⟩

/-- The state after a call. -/
def call (a : AllKeys) : KeyCall → AllKeys
  | .add cd => a.add cd.name cd.isCounter
  | .matchKeys path => (a.matchKeys path).2

/-- The keys that are added by some calls. -/
def addedKeys (calls : List KeyCall) : List CounterData :=
  calls.filterMap fun
    | .add cd => some cd
    | .matchKeys _ => none

/-- The entries held for matching after some calls and a final `match`. -/
def entries (dirty : Bool) (calls : List KeyCall) (path : Bytes) : KeyMatch :=
  ((calls.foldl call (start dirty)).matchKeys path).2.toMatch

/-- The list has the keys that were added, and the map was built from some of them: from all, if
nothing was added since. -/
structure Fed (a : AllKeys) (added : Set CounterData) : Prop where
  recs : {cd | cd ∈ a.recs} = added
  built : ∃ fed, a.toMatch.Built fed ∧ fed ⊆ added ∧ (a.dirty = false → fed = added)

variable {a : AllKeys} {added : Set CounterData}

theorem fed_start (dirty : Bool) : (start dirty).Fed ∅ :=
  ⟨by simp [start], ∅, KeyMatch.built_empty, subset_rfl, fun _ => rfl⟩

theorem Fed.add (h : a.Fed added) (cd : CounterData) :
    (a.add cd.name cd.isCounter).Fed ({cd} ∪ added) := by
  obtain ⟨fed, hbuilt, hsub, -⟩ := h.built
  refine ⟨?_, fed, hbuilt, hsub.trans Set.subset_union_right, fun hdirty => by cases hdirty⟩
  rw [← h.recs]
  ext c
  simp [AllKeys.add]

/-- A `match` feeds the whole list once more, and the map is then built from all keys. -/
theorem Fed.built_matchKeys (h : a.Fed added) (path : Bytes) :
    (a.matchKeys path).2.toMatch.Built added := by
  obtain ⟨fed, hbuilt, hsub, hclean⟩ := h.built
  rw [AllKeys.matchKeys]
  by_cases hdirty : a.dirty = true
  · rw [if_pos hdirty]
    have hall := hbuilt.foldl_insert a.recs
    rwa [h.recs, Set.union_eq_right.2 hsub] at hall
  · rw [if_neg hdirty]
    rwa [hclean (by simpa using hdirty)] at hbuilt

theorem Fed.matchKeys (h : a.Fed added) (path : Bytes) : (a.matchKeys path).2.Fed added := by
  refine ⟨?_, added, h.built_matchKeys path, subset_rfl, fun _ => rfl⟩
  rw [← h.recs, AllKeys.matchKeys]
  split_ifs <;> rfl

theorem Fed.foldl_call (h : a.Fed added) (calls : List KeyCall) :
    (calls.foldl call a).Fed (added ∪ {cd | cd ∈ addedKeys calls}) := by
  induction calls generalizing a added with
  | nil => simpa [addedKeys] using h
  | cons c calls ih =>
    rw [List.foldl_cons]
    cases c with
    | add cd =>
      have hset : added ∪ {c | c ∈ addedKeys (.add cd :: calls)} =
          {cd} ∪ added ∪ {c | c ∈ addedKeys calls} := by
        ext c
        simp only [addedKeys, List.filterMap_cons, Set.mem_union, Set.mem_ofPred_eq,
          List.mem_cons, Set.mem_singleton_iff]
        tauto
      rw [hset]
      exact ih (h.add cd)
    | matchKeys path => exact ih (h.matchKeys path)

theorem built_entries (dirty : Bool) (calls : List KeyCall) (path : Bytes) :
    (entries dirty calls path).Built {cd | cd ∈ addedKeys calls} := by
  have hfed := (fed_start dirty).foldl_call calls
  rw [Set.empty_union] at hfed
  exact hfed.built_matchKeys path

/-- **The tree of the added keys.**  The entries after any calls are the keys and their dotted
prefixes, each once; the leaves are the keys with none below them; and neither the order of the
calls nor where `match` is called among them makes a difference. -/
theorem key_tree (dirty : Bool) (calls : List KeyCall) (path : Bytes) :
    (entries dirty calls path).names.Nodup ∧
    (∀ q, q ∈ (entries dirty calls path).names ↔
      ∃ cd ∈ addedKeys calls, q = cd.name ∨ Above q cd.name) ∧
    (∀ q cr, (q, cr) ∈ (entries dirty calls path).ctrs →
      (cr.isLeaf = true ↔ (∃ cd ∈ addedKeys calls, cd.name = q) ∧
        ¬∃ cd ∈ addedKeys calls, Above q cd.name) ∧
      (cr.isLeaf = false → cr = KeyMatch.aggregate)) ∧
    ∀ dirty' calls' path', (∀ cd, cd ∈ addedKeys calls' ↔ cd ∈ addedKeys calls) →
      (entries dirty' calls' path').names.Perm (entries dirty calls path).names ∧
      ∀ q cr cr', (q, cr) ∈ (entries dirty calls path).ctrs →
        (q, cr') ∈ (entries dirty' calls' path').ctrs → cr'.isLeaf = cr.isLeaf ∧
          (cr' = cr ∨ ⟨q, true⟩ ∈ addedKeys calls ∧ ⟨q, false⟩ ∈ addedKeys calls) := by
  have hbuilt := built_entries dirty calls path
  refine ⟨hbuilt.nodup, hbuilt.mem_names, fun q cr hcr => hbuilt.isLeaf_iff hcr, ?_⟩
  intro dirty' calls' path' hadded
  have hset : {cd | cd ∈ addedKeys calls'} = {cd | cd ∈ addedKeys calls} := Set.ext hadded
  have hbuilt' := built_entries dirty' calls' path'
  rw [hset] at hbuilt'
  exact hbuilt.same hbuilt'

/-- A parent before and after its child, with and without a `match` between. -/
theorem key_tree_both_orders :
    (entries false [.add ⟨bytes "cpu.idle", true⟩, .matchKeys (bytes "*"),
      .add ⟨bytes "cpu", false⟩] []).names.Perm
    (entries true [.add ⟨bytes "cpu", false⟩, .add ⟨bytes "cpu.idle", true⟩] []).names := by
  refine ((key_tree true [.add ⟨bytes "cpu", false⟩, .add ⟨bytes "cpu.idle", true⟩] []).2.2.2
    false _ [] fun cd => ?_).1
  simp only [addedKeys, List.filterMap_cons, List.filterMap_nil, List.mem_cons]
  tauto

-- the keys of the test of `AllKeys`
example : (entries false [.add ⟨bytes "a.file.that.is.nested", true⟩,
    .add ⟨bytes "a.file.that.is.non", false⟩, .add ⟨bytes "a.different.file", true⟩,
    .add ⟨bytes "a.other.different.file", false⟩] (bytes "*")).names.length = 11 := by
  decide +kernel

end AllKeys

end Istatd
