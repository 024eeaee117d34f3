import Mathlib.Tactic

/-!
# Old records of agents (`StatServer::purgeOldMetaRecords`)

A server keeps a record for each connection, and marks it as offline when the connection is closed.
From time to time the offline records are purged: those that are too old, and those above a number.
They are sorted by their last activity, and a loop removes them from the oldest on until it comes to
one that is young enough and has *at least* as many records from it on as may remain.

* `records_purgeOldMetaRecords`: which records are left;
* `purge_keeps_limits_iff`: when they are the ones that should be left.
-/

namespace Istatd

/-- A record of `metaInfo_`: its key, which is the address of the connection, and the fields of
`MetaInfo` that matter here. -/
structure MetaRecord where
  key : ℕ
  online : Bool
  activity : ℤ
  deriving DecidableEq

/-- `InfoHashMap`. -/
structure InfoHashMap where
  records : List MetaRecord
  nodup : (records.map MetaRecord.key).Nodup

namespace InfoHashMap

/-- `erase(find(key))`. -/
def erase (m : InfoHashMap) (key : ℕ) : InfoHashMap where
  records := m.records.filter (·.key ≠ key)
  nodup := m.nodup.sublist (List.filter_sublist.map _)

/-- The order of `std::pair`. -/
def pairLE (p q : ℤ × ℕ) : Bool := p.1 < q.1 ∨ (p.1 = q.1 ∧ p.2 ≤ q.2)

/-- `toPurge`, sorted. -/
def toPurge (m : InfoHashMap) : List (ℤ × ℕ) :=
  ((m.records.filter fun r => r.online = false).map fun r => (r.activity, r.key)).mergeSort pairLE

/-- The loop over `toPurge`, where `n - i` is the length of what is left of it. -/
def purgeLoop (bound : ℤ) (maxOld : ℕ) : List (ℤ × ℕ) → InfoHashMap → InfoHashMap
  | [], m => m
  | p :: rest, m =>
    if bound < p.1 ∧ maxOld ≤ (p :: rest).length then m
    else purgeLoop bound maxOld rest (m.erase p.2)

/-- `StatServer::purgeOldMetaRecords`. -/
def purgeOldMetaRecords (m : InfoHashMap) (now : ℤ) (maxOld : ℕ) (maxAge : ℤ) : InfoHashMap :=
  purgeLoop (now - maxAge) maxOld m.toPurge m

/-! ### Which records are left -/

/-- The offline records that are young enough. -/
def young (m : InfoHashMap) (bound : ℤ) : List MetaRecord :=
  m.records.filter fun r => r.online = false ∧ bound < r.activity

variable {m : InfoHashMap} {bound : ℤ} {maxOld : ℕ}

theorem pairwise_toPurge (m : InfoHashMap) : m.toPurge.Pairwise fun p q => p.1 ≤ q.1 := by
  have htrans : ∀ p q r : ℤ × ℕ, pairLE p q = true → pairLE q r = true → pairLE p r = true := by
    intro p q r
    simp only [pairLE, decide_eq_true_eq]
    omega
  have htotal : ∀ p q : ℤ × ℕ, (pairLE p q || pairLE q p) = true := by
    intro p q
    simp only [pairLE, Bool.or_eq_true, decide_eq_true_eq]
    omega
  refine (List.pairwise_mergeSort htrans htotal _).imp fun h => ?_
  simp only [pairLE, decide_eq_true_eq] at h
  omega

theorem mem_toPurge {p : ℤ × ℕ} :
    p ∈ m.toPurge ↔ ∃ r ∈ m.records, r.online = false ∧ (r.activity, r.key) = p := by
  simp [toPurge, and_assoc]

/-- The keys that the loop erases: the old ones, and the young ones too if there are fewer of them
than may remain. -/
theorem records_purgeLoop {l : List (ℤ × ℕ)} (hl : l.Pairwise fun p q => p.1 ≤ q.1) :
    (purgeLoop bound maxOld l m).records = m.records.filter fun r =>
      ∀ p ∈ l, p.2 = r.key → bound < p.1 ∧ maxOld ≤ (l.filter fun p => bound < p.1).length := by
  induction l generalizing m with
  | nil => simp [purgeLoop]
  | cons p l ih =>
    obtain ⟨hp, hl⟩ := List.pairwise_cons.1 hl
    rw [purgeLoop]
    by_cases hyoung : bound < p.1
    · have hall : ∀ q ∈ p :: l, bound < q.1 :=
        List.forall_mem_cons.2 ⟨hyoung, fun q hq => hyoung.trans_le (hp q hq)⟩
      have hfilter : ((p :: l).filter fun p => bound < p.1) = p :: l :=
        List.filter_eq_self.2 fun q hq => decide_eq_true (hall q hq)
      rw [hfilter]
      by_cases hmany : maxOld ≤ (p :: l).length
      · rw [if_pos ⟨hyoung, hmany⟩]
        refine (List.filter_eq_self.2 fun r _ => decide_eq_true ?_).symm
        exact fun q hq _ => ⟨hall q hq, hmany⟩
      · -- there are too few from here on, and fewer after each round
        have hfew : ¬ maxOld ≤ (l.filter fun p => bound < p.1).length := fun h =>
          hmany (h.trans ((List.length_filter_le _ l).trans (Nat.le_succ _)))
        rw [if_neg fun h => hmany h.2, ih hl, erase, List.filter_filter]
        refine List.filter_congr fun r _ => ?_
        simp only [hmany, hfew, and_false, List.forall_mem_cons]
        rw [Bool.and_comm, ← Bool.decide_and]
        exact decide_eq_decide.2 (and_congr_left fun _ => ne_comm)
    · have hfilter : ((p :: l).filter fun p => bound < p.1) = l.filter fun p => bound < p.1 :=
        List.filter_cons_of_neg (by simpa using hyoung)
      rw [if_neg fun h => hyoung h.1, ih hl, erase, List.filter_filter, hfilter]
      refine List.filter_congr fun r _ => ?_
      simp only [List.forall_mem_cons, hyoung, false_and]
      rw [Bool.and_comm, ← Bool.decide_and]
      exact decide_eq_decide.2 (and_congr_left fun _ => ne_comm)

theorem length_filter_toPurge (m : InfoHashMap) (bound : ℤ) :
    (m.toPurge.filter fun p => bound < p.1).length = (m.young bound).length := by
  unfold toPurge young
  rw [((List.mergeSort_perm _ _).filter _).length_eq, List.filter_map, List.length_map,
    List.filter_filter]
  refine congrArg List.length (List.filter_congr fun r _ => ?_)
  simp [Bool.and_comm]

/-- **What is left**: the online records, and the young ones unless there are fewer of them than may
remain. -/
theorem records_purgeOldMetaRecords (m : InfoHashMap) (now : ℤ) (maxOld : ℕ) (maxAge : ℤ) :
    (m.purgeOldMetaRecords now maxOld maxAge).records = m.records.filter fun r =>
      r.online = true ∨ (now - maxAge < r.activity ∧ maxOld ≤ (m.young (now - maxAge)).length) := by
  unfold purgeOldMetaRecords
  rw [records_purgeLoop m.pairwise_toPurge, length_filter_toPurge]
  refine List.filter_congr fun r hr => decide_eq_decide.2 ?_
  constructor
  · intro h
    by_cases honline : r.online = true
    · exact Or.inl honline
    · refine Or.inr (h (r.activity, r.key) (mem_toPurge.2 ⟨r, hr, ?_, rfl⟩) rfl)
      exact Bool.eq_false_iff.2 honline
  · intro h p hp hkey
    obtain ⟨r', hr', hoffline, rfl⟩ := mem_toPurge.1 hp
    obtain rfl : r' = r := List.inj_on_of_nodup_map m.nodup hr' hr hkey
    exact h.resolve_left (by simp [hoffline])

/-! ### Which records should be left -/

/-- The limits are kept: online records stay, the offline ones that remain are young enough and not
too many, and one was removed only because it was too old or because there are enough that are at
least as recent. -/
structure KeepsLimits (m m' : InfoHashMap) (bound : ℤ) (maxOld : ℕ) : Prop where
  online : ∀ r ∈ m.records, r.online = true → r ∈ m'.records
  remains : ∀ r ∈ m'.records, r ∈ m.records
  recent : ∀ r ∈ m'.records, r.online = false → bound < r.activity
  few : (m'.records.filter fun r => r.online = false).length ≤ maxOld
  removed : ∀ r ∈ m.records, r.online = false → r ∉ m'.records → r.activity ≤ bound ∨
    maxOld ≤ (m'.records.filter fun r' => r'.online = false ∧ r.activity ≤ r'.activity).length

section Limits

variable {m' : InfoHashMap} (h : m'.records = m.records.filter fun r =>
  r.online = true ∨ (bound < r.activity ∧ maxOld ≤ (m.young bound).length))
include h

/-- The offline records that are left. -/
theorem offline_eq : (m'.records.filter fun r => r.online = false) =
    if maxOld ≤ (m.young bound).length then m.young bound else [] := by
  rw [h, List.filter_filter]
  split_ifs with hmany
  · refine List.filter_congr fun r _ => ?_
    cases r.online <;> simp [hmany]
  · refine List.filter_eq_nil_iff.2 fun r _ => ?_
    cases r.online <;> simp [hmany]

theorem KeepsLimits.length_young (hlim : KeepsLimits m m' bound maxOld) :
    (m.young bound).length = 0 ∨ (m.young bound).length = maxOld := by
  have hoffline := offline_eq h
  by_cases hmany : maxOld ≤ (m.young bound).length
  · have hfew := hlim.few
    rw [hoffline, if_pos hmany] at hfew
    exact Or.inr (hfew.antisymm hmany)
  · left
    rw [if_neg hmany] at hoffline
    by_contra hne
    obtain ⟨r, hr⟩ := List.exists_mem_of_length_pos (Nat.pos_of_ne_zero hne)
    obtain ⟨hmem, hyoung⟩ := List.mem_filter.1 hr
    obtain ⟨hr0, hrecent⟩ := of_decide_eq_true hyoung
    -- a young record has been removed, and none is left that is as recent
    have hgone : r ∉ m'.records := fun hr' =>
      List.filter_eq_nil_iff.1 hoffline r hr' (decide_eq_true hr0)
    rcases hlim.removed r hmem hr0 hgone with hold | henough
    · omega
    · have hnone : (m'.records.filter fun r' => r'.online = false ∧ r.activity ≤ r'.activity) =
          [] := by
        refine List.filter_eq_nil_iff.2 fun r' hr' hp => ?_
        exact List.filter_eq_nil_iff.1 hoffline r' hr' (decide_eq_true (of_decide_eq_true hp).1)
      rw [hnone, List.length_nil] at henough
      omega

theorem keepsLimits_of_length_young
    (hy : (m.young bound).length = 0 ∨ (m.young bound).length = maxOld) :
    KeepsLimits m m' bound maxOld where
  online r hr honline := by
    rw [h]
    exact List.mem_filter.2 ⟨hr, decide_eq_true (Or.inl honline)⟩
  remains r hr := by
    rw [h] at hr
    exact List.mem_of_mem_filter hr
  recent r hr hoffline := by
    rw [h] at hr
    exact ((of_decide_eq_true (List.mem_filter.1 hr).2).resolve_left (by simp [hoffline])).1
  few := by
    rw [offline_eq h]
    split_ifs
    · omega
    · exact Nat.zero_le maxOld
  removed r hr hoffline hgone := by
    left
    by_contra hrecent
    have hyoung : r ∈ m.young bound :=
      List.mem_filter.2 ⟨hr, decide_eq_true ⟨hoffline, not_le.1 hrecent⟩⟩
    have hpos := List.length_pos_of_mem hyoung
    refine hgone ?_
    rw [h]
    exact List.mem_filter.2 ⟨hr, decide_eq_true (Or.inr ⟨not_le.1 hrecent, by omega⟩)⟩

end Limits

/-- **When the limits are kept**: if no offline record is young enough, or exactly as many as may
remain. -/
theorem purge_keeps_limits_iff (m : InfoHashMap) (now : ℤ) (maxOld : ℕ) (maxAge : ℤ) :
    KeepsLimits m (m.purgeOldMetaRecords now maxOld maxAge) (now - maxAge) maxOld ↔
      (m.young (now - maxAge)).length = 0 ∨ (m.young (now - maxAge)).length = maxOld := by
  have h := records_purgeOldMetaRecords m now maxOld maxAge
  exact ⟨fun hlim => hlim.length_young h, fun hy => keepsLimits_of_length_young h hy⟩

/-- One offline record from a second ago, where a hundred may remain, is removed. -/
theorem purge_removes_young :
    ¬ ∀ (m : InfoHashMap) (now : ℤ) (maxOld : ℕ) (maxAge : ℤ), 1 ≤ maxOld → 0 ≤ maxAge →
      KeepsLimits m (m.purgeOldMetaRecords now maxOld maxAge) (now - maxAge) maxOld := by
  intro h
  have hlim := h ⟨[⟨1, false, 99999⟩], by decide⟩ 100000 100 90000 (by decide) (by decide)
  have hempty : (purgeOldMetaRecords ⟨[⟨1, false, 99999⟩], by decide⟩ 100000 100
      90000).records = [] := by
    simp [purgeOldMetaRecords, toPurge, purgeLoop, erase]
  rcases hlim.removed ⟨1, false, 99999⟩ (by decide) rfl (by rw [hempty]; decide) with hold | henough
  · exact absurd hold (by decide)
  · rw [hempty] at henough
    exact absurd henough (by decide)

end InfoHashMap

end Istatd
