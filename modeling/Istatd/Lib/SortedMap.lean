import Mathlib.Tactic

/-!
# Maps as sorted lists

A map whose keys are ordered is the list of its entries in that order.  The order is given by a
function `rank` into a linear order.

* `insert`, `erase`;
* `sorted_insert`, `sorted_erase`: the list stays sorted, so no key stands in it twice;
* `lookup_insert`, `lookup_erase`, `lookup_update`, `lookup_filter`: what stands for a key;
* `foldl_insert`: the entries of a sorted list, inserted one after the other, give it back.
-/

namespace SortedMap

variable {κ ν ρ : Type*} [DecidableEq κ] [LinearOrder ρ]

/-- The list is sorted by its keys. -/
def Sorted (rank : κ → ρ) (l : List (κ × ν)) : Prop := l.Pairwise fun p q => rank p.1 < rank q.1

/-- An entry is added, or replaced. -/
def insert (rank : κ → ρ) (k : κ) (v : ν) : List (κ × ν) → List (κ × ν)
  | [] => [(k, v)]
  | p :: rest =>
    if p.1 = k then (k, v) :: rest
    else if rank k < rank p.1 then (k, v) :: p :: rest
    else p :: insert rank k v rest

/-- The entry of a key is removed. -/
def erase (k : κ) (l : List (κ × ν)) : List (κ × ν) := l.filter (·.1 ≠ k)

variable {rank : κ → ρ} {k : κ} {v : ν} {l : List (κ × ν)}

theorem mem_of_mem_insert {p : κ × ν} (h : p ∈ insert rank k v l) : p = (k, v) ∨ p ∈ l := by
  induction l with
  | nil => exact .inl (List.mem_singleton.1 h)
  | cons q l ih =>
    rw [insert] at h
    split_ifs at h with hk hlt
    · rcases List.mem_cons.1 h with h | h
      · exact .inl h
      · exact .inr (List.mem_cons_of_mem q h)
    · exact (List.mem_cons.1 h).imp_right id
    · rcases List.mem_cons.1 h with rfl | h
      · exact .inr List.mem_cons_self
      · exact (ih h).imp_right (List.mem_cons_of_mem q)

/-- The entries after a key that is new is added. -/
theorem insert_perm (h : k ∉ l.map Prod.fst) : (insert rank k v l).Perm ((k, v) :: l) := by
  induction l with
  | nil => rfl
  | cons q l ih =>
    obtain ⟨hq, hl⟩ := not_or.1 (mt List.mem_cons.2 h)
    rw [insert, if_neg (Ne.symm hq)]
    split_ifs
    · rfl
    · exact ((ih hl).cons q).trans (List.Perm.swap _ _ _)

/-- Several entries with new keys are added. -/
theorem foldl_insert_perm {es : List (κ × ν)} (hnodup : (es.map Prod.fst).Nodup)
    (hnew : ∀ p ∈ es, p.1 ∉ l.map Prod.fst) :
    (es.foldl (fun m p => insert rank p.1 p.2 m) l).Perm (l ++ es) := by
  induction es generalizing l with
  | nil => rw [List.append_nil]; rfl
  | cons p es ih =>
    obtain ⟨hp, hnodup⟩ := List.nodup_cons.1 hnodup
    obtain ⟨hpl, hnew⟩ := List.forall_mem_cons.1 hnew
    have hperm : (insert rank p.1 p.2 l).Perm (p :: l) := insert_perm hpl
    refine (ih hnodup fun q hq hmem => ?_).trans
      ((hperm.append_right es).trans List.perm_middle.symm)
    rcases List.mem_cons.1 ((hperm.map Prod.fst).mem_iff.1 hmem) with heq | hmem
    · exact hp (List.mem_map.2 ⟨q, hq, heq⟩)
    · exact hnew q hq hmem

theorem sorted_insert (hinj : Function.Injective rank) (h : Sorted rank l) :
    Sorted rank (insert rank k v l) := by
  induction l with
  | nil => exact List.pairwise_singleton _ _
  | cons q l ih =>
    obtain ⟨hq, hl⟩ := List.pairwise_cons.1 h
    rw [insert]
    split_ifs with hk hlt
    · subst hk
      exact List.pairwise_cons.2 ⟨hq, hl⟩
    · refine List.pairwise_cons.2 ⟨fun p hp => ?_, h⟩
      rcases List.mem_cons.1 hp with rfl | hp
      · exact hlt
      · exact hlt.trans (hq p hp)
    · refine List.pairwise_cons.2 ⟨fun p hp => ?_, ih hl⟩
      rcases mem_of_mem_insert hp with rfl | hp
      · exact lt_of_le_of_ne (not_lt.1 hlt) fun e => hk (hinj e)
      · exact hq p hp

theorem sorted_erase (h : Sorted rank l) : Sorted rank (erase k l) := List.Pairwise.filter _ h

omit [DecidableEq κ] in
theorem Sorted.nodup (h : Sorted rank l) : (l.map Prod.fst).Nodup := by
  rw [List.Nodup, List.pairwise_map]
  refine List.Pairwise.imp (fun hlt heq => ?_) h
  rw [heq] at hlt
  exact lt_irrefl _ hlt

omit [DecidableEq κ] in
/-- The first entry that satisfies a predicate is the least one. -/
theorem le_of_find? {q : κ × ν → Bool} {p a : κ × ν} (h : Sorted rank l)
    (hp : l.find? q = some p) (ha : a ∈ l) (hqa : q a = true) : rank p.1 ≤ rank a.1 := by
  obtain ⟨-, as, bs, rfl, has⟩ := List.find?_eq_some_iff_append.1 hp
  rcases List.mem_append.1 ha with ha | ha
  · exact absurd (has a ha) (by simp [hqa])
  · rcases List.mem_cons.1 ha with rfl | ha
    · exact le_rfl
    · exact ((List.pairwise_cons.1 (List.pairwise_append.1 h).2.1).1 a ha).le

theorem insert_of_lt (h : ∀ p ∈ l, rank p.1 < rank k) : insert rank k v l = l ++ [(k, v)] := by
  induction l with
  | nil => rfl
  | cons q l ih =>
    obtain ⟨hq, hl⟩ := List.forall_mem_cons.1 h
    have hne : q.1 ≠ k := fun e => lt_irrefl (rank k) (e ▸ hq)
    rw [insert, if_neg hne, if_neg (not_lt.2 hq.le), ih hl, List.cons_append]

/-- **Rebuilding a sorted list.** -/
theorem foldl_insert (h : Sorted rank l) :
    l.foldl (fun m p => insert rank p.1 p.2 m) [] = l := by
  -- what was inserted so far stands in front of what is to come
  suffices ∀ before, Sorted rank (before ++ l) →
      l.foldl (fun m p => insert rank p.1 p.2 m) before = before ++ l from this [] h
  clear h
  induction l with
  | nil => simp
  | cons q l ih =>
    intro before hsorted
    have hlt : ∀ p ∈ before, rank p.1 < rank q.1 := fun p hp =>
      (List.pairwise_append.1 hsorted).2.2 p hp q List.mem_cons_self
    rw [List.foldl_cons, insert_of_lt hlt, ih _ (by simpa using hsorted)]
    simp

/-- The entries of a map that is built by insertions. -/
theorem mem_of_mem_foldl_insert {es : List (κ × ν)} {p : κ × ν}
    (h : p ∈ es.foldl (fun m p => insert rank p.1 p.2 m) l) : p ∈ l ∨ p ∈ es := by
  induction es generalizing l with
  | nil => exact .inl h
  | cons q es ih =>
    rcases ih h with h | h
    · rcases mem_of_mem_insert h with rfl | h
      · exact .inr List.mem_cons_self
      · exact .inl h
    · exact .inr (List.mem_cons_of_mem q h)

/-! ### What stands for a key -/

section Lookup

variable [BEq κ] [LawfulBEq κ] {q : κ}

omit [LinearOrder ρ] in
theorem lookup_cons_eq (p : κ × ν) :
    (p :: l).lookup q = if q = p.1 then some p.2 else l.lookup q := by
  by_cases hq : q = p.1
  · rw [if_pos hq, hq]
    exact List.lookup_cons_self
  · obtain ⟨k, v⟩ := p
    have hne : (q == k) = false := beq_eq_false_iff_ne.2 hq
    simp [List.lookup_cons, hne, hq]

theorem lookup_insert : (insert rank k v l).lookup q = if q = k then some v else l.lookup q := by
  induction l with
  | nil => exact lookup_cons_eq (k, v)
  | cons p l ih =>
    rw [insert]
    split_ifs with hk hlt hq hq hq
    · simp [lookup_cons_eq, hlt]
    · rw [lookup_cons_eq, lookup_cons_eq, if_neg hlt, if_neg (hk ▸ hlt)]
    · simp [lookup_cons_eq, hq]
    · simp [lookup_cons_eq, hq]
    · have hne : q ≠ p.1 := fun e => hk (e.symm.trans hq)
      rw [lookup_cons_eq, ih, if_neg hne, if_pos hq]
    · rw [lookup_cons_eq, lookup_cons_eq, ih, if_neg hq]

omit [LinearOrder ρ] in
theorem lookup_erase : (erase k l).lookup q = if q = k then none else l.lookup q := by
  induction l with
  | nil => simp [erase]
  | cons p l ih =>
    rw [erase] at ih ⊢
    rw [List.filter_cons, lookup_cons_eq]
    by_cases hk : p.1 = k
    · rw [if_neg (by simpa using hk), ih]
      by_cases hq : q = k
      · rw [if_pos hq, if_pos hq]
      · rw [if_neg hq, if_neg hq, if_neg fun e => hq (e.trans hk)]
    · rw [if_pos (by simpa using hk), lookup_cons_eq, ih]
      by_cases hq : q = p.1
      · rw [if_pos hq, if_pos hq, if_neg fun e => hk (hq.symm.trans e)]
      · rw [if_neg hq, if_neg hq]

omit [DecidableEq κ] in
/-- A key stands in a sorted list only once. -/
theorem Sorted.lookup_tail {p : κ × ν} (h : Sorted rank (p :: l)) : l.lookup p.1 = none := by
  rw [List.lookup_eq_none_iff]
  intro x hx
  have hne : p.1 ≠ x.1 := fun e => lt_irrefl (rank x.1) (e ▸ (List.pairwise_cons.1 h).1 x hx)
  simpa using hne

omit [DecidableEq κ] [LinearOrder ρ] in
theorem lookup_isSome_iff : (l.lookup q).isSome = true ↔ q ∈ l.map Prod.fst := by
  rw [List.lookup_isSome_iff, List.mem_map]
  exact exists_congr fun p => and_congr_right fun _ => beq_iff_eq.trans eq_comm

omit [LinearOrder ρ] in
/-- The value of a key is changed. -/
theorem lookup_update (f : ν → ν) :
    (l.map fun p => if p.1 = k then (p.1, f p.2) else p).lookup q =
      if q = k then (l.lookup k).map f else l.lookup q := by
  induction l with
  | nil => simp
  | cons p l ih =>
    rw [List.map_cons, lookup_cons_eq, ih, lookup_cons_eq p, lookup_cons_eq p]
    by_cases hp : p.1 = k
    · subst hp
      by_cases hq : q = p.1
      · simp [hq]
      · simp [hq]
    · rw [if_neg hp, if_neg (Ne.symm hp)]
      by_cases hq : q = k
      · subst hq
        rw [if_pos rfl, if_pos rfl, if_neg (Ne.symm hp)]
      · rw [if_neg hq, if_neg hq]

omit [LinearOrder ρ] in
/-- Entries are removed by their values, from a list with each key once. -/
theorem lookup_filter (h : (l.map Prod.fst).Nodup) (f : ν → Bool) :
    (l.filter fun p => f p.2).lookup q = (l.lookup q).filter f := by
  induction l with
  | nil => rfl
  | cons p l ih =>
    obtain ⟨hp, hl⟩ := List.nodup_cons.1 h
    have ih := ih hl
    rw [List.filter_cons, lookup_cons_eq]
    by_cases hq : q = p.1
    · subst hq
      have htail : l.lookup p.1 = none :=
        Option.not_isSome_iff_eq_none.1 fun hsome => hp (lookup_isSome_iff.1 hsome)
      rw [if_pos rfl]
      split_ifs with hf
      · rw [lookup_cons_eq, if_pos rfl, Option.filter_some, if_pos hf]
      · rw [ih, htail, Option.filter_some, if_neg hf]
        rfl
    · rw [if_neg hq]
      split_ifs with hf
      · rw [lookup_cons_eq, if_neg hq, ih]
      · exact ih

theorem Sorted.lookup_filter (h : Sorted rank l) (f : ν → Bool) :
    (l.filter fun p => f p.2).lookup q = (l.lookup q).filter f := SortedMap.lookup_filter h.nodup f

end Lookup

end SortedMap
