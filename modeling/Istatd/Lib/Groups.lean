import Mathlib.Tactic

/-!
# A list cut into groups by an index

The index of the members of a list does not fall along it, so that those of one index are next to
each other.  The list is cut into groups of one index each.

* `Groups.concat_same`, `Groups.concat_new`: one more member, in the last group or in a new one;
* `Groups.exists_last`: the last member is in the last group;
* `Groups.mem_iff`: the groups are the parts of the list that have an index in common.
-/

variable {ι α : Type*} [LinearOrder ι] {idx : α → ι} {l : List α} {gs : List (ι × List α)}
  {k : ι} {g : List α} {a : α}

/-- The list is cut into the groups `gs`, which come with their indices. -/
structure Groups (idx : α → ι) (l : List α) (gs : List (ι × List α)) : Prop where
  flatten : (gs.map Prod.snd).flatten = l
  nonempty : ∀ p ∈ gs, p.2 ≠ []
  index : ∀ p ∈ gs, ∀ a ∈ p.2, idx a = p.1
  ascending : gs.Pairwise fun p q => p.1 < q.1

namespace Groups

theorem nil : Groups idx [] [] := ⟨rfl, nofun, nofun, .nil⟩

theorem concat_new (h : Groups idx l gs) (ha : ∀ p ∈ gs, p.1 < idx a) :
    Groups idx (l ++ [a]) (gs ++ [(idx a, [a])]) where
  flatten := by simp [h.flatten]
  nonempty := List.forall_mem_append.2 ⟨h.nonempty, by simp⟩
  index := List.forall_mem_append.2 ⟨h.index, by simp⟩
  ascending := List.pairwise_append.2 ⟨h.ascending, List.pairwise_singleton _ _, fun p hp q hq => by
    obtain rfl := List.mem_singleton.1 hq
    exact ha p hp⟩

theorem concat_same (h : Groups idx l (gs ++ [(k, g)])) (ha : idx a = k) :
    Groups idx (l ++ [a]) (gs ++ [(k, g ++ [a])]) where
  flatten := by
    have hl := h.flatten
    rw [List.map_append, List.flatten_append] at hl ⊢
    rw [← hl]
    simp
  nonempty := by
    refine List.forall_mem_append.2 ⟨(List.forall_mem_append.1 h.nonempty).1, ?_⟩
    simp
  index := by
    obtain ⟨hgs, hg⟩ := List.forall_mem_append.1 h.index
    refine List.forall_mem_append.2 ⟨hgs, List.forall_mem_singleton.2 ?_⟩
    exact List.forall_mem_append.2 ⟨List.forall_mem_singleton.1 hg, List.forall_mem_singleton.2 ha⟩
  ascending := by
    obtain ⟨hgs, -, hlast⟩ := List.pairwise_append.1 h.ascending
    refine List.pairwise_append.2 ⟨hgs, List.pairwise_singleton _ _, fun p hp q hq => ?_⟩
    obtain rfl := List.mem_singleton.1 hq
    exact hlast p hp (k, g) List.mem_cons_self

/-- A group has all members of its index. -/
theorem filter_eq (h : Groups idx l gs) (hg : (k, g) ∈ gs) : l.filter (idx · = k) = g := by
  obtain ⟨xs, ys, rfl⟩ := List.append_of_mem hg
  obtain ⟨-, hys, hxs⟩ := List.pairwise_append.1 h.ascending
  -- the groups before and behind have other indices
  have hother : ∀ {zs : List (ι × List α)}, (∀ p ∈ zs, ∀ a ∈ p.2, idx a = p.1) →
      (∀ p ∈ zs, p.1 ≠ k) → (zs.map Prod.snd).flatten.filter (idx · = k) = [] := by
    intro zs hidx hne
    rw [List.filter_eq_nil_iff]
    intro a ha hk
    obtain ⟨m, hm, ham⟩ := List.mem_flatten.1 ha
    obtain ⟨p, hp, rfl⟩ := List.mem_map.1 hm
    exact hne p hp (by rw [← hidx p hp a ham]; exact of_decide_eq_true hk)
  obtain ⟨hixs, hirest⟩ := List.forall_mem_append.1 h.index
  obtain ⟨hig, hiys⟩ := List.forall_mem_cons.1 hirest
  rw [← h.flatten, List.map_append, List.flatten_append, List.map_cons, List.flatten_cons,
    List.filter_append, List.filter_append,
    hother hixs fun p hp => (hxs p hp _ List.mem_cons_self).ne,
    hother hiys fun p hp => ((List.pairwise_cons.1 hys).1 p hp).ne',
    List.nil_append, List.append_nil, List.filter_eq_self]
  exact fun a ha => decide_eq_true (hig a ha)

theorem mem_iff (h : Groups idx l gs) :
    (k, g) ∈ gs ↔ g ≠ [] ∧ l.filter (idx · = k) = g := by
  constructor
  · intro hg
    exact ⟨h.nonempty _ hg, h.filter_eq hg⟩
  · rintro ⟨hne, rfl⟩
    obtain ⟨a, ha⟩ := List.exists_mem_of_ne_nil _ hne
    obtain ⟨hal, hk⟩ := List.mem_filter.1 ha
    rw [← h.flatten] at hal
    obtain ⟨m, hm, ham⟩ := List.mem_flatten.1 hal
    obtain ⟨p, hp, rfl⟩ := List.mem_map.1 hm
    obtain rfl : p.1 = k := (h.index p hp a ham).symm.trans (of_decide_eq_true hk)
    rw [h.filter_eq hp]
    exact hp

theorem index_le_last (h : Groups idx l (gs ++ [(k, g)])) {p : ι × List α}
    (hp : p ∈ gs ++ [(k, g)]) : p.1 ≤ k := by
  rcases List.mem_append.1 hp with hp | hp
  · exact ((List.pairwise_append.1 h.ascending).2.2 p hp _ List.mem_cons_self).le
  · exact (congrArg Prod.fst (List.mem_singleton.1 hp)).le

/-- The index is largest in the last group. -/
theorem le_last (h : Groups idx l (gs ++ [(k, g)])) (ha : a ∈ l) : idx a ≤ k := by
  rw [← h.flatten] at ha
  obtain ⟨m, hm, ham⟩ := List.mem_flatten.1 ha
  obtain ⟨p, hp, rfl⟩ := List.mem_map.1 hm
  rw [h.index p hp a ham]
  exact h.index_le_last hp

/-- The last member is in the last group. -/
theorem exists_last (h : Groups idx l (gs ++ [(k, g)])) : ∃ a ∈ l.getLast?, idx a = k := by
  have hmem : (k, g) ∈ gs ++ [(k, g)] := by simp
  have hne : g ≠ [] := h.nonempty _ hmem
  have hl : (gs.map Prod.snd).flatten ++ g = l := by simpa using h.flatten
  refine ⟨g.getLast hne, ?_, h.index _ hmem _ (List.getLast_mem hne)⟩
  rw [← hl, List.getLast?_append_of_ne_nil _ hne, List.getLast?_eq_getLast_of_ne_nil hne]
  exact Option.mem_some_self _

end Groups
