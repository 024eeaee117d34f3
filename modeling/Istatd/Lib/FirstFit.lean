import Mathlib.Tactic
import Mathlib.Data.Finset.Lattice.Fold

/-!
# Placing pairs in the first group without their key

Pairs of a key and a value are put into groups, one after the other: each goes to the first group
that lacks its key, or to a new one at the end.  Then the keys of a group are also keys of every
group before it, so that a key stands in as many groups as there are pairs with it, and the first
of these.

* `place_perm`: no pair is lost or changed;
* `Stair.place`: the keys of a group are distinct, and are keys of the groups before it;
* `Stair.length_eq`: there are as many groups as pairs with the commonest key.
-/

namespace FirstFit

variable {κ ν : Type*} {p : κ × ν} {g : List (κ × ν)} {gs : List (List (κ × ν))}

/-- The keys of a list of pairs. -/
def keys (l : List (κ × ν)) : List κ := l.map Prod.fst

/-- The keys of a group are distinct, and are keys of the groups before it; no group is empty. -/
structure Stair (gs : List (List (κ × ν))) : Prop where
  ne_nil : ∀ g ∈ gs, g ≠ []
  nodup : ∀ g ∈ gs, (keys g).Nodup
  desc : gs.Pairwise fun g h => ∀ k ∈ keys h, k ∈ keys g

theorem Stair.nil : Stair ([] : List (List (κ × ν))) := ⟨nofun, nofun, .nil⟩

theorem Stair.of_cons (h : Stair (g :: gs)) : Stair gs :=
  ⟨fun x hx => h.ne_nil x (.tail _ hx), fun x hx => h.nodup x (.tail _ hx), h.desc.of_cons⟩

theorem mem_keys_append_singleton {k : κ} : k ∈ keys (g ++ [p]) ↔ k ∈ keys g ∨ k = p.1 := by
  simp [keys]

/-- A key of the last group is one of all. -/
theorem Stair.exists_common (h : Stair gs) (hne : gs ≠ []) : ∃ k, ∀ g ∈ gs, k ∈ keys g := by
  obtain ⟨init, last, rfl⟩ := (List.eq_nil_or_concat' gs).resolve_left hne
  obtain ⟨-, -, hdesc⟩ := List.pairwise_append.1 h.desc
  obtain ⟨p, last, rfl⟩ := List.exists_cons_of_ne_nil (h.ne_nil last (by simp))
  refine ⟨p.1, fun g hg => ?_⟩
  rcases List.mem_append.1 hg with hg | hg
  · exact hdesc g hg _ (List.mem_singleton_self _) p.1 List.mem_cons_self
  · rw [List.mem_singleton.1 hg]
    exact List.mem_cons_self

/-! ### Placing -/

variable [DecidableEq κ]

/-- A pair goes to the first group without its key, or to a new one. -/
def place (p : κ × ν) : List (List (κ × ν)) → List (List (κ × ν))
  | [] => [[p]]
  | g :: rest => if p.1 ∈ keys g then g :: place p rest else (g ++ [p]) :: rest

theorem place_perm (p : κ × ν) (gs : List (List (κ × ν))) :
    (place p gs).flatten.Perm (p :: gs.flatten) := by
  induction gs with
  | nil => rfl
  | cons g gs ih =>
    unfold place
    split_ifs
    · rw [List.flatten_cons, List.flatten_cons]
      exact (ih.append_left g).trans List.perm_middle
    · rw [List.flatten_cons, List.flatten_cons, List.append_assoc]
      exact List.perm_middle

theorem place_all_perm (ps : List (κ × ν)) (gs : List (List (κ × ν))) :
    (ps.foldl (fun gs p => place p gs) gs).flatten.Perm (gs.flatten ++ ps) := by
  induction ps generalizing gs with
  | nil => rw [List.append_nil]; rfl
  | cons p ps ih =>
    refine (ih (place p gs)).trans (((place_perm p gs).append_right ps).trans ?_)
    exact List.perm_middle.symm

/-- The groups after a step: the keys of each are those of a group before it, or the new key. -/
theorem mem_keys_of_mem_place {x : List (κ × ν)} (hx : x ∈ place p gs) {k : κ} (hk : k ∈ keys x) :
    k = p.1 ∨ ∃ g ∈ gs, k ∈ keys g := by
  induction gs with
  | nil =>
    rw [place, List.mem_singleton] at hx
    subst hx
    exact Or.inl (List.mem_singleton.1 hk)
  | cons g gs ih =>
    unfold place at hx
    split_ifs at hx
    · rcases List.mem_cons.1 hx with rfl | hx
      · exact Or.inr ⟨x, List.mem_cons_self, hk⟩
      · obtain h | ⟨y, hy, h⟩ := ih hx
        · exact Or.inl h
        · exact Or.inr ⟨y, List.mem_cons_of_mem _ hy, h⟩
    · rcases List.mem_cons.1 hx with rfl | hx
      · rcases mem_keys_append_singleton.1 hk with hk | hk
        · exact Or.inr ⟨g, List.mem_cons_self, hk⟩
        · exact Or.inl hk
      · exact Or.inr ⟨x, List.mem_cons_of_mem _ hx, hk⟩

/-- **One step.** -/
theorem Stair.place (h : Stair gs) (p : κ × ν) : Stair (place p gs) := by
  induction gs with
  | nil =>
    refine ⟨?_, ?_, List.pairwise_singleton _ _⟩
    · simp [FirstFit.place]
    · simp [FirstFit.place, keys]
  | cons g gs ih =>
    obtain ⟨hdesc, -⟩ := List.pairwise_cons.1 h.desc
    have hne := h.ne_nil g List.mem_cons_self
    have hnodup := h.nodup g List.mem_cons_self
    unfold FirstFit.place
    split_ifs with hp
    · obtain ⟨ihne, ihnodup, ihdesc⟩ := ih h.of_cons
      refine ⟨List.forall_mem_cons.2 ⟨hne, ihne⟩, List.forall_mem_cons.2 ⟨hnodup, ihnodup⟩,
        List.pairwise_cons.2 ⟨fun x hx k hk => ?_, ihdesc⟩⟩
      obtain rfl | ⟨y, hy, hky⟩ := mem_keys_of_mem_place hx hk
      · exact hp
      · exact hdesc y hy k hky
    · obtain ⟨hne', hnodup', hdesc'⟩ := h.of_cons
      refine ⟨List.forall_mem_cons.2 ⟨by simp, hne'⟩, List.forall_mem_cons.2 ⟨?_, hnodup'⟩,
        List.pairwise_cons.2 ⟨fun x hx k hk => ?_, hdesc'⟩⟩
      · have hkeys : keys (g ++ [p]) = (keys g).concat p.1 := by simp [keys]
        rw [hkeys]
        exact hnodup.concat hp
      · exact mem_keys_append_singleton.2 (Or.inl (hdesc x hx k hk))

theorem Stair.place_all (h : Stair gs) (ps : List (κ × ν)) :
    Stair (ps.foldl (fun gs p => FirstFit.place p gs) gs) := by
  induction ps generalizing gs with
  | nil => exact h
  | cons p ps ih => exact ih (h.place p)

/-! ### The number of groups -/

/-- How often the commonest element stands in a list. -/
def commonest (l : List κ) : ℕ := l.toFinset.sup l.count

theorem commonest_perm {l l' : List κ} (h : l.Perm l') : commonest l = commonest l' := by
  unfold commonest
  rw [List.toFinset_eq_of_perm _ _ h, funext h.count_eq]

theorem count_flatten_le (h : ∀ g ∈ gs, (keys g).Nodup) (k : κ) :
    (keys gs.flatten).count k ≤ gs.length := by
  induction gs with
  | nil => simp [keys]
  | cons g gs ih =>
    obtain ⟨hg, hgs⟩ := List.forall_mem_cons.1 h
    have hle := List.nodup_iff_count_le_one.1 hg k
    have := ih hgs
    rw [List.flatten_cons, keys, List.map_append, List.count_append, List.length_cons]
    change (keys g).count k + (keys gs.flatten).count k ≤ _
    omega

theorem le_count_flatten {k : κ} (h : ∀ g ∈ gs, k ∈ keys g) :
    gs.length ≤ (keys gs.flatten).count k := by
  induction gs with
  | nil => simp
  | cons g gs ih =>
    obtain ⟨hg, hgs⟩ := List.forall_mem_cons.1 h
    have hpos := List.count_pos_iff.2 hg
    have := ih hgs
    rw [List.flatten_cons, keys, List.map_append, List.count_append, List.length_cons]
    change _ ≤ (keys g).count k + (keys gs.flatten).count k
    omega

/-- **The number of groups**: how often the commonest key stands in them. -/
theorem Stair.length_eq (h : Stair gs) : gs.length = commonest (keys gs.flatten) := by
  refine le_antisymm ?_ (Finset.sup_le fun k _ => count_flatten_le h.nodup k)
  by_cases hne : gs = []
  · simp [hne]
  · obtain ⟨k, hk⟩ := h.exists_common hne
    have hle := le_count_flatten hk
    have hmem : k ∈ (keys gs.flatten).toFinset := by
      rw [List.mem_toFinset, ← List.count_pos_iff]
      exact lt_of_lt_of_le (List.length_pos_of_ne_nil hne) hle
    exact hle.trans (Finset.le_sup (f := (keys gs.flatten).count) hmem)

end FirstFit
