import Mathlib.Tactic

/-!
# Dealing batches round-robin

Batches are dealt to hands, one after the other: the first to hand `i`, the next to the hand after
it, and behind the last hand comes the first again.

* `deal`, `length_deal`;
* `flatten_deal_perm`: nothing is lost, and nothing is dealt twice;
* `exists_hand`: all of a batch is in one hand.
-/

namespace Deal

variable {α κ : Type*}

/-- The hands after some batches, from hand `i` on. -/
def deal : List (List α) → ℕ → List (List α) → List (List α)
  | hands, _, [] => hands
  | hands, i, batch :: batches =>
    deal (hands.modify i (· ++ batch)) ((i + 1) % hands.length) batches

variable {hands : List (List α)} {i : ℕ}

@[simp] theorem length_deal (batches : List (List α)) :
    (deal hands i batches).length = hands.length := by
  induction batches generalizing hands i with
  | nil => rfl
  | cons batch batches ih => rw [deal, ih, List.length_modify]

theorem flatten_modify_perm (hi : i < hands.length) (batch : List α) :
    (hands.modify i (· ++ batch)).flatten.Perm (hands.flatten ++ batch) := by
  induction hands generalizing i with
  | nil => simp at hi
  | cons hand hands ih =>
    cases i with
    | zero =>
      rw [List.modify_zero_cons, List.flatten_cons, List.flatten_cons, List.append_assoc,
        List.append_assoc]
      exact List.Perm.append_left hand List.perm_append_comm
    | succ i =>
      have hi' : i < hands.length := by simpa using hi
      rw [List.modify_succ_cons, List.flatten_cons, List.flatten_cons, List.append_assoc]
      exact List.Perm.append_left hand (ih hi')

/-- **Nothing is lost, and nothing is dealt twice.** -/
theorem flatten_deal_perm (hi : i < hands.length) (batches : List (List α)) :
    (deal hands i batches).flatten.Perm (hands.flatten ++ batches.flatten) := by
  induction batches generalizing hands i with
  | nil => simp [deal]
  | cons batch batches ih =>
    have hnext : (i + 1) % hands.length < (hands.modify i (· ++ batch)).length := by
      rw [List.length_modify]
      exact Nat.mod_lt _ (by omega)
    rw [deal, List.flatten_cons, ← List.append_assoc]
    exact (ih hnext).trans ((flatten_modify_perm hi batch).append_right _)

section Label

variable [DecidableEq κ] {label : α → κ} {f : κ → List α}

/-- What is dealt under other labels. -/
theorem filter_deal_of_not_mem (hf : ∀ k, ∀ a ∈ f k, label a = k) {k : κ} {ks : List κ}
    (hk : k ∉ ks) :
    (deal hands i (ks.map f)).map (List.filter fun a => label a = k) =
      hands.map (List.filter fun a => label a = k) := by
  induction ks generalizing hands i with
  | nil => rfl
  | cons k' ks ih =>
    obtain ⟨hne, hks⟩ : k ≠ k' ∧ k ∉ ks := by simpa using hk
    have hbatch : (f k').filter (fun a => label a = k) = [] := by
      rw [List.filter_eq_nil_iff]
      intro a ha
      simpa [hf k' a ha] using Ne.symm hne
    rw [List.map_cons, deal, ih hks]
    refine List.ext_getElem? fun j => ?_
    rw [List.getElem?_map, List.getElem?_map, List.getElem?_modify]
    by_cases hij : i = j
    · cases hands[j]? with
      | none => simp
      | some hand => simp [hij, hbatch]
    · simp [hij]

/-- **All of a batch is in one hand**, and nothing else of its label anywhere. -/
theorem exists_hand (hf : ∀ k, ∀ a ∈ f k, label a = k) (hi : i < hands.length) {k : κ}
    {ks : List κ} (hnodup : ks.Nodup) (hk : k ∈ ks)
    (hhands : ∀ hand ∈ hands, hand.filter (fun a => label a = k) = []) :
    ∃ j < hands.length, (deal hands i (ks.map f)).map (List.filter fun a => label a = k) =
      (List.replicate hands.length []).set j (f k) := by
  induction ks generalizing hands i with
  | nil => cases hk
  | cons k' ks ih =>
    obtain ⟨hk', hnodup⟩ := List.nodup_cons.1 hnodup
    have hself : (f k).filter (fun a => label a = k) = f k := by
      rw [List.filter_eq_self]
      intro a ha
      simpa using hf k a ha
    rw [List.map_cons, deal]
    rcases List.mem_cons.1 hk with rfl | hk
    · refine ⟨i, hi, ?_⟩
      rw [filter_deal_of_not_mem hf hk']
      refine List.ext_getElem? fun j => ?_
      rw [List.getElem?_map, List.getElem?_modify, List.getElem?_set]
      by_cases hj : j < hands.length
      · have hnil := hhands hands[j] (List.getElem_mem hj)
        by_cases hij : i = j
        · simp [hij, hj, hnil, hself]
        · simp [hij, hj, hnil]
      · by_cases hij : i = j
        · omega
        · simp [hij, hj]
    · have hne : k' ≠ k := fun e => hk' (e ▸ hk)
      have hbatch : (f k').filter (fun a => label a = k) = [] := by
        rw [List.filter_eq_nil_iff]
        intro a ha
        simpa [hf k' a ha] using hne
      have hlen : (hands.modify i (· ++ f k')).length = hands.length := List.length_modify ..
      have hnext : (i + 1) % hands.length < (hands.modify i (· ++ f k')).length := by
        rw [hlen]
        exact Nat.mod_lt _ (by omega)
      have hhands' : ∀ hand ∈ hands.modify i (· ++ f k'),
          hand.filter (fun a => label a = k) = [] := by
        intro hand hhand
        obtain ⟨j, hj, rfl⟩ := List.getElem_of_mem hhand
        rw [hlen] at hj
        have hnil := hhands hands[j] (List.getElem_mem hj)
        rw [List.getElem_modify]
        split_ifs
        · rw [List.filter_append, hnil, hbatch, List.append_nil]
        · exact hnil
      obtain ⟨j, hj, heq⟩ := ih hnext hnodup hk hhands'
      rw [hlen] at hj heq
      exact ⟨j, hj, heq⟩

end Label

end Deal
