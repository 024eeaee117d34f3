import Mathlib.Tactic

/-!
# Handles from a pool that may refuse

A pool gives out handles, one new one for each request it grants.  Which requests it grants is up to
the environment: `grants n` is its answer to request number `n`.  A handle is good until it is
released.  Using or releasing a handle that is not good is not an error the holder can see; the pool
records it in `misused`.

* `acquire`, `release`, `use`: the operations;
* `granted g n`: how many of the first `n` requests are granted.
-/

namespace Handles

/-- A pool: its answers, the requests made so far, the good handles and the misused ones. -/
structure Pool where
  grants : ℕ → Bool
  asked : ℕ
  live : Finset ℕ
  misused : List ℕ
  lt_asked : ∀ h ∈ live, h < asked

namespace Pool

/-- A pool of which nothing was asked yet. -/
def start (grants : ℕ → Bool) : Pool where
  grants := grants
  asked := 0
  live := ∅
  misused := []
  lt_asked h hh := by simp at hh

/-- A request: the number of a granted request is its handle. -/
def acquire (p : Pool) : Option ℕ × Pool :=
  if p.grants p.asked then
    (some p.asked, { p with
      asked := p.asked + 1
      live := insert p.asked p.live
      lt_asked := fun h hh => by
        rcases Finset.mem_insert.1 hh with rfl | hh
        · omega
        · exact Nat.lt_succ_of_lt (p.lt_asked h hh) })
  else
    (none, { p with
      asked := p.asked + 1
      lt_asked := fun h hh => Nat.lt_succ_of_lt (p.lt_asked h hh) })

/-- A handle given back. -/
def release (p : Pool) (h : ℕ) : Pool :=
  if h ∈ p.live then
    { p with
      live := p.live.erase h
      lt_asked := fun k hk => p.lt_asked k (Finset.mem_of_mem_erase hk) }
  else { p with misused := h :: p.misused }

/-- A handle used. -/
def use (p : Pool) (h : ℕ) : Pool :=
  if h ∈ p.live then p else { p with misused := h :: p.misused }

variable {p : Pool} {h : ℕ}

@[simp] theorem use_grants : (p.use h).grants = p.grants := by unfold use; split_ifs <;> rfl
@[simp] theorem use_asked : (p.use h).asked = p.asked := by unfold use; split_ifs <;> rfl
@[simp] theorem use_live : (p.use h).live = p.live := by unfold use; split_ifs <;> rfl

/-- Misuse is recorded and stays recorded. -/
theorem use_misused_eq_nil_iff : (p.use h).misused = [] ↔ p.misused = [] ∧ h ∈ p.live := by
  unfold use
  split_ifs with hl <;> simp [hl]

@[simp] theorem release_grants : (p.release h).grants = p.grants := by
  unfold release; split_ifs <;> rfl
@[simp] theorem release_asked : (p.release h).asked = p.asked := by
  unfold release; split_ifs <;> rfl

theorem release_live : (p.release h).live = p.live.erase h := by
  unfold release
  split_ifs with hl
  · rfl
  · exact (Finset.erase_eq_of_notMem hl).symm

theorem release_misused_eq_nil_iff : (p.release h).misused = [] ↔ p.misused = [] ∧ h ∈ p.live := by
  unfold release
  split_ifs with hl <;> simp [hl]

/-- The two outcomes of a request. -/
theorem acquire_cases (p : Pool) :
    (p.grants p.asked = true ∧ p.acquire.1 = some p.asked ∧
        p.acquire.2.live = insert p.asked p.live) ∨
      (p.grants p.asked = false ∧ p.acquire.1 = none ∧ p.acquire.2.live = p.live) := by
  unfold acquire
  cases hg : p.grants p.asked
  · exact Or.inr ⟨rfl, by simp, by simp⟩
  · exact Or.inl ⟨rfl, by simp, by simp⟩

@[simp] theorem acquire_grants : p.acquire.2.grants = p.grants := by
  unfold acquire; split_ifs <;> rfl
@[simp] theorem acquire_asked : p.acquire.2.asked = p.asked + 1 := by
  unfold acquire; split_ifs <;> rfl
@[simp] theorem acquire_misused : p.acquire.2.misused = p.misused := by
  unfold acquire; split_ifs <;> rfl

end Pool

/-- How many of the first `n` requests are granted. -/
def granted (g : ℕ → Bool) (n : ℕ) : ℕ := (List.range n).countP g

theorem granted_succ (g : ℕ → Bool) (n : ℕ) :
    granted g (n + 1) = granted g n + if g n then 1 else 0 := by
  simp [granted, List.range_succ, List.countP_append, List.countP_singleton]

end Handles
