import Mathlib.Tactic

/-!
# Scans of a set that changes

A cursor goes upwards through a linear order.  At each step there is a set of elements that are
present, which may be another one at each step: the cursor either takes the next element above it,
or goes up without passing over one.

* `Step`: one step, with what it takes;
* `IsScan.eq_of_out`: nothing is taken twice;
* `IsScan.exists_out`: what is present until the cursor is past it is taken;
* `IsScan.eventually_const`: a cursor that is confined to finitely many places stops.
-/

namespace Scan

variable {α : Type*} [LinearOrder α]

/-- A step of a scan from `c` to `c'`, and what it takes. -/
inductive Step (present : Set α) : α → α → Option α → Prop
  | skip {c c' : α} (hle : c ≤ c') (h : ∀ x ∈ present, c < x → c' < x) : Step present c c' none
  | take {c x : α} (hx : x ∈ present) (hlt : c < x) (h : ∀ y ∈ present, c < y → x ≤ y) :
    Step present c x (some x)

variable {s : Set α} {c c' x : α} {o : Option α}

theorem Step.le (h : Step s c c' o) : c ≤ c' := by
  cases h with
  | skip hle _ => exact hle
  | take _ hlt _ => exact hlt.le

theorem Step.of_some (h : Step s c c' (some x)) : x ∈ s ∧ c < x ∧ c' = x := by
  cases h with
  | take hx hlt _ => exact ⟨hx, hlt, rfl⟩

/-- The next element above the cursor is taken. -/
theorem Step.le_of_some (h : Step s c c' (some x)) {y : α} (hy : y ∈ s) (hlt : c < y) : x ≤ y := by
  cases h with
  | take _ _ hmin => exact hmin y hy hlt

/-- An element that the cursor reaches or passes is taken. -/
theorem Step.eq_some (h : Step s c c' o) (hx : x ∈ s) (hlt : c < x) (hle : x ≤ c') :
    o = some x := by
  cases h with
  | skip _ hskip => exact absurd (hskip x hx hlt) (not_lt.2 hle)
  | take _ _ hmin => exact congrArg some (le_antisymm (hmin x hx hlt) hle)

/-- A scan: the elements, the cursor and what is taken, at each step. -/
def IsScan (present : ℕ → Set α) (cursor : ℕ → α) (out : ℕ → Option α) : Prop :=
  ∀ n, Step (present n) (cursor n) (cursor (n + 1)) (out n)

namespace IsScan

variable {present : ℕ → Set α} {cursor : ℕ → α} {out : ℕ → Option α} {m n : ℕ}

protected theorem monotone (h : IsScan present cursor out) : Monotone cursor :=
  monotone_nat_of_le_succ fun n => (h n).le

theorem lt_of_out (h : IsScan present cursor out) (hn : out n = some x) (hmn : m ≤ n) :
    cursor m < x := by
  have hstep := h n
  rw [hn] at hstep
  exact lt_of_le_of_lt (h.monotone hmn) hstep.of_some.2.1

/-- **Nothing is taken twice.** -/
theorem eq_of_out (h : IsScan present cursor out) (hm : out m = some x) (hn : out n = some x) :
    m = n := by
  -- after the first of two steps the cursor is at the element, before the second below it
  have key : ∀ {m n : ℕ}, out m = some x → out n = some x → ¬m < n := by
    intro m n hm hn hlt
    have hstep := h m
    rw [hm] at hstep
    have hbelow := h.lt_of_out hn hlt
    rw [hstep.of_some.2.2] at hbelow
    exact lt_irrefl x hbelow
  rcases lt_trichotomy m n with hlt | heq | hlt
  · exact absurd hlt (key hm hn)
  · exact heq
  · exact absurd hlt (key hn hm)

/-- **Nothing is left out** that is present until the cursor is past it. -/
theorem exists_out (h : IsScan present cursor out) (hx : ∀ m < n, x ∈ present m)
    (h0 : cursor 0 < x) (hn : x ≤ cursor n) : ∃ m < n, out m = some x := by
  induction n with
  | zero => exact absurd h0 (not_lt.2 hn)
  | succ n ih =>
    by_cases hle : x ≤ cursor n
    · obtain ⟨m, hm, hout⟩ := ih (fun m hm => hx m (by omega)) hle
      exact ⟨m, by omega, hout⟩
    · exact ⟨n, by omega, (h n).eq_some (hx n (by omega)) (not_le.1 hle) hn⟩

/-- **A confined cursor stops.** -/
theorem eventually_const (h : IsScan present cursor out) {places : Set α} (hfin : places.Finite)
    {N : ℕ} (hN : ∀ n, N ≤ n → cursor n ∈ places) :
    ∃ M, ∀ n, M ≤ n → cursor n = cursor M := by
  have hfin' : (cursor '' Set.Ici N).Finite := by
    refine hfin.subset ?_
    rintro _ ⟨n, hn, rfl⟩
    exact hN n hn
  obtain ⟨_, ⟨M, hM, rfl⟩, hmax⟩ := hfin'.exists_maximal ⟨cursor N, N, Set.self_mem_Ici, rfl⟩
  refine ⟨M, fun n hn => ?_⟩
  exact le_antisymm (hmax ⟨n, le_trans hM hn, rfl⟩ (h.monotone hn)) (h.monotone hn)

end IsScan

end Scan
