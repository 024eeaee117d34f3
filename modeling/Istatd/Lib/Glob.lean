import Mathlib.Computability.Language
import Mathlib.Tactic

/-!
# Patterns with wildcards

A pattern is a list of items: a letter, or a wildcard that stands for any word of letters it allows.
Its language is the product of those of its items.

* `mem_wild_wild`: a wildcard in front of one that allows as much;
* `mem_wild_lit_iff`: a wildcard and a letter behind it, at the first place where the letter is found
  or after it (`not_mem_wild_lit` if there is none), which is how a matcher goes through a word;
* `mem_of_cons_mem`: only wildcards stand for a letter that the pattern does not have;
* `literals_mem`, `length_literals_le`: the shortest word of a pattern.
-/

namespace Glob

variable {α : Type*}

/-- An item of a pattern. -/
inductive Item (α : Type*)
  | lit (a : α)
  | wild (allowed : α → Prop)

/-- The words an item stands for. -/
def Item.language : Item α → Language α
  | .lit a => {[a]}
  | .wild allowed => {x | ∀ a ∈ x, allowed a}

/-- The words of a pattern. -/
def language (p : List (Item α)) : Language α := (p.map Item.language).prod

variable {p : List (Item α)} {s t x : List α} {a c : α} {P Q : α → Prop}

theorem mem_nil_iff : s ∈ language ([] : List (Item α)) ↔ s = [] := Language.mem_one s

theorem mem_cons_iff {i : Item α} :
    s ∈ language (i :: p) ↔ ∃ x ∈ i.language, ∃ t ∈ language p, x ++ t = s := Language.mem_mul

theorem mem_lit_iff : s ∈ language (.lit a :: p) ↔ ∃ t ∈ language p, a :: t = s := by
  rw [mem_cons_iff]
  constructor
  · rintro ⟨x, rfl, t, ht, rfl⟩
    exact ⟨t, ht, rfl⟩
  · rintro ⟨t, ht, rfl⟩
    exact ⟨[a], rfl, t, ht, rfl⟩

theorem cons_mem_lit_iff : c :: s ∈ language (.lit a :: p) ↔ a = c ∧ s ∈ language p := by
  rw [mem_lit_iff]
  constructor
  · rintro ⟨t, ht, heq⟩
    obtain ⟨rfl, rfl⟩ := List.cons.inj heq
    exact ⟨rfl, ht⟩
  · rintro ⟨rfl, hs⟩
    exact ⟨s, hs, rfl⟩

theorem nil_not_mem_lit : [] ∉ language (.lit a :: p) := by
  rw [mem_lit_iff]
  rintro ⟨t, -, heq⟩
  cases heq

/-! ### Wildcards -/

theorem mem_wild_iff :
    s ∈ language (.wild P :: p) ↔ ∃ x, (∀ a ∈ x, P a) ∧ ∃ t ∈ language p, x ++ t = s :=
  mem_cons_iff

theorem append_mem_wild (hx : ∀ a ∈ x, P a) (ht : t ∈ language p) :
    x ++ t ∈ language (.wild P :: p) :=
  mem_wild_iff.2 ⟨x, hx, t, ht, rfl⟩

theorem mem_wild (h : s ∈ language p) : s ∈ language (.wild P :: p) :=
  append_mem_wild (x := []) nofun h

/-- A wildcard takes more. -/
theorem append_mem_wild_of_mem (hx : ∀ a ∈ x, P a) (ht : t ∈ language (.wild P :: p)) :
    x ++ t ∈ language (.wild P :: p) := by
  obtain ⟨y, hy, u, hu, rfl⟩ := mem_wild_iff.1 ht
  rw [← List.append_assoc]
  exact append_mem_wild (List.forall_mem_append.2 ⟨hx, hy⟩) hu

theorem mem_wild_singleton_iff : s ∈ language [.wild P] ↔ ∀ a ∈ s, P a := by
  rw [mem_wild_iff]
  constructor
  · rintro ⟨x, hx, t, ht, rfl⟩
    rw [mem_nil_iff.1 ht, List.append_nil]
    exact hx
  · intro h
    exact ⟨s, h, [], mem_nil_iff.2 rfl, List.append_nil s⟩

/-- A wildcard does nothing in front of one that allows as much. -/
theorem mem_wild_wild (h : ∀ a, P a → Q a) :
    s ∈ language (.wild P :: .wild Q :: p) ↔ s ∈ language (.wild Q :: p) := by
  constructor
  · intro hs
    obtain ⟨x, hx, t, ht, rfl⟩ := mem_wild_iff.1 hs
    exact append_mem_wild_of_mem (fun a ha => h a (hx a ha)) ht
  · exact mem_wild

/-- The letter behind a wildcard is the first one that is found, or a later one. -/
theorem mem_wild_lit_iff (hx : c ∉ x) :
    x ++ c :: t ∈ language (.wild P :: .lit c :: p) ↔
      (∀ a ∈ x, P a) ∧ (t ∈ language p ∨ (P c ∧ t ∈ language (.wild P :: .lit c :: p))) := by
  constructor
  · intro h
    obtain ⟨y, hy, u, hu, heq⟩ := mem_wild_iff.1 h
    obtain ⟨v, hv, rfl⟩ := mem_lit_iff.1 hu
    rcases List.append_eq_append_iff.1 heq with ⟨z, rfl, hz⟩ | ⟨z, rfl, hz⟩
    · -- the wildcard ends before the letter, or within `x`
      cases z with
      | nil =>
        obtain ⟨-, rfl⟩ := List.cons.inj hz
        exact ⟨by simpa using hy, Or.inl hv⟩
      | cons d z =>
        obtain ⟨rfl, -⟩ := List.cons.inj hz
        exact absurd (by simp) hx
    · -- it ends at or behind the letter
      obtain ⟨hxP, hz'⟩ := List.forall_mem_append.1 hy
      refine ⟨hxP, ?_⟩
      cases z with
      | nil =>
        obtain ⟨-, rfl⟩ := List.cons.inj hz
        exact Or.inl hv
      | cons d z =>
        obtain ⟨rfl, rfl⟩ := List.cons.inj hz
        obtain ⟨hd, hzP⟩ := List.forall_mem_cons.1 hz'
        exact Or.inr ⟨hd, append_mem_wild hzP hu⟩
  · rintro ⟨hxP, ht | ⟨hc, ht⟩⟩
    · exact append_mem_wild hxP (cons_mem_lit_iff.2 ⟨rfl, ht⟩)
    · have hxc : ∀ a ∈ x ++ [c], P a :=
        List.forall_mem_append.2 ⟨hxP, List.forall_mem_singleton.2 hc⟩
      have := append_mem_wild_of_mem hxc ht
      rwa [List.append_assoc, List.singleton_append] at this

theorem not_mem_wild_lit (h : c ∉ s) : s ∉ language (.wild P :: .lit c :: p) := by
  intro hs
  obtain ⟨x, -, t, ht, rfl⟩ := mem_wild_iff.1 hs
  obtain ⟨u, -, rfl⟩ := mem_lit_iff.1 ht
  exact h (by simp)

/-- A letter that the pattern does not have can be left out. -/
theorem mem_of_cons_mem (ha : Item.lit a ∉ p) (h : a :: s ∈ language p) : s ∈ language p := by
  induction p with
  | nil => exact absurd (mem_nil_iff.1 h) (List.cons_ne_nil a s)
  | cons i p ih =>
    obtain ⟨hi, hp⟩ := not_or.1 (mt List.mem_cons.2 ha)
    cases i with
    | lit b =>
      obtain ⟨rfl, -⟩ := cons_mem_lit_iff.1 h
      exact absurd rfl hi
    | wild P =>
      obtain ⟨x, hx, t, ht, heq⟩ := mem_wild_iff.1 h
      cases x with
      | nil =>
        obtain rfl : t = a :: s := heq
        exact mem_wild (ih hp ht)
      | cons b x =>
        obtain ⟨-, rfl⟩ := List.cons.inj heq
        exact append_mem_wild (List.forall_mem_cons.1 hx).2 ht

/-! ### The shortest word -/

/-- The letters of a pattern. -/
def literals : List (Item α) → List α
  | [] => []
  | .lit a :: p => a :: literals p
  | .wild _ :: p => literals p

theorem literals_mem (p : List (Item α)) : literals p ∈ language p := by
  induction p with
  | nil => exact mem_nil_iff.2 rfl
  | cons i p ih =>
    cases i with
    | lit a => exact cons_mem_lit_iff.2 ⟨rfl, ih⟩
    | wild P => exact mem_wild ih

theorem lit_mem_of_mem_literals (h : a ∈ literals p) : Item.lit a ∈ p := by
  induction p with
  | nil => cases h
  | cons i p ih =>
    cases i with
    | lit b =>
      rcases List.mem_cons.1 h with rfl | h
      · exact List.mem_cons_self
      · exact List.mem_cons_of_mem _ (ih h)
    | wild P => exact List.mem_cons_of_mem _ (ih h)

theorem length_literals_le (h : s ∈ language p) : (literals p).length ≤ s.length := by
  induction p generalizing s with
  | nil => exact Nat.zero_le _
  | cons i p ih =>
    cases i with
    | lit a =>
      obtain ⟨t, ht, rfl⟩ := mem_lit_iff.1 h
      exact Nat.succ_le_succ (ih ht)
    | wild P =>
      obtain ⟨x, -, t, ht, rfl⟩ := mem_wild_iff.1 h
      have := ih ht
      rw [literals, List.length_append]
      omega

end Glob
