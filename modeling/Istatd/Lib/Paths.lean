import Mathlib.Tactic

/-!
# Paths without symbolic links

A place in a tree of directories is the list of names from the root to it.  A path is a list of
components: a name goes down, `parent` goes up, where there is something above, and `self` stays.

* `walk`: where a path leads from a place;
* `visited`: the directories it goes through before its last component;
* `walk_of_names`, `mem_visited_of_names`: for a path of names only.
-/

namespace Paths

variable {κ : Type*} [DecidableEq κ] (self parent : κ)

/-- One component. -/
def step (loc : List κ) (c : κ) : List κ :=
  if c = self then loc else if c = parent then loc.dropLast else loc ++ [c]

/-- Where a path leads. -/
def walk (loc : List κ) (path : List κ) : List κ := path.foldl (step self parent) loc

/-- The directories in which the components of a path are looked up. -/
def visited : List κ → List κ → List (List κ)
  | _, [] => []
  | loc, c :: path => loc :: visited (step self parent loc c) path

/-- A path of names. -/
def Names (path : List κ) : Prop := ∀ c ∈ path, c ≠ self ∧ c ≠ parent

variable {self parent} {loc path : List κ}

theorem walk_of_names (h : Names self parent path) : walk self parent loc path = loc ++ path := by
  induction path generalizing loc with
  | nil => exact (List.append_nil loc).symm
  | cons c path ih =>
    obtain ⟨⟨hself, hparent⟩, hpath⟩ := List.forall_mem_cons.1 h
    have hstep : step self parent loc c = loc ++ [c] := by
      rw [step, if_neg hself, if_neg hparent]
    calc walk self parent loc (c :: path) = walk self parent (loc ++ [c]) path := by
          rw [← hstep]
          rfl
      _ = loc ++ c :: path := by rw [ih hpath, List.append_assoc, List.singleton_append]

theorem mem_visited_of_names {x : List κ} (h : Names self parent path) :
    x ∈ visited self parent loc path ↔ ∃ q r, path = q ++ r ∧ r ≠ [] ∧ x = loc ++ q := by
  induction path generalizing loc with
  | nil => simp [visited]
  | cons c path ih =>
    obtain ⟨⟨hself, hparent⟩, hpath⟩ := List.forall_mem_cons.1 h
    have hstep : step self parent loc c = loc ++ [c] := by
      rw [step, if_neg hself, if_neg hparent]
    rw [visited, List.mem_cons, hstep, ih hpath]
    constructor
    · rintro (rfl | ⟨q, r, rfl, hr, rfl⟩)
      · exact ⟨[], c :: path, rfl, List.cons_ne_nil _ _, (List.append_nil _).symm⟩
      · exact ⟨c :: q, r, rfl, hr, by simp⟩
    · rintro ⟨q, r, hqr, hr, rfl⟩
      cases q with
      | nil => exact .inl (List.append_nil loc)
      | cons c' q =>
        obtain ⟨rfl, rfl⟩ := List.cons.inj hqr
        exact .inr ⟨q, r, rfl, hr, by simp⟩

end Paths
