import Mathlib.Tactic

/-!
# Linked lists in a memory

A memory gives each address the address that follows it, or none.  `Cells next p l` says that the
linked list that starts at the pointer `p` has its cells at the addresses `l`, in this order.

* `Cells.congr`: what happens to other cells does not matter (`Cells.update` for one of them);
* `Cells.push`: a new cell in front of a list.
-/

namespace LinkedList

variable {β : Type*} {next next' : β → Option β} {p : Option β} {a : β} {l : List β}

/-- The cells of the linked list from `p` on are at the addresses `l`. -/
def Cells (next : β → Option β) : Option β → List β → Prop
  | p, [] => p = none
  | p, a :: l => p = some a ∧ Cells next (next a) l

@[simp] theorem cells_nil : Cells next p [] ↔ p = none := Iff.rfl

@[simp] theorem cells_cons : Cells next p (a :: l) ↔ p = some a ∧ Cells next (next a) l := Iff.rfl

/-- The first cell of a list is one of its cells. -/
theorem Cells.mem (h : Cells next (some a) l) : a ∈ l := by
  cases l with
  | nil => cases h
  | cons b l =>
    obtain rfl := Option.some.inj h.1
    exact List.mem_cons_self

theorem Cells.congr (h : Cells next p l) (hnext : ∀ a ∈ l, next' a = next a) :
    Cells next' p l := by
  induction l generalizing p with
  | nil => exact h
  | cons a l ih =>
    refine ⟨h.1, ?_⟩
    rw [hnext a List.mem_cons_self]
    exact ih h.2 fun b hb => hnext b (List.mem_cons_of_mem a hb)

variable [DecidableEq β]

/-- A change at an address that is not in the list. -/
theorem Cells.update (h : Cells next p l) (ha : a ∉ l) (q : Option β) :
    Cells (Function.update next a q) p l :=
  h.congr fun _ hb => Function.update_of_ne (ne_of_mem_of_not_mem hb ha) q next

/-- A new cell that points to the old list. -/
theorem Cells.push (h : Cells next p l) (ha : a ∉ l) :
    Cells (Function.update next a p) (some a) (a :: l) := by
  refine ⟨rfl, ?_⟩
  rw [Function.update_self]
  exact h.update ha p

end LinkedList
