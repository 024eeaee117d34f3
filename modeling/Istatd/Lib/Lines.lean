import Mathlib.Tactic

/-!
# Terminated lines

A stream is a list in which an element `sep` ends a line.  `lines sep l` are the lines of `l` that
are ended, without their `sep`, and `unfinished sep l` is what stands behind the last `sep`.

* `lines_induction`: from a stream without `sep`, and from a line and what follows it;
* `lines_append`, `unfinished_append`: a stream may be cut anywhere, if the unfinished line is kept
  for the next part;
* `Whole`: a stream in which all lines are ended, and what can be put together or cut off.
-/

namespace Lines

variable {α : Type*} [DecidableEq α] {sep : α}

/-- The lines of a stream that are ended. -/
def lines (sep : α) (l : List α) : List (List α) := (l.splitOn sep).dropLast

/-- What stands behind the last line. -/
def unfinished (sep : α) (l : List α) : List α := (l.splitOn sep).getLast (List.splitOn_ne_nil sep l)

theorem lines_of_not_mem {x : List α} (h : sep ∉ x) : lines sep x = [] := by
  simp [lines, List.splitOn_eq_singleton h]

theorem unfinished_of_not_mem {x : List α} (h : sep ∉ x) : unfinished sep x = x := by
  simp [unfinished, List.splitOn_eq_singleton h]

theorem lines_line_append {x : List α} (h : sep ∉ x) (l : List α) :
    lines sep (x ++ sep :: l) = x :: lines sep l := by
  simp [lines, List.splitOn_append_cons_self_of_not_mem h, List.dropLast_cons_of_ne_nil]

theorem unfinished_line_append {x : List α} (h : sep ∉ x) (l : List α) :
    unfinished sep (x ++ sep :: l) = unfinished sep l := by
  simp [unfinished, List.splitOn_append_cons_self_of_not_mem h]

/-- **Induction over the lines of a stream.** -/
theorem lines_induction (sep : α) {P : List α → Prop} (hfree : ∀ x, sep ∉ x → P x)
    (hline : ∀ x l, sep ∉ x → P l → P (x ++ sep :: l)) (l : List α) : P l := by
  induction hn : l.length using Nat.strong_induction_on generalizing l with
  | _ n ih =>
    by_cases hsep : sep ∈ l
    · obtain ⟨x, l', rfl, hx⟩ := List.eq_append_cons_of_mem hsep
      refine hline x l' hx (ih l'.length ?_ l' rfl)
      rw [← hn, List.length_append, List.length_cons]
      omega
    · exact hfree l hsep

theorem splitOn_eq_lines_concat (sep : α) (l : List α) :
    l.splitOn sep = lines sep l ++ [unfinished sep l] :=
  (List.dropLast_append_getLast _).symm

/-- A stream ends with `sep` if nothing stands behind its last line. -/
theorem getLast?_eq_some_iff (pre l : List α) :
    (pre ++ sep :: l).getLast? = some sep ↔ unfinished sep l = [] := by
  induction l using lines_induction sep generalizing pre with
  | hfree x hx =>
    rw [unfinished_of_not_mem hx]
    cases x using List.reverseRecOn with
    | nil => simp
    | append_singleton x a =>
      have ha : a ≠ sep := fun h => hx (by simp [h])
      rw [← List.cons_append, ← List.append_assoc, List.getLast?_concat]
      simp [ha]
  | hline x l hx ih =>
    rw [unfinished_line_append hx, ← ih (pre ++ sep :: x)]
    simp

theorem not_mem_of_mem_splitOn {x l : List α} (h : x ∈ l.splitOn sep) : sep ∉ x := by
  induction l using lines_induction sep with
  | hfree y hy =>
    rw [List.splitOn_eq_singleton hy] at h
    exact List.mem_singleton.1 h ▸ hy
  | hline y l hy ih =>
    rw [List.splitOn_append_cons_self_of_not_mem hy] at h
    rcases List.mem_cons.1 h with rfl | h
    · exact hy
    · exact ih h

theorem not_mem_of_mem_lines {x l : List α} (h : x ∈ lines sep l) : sep ∉ x :=
  not_mem_of_mem_splitOn (List.mem_of_mem_dropLast h)

theorem lines_append (a b : List α) :
    lines sep (a ++ b) = lines sep a ++ lines sep (unfinished sep a ++ b) := by
  induction a using lines_induction sep with
  | hfree x hx => simp [lines_of_not_mem hx, unfinished_of_not_mem hx]
  | hline x l hx ih =>
    rw [List.append_assoc, List.cons_append, lines_line_append hx, ih, lines_line_append hx,
      unfinished_line_append hx, List.cons_append]

theorem unfinished_append (a b : List α) :
    unfinished sep (a ++ b) = unfinished sep (unfinished sep a ++ b) := by
  induction a using lines_induction sep with
  | hfree x hx => rw [unfinished_of_not_mem hx]
  | hline x l hx ih =>
    rw [List.append_assoc, List.cons_append, unfinished_line_append hx, ih,
      unfinished_line_append hx]

/-! ### Streams of whole lines -/

theorem eq_lines_append_unfinished (sep : α) (l : List α) :
    l = (lines sep l).flatMap (· ++ [sep]) ++ unfinished sep l := by
  induction l using lines_induction sep with
  | hfree x hx => simp [lines_of_not_mem hx, unfinished_of_not_mem hx]
  | hline x l hx ih =>
    rw [lines_line_append hx, unfinished_line_append hx, List.flatMap_cons, List.append_assoc, ← ih]
    simp

/-- All lines of the stream are ended. -/
def Whole (sep : α) (l : List α) : Prop := l = (lines sep l).flatMap (· ++ [sep])

instance (sep : α) (l : List α) : Decidable (Whole sep l) := inferInstanceAs (Decidable (_ = _))

theorem whole_iff {l : List α} : Whole sep l ↔ unfinished sep l = [] := by
  have h := eq_lines_append_unfinished sep l
  constructor
  · intro hl
    rw [Whole] at hl
    rw [← hl] at h
    exact List.self_eq_append_right.1 h
  · intro hl
    rw [hl, List.append_nil] at h
    exact h

@[simp] theorem whole_nil : Whole sep [] := rfl

theorem Whole.unfinished_append {a : List α} (h : Whole sep a) (b : List α) :
    unfinished sep (a ++ b) = unfinished sep b := by
  rw [Lines.unfinished_append, whole_iff.1 h, List.nil_append]

theorem Whole.append {a b : List α} (ha : Whole sep a) (hb : Whole sep b) : Whole sep (a ++ b) := by
  rw [whole_iff, ha.unfinished_append]
  exact whole_iff.1 hb

/-- What follows whole lines. -/
theorem Whole.of_append {a b : List α} (ha : Whole sep a) (h : Whole sep (a ++ b)) :
    Whole sep b := by
  rw [whole_iff, ha.unfinished_append] at h
  exact whole_iff.2 h

theorem whole_append_sep (a : List α) : Whole sep (a ++ [sep]) := by
  have hfree : sep ∉ unfinished sep a := not_mem_of_mem_splitOn (List.getLast_mem _)
  rw [whole_iff, unfinished_append, unfinished_line_append hfree, unfinished_of_not_mem (by simp)]

end Lines
