import Mathlib.Tactic

/-!
# Escape characters

A text is quoted by writing an escape character and another one for each character of a table, and
unquoted by a loop that remembers whether the last character was an escape that is not escaped.

* `Escaping`: a table whose entries are undone, and that has an entry for the escape character;
* `unquote_quote`: quoting is undone, as long as the characters are written at all;
* `not_mem_quote`: a character of the table that is written as another one is not in a quoted text;
* `opened_of_quote`: one that is written as itself stands behind an escape that is not escaped;
* `opened_iff_odd`: such an escape ends an odd number of them.
-/

/-- An escape character, what is written behind it for a character, and what is read for that. -/
structure Escaping (α : Type*) where
  esc : α
  table : α → Option α
  undo : α → α
  table_esc : table esc ≠ none
  undo_table : ∀ a c, table a = some c → undo c = a

namespace Escaping

variable {α : Type*} (E : Escaping α)

/-- What is written for a character. -/
def unit (a : α) : List α :=
  match E.table a with
  | some c => [E.esc, c]
  | none => [a]

/-- A quoted text. -/
def quote (l : List α) : List α := l.flatMap E.unit

section Units

variable {E} {a c : α}

theorem unit_of_some (h : E.table a = some c) : E.unit a = [E.esc, c] := by
  rw [unit, h]

theorem unit_of_none (h : E.table a = none) : E.unit a = [a] := by
  rw [unit, h]

theorem ne_esc_of_none (h : E.table a = none) : a ≠ E.esc := by
  rintro rfl
  exact E.table_esc h

theorem quote_cons (a : α) (l : List α) : E.quote (a :: l) = E.unit a ++ E.quote l :=
  List.flatMap_cons

end Units

/-- A character that is written as another one. -/
theorem not_mem_quote {x : α} (hx : E.table x ≠ none) (hesc : x ≠ E.esc)
    (h : ∀ a c, E.table a = some c → c ≠ x) (l : List α) : x ∉ E.quote l := by
  intro hmem
  obtain ⟨a, -, ha⟩ := List.mem_flatMap.1 hmem
  cases htable : E.table a with
  | none =>
    rw [unit_of_none htable, List.mem_singleton] at ha
    exact hx (ha ▸ htable)
  | some c =>
    rw [unit_of_some htable, List.mem_pair] at ha
    rcases ha with ha | ha
    · exact hesc ha
    · exact h a c htable ha.symm

variable [DecidableEq α]

/-- The loop that unquotes; `write` is what it writes for a character. -/
def unquoteFrom (write : α → List α) : Bool → List α → List α
  | _, [] => []
  | true, a :: l => write (E.undo a) ++ unquoteFrom write false l
  | false, a :: l =>
    if a = E.esc then unquoteFrom write true l else write a ++ unquoteFrom write false l

/-- The last character of a text is an escape that is not escaped, if the first one is escaped or
not. -/
def openedFrom : Bool → List α → Bool
  | opened, [] => opened
  | true, _ :: l => openedFrom false l
  | false, a :: l => openedFrom (decide (a = E.esc)) l

/-- The last character of a text is an escape that is not escaped. -/
def opened (l : List α) : Bool := E.openedFrom false l

/-- The loop over what is written for one character. -/
theorem unquoteFrom_unit (write : α → List α) (a : α) (rest : List α) :
    E.unquoteFrom write false (E.unit a ++ rest) = write a ++ E.unquoteFrom write false rest := by
  cases h : E.table a with
  | none =>
    rw [unit_of_none h, List.singleton_append, unquoteFrom, if_neg (ne_esc_of_none h)]
  | some c =>
    rw [unit_of_some h]
    simp only [List.cons_append, List.nil_append, unquoteFrom, if_true]
    rw [E.undo_table a c h]

/-- **Quoting is undone**, if all characters of the text are written. -/
theorem unquote_quote {write : α → List α} {l : List α} (h : ∀ a ∈ l, write a = [a]) :
    E.unquoteFrom write false (E.quote l) = l := by
  induction l with
  | nil => rfl
  | cons a l ih =>
    obtain ⟨ha, hl⟩ := List.forall_mem_cons.1 h
    rw [quote_cons, unquoteFrom_unit, ih hl, ha]
    rfl

/-- **Where a character of the table stands in a quoted text**: behind an escape that is not
escaped. -/
theorem opened_of_quote {x : α} (hx : E.table x ≠ none) (hesc : x ≠ E.esc) {l pre post : List α}
    (h : E.quote l = pre ++ x :: post) : E.opened pre = true := by
  induction l generalizing pre with
  | nil => exact absurd h (by simp [quote])
  | cons a l ih =>
    rw [quote_cons] at h
    cases htable : E.table a with
    | none =>
      rw [unit_of_none htable] at h
      cases pre with
      | nil =>
        obtain rfl : a = x := (List.cons.inj h).1
        exact absurd htable hx
      | cons b pre =>
        obtain ⟨rfl, hrest⟩ : a = b ∧ E.quote l = pre ++ x :: post := by simpa using h
        rw [opened, openedFrom, decide_eq_false (ne_esc_of_none htable)]
        exact ih hrest
    | some c =>
      rw [unit_of_some htable] at h
      match pre, h with
      | [], h => exact absurd (List.cons.inj h).1.symm hesc
      | [b], h =>
        obtain ⟨rfl, -⟩ := List.cons.inj h
        simp [opened, openedFrom]
      | b :: d :: pre, h =>
        obtain ⟨rfl, -, hrest⟩ : E.esc = b ∧ c = d ∧ E.quote l = pre ++ x :: post := by
          simpa using h
        rw [opened, openedFrom, decide_eq_true rfl, openedFrom]
        exact ih hrest

theorem openedFrom_concat (b : Bool) (l : List α) (a : α) :
    E.openedFrom b (l ++ [a]) = (!E.openedFrom b l && decide (a = E.esc)) := by
  induction l generalizing b with
  | nil => cases b <;> simp [openedFrom]
  | cons c l ih => cases b <;> simp [openedFrom, ih]

/-- **When an escape at the end is not escaped**: if there is an odd number of them. -/
theorem opened_iff_odd (l : List α) :
    E.opened l = true ↔ Odd (l.reverse.takeWhile (· = E.esc)).length := by
  induction l using List.reverseRecOn with
  | nil => simp [opened, openedFrom]
  | append_singleton l a ih =>
    rw [opened, openedFrom_concat, ← opened, List.reverse_concat, List.takeWhile_cons]
    by_cases ha : a = E.esc
    · simp [ha, Nat.odd_add_one, ← ih]
    · simp [ha]

end Escaping
