import Mathlib.Tactic

/-!
# A store behind a write-back cache

A store maps pages to contents.  A small cache of `n` lines holds private copies of some pages;
reads and writes go to the copies, and a copy reaches the store only when its line is evicted or
flushed.  What a reader of the whole system sees is `view`: the copy of a cached page, and the store
for every other page.

* `Store n P V`: the contents on disk, the lines, and the fact that no page is held twice;
* `view`: what the two show together;
* `flush`, `evict`, `load` keep the view; `write` changes it at the page of the line only.
-/

namespace WriteBack

/-- A disk behind `n` cache lines, each free or holding one page; no page is held twice. -/
structure Store (n : ℕ) (P V : Type) where
  disk : P → V
  line : Fin n → Option (P × V)
  distinct : ∀ {i j p v w}, line i = some (p, v) → line j = some (p, w) → i = j

namespace Store

variable {n : ℕ} {P V : Type} [DecidableEq P] {s : Store n P V} {i j : Fin n} {p q : P} {v w : V}

/-- The first line that holds `p`. -/
def find? (s : Store n P V) (p : P) : Option (Fin n) :=
  (List.finRange n).find? fun i => (s.line i).any fun l => l.1 = p

/-- What a reader sees of page `p`: its copy if it is cached, the disk otherwise. -/
def view (s : Store n P V) (p : P) : V :=
  match (s.find? p).bind s.line with
  | some (_, v) => v
  | none => s.disk p

theorem find?_eq_some_iff : s.find? p = some i ↔ ∃ v, s.line i = some (p, v) := by
  constructor
  · intro h
    have hany := List.find?_some h
    obtain ⟨⟨q, v⟩, hl, hq⟩ := (Option.any_eq_true _ _).1 hany
    obtain rfl : q = p := of_decide_eq_true hq
    exact ⟨v, hl⟩
  · rintro ⟨v, hv⟩
    obtain ⟨j, hj⟩ : ∃ j, s.find? p = some j := by
      rw [← Option.isSome_iff_exists, find?, List.find?_isSome]
      exact ⟨i, List.mem_finRange i, by simp [hv]⟩
    have hany := List.find?_some hj
    obtain ⟨⟨q, w⟩, hl, hq⟩ := (Option.any_eq_true _ _).1 hany
    obtain rfl : q = p := of_decide_eq_true hq
    rw [hj, s.distinct hl hv]

theorem find?_eq_none_iff : s.find? p = none ↔ ∀ i v, s.line i ≠ some (p, v) := by
  constructor
  · intro h i v hv
    rw [(find?_eq_some_iff (i := i)).2 ⟨v, hv⟩] at h
    cases h
  · intro h
    by_contra hne
    obtain ⟨i, hi⟩ := Option.ne_none_iff_exists'.1 hne
    obtain ⟨v, hv⟩ := find?_eq_some_iff.1 hi
    exact h i v hv

theorem view_of_line (h : s.line i = some (p, v)) : s.view p = v := by
  unfold view
  rw [find?_eq_some_iff.2 ⟨v, h⟩, Option.bind_some, h]

theorem view_of_uncached (h : ∀ i v, s.line i ≠ some (p, v)) : s.view p = s.disk p := by
  unfold view
  rw [find?_eq_none_iff.2 h]
  rfl

omit [DecidableEq P] in
/-- A page is cached in some line or in none. -/
theorem cached_or (s : Store n P V) (p : P) :
    (∃ i v, s.line i = some (p, v)) ∨ ∀ i v, s.line i ≠ some (p, v) := by
  by_cases h : ∃ i v, s.line i = some (p, v)
  · exact Or.inl h
  · exact Or.inr fun i v hv => h ⟨i, v, hv⟩

/-- Two stores show the same page when they agree on its copy, or both leave it to equal disks. -/
theorem view_congr {s' : Store n P V} (hline : ∀ i v, s.line i = some (p, v) → s'.view p = v)
    (hdisk : (∀ i v, s.line i ≠ some (p, v)) → s'.view p = s.disk p) : s'.view p = s.view p := by
  rcases s.cached_or p with ⟨i, v, h⟩ | h
  · rw [hline i v h, view_of_line h]
  · rw [hdisk h, view_of_uncached h]

/-- The copy of line `i` written to the disk; the line keeps it. -/
def flush (s : Store n P V) (i : Fin n) : Store n P V :=
  { s with
    disk := match s.line i with
      | some (p, v) => Function.update s.disk p v
      | none => s.disk }

/-- The copy of line `i` written to the disk, and the line freed. -/
def evict (s : Store n P V) (i : Fin n) : Store n P V where
  disk := (s.flush i).disk
  line := Function.update s.line i none
  distinct {j k p v w} hj hk := by
    by_cases hji : j = i
    · subst hji; simp at hj
    by_cases hki : k = i
    · subst hki; simp at hk
    rw [Function.update_of_ne hji] at hj
    rw [Function.update_of_ne hki] at hk
    exact s.distinct hj hk

/-- Eviction puts no page into a line. -/
theorem evict_line_of_line (h : (s.evict i).line j = some (p, v)) :
    s.line j = some (p, v) := by
  by_cases hji : j = i
  · subst hji; simp [evict] at h
  · simpa [evict, hji] using h

/-- Page `p`, held by no line, copied into line `i`. -/
def load (s : Store n P V) (i : Fin n) (p : P) (h : ∀ j v, s.line j ≠ some (p, v)) :
    Store n P V where
  disk := s.disk
  line := Function.update s.line i (some (p, s.disk p))
  distinct {j k q v w} hj hk := by
    by_cases hji : j = i <;> by_cases hki : k = i
    · rw [hji, hki]
    · subst hji
      rw [Function.update_self] at hj
      rw [Function.update_of_ne hki] at hk
      cases hj
      exact absurd hk (h k w)
    · subst hki
      rw [Function.update_self] at hk
      rw [Function.update_of_ne hji] at hj
      cases hk
      exact absurd hj (h j v)
    · rw [Function.update_of_ne hji] at hj
      rw [Function.update_of_ne hki] at hk
      exact s.distinct hj hk

/-- The copy in line `i`, if there is one, replaced by its image under `f`. -/
def modify (s : Store n P V) (i : Fin n) (f : V → V) : Store n P V where
  disk := s.disk
  line := Function.update s.line i ((s.line i).map fun l => (l.1, f l.2))
  distinct {j k p v w} hj hk := by
    have key : ∀ m x, Function.update s.line i ((s.line i).map fun l => (l.1, f l.2)) m =
        some (p, x) → ∃ y, s.line m = some (p, y) := by
      intro m x hm
      by_cases hmi : m = i
      · subst hmi
        rw [Function.update_self] at hm
        obtain ⟨⟨q, y⟩, hl, he⟩ := Option.map_eq_some_iff.1 hm
        cases he
        exact ⟨y, hl⟩
      · rw [Function.update_of_ne hmi] at hm
        exact ⟨x, hm⟩
    obtain ⟨y, hy⟩ := key j v hj
    obtain ⟨z, hz⟩ := key k w hk
    exact s.distinct hy hz

theorem flush_view (s : Store n P V) (i : Fin n) (p : P) : (s.flush i).view p = s.view p := by
  refine view_congr (fun j v h => view_of_line (s := s.flush i) h) fun h => ?_
  rw [view_of_uncached (s := s.flush i) h]
  unfold flush
  cases hl : s.line i with
  | none => rfl
  | some l =>
    have hne : p ≠ l.1 := by rintro rfl; exact h i l.2 hl
    simp only
    exact Function.update_of_ne hne _ _

theorem evict_view (s : Store n P V) (i : Fin n) (p : P) : (s.evict i).view p = s.view p := by
  rw [← flush_view s i p]
  refine view_congr (s := s.flush i) (fun j v h => ?_) fun h => ?_
  · by_cases hji : j = i
    · subst hji
      -- the page has just been written to the disk and no line holds it any more
      have hun : ∀ k w, (s.evict j).line k ≠ some (p, w) := by
        intro k w hk
        obtain rfl := s.distinct (evict_line_of_line hk) h
        simp [evict] at hk
      rw [view_of_uncached hun]
      have h' : s.line j = some (p, v) := h
      simp [evict, flush, h']
    · have h' : s.line j = some (p, v) := h
      exact view_of_line (i := j) (by simpa [evict, hji] using h')
  · exact view_of_uncached fun k w hk => h k w (evict_line_of_line hk)

theorem load_view (s : Store n P V) (i : Fin n) (p : P) (h : ∀ j v, s.line j ≠ some (p, v))
    (hi : s.line i = none) (q : P) : (s.load i p h).view q = s.view q := by
  refine view_congr (fun j v hj => ?_) fun hq => ?_
  · have hji : j ≠ i := by rintro rfl; rw [hi] at hj; cases hj
    exact view_of_line (i := j) (by simpa [load, hji] using hj)
  · by_cases hqp : q = p
    · subst hqp
      exact view_of_line (i := i) (by simp [load])
    · refine view_of_uncached fun k w hk => ?_
      by_cases hki : k = i
      · subst hki
        simp [load] at hk
        exact hqp hk.1.symm
      · exact hq k w (by simpa [load, hki] using hk)

theorem modify_view {f : V → V} (h : s.line i = some (p, v)) :
    (s.modify i f).view = Function.update s.view p (f v) := by
  funext q
  by_cases hq : q = p
  · subst hq
    rw [Function.update_self]
    exact view_of_line (i := i) (by simp [modify, h])
  · rw [Function.update_of_ne hq]
    refine view_congr (fun j w hj => ?_) fun hun => ?_
    · have hji : j ≠ i := by rintro rfl; rw [h] at hj; cases hj; exact hq rfl
      exact view_of_line (i := j) (by simpa [modify, hji] using hj)
    · refine view_of_uncached fun k w hk => ?_
      by_cases hki : k = i
      · subst hki
        simp [modify, h] at hk
        exact hq hk.1.symm
      · exact hun k w (by simpa [modify, hki] using hk)

end Store

end WriteBack
