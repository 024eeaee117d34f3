import Istatd.StatCounter
import Istatd.RingFile
import Istatd.Lib.Run

/-!
# The collation window

The five times of the window of a collated counter are zero until the first record, and five
consecutive multiples of the interval from then on (`Windowed`).  The program tells the first case
by the time of slot 0 being zero, which is also the first time of a window that starts at the epoch:
a window that starts below the epoch cannot be shifted past it.

* `shiftLoop_windowAt`: what the loop of `maybeShiftCollated` does to the window, and that it ends;
* `recordCollated_ok_iff`: when `record` finds a slot for its time;
* `collationIndex_safe_iff`: the runs in which it always does.
-/

namespace Istatd

namespace StatCounter

variable {D F : Type} {c : StatCounter D F} {now t w : ℤ}

theorem collationInterval_pos (c : StatCounter D F) : 0 < c.collationInterval :=
  c.fine.shape.cfgInterval_pos

/-- No record has set up the window yet. -/
def FreshWindow (c : StatCounter D F) : Prop := ∀ k, (c.collations k).time = 0

/-- The window starts at `w`. -/
def WindowAt (c : StatCounter D F) (w : ℤ) : Prop :=
  c.collationInterval ∣ w ∧ ∀ k : Fin 5, (c.collations k).time = w + k * c.collationInterval

/-- The windows of reachable counters. -/
def Windowed (c : StatCounter D F) : Prop := c.FreshWindow ∨ ∃ w, c.WindowAt w

theorem WindowAt.time_zero (h : c.WindowAt w) : (c.collations 0).time = w := by
  have := h.2 0
  simpa using this

theorem WindowAt.time_four (h : c.WindowAt w) :
    (c.collations 4).time = w + 4 * c.collationInterval := h.2 4

theorem Windowed.time_dvd (h : c.Windowed) (k : Fin 5) :
    c.collationInterval ∣ (c.collations k).time := by
  rcases h with hf | ⟨w, hd, hw⟩
  · rw [hf k]
    exact dvd_zero _
  · rw [hw k]
    exact dvd_add hd (dvd_mul_left _ _)

/-! ### Lookup -/

theorem findCollationIndex_some {i : Fin 5} (h : c.findCollationIndex t = some i) :
    (c.collations i).time ≤ t ∧ t < (c.collations i).time + c.collationInterval := by
  have hi := List.find?_some h
  exact of_decide_eq_true hi

theorem findCollationIndex_isSome_iff : (c.findCollationIndex t).isSome ↔
    ∃ i, (c.collations i).time ≤ t ∧ t < (c.collations i).time + c.collationInterval := by
  unfold findCollationIndex
  rw [List.find?_isSome]
  constructor
  · rintro ⟨i, -, hi⟩
    exact ⟨i, of_decide_eq_true hi⟩
  · rintro ⟨i, hi⟩
    exact ⟨i, List.mem_finRange i, decide_eq_true hi⟩

/-- A quantum found in the window has the time of its slot. -/
theorem Windowed.time_eq (h : c.Windowed) (ht : c.collationInterval ∣ t) {i : Fin 5}
    (hi : c.findCollationIndex t = some i) : (c.collations i).time = t := by
  obtain ⟨h1, h2⟩ := findCollationIndex_some hi
  exact h1.antisymm (Grid.le_of_lt_add_of_dvd c.collationInterval_pos (h.time_dvd i) ht h2)

/-- A time has a slot in a window exactly if it is within the five intervals. -/
theorem WindowAt.isSome_iff (h : c.WindowAt w) : (c.findCollationIndex t).isSome ↔
    w ≤ t ∧ t < w + 5 * c.collationInterval := by
  have hpos := c.collationInterval_pos
  rw [findCollationIndex_isSome_iff]
  constructor
  · rintro ⟨i, h1, h2⟩
    rw [h.2] at h1 h2
    have hi : ((i : ℕ) : ℤ) ≤ 4 := by have := i.isLt; omega
    have hi0 : (0 : ℤ) ≤ ((i : ℕ) : ℤ) := by omega
    constructor <;> nlinarith
  · rintro ⟨h1, h2⟩
    by_contra hcon
    simp only [not_exists, not_and, not_lt, h.2] at hcon
    have hk0 := hcon 0
    have hk1 := hcon 1
    have hk2 := hcon 2
    have hk3 := hcon 3
    have hk4 := hcon 4
    simp only [Fin.isValue, Fin.val_zero, Fin.val_one, Fin.val_two, Nat.cast_zero, Nat.cast_one,
      Nat.cast_ofNat, zero_mul, one_mul, add_zero,
      show ((3 : Fin 5) : ℕ) = 3 from rfl, show ((4 : Fin 5) : ℕ) = 4 from rfl] at hk0 hk1 hk2 hk3 hk4
    omega

section Shift

variable [FloatArith D F]

/-! ### Shifts -/

@[simp] theorem writeCollations_shape (c : StatCounter D F) (now : ℤ) :
    (c.writeCollations now).shape = c.fine.shape := by
  unfold writeCollations
  simp [List.finRange, StatFile.updateBucket_shape]

@[simp] theorem shiftCollated_collationInterval (c : StatCounter D F) (now : ℤ) :
    (c.shiftCollated now).2.collationInterval = c.collationInterval := by
  unfold shiftCollated collationInterval
  split_ifs
  · rfl
  · simp

/-- A shift moves the window up by one interval, unless it starts at the epoch. -/
theorem WindowAt.shiftCollated (h : c.WindowAt w) (hw : w ≠ 0) (now : ℤ) :
    (c.shiftCollated now).1 = true ∧ (c.shiftCollated now).2.WindowAt (w + c.collationInterval) := by
  have h0 : (c.collations 0).time ≠ 0 := by rw [h.time_zero]; exact hw
  refine ⟨by simp [StatCounter.shiftCollated, h0], ?_, fun k => ?_⟩
  · rw [shiftCollated_collationInterval]
    exact dvd_add h.1 dvd_rfl
  · rw [shiftCollated_collationInterval]
    have hk : (c.shiftCollated now).2.collations = ![c.collations 1, c.collations 2, c.collations 3,
        c.collations 4, CollationInfo.ofTime ((c.collations 4).time + c.collationInterval)] := by
      simp [StatCounter.shiftCollated, h0]
    rw [hk]
    have h1 : (c.collations 1).time = w + 1 * c.collationInterval := h.2 1
    have h2 : (c.collations 2).time = w + 2 * c.collationInterval := h.2 2
    have h3 : (c.collations 3).time = w + 3 * c.collationInterval := h.2 3
    have h4 := h.time_four
    fin_cases k
    · show (c.collations 1).time = w + c.collationInterval + 0 * c.collationInterval
      linarith
    · show (c.collations 2).time = w + c.collationInterval + 1 * c.collationInterval
      linarith
    · show (c.collations 3).time = w + c.collationInterval + 2 * c.collationInterval
      linarith
    · show (c.collations 4).time = w + c.collationInterval + 3 * c.collationInterval
      linarith
    · show (c.collations 4).time + c.collationInterval =
        w + c.collationInterval + 4 * c.collationInterval
      linarith

theorem shiftCollated_of_time_eq_zero (h : (c.collations 0).time = 0) :
    c.shiftCollated now = (false, c) := if_pos h

/-- What every shift keeps is kept by the loop. -/
theorem shiftLoop_induction {P : StatCounter D F → Prop}
    (hP : ∀ c, P c → P (c.shiftCollated now).2) (h : P c) (n : ℕ) : P (shiftLoop now t n c) := by
  induction n generalizing c with
  | zero => exact h
  | succ n ih =>
    unfold shiftLoop
    simp only
    split_ifs
    · exact ih (hP c h)
    · exact hP c h
    · exact h

theorem maybeShiftCollated_induction {P : StatCounter D F → Prop} (now t : ℤ)
    (hP : ∀ c, P c → P (c.shiftCollated now).2) (h : P c) : P (c.maybeShiftCollated now t) := by
  unfold maybeShiftCollated
  split_ifs
  · exact shiftLoop_induction hP h _
  · exact h

/-- **The loop of `maybeShiftCollated`** on a window at `w`, with enough rounds: it stops with the
time inside or below the window, or with a window that starts at the epoch. -/
theorem shiftLoop_windowAt {n : ℕ} (h : c.WindowAt w)
    (hn : (t - (w + 4 * c.collationInterval)) / c.collationInterval ≤ n) :
    ∃ w', (shiftLoop now t n c).WindowAt w' ∧
      (shiftLoop now t n c).collationInterval = c.collationInterval ∧ w ≤ w' ∧ (w ≤ 0 → w' ≤ 0) ∧
      (w' = w ∨ w' + 4 * c.collationInterval ≤ t) ∧
      (t < w' + 5 * c.collationInterval ∨ w' = 0) := by
  have hpos := c.collationInterval_pos
  induction n generalizing c w with
  | zero =>
    refine ⟨w, h, rfl, le_rfl, id, Or.inl rfl, Or.inl ?_⟩
    have hlt : (t - (w + 4 * c.collationInterval)) / c.collationInterval < 1 := by
      push_cast at hn
      omega
    have := (Int.ediv_lt_iff_lt_mul hpos).1 hlt
    linarith
  | succ n ih =>
    unfold shiftLoop
    rw [h.time_four]
    by_cases ht : w + 4 * c.collationInterval + c.collationInterval ≤ t
    · rw [if_pos ht]
      by_cases hw : w = 0
      · have h0 : (c.collations 0).time = 0 := by rw [h.time_zero, hw]
        rw [shiftCollated_of_time_eq_zero h0]
        exact ⟨w, h, rfl, le_rfl, id, Or.inl rfl, Or.inr hw⟩
      · obtain ⟨hsome, hshift⟩ := h.shiftCollated hw now
        have hI := c.shiftCollated_collationInterval now
        obtain ⟨w', hw', hI', hle, hneg, hbelow, hexit⟩ := ih hshift (by
          rw [hI, show t - (w + c.collationInterval + 4 * c.collationInterval) =
            t - (w + 4 * c.collationInterval) + -1 * c.collationInterval by ring,
            Int.add_mul_ediv_right _ _ hpos.ne']
          push_cast at hn
          omega) (by rw [hI]; exact hpos)
        rw [hI] at hI' hbelow hexit
        simp only [hsome, if_true]
        refine ⟨w', hw', hI', by omega, fun hw0 => hneg ?_, Or.inr ?_, hexit⟩
        · -- a window below the epoch does not jump over it
          have := Grid.add_le_of_lt_of_dvd hpos h.1 (dvd_zero _) (lt_of_le_of_ne hw0 hw)
          omega
        · rcases hbelow with he | he
          · linarith
          · exact he
    · rw [if_neg ht]
      exact ⟨w, h, rfl, le_rfl, id, Or.inl rfl, Or.inl (by linarith)⟩

/-- **`maybeShiftCollated` on a window.** -/
theorem WindowAt.maybeShiftCollated (h : c.WindowAt w) (hcol : c.isCollated = true) (now t : ℤ) :
    ∃ w', (c.maybeShiftCollated now t).WindowAt w' ∧
      (c.maybeShiftCollated now t).collationInterval = c.collationInterval ∧ w ≤ w' ∧
      (w ≤ 0 → w' ≤ 0) ∧ (w' = w ∨ w' + 4 * c.collationInterval ≤ t) ∧
      (t < w' + 5 * c.collationInterval ∨ w' = 0) := by
  unfold StatCounter.maybeShiftCollated
  rw [if_pos hcol, h.time_four]
  exact shiftLoop_windowAt h (Int.self_le_toNat _)

/-- **The loop ends because its condition fails or `shiftCollated` returns false**, not because the
rounds of the model run out. -/
theorem maybeShiftCollated_exit (h : c.WindowAt w) (hcol : c.isCollated = true) (now t : ℤ) :
    let c' := c.maybeShiftCollated now t
    ¬ (c'.collations 4).time + c'.collationInterval ≤ t ∨ (c'.shiftCollated now).1 = false := by
  obtain ⟨w', hw', hI, -, -, -, hexit⟩ := h.maybeShiftCollated hcol now t
  rcases hexit with hlt | h0
  · left
    rw [hw'.time_four, hI]
    linarith
  · right
    rw [shiftCollated_of_time_eq_zero (by rw [hw'.time_zero, h0])]

theorem FreshWindow.maybeShiftCollated (h : c.FreshWindow) (now t : ℤ) :
    c.maybeShiftCollated now t = c := by
  unfold StatCounter.maybeShiftCollated
  split_ifs
  · cases ((t - (c.collations 4).time) / c.collationInterval).toNat with
    | zero => rfl
    | succ n =>
      unfold shiftLoop
      rw [shiftCollated_of_time_eq_zero (h 0)]
      simp
  · rfl

theorem initCollations_windowAt (ht : c.collationInterval ∣ t) :
    (c.initCollations t).WindowAt (t - 4 * c.collationInterval) := by
  refine ⟨dvd_sub ht (dvd_mul_left _ _), fun k => ?_⟩
  show t - ((4 - k : Fin 5) : ℕ) * c.collationInterval =
    t - 4 * c.collationInterval + k * c.collationInterval
  have hk : (((4 - k : Fin 5) : ℕ) : ℤ) = 4 - ((k : ℕ) : ℤ) := by
    fin_cases k <;> rfl
  rw [hk]
  ring

@[simp] theorem shiftCollated_fine_shape (c : StatCounter D F) (now : ℤ) :
    (c.shiftCollated now).2.fine.shape = c.fine.shape := by
  unfold shiftCollated
  split_ifs
  · rfl
  · exact writeCollations_shape c now

@[simp] theorem maybeShiftCollated_fine_shape (c : StatCounter D F) (now t : ℤ) :
    (c.maybeShiftCollated now t).fine.shape = c.fine.shape :=
  maybeShiftCollated_induction (P := fun c' => c'.fine.shape = c.fine.shape) now t
    (fun c' h => (shiftCollated_fine_shape c' now).trans h) rfl

theorem Windowed.maybeShiftCollated (h : c.Windowed) (hcol : c.isCollated = true) (now t : ℤ) :
    (c.maybeShiftCollated now t).Windowed := by
  rcases h with hf | ⟨w, hw⟩
  · rw [hf.maybeShiftCollated]
    exact Or.inl hf
  · obtain ⟨w', hw', -⟩ := hw.maybeShiftCollated hcol now t
    exact Or.inr ⟨w', hw'⟩

/-! ### `record` -/

/-- The window in which `record` looks for the slot of its time. -/
theorem shiftFor_windowed (hcol : c.isCollated = true) (h : c.Windowed)
    (ht : c.collationInterval ∣ t) (now : ℤ) :
    (c.shiftFor now t).Windowed ∧ (c.shiftFor now t).collationInterval = c.collationInterval := by
  unfold shiftFor
  split_ifs with h1 h2
  · exact ⟨h, rfl⟩
  · exact ⟨Or.inr ⟨_, initCollations_windowAt ht⟩, rfl⟩
  · rcases h with hf | ⟨w, hw⟩
    · exact absurd (hf 0) h2
    · obtain ⟨w', hw', hI, -⟩ := hw.maybeShiftCollated hcol now t
      exact ⟨Or.inr ⟨w', hw'⟩, hI⟩

/-- **When there is a slot**: unless the window starts below the epoch and the time is five
intervals above it, since the shifts stop when the window starts at the epoch. -/
theorem shiftFor_isSome_iff (hcol : c.isCollated = true) (h : c.Windowed)
    (ht : c.collationInterval ∣ t) (h0 : (c.collations 0).time ≤ t) (now : ℤ) :
    ((c.shiftFor now t).findCollationIndex t).isSome ↔
      ¬ ((c.collations 0).time < 0 ∧ 5 * c.collationInterval ≤ t) := by
  have hpos := c.collationInterval_pos
  unfold shiftFor
  split_ifs with h1 h2
  · rcases h with hf | ⟨w, hw⟩
    · simp [h1, hf 0]
    · rw [hw.isSome_iff] at h1
      rw [hw.isSome_iff, hw.time_zero]
      exact ⟨fun _ => by omega, fun _ => h1⟩
  · have hw := initCollations_windowAt ht
    have hI : (c.initCollations t).collationInterval = c.collationInterval := rfl
    rw [hw.isSome_iff, hI]
    exact ⟨fun _ => by omega, fun _ => by constructor <;> linarith⟩
  · rcases h with hf | ⟨w, hw⟩
    · exact absurd (hf 0) h2
    · rw [hw.isSome_iff] at h1
      rw [hw.time_zero] at h0 h2 ⊢
      obtain ⟨w', hw', hI, hle, hneg, hbelow, hexit⟩ := hw.maybeShiftCollated hcol now t
      rw [hw'.isSome_iff, hI]
      constructor
      · rintro ⟨-, hlt⟩ ⟨hw0, h5⟩
        have := hneg hw0.le
        omega
      · intro hcon
        -- the window was below the time, so it moved up to it
        have hmoved : w' + 4 * c.collationInterval ≤ t := by
          rcases hbelow with he | he
          · omega
          · exact he
        refine ⟨by linarith, ?_⟩
        rcases hexit with hlt | hw0
        · exact hlt
        · have : w < 0 := lt_of_le_of_ne (by omega) h2
          omega

/-- An added value leaves the times of the window. -/
theorem addCollated_time (c : StatCounter D F) (i k : Fin 5) (v : D) :
    ((c.addCollated now i t v).collations k).time = (c.collations k).time := by
  unfold addCollated
  by_cases hk : k = i
  · subst hk
    simp
  · simp [Function.update_of_ne hk]

@[simp] theorem addCollated_fine_shape (c : StatCounter D F) (i : Fin 5) (v : D) :
    (c.addCollated now i t v).fine.shape = c.fine.shape := by
  unfold addCollated
  simp only
  split_ifs
  · exact StatFile.updateBucket_shape _ _
  · rfl

theorem Windowed.addCollated (h : c.Windowed) (i : Fin 5) (v : D) :
    (c.addCollated now i t v).Windowed := by
  have hI : (c.addCollated now i t v).collationInterval = c.collationInterval := by
    unfold collationInterval
    rw [addCollated_fine_shape]
  rcases h with hf | ⟨w, hd, hw⟩
  · exact Or.inl fun k => (addCollated_time c i k v).trans (hf k)
  · exact Or.inr ⟨w, by rw [hI]; exact hd, fun k => by rw [addCollated_time, hI]; exact hw k⟩

/-- **When `record` stays in the window.** -/
theorem recordCollated_ok_iff (hcol : c.isCollated = true) (h : c.Windowed) (now time : ℤ)
    (value : D) :
    (∃ c', c.recordCollated now time value = .ok c') ↔
      (c.Admits now time → ¬ ((c.collations 0).time < 0 ∧ 5 * c.collationInterval ≤ time)) := by
  have hpos := c.collationInterval_pos
  unfold recordCollated
  by_cases had : c.Admits now time
  · have hdvd : c.collationInterval ∣ time - time.tmod c.collationInterval :=
      Grid.cellStart_dvd _ _
    have h0 : (c.collations 0).time ≤ time - time.tmod c.collationInterval :=
      Grid.le_cellStart hpos (h.time_dvd 0) (not_lt.1 had.2)
    have h5 : 5 * c.collationInterval ≤ time - time.tmod c.collationInterval ↔
        5 * c.collationInterval ≤ time :=
      ⟨fun hle => hle.trans (Grid.cellStart_le_of_pos hpos (by unfold Grid.cellStart; omega)),
        fun hle => Grid.le_cellStart hpos (dvd_mul_left _ _) hle⟩
    have hiff := shiftFor_isSome_iff hcol h hdvd h0 now
    rw [h5] at hiff
    rw [if_pos had]
    simp only [had, true_imp_iff]
    rw [← hiff]
    cases hfind : (c.shiftFor now (time - time.tmod c.collationInterval)).findCollationIndex
        (time - time.tmod c.collationInterval) with
    | none => simp
    | some i => simp
  · simp [had]

/-- What is known of every reachable collated counter. -/
def Reachable (c : StatCounter D F) : Prop := c.isCollated = true ∧ c.Windowed

theorem Reachable.recordCollated (h : c.Reachable) {time : ℤ} {value : D} {c' : StatCounter D F}
    (hr : c.recordCollated now time value = .ok c') : c'.Reachable := by
  obtain ⟨hcol, hw⟩ := h
  unfold StatCounter.recordCollated at hr
  split_ifs at hr with had
  · simp only at hr
    split at hr
    · rename_i i hi
      cases hr
      obtain ⟨hw', -⟩ := shiftFor_windowed hcol hw
        (Grid.cellStart_dvd c.collationInterval time) now
      refine ⟨?_, hw'.addCollated i _⟩
      unfold isCollated
      rw [addCollated_fine_shape]
      unfold shiftFor
      split_ifs
      · exact hcol
      · exact hcol
      · rw [maybeShiftCollated_fine_shape]
        exact hcol
    · cases hr
  · cases hr
    exact ⟨hcol, hw⟩

theorem Reachable.maybeShiftCollated (h : c.Reachable) (now t : ℤ) :
    (c.maybeShiftCollated now t).Reachable :=
  ⟨by unfold isCollated; rw [maybeShiftCollated_fine_shape]; exact h.1,
    h.2.maybeShiftCollated h.1 now t⟩

theorem Reachable.flush (h : c.Reachable) (now : ℤ) : (c.flush now).Reachable := by
  obtain ⟨hcol, hw⟩ := h.maybeShiftCollated now (now + c.collationInterval * 2)
  refine ⟨by unfold isCollated StatCounter.flush; rw [StatFile.flush_shape]; exact hcol, ?_⟩
  have hI : (c.flush now).collationInterval =
      (c.maybeShiftCollated now (now + c.collationInterval * 2)).collationInterval := by
    unfold collationInterval StatCounter.flush
    rw [StatFile.flush_shape]
    rfl
  rcases hw with hf | ⟨w, hd, ht⟩
  · exact Or.inl hf
  · exact Or.inr ⟨w, by rw [hI]; exact hd, by rw [hI]; exact ht⟩

theorem Reachable.close (h : c.Reachable) (now : ℤ) : (c.close now).Reachable := by
  unfold StatCounter.close
  split_ifs
  · exact h.maybeShiftCollated now _
  · exact h.maybeShiftCollated now _

/-- **Every call keeps to the reachable counters.** -/
theorem Reachable.step (h : c.Reachable) {op : CounterOp D} {c' : StatCounter D F}
    (hs : c.step op = .ok c') : c'.Reachable := by
  cases op with
  | record now time value valueSq min max cnt =>
    simp only [StatCounter.step, record, h.1, if_true] at hs
    exact h.recordCollated hs
  | flush now =>
    cases hs
    exact h.flush now
  | forceFlush now =>
    cases hs
    exact (h.maybeShiftCollated now _).flush now
  | maybeShiftCollated now t =>
    cases hs
    exact h.maybeShiftCollated now t
  | reopen now =>
    cases hs
    exact ⟨(h.close now).1, Or.inl fun _ => rfl⟩

theorem construct_collations {sysPageSize clock zeroTime : ℤ} {isCollated : Bool}
    {first : RetentionInterval D F × Option (DiskFile D F)}
    {rest : List (RetentionInterval D F × Option (DiskFile D F))}
    (h : construct sysPageSize clock isCollated zeroTime first rest = .ok c) :
    c.collations = (fun _ => CollationInfo.empty) ∧ c.accepted = [] ∧ c.pushed = [] := by
  obtain ⟨fine, gs, -, -, rfl⟩ := construct_ok h
  exact ⟨rfl, rfl, rfl⟩

/-- A record that the time checks let through has a time below five intervals, or the window does
not start below the epoch. -/
def RoomFor (c : StatCounter D F) : CounterOp D → Prop
  | .record now time _ _ _ _ _ =>
    c.Admits now time → ¬ ((c.collations 0).time < 0 ∧ 5 * c.collationInterval ≤ time)
  | _ => True

instance (c : StatCounter D F) : ∀ op, Decidable (c.RoomFor op)
  | .record _ _ _ _ _ _ _ => inferInstanceAs (Decidable (_ → ¬ (_ ∧ _)))
  | .flush _ => inferInstanceAs (Decidable True)
  | .forceFlush _ => inferInstanceAs (Decidable True)
  | .maybeShiftCollated _ _ => inferInstanceAs (Decidable True)
  | .reopen _ => inferInstanceAs (Decidable True)

/-- **The collation index stays in range**: a run of a collated counter never accesses `collations_`
beyond its end if and only if no record comes that is admitted, five intervals or more above the
epoch, while the window starts below the epoch. -/
theorem collationIndex_safe_iff {sysPageSize clock zeroTime : ℤ} {isCollated : Bool}
    {first : RetentionInterval D F × Option (DiskFile D F)}
    {rest : List (RetentionInterval D F × Option (DiskFile D F))} {c₀ : StatCounter D F}
    (hnew : construct sysPageSize clock isCollated zeroTime first rest = .ok c₀)
    (hcol : c₀.isCollated = true) (ops : List (CounterOp D)) :
    (∃ c, ops.foldlM StatCounter.step c₀ = .ok c) ↔
      Run.AlongOk StatCounter.step RoomFor c₀ ops := by
  have hstart : c₀.Reachable :=
    ⟨hcol, Or.inl fun k => by rw [(construct_collations hnew).1]; rfl⟩
  refine Run.exec_ok_iff (I := Reachable) (fun c op c' h hs => h.step hs) (fun c op h => ?_) hstart
  cases op with
  | record now time value valueSq min max cnt =>
    simp only [StatCounter.step, record, h.1, if_true]
    exact recordCollated_ok_iff h.1 h.2 now time value
  | flush now => exact ⟨fun _ => trivial, fun _ => ⟨_, rfl⟩⟩
  | forceFlush now => exact ⟨fun _ => trivial, fun _ => ⟨_, rfl⟩⟩
  | maybeShiftCollated now t => exact ⟨fun _ => trivial, fun _ => ⟨_, rfl⟩⟩
  | reopen now => exact ⟨fun _ => trivial, fun _ => ⟨_, rfl⟩⟩

end Shift

end StatCounter

/-- A ten-second interval of 360 samples. -/
def tenSeconds : RetentionInterval ℚ ℚ where
  interval := 10
  samples := 360
  lambda := 0
  interval_pos := by decide
  interval_lt := by decide
  lambda_ok := Or.inl rfl

/-- A one-minute interval of 360 samples. -/
def oneMinute : RetentionInterval ℚ ℚ where
  interval := 60
  samples := 360
  lambda := 0
  interval_pos := by decide
  interval_lt := by decide
  lambda_ok := Or.inl rfl

/-- The finest file of a collated counter with these two intervals, created at time 5. -/
def sampleFine : StatFile ℚ ℚ :=
  StatFile.ofDisk ⟨newShape 4096 5 10
    ((Settings.forCounter ℚ true 0).forInterval 1 tenSeconds), newHeader ℚ 0, fun _ _ => Bucket.zero⟩

/-- Its other file. -/
def sampleCoarse : StatFile ℚ ℚ :=
  StatFile.ofDisk ⟨newShape 4096 5 60
    ((((Settings.forCounter ℚ true 0).forInterval 1 tenSeconds).forCoarser true).forInterval 10
      oneMinute), newHeader ℚ 0, fun _ _ => Bucket.zero⟩

/-- That counter. -/
def sampleCounter : StatCounter ℚ ℚ where
  fine := sampleFine
  coarser := [sampleCoarse]
  collations := fun _ => CollationInfo.empty
  accepted := []
  pushed := []

theorem sampleCounter_new :
    StatCounter.construct 4096 5 true 0 (tenSeconds, none) [(oneMinute, none)] =
      .ok sampleCounter := rfl

/-- A record of the value `v`, at a clock equal to its time. -/
def recordAt (time : ℤ) (v : ℚ) : CounterOp ℚ := .record time time v (v * v) v v 1

/-- Records at 1000 and 2000 stay in the window. -/
theorem collationIndex_safe_sample :
    ∃ c, [recordAt 1000 1, recordAt 2000 1].foldlM StatCounter.step sampleCounter = .ok c :=
  (StatCounter.collationIndex_safe_iff sampleCounter_new rfl _).2 (by decide +kernel)

/-- A record at 10 sets up a window that starts at -30; the record at 1000 shifts it to the epoch,
where the shifts stop, and then uses the index 5. -/
theorem collationIndex_safe_early :
    ¬ ∃ c, [recordAt 10 1, recordAt 1000 1].foldlM StatCounter.step sampleCounter = .ok c := by
  rintro ⟨c, hc⟩
  have h : ([recordAt 10 1, recordAt 1000 1].foldlM StatCounter.step sampleCounter).isOk = false := by
    decide +kernel
  rw [hc] at h
  cases h

end Istatd
