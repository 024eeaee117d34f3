import Istatd.Conservation
import Istatd.NewCounter

/-!
# Runs of a collated counter

The invariant of conservation over runs, in one session or over several.  A counter is idle from its
construction to its first record, and active from then on; when it is destroyed and constructed
again it is idle again, with an empty window.

What the window holds is pushed when the window shifts, so the records of a session reach the files
only if the destructor shifts far enough (`Drains`), and a new window, which starts empty, must not
reach back to quanta that are stored already (`Orderly`).

* `Conserved.step`: an orderly call keeps the invariant;
* `collation_conserved`: one session, up to a full shift of the window;
* `sessions_conserved`: any number of sessions.
-/

namespace Istatd

namespace StatCounter

variable {c c' : StatCounter ℚ ℚ} {S S' : ℤ → Bool} {now w t : ℤ} {old : List (Bucket ℚ ℚ)}

/-- Two states of a counter whose files show the same rings, as far as they are not trailing. -/
structure SameFiles (c c' : StatCounter ℚ ℚ) : Prop where
  shapes : SameShapes c c'
  fine : StatFile.SameRing c.fine c'.fine
  coarser : ∀ g' ∈ c'.coarser, g'.shape.isTrailing = false →
    ∃ g ∈ c.coarser, StatFile.SameRing g g'
  accepted : c'.accepted = c.accepted
  pushed : c'.pushed = c.pushed

theorem Stored.congr (h : c.Stored S) (hs : SameFiles c c') : c'.Stored S where
  fine := by
    rw [hs.accepted]
    exact h.fine.congr hs.fine.shape hs.fine.last hs.fine.ring
  coarse := fun g' hg' hnt => by
    obtain ⟨g, hg, hr⟩ := hs.coarser g' hg' hnt
    rw [hr.shape] at hnt
    rw [hs.pushed]
    exact (h.coarse g hg hnt).congr hr.shape hr.last hr.ring
  sums := by rw [hs.pushed, hs.accepted]; exact h.sums
  mem := by rw [hs.pushed, hs.accepted]; exact h.mem

theorem sameFiles_initCollations (c : StatCounter ℚ ℚ) (r : ℤ) :
    SameFiles c (c.initCollations r) where
  shapes := ⟨rfl, fun g hg => ⟨g, hg, rfl⟩⟩
  fine := ⟨rfl, rfl, fun _ => rfl⟩
  coarser := fun g hg _ => ⟨g, hg, rfl, rfl, fun _ => rfl⟩
  accepted := rfl
  pushed := rfl

theorem Stored.congr_set (h : c.Stored S) (hS : ∀ a ∈ c.accepted, S' a.1 = S a.1) : c.Stored S' where
  fine := fun a ha hSa => h.fine a ha (by rw [← hS a ha]; exact hSa)
  coarse := h.coarse
  sums := fun p => by
    rw [h.sums]
    exact total_congr fun a ha => by rw [hS a ha]
  mem := fun a ha hSa => h.mem a ha (by rw [← hS a ha]; exact hSa)

theorem Active.congr (h : c.Active w old) (hs : SameFiles c c')
    (hcol : c'.collations = c.collations) : c'.Active w old where
  window := by unfold WindowAt; rw [hcol, hs.shapes.collationInterval]; exact h.window
  pos := h.pos
  bucket_time := by rw [hcol]; exact h.bucket_time
  bucket_sum := by rw [hcol, hs.accepted]; exact h.bucket_sum
  writes := by rw [hcol, hs.accepted]; exact h.writes
  below := by rw [hs.accepted, hs.shapes.collationInterval]; exact h.below
  pushed := by rw [hs.pushed]; exact h.pushed
  created := h.created.imp_right fun hc g' hg' hnt => by
    obtain ⟨g, hg, he⟩ := hs.shapes.coarser g' hg'
    rw [he] at hnt ⊢
    exact hc g hg hnt
  stored := h.stored.congr hs

/-- No window is set up, and everything accepted is stored. -/
structure Idle (c : StatCounter ℚ ℚ) : Prop where
  fresh : ∀ k, c.collations k = CollationInfo.empty
  stored : c.Stored fun _ => true
  pushed_nil : c.accepted = [] → c.pushed = []

theorem Idle.freshWindow (h : c.Idle) : c.FreshWindow := fun k => by rw [h.fresh k]; rfl

/-- **The first record of a session** sets up a window beyond everything stored. -/
theorem Idle.initCollations (h : c.Idle) (ha : c.Accounts) {r : ℤ} (hr : c.collationInterval ∣ r)
    (h5 : 5 * c.collationInterval ≤ r)
    (hlate : ∀ a ∈ c.accepted, a.1 + 4 * c.collationInterval < r) :
    (c.initCollations r).Active (r - 4 * c.collationInterval) c.pushed := by
  have hpos := c.collationInterval_pos
  have hw := initCollations_windowAt hr
  have hI : (c.initCollations r).collationInterval = c.collationInterval := rfl
  have hslot : ∀ k : Fin 5,
      r - 4 * c.collationInterval ≤ ((c.initCollations r).collations k).time := by
    intro k
    rw [hw.2 k, hI]
    have := mul_nonneg (Int.natCast_nonneg (k : ℕ)) hpos.le
    linarith
  have hnone : ∀ k, ∀ a ∈ c.accepted, a.1 ≠ ((c.initCollations r).collations k).time := by
    intro k a haa he
    have h1 := hslot k
    have h2 := hlate a haa
    omega
  refine ⟨hw, by omega, fun k => rfl, fun k => ?_, fun k a haa he => absurd he (hnone k a haa), ?_,
    ⟨[], by simp [StatCounter.initCollations]⟩, ?_, ?_⟩
  · exact (total_eq_zero fun a haa => decide_eq_false (hnone k a haa)).symm
  · intro a haa
    have := hlate a haa
    rw [hI]
    omega
  · by_cases hnil : c.accepted = []
    · exact Or.inl (h.pushed_nil hnil)
    · right
      obtain ⟨a, haa⟩ := List.exists_mem_of_ne_nil _ hnil
      intro g hg hnt
      have h1 := ha.created a haa g hg hnt
      have h2 := hlate a haa
      have h3 := Grid.add_le_of_lt_of_dvd hpos (ha.grid a haa)
        (dvd_sub hr (dvd_mul_left c.collationInterval 4)) (by omega)
      omega
  · refine Stored.congr (c := c) ?_ (sameFiles_initCollations c r)
    refine h.stored.congr_set fun a haa => decide_eq_true ?_
    have := hlate a haa
    omega

/-- The invariant of a collated counter.  The list `old` is what was pushed before the session. -/
structure Conserved (c : StatCounter ℚ ℚ) (old : List (Bucket ℚ ℚ)) : Prop where
  kinds : c.Kinds
  accounts : c.Accounts
  state : (c.Idle ∧ c.pushed = old) ∨ ∃ w, c.Active w old ∧ c.accepted ≠ []

/-- The window does not start below the epoch. -/
theorem Conserved.time_nonneg (h : c.Conserved old) : 0 ≤ (c.collations 0).time := by
  rcases h.state with ⟨hi, -⟩ | ⟨w, hact, -⟩
  · exact (hi.freshWindow 0).ge
  · rw [hact.window.time_zero]
    exact hact.pos.le

theorem Conserved.windowed (h : c.Conserved old) : c.Windowed := by
  rcases h.state with ⟨hi, -⟩ | ⟨w, hact, -⟩
  · exact Or.inl hi.freshWindow
  · exact Or.inr ⟨w, hact.window⟩

/-! ### The calls -/

/-- A counter whose files have been flushed shows the same rings. -/
theorem sameFiles_flushed (c : StatCounter ℚ ℚ) (hk : c.Kinds) (now : ℤ) :
    SameFiles c { c with
      fine := c.fine.flush now, coarser := c.coarser.map fun f => f.flush now } where
  shapes := ⟨StatFile.flush_shape now, fun g' hg' => by
    obtain ⟨g, hg, rfl⟩ := List.mem_map.1 hg'
    exact ⟨g, hg, StatFile.flush_shape now⟩⟩
  fine := StatFile.flush_sameRing hk.notTrailing now
  coarser := fun g' hg' hnt => by
    obtain ⟨g, hg, rfl⟩ := List.mem_map.1 hg'
    rw [StatFile.flush_shape] at hnt
    exact ⟨g, hg, StatFile.flush_sameRing hnt now⟩
  accepted := rfl
  pushed := rfl

/-- Another state of the files and the same window. -/
theorem Conserved.congr (h : c.Conserved old) (hs : SameFiles c c')
    (hcol : c'.collations = c.collations) : c'.Conserved old where
  kinds := h.kinds.congr hs.shapes
  accounts := h.accounts.congr hs.shapes hs.accepted
  state := by
    rw [hs.accepted]
    rcases h.state with ⟨hi, hold⟩ | ⟨w, hact, hne⟩
    · refine Or.inl ⟨⟨by rw [hcol]; exact hi.fresh, hi.stored.congr hs, ?_⟩, hs.pushed.trans hold⟩
      rw [hs.accepted, hs.pushed]
      exact hi.pushed_nil
    · exact Or.inr ⟨w, hact.congr hs hcol, hne⟩

theorem Conserved.maybeShiftCollated (h : c.Conserved old) (now t : ℤ) :
    (c.maybeShiftCollated now t).Conserved old ∧ SameShapes c (c.maybeShiftCollated now t) := by
  rcases h.state with ⟨hi, -⟩ | ⟨w, hact, hne⟩
  · rw [hi.freshWindow.maybeShiftCollated]
    exact ⟨h, SameShapes.refl c⟩
  · obtain ⟨w', hact', hs, hacc, -, -⟩ := hact.maybeShiftCollated h.kinds h.accounts now t
    exact ⟨⟨h.kinds.congr hs, h.accounts.congr hs hacc,
      Or.inr ⟨w', hact', by rw [hacc]; exact hne⟩⟩, hs⟩

theorem Conserved.flush (h : c.Conserved old) (now : ℤ) :
    (c.flush now).Conserved old ∧ SameShapes c (c.flush now) := by
  obtain ⟨hc, hs⟩ := h.maybeShiftCollated now (now + c.collationInterval * 2)
  have hf := sameFiles_flushed _ hc.kinds now
  exact ⟨hc.congr hf rfl, hs.trans hf.shapes⟩

/-- The record is not before the creation of a coarser file, and if it is the first of its session
its window is beyond the epoch and beyond the quanta of earlier sessions. -/
def RecordOrderly (c : StatCounter ℚ ℚ) (time : ℤ) : Prop :=
  (∀ g ∈ c.coarser, g.shape.isTrailing = false → g.shape.fileCreateTime ≤ time) ∧
    ((c.collations 0).time = 0 → 5 * c.collationInterval ≤ time ∧
      ∀ a ∈ c.accepted, a.1 + 4 * c.collationInterval < time - time.tmod c.collationInterval)

instance (c : StatCounter ℚ ℚ) (time : ℤ) : Decidable (c.RecordOrderly time) :=
  inferInstanceAs (Decidable ((∀ g ∈ c.coarser, _ → _) ∧ (_ → _ ∧ ∀ a ∈ c.accepted, _)))

/-- After the search for a slot the window is set up. -/
theorem Conserved.shiftFor (h : c.Conserved old) {time : ℤ} (ho : c.RecordOrderly time) (now : ℤ) :
    let r := time - time.tmod c.collationInterval
    (∃ w, (c.shiftFor now r).Active w old) ∧ SameShapes c (c.shiftFor now r) ∧
      (c.shiftFor now r).accepted = c.accepted := by
  intro r
  have hpos := c.collationInterval_pos
  have hr : c.collationInterval ∣ r := Grid.cellStart_dvd _ _
  unfold StatCounter.shiftFor
  rcases h.state with ⟨hi, rfl⟩ | ⟨w, hact, hne⟩
  · obtain ⟨h5, hlate⟩ := ho.2 (hi.freshWindow 0)
    have h5r : 5 * c.collationInterval ≤ r := Grid.le_cellStart hpos (dvd_mul_left _ _) h5
    have hnone : ¬ (c.findCollationIndex r).isSome := by
      rw [findCollationIndex_isSome_iff]
      rintro ⟨k, -, hk⟩
      rw [hi.freshWindow k] at hk
      omega
    rw [if_neg hnone, if_pos (hi.freshWindow 0)]
    exact ⟨⟨_, hi.initCollations h.accounts hr h5r hlate⟩,
      (sameFiles_initCollations c r).shapes, rfl⟩
  · split_ifs with h1 h2
    · exact ⟨⟨w, hact⟩, SameShapes.refl c, rfl⟩
    · exact absurd h2 hact.time_ne_zero
    · obtain ⟨w', hact', hs, hacc, -, -⟩ := hact.maybeShiftCollated h.kinds h.accounts now r
      exact ⟨⟨w', hact'⟩, hs, hacc⟩

/-- A value added to the slot that the search has found. -/
theorem Active.addFound (h : c.Active w old) (hk : c.Kinds) (ha : c.Accounts) {r : ℤ} {i : Fin 5}
    (hr : c.collationInterval ∣ r) (hi : c.findCollationIndex r = some i)
    (hcreated : ∀ g ∈ c.coarser, g.shape.isTrailing = false →
      g.shape.fileCreateTime < r + c.collationInterval) (v : ℚ) :
    (c.addCollated now i r v).Conserved old := by
  -- on the grid the slot found is the one of the quantum
  have hslot := h.windowed.time_eq hr hi
  refine ⟨hk.congr (c.addCollated_sameShapes now i r v), ha.add i v hr hcreated, Or.inr ⟨w, ?_, ?_⟩⟩
  · rw [← hslot]
    exact h.add hk ha i v
  · simp [addCollated]

/-- **An orderly record** finds its slot and keeps the invariant. -/
theorem Conserved.recordCollated (h : c.Conserved old) {time : ℤ} (value : ℚ)
    (ho : c.Admits now time → c.RecordOrderly time) :
    ∃ c', c.recordCollated now time value = .ok c' ∧ c'.Conserved old ∧ SameShapes c c' := by
  by_cases had : c.Admits now time
  · obtain ⟨⟨w, hact⟩, hs, hacc⟩ := h.shiftFor (ho had) now
    obtain ⟨c', hc'⟩ := (recordCollated_ok_iff h.kinds.collated h.windowed now time value).2
      fun _ hcon => absurd hcon.1 (not_lt.2 h.time_nonneg)
    refine ⟨c', hc', ?_⟩
    unfold StatCounter.recordCollated at hc'
    rw [if_pos had] at hc'
    simp only at hc'
    split at hc'
    · rename_i i hi
      cases hc'
      refine ⟨hact.addFound (h.kinds.congr hs) (h.accounts.congr hs hacc) ?_ hi ?_ _,
        hs.trans (addCollated_sameShapes _ now i _ _)⟩
      · rw [hs.collationInterval]
        exact Grid.cellStart_dvd _ _
      · intro g' hg' hnt
        obtain ⟨g, hg, he⟩ := hs.coarser g' hg'
        rw [he] at hnt ⊢
        rw [hs.collationInterval]
        exact ((ho had).1 g hg hnt).trans_lt (Grid.lt_cellStart_add c.collationInterval_pos)
    · cases hc'
  · refine ⟨c, ?_, h, SameShapes.refl c⟩
    unfold StatCounter.recordCollated
    rw [if_neg had]

/-- No accepted quantum is beyond the last slot. -/
theorem Active.le_time_four (h : c.Active w old) (ha : c.Accounts) {a : ℤ × ℚ}
    (haa : a ∈ c.accepted) : a.1 ≤ (c.collations 4).time := by
  apply Grid.le_of_lt_add_of_dvd c.collationInterval_pos (h.windowed.time_dvd 4) (ha.grid a haa)
  have hbelow := h.below a haa
  rw [h.window.time_four]
  linarith

/-- The destructor at this clock pushes every slot of the window that has data. -/
def Drains (c : StatCounter ℚ ℚ) (now : ℤ) : Prop :=
  60 * 5 < now - (c.collations 4).time ∨
    ∀ k, 0 < (c.collations k).writes →
      (c.collations k).time + 5 * c.collationInterval ≤ now + c.collationInterval * 5 / 2

instance (c : StatCounter ℚ ℚ) (now : ℤ) : Decidable (c.Drains now) :=
  inferInstanceAs (Decidable (_ ∨ ∀ k, 0 < (c.collations k).writes → _))

/-- An accepted quantum that is not before the window has a slot in it. -/
theorem Active.exists_slot (h : c.Active w old) (ha : c.Accounts) {a : ℤ × ℚ}
    (haa : a ∈ c.accepted) (hw : w ≤ a.1) : ∃ k, a.1 = (c.collations k).time := by
  obtain ⟨k, h1, h2⟩ := findCollationIndex_isSome_iff.1
    (h.window.isSome_iff.2 ⟨hw, h.below a haa⟩)
  have hle := Grid.le_of_lt_add_of_dvd c.collationInterval_pos (h.windowed.time_dvd k)
    (ha.grid a haa) h2
  exact ⟨k, hle.antisymm h1⟩

/-- **Shifts that drain the window** store everything. -/
theorem Conserved.drain (h : c.Conserved old) (ht : ∀ w, c.Active w old → ∀ a ∈ c.accepted,
    w ≤ a.1 → a.1 + 5 * c.collationInterval ≤ t) (now : ℤ) :
    let e := c.maybeShiftCollated now t
    (e.Conserved old ∧ SameShapes c e) ∧ e.accepted = c.accepted ∧ e.Stored (fun _ => true) ∧
      (∃ cur, e.pushed = old ++ cur ∧ cur.Pairwise fun d d' => d.time < d'.time) ∧
      (e.accepted = [] → e.pushed = []) := by
  refine ⟨h.maybeShiftCollated now t, ?_⟩
  rcases h.state with ⟨hi, hold⟩ | ⟨w, hact, hne⟩
  · rw [hi.freshWindow.maybeShiftCollated]
    exact ⟨rfl, hi.stored, ⟨[], by simp [hold]⟩, hi.pushed_nil⟩
  · obtain ⟨w', hact', hs, hacc, hle, hexit⟩ := hact.maybeShiftCollated h.kinds h.accounts now t
    obtain ⟨cur, hcur, hsorted, -⟩ := hact'.pushed
    refine ⟨hacc, hact'.stored.congr_set fun a haa => ?_, ⟨cur, hcur, hsorted⟩,
      fun hnil => absurd (hacc ▸ hnil) hne⟩
    rw [hacc] at haa
    refine (decide_eq_true ?_).symm
    by_contra hcon
    have := ht w hact a haa (by omega)
    omega

/-- A full shift drains the window. -/
theorem Active.fullyShift_le (h : c.Active w old) (ha : c.Accounts) {a : ℤ × ℚ}
    (haa : a ∈ c.accepted) :
    a.1 + 5 * c.collationInterval ≤ (c.collations 4).time + c.collationInterval * 5 := by
  have := h.le_time_four ha haa
  linarith

/-- **The destructor** shifts by a time that drains the window, if `Drains` says so. -/
theorem Conserved.close_eq (h : c.Conserved old) (hd : c.Drains now) :
    ∃ t, c.close now = c.maybeShiftCollated now t ∧ ∀ w, c.Active w old → ∀ a ∈ c.accepted,
      w ≤ a.1 → a.1 + 5 * c.collationInterval ≤ t := by
  unfold StatCounter.close
  by_cases h300 : 60 * 5 < now - (c.collations 4).time
  · exact ⟨_, if_pos h300, fun w hact a haa _ => hact.fullyShift_le h.accounts haa⟩
  · refine ⟨_, if_neg h300, fun w hact a haa haw => ?_⟩
    obtain ⟨k, hk⟩ := hact.exists_slot h.accounts haa haw
    rw [hk]
    exact hd.resolve_left h300 k (hact.writes k a haa hk)

theorem Conserved.reopen (h : c.Conserved old) (hd : c.Drains now) :
    (c.reopen now).Conserved (c.reopen now).pushed ∧ SameShapes c (c.reopen now) ∧
      (c.reopen now).Stored fun _ => true := by
  obtain ⟨t, hclose, ht⟩ := h.close_eq hd
  obtain ⟨⟨hc, hs⟩, -, hst, -, hnil⟩ := h.drain ht now
  rw [← hclose] at hc hs hst hnil
  have hf : SameFiles (c.close now) (c.reopen now) := by
    refine ⟨⟨rfl, fun g' hg' => ?_⟩, StatFile.reopen_sameRing _, fun g' hg' _ => ?_, rfl, rfl⟩
    · obtain ⟨g, hg, rfl⟩ := List.mem_map.1 hg'
      exact ⟨g, hg, rfl⟩
    · obtain ⟨g, hg, rfl⟩ := List.mem_map.1 hg'
      exact ⟨g, hg, StatFile.reopen_sameRing g⟩
  have hst' := hst.congr hf
  exact ⟨⟨hc.kinds.congr hf.shapes, hc.accounts.congr hf.shapes hf.accepted,
    Or.inl ⟨⟨fun _ => rfl, hst', hnil⟩, rfl⟩⟩, hs.trans hf.shapes, hst'⟩

/-- The calls that keep the invariant. -/
def Orderly (c : StatCounter ℚ ℚ) : CounterOp ℚ → Prop
  | .record now time _ _ _ _ _ => c.Admits now time → c.RecordOrderly time
  | .reopen now => c.Drains now
  | _ => True

instance (c : StatCounter ℚ ℚ) : ∀ op, Decidable (c.Orderly op)
  | .record now time _ _ _ _ _ =>
    inferInstanceAs (Decidable (c.Admits now time → c.RecordOrderly time))
  | .flush _ => inferInstanceAs (Decidable True)
  | .forceFlush _ => inferInstanceAs (Decidable True)
  | .maybeShiftCollated _ _ => inferInstanceAs (Decidable True)
  | .reopen now => inferInstanceAs (Decidable (c.Drains now))

/-- **An orderly call** succeeds and keeps the invariant, and within a session what was pushed
before the session. -/
theorem Conserved.step (h : c.Conserved old) {op : CounterOp ℚ} (ho : c.Orderly op) :
    ∃ c', c.step op = .ok c' ∧ SameShapes c c' ∧
      (c'.Conserved old ∨ (∃ now, op = .reopen now) ∧ c'.Conserved c'.pushed) := by
  cases op with
  | record now time value valueSq min max cnt =>
    simp only [StatCounter.step, record, h.kinds.collated, if_true]
    obtain ⟨c', hc', h1, hs⟩ := h.recordCollated value ho
    exact ⟨c', hc', hs, Or.inl h1⟩
  | flush now =>
    obtain ⟨h1, hs⟩ := h.flush now
    exact ⟨_, rfl, hs, Or.inl h1⟩
  | forceFlush now =>
    obtain ⟨h1, hs1⟩ := h.maybeShiftCollated now _
    obtain ⟨h2, hs2⟩ := h1.flush now
    exact ⟨_, rfl, hs1.trans hs2, Or.inl h2⟩
  | maybeShiftCollated now t =>
    obtain ⟨h1, hs⟩ := h.maybeShiftCollated now t
    exact ⟨_, rfl, hs, Or.inl h1⟩
  | reopen now =>
    obtain ⟨h1, hs, -⟩ := h.reopen ho
    exact ⟨_, rfl, hs, Or.inr ⟨⟨now, rfl⟩, h1⟩⟩

/-- A new counter has nothing accepted and empty files. -/
theorem conserved_new {sysPageSize clock zeroTime : ℤ} {rp : RetentionPolicy ℚ ℚ}
    {first : RetentionInterval ℚ ℚ} {rest : List (RetentionInterval ℚ ℚ)}
    (hrp : rp.intervals = first :: rest) (hreg : first.isSeason = false)
    (hnew : construct sysPageSize clock true zeroTime (first, none)
      (rest.map fun ri => (ri, none)) = .ok c) : c.Conserved [] ∧ c.accepted = [] := by
  obtain ⟨⟨-, hcol, hnt, -⟩, hcoarse⟩ := construct_new hnew
  obtain ⟨hwin, hacc, hpushed⟩ := construct_collations hnew
  have hidle : c.Idle := by
    refine ⟨fun k => by rw [hwin], ⟨?_, fun g hg _ => ?_, fun p => ?_, ?_⟩, fun _ => hpushed⟩
    · rw [hacc]
      exact fun a ha => by cases ha
    · obtain ⟨⟨sh, hd, -, rfl⟩, -⟩ := hcoarse g hg
      rw [hpushed]
      exact StatFile.Merges.nil sh hd
    · rw [hpushed, hacc]
      rfl
    · rw [hacc]
      exact fun a ha => by cases ha
  refine ⟨⟨⟨hcol, hnt.trans hreg, fun g hg hgnt => ?_⟩, ⟨?_, ?_⟩, Or.inl ⟨hidle, hpushed⟩⟩, hacc⟩
  · obtain ⟨-, hgcol, hagg, -⟩ := hcoarse g hg
    exact ⟨hgcol, hagg, one_le_fixedCount hrp hnew hg hgnt⟩
  · rw [hacc]
    exact fun a ha => by cases ha
  · rw [hacc]
    exact fun a ha => by cases ha

/-! ### What the files hold -/

/-- **The coarser files** of a counter with everything stored: a live bucket from the creation of
its file on is there if a quantum with records starts in it, and its sum is the sum of the totals of
the quanta that start in it. -/
theorem Stored.coarse_total (h : c.Stored fun _ => true) (hk : c.Kinds) {g : StatFile ℚ ℚ}
    (hg : g ∈ c.coarser) (hnt : g.shape.isTrailing = false) {i : ℤ} (hi : g.Live i)
    (hc : g.shape.fileCreateTime ≤ g.shape.mapBucketIndexToTime i) :
    let start := g.shape.mapBucketIndexToTime i
    let covers := fun q => decide (start ≤ q ∧ q < start + g.shape.cfgInterval)
    ((∃ a ∈ c.accepted, covers a.1 = true) → (g.bucketAt i).time = start) ∧
      ((g.bucketAt i).time = start →
        g.bucketAt i = g.shape.mergeAll (g.inQuantum i c.pushed) ∧
          (g.bucketAt i).sum_ = total covers c.accepted) := by
  intro start covers
  have hm := h.coarse g hg hnt
  have hsum : ((g.inQuantum i c.pushed).map Bucket.sum_).sum = total covers c.accepted := by
    have hs := h.sums covers
    simp only [Bool.and_true] at hs
    rw [← hs]
    unfold total StatFile.inQuantum
    rw [List.filter_map, List.map_map]
    rfl
  refine ⟨?_, fun ht => ?_⟩
  · rintro ⟨a, haa, hcov⟩
    obtain ⟨d, hd, hda⟩ := h.mem a haa rfl
    refine (hm.bucketAt_eq hi hc (List.ne_nil_of_mem (a := d) ?_)).1
    rw [StatFile.mem_inQuantum, hda]
    exact ⟨hd, of_decide_eq_true hcov⟩
  · have heq : g.bucketAt i = g.shape.mergeAll (g.inQuantum i c.pushed) := by
      by_cases hnil : g.inQuantum i c.pushed = []
      · rcases hm.bucketAt_of_nil hi hc hnil with hz | hne
        · rw [hz, hnil]
          rfl
        · exact absurd ht hne
      · exact (hm.bucketAt_eq hi hc hnil).2
    obtain ⟨hnc, hagg, hfix⟩ := hk.aggregate g hg hnt
    refine ⟨heq, ?_⟩
    rw [heq, (StatFile.mergeAll_sum_ hnc hagg hfix _).1, hsum]

/-- In a list with growing times a bucket is the only one of its time. -/
theorem total_of_pairwise {ds : List (Bucket ℚ ℚ)} {d : Bucket ℚ ℚ}
    (h : ds.Pairwise fun d d' => d.time < d'.time) (hd : d ∈ ds) :
    total (fun q => q = d.time) (ds.map fun e => (e.time, e.sum_)) = d.sum_ := by
  induction ds with
  | nil => cases hd
  | cons e ds ih =>
    obtain ⟨hlt, hrest⟩ := List.pairwise_cons.1 h
    rw [List.map_cons, total_cons]
    rcases List.mem_cons.1 hd with rfl | hd'
    · rw [if_pos (by simp), total_eq_zero, add_zero]
      intro a ha
      obtain ⟨d', hd', rfl⟩ := List.mem_map.1 ha
      exact decide_eq_false (hlt d' hd').ne'
    · rw [if_neg (by simpa using (hlt d hd').ne), zero_add, ih hrest hd']

/-- In one session every accepted quantum is pushed once, with its total. -/
theorem Stored.pushed_once (h : c.Stored fun _ => true)
    (hp : c.pushed.Pairwise fun d d' => d.time < d'.time) {a : ℤ × ℚ} (ha : a ∈ c.accepted) :
    ∃ d ∈ c.pushed, d.time = a.1 ∧ d.sum_ = total (fun q => q = a.1) c.accepted := by
  obtain ⟨d, hd, hda⟩ := h.mem a ha rfl
  refine ⟨d, hd, hda, ?_⟩
  have hs := h.sums fun q => q = d.time
  simp only [Bool.and_true] at hs
  rw [← total_of_pairwise hp hd, hs, hda]

/-! ### One session -/

/-- The calls of one session, with times from the creation of the files on, whose first accepted
record is five intervals or more above the epoch. -/
def InSession (c : StatCounter ℚ ℚ) : CounterOp ℚ → Prop
  | .record now time _ _ _ _ _ =>
    (∀ f ∈ c.fine :: c.coarser, f.shape.fileCreateTime ≤ time) ∧
      (c.Admits now time → (c.collations 0).time = 0 → 5 * c.collationInterval ≤ time)
  | .reopen _ => False
  | _ => True

instance (c : StatCounter ℚ ℚ) : ∀ op, Decidable (c.InSession op)
  | .record _ time _ _ _ _ _ => inferInstanceAs (Decidable
      ((∀ f ∈ c.fine :: c.coarser, f.shape.fileCreateTime ≤ time) ∧ (_ → _ → _)))
  | .flush _ => inferInstanceAs (Decidable True)
  | .forceFlush _ => inferInstanceAs (Decidable True)
  | .maybeShiftCollated _ _ => inferInstanceAs (Decidable True)
  | .reopen _ => inferInstanceAs (Decidable False)

/-- In the first session nothing is accepted before the window is set up. -/
theorem Conserved.accepted_nil (h : c.Conserved []) (h0 : (c.collations 0).time = 0) :
    c.accepted = [] := by
  rcases h.state with ⟨hi, hp⟩ | ⟨w, hact, -⟩
  · rw [List.eq_nil_iff_forall_not_mem]
    intro a ha
    obtain ⟨d, hd, -⟩ := hi.stored.mem a ha rfl
    rw [hp] at hd
    cases hd
  · exact absurd h0 hact.time_ne_zero

theorem Conserved.step_inSession (h : c.Conserved []) {op : CounterOp ℚ} (ho : c.InSession op) :
    ∃ c', c.step op = .ok c' ∧ c'.Conserved [] := by
  have horderly : c.Orderly op := by
    cases op with
    | record now time value valueSq min max cnt =>
      obtain ⟨hcreate, hfirst⟩ := ho
      refine fun had => ⟨fun g hg _ => hcreate g (by simp [hg]), fun h0 => ⟨hfirst had h0, ?_⟩⟩
      rw [h.accepted_nil h0]
      exact fun a ha => by cases ha
    | flush now => trivial
    | forceFlush now => trivial
    | maybeShiftCollated now t => trivial
    | reopen now => exact ho.elim
  obtain ⟨c', hc', -, h' | ⟨⟨now, rfl⟩, -⟩⟩ := h.step horderly
  · exact ⟨c', hc', h'⟩
  · exact ho.elim

/-- **Conservation in one session.**  A new collated counter, whose policy starts with a regular
interval, takes any calls of one session (`InSession`).  From its first accepted record on the
window has five consecutive multiples of the interval.  After a final full shift, the bucket of
every quantum with an accepted record that is in the window of the finest file has the total of the
quantum as its sum; every such quantum was passed to the coarser files once, with its total; and a
live bucket of a coarser file that is not trailing is the merge of the buckets passed to it for the
quanta that start in it, and its sum the sum of their totals. -/
theorem collation_conserved {sysPageSize clock zeroTime : ℤ} {rp : RetentionPolicy ℚ ℚ}
    {first : RetentionInterval ℚ ℚ} {rest : List (RetentionInterval ℚ ℚ)} {c₀ : StatCounter ℚ ℚ}
    (hrp : rp.intervals = first :: rest) (hreg : first.isSeason = false)
    (hnew : construct sysPageSize clock true zeroTime (first, none)
      (rest.map fun ri => (ri, none)) = .ok c₀)
    (ops : List (CounterOp ℚ)) (ho : Run.AlongOk StatCounter.step InSession c₀ ops) (now : ℤ) :
    ∃ c, ops.foldlM StatCounter.step c₀ = .ok c ∧
      (c.accepted ≠ [] → ∃ w, c.collationInterval ∣ w ∧
        ∀ k : Fin 5, (c.collations k).time = w + k * c.collationInterval) ∧
      let e := c.fullyShiftCollated now
      let index := fun q => e.fine.shape.mapTimeToBucketIndex q false
      (∀ a ∈ c.accepted, e.fine.Live (index a.1) →
        (e.fine.bucketAt (index a.1)).time = a.1 ∧
        (e.fine.bucketAt (index a.1)).sum_ = total (fun q => q = a.1) c.accepted) ∧
      (e.pushed.Pairwise (fun d d' => d.time < d'.time) ∧
        ∀ a ∈ c.accepted, ∃ d ∈ e.pushed,
          d.time = a.1 ∧ d.sum_ = total (fun q => q = a.1) c.accepted) ∧
      ∀ g ∈ e.coarser, g.shape.isTrailing = false → ∀ i, g.Live i →
        g.shape.fileCreateTime ≤ g.shape.mapBucketIndexToTime i →
        let start := g.shape.mapBucketIndexToTime i
        let covers := fun q => decide (start ≤ q ∧ q < start + g.shape.cfgInterval)
        ((∃ a ∈ c.accepted, covers a.1 = true) → (g.bucketAt i).time = start) ∧
        ((g.bucketAt i).time = start →
          g.bucketAt i = g.shape.mergeAll (g.inQuantum i e.pushed) ∧
          (g.bucketAt i).sum_ = total covers c.accepted) := by
  obtain ⟨c, hc, hcons⟩ := ho.exec (I := fun c => c.Conserved [])
    (fun c op h hop => h.step_inSession hop) (conserved_new hrp hreg hnew).1
  obtain ⟨⟨he, -⟩, hacc, hst, ⟨cur, hcur, hsorted⟩, -⟩ := hcons.drain
    (fun w hact a haa _ => hact.fullyShift_le hcons.accounts haa) now
  rw [List.nil_append] at hcur
  rw [← hcur] at hsorted
  refine ⟨c, hc, fun hne => ?_, fun a haa hlive => ?_, ⟨hsorted, fun a haa => ?_⟩,
    fun g hg hnt i hi hcreate => ?_⟩
  · rcases hcons.state with ⟨hi, hp⟩ | ⟨w, hact, -⟩
    · exact absurd (hcons.accepted_nil (hi.freshWindow 0)) hne
    · exact ⟨w, hact.window⟩
  · rw [← hacc] at haa ⊢
    exact (hst.fine a haa rfl).2 hlive
  · rw [← hacc] at haa ⊢
    exact hst.pushed_once hsorted haa
  · have := hst.coarse_total he.kinds hg hnt hi hcreate
    rwa [hacc] at this

/-! ### Several sessions -/

/-- **Conservation over sessions.**  A new collated counter, whose policy starts with a regular
interval, takes any orderly calls, is destroyed and constructed again any number of times, and in
the end is destroyed.  Then the bucket of every quantum with accepted records that is in the window
of the finest file has the total of the quantum over all sessions as its sum, and a live bucket of a
coarser file that is not trailing has the sum of the totals of the quanta that start in it. -/
theorem sessions_conserved {sysPageSize clock zeroTime : ℤ} {rp : RetentionPolicy ℚ ℚ}
    {first : RetentionInterval ℚ ℚ} {rest : List (RetentionInterval ℚ ℚ)} {c₀ : StatCounter ℚ ℚ}
    (hrp : rp.intervals = first :: rest) (hreg : first.isSeason = false)
    (hnew : construct sysPageSize clock true zeroTime (first, none)
      (rest.map fun ri => (ri, none)) = .ok c₀)
    (ops : List (CounterOp ℚ)) (now : ℤ)
    (ho : Run.AlongOk StatCounter.step Orderly c₀ (ops ++ [.reopen now])) :
    ∃ e, (ops ++ [CounterOp.reopen now]).foldlM StatCounter.step c₀ = .ok e ∧
      (∀ a ∈ e.accepted,
        let i := e.fine.shape.mapTimeToBucketIndex a.1 false
        e.fine.Live i → (e.fine.bucketAt i).time = a.1 ∧
          (e.fine.bucketAt i).sum_ = total (fun q => q = a.1) e.accepted) ∧
      ∀ g ∈ e.coarser, g.shape.isTrailing = false → ∀ i, g.Live i →
        g.shape.fileCreateTime ≤ g.shape.mapBucketIndexToTime i →
        let start := g.shape.mapBucketIndexToTime i
        let covers := fun q => decide (start ≤ q ∧ q < start + g.shape.cfgInterval)
        ((∃ a ∈ e.accepted, covers a.1 = true) → (g.bucketAt i).time = start) ∧
        ((g.bucketAt i).time = start → (g.bucketAt i).sum_ = total covers e.accepted) := by
  obtain ⟨c, hc, ⟨old, hcons⟩, hdrains⟩ := ho.exec_last
    (I := fun c : StatCounter ℚ ℚ => ∃ old, c.Conserved old)
    (fun c op ⟨old, h⟩ hop => by
      obtain ⟨c', hc', -, h' | ⟨-, h'⟩⟩ := h.step hop
      · exact ⟨c', hc', old, h'⟩
      · exact ⟨c', hc', _, h'⟩)
    ⟨[], (conserved_new hrp hreg hnew).1⟩
  obtain ⟨he, -, hst⟩ := hcons.reopen hdrains
  refine ⟨c.reopen now, hc, fun a haa hlive => (hst.fine a haa rfl).2 hlive,
    fun g hg hnt i hi hcreate => ?_⟩
  obtain ⟨h1, h2⟩ := hst.coarse_total he.kinds hg hnt hi hcreate
  exact ⟨h1, fun ht => (h2 ht).2⟩

end StatCounter

/-- The policy of the sample counter. -/
def samplePolicy : RetentionPolicy ℚ ℚ where
  intervals := [tenSeconds, oneMinute]
  ordered := List.pairwise_pair.2 fun _ => ⟨by decide +kernel, by decide⟩

/-- Three records of two quanta: the finest file has the totals. -/
theorem collation_conserved_sample :
    ∃ c, [recordAt 1000 10, recordAt 1003 10, recordAt 1020 10, .flush 1020].foldlM StatCounter.step
        sampleCounter = .ok c ∧
      ∀ a ∈ c.accepted,
        (c.fullyShiftCollated 1020).fine.Live
          ((c.fullyShiftCollated 1020).fine.shape.mapTimeToBucketIndex a.1 false) →
        ((c.fullyShiftCollated 1020).fine.bucketAt
          ((c.fullyShiftCollated 1020).fine.shape.mapTimeToBucketIndex a.1 false)).sum_ =
            total (fun q => q = a.1) c.accepted := by
  obtain ⟨c, hc, -, hfine, -⟩ := StatCounter.collation_conserved
    (show samplePolicy.intervals = [tenSeconds, oneMinute] from rfl)
    (by decide +kernel) sampleCounter_new
    [recordAt 1000 10, recordAt 1003 10, recordAt 1020 10, .flush 1020] (by decide +kernel) 1020
  exact ⟨c, hc, fun a ha hlive => (hfine a ha hlive).2⟩

/-- The first record at 45 is more than four intervals above the epoch, but its window starts at the
epoch; the record at 95 sets up a new window, and the quantum of the first never reaches the coarser
file, whose bucket of the first minute has the sum 0 where the records have the total 1. -/
theorem collation_conserved_epoch :
    ∃ c, [recordAt 45 10, recordAt 95 10].foldlM StatCounter.step sampleCounter = .ok c ∧
      (c.fullyShiftCollated 95).coarser.map (fun g => ((g.bucketAt 0).time, (g.bucketAt 0).sum_)) =
        [(0, 0)] ∧
      total (fun q => 0 ≤ q ∧ q < 60) c.accepted = 1 := by
  obtain ⟨c, hc, hval⟩ := Run.exists_ok_of_toOption_map (show
    ([recordAt 45 10, recordAt 95 10].foldlM StatCounter.step sampleCounter).toOption.map
      (fun c => ((c.fullyShiftCollated 95).coarser.map fun g =>
          ((g.bucketAt 0).time, (g.bucketAt 0).sum_),
        total (fun q => 0 ≤ q ∧ q < 60) c.accepted)) = some ([(0, 0)], 1) by decide +kernel)
  simp only [Prod.mk.injEq] at hval
  exact ⟨c, hc, hval⟩

/-- Two sessions far enough apart. -/
theorem sessions_conserved_sample :
    ∃ e, ([recordAt 1000 10, recordAt 1003 10, .reopen 1400, recordAt 2000 10] ++
        [CounterOp.reopen 2400]).foldlM StatCounter.step sampleCounter = .ok e ∧
      ∀ a ∈ e.accepted, e.fine.Live (e.fine.shape.mapTimeToBucketIndex a.1 false) →
        (e.fine.bucketAt (e.fine.shape.mapTimeToBucketIndex a.1 false)).sum_ =
          total (fun q => q = a.1) e.accepted := by
  obtain ⟨e, he, hfine, -⟩ := StatCounter.sessions_conserved
    (show samplePolicy.intervals = [tenSeconds, oneMinute] from rfl)
    (by decide +kernel) sampleCounter_new
    [recordAt 1000 10, recordAt 1003 10, .reopen 1400, recordAt 2000 10] 2400 (by decide +kernel)
  exact ⟨e, he, fun a ha hlive => (hfine a ha hlive).2⟩

/-- A record at 1000, the counter destroyed at once and constructed again, a record at 1020, and the
counter destroyed later: the second window reaches back to 1000 and overwrites its bucket with an
empty one, and neither destructor has pushed the record to the coarser file. -/
theorem sessions_conserved_overwritten :
    ∃ e, [recordAt 1000 10, .reopen 1000, recordAt 1020 10, .reopen 1400].foldlM StatCounter.step
        sampleCounter = .ok e ∧
      ((e.fine.bucketAt 100).time = 1000 ∧ (e.fine.bucketAt 100).sum_ = 0 ∧
        total (fun q => q = 1000) e.accepted = 1) ∧
      e.coarser.map (fun g => ((g.bucketAt 16).time, (g.bucketAt 16).sum_)) = [(960, 0)] ∧
        total (fun q => 960 ≤ q ∧ q < 1020) e.accepted = 1 := by
  obtain ⟨e, he, hval⟩ := Run.exists_ok_of_toOption_map (show
    ([recordAt 1000 10, .reopen 1000, recordAt 1020 10, .reopen 1400].foldlM StatCounter.step
      sampleCounter).toOption.map (fun e => (((e.fine.bucketAt 100).time,
        (e.fine.bucketAt 100).sum_, total (fun q => q = 1000) e.accepted),
        e.coarser.map (fun g => ((g.bucketAt 16).time, (g.bucketAt 16).sum_)),
        total (fun q => 960 ≤ q ∧ q < 1020) e.accepted)) =
      some ((1000, 0, 1), [(960, 0)], 1) by decide +kernel)
  simp only [Prod.mk.injEq] at hval
  exact ⟨e, he, hval⟩

end Istatd
