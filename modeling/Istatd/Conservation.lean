import Istatd.CoarseFile
import Istatd.Collation

/-!
# Conservation of collated records

A collated counter adds its records up in memory and gives every file its share: the finest file is
to hold the total of each quantum, the coarser files the totals of the quanta that start in each of
their buckets.  All sums here are exact (`ℚ`).

`accepted` lists the quanta and values that reached the window.  In an active counter the window
starts at some `w > 0`: its five buckets hold the totals of their quanta, and everything before `w`
is stored (`Stored`).  An idle counter, without a window, has everything stored.

* `Active.shift`: a shift pushes the oldest bucket and keeps all this;
* `Active.add`: so does an accepted record;
* `Conserved`: the invariant of a counter, active or idle, over any number of sessions.
-/

namespace Istatd

/-! ### Totals -/

/-- The sum of the values whose quantum satisfies `p`. -/
def total (p : ℤ → Bool) (acc : List (ℤ × ℚ)) : ℚ :=
  ((acc.filter fun a => p a.1).map Prod.snd).sum

section Total

variable {p r : ℤ → Bool} {acc : List (ℤ × ℚ)} {a : ℤ × ℚ}

theorem total_cons : total p (a :: acc) = (if p a.1 then a.2 else 0) + total p acc := by
  unfold total
  by_cases h : p a.1 <;> simp [h]

theorem total_append : total p (acc ++ [a]) = total p acc + if p a.1 then a.2 else 0 := by
  unfold total
  by_cases h : p a.1 <;> simp [h]

theorem total_congr (h : ∀ a ∈ acc, p a.1 = r a.1) : total p acc = total r acc := by
  unfold total
  rw [List.filter_congr h]

theorem total_eq_zero (h : ∀ a ∈ acc, p a.1 = false) : total p acc = 0 := by
  unfold total
  rw [List.filter_eq_nil_iff.2 fun a ha => by simp [h a ha]]
  rfl

/-- Totals of disjoint sets of quanta add up. -/
theorem total_add (h : ∀ a ∈ acc, p a.1 = true → r a.1 = false) :
    total (fun q => p q || r q) acc = total p acc + total r acc := by
  induction acc with
  | nil => simp [total]
  | cons a acc ih =>
    rw [total_cons, total_cons, total_cons, ih fun b hb => h b (by simp [hb])]
    have ha := h a (by simp)
    by_cases hp : p a.1 = true
    · simp [hp, ha hp, add_assoc]
    · simp only [Bool.not_eq_true] at hp
      simp only [hp, Bool.false_or]
      by_cases hr : r a.1 = true
      · simp only [hr, if_true, Bool.false_eq_true, if_false]
        ring
      · simp [hr]

end Total

/-! ### The finest file -/

/-- A collated file keeps a copy of the data. -/
theorem mergeData_of_collated {D F : Type} [FloatArith D F] {sh : Shape D}
    (h : sh.isCollated = true) (d b : Bucket D F) : (mergeData sh .aggregate d b).1 = d := by
  unfold mergeData
  rw [if_neg (by decide), if_pos (Or.inl h)]

namespace StatFile

variable {f : StatFile ℚ ℚ} {acc : List (ℤ × ℚ)} {S S' : ℤ → Bool} {b : Bucket ℚ ℚ} {now : ℤ}

/-- The file holds the totals of the quanta in `S`, as far as these are in its window. -/
def HoldsTotals (f : StatFile ℚ ℚ) (acc : List (ℤ × ℚ)) (S : ℤ → Bool) : Prop :=
  ∀ a ∈ acc, S a.1 = true →
    f.shape.mapTimeToBucketIndex a.1 false ≤ f.header.lastBucket ∧
      (f.Live (f.shape.mapTimeToBucketIndex a.1 false) →
        (f.bucketAt (f.shape.mapTimeToBucketIndex a.1 false)).time = a.1 ∧
        (f.bucketAt (f.shape.mapTimeToBucketIndex a.1 false)).sum_ = total (fun q => q = a.1) acc)

/-- **A write to the finest file**: the quanta of the set remain held, and that of the bucket is
held if the bucket has its total. -/
theorem HoldsTotals.write (h : f.HoldsTotals acc S) (hcol : f.shape.isCollated = true)
    (hnt : f.shape.isTrailing = false) (hgrid : ∀ a ∈ acc, f.shape.cfgInterval ∣ a.1)
    (hb : f.shape.cfgInterval ∣ b.time)
    (hS : ∀ a ∈ acc, S' a.1 = true → a.1 ≠ b.time ∧ S a.1 = true ∨
      a.1 = b.time ∧ b.sum_ = total (fun q => q = a.1) acc) :
    (f.updateBucket now b).2.HoldsTotals acc S' := by
  intro a ha hSa
  rw [updateBucket_shape, updateBucket_lastBucket]
  rcases hS a ha hSa with ⟨hne, hSa'⟩ | ⟨heq, hsum⟩
  · obtain ⟨hle, hheld⟩ := h a ha hSa'
    refine ⟨hle.trans (le_max_left _ _), fun hlive => ?_⟩
    rw [updateBucket_bucketAt_of_ne now b hnt hlive]
    · exact hheld ⟨lt_of_live_updateBucket now b hlive, hle⟩
    · intro he
      apply hne
      rw [← mapBucketIndexToTime_mapTimeToBucketIndex (hgrid a ha),
        ← mapBucketIndexToTime_mapTimeToBucketIndex hb, he]
      rfl
  · have htarget : f.target b = f.shape.mapTimeToBucketIndex a.1 false := by rw [heq]; rfl
    refine ⟨htarget ▸ le_max_right _ _, fun hlive => ?_⟩
    have hacc : f.Accepts b := by
      unfold Accepts
      rw [htarget]
      exact lt_of_live_updateBucket now b hlive
    rw [updateBucket_bucketAt now b hnt hacc, if_pos (by rw [htarget]),
      mergeData_of_collated hcol]
    exact ⟨heq.symm, hsum⟩

/-- Writes of other quanta. -/
theorem HoldsTotals.writes {bs : List (Bucket ℚ ℚ)} (h : f.HoldsTotals acc S)
    (hcol : f.shape.isCollated = true) (hnt : f.shape.isTrailing = false)
    (hgrid : ∀ a ∈ acc, f.shape.cfgInterval ∣ a.1)
    (hbs : ∀ b ∈ bs, f.shape.cfgInterval ∣ b.time ∧ S b.time = false) :
    (bs.foldl (fun f b => (f.updateBucket now b).2) f).HoldsTotals acc S := by
  induction bs generalizing f with
  | nil => exact h
  | cons b bs ih =>
    obtain ⟨hb, hSb⟩ := hbs b (by simp)
    have hsh := updateBucket_shape (f := f) now b
    refine ih (h.write hcol hnt hgrid hb fun a _ hSa => Or.inl ⟨?_, hSa⟩) ?_ ?_ ?_ ?_
    · rintro he
      rw [he, hSb] at hSa
      cases hSa
    · rw [hsh]; exact hcol
    · rw [hsh]; exact hnt
    · rw [hsh]; exact hgrid
    · rw [hsh]
      exact fun b' hb' => hbs b' (by simp [hb'])

/-- A value outside the set changes no total of the set. -/
theorem HoldsTotals.append {a : ℤ × ℚ} (h : f.HoldsTotals acc S) (ha : S a.1 = false) :
    f.HoldsTotals (acc ++ [a]) S := by
  intro b hb hSb
  have hne : a.1 ≠ b.1 := fun he => by rw [he, hSb] at ha; cases ha
  have hmem : b ∈ acc := by
    rcases List.mem_append.1 hb with hb | hb
    · exact hb
    · rw [List.mem_singleton.1 hb] at hne
      exact absurd rfl hne
  rw [total_append, if_neg (by simpa using hne), add_zero]
  exact h b hmem hSb

/-- The statement is about the shape, the head and the ring only. -/
theorem HoldsTotals.congr {f' : StatFile ℚ ℚ} (h : f.HoldsTotals acc S) (hsh : f'.shape = f.shape)
    (hlast : f'.header.lastBucket = f.header.lastBucket) (hat : ∀ j, f'.bucketAt j = f.bucketAt j) :
    f'.HoldsTotals acc S := by
  intro a ha hSa
  unfold Live
  rw [hsh, hlast, hat]
  exact h a ha hSa

end StatFile

/-! ### The counter -/

namespace StatCounter

variable {c : StatCounter ℚ ℚ} {S S' : ℤ → Bool} {now w t : ℤ} {old : List (Bucket ℚ ℚ)}

/-- The kinds of the files of a collated counter, as its constructor makes them, for a policy that
starts with a regular interval. -/
structure Kinds (c : StatCounter ℚ ℚ) : Prop where
  collated : c.isCollated = true
  notTrailing : c.fine.shape.isTrailing = false
  aggregate : ∀ g ∈ c.coarser, g.shape.isTrailing = false →
    g.shape.isCollated = false ∧ g.shape.isCounterAggregate = true ∧
      1 ≤ toInt32 g.shape.fixedCount

/-- The accepted records are on the grid, and none was before the creation of a coarser file. -/
structure Accounts (c : StatCounter ℚ ℚ) : Prop where
  grid : ∀ a ∈ c.accepted, c.collationInterval ∣ a.1
  created : ∀ a ∈ c.accepted, ∀ g ∈ c.coarser, g.shape.isTrailing = false →
    g.shape.fileCreateTime < a.1 + c.collationInterval

/-- The quanta in `S` are stored in the files. -/
structure Stored (c : StatCounter ℚ ℚ) (S : ℤ → Bool) : Prop where
  fine : c.fine.HoldsTotals c.accepted S
  coarse : ∀ g ∈ c.coarser, g.shape.isTrailing = false → g.Merges c.pushed
  sums : ∀ p, total p (c.pushed.map fun d => (d.time, d.sum_)) =
    total (fun q => p q && S q) c.accepted
  mem : ∀ a ∈ c.accepted, S a.1 = true → ∃ d ∈ c.pushed, d.time = a.1

/-- The window starts at `w` and holds the totals of its quanta.  What was pushed before the window
was set up is `old`; the buckets pushed since are in order and before the window. -/
structure Active (c : StatCounter ℚ ℚ) (w : ℤ) (old : List (Bucket ℚ ℚ)) : Prop where
  window : c.WindowAt w
  pos : 0 < w
  bucket_time : ∀ k, (c.collations k).bucket.time = (c.collations k).time
  bucket_sum : ∀ k, (c.collations k).bucket.sum_ =
    total (fun q => q = (c.collations k).time) c.accepted
  writes : ∀ k, ∀ a ∈ c.accepted, a.1 = (c.collations k).time → 0 < (c.collations k).writes
  below : ∀ a ∈ c.accepted, a.1 < w + 5 * c.collationInterval
  pushed : ∃ cur, c.pushed = old ++ cur ∧ cur.Pairwise (fun d e => d.time < e.time) ∧
    ∀ d ∈ cur, d.time < w
  created : old = [] ∨ ∀ g ∈ c.coarser, g.shape.isTrailing = false → g.shape.fileCreateTime ≤ w
  stored : c.Stored fun q => q < w

/-- The files of `c'` have the shapes of the files of `c`. -/
structure SameShapes (c c' : StatCounter ℚ ℚ) : Prop where
  fine : c'.fine.shape = c.fine.shape
  coarser : ∀ g' ∈ c'.coarser, ∃ g ∈ c.coarser, g'.shape = g.shape

theorem SameShapes.collationInterval {c' : StatCounter ℚ ℚ} (h : SameShapes c c') :
    c'.collationInterval = c.collationInterval := congrArg Shape.cfgInterval h.fine

theorem Kinds.congr {c' : StatCounter ℚ ℚ} (h : c.Kinds) (hs : SameShapes c c') : c'.Kinds where
  collated := by unfold isCollated; rw [hs.fine]; exact h.collated
  notTrailing := by rw [hs.fine]; exact h.notTrailing
  aggregate := fun g' hg' hnt => by
    obtain ⟨g, hg, he⟩ := hs.coarser g' hg'
    rw [he] at hnt ⊢
    exact h.aggregate g hg hnt

theorem Accounts.congr {c' : StatCounter ℚ ℚ} (h : c.Accounts) (hs : SameShapes c c')
    (hacc : c'.accepted = c.accepted) : c'.Accounts where
  grid := by rw [hacc, hs.collationInterval]; exact h.grid
  created := fun a ha g' hg' hnt => by
    obtain ⟨g, hg, he⟩ := hs.coarser g' hg'
    rw [hacc] at ha
    rw [he] at hnt ⊢
    rw [hs.collationInterval]
    exact h.created a ha g hg hnt

theorem shiftCollated_of_ne (h0 : (c.collations 0).time ≠ 0) :
    c.shiftCollated now = (true, { c with
      fine := c.writeCollations now
      coarser := c.coarser.map fun f => (f.updateBucket now (c.collations 0).bucket).2
      collations := ![c.collations 1, c.collations 2, c.collations 3, c.collations 4,
        CollationInfo.ofTime ((c.collations 4).time + c.collationInterval)]
      pushed := c.pushed ++ [(c.collations 0).bucket] }) := if_neg h0

/-- The window is written oldest bucket first. -/
theorem writeCollations_eq (c : StatCounter ℚ ℚ) (now : ℤ) :
    c.writeCollations now =
      [(c.collations 1).bucket, (c.collations 2).bucket, (c.collations 3).bucket,
        (c.collations 4).bucket].foldl (fun f b => (f.updateBucket now b).2)
        (c.fine.updateBucket now (c.collations 0).bucket).2 := rfl

namespace Active

theorem windowed (h : c.Active w old) : c.Windowed := Or.inr ⟨w, h.window⟩

theorem le_time (h : c.Active w old) (k : Fin 5) : w ≤ (c.collations k).time := by
  rw [h.window.2 k]
  have := mul_nonneg (Int.natCast_nonneg (k : ℕ)) c.collationInterval_pos.le
  linarith

theorem time_inj (h : c.Active w old) {k l : Fin 5}
    (hkl : (c.collations k).time = (c.collations l).time) : k = l := by
  rw [h.window.2 k, h.window.2 l] at hkl
  have := c.collationInterval_pos
  have hmul : ((k : ℕ) : ℤ) * c.collationInterval = ((l : ℕ) : ℤ) * c.collationInterval := by
    linarith
  have := mul_right_cancel₀ this.ne' hmul
  exact Fin.ext (by exact_mod_cast this)

/-- The finest file after a shift: the quantum that leaves the window is stored as well. -/
theorem writeCollations_holds (h : c.Active w old) (hk : c.Kinds) (ha : c.Accounts) :
    (c.writeCollations now).HoldsTotals c.accepted fun q => q < w + c.collationInterval := by
  have hpos := c.collationInterval_pos
  have htime : ∀ k, (c.collations k).bucket.time = (c.collations k).time := h.bucket_time
  rw [writeCollations_eq]
  have hfirst : (c.fine.updateBucket now (c.collations 0).bucket).2.HoldsTotals c.accepted
      fun q => q < w + c.collationInterval := by
    refine h.stored.fine.write hk.collated hk.notTrailing ha.grid ?_ fun a haa hlt => ?_
    · rw [htime]
      exact h.windowed.time_dvd 0
    · rw [htime, h.window.time_zero]
      have hlt' : a.1 < w + c.collationInterval := of_decide_eq_true hlt
      by_cases hw : a.1 = w
      · right
        refine ⟨hw, ?_⟩
        rw [h.bucket_sum 0, h.window.time_zero, hw]
      · left
        have := Grid.le_of_lt_add_of_dvd hpos h.window.1 (ha.grid a haa) hlt'
        exact ⟨hw, decide_eq_true (lt_of_le_of_ne this hw)⟩
  refine hfirst.writes ?_ ?_ ?_ ?_
  · rw [StatFile.updateBucket_shape]; exact hk.collated
  · rw [StatFile.updateBucket_shape]; exact hk.notTrailing
  · rw [StatFile.updateBucket_shape]; exact ha.grid
  · rw [StatFile.updateBucket_shape]
    have hkth : ∀ k : Fin 5, k ≠ 0 → c.fine.shape.cfgInterval ∣ (c.collations k).bucket.time ∧
        decide ((c.collations k).bucket.time < w + c.collationInterval) = false := by
      intro k hk0
      rw [htime]
      refine ⟨h.windowed.time_dvd k, decide_eq_false ?_⟩
      have hne : w ≠ (c.collations k).time := fun he =>
        hk0 (h.time_inj (by rw [h.window.time_zero, ← he])).symm
      have := Grid.add_le_of_lt_of_dvd hpos h.window.1 (h.windowed.time_dvd k)
        (lt_of_le_of_ne (h.le_time k) hne)
      omega
    intro b hb
    simp only [List.mem_cons, List.not_mem_nil, or_false] at hb
    rcases hb with rfl | rfl | rfl | rfl
    · exact hkth 1 (by decide)
    · exact hkth 2 (by decide)
    · exact hkth 3 (by decide)
    · exact hkth 4 (by decide)

theorem time_ne_zero (h : c.Active w old) : (c.collations 0).time ≠ 0 := by
  rw [h.window.time_zero]
  exact h.pos.ne'

/-- Between the start of the window and the next interval there is one quantum. -/
theorem lt_add_iff (h : c.Active w old) {q : ℤ} (hq : c.collationInterval ∣ q) :
    q < w + c.collationInterval ↔ q < w ∨ q = w := by
  have hpos := c.collationInterval_pos
  constructor
  · exact fun hlt => (Grid.le_of_lt_add_of_dvd hpos h.window.1 hq hlt).lt_or_eq
  · rintro (hlt | rfl)
    · omega
    · omega

theorem shift_sameShapes (h : c.Active w old) : SameShapes c (c.shiftCollated now).2 where
  fine := shiftCollated_fine_shape c now
  coarser := fun g' hg' => by
    rw [shiftCollated_of_ne h.time_ne_zero] at hg'
    obtain ⟨g, hg, rfl⟩ := List.mem_map.1 hg'
    exact ⟨g, hg, StatFile.updateBucket_shape _ _⟩

/-- The total up to the next interval: that of what is before the window, and of its first quantum. -/
theorem total_lt_add (h : c.Active w old) (ha : c.Accounts) (p : ℤ → Bool) :
    total (fun q => p q && decide (q < w + c.collationInterval)) c.accepted =
      total (fun q => p q && decide (q < w)) c.accepted +
        if p w = true then total (fun q => decide (q = w)) c.accepted else 0 := by
  have hsplit : total (fun q => p q && decide (q < w + c.collationInterval)) c.accepted =
      total (fun q => (p q && decide (q < w)) || (p q && decide (q = w))) c.accepted := by
    refine total_congr fun a haa => ?_
    rw [decide_eq_decide.2 (h.lt_add_iff (ha.grid a haa)), Bool.decide_or,
      Bool.and_or_distrib_left]
  rw [hsplit, total_add]
  · congr 1
    by_cases hp : p w = true
    · rw [if_pos hp]
      apply total_congr
      intro a _
      by_cases haw : a.1 = w
      · simp [haw, hp]
      · simp [haw]
    · rw [if_neg hp]
      apply total_eq_zero
      intro a _
      by_cases haw : a.1 = w
      · simpa [haw] using hp
      · simp [haw]
  · intro a _ hpa
    simp only [Bool.and_eq_true, decide_eq_true_eq] at hpa
    simp only [Bool.and_eq_false_iff, decide_eq_false_iff_not]
    exact Or.inr (by omega)

/-- What a shift stores. -/
theorem shift_stored (h : c.Active w old) (hk : c.Kinds) (ha : c.Accounts) :
    (c.shiftCollated now).2.Stored fun q => q < w + c.collationInterval := by
  have htime : (c.collations 0).bucket.time = w := by rw [h.bucket_time, h.window.time_zero]
  rw [shiftCollated_of_ne h.time_ne_zero]
  refine ⟨h.writeCollations_holds hk ha, ?_, fun p => ?_, fun a haa hlt => ?_⟩
  · intro g' hg' hnt
    obtain ⟨g, hg, rfl⟩ := List.mem_map.1 hg'
    rw [StatFile.updateBucket_shape] at hnt
    apply (h.stored.coarse g hg hnt).push hnt (hk.aggregate g hg hnt).1
    · rw [htime]
      exact h.pos.le
    · rw [htime]
      rcases h.created with rfl | hcreated
      · obtain ⟨cur, hcur, -, hlt⟩ := h.pushed
        rw [hcur]
        exact Or.inr hlt
      · exact Or.inl (hcreated g hg hnt)
  · show total p ((c.pushed ++ [(c.collations 0).bucket]).map fun d => (d.time, d.sum_)) = _
    rw [List.map_append, List.map_singleton, total_append, h.stored.sums, htime, h.bucket_sum 0,
      h.window.time_zero]
    exact (h.total_lt_add ha p).symm
  · rcases (h.lt_add_iff (ha.grid a haa)).1 (of_decide_eq_true hlt) with hlt' | rfl
    · obtain ⟨d, hd, hdt⟩ := h.stored.mem a haa (decide_eq_true hlt')
      exact ⟨d, List.mem_append_left _ hd, hdt⟩
    · exact ⟨_, List.mem_append_right _ (List.mem_singleton.2 rfl), htime⟩

/-- The collations after a shift: the later four, and a new one. -/
theorem shift_collations (h : c.Active w old) {P : CollationInfo ℚ ℚ → Prop}
    (hstay : ∀ k, P (c.collations k))
    (hnew : P (CollationInfo.ofTime ((c.collations 4).time + c.collationInterval))) (k : Fin 5) :
    P ((c.shiftCollated now).2.collations k) := by
  rw [shiftCollated_of_ne h.time_ne_zero]
  fin_cases k
  · exact hstay 1
  · exact hstay 2
  · exact hstay 3
  · exact hstay 4
  · exact hnew

theorem shift_pushed (h : c.Active w old) :
    ∃ cur, (c.shiftCollated now).2.pushed = old ++ cur ∧
      cur.Pairwise (fun d e => d.time < e.time) ∧ ∀ d ∈ cur, d.time < w + c.collationInterval := by
  have hpos := c.collationInterval_pos
  obtain ⟨cur, hcur, hsorted, hlt⟩ := h.pushed
  have htime : (c.collations 0).bucket.time = w := by rw [h.bucket_time, h.window.time_zero]
  refine ⟨cur ++ [(c.collations 0).bucket], ?_, ?_, ?_⟩
  · rw [shiftCollated_of_ne h.time_ne_zero]
    show c.pushed ++ _ = _
    rw [hcur, List.append_assoc]
  · refine List.pairwise_append.2 ⟨hsorted, List.pairwise_singleton _ _, fun d hd e he => ?_⟩
    rw [List.mem_singleton.1 he, htime]
    exact hlt d hd
  · intro d hd
    rcases List.mem_append.1 hd with hd | hd
    · have := hlt d hd
      omega
    · rw [List.mem_singleton.1 hd, htime]
      omega

/-- **A shift** moves the window up and stores the quantum that leaves it. -/
theorem shift (h : c.Active w old) (hk : c.Kinds) (ha : c.Accounts) :
    (c.shiftCollated now).2.Active (w + c.collationInterval) old := by
  have hpos := c.collationInterval_pos
  have hI := c.shiftCollated_collationInterval now
  have hacc : (c.shiftCollated now).2.accepted = c.accepted := by
    rw [shiftCollated_of_ne h.time_ne_zero]
  -- nothing was accepted for the quantum that enters the window
  have hnew : ∀ a ∈ c.accepted, a.1 ≠ (c.collations 4).time + c.collationInterval := by
    intro a haa he
    have := h.below a haa
    rw [he, h.window.time_four] at this
    linarith
  refine ⟨(h.window.shiftCollated h.pos.ne' now).2, by have := h.pos; omega, ?_, ?_, ?_,
    fun a haa => ?_, h.shift_pushed, ?_, h.shift_stored hk ha⟩
  · exact h.shift_collations (P := fun cl => cl.bucket.time = cl.time) h.bucket_time rfl
  · rw [hacc]
    apply h.shift_collations
      (P := fun cl => cl.bucket.sum_ = total (fun q => q = cl.time) c.accepted) h.bucket_sum
    exact (total_eq_zero fun a haa => decide_eq_false (hnew a haa)).symm
  · rw [hacc]
    apply h.shift_collations
      (P := fun cl => ∀ a ∈ c.accepted, a.1 = cl.time → 0 < cl.writes) h.writes
    exact fun a haa he => absurd he (hnew a haa)
  · rw [hacc] at haa
    rw [hI]
    have := h.below a haa
    omega
  · refine h.created.imp_right fun hcreated g' hg' hnt => ?_
    obtain ⟨g, hg, he⟩ := h.shift_sameShapes.coarser g' hg'
    rw [he] at hnt ⊢
    have := hcreated g hg hnt
    omega

end Active

theorem SameShapes.refl (c : StatCounter ℚ ℚ) : SameShapes c c :=
  ⟨rfl, fun g hg => ⟨g, hg, rfl⟩⟩

theorem SameShapes.trans {c' c'' : StatCounter ℚ ℚ} (h : SameShapes c c') (h' : SameShapes c' c'') :
    SameShapes c c'' where
  fine := h'.fine.trans h.fine
  coarser := fun g'' hg'' => by
    obtain ⟨g', hg', he'⟩ := h'.coarser g'' hg''
    obtain ⟨g, hg, he⟩ := h.coarser g' hg'
    exact ⟨g, hg, he'.trans he⟩

/-- **Any number of shifts**, up to a time. -/
theorem Active.maybeShiftCollated (h : c.Active w old) (hk : c.Kinds) (ha : c.Accounts)
    (now t : ℤ) :
    ∃ w', (c.maybeShiftCollated now t).Active w' old ∧
      SameShapes c (c.maybeShiftCollated now t) ∧
      (c.maybeShiftCollated now t).accepted = c.accepted ∧ w ≤ w' ∧
      t < w' + 5 * c.collationInterval := by
  obtain ⟨⟨w', hact⟩, hs, hacc⟩ := maybeShiftCollated_induction now t
    (P := fun c' => (∃ w', c'.Active w' old) ∧ SameShapes c c' ∧ c'.accepted = c.accepted)
    (fun c' ⟨⟨w', h'⟩, hs, hacc⟩ =>
      ⟨⟨_, h'.shift (hk.congr hs) (ha.congr hs hacc)⟩, hs.trans h'.shift_sameShapes, by
        rw [shiftCollated_of_ne h'.time_ne_zero]
        exact hacc⟩)
    ⟨⟨w, h⟩, SameShapes.refl c, rfl⟩
  obtain ⟨w'', hw'', -, hle, -, -, hexit⟩ := h.window.maybeShiftCollated hk.collated now t
  obtain rfl : w' = w'' := by rw [← hact.window.time_zero, hw''.time_zero]
  have := hact.pos
  exact ⟨w', hact, hs, hacc, hle, hexit.resolve_right (by omega)⟩

/-! ### Records -/

theorem addCollated_sameShapes (c : StatCounter ℚ ℚ) (now : ℤ) (i : Fin 5) (t : ℤ) (v : ℚ) :
    SameShapes c (c.addCollated now i t v) where
  fine := addCollated_fine_shape c i v
  coarser := fun g hg => ⟨g, hg, rfl⟩

/-- The bucket of a slot keeps the time of the slot. -/
theorem Active.collatedUpdate_time (h : c.Active w old) (i : Fin 5) (v : ℚ) :
    ((c.collations i).bucket.collatedUpdate v (c.collations i).time).time =
      (c.collations i).time := by
  unfold Bucket.collatedUpdate
  simp only
  split_ifs
  · rfl
  · exact h.bucket_time i

/-- A record accepted for the window does not touch what is stored. -/
theorem Active.add_stored (h : c.Active w old) (hk : c.Kinds) (ha : c.Accounts) (i : Fin 5)
    (v : ℚ) : (c.addCollated now i (c.collations i).time v).Stored fun q => q < w := by
  have hge : decide ((c.collations i).time < w) = false :=
    decide_eq_false (not_lt.2 (h.le_time i))
  have hfine : c.fine.HoldsTotals (c.accepted ++ [((c.collations i).time, v)]) fun q => q < w :=
    h.stored.fine.append hge
  have hgrid : ∀ a ∈ c.accepted ++ [((c.collations i).time, v)],
      c.fine.shape.cfgInterval ∣ a.1 := by
    intro a haa
    rcases List.mem_append.1 haa with haa | haa
    · exact ha.grid a haa
    · rw [List.mem_singleton.1 haa]
      exact h.windowed.time_dvd i
  refine ⟨?_, h.stored.coarse, fun p => ?_, fun a haa hlt => ?_⟩
  · show (if _ then _ else c.fine : StatFile ℚ ℚ).HoldsTotals _ _
    split_ifs
    · refine hfine.write hk.collated hk.notTrailing hgrid ?_ fun a _ hlt => Or.inl ⟨?_, hlt⟩
      · rw [h.collatedUpdate_time]
        exact h.windowed.time_dvd i
      · rw [h.collatedUpdate_time]
        rintro he
        rw [he] at hlt
        exact absurd (of_decide_eq_true hlt) (not_lt.2 (h.le_time i))
    · exact hfine
  · show _ = total _ (c.accepted ++ [((c.collations i).time, v)])
    rw [total_append]
    simp only [hge, Bool.and_false, Bool.false_eq_true, if_false, add_zero]
    exact h.stored.sums p
  · rcases List.mem_append.1 haa with haa | haa
    · exact h.stored.mem a haa hlt
    · rw [List.mem_singleton.1 haa] at hlt
      exact absurd (of_decide_eq_true hlt) (not_lt.2 (h.le_time i))

/-- **An accepted record** is added to its slot of the window. -/
theorem Active.add (h : c.Active w old) (hk : c.Kinds) (ha : c.Accounts) (i : Fin 5) (v : ℚ) :
    (c.addCollated now i (c.collations i).time v).Active w old := by
  have hI := (c.addCollated_sameShapes now i (c.collations i).time v).collationInterval
  have htimes : ∀ k, ((c.addCollated now i (c.collations i).time v).collations k).time =
      (c.collations k).time := fun k => addCollated_time c i k v
  have hself : (c.addCollated now i (c.collations i).time v).collations i =
      ⟨(c.collations i).bucket.collatedUpdate v (c.collations i).time,
        (c.collations i).writes + 1, (c.collations i).time⟩ := Function.update_self ..
  have hother : ∀ k, k ≠ i → (c.addCollated now i (c.collations i).time v).collations k =
      c.collations k := fun k hk => Function.update_of_ne hk ..
  have hacc : (c.addCollated now i (c.collations i).time v).accepted =
      c.accepted ++ [((c.collations i).time, v)] := rfl
  have hlt5 : (c.collations i).time < w + 5 * c.collationInterval := by
    rw [h.window.2 i]
    have hi4 : ((i : ℕ) : ℤ) ≤ 4 := by have := i.isLt; omega
    nlinarith [c.collationInterval_pos]
  refine ⟨⟨by rw [hI]; exact h.window.1, fun k => by rw [htimes, hI]; exact h.window.2 k⟩, h.pos,
    fun k => ?_, fun k => ?_, fun k a haa hat => ?_, fun a haa => ?_, h.pushed, h.created,
    h.add_stored hk ha i v⟩
  · by_cases hki : k = i
    · subst hki
      rw [hself]
      exact h.collatedUpdate_time k v
    · rw [hother k hki]
      exact h.bucket_time k
  · rw [htimes, hacc, total_append]
    by_cases hki : k = i
    · subst hki
      rw [hself, if_pos (by simp)]
      show (c.collations k).bucket.sum_ + v = _
      rw [h.bucket_sum k]
    · rw [hother k hki, if_neg (by simpa using fun he => hki (h.time_inj he).symm), add_zero]
      exact h.bucket_sum k
  · by_cases hki : k = i
    · subst hki
      rw [hself]
      exact Nat.succ_pos _
    · rw [hother k hki] at hat ⊢
      rw [hacc] at haa
      rcases List.mem_append.1 haa with haa | haa
      · exact h.writes k a haa hat
      · rw [List.mem_singleton.1 haa] at hat
        exact absurd (h.time_inj hat).symm hki
  · rw [hacc] at haa
    rw [hI]
    rcases List.mem_append.1 haa with haa | haa
    · exact h.below a haa
    · rw [List.mem_singleton.1 haa]
      exact hlt5

theorem Accounts.add (ha : c.Accounts) (i : Fin 5) (v : ℚ) {r : ℤ} (hr : c.collationInterval ∣ r)
    (hcreated : ∀ g ∈ c.coarser, g.shape.isTrailing = false →
      g.shape.fileCreateTime < r + c.collationInterval) : (c.addCollated now i r v).Accounts := by
  have hI := (c.addCollated_sameShapes now i r v).collationInterval
  refine ⟨fun a haa => ?_, fun a haa g hg hnt => ?_⟩
  · rw [hI]
    rcases List.mem_append.1 haa with haa | haa
    · exact ha.grid a haa
    · rw [List.mem_singleton.1 haa]
      exact hr
  · rw [hI]
    rcases List.mem_append.1 haa with haa | haa
    · exact ha.created a haa g hg hnt
    · rw [List.mem_singleton.1 haa]
      exact hcreated g hg hnt

end StatCounter

end Istatd
