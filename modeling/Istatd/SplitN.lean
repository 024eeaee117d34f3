import Istatd.StrFunc

/-!
# Splitting into several strings (`splitn`)

There is a `splitn` for each number of outputs from two to six.  Each one but the first splits the
last output of the one below it in place, so that the strings are references: a state assigns their
values to them, and two arguments may be the same.

* `splitn`: the overloads;
* `parted_extend`: what one more output changes;
* `splitn_meets_iff`: when the number that is returned, and the outputs, are right.
-/

namespace Istatd

section Functions

variable {ι : Type} [DecidableEq ι]

/-- The values of the strings. -/
abbrev Strings (ι : Type) := ι → Bytes

variable (h : Strings ι) (s : ι) (ch : UInt8) (o1 o2 o3 o4 o5 o6 : ι)

/-- `splitn` with two outputs: what it returns and the strings after it, or the exception. -/
def splitn2 : Except Bytes (ℕ × Strings ι) :=
  match findFirstOf (h s) ch 0 with
  | none =>
    let h := Function.update h o1 (h s)
    .ok (1, Function.update h o2 [])
  | some p =>
    if o2 = s then .error (bytes "unsupported argument aliasing in splitn()")
    else
      let h := Function.update h o2 ((h s).drop (p + 1))
      .ok (2, Function.update h o1 ((h s).take p))

/-- `splitn` with three outputs. -/
def splitn3 : Except Bytes (ℕ × Strings ι) := do
  let (n, h) ← splitn2 h s ch o1 o2
  if n = 1 then pure (1, h)
  else
    let (n, h) ← splitn2 h o2 ch o2 o3
    pure (if n = 1 then 2 else 3, h)

/-- `splitn` with four outputs. -/
def splitn4 : Except Bytes (ℕ × Strings ι) := do
  let (n, h) ← splitn3 h s ch o1 o2 o3
  if n < 3 then pure (n, h)
  else
    let (n, h) ← splitn2 h o3 ch o3 o4
    pure (if n = 1 then 3 else 4, h)

/-- `splitn` with five outputs. -/
def splitn5 : Except Bytes (ℕ × Strings ι) := do
  let (n, h) ← splitn4 h s ch o1 o2 o3 o4
  if n < 4 then pure (n, h)
  else
    let (n, h) ← splitn2 h o4 ch o4 o5
    pure (if n = 1 then 4 else 5, h)

/-- `splitn` with six outputs. -/
def splitn6 : Except Bytes (ℕ × Strings ι) := do
  let (n, h) ← splitn5 h s ch o1 o2 o3 o4 o5
  if n < 5 then pure (n, h)
  else
    let (n, h) ← splitn2 h o5 ch o5 o6
    -- compared with five, and not with one as in the others
    pure (if n = 5 then 5 else 6, h)

/-- The overload for some outputs, if there is one. -/
def splitn : List ι → Option (Except Bytes (ℕ × Strings ι))
  | [o1, o2] => some (splitn2 h s ch o1 o2)
  | [o1, o2, o3] => some (splitn3 h s ch o1 o2 o3)
  | [o1, o2, o3, o4] => some (splitn4 h s ch o1 o2 o3 o4)
  | [o1, o2, o3, o4, o5] => some (splitn5 h s ch o1 o2 o3 o4 o5)
  | [o1, o2, o3, o4, o5, o6] => some (splitn6 h s ch o1 o2 o3 o4 o5 o6)
  | _ => none

end Functions

/-! ### Cutting a string into parts -/

/-- At most `k` parts of a string, without separators in them but for the last of `k` parts. -/
structure Cut (ch : UInt8) (k : ℕ) (v : Bytes) (init : List Bytes) (last : Bytes) : Prop where
  le : init.length + 1 ≤ k
  join : v = init.flatMap (· ++ [ch]) ++ last
  free : ∀ x ∈ init, ch ∉ x
  last_free : init.length + 1 < k → ch ∉ last

theorem intercalate_concat (ch : UInt8) (init : List Bytes) (last : Bytes) :
    [ch].intercalate (init ++ [last]) = init.flatMap (· ++ [ch]) ++ last := by
  induction init with
  | nil => simp
  | cons x init ih =>
    rw [List.cons_append, List.intercalate_cons_of_ne_nil (by simp), ih, List.flatMap_cons]
    simp

namespace Cut

variable {ch : UInt8} {k : ℕ} {v last : Bytes} {init : List Bytes}

/-- The separators stand between the parts, and in the last one. -/
theorem count_eq (h : Cut ch k v init last) : v.count ch = init.length + last.count ch := by
  obtain ⟨-, rfl, hfree, -⟩ := h
  rw [List.count_append]
  congr 1
  induction init with
  | nil => rfl
  | cons x init ih =>
    obtain ⟨hx, hinit⟩ := List.forall_mem_cons.1 hfree
    rw [List.flatMap_cons, List.count_append, ih hinit, List.count_append,
      List.count_eq_zero_of_not_mem hx, List.length_cons, List.count_singleton_self]
    omega

/-- **The number of parts.** -/
theorem length_eq (h : Cut ch k v init last) : init.length + 1 = min k (1 + v.count ch) := by
  have hcount := h.count_eq
  have hle := h.le
  by_cases hlt : init.length + 1 < k
  · rw [List.count_eq_zero_of_not_mem (h.last_free hlt)] at hcount
    omega
  · omega

/-- One more part is allowed, and not needed. -/
theorem more (h : Cut ch k v init last) (hlast : ch ∉ last) : Cut ch (k + 1) v init last :=
  ⟨h.le.trans (Nat.le_succ k), h.join, h.free, fun _ => hlast⟩

/-- The last part is cut. -/
theorem cut_last {x y : Bytes} (h : Cut ch k v init (x ++ ch :: y)) (hlen : init.length + 1 = k)
    (hx : ch ∉ x) : Cut ch (k + 1) v (init ++ [x]) y := by
  refine ⟨by simp [hlen], ?_, ?_, fun hlt => ?_⟩
  · rw [h.join]
    simp
  · intro z hz
    rcases List.mem_append.1 hz with hz | hz
    · exact h.free z hz
    · rw [List.mem_singleton.1 hz]
      exact hx
  · rw [List.length_append, List.length_singleton] at hlt
    omega

end Cut

/-! ### The outputs -/

section Outputs

variable {ι : Type}

/-- The first outputs are the parts of a string, and the number of them is returned. -/
def Parted (ch : UInt8) (v : Bytes) (outs : List ι) (r : ℕ) (h : Strings ι) : Prop :=
  ∃ init last, Cut ch outs.length v init last ∧ r = init.length + 1 ∧
    (outs.take r).map h = init ++ [last]

theorem nodup_extend (pre : List ι) {o y : ι} (hn : (pre ++ [o, y]).Nodup) :
    (pre ++ [o]).Nodup ∧ o ∉ pre ∧ y ∉ pre ++ [o] := by
  have hsplit : pre ++ [o, y] = pre ++ [o] ++ [y] := by simp
  rw [hsplit, List.nodup_append] at hn
  have hpre := List.nodup_append.1 hn.1
  exact ⟨hn.1, fun hmem => hpre.2.2 o hmem o (List.mem_singleton_self o) rfl,
    fun hmem => hn.2.2 y hmem y (List.mem_singleton_self y) rfl⟩

/-- What `splitn` should do: return the number of the parts, and give the parts to the outputs. -/
def Meets (ch : UInt8) (v : Bytes) (outs : List ι) (result : Option (Except Bytes (ℕ × Strings ι))) :
    Prop :=
  ∃ r h, result = some (.ok (r, h)) ∧ r = min outs.length (1 + v.count ch) ∧
    [ch].intercalate ((outs.take r).map h) = v ∧ (∀ o ∈ outs.take (r - 1), ch ∉ h o) ∧
      (r < outs.length → ∀ o ∈ outs.take r, ch ∉ h o)

theorem Parted.meets {ch : UInt8} {v : Bytes} {outs : List ι} {r : ℕ} {h : Strings ι}
    (hp : Parted ch v outs r h) : Meets ch v outs (some (.ok (r, h))) := by
  obtain ⟨init, last, hcut, rfl, hmap⟩ := hp
  have hinit : (outs.take init.length).map h = init := by
    have := congrArg (List.take init.length) hmap
    rwa [← List.map_take, List.take_take, Nat.min_eq_left (Nat.le_succ _), List.take_left] at this
  have hfree : ∀ o ∈ outs.take init.length, ch ∉ h o := fun o ho =>
    hcut.free _ (hinit ▸ List.mem_map_of_mem ho)
  refine ⟨_, h, rfl, hcut.length_eq, ?_, ?_, fun hlt o ho => ?_⟩
  · rw [hmap, intercalate_concat, ← hcut.join]
  · rwa [Nat.add_sub_cancel]
  · have hmem : h o ∈ init ++ [last] := hmap ▸ List.mem_map_of_mem ho
    rcases List.mem_append.1 hmem with hmem | hmem
    · exact hcut.free _ hmem
    · rw [List.mem_singleton.1 hmem]
      exact hcut.last_free hlt

/-- A call that gives its outputs the parts does what it should. -/
theorem meets_of_parted {ch : UInt8} {v : Bytes} {outs : List ι}
    {result : Except Bytes (ℕ × Strings ι)}
    (hresult : ∃ r h, result = .ok (r, h) ∧ Parted ch v outs r h) :
    Meets ch v outs (some result) := by
  obtain ⟨r, h, rfl, hp⟩ := hresult
  exact hp.meets

variable [DecidableEq ι] {h : Strings ι} {s o1 o2 : ι} {ch : UInt8}

theorem splitn2_of_not_mem (hch : ch ∉ h s) :
    splitn2 h s ch o1 o2 = .ok (1, Function.update (Function.update h o1 (h s)) o2 []) := by
  rw [splitn2, findFirstOf_of_not_mem hch]

theorem splitn2_of_append {x y : Bytes} (hval : h s = x ++ ch :: y) (hx : ch ∉ x) (hne : o2 ≠ s) :
    splitn2 h s ch o1 o2 = .ok (2, Function.update (Function.update h o2 y) o1 x) := by
  have hdrop : (x ++ ch :: y).drop (x.length + 1) = y := by
    rw [← List.drop_drop, List.drop_left]
    rfl
  rw [splitn2, hval, findFirstOf_of_drop (x := x) rfl hx]
  simp only [Nat.add_zero, if_neg hne, Function.update_of_ne (Ne.symm hne), hval, hdrop,
    List.take_left]

theorem map_update_of_not_mem {l : List ι} {x : ι} (hx : x ∉ l) (g : Strings ι) (val : Bytes) :
    l.map (Function.update g x val) = l.map g :=
  List.map_congr_left fun z hz => Function.update_of_ne (fun heq : z = x => hx (heq ▸ hz)) _ _

/-- The overload with two outputs. -/
theorem splitn2_parted (ho : o1 ≠ o2) (hs : o2 ≠ s) :
    ∃ r h', splitn2 h s ch o1 o2 = .ok (r, h') ∧ Parted ch (h s) [o1, o2] r h' := by
  by_cases hch : ch ∈ h s
  · obtain ⟨x, y, hval, hx⟩ := List.eq_append_cons_of_mem hch
    refine ⟨2, _, splitn2_of_append hval hx hs, [x], y, ⟨by simp, by simp [hval], ?_, ?_⟩, rfl, ?_⟩
    · exact fun z hz => List.mem_singleton.1 hz ▸ hx
    · simp
    · simp [Function.update_of_ne (Ne.symm ho)]
  · refine ⟨1, _, splitn2_of_not_mem hch, [], h s, ⟨by simp, rfl, nofun, fun _ => hch⟩, rfl, ?_⟩
    simp [Function.update_of_ne ho]

variable {v : Bytes} (pre : List ι) {o y : ι} {r : ℕ}

/-- **One more output**: if all outputs are in use, the last one is split in place. -/
theorem parted_extend (hp : Parted ch v (pre ++ [o]) r h) (ho : o ∉ pre) (hy : y ∉ pre ++ [o]) :
    (r < (pre ++ [o]).length ∧ v.count ch + 1 = r ∧ Parted ch v (pre ++ [o, y]) r h) ∨
      (r = (pre ++ [o]).length ∧ ∃ h', (v.count ch + 1 = r ∧ splitn2 h o ch o y = .ok (1, h') ∧
          Parted ch v (pre ++ [o, y]) r h') ∨
        (r < v.count ch + 1 ∧ splitn2 h o ch o y = .ok (2, h') ∧
          Parted ch v (pre ++ [o, y]) (r + 1) h')) := by
  obtain ⟨init, last, hcut, rfl, hmap⟩ := hp
  have hcount := hcut.count_eq
  have hlen : (pre ++ [o, y]).length = (pre ++ [o]).length + 1 := by simp
  have hsplit : pre ++ [o, y] = pre ++ [o] ++ [y] := by simp
  rcases Nat.lt_or_ge (init.length + 1) (pre ++ [o]).length with hlt | hge
  · have hlast := hcut.last_free hlt
    rw [List.count_eq_zero_of_not_mem hlast] at hcount
    refine Or.inl ⟨hlt, by omega, init, last, hlen ▸ hcut.more hlast, rfl, ?_⟩
    rw [hsplit, List.take_append_of_le_length hlt.le, hmap]
  · have hfull : init.length + 1 = (pre ++ [o]).length := le_antisymm hcut.le hge
    have hpre : init.length = pre.length := by simpa using hfull
    rw [hfull, List.take_length, List.map_append, List.map_singleton] at hmap
    obtain ⟨hinit, hlast⟩ := List.append_inj hmap (by simp [hpre])
    obtain rfl : h o = last := List.cons.inj hlast |>.1
    have hyo : y ≠ o := fun heq => hy (by simp [heq])
    have hypre : y ∉ pre := fun hmem => hy (List.mem_append_left _ hmem)
    refine Or.inr ⟨hfull, ?_⟩
    by_cases hch : ch ∈ h o
    · obtain ⟨a, b, hval, ha⟩ := List.eq_append_cons_of_mem hch
      refine ⟨_, Or.inr ⟨?_, splitn2_of_append hval ha hyo, init ++ [a], b, ?_, by simp, ?_⟩⟩
      · have := List.count_pos_iff.2 hch
        omega
      · exact hlen ▸ (hval ▸ hcut).cut_last hfull ha
      · rw [List.take_of_length_le (by simp [hpre]), List.map_append, map_update_of_not_mem ho,
          map_update_of_not_mem hypre, hinit]
        simp [Function.update_of_ne hyo]
    · rw [List.count_eq_zero_of_not_mem hch] at hcount
      refine ⟨_, Or.inl ⟨by omega, splitn2_of_not_mem hch, init, h o, hlen ▸ hcut.more hch, rfl, ?_⟩⟩
      rw [hsplit, hfull, List.take_left, Function.update_eq_self, map_update_of_not_mem hy,
        List.map_append, hinit]
      rfl

end Outputs

/-! ### The overloads -/

section Overloads

variable {ι : Type} [DecidableEq ι] {h : Strings ι} {s o y : ι} {ch : UInt8} {v : Bytes}
  (pre : List ι)

/-- What the overloads with three, four and five outputs do with the result of the one below. -/
theorem parted_next {r k : ℕ} (hp : Parted ch v (pre ++ [o]) r h) (hk : (pre ++ [o]).length = k)
    (ho : o ∉ pre) (hy : y ∉ pre ++ [o]) :
    ∃ r' h', (if r < k then pure (r, h)
      else do
        let (n, h) ← splitn2 h o ch o y
        pure (if n = 1 then k else k + 1, h)) = (Except.ok (r', h') : Except Bytes _) ∧
      Parted ch v (pre ++ [o, y]) r' h' := by
  subst hk
  obtain ⟨hlt, -, hmore⟩ | ⟨rfl, h', ⟨-, hcall, hmore⟩ | ⟨-, hcall, hmore⟩⟩ :=
    parted_extend pre hp ho hy
  · exact ⟨r, h, if_pos hlt, hmore⟩
  · refine ⟨_, h', ?_, hmore⟩
    rw [if_neg (lt_irrefl _), hcall]
    rfl
  · refine ⟨_, h', ?_, hmore⟩
    rw [if_neg (lt_irrefl _), hcall]
    rfl

variable {o1 o2 o3 o4 o5 o6 : ι}

theorem splitn3_parted (hnodup : [o1, o2, o3].Nodup) (hs : o2 ≠ s) :
    ∃ r h', splitn3 h s ch o1 o2 o3 = .ok (r, h') ∧ Parted ch (h s) [o1, o2, o3] r h' := by
  obtain ⟨hn, ho, hy⟩ := nodup_extend [o1] hnodup
  obtain ⟨r, h', hcall, hp⟩ : ∃ r h', splitn2 h s ch o1 o2 = .ok (r, h') ∧
      Parted ch (h s) [o1, o2] r h' := splitn2_parted (by simpa [eq_comm] using ho) hs
  have hr : r = 1 ∨ r = 2 := by
    obtain ⟨init, last, hcut, rfl, -⟩ := hp
    have hle : init.length + 1 ≤ 2 := hcut.le
    omega
  unfold splitn3
  rw [hcall]
  rcases hr with rfl | rfl
  · exact parted_next [o1] hp rfl ho hy
  · exact parted_next [o1] hp rfl ho hy

theorem splitn4_parted (hnodup : [o1, o2, o3, o4].Nodup) (hs : o2 ≠ s) :
    ∃ r h', splitn4 h s ch o1 o2 o3 o4 = .ok (r, h') ∧
      Parted ch (h s) [o1, o2, o3, o4] r h' := by
  obtain ⟨hn, ho, hy⟩ := nodup_extend [o1, o2] hnodup
  obtain ⟨r, h', hcall, hp⟩ : ∃ r h', splitn3 h s ch o1 o2 o3 = .ok (r, h') ∧
      Parted ch (h s) [o1, o2, o3] r h' := splitn3_parted hn hs
  unfold splitn4
  rw [hcall]
  exact parted_next [o1, o2] hp rfl ho hy

theorem splitn5_parted (hnodup : [o1, o2, o3, o4, o5].Nodup) (hs : o2 ≠ s) :
    ∃ r h', splitn5 h s ch o1 o2 o3 o4 o5 = .ok (r, h') ∧
      Parted ch (h s) [o1, o2, o3, o4, o5] r h' := by
  obtain ⟨hn, ho, hy⟩ := nodup_extend [o1, o2, o3] hnodup
  obtain ⟨r, h', hcall, hp⟩ : ∃ r h', splitn4 h s ch o1 o2 o3 o4 = .ok (r, h') ∧
      Parted ch (h s) [o1, o2, o3, o4] r h' := splitn4_parted hn hs
  unfold splitn5
  rw [hcall]
  exact parted_next [o1, o2, o3] hp rfl ho hy

/-- The overload with six outputs returns six, where the one with five does so with the last output
whole. -/
theorem splitn6_meets_iff (hnodup : [o1, o2, o3, o4, o5, o6].Nodup) (hs : o2 ≠ s) :
    Meets ch (h s) [o1, o2, o3, o4, o5, o6] (some (splitn6 h s ch o1 o2 o3 o4 o5 o6)) ↔
      (h s).count ch ≠ 4 := by
  obtain ⟨hn, ho, hy⟩ := nodup_extend [o1, o2, o3, o4] hnodup
  obtain ⟨r, h', hcall, hp⟩ : ∃ r h', splitn5 h s ch o1 o2 o3 o4 o5 = .ok (r, h') ∧
      Parted ch (h s) [o1, o2, o3, o4, o5] r h' := splitn5_parted hn hs
  unfold splitn6
  rw [hcall]
  change Meets ch (h s) _ (some (if r < 5 then pure (r, h')
    else do
      let (n, h) ← splitn2 h' o5 ch o5 o6
      pure (if n = 5 then 5 else 6, h))) ↔ _
  obtain ⟨hlt, hr, hmore⟩ | ⟨hr, h'', ⟨hcount, hcall', -⟩ | ⟨hcount, hcall', hmore⟩⟩ :=
    parted_extend [o1, o2, o3, o4] hp ho hy
  · have hlt' : r < 5 := hlt
    rw [if_pos hlt']
    exact iff_of_true hmore.meets (by omega)
  · obtain rfl : r = 5 := hr
    rw [if_neg (lt_irrefl _), hcall']
    refine iff_of_false ?_ (by omega)
    rintro ⟨r, h₂, hok, hlen, -⟩
    have hsix : 6 = r := congrArg Prod.fst (Except.ok.inj (Option.some.inj hok))
    have hmin : r = min 6 (1 + (h s).count ch) := hlen
    omega
  · obtain rfl : r = 5 := hr
    rw [if_neg (lt_irrefl _), hcall']
    exact iff_of_true hmore.meets (by omega)

/-- **When `splitn` does what it should**, with different outputs: always but with six outputs for
a string with four separators. -/
theorem splitn_meets_iff (h : Strings ι) (s : ι) (ch : UInt8) {outs : List ι}
    (hnodup : outs.Nodup) (htwo : 2 ≤ outs.length) (hsix : outs.length ≤ 6)
    (hs : outs[1]? ≠ some s) :
    Meets ch (h s) outs (splitn h s ch outs) ↔ ¬ (outs.length = 6 ∧ (h s).count ch = 4) := by
  match outs, hnodup, htwo, hsix, hs with
  | [o1, o2], hnodup, _, _, hs =>
    have hne : o1 ≠ o2 := by simpa using hnodup
    exact iff_of_true (meets_of_parted (splitn2_parted hne (by simpa using hs))) (by simp)
  | [o1, o2, o3], hnodup, _, _, hs =>
    exact iff_of_true (meets_of_parted (splitn3_parted hnodup (by simpa using hs))) (by simp)
  | [o1, o2, o3, o4], hnodup, _, _, hs =>
    exact iff_of_true (meets_of_parted (splitn4_parted hnodup (by simpa using hs))) (by simp)
  | [o1, o2, o3, o4, o5], hnodup, _, _, hs =>
    exact iff_of_true (meets_of_parted (splitn5_parted hnodup (by simpa using hs))) (by simp)
  | [o1, o2, o3, o4, o5, o6], hnodup, _, _, hs =>
    refine (splitn6_meets_iff hnodup (by simpa using hs)).trans ?_
    simp

/-- Six outputs, and as many fields. -/
theorem splitn_meets_sample :
    ([1, 2, 3, 4, 5, 6] : List ℕ).Nodup ∧ 2 ≤ [1, 2, 3, 4, 5, 6].length ∧
      [1, 2, 3, 4, 5, 6].length ≤ 6 ∧ [1, 2, 3, 4, 5, 6][1]? ≠ some 0 ∧
      Meets (byte ':') (bytes "1:2:3:4:5:6") [1, 2, 3, 4, 5, 6]
        (splitn (fun _ => bytes "1:2:3:4:5:6") 0 (byte ':') [1, 2, 3, 4, 5, 6]) := by
  have hnodup : ([1, 2, 3, 4, 5, 6] : List ℕ).Nodup := by decide
  have hs : ([1, 2, 3, 4, 5, 6] : List ℕ)[1]? ≠ some 0 := by decide
  exact ⟨hnodup, by decide, by decide, hs, (splitn_meets_iff (fun _ => bytes "1:2:3:4:5:6") 0
    (byte ':') hnodup (by decide) (by decide) hs).2 (by decide +kernel)⟩

/-- Six outputs, and five fields: six is returned. -/
theorem splitn_six_outputs_five_fields :
    ¬ ∀ (h : Strings ℕ) (s : ℕ) (ch : UInt8) (outs : List ℕ), outs.Nodup → 2 ≤ outs.length →
      outs.length ≤ 6 → outs[1]? ≠ some s → Meets ch (h s) outs (splitn h s ch outs) := by
  intro hall
  obtain ⟨r, h, hcall, hr, -⟩ := hall (fun _ => bytes "1:2:3:4:5") 0 (byte ':') [1, 2, 3, 4, 5, 6]
    (by decide) (by decide) (by decide) (by decide)
  have hfive : min 6 (1 + (bytes "1:2:3:4:5").count (byte ':')) = 5 := by decide +kernel
  have hsix : (splitn (fun _ => bytes "1:2:3:4:5") 0 (byte ':') [1, 2, 3, 4, 5, 6]).map
      (Except.map Prod.fst) = some (.ok 6) := by rfl
  rw [hcall] at hsix
  have h6 : r = 6 := Except.ok.inj (Option.some.inj hsix)
  have h5 : r = 5 := hr.trans hfive
  omega

end Overloads

end Istatd
