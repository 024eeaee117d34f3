import Istatd.CounterCommand
import Istatd.Lib.Lines

/-!
# The names of a counter command (`extract_ctrs`)

A name with carets stands for several ones: its part before the first caret followed by each of the
other parts.  The loop over the carets moves on from one to the next if there is something between
them, and is repeated as it is if there is not.

* `ctrsLoop_eq`: the names, if no two carets are adjacent;
* `ctrsLoop_of_adjacent`: no result otherwise;
* `extractCtrs_terminates_iff` and `extractCtrs_expansion` for the whole function.
-/

namespace Istatd

open Lines

/-- Two carets in a row. -/
def Adjacent (istr : Bytes) : Prop := [byte '^', byte '^'] <:+: istr

instance (istr : Bytes) : Decidable (Adjacent istr) := inferInstanceAs (Decidable (_ <:+: _))

theorem adjacent_cons {c : UInt8} {l : Bytes} :
    Adjacent (c :: l) ↔ (c = byte '^' ∧ l.head? = some (byte '^')) ∨ Adjacent l := by
  unfold Adjacent
  rw [List.infix_cons_iff, List.cons_prefix_cons]
  refine or_congr_left (and_congr eq_comm ?_)
  cases l with
  | nil => simp
  | cons d l => simp [List.cons_prefix_cons, eq_comm]

theorem adjacent_append_of_not_mem {x : Bytes} (hx : byte '^' ∉ x) (l : Bytes) :
    Adjacent (x ++ l) ↔ Adjacent l := by
  induction x with
  | nil => rfl
  | cons c x ih =>
    obtain ⟨hc, hx⟩ := not_or.1 (mt List.mem_cons.2 hx)
    rw [List.cons_append, adjacent_cons, ih hx]
    simp [Ne.symm hc]

/-- Carets behind a caret: the first two are adjacent, or two later ones. -/
theorem adjacent_line {x : Bytes} (hx : byte '^' ∉ x) (l : Bytes) :
    Adjacent (byte '^' :: (x ++ byte '^' :: l)) ↔ x = [] ∨ Adjacent (byte '^' :: l) := by
  rw [adjacent_cons, adjacent_append_of_not_mem hx]
  cases x with
  | nil => simp
  | cons c x =>
    have hc : c ≠ byte '^' := fun h => hx (by simp [h])
    simp [hc]

theorem not_adjacent_free {x : Bytes} (hx : byte '^' ∉ x) : ¬ Adjacent (byte '^' :: x) := by
  rw [adjacent_cons, ← List.append_nil x, adjacent_append_of_not_mem hx]
  rintro (⟨-, hhead⟩ | hnil)
  · rw [List.append_nil] at hhead
    exact hx (List.mem_of_head? hhead)
  · exact absurd hnil (by decide)

/-! ### The loop -/

/-- The name of the last part; the base, without its period, if there is nothing in it. -/
def lastName (base x : Bytes) : List Bytes :=
  if x ≠ [] then [base ++ x] else if base ≠ [] then [base.dropLast] else []

/-- The names of what stands behind a caret. -/
def ctrsNames (base rest : Bytes) : List Bytes :=
  (lines (byte '^') rest).map (base ++ ·) ++ lastName base (unfinished (byte '^') rest)

section Rounds

variable (base : Bytes) (osubs : List Bytes) {x : Bytes} (pre l : Bytes)

theorem drop_caret : (pre ++ byte '^' :: l).drop (pre.length + 1) = l := by
  rw [← List.drop_drop, List.drop_left, List.drop_one, List.tail_cons]

/-- The round at a caret that another one follows. -/
theorem ctrsRound_line (hx : byte '^' ∉ x) :
    ctrsRound (pre ++ byte '^' :: (x ++ byte '^' :: l)) base osubs pre.length =
      if x = [] then .again osubs pre.length
      else .again (osubs ++ [base ++ x]) (pre ++ byte '^' :: x).length := by
  have hdrop := drop_caret pre (x ++ byte '^' :: l)
  have hnext : (pre ++ byte '^' :: x).length = x.length + (pre.length + 1) := by
    rw [List.length_append, List.length_cons]
    omega
  rw [ctrsRound, findFirstOf_of_drop hdrop hx, hnext]
  simp only
  by_cases hnil : x = []
  · rw [if_pos hnil, hnil, if_neg (by simp)]
  · have hpos : 0 < x.length := List.length_pos_of_ne_nil hnil
    rw [if_neg hnil, if_pos (by omega), hdrop, Nat.add_sub_cancel, List.take_left]

/-- The round at the last caret. -/
theorem ctrsRound_free (hx : byte '^' ∉ x) :
    ctrsRound (pre ++ byte '^' :: x) base osubs pre.length = .done (osubs ++ lastName base x) := by
  have hdrop := drop_caret pre x
  have hlen : (pre ++ byte '^' :: x).length = x.length + (pre.length + 1) := by
    rw [List.length_append, List.length_cons]
    omega
  rw [ctrsRound, findFirstOf_of_not_mem (by rwa [hdrop]), hlen, hdrop, lastName]
  simp only
  by_cases hnil : x = []
  · have hlast : ¬ x ≠ [] := not_not.2 hnil
    rw [if_neg hlast, if_neg (by simp [hnil])]
    by_cases hbase : base = []
    · simp [hbase]
    · have hpos : base.length ≠ 0 := (List.length_pos_of_ne_nil hbase).ne'
      rw [if_pos hpos, if_pos hbase, List.dropLast_eq_take]
  · have hpos : 0 < x.length := List.length_pos_of_ne_nil hnil
    rw [if_pos (by omega), if_pos hnil]

end Rounds

/-- **The names**, if no two carets are adjacent: a round for each caret. -/
theorem ctrsLoop_eq (base : Bytes) {rest : Bytes} (h : ¬ Adjacent (byte '^' :: rest)) (pre : Bytes)
    (osubs : List Bytes) {fuel : ℕ} (hfuel : rest.length < fuel) :
    ctrsLoop (pre ++ byte '^' :: rest) base fuel osubs pre.length =
      some (osubs ++ ctrsNames base rest) := by
  induction rest using lines_induction (byte '^') generalizing pre osubs fuel with
  | hfree x hx =>
    obtain ⟨fuel, rfl⟩ : ∃ k, fuel = k + 1 := ⟨fuel - 1, by omega⟩
    rw [ctrsLoop, ctrsRound_free base osubs pre hx, ctrsNames, lines_of_not_mem hx,
      unfinished_of_not_mem hx]
    rfl
  | hline x l hx ih =>
    obtain ⟨fuel, rfl⟩ : ∃ k, fuel = k + 1 := ⟨fuel - 1, by omega⟩
    rw [adjacent_line hx, not_or] at h
    rw [List.length_append, List.length_cons] at hfuel
    have hsplit : pre ++ byte '^' :: (x ++ byte '^' :: l) =
        (pre ++ byte '^' :: x) ++ byte '^' :: l := by simp
    rw [ctrsLoop, ctrsRound_line base osubs pre l hx, if_neg h.1]
    simp only
    rw [hsplit, ih h.2 _ _ (by omega), ctrsNames, ctrsNames, lines_line_append hx,
      unfinished_line_append hx]
    simp

/-- No result, if two carets are adjacent: the round at the first of them is repeated. -/
theorem ctrsLoop_of_adjacent (base : Bytes) {rest : Bytes} (h : Adjacent (byte '^' :: rest))
    (pre : Bytes) (osubs : List Bytes) (fuel : ℕ) :
    ctrsLoop (pre ++ byte '^' :: rest) base fuel osubs pre.length = none := by
  induction rest using lines_induction (byte '^') generalizing pre osubs fuel with
  | hfree x hx => exact absurd h (not_adjacent_free hx)
  | hline x l hx ih =>
    by_cases hnil : x = []
    · induction fuel with
      | zero => rfl
      | succ fuel ihfuel =>
        rw [ctrsLoop, ctrsRound_line base osubs pre l hx, if_pos hnil]
        exact ihfuel
    · cases fuel with
      | zero => rfl
      | succ fuel =>
        have hl := ((adjacent_line hx l).1 h).resolve_left hnil
        have hsplit : pre ++ byte '^' :: (x ++ byte '^' :: l) =
            (pre ++ byte '^' :: x) ++ byte '^' :: l := by simp
        rw [ctrsLoop, ctrsRound_line base osubs pre l hx, if_neg hnil]
        simp only
        rw [hsplit]
        exact ih hl _ _ _

/-! ### The function -/

/-- `base`: what stands before the first caret, with a period unless it is empty. -/
def ctrsBase (istr : Bytes) (pos : ℕ) : Bytes :=
  if 0 < pos then istr.take pos ++ [byte '.'] else istr.take pos

/-- The positions at which the rounds of the loop begin. -/
inductive Visited (istr base : Bytes) (start : ℕ) : ℕ → Prop
  | start : Visited istr base start start
  | again {pos pos' : ℕ} {osubs osubs' : List Bytes} : Visited istr base start pos →
      ctrsRound istr base osubs pos = .again osubs' pos' → Visited istr base start pos'

/-- The loop reaches its return, and a measure decreases from each round to the next. -/
def Terminates (istr : Bytes) : Prop :=
  ∀ start, findFirstOf istr (byte '^') 0 = some start →
    (∃ fuel osubs, ctrsLoop istr (ctrsBase istr start) fuel [] start = some osubs) ∧
      ∃ measure : ℕ → ℕ, ∀ pos pos' osubs osubs', Visited istr (ctrsBase istr start) start pos →
        ctrsRound istr (ctrsBase istr start) osubs pos = .again osubs' pos' →
        measure pos' < measure pos

/-- A position of a caret behind which no two carets are adjacent. -/
def AtCaret (istr : Bytes) (pos : ℕ) : Prop :=
  ∃ pre rest, istr = pre ++ byte '^' :: rest ∧ pos = pre.length ∧ ¬ Adjacent (byte '^' :: rest)

theorem AtCaret.again {istr base : Bytes} {osubs osubs' : List Bytes} {pos pos' : ℕ}
    (h : AtCaret istr pos) (hround : ctrsRound istr base osubs pos = .again osubs' pos') :
    AtCaret istr pos' ∧ pos < pos' := by
  obtain ⟨pre, rest, rfl, rfl, hadj⟩ := h
  by_cases hrest : byte '^' ∈ rest
  · obtain ⟨x, l, rfl, hx⟩ := List.eq_append_cons_of_mem hrest
    rw [adjacent_line hx, not_or] at hadj
    rw [ctrsRound_line base osubs pre l hx, if_neg hadj.1] at hround
    cases hround
    exact ⟨⟨pre ++ byte '^' :: x, l, by simp, rfl, hadj.2⟩, by simp⟩
  · rw [ctrsRound_free base osubs pre hrest] at hround
    cases hround

theorem AtCaret.visited {istr base : Bytes} {start pos : ℕ} (h : AtCaret istr start)
    (hvisited : Visited istr base start pos) : AtCaret istr pos := by
  induction hvisited with
  | start => exact h
  | again _ hround ih => exact (ih.again hround).1

theorem AtCaret.lt_length {istr : Bytes} {pos : ℕ} (h : AtCaret istr pos) : pos < istr.length := by
  obtain ⟨pre, rest, rfl, rfl, -⟩ := h
  simp

/-- **The loop ends** if and only if no two carets are adjacent. -/
theorem extractCtrs_terminates_iff (istr : Bytes) : Terminates istr ↔ ¬ Adjacent istr := by
  by_cases hcaret : byte '^' ∈ istr
  · obtain ⟨b, rest, rfl, hb⟩ := List.eq_append_cons_of_mem hcaret
    have hfind : findFirstOf (b ++ byte '^' :: rest) (byte '^') 0 = some b.length :=
      findFirstOf_of_drop rfl hb
    rw [adjacent_append_of_not_mem hb]
    constructor
    · intro h hadj
      obtain ⟨⟨fuel, osubs, hloop⟩, -⟩ := h b.length hfind
      rw [ctrsLoop_of_adjacent _ hadj] at hloop
      cases hloop
    · intro hadj start hstart
      obtain rfl : b.length = start := Option.some.inj (hfind.symm.trans hstart)
      have hat : AtCaret (b ++ byte '^' :: rest) b.length := ⟨b, rest, rfl, rfl, hadj⟩
      refine ⟨⟨rest.length + 1, _, ctrsLoop_eq _ hadj b [] (Nat.lt_succ_self _)⟩,
        fun pos => (b ++ byte '^' :: rest).length - pos, fun pos pos' osubs osubs' hv hround => ?_⟩
      have hpos := hat.visited hv
      have hlt := (hpos.again hround).2
      have := hpos.lt_length
      simp only
      omega
  · have hnone : findFirstOf istr (byte '^') 0 = none := findFirstOf_of_not_mem hcaret
    refine iff_of_true (fun start hstart => ?_) fun hadj => hcaret ?_
    · rw [hnone] at hstart
      cases hstart
    · exact hadj.subset List.mem_cons_self

/-- Two adjacent carets: the loop never ends. -/
theorem extractCtrs_hangs : ¬ ∀ istr : Bytes, Terminates istr := by
  intro h
  obtain ⟨⟨fuel, osubs, hloop⟩, -⟩ := h (bytes "a^^b") 1 (by decide)
  have hadj : Adjacent (byte '^' :: bytes "^b") := by decide
  have hnone := ctrsLoop_of_adjacent (ctrsBase (bytes "a^^b") 1) hadj (bytes "a") [] fuel
  rw [show bytes "a" ++ byte '^' :: bytes "^b" = bytes "a^^b" by decide,
    show (bytes "a").length = 1 by decide, hloop] at hnone
  cases hnone

/-! ### The names of a command -/

/-- What stands before the first caret. -/
def ctrsStem (istr : Bytes) : Bytes := istr.takeWhile (· ≠ byte '^')

/-- The parts behind the carets. -/
def ctrsParts (istr : Bytes) : List Bytes := (istr.splitOn (byte '^')).tail

/-- A part behind the stem. -/
def ctrsName (stem part : Bytes) : Bytes := if stem = [] then part else stem ++ byte '.' :: part

/-- What the names of a command should be. -/
def ctrsExpansion (istr : Bytes) : List Bytes :=
  if byte '^' ∉ istr then if istr = [] then [] else [istr]
  else
    ((ctrsParts istr).filter (· ≠ [])).map (ctrsName (ctrsStem istr)) ++
      if istr.getLast? = some (byte '^') ∧ ctrsStem istr ≠ [] then [ctrsStem istr] else []

theorem ctrsStem_append {b : Bytes} (hb : byte '^' ∉ b) (rest : Bytes) :
    ctrsStem (b ++ byte '^' :: rest) = b := by
  unfold ctrsStem
  rw [List.takeWhile_append_of_pos, List.takeWhile_cons_of_neg (by simp), List.append_nil]
  intro c hc
  simpa using fun h : c = byte '^' => hb (h ▸ hc)

theorem ctrsParts_append {b : Bytes} (hb : byte '^' ∉ b) (rest : Bytes) :
    ctrsParts (b ++ byte '^' :: rest) =
      lines (byte '^') rest ++ [unfinished (byte '^') rest] := by
  unfold ctrsParts
  rw [List.splitOn_append_cons_self_of_not_mem hb, List.tail_cons, splitOn_eq_lines_concat]

/-- Between carets that are not adjacent there is something. -/
theorem ne_nil_of_mem_lines {rest : Bytes} (h : ¬ Adjacent (byte '^' :: rest)) :
    ∀ x ∈ lines (byte '^') rest, x ≠ [] := by
  induction rest using lines_induction (byte '^') with
  | hfree x hx => simp [lines_of_not_mem hx]
  | hline x l hx ih =>
    rw [adjacent_line hx, not_or] at h
    rw [lines_line_append hx]
    exact List.forall_mem_cons.2 ⟨h.1, ih h.2⟩

theorem ctrsBase_append (b rest : Bytes) (part : Bytes) :
    ctrsBase (b ++ byte '^' :: rest) b.length ++ part = ctrsName b part := by
  unfold ctrsBase ctrsName
  rw [List.take_left]
  cases b with
  | nil => rfl
  | cons c b => simp

theorem lastName_eq (b rest x : Bytes) :
    lastName (ctrsBase (b ++ byte '^' :: rest) b.length) x =
      if x ≠ [] then [ctrsName b x] else if b ≠ [] then [b] else [] := by
  unfold lastName
  rw [ctrsBase_append]
  unfold ctrsBase
  rw [List.take_left]
  cases b with
  | nil => rfl
  | cons c b =>
    have hpos : 0 < (c :: b).length := Nat.succ_pos _
    simp only [if_pos hpos, List.dropLast_concat]
    simp

theorem ctrsNames_eq {b rest : Bytes} (hb : byte '^' ∉ b) (h : ¬ Adjacent (byte '^' :: rest)) :
    ctrsNames (ctrsBase (b ++ byte '^' :: rest) b.length) rest =
      ctrsExpansion (b ++ byte '^' :: rest) := by
  have hcaret : ¬ byte '^' ∉ b ++ byte '^' :: rest := by simp
  have hlines : (lines (byte '^') rest).filter (· ≠ []) = lines (byte '^') rest :=
    List.filter_eq_self.2 fun x hx => by simpa using ne_nil_of_mem_lines h x hx
  have hnames : (lines (byte '^') rest).map (ctrsBase (b ++ byte '^' :: rest) b.length ++ ·) =
      (lines (byte '^') rest).map (ctrsName b) :=
    List.map_congr_left fun part _ => ctrsBase_append b rest part
  rw [ctrsExpansion, if_neg hcaret, ctrsStem_append hb, ctrsParts_append hb, List.filter_append,
    hlines, ctrsNames, hnames, lastName_eq, List.map_append, List.append_assoc]
  simp only [getLast?_eq_some_iff]
  by_cases hlast : unfinished (byte '^') rest = []
  · simp [hlast]
  · simp [hlast]

theorem extractCtrs_append {b : Bytes} (hb : byte '^' ∉ b) (rest : Bytes) :
    extractCtrs (b ++ byte '^' :: rest) =
      (ctrsLoop (b ++ byte '^' :: rest) (ctrsBase (b ++ byte '^' :: rest) b.length)
        ((b ++ byte '^' :: rest).length + 1) [] b.length).map fun osubs => (osubs, b) := by
  rw [extractCtrs, findFirstOf_of_drop (x := b) rfl hb]
  simp only [Nat.add_zero, List.take_left]
  rw [ctrsBase, List.take_left]

theorem ctrsStem_of_not_mem {istr : Bytes} (h : byte '^' ∉ istr) : ctrsStem istr = istr :=
  List.takeWhile_eq_self_iff.2 fun c hc => by simpa using fun he : c = byte '^' => h (he ▸ hc)

theorem ctrsStem_isPrefix_name {stem part : Bytes} (h : stem ≠ []) :
    stem ++ [byte '.'] <+: ctrsName stem part := by
  rw [ctrsName, if_neg h]
  exact ⟨part, by simp⟩

/-- **The names of a command** without adjacent carets. -/
theorem extractCtrs_expansion {istr : Bytes} (h : ¬ Adjacent istr) :
    extractCtrs istr = some (ctrsExpansion istr, ctrsStem istr) ∧
      (ctrsStem istr ≠ [] → ∀ name ∈ ctrsExpansion istr, name ≠ ctrsStem istr →
        ctrsStem istr ++ [byte '.'] <+: name) := by
  by_cases hcaret : byte '^' ∈ istr
  · obtain ⟨b, rest, rfl, hb⟩ := List.eq_append_cons_of_mem hcaret
    rw [adjacent_append_of_not_mem hb] at h
    constructor
    · rw [extractCtrs_append hb, ctrsLoop_eq _ h b [] (by simp; omega), List.nil_append,
        ctrsNames_eq hb h, ctrsStem_append hb]
      rfl
    · intro hstem name hname hne
      rw [ctrsExpansion, if_neg (not_not.2 hcaret), List.mem_append] at hname
      rcases hname with hname | hname
      · obtain ⟨part, -, rfl⟩ := List.mem_map.1 hname
        exact ctrsStem_isPrefix_name hstem
      · split_ifs at hname
        · exact absurd (List.mem_singleton.1 hname) hne
        · cases hname
  · rw [ctrsStem_of_not_mem hcaret, ctrsExpansion, if_pos hcaret, extractCtrs,
      findFirstOf_of_not_mem hcaret]
    cases istr with
    | nil => exact ⟨rfl, fun hne => absurd rfl hne⟩
    | cons c istr =>
      refine ⟨rfl, fun _ name hname hne => ?_⟩
      exact absurd (List.mem_singleton.1 hname) hne

/-- The names that the header of the function gives as an example. -/
theorem extractCtrs_expansion_sample :
    ¬ Adjacent (bytes "string^x^") ∧
      extractCtrs (bytes "string^x^") =
        some ([bytes "string.x", bytes "string"], bytes "string") := by
  have hadj : ¬ Adjacent (bytes "string^x^") := by decide
  exact ⟨hadj, (extractCtrs_expansion hadj).1.trans (by decide +kernel)⟩

end Istatd
