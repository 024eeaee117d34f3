import Istatd.StrFunc
import Istatd.Lib.Glob

/-!
# Matching of patterns (`str_pat_match`)

In a pattern `*` stands for any string and `?` for any string without a dot.  The matcher goes
through string and pattern with a stack of pairs of positions to go back to.  A wildcard is taken
together with the character behind it, and a `*` looks for that character behind the `?`s that follow
it, but then goes on two characters further in the pattern: the `?`s but for one, and the character,
come again.  So a pattern is read as another one (`readAs`), which has the character twice.

* `Denotes`: the language of a pattern;
* `patStep_right`: every round of the loop keeps what is left to be matched;
* `patLoop_spec`: the loop ends, and its result is that of the pattern as it is read;
* `denotes_of_readAs`: what is matched is in the language of the pattern;
* `strPatMatch_complete_iff`: when all of that language is matched.
-/

namespace Istatd

/-- What a character of a pattern stands for. -/
def patItem (c : UInt8) : Glob.Item UInt8 :=
  if c = byte '*' then .wild fun _ => True
  else if c = byte '?' then .wild (· ≠ byte '.')
  else .lit c

/-- The string is in the language of the pattern. -/
def Denotes (pat str : Bytes) : Prop := str ∈ Glob.language (pat.map patItem)

/-- Not a wildcard. -/
def IsLiteral (c : UInt8) : Prop := c ≠ byte '*' ∧ c ≠ byte '?'

instance (c : UInt8) : Decidable (IsLiteral c) := inferInstanceAs (Decidable (_ ∧ _))

theorem patItem_star : patItem (byte '*') = .wild fun _ => True := rfl

theorem patItem_huh : patItem (byte '?') = .wild (· ≠ byte '.') := rfl

theorem patItem_literal {c : UInt8} (h : IsLiteral c) : patItem c = .lit c := by
  rw [patItem, if_neg h.1, if_neg h.2]

/-! ### The pattern as it is read -/

/-- The character behind some `?`s, if it is not a wildcard. -/
def behindHuhs (pat : Bytes) : Option UInt8 :=
  (pat.dropWhile (· = byte '?')).head?.filter (· ≠ byte '*')

/-- The pattern as the matcher reads it: where a `*` is followed by some `?`s and a character, the
character comes in place of the first `?` as well. -/
def readAs : Bytes → Bytes
  | [] => []
  | [c] => [c]
  | c :: d :: pat =>
    if c = byte '*' ∧ d = byte '?' then
      match behindHuhs pat with
      | some item => c :: item :: readAs pat
      | none => c :: readAs (d :: pat)
    else c :: readAs (d :: pat)

example : readAs (bytes "a*??b*c") = bytes "a*b?b*c" := by decide

theorem readAs_cons {c : UInt8} (h : c ≠ byte '*') (pat : Bytes) :
    readAs (c :: pat) = c :: readAs pat := by
  cases pat with
  | nil => rfl
  | cons d pat => rw [readAs, if_neg fun hc => h hc.1]

/-- `?`s and what follows them. -/
def huhs (n : ℕ) (pat : Bytes) : Bytes := List.replicate n (byte '?') ++ pat

theorem huhs_succ (n : ℕ) (pat : Bytes) : huhs (n + 1) pat = byte '?' :: huhs n pat := rfl

theorem exists_huhs (pat : Bytes) :
    ∃ n rest, pat = huhs n rest ∧ rest.head? ≠ some (byte '?') ∧
      (pat.takeWhile (· = byte '?')).length = n := by
  refine ⟨(pat.takeWhile (· = byte '?')).length, pat.dropWhile (· = byte '?'), ?_, ?_, rfl⟩
  · have hrep : pat.takeWhile (· = byte '?') =
        List.replicate (pat.takeWhile (· = byte '?')).length (byte '?') :=
      List.eq_replicate_of_mem fun c hc => by simpa using List.mem_takeWhile_imp hc
    rw [huhs, ← hrep, List.takeWhile_append_dropWhile]
  · intro h
    have := List.head?_dropWhile_not (fun c => decide (c = byte '?')) pat
    rw [h] at this
    simp at this

theorem behindHuhs_huhs (n : ℕ) {rest : Bytes} (h : rest.head? ≠ some (byte '?')) :
    behindHuhs (huhs n rest) = rest.head?.filter (· ≠ byte '*') := by
  have hdrop : (huhs n rest).dropWhile (· = byte '?') = rest := by
    induction n with
    | zero =>
      cases rest with
      | nil => rfl
      | cons c rest =>
        have hc : c ≠ byte '?' := fun hc => h (by rw [hc]; rfl)
        exact List.dropWhile_cons_of_neg (by simpa using hc)
    | succ n ih =>
      rw [huhs_succ, List.dropWhile_cons_of_pos (by simp), ih]
  rw [behindHuhs, hdrop]

theorem readAs_huhs (n : ℕ) (rest : Bytes) : readAs (huhs n rest) = huhs n (readAs rest) := by
  induction n with
  | zero => rfl
  | succ n ih => rw [huhs_succ, readAs_cons (by decide), ih, huhs_succ]

/-- A `*` with a character behind it, or behind some `?`s. -/
theorem readAs_star_literal (n : ℕ) {c : UInt8} (hc : IsLiteral c) (rest : Bytes) :
    readAs (byte '*' :: huhs n (c :: rest)) =
      byte '*' :: c :: readAs ((huhs n (c :: rest)).drop 1) := by
  have hbehind : ∀ k, behindHuhs (huhs k (c :: rest)) = some c := fun k => by
    rw [behindHuhs_huhs k (by simpa using hc.2)]
    simpa using hc.1
  cases n with
  | zero =>
    show readAs (byte '*' :: c :: rest) = byte '*' :: c :: readAs rest
    rw [readAs, if_neg fun h => hc.2 h.2, readAs_cons hc.1]
  | succ n =>
    rw [huhs_succ, readAs, if_pos ⟨rfl, rfl⟩, hbehind]
    rfl

/-- A `*` with a `*` or nothing behind it, or behind some `?`s. -/
theorem readAs_star_wild (n : ℕ) {rest : Bytes} (h : rest = [] ∨ rest.head? = some (byte '*')) :
    readAs (byte '*' :: huhs n rest) = byte '*' :: huhs n (readAs rest) := by
  have hhead : rest.head? ≠ some (byte '?') := by
    rcases h with rfl | h
    · simp
    · rw [h]
      decide
  have hbehind : ∀ k, behindHuhs (huhs k rest) = none := fun k => by
    rw [behindHuhs_huhs k hhead]
    rcases h with rfl | h
    · rfl
    · rw [h]
      rfl
  cases n with
  | zero =>
    cases rest with
    | nil => rfl
    | cons d rest =>
      obtain rfl : d = byte '*' := by simpa using h
      show readAs (byte '*' :: byte '*' :: rest) = byte '*' :: readAs (byte '*' :: rest)
      rw [readAs, if_neg (by decide)]
  | succ n =>
    rw [huhs_succ, readAs, if_pos ⟨rfl, rfl⟩, hbehind]
    show byte '*' :: readAs (huhs (n + 1) rest) = _
    rw [readAs_huhs, huhs_succ]

/-! ### Languages of patterns -/

section Languages

variable {pat str x t : Bytes} {c : UInt8}

theorem denotes_nil_iff : Denotes [] str ↔ str = [] := Glob.mem_nil_iff

theorem Denotes.huh (h : Denotes pat str) : Denotes (byte '?' :: pat) str := Glob.mem_wild h

theorem Denotes.huhs (n : ℕ) (h : Denotes pat str) : Denotes (huhs n pat) str := by
  induction n with
  | zero => exact h
  | succ n ih => exact ih.huh

/-- A `*` takes any string. -/
theorem Denotes.star (h : Denotes pat t) (x : Bytes) : Denotes (byte '*' :: pat) (x ++ t) :=
  Glob.append_mem_wild (fun _ _ => trivial) h

theorem denotes_huh_huh :
    Denotes (byte '?' :: byte '?' :: pat) str ↔ Denotes (byte '?' :: pat) str :=
  Glob.mem_wild_wild fun _ h => h

theorem denotes_huh_star :
    Denotes (byte '?' :: byte '*' :: pat) str ↔ Denotes (byte '*' :: pat) str :=
  Glob.mem_wild_wild fun _ _ => trivial

theorem denotes_star_star :
    Denotes (byte '*' :: byte '*' :: pat) str ↔ Denotes (byte '*' :: pat) str :=
  Glob.mem_wild_wild fun _ h => h

/-- `?`s in front of a `*` do nothing. -/
theorem denotes_huhs_star (n : ℕ) :
    Denotes (huhs n (byte '*' :: pat)) str ↔ Denotes (byte '*' :: pat) str := by
  induction n with
  | zero => rfl
  | succ n ih =>
    cases n with
    | zero => exact denotes_huh_star
    | succ n => exact denotes_huh_huh.trans ih

theorem denotes_star_huhs_star (n : ℕ) :
    Denotes (byte '*' :: huhs n (byte '*' :: pat)) str ↔ Denotes (byte '*' :: pat) str := by
  constructor
  · intro h
    obtain ⟨x, -, t, ht, rfl⟩ := Glob.mem_wild_iff.1 h
    exact denotes_star_star.1 (((denotes_huhs_star n).1 ht).star x)
  · intro h
    exact (((denotes_huhs_star n).2 h).star [])

theorem denotes_huh_iff : Denotes [byte '?'] str ↔ byte '.' ∉ str := by
  refine Glob.mem_wild_singleton_iff.trans ⟨fun h hdot => h _ hdot rfl, fun h a ha => ?_⟩
  rintro rfl
  exact h ha

theorem denotes_star_huhs (n : ℕ) (str : Bytes) : Denotes (byte '*' :: huhs n []) str := by
  have h : Denotes (Istatd.huhs n []) [] := (denotes_nil_iff.2 rfl).huhs n
  simpa using h.star str

theorem denotes_cons_iff (hc : IsLiteral c) (d : UInt8) :
    Denotes (c :: pat) (d :: str) ↔ c = d ∧ Denotes pat str := by
  unfold Denotes
  rw [List.map_cons, patItem_literal hc]
  exact Glob.cons_mem_lit_iff

theorem not_denotes_cons_nil (hc : IsLiteral c) : ¬ Denotes (c :: pat) [] := by
  unfold Denotes
  rw [List.map_cons, patItem_literal hc]
  exact Glob.nil_not_mem_lit

/-- A `*` and the character behind it. -/
theorem denotes_star_literal_iff (hc : IsLiteral c) (hx : c ∉ x) :
    Denotes (byte '*' :: c :: pat) (x ++ c :: t) ↔
      Denotes pat t ∨ Denotes (byte '*' :: c :: pat) t := by
  unfold Denotes
  rw [List.map_cons, List.map_cons, patItem_literal hc, patItem_star, Glob.mem_wild_lit_iff hx]
  simp

/-- A `?` and the character behind it. -/
theorem denotes_huh_literal_iff (hc : IsLiteral c) (hx : c ∉ x) :
    Denotes (byte '?' :: c :: pat) (x ++ c :: t) ↔
      byte '.' ∉ x ∧ (Denotes pat t ∨ (c ≠ byte '.' ∧ Denotes (byte '?' :: c :: pat) t)) := by
  unfold Denotes
  rw [List.map_cons, List.map_cons, patItem_literal hc, patItem_huh, Glob.mem_wild_lit_iff hx]
  refine and_congr_left fun _ => ⟨fun h hdot => h _ hdot rfl, fun h a ha => ?_⟩
  rintro rfl
  exact h ha

theorem not_denotes_wild_literal {w : UInt8} (hw : ¬ IsLiteral w) (hc : IsLiteral c)
    (h : c ∉ str) : ¬ Denotes (w :: c :: pat) str := by
  unfold Denotes
  rw [List.map_cons, List.map_cons, patItem_literal hc]
  by_cases hstar : w = byte '*'
  · rw [hstar, patItem_star]
    exact Glob.not_mem_wild_lit h
  · obtain rfl : w = byte '?' := by
      by_contra hne
      exact hw ⟨hstar, hne⟩
    exact Glob.not_mem_wild_lit h

end Languages

/-! ### The rounds of the loop -/

namespace PatStat

/-- The positions are in the string and in the pattern. -/
def Within (str pat : Bytes) (s : PatStat) : Prop := s.pstr ≤ str.length ∧ s.ppat ≤ pat.length

/-- How many characters there are from the positions on. -/
def left (str pat : Bytes) (s : PatStat) : ℕ := (str.length - s.pstr) + (pat.length - s.ppat)

/-- Further on in the string or in the pattern. -/
def Further (str pat : Bytes) (s s' : PatStat) : Prop :=
  s'.Within str pat ∧ s'.left str pat < s.left str pat

/-- What is left of the string is in the language of what is left of the pattern, as it is read. -/
def Accepts (str pat : Bytes) (s : PatStat) : Prop :=
  Denotes (readAs (pat.drop s.ppat)) (str.drop s.pstr)

end PatStat

/-- What a round should do: return if the rest matches, go back if it does not, and go on with rests
that together match what there was to match. -/
def PatStep.Right (str pat : Bytes) (s : PatStat) : PatStep → Prop
  | .done result => result = true ∧ s.Accepts str pat
  | .pop => ¬ s.Accepts str pat
  | .go next => s.Further str pat next ∧ (s.Accepts str pat ↔ next.Accepts str pat)
  | .push saved next => s.Further str pat saved ∧ s.Further str pat next ∧
      (s.Accepts str pat ↔ next.Accepts str pat ∨ saved.Accepts str pat)

section Rounds

variable {str pat rest x t : Bytes} {c : UInt8} {s : PatStat}

theorem drop_succ_of_drop {l l' : Bytes} {i : ℕ} (h : l.drop i = c :: l') :
    l.drop (i + 1) = l' := by
  rw [← List.drop_drop, h, List.drop_one, List.tail_cons]

theorem lt_length_of_drop {l l' : Bytes} {i : ℕ} (h : l.drop i = c :: l') : i < l.length := by
  by_contra hle
  rw [List.drop_eq_nil_of_le (not_lt.1 hle)] at h
  cases h

theorem drop_append_of_drop {l : Bytes} {i : ℕ} (h : l.drop i = x ++ t) :
    l.drop (i + x.length) = t := by
  rw [← List.drop_drop, h, List.drop_left]

theorem getD_of_drop {l l' : Bytes} {i : ℕ} (h : l.drop i = c :: l') : l.getD i 0 = c := by
  rw [List.getD_eq_getElem?_getD, ← List.head?_drop, h]
  rfl

theorem exists_drop_eq_cons {l : Bytes} {i : ℕ} (hle : i ≤ l.length) (hne : i ≠ l.length) :
    ∃ c l', l.drop i = c :: l' := by
  apply List.exists_cons_of_ne_nil
  exact fun h => hne (hle.antisymm (List.drop_eq_nil_iff.1 h))

theorem nextChar_eq (l : Bytes) (i : ℕ) : nextChar l i = (l.drop (i + 1)).headD 0 := by
  unfold nextChar
  rw [List.headD_eq_head?_getD, List.head?_drop, List.getD_eq_getElem?_getD]
  split_ifs with h
  · rw [List.getElem?_eq_none h.ge]
    rfl
  · rfl

theorem ne_zero_of_drop {i : ℕ} (h0 : 0 ∉ pat) (h : pat.drop i = rest) (hc : c ∈ rest) : c ≠ 0 := by
  rintro rfl
  exact h0 (List.mem_of_mem_drop (h ▸ hc))

theorem findFirstOf_eq_none_iff {l : Bytes} {i : ℕ} : findFirstOf l c i = none ↔ c ∉ l.drop i := by
  constructor
  · intro h hc
    obtain ⟨y, z, hl, hy⟩ := List.eq_append_cons_of_mem hc
    rw [findFirstOf_of_drop hl hy] at h
    cases h
  · exact findFirstOf_of_not_mem

/-- Further on in the pattern only. -/
theorem further_pat (hs : s.Within str pat) {ppat : ℕ} (hlt : s.ppat < ppat)
    (hpat : ppat ≤ pat.length) : s.Further str pat ⟨s.pstr, ppat⟩ := by
  refine ⟨⟨hs.1, hpat⟩, ?_⟩
  simp only [PatStat.left]
  omega

/-- The positions behind a character that has been found. -/
theorem further_found (hstr : str.drop s.pstr = x ++ c :: t) {ppat : ℕ} (hle : s.ppat ≤ ppat)
    (hpat : ppat ≤ pat.length) :
    s.Further str pat ⟨x.length + s.pstr + 1, ppat⟩ ∧
      str.drop (x.length + s.pstr + 1) = t := by
  have hlt : x.length + s.pstr < str.length := by
    have := congrArg List.length hstr
    rw [List.length_drop, List.length_append, List.length_cons] at this
    omega
  refine ⟨⟨⟨hlt, hpat⟩, ?_⟩, ?_⟩
  · simp only [PatStat.left]
    omega
  · rw [Nat.add_comm x.length]
    exact drop_succ_of_drop (drop_append_of_drop hstr)

/-- The character behind a wildcard has been found. -/
theorem found_right (hs : s.Within str pat) (hstr : str.drop s.pstr = x ++ c :: t)
    (hpat : s.ppat + 2 ≤ pat.length)
    (h : s.Accepts str pat ↔
      Denotes (readAs (pat.drop (s.ppat + 2))) t ∨ Denotes (readAs (pat.drop s.ppat)) t) :
    (PatStep.found s (x.length + s.pstr)).Right str pat s := by
  obtain ⟨hsaved, hdrop⟩ := further_found hstr le_rfl hs.2
  obtain ⟨hnext, -⟩ := further_found hstr (Nat.le_add_right s.ppat 2) hpat
  refine ⟨hsaved, hnext, ?_⟩
  rw [h]
  simp only [PatStat.Accepts, hdrop]

theorem readAs_star (pat : Bytes) : ∃ pat', readAs (byte '*' :: pat) = byte '*' :: pat' := by
  cases pat with
  | nil => exact ⟨[], rfl⟩
  | cons d pat =>
    rw [readAs]
    split
    · split
      · exact ⟨_, rfl⟩
      · exact ⟨_, rfl⟩
    · exact ⟨_, rfl⟩

/-- The round at a `*`. -/
theorem patStar_right (h0 : 0 ∉ pat) (hs : s.Within str pat)
    (hpat : pat.drop s.ppat = byte '*' :: rest) : (patStar str pat s).Right str pat s := by
  have hlt := lt_length_of_drop hpat
  have hrest := drop_succ_of_drop hpat
  obtain ⟨n, q, rfl, hhead, hn⟩ := exists_huhs rest
  have hq : pat.drop (s.ppat + n + 1) = q := by
    have := drop_append_of_drop hrest
    rwa [List.length_replicate, Nat.add_right_comm] at this
  unfold patStar
  rw [hrest, hn]
  simp only
  rw [nextChar_eq, hq]
  cases q with
  | nil =>
    rw [List.headD_nil, if_pos rfl]
    refine ⟨rfl, ?_⟩
    rw [PatStat.Accepts, hpat, readAs_star_wild n (Or.inl rfl)]
    exact denotes_star_huhs n _
  | cons c q =>
    have hc0 : c ≠ 0 := ne_zero_of_drop h0 hq List.mem_cons_self
    have hcq : c ≠ byte '?' := by simpa using hhead
    have hlen := lt_length_of_drop hq
    rw [List.headD_cons, if_neg hc0]
    by_cases hstar : c = byte '*'
    · rw [if_pos hstar]
      refine ⟨further_pat hs (by omega) hlen.le, ?_⟩
      obtain ⟨q', hq'⟩ := readAs_star q
      simp only [PatStat.Accepts, hpat, hq, hstar]
      rw [readAs_star_wild n (Or.inr rfl), hq']
      exact denotes_star_huhs_star n
    · have hc : IsLiteral c := ⟨hstar, hcq⟩
      have hread : readAs (pat.drop s.ppat) = byte '*' :: c :: readAs (pat.drop (s.ppat + 2)) := by
        rw [hpat, readAs_star_literal n hc, ← hrest, List.drop_drop]
      rw [if_neg hstar]
      by_cases hfind : c ∈ str.drop s.pstr
      · obtain ⟨x, t, hstr, hx⟩ := List.eq_append_cons_of_mem hfind
        rw [findFirstOf_of_drop hstr hx]
        refine found_right hs hstr (by omega) ?_
        rw [PatStat.Accepts, hread, hstr]
        exact denotes_star_literal_iff hc hx
      · rw [findFirstOf_of_not_mem hfind]
        show ¬ Denotes (readAs (pat.drop s.ppat)) _
        rw [hread]
        exact not_denotes_wild_literal (by decide) hc hfind

/-- Whether a dot stands before the character that was found. -/
theorem dot_lt_iff {l : Bytes} {i : ℕ} (h : l.drop i = x ++ c :: t) :
    (∃ dot, findFirstOf l (byte '.') i = some dot ∧ dot < x.length + i) ↔ byte '.' ∈ x := by
  constructor
  · rintro ⟨dot, hdot, hlt⟩
    by_contra hx
    -- the first dot is at or behind the character
    have hmem : byte '.' ∈ l.drop i := by
      by_contra hnone
      rw [findFirstOf_of_not_mem hnone] at hdot
      cases hdot
    obtain ⟨y, z, hy, hdoty⟩ := List.eq_append_cons_of_mem hmem
    rw [findFirstOf_of_drop hy hdoty] at hdot
    obtain rfl := Option.some.inj hdot
    rw [h] at hy
    rcases List.append_eq_append_iff.1 hy with ⟨w, rfl, -⟩ | ⟨w, rfl, hw⟩
    · rw [List.length_append] at hlt
      omega
    · cases w with
      | nil =>
        rw [List.append_nil] at hlt
        omega
      | cons d w =>
        obtain ⟨rfl, -⟩ := List.cons.inj hw
        exact hx (by simp)
  · intro hx
    obtain ⟨y, z, rfl, hy⟩ := List.eq_append_cons_of_mem hx
    rw [List.append_assoc, List.cons_append] at h
    refine ⟨y.length + i, findFirstOf_of_drop h hy, ?_⟩
    rw [List.length_append, List.length_cons]
    omega

/-- The round at a `?` with a character behind it that is found. -/
theorem patQuestion_found (hc0 : c ≠ 0) (hc : IsLiteral c) (hnext : nextChar pat s.ppat = c)
    (hstr : str.drop s.pstr = x ++ c :: t) (hx : c ∉ x) :
    patQuestion str pat s =
      if byte '.' ∈ x then .pop
      else if c ≠ byte '.' then .found s (x.length + s.pstr)
      else .go ⟨x.length + s.pstr + 1, s.ppat + 2⟩ := by
  have hdot := dot_lt_iff hstr
  unfold patQuestion
  simp only [hnext]
  rw [if_neg hc0, if_neg (not_or.2 ⟨hc.2, hc.1⟩), findFirstOf_of_drop hstr hx]
  cases hfind : findFirstOf str (byte '.') s.pstr with
  | none =>
    have hnot : byte '.' ∉ x := fun hmem => by
      obtain ⟨dot, h, -⟩ := hdot.2 hmem
      rw [hfind] at h
      cases h
    rw [if_neg hnot]
  | some dot =>
    have hiff : dot < x.length + s.pstr ↔ byte '.' ∈ x := by
      rw [← hdot, hfind]
      simp
    simp only [hiff]

/-- The round at a `?` that ends the pattern: what is left of the string must have no dot. -/
theorem patQuestion_right_end (hpat : pat.drop s.ppat = [byte '?']) :
    (patQuestion str pat s).Right str pat s := by
  have hnext : nextChar pat s.ppat = 0 := by
    rw [nextChar_eq, drop_succ_of_drop hpat, List.headD_nil]
  have haccepts : s.Accepts str pat ↔ byte '.' ∉ str.drop s.pstr := by
    rw [PatStat.Accepts, hpat, readAs]
    exact denotes_huh_iff
  unfold patQuestion
  simp only [hnext]
  rw [if_pos trivial]
  by_cases hdot : byte '.' ∈ str.drop s.pstr
  · rw [if_neg fun h => findFirstOf_eq_none_iff.1 h hdot]
    exact fun h => haccepts.1 h hdot
  · rw [if_pos (findFirstOf_of_not_mem hdot)]
    exact ⟨rfl, haccepts.2 hdot⟩

/-- The round at a `?` with another wildcard behind it, which may take all that the `?` does. -/
theorem patQuestion_right_wild (h0 : 0 ∉ pat) (hs : s.Within str pat)
    (hpat : pat.drop s.ppat = byte '?' :: c :: rest) (hwild : c = byte '?' ∨ c = byte '*') :
    (patQuestion str pat s).Right str pat s := by
  have hrest := drop_succ_of_drop hpat
  have hc0 : c ≠ 0 := ne_zero_of_drop h0 hrest List.mem_cons_self
  have hnext : nextChar pat s.ppat = c := by rw [nextChar_eq, hrest, List.headD_cons]
  unfold patQuestion
  simp only [hnext]
  rw [if_neg hc0, if_pos hwild]
  refine ⟨further_pat hs (Nat.lt_succ_self _) (lt_length_of_drop hrest).le, ?_⟩
  simp only [PatStat.Accepts, hpat, hrest]
  rw [readAs_cons (by decide)]
  rcases hwild with rfl | rfl
  · rw [readAs_cons (by decide)]
    exact denotes_huh_huh
  · obtain ⟨q', hq'⟩ := readAs_star rest
    rw [hq']
    exact denotes_huh_star

/-- The round at a `?` with a character behind it, which is found or not. -/
theorem patQuestion_right_literal (h0 : 0 ∉ pat) (hs : s.Within str pat) (hc : IsLiteral c)
    (hpat : pat.drop s.ppat = byte '?' :: c :: rest) : (patQuestion str pat s).Right str pat s := by
  have hrest := drop_succ_of_drop hpat
  have hlen := lt_length_of_drop hrest
  have hc0 : c ≠ 0 := ne_zero_of_drop h0 hrest List.mem_cons_self
  have hnext : nextChar pat s.ppat = c := by rw [nextChar_eq, hrest, List.headD_cons]
  have hread : readAs (pat.drop s.ppat) = byte '?' :: c :: readAs (pat.drop (s.ppat + 2)) := by
    rw [hpat, readAs_cons (by decide), readAs_cons hc.1, drop_succ_of_drop hrest]
  by_cases hfind : c ∈ str.drop s.pstr
  · obtain ⟨x, t, hstr, hx⟩ := List.eq_append_cons_of_mem hfind
    have haccepts : s.Accepts str pat ↔ byte '.' ∉ x ∧
        (Denotes (readAs (pat.drop (s.ppat + 2))) t ∨
          (c ≠ byte '.' ∧ Denotes (readAs (pat.drop s.ppat)) t)) := by
      rw [PatStat.Accepts, hread, hstr]
      exact denotes_huh_literal_iff hc hx
    rw [patQuestion_found hc0 hc hnext hstr hx]
    by_cases hdot : byte '.' ∈ x
    · rw [if_pos hdot]
      exact fun h => (haccepts.1 h).1 hdot
    rw [if_neg hdot]
    by_cases hcdot : c = byte '.'
    · -- a dot is where the `?` ends, so that nothing is kept on the stack
      obtain ⟨hfurther, hdrop⟩ :=
        further_found hstr (Nat.le_add_right s.ppat 2) (by omega : s.ppat + 2 ≤ pat.length)
      rw [if_neg (not_not.2 hcdot)]
      refine ⟨hfurther, ?_⟩
      rw [haccepts]
      simp [hdot, hcdot, PatStat.Accepts, hdrop]
    · rw [if_pos hcdot]
      apply found_right hs hstr (by omega)
      rw [haccepts]
      simp [hdot, hcdot]
  · unfold patQuestion
    simp only [hnext]
    rw [if_neg hc0, if_neg (not_or.2 ⟨hc.2, hc.1⟩), findFirstOf_of_not_mem hfind]
    show ¬ Denotes (readAs (pat.drop s.ppat)) _
    rw [hread]
    exact not_denotes_wild_literal (by decide) hc hfind

/-- The round at a `?`. -/
theorem patQuestion_right (h0 : 0 ∉ pat) (hs : s.Within str pat)
    (hpat : pat.drop s.ppat = byte '?' :: rest) : (patQuestion str pat s).Right str pat s := by
  cases rest with
  | nil => exact patQuestion_right_end hpat
  | cons c rest =>
    by_cases hwild : c = byte '?' ∨ c = byte '*'
    · exact patQuestion_right_wild h0 hs hpat hwild
    · rw [not_or] at hwild
      exact patQuestion_right_literal h0 hs ⟨hwild.2, hwild.1⟩ hpat

/-- The round at the end of the pattern. -/
theorem patStep_right_end (hs : s.Within str pat) (hend : s.ppat = pat.length) :
    (patStep str pat s).Right str pat s := by
  have haccepts : s.Accepts str pat ↔ s.pstr = str.length := by
    rw [PatStat.Accepts, List.drop_eq_nil_of_le hend.ge, readAs, denotes_nil_iff,
      List.drop_eq_nil_iff]
    exact ⟨fun h => hs.1.antisymm h, fun h => h.ge⟩
  unfold patStep
  rw [if_pos hend]
  by_cases hstr : s.pstr = str.length
  · rw [if_pos hstr]
    exact ⟨rfl, haccepts.2 hstr⟩
  · rw [if_neg hstr]
    exact fun h => hstr (haccepts.1 h)

/-- The round at a character of the pattern that is no wildcard. -/
theorem patStep_right_literal (hs : s.Within str pat) (hc : IsLiteral c)
    (hpat : pat.drop s.ppat = c :: rest) : (patStep str pat s).Right str pat s := by
  have hlt := lt_length_of_drop hpat
  have hread : readAs (pat.drop s.ppat) = c :: readAs rest := by rw [hpat, readAs_cons hc.1]
  unfold patStep
  simp only [getD_of_drop hpat]
  rw [if_neg hlt.ne, if_neg hc.2, if_neg hc.1]
  by_cases hstr : s.pstr = str.length
  · rw [if_pos hstr]
    show ¬ Denotes (readAs (pat.drop s.ppat)) _
    rw [hread, List.drop_eq_nil_of_le hstr.ge]
    exact not_denotes_cons_nil hc
  rw [if_neg hstr]
  obtain ⟨d, t, hd⟩ := exists_drop_eq_cons hs.1 hstr
  have haccepts : s.Accepts str pat ↔ c = d ∧ Denotes (readAs rest) t := by
    rw [PatStat.Accepts, hread, hd, denotes_cons_iff hc]
  rw [getD_of_drop hd]
  by_cases hcd : c = d
  · rw [if_neg (not_not.2 hcd)]
    have hslt := lt_length_of_drop hd
    refine ⟨⟨⟨hslt, hlt⟩, ?_⟩, ?_⟩
    · simp only [PatStat.left]
      omega
    · rw [haccepts, PatStat.Accepts, drop_succ_of_drop hpat, drop_succ_of_drop hd]
      exact and_iff_right hcd
  · rw [if_pos hcd]
    exact fun h => hcd (haccepts.1 h).1

/-- **A round of the loop** does what it should. -/
theorem patStep_right (h0 : 0 ∉ pat) (hs : s.Within str pat) :
    (patStep str pat s).Right str pat s := by
  by_cases hend : s.ppat = pat.length
  · exact patStep_right_end hs hend
  obtain ⟨c, rest, hpat⟩ := exists_drop_eq_cons hs.2 hend
  by_cases hhuh : c = byte '?'
  · unfold patStep
    simp only [getD_of_drop hpat]
    rw [if_neg hend, if_pos hhuh]
    exact patQuestion_right h0 hs (hhuh ▸ hpat)
  by_cases hstar : c = byte '*'
  · unfold patStep
    simp only [getD_of_drop hpat]
    rw [if_neg hend, if_neg hhuh, if_pos hstar]
    exact patStar_right h0 hs (hstar ▸ hpat)
  exact patStep_right_literal hs ⟨hstar, hhuh⟩ hpat

end Rounds

/-! ### The loop -/

section Loop

variable {str pat : Bytes}

/-- How many rounds a pair of positions, and all that comes from it, may take. -/
def PatStat.cost (str pat : Bytes) (s : PatStat) : ℕ := 3 ^ s.left str pat

theorem PatStat.Further.cost_le {s s' : PatStat} (h : s.Further str pat s') :
    3 * s'.cost str pat ≤ s.cost str pat := by
  unfold PatStat.cost
  rw [← Nat.pow_succ']
  exact Nat.pow_le_pow_right (by decide) h.2

/-- At both ends there is nothing left to match. -/
theorem PatStat.accepts_of_ends {s : PatStat} (hstr : s.pstr = str.length)
    (hpat : s.ppat = pat.length) : s.Accepts str pat := by
  rw [PatStat.Accepts, List.drop_eq_nil_of_le hpat.ge, List.drop_eq_nil_of_le hstr.ge]
  exact denotes_nil_iff.2 rfl

theorem PatStat.cost_pos (str pat : Bytes) (s : PatStat) : 0 < s.cost str pat :=
  Nat.pow_pos (by decide)

/-- **The loop ends**, and returns whether something on the stack matches. -/
theorem patLoop_spec (h0 : 0 ∉ pat) {n : ℕ} {s : PatStat} {backup : List PatStat}
    (hs : s.Within str pat) (hbackup : ∀ b ∈ backup, b.Within str pat)
    (hn : s.cost str pat + (backup.map (PatStat.cost str pat)).sum ≤ n) :
    ∃ result, patLoop str pat n s backup = some result ∧
      (result = true ↔ s.Accepts str pat ∨ ∃ b ∈ backup, b.Accepts str pat) := by
  induction n generalizing s backup with
  | zero =>
    have := s.cost_pos str pat
    omega
  | succ n ih =>
    have hpos := s.cost_pos str pat
    have hright := patStep_right h0 hs
    unfold patLoop
    cases hstep : patStep str pat s with
    | done result =>
      rw [hstep] at hright
      exact ⟨result, rfl, iff_of_true hright.1 (Or.inl hright.2)⟩
    | pop =>
      rw [hstep] at hright
      cases backup with
      | nil =>
        refine ⟨_, rfl, iff_of_false ?_ ?_⟩
        · intro h
          rw [Bool.and_eq_true, decide_eq_true_iff, decide_eq_true_iff] at h
          exact hright (PatStat.accepts_of_ends h.1 h.2)
        · rintro (h | ⟨b, hb, -⟩)
          · exact hright h
          · cases hb
      | cons b rest =>
        obtain ⟨hb, hrest⟩ := List.forall_mem_cons.1 hbackup
        rw [List.map_cons, List.sum_cons] at hn
        obtain ⟨result, hloop, hiff⟩ := ih hb hrest (by omega)
        refine ⟨result, hloop, hiff.trans ?_⟩
        rw [List.exists_mem_cons_iff, or_iff_right hright]
    | go next =>
      rw [hstep] at hright
      obtain ⟨hfurther, haccepts⟩ := hright
      have hcost := hfurther.cost_le
      obtain ⟨result, hloop, hiff⟩ := ih hfurther.1 hbackup (by omega)
      exact ⟨result, hloop, by rw [hiff, haccepts]⟩
    | push saved next =>
      rw [hstep] at hright
      obtain ⟨hsaved, hnext, haccepts⟩ := hright
      have hcost := hsaved.cost_le
      have hcost' := hnext.cost_le
      obtain ⟨result, hloop, hiff⟩ := ih hnext.1 (List.forall_mem_cons.2 ⟨hsaved.1, hbackup⟩)
        (by rw [List.map_cons, List.sum_cons]; omega)
      refine ⟨result, hloop, hiff.trans ?_⟩
      rw [List.exists_mem_cons_iff, haccepts, or_assoc]

/-- The result is that of the pattern as it is read. -/
theorem strPatMatch_spec (h0 : 0 ∉ pat) (str : Bytes) :
    ∃ result, strPatMatch str pat = some result ∧ (result = true ↔ Denotes (readAs pat) str) := by
  have hcost : (⟨0, 0⟩ : PatStat).cost str pat ≤ 3 ^ (str.length + pat.length + 1) :=
    Nat.pow_le_pow_right (by decide) (Nat.le_succ _)
  have hbackup : ∀ b ∈ ([] : List PatStat), b.Within str pat := nofun
  obtain ⟨result, hloop, hiff⟩ :=
    patLoop_spec (s := ⟨0, 0⟩) h0 ⟨Nat.zero_le _, Nat.zero_le _⟩ hbackup hcost
  refine ⟨result, hloop, hiff.trans ?_⟩
  simp [PatStat.Accepts]

end Loop

/-! ### What is matched, and what is not -/

section Language

variable {pat str : Bytes} {c : UInt8}

theorem Denotes.cons_mono {pat' : Bytes} (h : ∀ t, Denotes pat' t → Denotes pat t)
    (hs : Denotes (c :: pat') str) : Denotes (c :: pat) str := by
  obtain ⟨x, hx, t, ht, rfl⟩ := Glob.mem_cons_iff.1 hs
  exact Glob.mem_cons_iff.2 ⟨x, hx, t, h t ht, rfl⟩

/-- What the pattern as it is read stands for is in the language of the pattern. -/
theorem denotes_of_readAs (h : Denotes (readAs pat) str) : Denotes pat str := by
  induction pat using readAs.induct generalizing str with
  | case1 => exact h
  | case2 c => exact h
  | case3 c d pat hwild item hitem ih =>
    rw [readAs, if_pos hwild, hitem] at h
    obtain ⟨rfl, rfl⟩ := hwild
    -- the `*` takes the character as well, and the first `?` nothing
    obtain ⟨x, -, t, ht, rfl⟩ := Glob.mem_wild_iff.1 h
    obtain ⟨y, -, u, hu, rfl⟩ := Glob.mem_cons_iff.1 ht
    rw [← List.append_assoc]
    exact (ih hu).huh.star (x ++ y)
  | case4 c d pat hwild hnone ih =>
    rw [readAs, if_pos hwild, hnone] at h
    exact h.cons_mono fun t => ih
  | case5 c d pat hwild ih =>
    rw [readAs, if_neg hwild] at h
    exact h.cons_mono fun t => ih

/-- Somewhere in the pattern a `*` is followed by `?`s and then by another character. -/
def StarHuhLiteral (pat : Bytes) : Prop :=
  ∃ before n c rest, pat = before ++ byte '*' :: huhs (n + 1) (c :: rest) ∧ IsLiteral c

theorem StarHuhLiteral.cons (h : StarHuhLiteral pat) (c : UInt8) : StarHuhLiteral (c :: pat) := by
  obtain ⟨before, n, d, rest, rfl, hd⟩ := h
  exact ⟨c :: before, n, d, rest, rfl, hd⟩

theorem starHuhLiteral_cons_iff : StarHuhLiteral (c :: pat) ↔
    StarHuhLiteral pat ∨ (c = byte '*' ∧ ∃ n d rest, pat = huhs (n + 1) (d :: rest) ∧
      IsLiteral d) := by
  constructor
  · rintro ⟨before, n, d, rest, h, hd⟩
    cases before with
    | nil =>
      obtain ⟨rfl, rfl⟩ := List.cons.inj h
      exact Or.inr ⟨rfl, n, d, rest, rfl, hd⟩
    | cons c' before =>
      obtain ⟨rfl, rfl⟩ := List.cons.inj h
      exact Or.inl ⟨before, n, d, rest, rfl, hd⟩
  · rintro (h | ⟨rfl, n, d, rest, rfl, hd⟩)
    · exact h.cons c
    · exact ⟨[], n, d, rest, rfl, hd⟩

theorem behindHuhs_eq_some (h : behindHuhs pat = some c) :
    ∃ n rest, pat = huhs n (c :: rest) ∧ IsLiteral c := by
  obtain ⟨n, rest, rfl, hhead, -⟩ := exists_huhs pat
  rw [behindHuhs_huhs n hhead, Option.filter_eq_some_iff] at h
  obtain ⟨hrest, hstar⟩ := h
  obtain ⟨rest, rfl⟩ := List.head?_eq_some_iff.1 hrest
  exact ⟨n, rest, rfl, by simpa using hstar, by simpa using hhead⟩

theorem readAs_cons_of_not (h : ¬ (c = byte '*' ∧ ∃ n d rest, pat = huhs (n + 1) (d :: rest) ∧
    IsLiteral d)) : readAs (c :: pat) = c :: readAs pat := by
  cases pat with
  | nil => rfl
  | cons d pat =>
    rw [readAs]
    split_ifs with hwild
    · obtain ⟨rfl, rfl⟩ := hwild
      cases hbehind : behindHuhs pat with
      | none => rfl
      | some item =>
        obtain ⟨n, rest, rfl, hitem⟩ := behindHuhs_eq_some hbehind
        exact absurd ⟨rfl, n, item, rest, rfl, hitem⟩ h
    · rfl

theorem readAs_of_not_starHuhLiteral (h : ¬ StarHuhLiteral pat) : readAs pat = pat := by
  induction pat with
  | nil => rfl
  | cons c pat ih =>
    rw [starHuhLiteral_cons_iff, not_or] at h
    rw [readAs_cons_of_not h.2, ih h.1]

/-- The characters of a pattern that are not wildcards. -/
def literals (pat : Bytes) : Bytes := Glob.literals (pat.map patItem)

theorem length_literals_cons (c : UInt8) (pat : Bytes) :
    (literals (c :: pat)).length = (if IsLiteral c then 1 else 0) + (literals pat).length := by
  by_cases hc : IsLiteral c
  · rw [if_pos hc, literals, List.map_cons, patItem_literal hc, Nat.add_comm]
    rfl
  · rw [if_neg hc, Nat.zero_add]
    by_cases hstar : c = byte '*'
    · rw [hstar]
      rfl
    · obtain rfl : c = byte '?' := by
        by_contra hne
        exact hc ⟨hstar, hne⟩
      rfl

theorem length_literals_le_readAs (pat : Bytes) :
    (literals pat).length ≤ (literals (readAs pat)).length := by
  induction pat using readAs.induct with
  | case1 => exact le_rfl
  | case2 c => exact le_rfl
  | case3 c d pat hwild item hitem ih =>
    rw [readAs, if_pos hwild, hitem]
    obtain ⟨rfl, rfl⟩ := hwild
    simp only [length_literals_cons]
    rw [if_neg (by decide : ¬ IsLiteral (byte '?'))]
    omega
  | case4 c d pat hwild hnone ih =>
    rw [readAs, if_pos hwild, hnone]
    simp only [length_literals_cons] at ih ⊢
    omega
  | case5 c d pat hwild ih =>
    rw [readAs, if_neg hwild]
    simp only [length_literals_cons] at ih ⊢
    omega

/-- Where the character comes twice, the pattern as it is read has more characters. -/
theorem length_literals_lt_readAs (h : StarHuhLiteral pat) :
    (literals pat).length < (literals (readAs pat)).length := by
  induction pat with
  | nil =>
    obtain ⟨before, n, d, rest, h, -⟩ := h
    simp at h
  | cons c pat ih =>
    by_cases hhere : c = byte '*' ∧ ∃ n d rest, pat = huhs (n + 1) (d :: rest) ∧ IsLiteral d
    · obtain ⟨rfl, n, d, rest, rfl, hd⟩ := hhere
      have hle := length_literals_le_readAs (huhs n (d :: rest))
      rw [readAs_star_literal (n + 1) hd]
      simp only [huhs_succ, List.drop_one, List.tail_cons, length_literals_cons]
      rw [if_pos hd, if_neg (by decide : ¬ IsLiteral (byte '?'))]
      omega
    · have hlt := ih ((starHuhLiteral_cons_iff.1 h).resolve_right hhere)
      rw [readAs_cons_of_not hhere]
      simp only [length_literals_cons]
      omega

theorem lit_mem_iff {a : UInt8} : Glob.Item.lit a ∈ pat.map patItem ↔ a ∈ pat ∧ IsLiteral a := by
  rw [List.mem_map]
  constructor
  · rintro ⟨c, hc, hitem⟩
    unfold patItem at hitem
    split_ifs at hitem with hstar hhuh
    cases hitem
    exact ⟨hc, hstar, hhuh⟩
  · rintro ⟨ha, hlit⟩
    exact ⟨a, ha, patItem_literal hlit⟩

theorem mem_of_mem_literals {a : UInt8} (h : a ∈ literals pat) : a ∈ pat :=
  (lit_mem_iff.1 (Glob.lit_mem_of_mem_literals h)).1

/-- A `*` in a string is taken by a wildcard. -/
theorem Denotes.of_star (h : Denotes pat (byte '*' :: str)) : Denotes pat str :=
  Glob.mem_of_cons_mem (fun hmem => (lit_mem_iff.1 hmem).2.1 rfl) h

/-- **Completeness**: the matcher accepts the language of the pattern as it is read, and that is the
language of the pattern exactly if no `*` is followed by `?`s and another character. -/
theorem strPatMatch_complete_iff (h0 : 0 ∉ pat) :
    (∀ str, strPatMatch str pat = some true ↔ Denotes (readAs pat) str) ∧
      ((∀ str, 0 ∉ str → Denotes pat str → strPatMatch str pat = some true) ↔
        ¬ StarHuhLiteral pat) := by
  have hspec : ∀ str, strPatMatch str pat = some true ↔ Denotes (readAs pat) str := fun str => by
    obtain ⟨result, hresult, hiff⟩ := strPatMatch_spec h0 str
    rw [hresult, Option.some.injEq]
    exact hiff
  refine ⟨hspec, ?_, ?_⟩
  · intro hcomplete hstar
    -- the shortest string is too short for the pattern as it is read
    have hshort : Denotes pat (literals pat) := Glob.literals_mem _
    have hmatch := hcomplete _ (fun h => h0 (mem_of_mem_literals h)) hshort
    have hle : (literals (readAs pat)).length ≤ (literals pat).length :=
      Glob.length_literals_le ((hspec _).1 hmatch)
    exact absurd (length_literals_lt_readAs hstar) hle.not_gt
  · intro hnot str _ hstr
    rw [hspec, readAs_of_not_starHuhLiteral hnot]
    exact hstr

/-- A string that is matched is in the language of the pattern. -/
theorem denotes_of_strPatMatch (h0 : 0 ∉ pat) (h : strPatMatch str pat = some true) :
    Denotes pat str := by
  obtain ⟨result, hresult, hiff⟩ := strPatMatch_spec h0 str
  rw [hresult, Option.some.injEq] at h
  exact denotes_of_readAs (hiff.1 h)

theorem strPatMatch_complete_sample :
    Denotes (bytes "a?*b.") (bytes "axx.yb.") ∧
      strPatMatch (bytes "axx.yb.") (bytes "a?*b.") = some true := by
  have hend : Denotes (bytes "b.") (bytes "b.") := Glob.literals_mem ((bytes "b.").map patItem)
  have hrest : Denotes (byte '?' :: byte '*' :: bytes "b.") (bytes "xx.y" ++ bytes "b.") :=
    (hend.star (bytes "xx.y")).huh
  have hpat : bytes "a?*b." = byte 'a' :: byte '?' :: byte '*' :: bytes "b." := by decide
  have htext : bytes "axx.yb." = byte 'a' :: (bytes "xx.y" ++ bytes "b.") := by decide
  have hstr : Denotes (bytes "a?*b.") (bytes "axx.yb.") := by
    rw [hpat, htext, denotes_cons_iff (by decide)]
    exact ⟨rfl, hrest⟩
  have hfree : 0 ∉ bytes "a?*b." := by decide
  have hnot : ¬ StarHuhLiteral (bytes "a?*b.") := fun h =>
    absurd (length_literals_lt_readAs h) (by decide)
  have hcomplete := (strPatMatch_complete_iff hfree).2.2 hnot
  exact ⟨hstr, hcomplete (bytes "axx.yb.") (by decide) hstr⟩

/-- The string is a `*`, a `?` and the character, the wildcards standing for nothing. -/
theorem strPatMatch_incomplete :
    0 ∉ bytes "a" ∧ 0 ∉ bytes "*?a" ∧ Denotes (bytes "*?a") (bytes "a") ∧
      strPatMatch (bytes "a") (bytes "*?a") = some false := by
  refine ⟨by decide, by decide, ?_, by decide +kernel⟩
  exact Glob.literals_mem ((bytes "*?a").map patItem)

end Language

end Istatd
