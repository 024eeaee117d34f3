import Istatd.Lib.Percent
import Istatd.Lib.SortedMap
import Istatd.SplitN

/-!
# Query strings (`urldecode`, `querystring`)

`urldecode` decodes a string in place, with a position to read at and one to write at.  A read
beyond the end of the string is modelled as a failure; a `%` without two characters behind it ends
the string, and stands for itself.  `querystring` splits a string that it overwrites with what is
left of it.

* `urldecode_eq`: the string after it is that of the decoder;
* `UrlReach.decodes`: where the positions are, in each round of the loop;
* `queryLoop_pairs`: the pairs of a query string;
* `urldecode_querystring`: decoding inverts encoding.
-/

namespace Istatd

/-! ### `urldecode` -/

/-- `g_hexdigs`. -/
def hexdigs : Bytes := bytes "0123456789abcdef"

/-- `g_hexdigs.find_first_of(tolower(ch)) & 0xf`; `npos` has all bits set. -/
def hexValue (ch : UInt8) : UInt8 :=
  match findFirstOf hexdigs (toLower ch) 0 with
  | some i => UInt8.ofNat i &&& 0xf
  | none => 0xf

/-- The loop of `hexdig`, with the rounds that are left: the result, and `ptr`. -/
def hexdigLoop (str : Bytes) : ℕ → ℕ → UInt8 → Option (UInt8 × ℕ)
  | 0, ptr, ch => some (ch, ptr)
  | i + 1, ptr, ch =>
    if ptr + 1 = str.length then some (byte '%', ptr + 1)
    else
      match str[ptr + 1]? with
      | none => none
      | some c => hexdigLoop str i (ptr + 1) ((ch <<< 4) ||| hexValue c)

/-- `hexdig`. -/
def hexdig (str : Bytes) (ptr : ℕ) : Option (UInt8 × ℕ) := hexdigLoop str 2 ptr 0

/-- The string, and the positions. -/
structure UrlState where
  str : Bytes
  src : ℕ
  dst : ℕ

namespace UrlState

/-- `*(dst++) = ch`, and `++src` behind `src`. -/
def put (s : UrlState) (ch : UInt8) (src : ℕ) : UrlState := ⟨s.str.set s.dst ch, src + 1, s.dst + 1⟩

/-- The body of the loop. -/
def step (s : UrlState) : Option UrlState :=
  match s.str[s.src]? with
  | none => none
  | some c =>
    if c = byte '+' then some (s.put (byte ' ') s.src)
    else if c = byte '%' then
      match hexdig s.str s.src with
      | none => none
      | some (ch, src) => some (s.put ch (if src = s.str.length then src - 1 else src))
    else some (s.put c s.src)

/-- The loop, for at most some rounds. -/
def loop : ℕ → UrlState → Option UrlState
  | 0, _ => none
  | fuel + 1, s =>
    if s.src = s.str.length then some s
    else
      match s.step with
      | none => none
      | some s => loop fuel s

/-- The state before the loop. -/
def start (str : Bytes) : UrlState := ⟨str, 0, 0⟩

end UrlState

/-- `urldecode`. -/
def urldecode (str : Bytes) : Option Bytes :=
  (UrlState.loop (str.length + 1) (.start str)).map fun s => s.str.take s.dst

/-- The states at the head of the loop. -/
inductive UrlReach (str : Bytes) : UrlState → Prop
  | start : UrlReach str (.start str)
  | step {s s' : UrlState} : UrlReach str s → s.src ≠ s.str.length → s.step = some s' →
      UrlReach str s'

/-! ### The loop -/

/-- What two characters behind a `%` are read as. -/
def hexPair (a b : UInt8) : UInt8 := (((0 : UInt8) <<< 4 ||| hexValue a) <<< 4) ||| hexValue b

theorem hexValue_of_isDigit {a : UInt8} {v : ℕ} (h : Percent.IsDigit a v) :
    hexValue a = UInt8.ofNat v := by
  have hlt := h.lt
  unfold Percent.IsDigit at h
  interval_cases v <;> rcases h with h | h <;> cases h <;> decide

theorem reads_hexPair : Percent.Reads hexPair := by
  intro a b hi lo ha hb
  have hall : ∀ i j : Fin 16, (((0 : UInt8) <<< 4 ||| UInt8.ofNat i) <<< 4) ||| UInt8.ofNat j =
      UInt8.ofNat (16 * i + j) := by decide
  rw [hexPair, hexValue_of_isDigit ha, hexValue_of_isDigit hb]
  exact hall ⟨hi, ha.lt⟩ ⟨lo, hb.lt⟩

theorem getElem?_of_drop {str l : Bytes} {ptr : ℕ} {c : UInt8} (h : str.drop ptr = c :: l) (i : ℕ) :
    str[ptr + i]? = (c :: l)[i]? := by
  rw [← h, List.getElem?_drop]

theorem length_of_drop {str l : Bytes} {ptr : ℕ} {c : UInt8} (h : str.drop ptr = c :: l) :
    str.length = ptr + l.length + 1 := by
  have hlen := congrArg List.length h
  rw [List.length_drop, List.length_cons] at hlen
  omega

/-- `hexdig` at a `%` with two characters behind it. -/
theorem hexdig_of_drop {str l : Bytes} {ptr : ℕ} {c a b : UInt8}
    (h : str.drop ptr = c :: a :: b :: l) : hexdig str ptr = some (hexPair a b, ptr + 2) := by
  have hlen := length_of_drop h
  rw [List.length_cons, List.length_cons] at hlen
  have ha : str[ptr + 1]? = some a := getElem?_of_drop h 1
  have hb : str[ptr + 1 + 1]? = some b := getElem?_of_drop h 2
  rw [hexdig, hexdigLoop, if_neg (by omega), ha]
  simp only
  rw [hexdigLoop, if_neg (by omega), hb]
  rfl

/-- `hexdig` at a `%` with fewer characters behind it. -/
theorem hexdig_of_short {str l : Bytes} {ptr : ℕ} {c : UInt8} (h : str.drop ptr = c :: l)
    (hshort : l.length < 2) : hexdig str ptr = some (byte '%', str.length) := by
  have hlen := length_of_drop h
  match l, hshort with
  | [], _ =>
    have hend : ptr + 1 = str.length := by simpa using hlen.symm
    rw [hexdig, hexdigLoop, if_pos hend, hend]
  | [a], _ =>
    have hend : ptr + 1 + 1 = str.length := by simpa using hlen.symm
    have ha : str[ptr + 1]? = some a := getElem?_of_drop h 1
    rw [hexdig, hexdigLoop, if_neg (by omega), ha]
    simp only
    rw [hexdigLoop, if_pos hend, hend]

namespace UrlState

/-- The string is decoded in front of `dst`, and as it was behind `src`. -/
structure Decodes (str : Bytes) (s : UrlState) : Prop where
  length : s.str.length = str.length
  dst_le : s.dst ≤ s.src
  src_le : s.src ≤ s.str.length
  value : s.str.take s.dst ++ Percent.decode hexPair (s.str.drop s.src) =
    Percent.decode hexPair str

variable {str : Bytes} {s : UrlState}

/-- A character is written in front of `src`. -/
theorem Decodes.put (h : s.Decodes str) {ch : UInt8} {src : ℕ} (hsrc : s.src ≤ src)
    (hlt : src < s.str.length) (hvalue : Percent.decode hexPair (s.str.drop s.src) =
      ch :: Percent.decode hexPair (s.str.drop (src + 1))) : (s.put ch src).Decodes str := by
  have hle := h.dst_le
  have hdst : s.dst < s.str.length := by omega
  have htake : (s.str.set s.dst ch).take (s.dst + 1) = s.str.take s.dst ++ [ch] := by
    rw [List.take_add_one, List.getElem?_set_self hdst, List.take_set_of_le le_rfl]
    rfl
  have hdrop : (s.str.set s.dst ch).drop (src + 1) = s.str.drop (src + 1) :=
    List.drop_set_of_lt (by omega)
  refine ⟨by rw [UrlState.put, List.length_set, h.length], ?_, ?_, ?_⟩
  · simp only [UrlState.put]
    omega
  · simp only [UrlState.put, List.length_set]
    omega
  · simp only [UrlState.put, htake, hdrop]
    rw [List.append_assoc, List.singleton_append, ← hvalue, h.value]

/-- **One round.** -/
theorem Decodes.step (h : s.Decodes str) (hsrc : s.src ≠ s.str.length) :
    ∃ s', s.step = some s' ∧ s.src < s'.src ∧ s'.Decodes str := by
  have hle := h.src_le
  have hlt : s.src < s.str.length := by omega
  obtain ⟨c, l, hdrop⟩ : ∃ c l, s.str.drop s.src = c :: l :=
    ⟨_, _, List.drop_eq_getElem_cons hlt⟩
  have hlen := length_of_drop hdrop
  have hc : s.str[s.src]? = some c := getElem?_of_drop hdrop 0
  have hnext : s.str.drop (s.src + 1) = l := by
    rw [← List.drop_drop, hdrop]
    rfl
  unfold UrlState.step
  rw [hc]
  simp only
  by_cases hplus : c = byte '+'
  · subst hplus
    rw [if_pos rfl]
    refine ⟨_, rfl, Nat.lt_succ_self _, h.put le_rfl hlt ?_⟩
    rw [hdrop, hnext]
    exact Percent.decode_plus l
  rw [if_neg hplus]
  by_cases hpercent : c = byte '%'
  · subst hpercent
    rw [if_pos rfl]
    by_cases hshort : l.length < 2
    · -- the escape is cut off: `src` is set back from the end
      rw [hexdig_of_short hdrop hshort]
      simp only [if_true]
      refine ⟨_, rfl, by simp only [UrlState.put]; omega, h.put (by omega) (by omega) ?_⟩
      rw [hdrop, Nat.sub_add_cancel (by omega), List.drop_length]
      exact Percent.decode_short hshort
    · obtain ⟨a, l, rfl⟩ := List.exists_cons_of_length_pos (by omega : 0 < l.length)
      rw [List.length_cons] at hshort hlen
      obtain ⟨b, l, rfl⟩ := List.exists_cons_of_length_pos (by omega : 0 < l.length)
      rw [List.length_cons] at hlen
      have hnext2 : s.str.drop (s.src + 2 + 1) = l := by
        rw [Nat.add_assoc, ← List.drop_drop, hdrop]
        rfl
      rw [hexdig_of_drop hdrop]
      simp only
      rw [if_neg (by omega)]
      refine ⟨_, rfl, by simp only [UrlState.put]; omega, h.put (by omega) (by omega) ?_⟩
      rw [hdrop, hnext2]
      exact Percent.decode_escape a b l
  · rw [if_neg hpercent]
    refine ⟨_, rfl, Nat.lt_succ_self _, h.put le_rfl hlt ?_⟩
    rw [hdrop, hnext]
    exact Percent.decode_self hplus hpercent l

theorem decodes_start (str : Bytes) : (start str).Decodes str :=
  ⟨rfl, le_rfl, Nat.zero_le _, rfl⟩

theorem Decodes.loop (h : s.Decodes str) {fuel : ℕ} (hfuel : s.str.length < fuel + s.src) :
    (UrlState.loop fuel s).map (fun s => s.str.take s.dst) =
      some (Percent.decode hexPair str) := by
  induction fuel generalizing s with
  | zero =>
    have := h.src_le
    omega
  | succ fuel ih =>
    rw [UrlState.loop]
    by_cases hend : s.src = s.str.length
    · rw [if_pos hend, Option.map_some, ← h.value, hend, List.drop_length]
      exact congrArg some (List.append_nil _).symm
    · obtain ⟨s', hstep, hlt, hs'⟩ := h.step hend
      rw [if_neg hend, hstep]
      exact ih hs' (by rw [hs'.length, ← h.length]; omega)

end UrlState

/-- **The states of the loop**: the string is decoded up to one position, and as it was from the
other one on. -/
theorem UrlReach.decodes {str : Bytes} {s : UrlState} (h : UrlReach str s) : s.Decodes str := by
  induction h with
  | start => exact UrlState.decodes_start str
  | step _ hend hstep ih =>
    obtain ⟨s', hstep', -, hs'⟩ := ih.step hend
    cases hstep.symm.trans hstep'
    exact hs'

/-- **What `urldecode` does**, with each string. -/
theorem urldecode_eq (str : Bytes) : urldecode str = some (Percent.decode hexPair str) :=
  (UrlState.decodes_start str).loop (Nat.lt_succ_self _)

/-! ### `querystring` -/

section Split

variable {ι : Type} [DecidableEq ι]

/-- `split`, with its strings as references. -/
def splitInto (h : Strings ι) (src : ι) (ch : UInt8) (oLeft oRight : ι) : ℕ × Strings ι :=
  if (h src).length = 0 then (0, Function.update (Function.update h oLeft []) oRight [])
  else
    match findFirstOf (h src) ch 0 with
    | none =>
      let h := Function.update h oLeft (h src)
      (1, Function.update h oRight [])
    | some pos =>
      let h := Function.update h oLeft ((h src).take pos)
      (2, Function.update h oRight ((h src).drop (pos + 1)))

/-- The string that is split may be the second output, as it is written last. -/
theorem splitInto_eq (h : Strings ι) {src oLeft : ι} (hsrc : src ≠ oLeft) (ch : UInt8) (oRight : ι) :
    splitInto h src ch oLeft oRight =
      ((split (h src) ch).1, Function.update (Function.update h oLeft (split (h src) ch).2.1) oRight
        (split (h src) ch).2.2) := by
  unfold splitInto split
  split_ifs
  · rfl
  · cases findFirstOf (h src) ch 0 with
    | none => rfl
    | some pos => simp only [Function.update_of_ne hsrc]

end Split

/-- The strings of `querystring`. -/
inductive QueryVar
  | right
  | value
  | key
  deriving DecidableEq

/-- The loop of `querystring`, for at most some rounds: `n`, and `oQuery`. -/
def queryLoop : ℕ → Strings QueryVar → ℕ → List (Bytes × Bytes) → Option (ℕ × List (Bytes × Bytes))
  | 0, _, _, _ => none
  | fuel + 1, h, n, oQuery =>
    let r := splitInto h .right (byte '&') .value .right
    if r.1 = 0 then some (n, oQuery)
    else
      let r := splitInto r.2 .value (byte '=') .key .value
      if r.1 = 2 then
        match urldecode (r.2 .key), urldecode (r.2 .value) with
        | some key, some value =>
          queryLoop fuel (Function.update (Function.update r.2 .key key) .value value) (n + 1)
            (SortedMap.insert keyRank key value oQuery)
        | _, _ => none
      else queryLoop fuel r.2 n oQuery

/-- `querystring`. -/
def querystring (query : Bytes) (oQuery : List (Bytes × Bytes)) :
    Option (ℕ × List (Bytes × Bytes)) :=
  queryLoop (query.length + 1) (fun x => if x = .right then query else []) 0 oQuery

/-- The text of a key and its value: both are encoded, with `&` and `=` among what is encoded. -/
def PairText (p : Bytes × Bytes) (text : Bytes) : Prop :=
  ∃ key value, Percent.Encoded p.1 key ∧ Percent.Encoded p.2 value ∧
    byte '&' ∉ key ∧ byte '=' ∉ key ∧ byte '&' ∉ value ∧ byte '=' ∉ value ∧
    text = key ++ byte '=' :: value

section Query

variable {h : Strings QueryVar} (fuel n : ℕ) (oQuery : List (Bytes × Bytes))

theorem queryLoop_nil (hright : h .right = []) :
    queryLoop (fuel + 1) h n oQuery = some (n, oQuery) := by
  rw [queryLoop, splitInto_eq h (by decide), hright]
  rfl

/-- A round in which a pair is found. -/
theorem queryLoop_pair {p : Bytes × Bytes} {text rest : Bytes} (hp : PairText p text) {k : ℕ}
    (hk : k ≠ 0) (hsplit : split (h .right) (byte '&') = (k, text, rest)) :
    ∃ h' : Strings QueryVar, h' .right = rest ∧ queryLoop (fuel + 1) h n oQuery =
      queryLoop fuel h' (n + 1) (SortedMap.insert keyRank p.1 p.2 oQuery) := by
  obtain ⟨key, value, hkey, hvalue, -, heq, -, -, rfl⟩ := hp
  have hdecode : ∀ {s t : Bytes}, Percent.Encoded s t → urldecode t = some s := fun hst => by
    rw [urldecode_eq, Percent.decode_of_encoded reads_hexPair hst]
  have houter := splitInto_eq h (by decide : QueryVar.right ≠ .value) (byte '&') .right
  rw [hsplit] at houter
  have hinner := splitInto_eq
    (Function.update (Function.update h .value (key ++ byte '=' :: value)) .right rest)
    (by decide : QueryVar.value ≠ .key) (byte '=') .value
  rw [Function.update_of_ne (by decide), Function.update_self, split_append heq] at hinner
  rw [queryLoop]
  simp only [houter, if_neg hk, hinner, if_true]
  rw [Function.update_of_ne (by decide), Function.update_self, Function.update_self, hdecode hkey,
    hdecode hvalue]
  exact ⟨_, rfl, rfl⟩

/-- **The loop over a list of pairs.** -/
theorem queryLoop_pairs {pairs : List (Bytes × Bytes)} {texts : List Bytes}
    (hpairs : List.Forall₂ PairText pairs texts) (hfuel : pairs.length < fuel)
    (hright : h .right = [byte '&'].intercalate texts) :
    queryLoop fuel h n oQuery = some (n + pairs.length,
      pairs.foldl (fun m p => SortedMap.insert keyRank p.1 p.2 m) oQuery) := by
  induction hpairs generalizing fuel h n oQuery with
  | nil =>
    obtain ⟨fuel, rfl⟩ : ∃ k, fuel = k + 1 := ⟨fuel - 1, by omega⟩
    exact queryLoop_nil _ _ _ hright
  | @cons p text pairs texts hp hpairs ih =>
    obtain ⟨fuel, rfl⟩ : ∃ k, fuel = k + 1 := ⟨fuel - 1, by omega⟩
    rw [List.length_cons] at hfuel
    have hamp : byte '&' ∉ text := by
      obtain ⟨key, value, -, -, hkey, -, hvalue, -, rfl⟩ := hp
      have hne : byte '&' ≠ byte '=' := by decide
      simp [hkey, hvalue, hne]
    have hnext : ∃ k, k ≠ 0 ∧
        split (h .right) (byte '&') = (k, text, [byte '&'].intercalate texts) := by
      cases hpairs with
      | nil =>
        have hpos : text.length ≠ 0 := by
          obtain ⟨key, value, -, -, -, -, -, -, rfl⟩ := hp
          simp
        refine ⟨1, by decide, ?_⟩
        rw [hright, List.intercalate_singleton, split, if_neg hpos, findFirstOf_of_not_mem hamp]
        rfl
      | cons _ _ =>
        refine ⟨2, by decide, ?_⟩
        rw [hright, List.intercalate_cons_cons, List.append_assoc, List.singleton_append,
          split_append hamp]
    obtain ⟨k, hk, hsplit⟩ := hnext
    obtain ⟨h', hright', hloop⟩ := queryLoop_pair fuel n oQuery hp hk hsplit
    rw [hloop, ih _ _ _ (by omega) hright', List.foldl_cons, List.length_cons]
    congr 2
    omega

end Query

/-- A list of pairs is no longer than its text. -/
theorem length_le_intercalate {pairs : List (Bytes × Bytes)} {texts : List Bytes}
    (hpairs : List.Forall₂ PairText pairs texts) :
    pairs.length ≤ ([byte '&'].intercalate texts).length := by
  induction hpairs with
  | nil => exact Nat.zero_le _
  | @cons p text pairs texts hp hpairs ih =>
    have hpos : 0 < text.length := by
      obtain ⟨key, value, -, -, -, -, -, -, rfl⟩ := hp
      simp
    cases hpairs with
    | nil =>
      rw [List.intercalate_singleton]
      exact hpos
    | cons _ _ =>
      rw [List.intercalate_cons_cons, List.length_append, List.length_append]
      rw [List.length_cons, List.length_cons] at *
      omega

/-- **Decoding inverts encoding**, the positions stay in the string on every input, and a query
string yields the pairs that it is made of. -/
theorem urldecode_querystring :
    (∀ s t, Percent.Encoded s t → urldecode t = some s) ∧
      (∀ str, (∃ out, urldecode str = some out) ∧
        ∀ s, UrlReach str s → s.dst ≤ s.src ∧ s.src ≤ str.length ∧ s.str.length = str.length ∧
          (s.src ≠ s.str.length → ∃ s', s.step = some s')) ∧
      ∀ pairs texts, (pairs.map Prod.fst).Nodup → List.Forall₂ PairText pairs texts →
        ∃ m, querystring ([byte '&'].intercalate texts) [] = some (pairs.length, m) ∧
          m.Perm pairs := by
  refine ⟨fun s t hst => ?_, fun str => ⟨⟨_, urldecode_eq str⟩, fun s hs => ?_⟩,
    fun pairs texts hnodup hpairs => ?_⟩
  · rw [urldecode_eq, Percent.decode_of_encoded reads_hexPair hst]
  · obtain ⟨hlen, hdst, hsrc, -⟩ := hs.decodes
    refine ⟨hdst, hlen ▸ hsrc, hlen, fun hend => ?_⟩
    obtain ⟨s', hstep, -⟩ := hs.decodes.step hend
    exact ⟨s', hstep⟩
  · have hfuel := Nat.lt_succ_of_le (length_le_intercalate hpairs)
    have hperm : (pairs.foldl (fun m p => SortedMap.insert keyRank p.1 p.2 m) []).Perm
        ([] ++ pairs) :=
      SortedMap.foldl_insert_perm hnodup fun _ _ => List.not_mem_nil
    refine ⟨_, ?_, hperm⟩
    rw [querystring, queryLoop_pairs _ _ _ hpairs hfuel rfl, Nat.zero_add]

/-- Two pairs, one with an escape. -/
theorem urldecode_querystring_sample :
    ([(bytes "foo", bytes "bar"), (bytes "baz", bytes " ")].map Prod.fst).Nodup ∧
      List.Forall₂ PairText [(bytes "foo", bytes "bar"), (bytes "baz", bytes " ")]
        [bytes "foo=bar", bytes "baz=%20"] ∧
      ∃ m, querystring (bytes "foo=bar&baz=%20") [] = some (2, m) ∧
        m.Perm [(bytes "foo", bytes "bar"), (bytes "baz", bytes " ")] := by
  have hself : ∀ {c : UInt8} {s t : Bytes}, c ≠ 32 → c ≠ 37 → c ≠ 43 → Percent.Encoded s t →
      Percent.Encoded (c :: s) (c :: t) := fun h1 h2 h3 h => .cons (.self h1 h2 h3) h
  have hword : ∀ s : Bytes, (∀ c ∈ s, c ≠ 32 ∧ c ≠ 37 ∧ c ≠ 43) → Percent.Encoded s s := by
    intro s
    induction s with
    | nil => exact fun _ => .nil
    | cons c s ih =>
      intro h
      obtain ⟨⟨h1, h2, h3⟩, hs⟩ := List.forall_mem_cons.1 h
      exact hself h1 h2 h3 (ih hs)
  have htwo : Percent.IsDigit (byte '2') 2 := Or.inl rfl
  have hzero : Percent.IsDigit (byte '0') 0 := Or.inl rfl
  have hspace : Percent.Encoded (bytes " ") (bytes "%20") := .cons (.escape htwo hzero rfl) .nil
  have hnodup : ([(bytes "foo", bytes "bar"), (bytes "baz", bytes " ")].map Prod.fst).Nodup := by
    decide
  have hpairs : List.Forall₂ PairText [(bytes "foo", bytes "bar"), (bytes "baz", bytes " ")]
      [bytes "foo=bar", bytes "baz=%20"] := by
    refine .cons ⟨_, _, hword _ (by decide +kernel), hword (bytes "bar") (by decide +kernel), ?_⟩
      (.cons ⟨_, _, hword _ (by decide +kernel), hspace, ?_⟩ .nil)
    · decide
    · decide
  exact ⟨hnodup, hpairs, urldecode_querystring.2.2 _ _ hnodup hpairs⟩

end Istatd
