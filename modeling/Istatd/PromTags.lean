import Istatd.Lib.FirstFit
import Istatd.PromExporter

/-!
# The tags of a metric (`PromExporter::extract_tags`)

The name of a counter behind the common base may be a tag and its value: its part before a period
is the name of the tag, if that is one that is allowed and something follows.  The scan for it takes
the first such period.  The pairs go to groups in which no tag stands twice.

* `getTagPos_iff`: the position is the first of those at which a tag ends;
* `tagOf_eq_some_iff`: the pair that a name stands for;
* `extractTags_groups`: the groups and the names without tags.
-/

namespace Istatd

namespace PromConfig

variable (cfg : PromConfig)

/-- A name of a tag. -/
def Allowed (tag : Bytes) : Prop := tag ∈ allowedTags ∨ tag ∈ cfg.extraAllowedTags

/-- The tag and its value, if a name may be cut into them. -/
def Cut (part tag value : Bytes) : Prop :=
  part = tag ++ byte '.' :: value ∧ value ≠ [] ∧ cfg.Allowed tag

/-- The pair that a name stands for: the shortest tag, munged, and its value. -/
def Denotes (base name : Bytes) (pair : Bytes × Bytes) : Prop :=
  ∃ part tag value, name = base ++ byte '.' :: part ∧ cfg.Cut part tag value ∧
    (∀ tag' value', cfg.Cut part tag' value' → tag.length ≤ tag'.length) ∧
    pair = (promMungeOrMunge tag cfg.mapMetricName, value)

/-! ### The scan -/

/-- A position in `'.' :: part` at which a tag ends. -/
def TagEnd (part : Bytes) (pos : ℕ) : Prop :=
  ∃ tag value, cfg.Cut part tag value ∧ pos = tag.length + 1

section Scan

variable {cfg} {part : Bytes} {pos start : ℕ}

theorem tagEnd_bounds (h : cfg.TagEnd part pos) : 1 ≤ pos ∧ pos + 1 < (byte '.' :: part).length := by
  obtain ⟨tag, value, ⟨rfl, hvalue, -⟩, rfl⟩ := h
  have hpos := List.length_pos_of_ne_nil hvalue
  simp
  omega

/-- The tag and the value at a position. -/
theorem cut_of_tagEnd (h : cfg.TagEnd part pos) :
    cfg.Cut part (part.take (pos - 1)) ((byte '.' :: part).drop (pos + 1)) := by
  obtain ⟨tag, value, hcut, rfl⟩ := h
  obtain ⟨rfl, hvalue, htag⟩ := hcut
  rw [Nat.add_sub_cancel, List.take_left, List.drop_succ_cons, ← List.drop_drop, List.drop_left]
  exact ⟨rfl, hvalue, htag⟩

/-- The period of a position is in front of it or behind the first one. -/
theorem le_of_tagEnd {x y : Bytes} (hdrop : (byte '.' :: part).drop start = x ++ byte '.' :: y)
    (hx : byte '.' ∉ x) (h : cfg.TagEnd part pos) (hstart : start ≤ pos) :
    x.length + start ≤ pos := by
  obtain ⟨tag, value, ⟨rfl, -, -⟩, rfl⟩ := h
  by_contra! hlt
  refine hx (List.mem_iff_getElem?.2 ⟨tag.length + 1 - start, ?_⟩)
  have hget : ((byte '.' :: (tag ++ byte '.' :: value)).drop start)[tag.length + 1 - start]? =
      some (byte '.') := by
    rw [List.getElem?_drop, Nat.add_sub_cancel' hstart, List.getElem?_cons_succ]
    simp
  rwa [hdrop, List.getElem?_append_left (by omega)] at hget

theorem not_tagEnd_of_not_mem (hdrop : byte '.' ∉ (byte '.' :: part).drop start)
    (hstart : start ≤ pos) : ¬ cfg.TagEnd part pos := by
  rintro ⟨tag, value, ⟨rfl, -, -⟩, rfl⟩
  refine hdrop (List.mem_iff_getElem?.2 ⟨tag.length + 1 - start, ?_⟩)
  rw [List.getElem?_drop, Nat.add_sub_cancel' hstart, List.getElem?_cons_succ]
  simp

/-- Where the scan finds a period, there is a part in front of it and one behind it. -/
theorem cut_at {s : ℕ} {x y : Bytes} (hdrop : part.drop s = x ++ byte '.' :: y) :
    part = part.take (x.length + s) ++ byte '.' :: y ∧
      (part.take (x.length + s)).length = x.length + s := by
  have hrest : part.drop (x.length + s) = byte '.' :: y := by
    rw [Nat.add_comm, ← List.drop_drop, hdrop, List.drop_left]
  have hlen := congrArg List.length hrest
  rw [List.length_drop, List.length_cons] at hlen
  refine ⟨?_, List.length_take_of_le (by omega)⟩
  rw [← hrest, List.take_append_drop]

/-- **The scan** finds the first position at which a tag ends. -/
theorem getTagPos_iff {fuel : ℕ} (hfuel : part.length + 1 ≤ fuel + start) (hstart : 1 ≤ start)
    (pos : ℕ) : cfg.getTagPos (byte '.' :: part) fuel start = some pos ↔
      IsLeast {q | start ≤ q ∧ cfg.TagEnd part q} pos := by
  induction fuel generalizing start with
  | zero =>
    refine iff_of_false nofun fun h => ?_
    have hbounds := tagEnd_bounds h.1.2
    have hle := h.1.1
    rw [List.length_cons] at hbounds
    omega
  | succ fuel ih =>
    rw [getTagPos]
    by_cases hdot : byte '.' ∈ (byte '.' :: part).drop start
    · obtain ⟨x, y, hdrop, hx⟩ := List.eq_append_cons_of_mem hdot
      have hlen := congrArg List.length hdrop
      rw [List.length_drop, List.length_append, List.length_cons, List.length_cons] at hlen
      have hfirst : ∀ q, start ≤ q → cfg.TagEnd part q → x.length + start ≤ q :=
        fun q hq h => le_of_tagEnd hdrop hx h hq
      rw [findFirstOf_of_drop hdrop hx]
      simp only [List.length_cons]
      by_cases hend : x.length + start + 1 < part.length + 1
      · rw [if_pos hend, List.drop_one, List.tail_cons]
        by_cases htag : cfg.Allowed (part.take (x.length + start - 1))
        · -- a tag ends here
          rw [if_pos (show _ ∨ _ from htag)]
          have hhere : cfg.TagEnd part (x.length + start) := by
            obtain ⟨s, rfl⟩ : ∃ s, start = s + 1 := ⟨start - 1, by omega⟩
            have hpart : part.drop s = x ++ byte '.' :: y := hdrop
            obtain ⟨hpart, htake⟩ := cut_at hpart
            have hy : y ≠ [] := fun hnil => by rw [hnil, List.length_nil] at hlen; omega
            exact ⟨_, y, ⟨hpart, hy, htag⟩, by omega⟩
          constructor
          · rintro ⟨⟩
            exact ⟨⟨by omega, hhere⟩, fun q hq => hfirst q hq.1 hq.2⟩
          · intro h
            have := hfirst pos h.1.1 h.1.2
            have := h.2 ⟨(by omega : start ≤ x.length + start), hhere⟩
            exact congrArg some (by omega)
        · have hnot : ¬ cfg.TagEnd part (x.length + start) := fun h => htag (cut_of_tagEnd h).2.2
          have hset : {q | start ≤ q ∧ cfg.TagEnd part q} =
              {q | x.length + start + 1 ≤ q ∧ cfg.TagEnd part q} := by
            ext q
            refine ⟨fun h => ⟨?_, h.2⟩, fun h => ⟨by have := h.1; omega, h.2⟩⟩
            have hle := hfirst q h.1 h.2
            have hne : x.length + start ≠ q := fun heq => hnot (heq ▸ h.2)
            omega
          rw [if_neg (show ¬ (_ ∨ _) from htag), ih (by omega) (by omega), hset]
      · -- nothing stands behind the last period
        rw [if_neg hend]
        refine iff_of_false nofun fun h => ?_
        have hle := hfirst pos h.1.1 h.1.2
        have hbounds := tagEnd_bounds h.1.2
        rw [List.length_cons] at hbounds
        omega
    · rw [findFirstOf_of_not_mem hdot]
      exact iff_of_false nofun fun h => not_tagEnd_of_not_mem hdot h.1.1 h.1.2

end Scan

/-! ### The pair of a name -/

/-- The pair of a name, as the body of the loop computes it. -/
def tagOf (base name : Bytes) : Option (Bytes × Bytes) :=
  let maybeTag := name.drop base.length
  (cfg.getTagPos maybeTag maybeTag.length 1).map fun pos =>
    (promMungeOrMunge ((maybeTag.drop 1).take (pos - 1)) cfg.mapMetricName, maybeTag.drop (pos + 1))

theorem tagOf_base (base : Bytes) : cfg.tagOf base base = none := by
  rw [tagOf, List.drop_length]
  rfl

theorem tagOf_part (base part : Bytes) :
    cfg.tagOf base (base ++ byte '.' :: part) =
      (cfg.getTagPos (byte '.' :: part) (part.length + 1) 1).map fun pos =>
        (promMungeOrMunge (part.take (pos - 1)) cfg.mapMetricName,
          (byte '.' :: part).drop (pos + 1)) := by
  rw [tagOf, List.drop_left]
  rfl

/-- **The pair of a name** is the one that it stands for. -/
theorem tagOf_eq_some_iff {base name : Bytes} (hname : Covers base name) (pair : Bytes × Bytes) :
    cfg.tagOf base name = some pair ↔ cfg.Denotes base name pair := by
  obtain rfl | ⟨part, rfl⟩ := hname
  · rw [tagOf_base]
    refine iff_of_false nofun ?_
    rintro ⟨part, -, -, hpart, -⟩
    simpa using congrArg List.length hpart
  · rw [List.append_assoc, List.singleton_append, tagOf_part, Option.map_eq_some_iff]
    have hpos (pos : ℕ) : cfg.getTagPos (byte '.' :: part) (part.length + 1) 1 = some pos ↔
        IsLeast {q | 1 ≤ q ∧ cfg.TagEnd part q} pos :=
      cfg.getTagPos_iff (Nat.le_add_right _ _) le_rfl pos
    simp only [hpos]
    constructor
    · rintro ⟨pos, ⟨⟨-, hend⟩, hleast⟩, rfl⟩
      refine ⟨part, _, _, rfl, cut_of_tagEnd hend, fun tag value hcut => ?_, rfl⟩
      have hle := hleast ⟨(by omega : 1 ≤ tag.length + 1), tag, value, hcut, rfl⟩
      rw [List.length_take]
      omega
    · rintro ⟨part', tag, value, hpart, hcut, hleast, rfl⟩
      obtain rfl : part = part' := (List.cons.inj (List.append_cancel_left hpart)).2
      have hend : cfg.TagEnd part (tag.length + 1) := ⟨tag, value, hcut, rfl⟩
      refine ⟨tag.length + 1, ⟨⟨by omega, hend⟩, ?_⟩, ?_⟩
      · rintro q ⟨-, tag', value', hcut', rfl⟩
        have := hleast tag' value' hcut'
        omega
      · obtain ⟨rfl, -, -⟩ := hcut
        rw [Nat.add_sub_cancel, List.take_left, List.drop_succ_cons, ← List.drop_drop,
          List.drop_left]
        rfl

/-! ### The groups -/

theorem addTag_eq_place (tname tvalue : Bytes) (groups : PromTags) :
    addTag tname tvalue groups = FirstFit.place (tname, tvalue) groups := by
  induction groups with
  | nil => rfl
  | cons g groups ih =>
    have hkey : (g.lookup tname).isNone = true ↔ tname ∉ FirstFit.keys g := by
      rw [Option.isNone_iff_eq_none, List.lookup_eq_none_iff, FirstFit.keys, List.mem_map]
      simp only [bne_iff_ne, ne_eq]
      refine ⟨?_, fun h p hp hk => h ⟨p, hp, hk.symm⟩⟩
      rintro h ⟨p, hp, hk⟩
      exact h p hp hk.symm
    rw [addTag, FirstFit.place, ih]
    by_cases hmem : tname ∈ FirstFit.keys g
    · rw [if_neg (by rwa [hkey, not_not]), if_pos hmem]
    · rw [if_pos (hkey.2 hmem), if_neg hmem]

/-- The body of the loop: a name goes to the groups, or to those without tags. -/
theorem extractTag_eq {base name : Bytes} (hname : Covers base name) (acc : PromTags × List Bytes) :
    cfg.extractTag base acc name =
      match cfg.tagOf base name with
      | some pair => (FirstFit.place pair acc.1, acc.2)
      | none => (acc.1, acc.2 ++ [name]) := by
  obtain rfl | ⟨part, rfl⟩ := hname
  · rw [tagOf_base]
    simp [extractTag]
  · rw [List.append_assoc, List.singleton_append]
    have hkept : ¬ ((base ++ byte '.' :: part).length < base.length ∨
        (base ++ byte '.' :: part).take base.length ≠ base ∨
        base.length < (base ++ byte '.' :: part).length ∧
          (base ++ byte '.' :: part)[base.length]? ≠ some (byte '.')) := by simp
    have hlong : base.length < (base ++ byte '.' :: part).length := by simp
    rw [extractTag, if_neg hkept, if_pos hlong, tagOf_part, List.drop_left]
    simp only [List.length_cons, List.drop_one, List.tail_cons]
    cases cfg.getTagPos (byte '.' :: part) (part.length + 1) 1 with
    | none => rfl
    | some pos => simp only [Option.map_some, addTag_eq_place]

/-- The loop over the names. -/
theorem foldl_extractTag {base : Bytes} {cnames : List Bytes} (h : ∀ name ∈ cnames, Covers base name)
    (acc : PromTags × List Bytes) :
    cnames.foldl (cfg.extractTag base) acc =
      ((cnames.filterMap (cfg.tagOf base)).foldl (fun gs p => FirstFit.place p gs) acc.1,
        acc.2 ++ cnames.filter fun name => (cfg.tagOf base name).isNone) := by
  induction cnames generalizing acc with
  | nil => simp
  | cons name cnames ih =>
    obtain ⟨hname, hcnames⟩ := List.forall_mem_cons.1 h
    rw [List.foldl_cons, ih hcnames, cfg.extractTag_eq hname]
    cases htag : cfg.tagOf base name with
    | none => simp [htag]
    | some pair => simp [htag]

/-- **The groups of tags**: each name goes to the groups, with the pair that it stands for, or to
the names without tags; no tag stands twice in a group, and there are as few groups as possible. -/
theorem extractTags_groups {base : Bytes} (hbase : base ≠ []) {cnames : List Bytes}
    (hcnames : ∀ name ∈ cnames, name = base ∨ base ++ [byte '.'] <+: name) :
    ∃ tag : Bytes → Option (Bytes × Bytes),
      (∀ name ∈ cnames, ∀ pair, tag name = some pair ↔ cfg.Denotes base name pair) ∧
      (cfg.extractTags base cnames).2 = cnames.filter (fun name => (tag name).isNone) ∧
      (cfg.extractTags base cnames).1.flatten.Perm (cnames.filterMap tag) ∧
      (∀ group ∈ (cfg.extractTags base cnames).1, (group.map Prod.fst).Nodup) ∧
      (cfg.extractTags base cnames).1.length =
        FirstFit.commonest ((cnames.filterMap tag).map Prod.fst) := by
  have hcovers : ∀ name ∈ cnames, Covers base name := fun name hname =>
    (hcnames name hname).imp Eq.symm id
  have hpos : base.length ≠ 0 := (List.length_pos_of_ne_nil hbase).ne'
  have hperm := FirstFit.place_all_perm (cnames.filterMap (cfg.tagOf base)) []
  have hstair := FirstFit.Stair.nil.place_all (cnames.filterMap (cfg.tagOf base))
  rw [List.flatten_nil, List.nil_append] at hperm
  rw [extractTags, if_pos hpos, cfg.foldl_extractTag hcovers]
  refine ⟨cfg.tagOf base, fun name hname => cfg.tagOf_eq_some_iff (hcovers name hname), rfl, hperm,
    hstair.nodup, ?_⟩
  rw [hstair.length_eq]
  exact FirstFit.commonest_perm (hperm.map Prod.fst)

/-- Two hosts and a role: the second host needs a group of its own. -/
theorem extractTags_groups_sample :
    bytes "a" ≠ [] ∧
      (∀ name ∈ [bytes "a.host.h1", bytes "a", bytes "a.host.h2", bytes "a.role.r"],
        name = bytes "a" ∨ bytes "a" ++ [byte '.'] <+: name) ∧
      (∀ group ∈ [[(bytes "host", bytes "h1"), (bytes "role", bytes "r")],
        [(bytes "host", bytes "h2")]], (group.map Prod.fst).Nodup) ∧
      (PromExporter.sampleConfig 0).extractTags (bytes "a")
        [bytes "a.host.h1", bytes "a", bytes "a.host.h2", bytes "a.role.r"] =
        ([[(bytes "host", bytes "h1"), (bytes "role", bytes "r")], [(bytes "host", bytes "h2")]],
          [bytes "a"]) := by
  have hbase : bytes "a" ≠ [] := by decide
  have hnames : ∀ name ∈ [bytes "a.host.h1", bytes "a", bytes "a.host.h2", bytes "a.role.r"],
      name = bytes "a" ∨ bytes "a" ++ [byte '.'] <+: name := by decide
  have hvalue : (PromExporter.sampleConfig 0).extractTags (bytes "a")
      [bytes "a.host.h1", bytes "a", bytes "a.host.h2", bytes "a.role.r"] =
      ([[(bytes "host", bytes "h1"), (bytes "role", bytes "r")], [(bytes "host", bytes "h2")]],
        [bytes "a"]) := by decide +kernel
  obtain ⟨-, -, -, -, hnodup, -⟩ :=
    (PromExporter.sampleConfig 0).extractTags_groups hbase hnames
  rw [hvalue] at hnodup
  exact ⟨hbase, hnames, hnodup, hvalue⟩

end PromConfig

end Istatd
