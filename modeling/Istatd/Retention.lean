import Istatd.Bucket

/-!
# Retention policies (`daemon/Retention.cpp`)

A retention policy lists the files of a counter, finest first: regular intervals of growing length,
then seasonal ones (`lambda > 0`), whose files are trailing.  `addInterval` checks a new interval
against the last one only; that is enough for the order of the whole list, which the type carries.
The names and the statistics of the intervals are left out.
-/

namespace Istatd

open FloatArith

variable {D F : Type} [FloatArith D F]

/-- `ri.lambda == 0`. -/
def lambdaIsZero (F : Type) [FloatArith D F] (lambda : D) : Bool :=
  le F lambda (ofInt F 0) && le F (ofInt F 0) lambda

/-- `RetentionInterval`.  The length is positive and fits the header field it is kept in; the blend
is zero or positive, as the parser of policies has it. -/
structure RetentionInterval (D F : Type) [FloatArith D F] where
  interval : ℤ
  samples : ℤ
  lambda : D
  interval_pos : 0 < interval
  interval_lt : interval < 2 ^ 31
  lambda_ok : lambdaIsZero F lambda = true ∨ lt F (ofInt F 0) lambda = true

/-- A seasonal interval, as the constructor of a counter tells them. -/
def RetentionInterval.isSeason (ri : RetentionInterval D F) : Bool := lt F (ofInt F 0) ri.lambda

/-- What the order of a policy says of an interval and a later one. -/
def RetentionInterval.Before (earlier later : RetentionInterval D F) : Prop :=
  later.isSeason = false → earlier.isSeason = false ∧ earlier.interval < later.interval

/-- `RetentionPolicy`. -/
structure RetentionPolicy (D F : Type) [FloatArith D F] where
  intervals : List (RetentionInterval D F)
  ordered : intervals.Pairwise RetentionInterval.Before

namespace RetentionPolicy

/-- The empty policy. -/
def empty : RetentionPolicy D F := ⟨[], List.Pairwise.nil⟩

/-- A list in order stays so when its last element is before the new one. -/
theorem ordered_append {rs : List (RetentionInterval D F)} {ri : RetentionInterval D F}
    (h : rs.Pairwise RetentionInterval.Before)
    (hlast : ∀ b ∈ rs.getLast?, b.Before ri) : (rs ++ [ri]).Pairwise RetentionInterval.Before := by
  refine List.pairwise_append.2 ⟨h, List.pairwise_singleton _ _, fun a ha b hb => ?_⟩
  rw [List.mem_singleton.1 hb]
  induction rs using List.reverseRecOn with
  | nil => cases ha
  | append_singleton rs c _ =>
    have hc : c.Before ri := hlast c (by simp)
    rcases List.mem_append.1 ha with ha | ha
    · intro hreg
      obtain ⟨hcreg, hclt⟩ := hc hreg
      obtain ⟨hareg, halt⟩ := (List.pairwise_append.1 h).2.2 a ha c (by simp) hcreg
      exact ⟨hareg, halt.trans hclt⟩
    · rwa [List.mem_singleton.1 ha]

/-- `RetentionPolicy::addInterval`. -/
def addInterval (rp : RetentionPolicy D F) (ri : RetentionInterval D F) :
    Except String (RetentionPolicy D F) :=
  match hb : rp.intervals.getLast? with
  | none => .ok ⟨rp.intervals ++ [ri], ordered_append rp.ordered fun b h => by simp [hb] at h⟩
  | some back =>
    if hlen : lambdaIsZero F ri.lambda ∧ ri.interval ≤ back.interval then
      .error "Each retention interval must be longer than the previous."
    else if hsea : lambdaIsZero F ri.lambda ∧ back.isSeason then
      .error "Season retention intervals must be specified after regular intervals."
    else .ok ⟨rp.intervals ++ [ri], ordered_append rp.ordered fun b h hreg => by
      obtain rfl : back = b := by simpa [hb] using h
      have hz : lambdaIsZero F ri.lambda = true :=
        ri.lambda_ok.resolve_right (by unfold RetentionInterval.isSeason at hreg; simp [hreg])
      refine ⟨?_, ?_⟩
      · cases hs : back.isSeason
        · rfl
        · exact absurd ⟨hz, hs⟩ hsea
      · exact not_le.1 fun hle => hlen ⟨hz, hle⟩⟩

/-- `RetentionPolicy::init`. -/
def init (ris : List (RetentionInterval D F)) : Except String (RetentionPolicy D F) :=
  ris.foldlM addInterval empty

end RetentionPolicy

end Istatd
