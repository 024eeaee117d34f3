import Mathlib.Tactic
import Mathlib.Data.Rat.Floor

/-!
# Buckets (`lib/Bucket.cpp`, `include/istat/Bucket.h`)

A bucket is the aggregate of the samples of one time quantum.  It stores its sum as a `double` and
its sum of squares, minimum and maximum as `float`; nothing about files or counters depends on how
these two formats round, so they are two types `D` and `F` with the operations the code uses
(`FloatArith`).  `ℚ` for both is exact arithmetic.

Integers (`int32_t`, `int64_t`, `time_t`) are `ℤ`: the development is about runs in which no addition
of them overflows.  The conversions to a narrower type that the code makes are written out.
-/

namespace Istatd

/-- The `double` type `D` and the `float` type `F` of the program, with the operations it uses. -/
class FloatArith (D F : Type) where
  /-- Conversion of an integer to `double`. -/
  ofInt : ℤ → D
  add : D → D → D
  sub : D → D → D
  mul : D → D → D
  div : D → D → D
  lt : D → D → Bool
  le : D → D → Bool
  /-- `fabs`. -/
  abs : D → D
  /-- The cast `(int32_t)`, which truncates. -/
  trunc : D → ℤ
  /-- The `float` nearest a `double`, and the `double` a `float` is. -/
  narrow : D → F
  widen : F → D
  addF : F → F → F
  minF : F → F → F
  maxF : F → F → F
  /-- The two infinities and the limits `numeric_limits<float>::min()` and `max()`. -/
  isPosInf : F → Bool
  isNegInf : F → Bool
  fltMin : F
  fltMax : F

/-- Exact arithmetic: both formats are the rationals, and nothing is infinite. -/
instance : FloatArith ℚ ℚ where
  ofInt n := n
  add := (· + ·)
  sub := (· - ·)
  mul := (· * ·)
  div := (· / ·)
  lt a b := decide (a < b)
  le a b := decide (a ≤ b)
  abs a := if a < 0 then -a else a
  trunc a := if a < 0 then a.ceil else a.floor
  narrow := id
  widen := id
  addF := (· + ·)
  minF a b := if b < a then b else a
  maxF a b := if a < b then b else a
  isPosInf _ := false
  isNegInf _ := false
  fltMin := 0
  fltMax := 0

/-- `FileBucketLayout`: the 32 bytes of a bucket.  The fields with an accessor that is not the
identity keep their trailing underscore. -/
structure Bucket (D F : Type) where
  time : ℤ
  sum_ : D
  min_ : F
  max_ : F
  count : ℤ
  sumSq_ : F
  deriving DecidableEq

/-- `sizeof(Bucket)`. -/
def sizeofBucket : ℤ := 32

variable {D F : Type}

namespace Bucket

/-- `Bucket(o, time)`: a copy of `o` at another time. -/
def withTime (o : Bucket D F) (time : ℤ) : Bucket D F := { o with time := time }

/-- `Bucket::setCount`. -/
def setCount (b : Bucket D F) (count : ℤ) : Bucket D F := { b with count := count }

@[simp] theorem withTime_time (o : Bucket D F) (t : ℤ) : (o.withTime t).time = t := rfl
@[simp] theorem withTime_sum_ (o : Bucket D F) (t : ℤ) : (o.withTime t).sum_ = o.sum_ := rfl
@[simp] theorem setCount_time (b : Bucket D F) (c : ℤ) : (b.setCount c).time = b.time := rfl
@[simp] theorem setCount_sum_ (b : Bucket D F) (c : ℤ) : (b.setCount c).sum_ = b.sum_ := rfl
@[simp] theorem setCount_count (b : Bucket D F) (c : ℤ) : (b.setCount c).count = c := rfl

end Bucket

variable [FloatArith D F]

open FloatArith

/-- `stabilizeFloat`: an infinity is replaced by a limit of the format. -/
def stabilizeFloat (D : Type) {F : Type} [FloatArith D F] (f : F) : F :=
  if isNegInf D f then fltMin D else if isPosInf D f then fltMax D else f

namespace Bucket

/-- `Bucket(s, sq, mi, ma, c, time)`. -/
def make (s : D) (sq mi ma : F) (c : ℤ) (time : ℤ) : Bucket D F :=
  { time := time, sum_ := s, min_ := mi, max_ := ma, count := c, sumSq_ := sq }

/-- `Bucket(0, 0, 0, 0, c, time)`. -/
def blank (c time : ℤ) : Bucket D F :=
  make (ofInt F 0) (narrow (ofInt F 0 : D)) (narrow (ofInt F 0 : D)) (narrow (ofInt F 0 : D)) c time

/-- `Bucket(true)`: all bytes zero. -/
def zero : Bucket D F := blank 0 0

/-- `Bucket::sum`, which passes the stored `double` through a `float`. -/
def sum (b : Bucket D F) : D := widen (stabilizeFloat D (narrow b.sum_ : F))

/-- `Bucket::sumSq`. -/
def sumSq (b : Bucket D F) : F := stabilizeFloat D b.sumSq_

/-- `Bucket::update`: merge `o` into the bucket. -/
def update (b o : Bucket D F) : Bucket D F :=
  if b.count = 0 then o
  else
    { b with
      sum_ := add F b.sum_ o.sum_
      sumSq_ := addF D b.sumSq_ o.sumSq_
      min_ := minF D b.min_ o.min_
      max_ := maxF D b.max_ o.max_
      count := b.count + o.count }

/-- `Bucket::expUpdate`: blend `o` into the bucket, keeping the share `lam` of the old values. -/
def expUpdate (b o : Bucket D F) (lam : D) : Bucket D F :=
  if b.count = 0 then o
  else
    let me : D := lam
    let you : D := sub F (ofInt F 1) lam
    let mix (x y : D) : D := add F (mul F x me) (mul F y you)
    { time := o.time
      sum_ := mix b.sum_ o.sum_
      sumSq_ := narrow (mix (widen b.sumSq_) (widen o.sumSq_))
      min_ := narrow (mix (widen b.min_) (widen o.min_))
      max_ := narrow (mix (widen b.max_) (widen o.max_))
      -- truncate, round up on 0.5
      count := max (trunc F
        (add F (mix (ofInt F b.count) (ofInt F o.count)) (div F (ofInt F 1) (ofInt F 2)))) 1 }

/-- `Bucket::collatedUpdate`: add `v` to the running total of a collated quantum. -/
def collatedUpdate (b : Bucket D F) (v : D) (t : ℤ) : Bucket D F :=
  let sum := add F b.sum_ v
  { time := if b.count = 0 then t else b.time
    sum_ := sum
    min_ := narrow sum
    max_ := narrow sum
    sumSq_ := narrow (mul F sum sum)
    count := 1 }

@[simp] theorem blank_time (c t : ℤ) : (blank c t : Bucket D F).time = t := rfl
@[simp] theorem blank_count (c t : ℤ) : (blank c t : Bucket D F).count = c := rfl
@[simp] theorem zero_time : (zero : Bucket D F).time = 0 := rfl
@[simp] theorem zero_count : (zero : Bucket D F).count = 0 := rfl

theorem update_of_count_eq_zero {b o : Bucket D F} (h : b.count = 0) : b.update o = o := if_pos h

/-- A merge of two buckets of one quantum stays in that quantum. -/
theorem update_time {b o : Bucket D F} (h : b.count ≠ 0 → b.time = o.time) :
    (b.update o).time = o.time := by
  unfold update
  split_ifs with h0
  · rfl
  · exact h h0

/-- In exact arithmetic a merge adds the sums. -/
theorem update_sum_ {b o : Bucket ℚ ℚ} (h : b.count = 0 → b.sum_ = 0) :
    (b.update o).sum_ = b.sum_ + o.sum_ := by
  unfold update
  split_ifs with h0
  · rw [h h0, zero_add]
  · rfl

end Bucket

end Istatd
