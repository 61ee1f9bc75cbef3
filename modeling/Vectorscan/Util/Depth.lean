import Mathlib

/-!
# `class depth`: counts with infinity and unreachable

`ue2::depth` (`util/depth.h`) holds a graph depth in a `u32`: a count up to
`max_value()`, which is `2^31 - 2`, or one of two special values,
`val_infinity` (`2^31 - 1`) and `val_unreachable` (`2^31`, the default).  Its
arithmetic gives the exact answer or throws `DepthOverflowError`.

**Model.**  The `u32` is a natural number, with the bound the class keeps as
a field: the constructor, `infinity()` and `unreachable()` are the only ways
to make one.  A thrown `DepthOverflowError` is the `error` of `Except`.  The
`s32` operand of `operator+(s32)` and `operator-(s32)` is an `Int32`.  The
source adds it to the `u32` value in `u32` arithmetic (the usual arithmetic
conversions make `d` unsigned) and widens the result to `s64a` only then, so
the model computes the sum in `BitVec 32`.

**Results.**  `add_eq`, `sub_eq`, `addS32_eq` and `subS32_eq`: after the
special values, each operator is `exactResult` of the true value: the depth
when it is in range, `DepthOverflowError` when it is not.  For the `s32`
operators this rests on `toNat_add_wrap` and `toNat_sub_wrap` (the wrapped
value is the true one, or `2^32` above it when the true one is negative) and
on `check_wrapped` (a negative value wraps to at least `val_infinity`, so the
range check still rejects it).
-/

namespace Vectorscan
namespace Util

/-- `struct DepthOverflowError`. -/
structure DepthOverflowError where
  deriving DecidableEq, Repr

/-- `val_infinity`. -/
def valInfinity : Nat := 2 ^ 31 - 1

/-- `val_unreachable`. -/
def valUnreachable : Nat := 2 ^ 31

/-- `class depth`: a count up to `max_value()`, `val_infinity` or
`val_unreachable`. -/
structure Depth where
  val : Nat
  val_le : val ≤ valUnreachable
  deriving DecidableEq

namespace Depth

/-- `max_value()`: the greatest finite depth. -/
def maxValue : Nat := valInfinity - 1

/-- The constructor `depth(u32 v)`. -/
def ofU32 (v : Nat) : Except DepthOverflowError Depth :=
  if h : v > maxValue then .error ⟨⟩
  else .ok ⟨v, by unfold maxValue valInfinity at h; unfold valUnreachable; omega⟩

/-- `depth::unreachable()`, also the default depth. -/
def unreachable : Depth := ⟨valUnreachable, Nat.le_refl _⟩

/-- `depth::infinity()`. -/
def infinity : Depth := ⟨valInfinity, by decide⟩

def isFinite (a : Depth) : Bool := a.val < valInfinity

def isInfinite (a : Depth) : Bool := a.val == valInfinity

def isUnreachable (a : Depth) : Bool := a.val == valUnreachable

/-- `operator+(const depth &)`. -/
def add (a d : Depth) : Except DepthOverflowError Depth :=
  if a.isUnreachable || d.isUnreachable then .ok unreachable
  else if a.isInfinite || d.isInfinite then .ok infinity
  else
    -- `val + d.val` is a `u32` sum, widened to `u64a` afterwards
    let rv := (BitVec.ofNat 32 a.val + BitVec.ofNat 32 d.val).toNat
    if rv ≥ valInfinity then .error ⟨⟩ else ofU32 rv

/-- `operator-(const depth &)`. -/
def sub (a d : Depth) : Except DepthOverflowError Depth :=
  if !d.isFinite then .error ⟨⟩
  else if a.isUnreachable then .ok unreachable
  else if a.isInfinite then .ok infinity
  else if a.val < d.val then .error ⟨⟩
  else ofU32 (a.val - d.val)

/-- `operator+(s32)`. -/
def addS32 (a : Depth) (d : Int32) : Except DepthOverflowError Depth :=
  if a.isUnreachable then .ok unreachable
  else if a.isInfinite then .ok infinity
  else
    -- `val + d` converts `d` to `u32` and wraps; the sign test sees the wrapped sum
    let rv : Int := (BitVec.ofNat 32 a.val + d.toBitVec).toNat
    if rv < 0 ∨ rv.toNat ≥ valInfinity then .error ⟨⟩ else ofU32 rv.toNat

/-- `operator-(s32)`. -/
def subS32 (a : Depth) (d : Int32) : Except DepthOverflowError Depth :=
  if a.isUnreachable then .ok unreachable
  else if a.isInfinite then .ok infinity
  else
    let rv : Int := (BitVec.ofNat 32 a.val - d.toBitVec).toNat
    if rv < 0 ∨ rv.toNat ≥ valInfinity then .error ⟨⟩ else ofU32 rv.toNat

/-! ## The exact answer -/

/-- What an operator on finite depths means: the depth `v` when it is in
range, `DepthOverflowError` when it is not. -/
def exactResult (v : Int) : Except DepthOverflowError Depth :=
  if h : 0 ≤ v ∧ v ≤ maxValue then
    .ok ⟨v.toNat, by unfold maxValue valInfinity at h; unfold valUnreachable; omega⟩
  else .error ⟨⟩

theorem ofU32_eq_exactResult (v : Nat) : ofU32 v = exactResult v := by
  unfold ofU32 exactResult
  by_cases h : v > maxValue
  · rw [dif_pos h, dif_neg (by omega)]
  · rw [dif_neg h, dif_pos (by omega)]
    rfl

/-- A depth that is neither special is a count up to `max_value()`. -/
theorem val_le_maxValue {a : Depth} (hu : a.isUnreachable = false) (hi : a.isInfinite = false) :
    a.val ≤ maxValue := by
  have hle := a.val_le
  simp only [isUnreachable, isInfinite, beq_eq_false_iff_ne] at hu hi
  unfold maxValue valInfinity valUnreachable at *
  omega

/-- **The wraps.**  A `u32` sum or difference of a count below `2^31` and an
`s32` is the true value, or `2^32` above it when the true value is negative. -/
theorem toNat_add_wrap {val : Nat} (hval : val < 2 ^ 31) (u : BitVec 32) :
    ((BitVec.ofNat 32 val + u).toNat : Int) =
      if val + u.toInt < 0 then val + u.toInt + 2 ^ 32 else val + u.toInt := by
  have hu := u.isLt
  have hcond := BitVec.toInt_eq_toNat_cond u
  rw [BitVec.toNat_add, BitVec.toNat_ofNat, Nat.mod_eq_of_lt (show val < 2 ^ 32 by omega)]
  split_ifs at hcond with h1 <;> split_ifs with h2 <;> omega

theorem toNat_sub_wrap {val : Nat} (hval : val < 2 ^ 31) (u : BitVec 32) :
    ((BitVec.ofNat 32 val - u).toNat : Int) =
      if val - u.toInt < 0 then val - u.toInt + 2 ^ 32 else val - u.toInt := by
  have hu := u.isLt
  have hcond := BitVec.toInt_eq_toNat_cond u
  rw [BitVec.toNat_sub, BitVec.toNat_ofNat, Nat.mod_eq_of_lt (show val < 2 ^ 32 by omega)]
  split_ifs at hcond with h1 <;> split_ifs with h2 <;> omega

/-- **The range check of the `s32` operators.**  For a true value `v` no
lower than `val_infinity - 2^32`, the wrapped value `w` fails the check
exactly when `v` is out of range. -/
theorem check_wrapped {v w : Int} (hw : w = if v < 0 then v + 2 ^ 32 else v)
    (hlo : (valInfinity : Int) - 2 ^ 32 ≤ v) (hhi : v < 2 ^ 32) :
    (if w < 0 ∨ w.toNat ≥ valInfinity then .error ⟨⟩ else ofU32 w.toNat) = exactResult v := by
  rw [ofU32_eq_exactResult]
  by_cases hin : 0 ≤ v ∧ v ≤ maxValue
  · -- in range: the wrapped value is the true one, and it passes
    have hwv : w = v := by rw [hw, if_neg (show ¬ v < 0 by omega)]
    have hpass : ¬ (v < 0 ∨ v.toNat ≥ valInfinity) := by
      unfold maxValue valInfinity at *
      omega
    rw [hwv, if_neg hpass, Int.toNat_of_nonneg hin.1]
  · -- out of range: below zero it wraps to the top half, above it stays too large
    have hfail : w < 0 ∨ w.toNat ≥ valInfinity := by
      unfold maxValue valInfinity at *
      split_ifs at hw <;> omega
    rw [if_pos hfail]
    unfold exactResult
    rw [dif_neg hin]

/-! ## The four operators -/

theorem add_eq (a b : Depth) :
    a.add b =
      if a.isUnreachable || b.isUnreachable then .ok unreachable
      else if a.isInfinite || b.isInfinite then .ok infinity
      else exactResult (a.val + b.val) := by
  unfold add
  split_ifs with hu hi
  · rfl
  · rfl
  · simp only [Bool.or_eq_true, not_or, Bool.not_eq_true] at hu hi
    have ha := val_le_maxValue hu.1 hi.1
    have hb := val_le_maxValue hu.2 hi.2
    unfold maxValue valInfinity at ha hb
    -- two counts below `2^31` do not wrap in `u32`
    have hsum : (BitVec.ofNat 32 a.val + BitVec.ofNat 32 b.val).toNat = a.val + b.val := by
      rw [BitVec.toNat_add, BitVec.toNat_ofNat, BitVec.toNat_ofNat, Nat.mod_eq_of_lt (by omega),
        Nat.mod_eq_of_lt (by omega), Nat.mod_eq_of_lt (by omega)]
    dsimp only
    rw [hsum, ofU32_eq_exactResult, Int.natCast_add]
    by_cases hbig : a.val + b.val ≥ valInfinity
    · rw [if_pos hbig]
      unfold exactResult
      rw [dif_neg (by unfold maxValue valInfinity at *; omega)]
    · rw [if_neg hbig]

theorem sub_eq (a b : Depth) :
    a.sub b =
      if !b.isFinite then .error ⟨⟩
      else if a.isUnreachable then .ok unreachable
      else if a.isInfinite then .ok infinity
      else exactResult (a.val - b.val) := by
  unfold sub
  split_ifs with hb hu hi hlt
  · rfl
  · rfl
  · rfl
  · -- below zero
    unfold exactResult
    rw [dif_neg (by omega)]
  · have ha := val_le_maxValue (Bool.of_not_eq_true hu) (Bool.of_not_eq_true hi)
    rw [ofU32_eq_exactResult, Int.ofNat_sub (by omega)]

theorem addS32_eq (a : Depth) (d : Int32) :
    a.addS32 d =
      if a.isUnreachable then .ok unreachable
      else if a.isInfinite then .ok infinity
      else exactResult (a.val + d.toInt) := by
  unfold addS32
  split_ifs with hu hi
  · rfl
  · rfl
  · have ha := val_le_maxValue (Bool.of_not_eq_true hu) (Bool.of_not_eq_true hi)
    have hd := Int32.le_toInt d
    have hd' := Int32.toInt_lt d
    unfold maxValue valInfinity at ha
    rw [← Int32.toInt_toBitVec] at hd hd' ⊢
    refine check_wrapped (toNat_add_wrap (by omega) d.toBitVec) ?_ ?_
    · unfold valInfinity; omega
    · omega

theorem subS32_eq (a : Depth) (d : Int32) :
    a.subS32 d =
      if a.isUnreachable then .ok unreachable
      else if a.isInfinite then .ok infinity
      else exactResult (a.val - d.toInt) := by
  unfold subS32
  split_ifs with hu hi
  · rfl
  · rfl
  · have ha := val_le_maxValue (Bool.of_not_eq_true hu) (Bool.of_not_eq_true hi)
    have hd := Int32.le_toInt d
    have hd' := Int32.toInt_lt d
    unfold maxValue valInfinity at ha
    rw [← Int32.toInt_toBitVec] at hd hd' ⊢
    refine check_wrapped (toNat_sub_wrap (by omega) d.toBitVec) ?_ ?_
    · unfold valInfinity; omega
    · omega

/-- On `0`, `- (-2^31)` wraps to `2^31`, which the range check still rejects. -/
example : (⟨0, by decide⟩ : Depth).subS32 Int32.minValue = .error ⟨⟩ := by rfl

/-- **Depth arithmetic is exact or throws.**  Each of the four operators
gives `unreachable` and `infinity` as the source orders them (and `a - b`
throws first for an `b` that is not finite), and otherwise the depth of the
true value when it is in range, `DepthOverflowError` when it is not. -/
theorem depth_ops_exact_or_throw (a b : Depth) (d : Int32) :
    (a.add b =
      if a.isUnreachable || b.isUnreachable then .ok unreachable
      else if a.isInfinite || b.isInfinite then .ok infinity
      else exactResult (a.val + b.val)) ∧
    (a.sub b =
      if !b.isFinite then .error ⟨⟩
      else if a.isUnreachable then .ok unreachable
      else if a.isInfinite then .ok infinity
      else exactResult (a.val - b.val)) ∧
    (a.addS32 d =
      if a.isUnreachable then .ok unreachable
      else if a.isInfinite then .ok infinity
      else exactResult (a.val + d.toInt)) ∧
    (a.subS32 d =
      if a.isUnreachable then .ok unreachable
      else if a.isInfinite then .ok infinity
      else exactResult (a.val - d.toInt)) :=
  ⟨add_eq a b, sub_eq a b, addS32_eq a d, subS32_eq a d⟩

end Depth
end Util
end Vectorscan
