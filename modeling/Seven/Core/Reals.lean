import Mathlib.Analysis.Real.Sqrt
import Mathlib.Data.EReal.Basic
import Seven.Core.F64
import Seven.Library.Rounding

/-!
# Reals with Special Values

`f64` read as the reals beside the three special values. Under the exact reading no
operation rounds or overflows; under the other one a result beyond `f64::MAX` is an
infinity. In both, rounding happens only where the code asks for it, in
`round_ties_even`.

## Main definitions

* `saturate`: The nearest value that an `i64` has.
* `Reading`: How large results come out.
* `Real64`: The reals with the special values.

## Theorems

* `toI64_ofInt`: An integral value is cast without loss as far as it fits.
* `eq_real_of_finite`: What is not special is a real.
-/

namespace Seven

/-- The nearest value that an `i64` has. -/
def saturate (n : Int) : Int64 :=
  Int64.ofInt (max Int64.minValue.toInt (min n Int64.maxValue.toInt))

theorem toInt_saturate (n : Int) :
    (saturate n).toInt = max Int64.minValue.toInt (min n Int64.maxValue.toInt) := by
  have hmin : Int64.minValue.toInt = -2 ^ 63 := rfl
  have hmax : Int64.maxValue.toInt = 2 ^ 63 - 1 := rfl
  rw [saturate, Int64.toInt_ofInt_of_le]
  · rw [hmin]
    omega
  · rw [hmin, hmax]
    omega

/-- What is no larger than some `i64` is not changed. -/
theorem toInt_saturate_of_abs_le {n : Int} {x : Int64} (h : |n| ≤ x.toInt) :
    (saturate n).toInt = n := by
  have hmin : Int64.minValue.toInt = -2 ^ 63 := rfl
  have hmax : Int64.maxValue.toInt = 2 ^ 63 - 1 := rfl
  have hx := Int64.toInt_le x
  rw [abs_le] at h
  rw [toInt_saturate]
  omega

/-- What fits is not changed. -/
theorem saturate_toInt (x : Int64) : saturate x.toInt = x := by
  apply Int64.toInt_inj.mp
  have hmin := Int64.minValue_le_toInt x
  have hmax := Int64.toInt_le x
  rw [toInt_saturate]
  omega

/-- How the result of an operation comes out that is too large. -/
inductive Reading where
  | exact
  | overflowing

/-- `f64` read as the reals with the special values. -/
inductive Real64 (r : Reading) where
  | nan
  | inf (negative : Bool)
  | real (x : ℝ)

namespace Real64

variable {r : Reading}

/-- `f64::MAX`. -/
noncomputable def maxFinite : ℝ := ((2 ^ 1024 - 2 ^ 971 : ℤ) : ℝ)

theorem pow_le_maxFinite {n : ℕ} (hn : n ≤ 971) : 2 ^ n ≤ maxFinite := by
  have hpow {m n : ℕ} (h : m ≤ n) : (2 : ℤ) ^ m ≤ 2 ^ n := pow_le_pow_right₀ one_le_two h
  have hsum : (2 : ℤ) ^ n + 2 ^ 971 ≤ 2 ^ 1024 :=
    calc (2 : ℤ) ^ n + 2 ^ 971 ≤ 2 ^ 971 + 2 ^ 971 := add_le_add_left (hpow hn) _
      _ = 2 ^ 972 := by rw [← mul_two, ← pow_succ]
      _ ≤ 2 ^ 1024 := hpow (by norm_num)
  have hint := Int.cast_le (R := ℝ).mpr (le_sub_iff_add_le.mpr hsum)
  rwa [Int.cast_pow, Int.cast_ofNat] at hint

theorem maxFinite_lt_pow : maxFinite < 2 ^ 1024 := by
  have hint : (2 : ℤ) ^ 1024 - 2 ^ 971 < 2 ^ 1024 := sub_lt_self _ (pow_pos two_pos 971)
  have hcast := Int.cast_lt (R := ℝ).mpr hint
  rwa [Int.cast_pow, Int.cast_ofNat] at hcast

theorem maxFinite_pos : 0 < maxFinite :=
  lt_of_lt_of_le (pow_pos two_pos 0) (pow_le_maxFinite (Nat.zero_le _))

open Classical in
/-- The result of an operation on reals. -/
noncomputable def result (r : Reading) (x : ℝ) : Real64 r :=
  match r with
  | .exact => real x
  | .overflowing => if maxFinite < |x| then inf (decide (x < 0)) else real x

/-- A result that comes out as it is. -/
def Fits (r : Reading) (x : ℝ) : Prop :=
  match r with
  | .exact => True
  | .overflowing => |x| ≤ maxFinite

/-- The order of the values that are numbers. -/
noncomputable def toEReal : Real64 r → EReal
  | nan => 0
  | inf true => ⊥
  | inf false => ⊤
  | real x => x

def isNan : Real64 r → Bool
  | nan => true
  | _ => false

def isInfinite : Real64 r → Bool
  | inf _ => true
  | _ => false

def neg : Real64 r → Real64 r
  | nan => nan
  | inf s => inf (!s)
  | real x => real (-x)

noncomputable def add : Real64 r → Real64 r → Real64 r
  | real x, real y => result r (x + y)
  | inf s, inf t => if s = t then inf s else nan
  | inf s, real _ => inf s
  | real _, inf t => inf t
  | _, _ => nan

open Classical in
noncomputable def mul : Real64 r → Real64 r → Real64 r
  | real x, real y => result r (x * y)
  | inf s, inf t => inf (s != t)
  | inf s, real y => if y = 0 then nan else inf (s != decide (y < 0))
  | real x, inf t => if x = 0 then nan else inf (decide (x < 0) != t)
  | _, _ => nan

open Classical in
/-- Division, with zero taken as the positive one. -/
noncomputable def div : Real64 r → Real64 r → Real64 r
  | real x, real y =>
      if y ≠ 0 then result r (x / y) else if x = 0 then nan else inf (decide (x < 0))
  | inf s, real y => inf (s != decide (y < 0))
  | real _, inf _ => real 0
  | _, _ => nan

open Classical in
noncomputable instance : CanonicalF64 (Real64 r) where
  add := add
  sub x y := add x (neg y)
  mul := mul
  div := div
  ofInt n := real n
  abs
    | nan => nan
    | inf _ => inf false
    | real x => real |x|
  sqrt
    | nan => nan
    | inf s => if s then nan else inf s
    | real x => if x < 0 then nan else real √x
  gt x y := !isNan x && !isNan y && decide (toEReal y < toEReal x)
  isNan := isNan
  isInfinite := isInfinite
  minPositive := real ((2 ^ 1022 : ℤ) : ℝ)⁻¹
  le x y := !isNan x && !isNan y && decide (toEReal x ≤ toEReal y)
  roundTiesEven
    | nan => nan
    | inf s => inf s
    | real x => real (Rounding.nearestEven x)
  toI64
    | nan => 0
    | inf s => if s then Int64.minValue else Int64.maxValue
    | real x => saturate (if x < 0 then ⌈x⌉ else ⌊x⌋)

/-- The number a value stands for; the special values stand for none. -/
def toReal : Real64 r → ℝ
  | real x => x
  | _ => 0

@[simp] theorem ofInt_eq (n : Int) : (F64.ofInt n : Real64 r) = real n := rfl

@[simp] theorem add_real (x y : ℝ) : (real x + real y : Real64 r) = result r (x + y) := rfl

@[simp] theorem mul_real (x y : ℝ) : (real x * real y : Real64 r) = result r (x * y) := rfl

theorem div_real (x : ℝ) {y : ℝ} (hy : y ≠ 0) :
    (real x / real y : Real64 r) = result r (x / y) := by
  change (if y ≠ 0 then result r (x / y) else _) = _
  rw [if_pos hy]

@[simp] theorem result_exact (x : ℝ) : result .exact x = real x := rfl

@[simp] theorem fits_exact (x : ℝ) : Fits .exact x := trivial

theorem result_of_fits {x : ℝ} (h : Fits r x) : result r x = real x := by
  cases r with
  | exact => rfl
  | overflowing => exact if_neg (not_lt.mpr h)

/-- What is positive and too large is the positive infinity. -/
theorem result_of_lt {x : ℝ} (h : maxFinite < x) : result .overflowing x = inf false := by
  have hpos : 0 < x := lt_trans maxFinite_pos h
  change (if maxFinite < |x| then inf (decide (x < 0)) else real x) = inf false
  rw [if_pos (by rwa [abs_of_pos hpos]), decide_eq_false hpos.not_gt]

/-- What is no larger than some result that fits is not too large either. -/
theorem fits_of_abs_le {x y : ℝ} (hy : Fits r y) (h : |x| ≤ |y|) : Fits r x := by
  cases r with
  | exact => trivial
  | overflowing => exact h.trans hy

/-- Overflow does not depend on where in a sum of nonnegative terms it happens. -/
theorem result_add_result {x y : ℝ} (hx : 0 ≤ x) (hy : 0 ≤ y) :
    result r x + result r y = result r (x + y) := by
  cases r with
  | exact => rfl
  | overflowing =>
      rcases lt_or_ge maxFinite x with hlarge | hsmall
      · rw [result_of_lt hlarge, result_of_lt (by linarith : maxFinite < x + y)]
        rcases lt_or_ge maxFinite y with hlarge' | hsmall'
        · rw [result_of_lt hlarge']
          rfl
        · rw [result_of_fits (show Fits .overflowing y by rwa [Fits, abs_of_nonneg hy])]
          rfl
      · rw [result_of_fits (show Fits .overflowing x by rwa [Fits, abs_of_nonneg hx])]
        rcases lt_or_ge maxFinite y with hlarge' | hsmall'
        · rw [result_of_lt hlarge', result_of_lt (by linarith : maxFinite < x + y)]
          rfl
        · rw [result_of_fits (show Fits .overflowing y by rwa [Fits, abs_of_nonneg hy]), add_real]

theorem sqrt_real {x : ℝ} (hx : 0 ≤ x) : (F64.sqrt (real x) : Real64 r) = real √x := by
  change (if x < 0 then nan else real √x) = _
  rw [if_neg (not_lt.mpr hx)]

@[simp] theorem gt_real (x y : ℝ) : F64.gt (real x : Real64 r) (real y) = decide (y < x) := by
  change decide ((y : EReal) < (x : EReal)) = decide (y < x)
  simp only [EReal.coe_lt_coe_iff]

@[simp] theorem le_real (x y : ℝ) :
    CanonicalF64.le (real x : Real64 r) (real y) = decide (x ≤ y) := by
  change decide ((x : EReal) ≤ (y : EReal)) = decide (x ≤ y)
  simp only [EReal.coe_le_coe_iff]

@[simp] theorem minPositive_eq :
    (CanonicalF64.minPositive : Real64 r) = real (2 ^ (-1022 : ℤ)) := by
  change real ((2 ^ 1022 : ℤ) : ℝ)⁻¹ = _
  rw [Int.cast_pow, Int.cast_ofNat, zpow_neg]
  rfl

@[simp] theorem roundTiesEven_real (x : ℝ) :
    CanonicalF64.roundTiesEven (real x : Real64 r) = real (Rounding.nearestEven x) := rfl

/-- An integral value is cast without loss as far as it fits. -/
@[simp] theorem toI64_ofInt (n : Int) : CanonicalF64.toI64 (real n : Real64 r) = saturate n := by
  change saturate (if (n : ℝ) < 0 then ⌈(n : ℝ)⌉ else ⌊(n : ℝ)⌋) = saturate n
  rw [Int.ceil_intCast, Int.floor_intCast, ite_self]

/-- What is neither of the special values is a real. -/
theorem eq_real_of_finite {v : Real64 r} (hnan : CanonicalF64.isNan v = false)
    (hinf : CanonicalF64.isInfinite v = false) : v = real v.toReal := by
  cases v with
  | nan => exact absurd hnan (by simp only [CanonicalF64.isNan, isNan, Bool.true_eq_false,
      not_false_eq_true])
  | inf s => exact absurd hinf (by simp only [CanonicalF64.isInfinite, isInfinite,
      Bool.true_eq_false, not_false_eq_true])
  | real x => rfl

end Real64

end Seven
