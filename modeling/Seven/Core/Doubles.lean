import Seven.Belief.Rounded
import Seven.Core.Quantized

/-!
# Canonicalization in Rounded Arithmetic

What canonicalization does on numbers of 53 digits, where products underflow and
overflow, and every sum, root and quotient is off by a little.

Of the rounding it matters here how near it is: a result is off by at most one unit in
its last place, in whichever direction (`Rounder.Near`). So a number in fixed point can
be read as a float and stored again without a change, as long as it has no more than 49
binary digits (`quantize_dequantize`). The components of a canonicalized attitude never
have as many, not even where the norm underflows or is an infinity
(`exists_canonicalized`).

## Main definitions

* `Rounder.Near`: A rounding that is off by a unit in the last place.
* `Rounded.AtLeast`: A value that is not below a number, or too large.
* `squares`: The sum that the norm is the root of.

## Theorems

* `near_binary64`: The rounding of `f64` is near.
* `quantize_dequantize`: Reading and storing a number in fixed point.
* `exists_div`: A component over the norm.
* `exists_canonicalized`: The components of a canonicalized attitude.
-/

namespace Seven

open Rounding

/-- The relative error of an operation. -/
noncomputable def ulp : ℝ := ((2 ^ 52 : ℤ) : ℝ)⁻¹

/-- The least positive value. -/
noncomputable def tiny : ℝ := ((2 ^ 1074 : ℤ) : ℝ)⁻¹

/-- A rounding that is off by at most one unit in the last place. -/
structure Rounder.Near (R : Rounder ℝ) : Prop where
  error : ∀ x, |R.round x - x| ≤ |x| * ulp + tiny
  least : ∀ x, 0 < R.round x → tiny ≤ R.round x
  large : 2 ^ 1000 ≤ R.maxFinite

theorem inv_cast_pow (n : ℕ) : ((2 ^ n : ℤ) : ℝ)⁻¹ = 2 ^ (-(n : ℤ)) := by
  rw [Int.cast_pow, Int.cast_ofNat, zpow_neg, zpow_natCast]

theorem ulp_eq_zpow : ulp = 2 ^ (-52 : ℤ) := inv_cast_pow 52

theorem tiny_eq_zpow : tiny = 2 ^ (-1074 : ℤ) := inv_cast_pow 1074

theorem ulp_eq : ulp = 1 / 4503599627370496 := by
  rw [ulp_eq_zpow]
  norm_num

theorem tiny_pos : 0 < tiny := by
  rw [tiny_eq_zpow]
  exact two_zpow_pos _

theorem tiny_eq : tiny = (2 ^ (-530 : ℤ) / 128) ^ 2 := by
  have hpow : (128 : ℝ) ^ 2 = 2 ^ (14 : ℤ) := by norm_num
  rw [div_pow, hpow, ← zpow_natCast, ← zpow_mul, ← zpow_sub₀ two_ne_zero, tiny_eq_zpow]
  rfl

theorem tiny_le_zpow {n : ℤ} (hn : -1074 ≤ n) : tiny ≤ 2 ^ n := by
  rw [tiny_eq_zpow]
  exact zpow_le_zpow_right₀ one_le_two hn

theorem tiny_le_small : tiny ≤ 2 ^ (-530 : ℤ) / 2 ^ 10 := by
  rw [← zpow_natCast, ← zpow_sub₀ two_ne_zero]
  exact tiny_le_zpow (by norm_num)

theorem tiny_le_ulp : tiny ≤ ulp := by
  rw [ulp_eq_zpow]
  exact tiny_le_zpow (by norm_num)

/-- The rounding of `f64` is off by half a unit in the last place. -/
theorem near_binary64 : (Rounder.binary64 : Rounder ℝ).Near where
  error x := by
    have herr : |(Rounder.binary64 : Rounder ℝ).round x - x| ≤
        |x| * 2 ^ (-((53 : ℕ) : ℤ)) + 2 ^ (-1074 - 1 : ℤ) := abs_toFormat_sub_le x
    have hdigits : (2 : ℝ) ^ (-((53 : ℕ) : ℤ)) ≤ ulp := by
      rw [ulp_eq_zpow]
      exact zpow_le_zpow_right₀ one_le_two (by norm_num)
    have hplace : (2 : ℝ) ^ (-1074 - 1 : ℤ) ≤ tiny := by
      rw [tiny_eq_zpow]
      exact zpow_le_zpow_right₀ one_le_two (by norm_num)
    exact herr.trans (add_le_add (mul_le_mul_of_nonneg_left hdigits (abs_nonneg x)) hplace)
  least x hx := by
    have hvalue : Representable 53 (-1074) ((Rounder.binary64 : Rounder ℝ).round x) :=
      representable_toFormat (by norm_num) x
    have hle := hvalue.le_abs hx.ne'
    rwa [abs_of_pos hx, ← tiny_eq_zpow] at hle
  large := by
    have hpow {m n : ℕ} (h : m ≤ n) : (2 : ℤ) ^ m ≤ 2 ^ n := pow_le_pow_right₀ one_le_two h
    have hsum : (2 : ℤ) ^ 1000 + 2 ^ 971 ≤ 2 ^ 1024 :=
      calc (2 : ℤ) ^ 1000 + 2 ^ 971 ≤ 2 ^ 1000 + 2 ^ 1000 := by
            rw [add_le_add_iff_left]
            exact hpow (by norm_num)
        _ = 2 ^ 1001 := by rw [← mul_two, ← pow_succ]
        _ ≤ 2 ^ 1024 := hpow (by norm_num)
    have hcast := Int.cast_le (R := ℝ).mpr (le_sub_iff_add_le.mpr hsum)
    rwa [Int.cast_pow, Int.cast_ofNat] at hcast

namespace Rounded

variable {R : Rounder ℝ}

/-- The comparison `<=`. -/
noncomputable def le : Rounded R → Rounded R → Bool
  | finite x _, finite y _ => decide (x ≤ y)
  | inf s, inf t => s || !t
  | inf s, finite _ _ => s
  | finite _ _, inf t => !t
  | _, _ => false

/-- `f64` with the root of the real numbers. -/
noncomputable instance : CanonicalF64 (Rounded R) where
  toF64 := letI : SquareRoot ℝ := ⟨Real.sqrt⟩; inferInstance
  isNan
    | nan => true
    | _ => false
  isInfinite
    | inf _ => true
    | _ => false
  minPositive := result R ((2 ^ 1022 : ℤ) : ℝ)⁻¹
  le := le
  roundTiesEven
    | nan => nan
    | inf s => inf s
    | finite x _ => result R (nearestEven x)
  toI64
    | nan => 0
    | inf s => if s then Int64.minValue else Int64.maxValue
    | finite x _ => saturate (if x < 0 then ⌈x⌉ else ⌊x⌋)

theorem ofInt_real (m : Int) (hm : |m| ≤ 2 ^ 53) :
    (F64.ofInt m : Rounded R) = finite (m : ℝ) (R.has_int m hm) :=
  letI : SquareRoot ℝ := ⟨Real.sqrt⟩
  ofInt_eq m hm

/-- Scales and other small integers are values. -/
theorem ofInt_small (m : Int) (hm : |m| ≤ 10 ^ 6) :
    ∃ has, (F64.ofInt m : Rounded R) = finite (m : ℝ) has :=
  ⟨R.has_int m (hm.trans (by norm_num)), ofInt_real m (hm.trans (by norm_num))⟩

theorem finite64_finite (x : ℝ) (has : R.Has x) : Finite64 (finite x has : Rounded R) := ⟨rfl, rfl⟩

/-- A value that is not below a number, or too large. -/
def AtLeast (c : ℝ) (v : Rounded R) : Prop :=
  v = inf false ∨ ∃ x has, v = finite x has ∧ c ≤ x

theorem round_nonneg {x : ℝ} (h : 0 ≤ x) : 0 ≤ R.round x := by
  have hmono := R.monotone h
  rwa [R.has_zero] at hmono

theorem round_of_result_eq {x y : ℝ} {has : R.Has y} (h : result R x = finite y has) :
    R.round x = y := by
  unfold result at h
  split at h
  · rwa [finite.injEq] at h
  · exact absurd h (by simp only [reduceCtorEq, not_false_eq_true])

theorem AtLeast.mono {b c : ℝ} {v : Rounded R} (h : AtLeast c v) (hbc : b ≤ c) : AtLeast b v := by
  rcases h with h | ⟨x, has, h, hx⟩
  · exact Or.inl h
  · exact Or.inr ⟨x, has, h, hbc.trans hx⟩

theorem atLeast_result {c x : ℝ} (hc : 0 ≤ c) (h : c ≤ R.round x) : AtLeast c (result R x) := by
  unfold result
  split
  · exact Or.inr ⟨R.round x, R.has_round x, rfl, h⟩
  · left
    rw [decide_eq_false (not_lt.mpr (hc.trans h))]

/-- Addition rounds the exact sum, in which the order does not matter. -/
protected theorem add_comm (v w : Rounded R) : v + w = w + v := by
  change add v w = add w v
  cases v with
  | nan =>
      cases w with
      | nan => rfl
      | inf t => rfl
      | finite y hasy => rfl
  | inf s =>
      cases w with
      | nan => rfl
      | inf t =>
          by_cases hst : s = t
          · rw [hst]
          · rw [add, add, if_neg hst, if_neg (Ne.symm hst)]
      | finite y hasy => rfl
  | finite x hasx =>
      cases w with
      | nan => rfl
      | inf t => rfl
      | finite y hasy => exact congrArg (result R) (add_comm x y)

theorem AtLeast.add_left {c : ℝ} {v w : Rounded R} (has : R.Has c) (hc : 0 ≤ c)
    (hv : AtLeast c v) (hw : AtLeast 0 w) : AtLeast c (v + w) := by
  rcases hv with rfl | ⟨x, hasx, rfl, hx⟩
  · rcases hw with rfl | ⟨y, hasy, rfl, hy⟩
    · exact Or.inl rfl
    · exact Or.inl rfl
  · rcases hw with rfl | ⟨y, hasy, rfl, hy⟩
    · exact Or.inl rfl
    · refine atLeast_result hc ?_
      rw [← has]
      exact R.monotone (by linarith)

theorem AtLeast.add_right {c : ℝ} {v w : Rounded R} (has : R.Has c) (hc : 0 ≤ c)
    (hv : AtLeast 0 v) (hw : AtLeast c w) : AtLeast c (v + w) := by
  rw [Rounded.add_comm]
  exact hw.add_left has hc hv

/-- A value that is neither of the special ones. -/
theorem exists_finite {v : Rounded R} (h : Finite64 v) : ∃ x has, v = finite x has := by
  cases v with
  | nan => exact Bool.noConfusion h.1
  | inf s => exact Bool.noConfusion h.2
  | finite x has => exact ⟨x, has, rfl⟩

section Near

variable (hR : R.Near)

include hR

theorem abs_round_le (x : ℝ) : |R.round x| ≤ |x| + |x| * ulp + tiny := by
  have herr := hR.error x
  have hsum := abs_add_le x (R.round x - x)
  rw [add_sub_cancel] at hsum
  linarith

/-- Results that are not too large come out finite. -/
theorem result_eq {x : ℝ} (h : |x| ≤ 2 ^ 990) :
    result R x = finite (R.round x) (R.has_round x) := by
  have hround := abs_round_le hR x
  have htiny := tiny_le_ulp
  have hlarge := hR.large
  have hpow : (2 : ℝ) ^ 1000 = 2 ^ 990 * 2 ^ 10 := by rw [← pow_add]
  have hone : (1 : ℝ) ≤ 2 ^ 990 := one_le_pow₀ one_le_two
  rw [hpow] at hlarge
  rw [ulp_eq] at hround htiny
  refine if_pos ?_
  generalize (2 : ℝ) ^ 990 = top at h hlarge hone
  linarith

theorem exists_result {x : ℝ} (h : |x| ≤ 2 ^ 64) :
    ∃ y has, result R x = finite y has ∧ |y - x| ≤ |x| * ulp + tiny :=
  ⟨R.round x, R.has_round x, result_eq hR (h.trans (pow_le_pow_right₀ one_le_two (by norm_num))),
    hR.error x⟩

theorem exists_minPositive :
    ∃ m has, (CanonicalF64.minPositive : Rounded R) = finite m has ∧ 0 ≤ m ∧
      m ≤ 2 ^ (-1000 : ℤ) := by
  have hpos := two_zpow_pos (K := ℝ) (-1022)
  have hle : (2 : ℝ) ^ (-1022 : ℤ) ≤ 2 ^ (0 : ℤ) := zpow_le_zpow_right₀ one_le_two (by norm_num)
  rw [zpow_zero] at hle
  have hvalue : (CanonicalF64.minPositive : Rounded R) = result R (2 ^ (-1022 : ℤ)) :=
    congrArg (result R) (inv_cast_pow 1022)
  rw [hvalue]
  refine ⟨_, R.has_round _, result_eq hR ?_, round_nonneg hpos.le, ?_⟩
  · rw [abs_of_pos hpos]
    exact hle.trans (one_le_pow₀ one_le_two)
  · have hround := abs_round_le hR (2 ^ (-1022 : ℤ))
    have htiny : tiny ≤ 2 ^ (-1022 : ℤ) := tiny_le_zpow (by norm_num)
    have hscale : (2 : ℝ) ^ (-1022 : ℤ) * 2 ^ (22 : ℤ) = 2 ^ (-1000 : ℤ) := by
      rw [← zpow_add₀ two_ne_zero]
      norm_num
    have hfactor : (2 : ℝ) ^ (22 : ℤ) = 4194304 := by norm_num
    rw [abs_of_pos hpos, abs_of_nonneg (round_nonneg hpos.le), ulp_eq] at hround
    rw [← hscale, hfactor]
    linarith

/-- What is stored of a number is the integer nearest to its rounded product. -/
theorem exists_quantize {y : ℝ} (has : R.Has y) {scale : Int64} (hscale : 0 < scale.toInt)
    (hsmall : scale.toInt ≤ 10 ^ 6) (hy : |y * scale.toInt| ≤ 2 ^ 50) :
    ∃ z, |z - y * scale.toInt| ≤ |y * scale.toInt| * ulp + tiny ∧
      (quantize (finite y has : Rounded R) scale).toInt = nearestEven z := by
  rcases ofInt_small (R := R) scale.toInt (by rw [abs_of_pos hscale]; exact hsmall) with
    ⟨hasscale, hofInt⟩
  rcases exists_result hR (hy.trans (pow_le_pow_right₀ one_le_two (by norm_num))) with
    ⟨z, hasz, hprod, herr⟩
  refine ⟨z, herr, ?_⟩
  have hz : |nearestEven z| ≤ 2 ^ 51 := by
    have hsum := abs_add_le (y * scale.toInt) (z - y * scale.toInt)
    rw [add_sub_cancel] at hsum
    have htiny := tiny_le_ulp
    rw [ulp_eq] at herr htiny
    have hsize : |z| ≤ ((2 ^ 51 : ℤ) : ℝ) := by
      push_cast
      linarith
    rw [abs_le, ← Int.cast_neg] at hsize
    exact abs_le.mpr ⟨le_nearestEven hsize.1, nearestEven_le hsize.2⟩
  have hrounded : (CanonicalF64.roundTiesEven (finite z hasz) : Rounded R) =
      finite ((nearestEven z : ℤ) : ℝ) (R.has_int _ (hz.trans (by norm_num))) :=
    ofInt_real (nearestEven z) (hz.trans (by norm_num))
  have hmul : (finite y has : Rounded R) * finite (scale.toInt : ℝ) hasscale = finite z hasz :=
    hprod
  unfold quantize
  rw [hofInt, hmul, hrounded]
  change (saturate (if ((nearestEven z : ℤ) : ℝ) < 0 then ⌈((nearestEven z : ℤ) : ℝ)⌉
    else ⌊((nearestEven z : ℤ) : ℝ)⌋)).toInt = nearestEven z
  rw [Int.ceil_intCast, Int.floor_intCast, ite_self, toInt_saturate]
  have hmin : Int64.minValue.toInt = -2 ^ 63 := rfl
  have hmax : Int64.maxValue.toInt = 2 ^ 63 - 1 := rfl
  rw [abs_le] at hz
  omega

/-- A number in fixed point, read and stored again. -/
theorem quantize_dequantize {x scale : Int64} (hscale : 0 < scale.toInt)
    (hsmall : scale.toInt ≤ 10 ^ 6) (hx : |x.toInt| ≤ 2 ^ 49) :
    quantize (dequantize (Rounded R) x scale) scale = x := by
  have hreal : |(x.toInt : ℝ)| ≤ 2 ^ 49 := by
    have hcast := Int.cast_le (R := ℝ).mpr hx
    rwa [Int.cast_abs, Int.cast_pow, Int.cast_ofNat] at hcast
  have hscale' : (1 : ℝ) ≤ scale.toInt := Int.cast_one_le_of_pos hscale
  have hsmall' : (scale.toInt : ℝ) ≤ 10 ^ 6 := by exact_mod_cast hsmall
  rcases ofInt_small (R := R) scale.toInt (by rw [abs_of_pos hscale]; exact hsmall) with
    ⟨hasscale, hofInt⟩
  have hquot : |(x.toInt : ℝ) / scale.toInt| * scale.toInt = |(x.toInt : ℝ)| := by
    rw [abs_div, abs_of_pos (by linarith : (0 : ℝ) < scale.toInt), div_mul_cancel₀ _ (by linarith)]
  have hquot' : |(x.toInt : ℝ) / scale.toInt| ≤ 2 ^ 49 := by
    have hle := le_mul_of_one_le_right (abs_nonneg ((x.toInt : ℝ) / scale.toInt)) hscale'
    linarith
  rcases exists_result hR (hquot'.trans (pow_le_pow_right₀ one_le_two (by norm_num))) with
    ⟨y, hasy, hdiv, hy⟩
  have hread : dequantize (Rounded R) x scale = finite y hasy := by
    unfold dequantize
    rw [ofInt_real x.toInt (hx.trans (by norm_num)), hofInt]
    change (if (scale.toInt : ℝ) ≠ 0 then result R ((x.toInt : ℝ) / scale.toInt) else _) = _
    rw [if_pos (by linarith), hdiv]
  -- The quotient is off by a unit in its last place, and the product by one more.
  have hback : |y * scale.toInt - x.toInt| ≤ |(x.toInt : ℝ)| * ulp + tiny * 10 ^ 6 := by
    have hmove : y * scale.toInt - x.toInt = (y - x.toInt / scale.toInt) * scale.toInt := by
      rw [sub_mul, div_mul_cancel₀ _ (by linarith)]
    have hmul := mul_le_mul_of_nonneg_right hy (by linarith : (0 : ℝ) ≤ scale.toInt)
    rw [hmove, abs_mul, abs_of_pos (by linarith : (0 : ℝ) < scale.toInt)]
    have htiny := mul_le_mul_of_nonneg_left hsmall' tiny_pos.le
    linarith [congrArg (· * ulp) hquot]
  have hsum := abs_add_le (x.toInt : ℝ) (y * scale.toInt - x.toInt)
  rw [add_sub_cancel] at hsum
  have htiny : tiny ≤ 1 / 2 ^ 100 := by
    rw [one_div, ← zpow_natCast, ← zpow_neg]
    exact tiny_le_zpow (by norm_num)
  rw [ulp_eq] at hback
  rcases exists_quantize hR hasy hscale hsmall (by linarith) with ⟨z, hz, hstored⟩
  rw [ulp_eq] at hz
  rw [hread]
  refine Int64.toInt_inj.mp ?_
  rw [hstored]
  refine nearestEven_eq_of_abs_sub_lt ?_
  have htriangle := abs_add_le (z - y * scale.toInt) (y * scale.toInt - x.toInt)
  rw [sub_add_sub_cancel] at htriangle
  linarith

/-- What is stored of a number is not much larger than it. -/
theorem abs_quantize_le {y : ℝ} (has : R.Has y) (hy : |y| ≤ 2 ^ 10) :
    |(quantize (finite y has : Rounded R) Scale.quaternion).toInt| ≤ 2 ^ 49 := by
  have hscale : (Scale.quaternion.toInt : ℝ) = 10 ^ 6 := by
    rw [show Scale.quaternion.toInt = 10 ^ 6 by decide]
    norm_num
  have hprod : |y * Scale.quaternion.toInt| ≤ 2 ^ 30 := by
    rw [hscale, abs_mul, abs_of_pos (by norm_num : (0 : ℝ) < 10 ^ 6)]
    linarith
  rcases exists_quantize hR has (by decide) (by decide) (hprod.trans (by norm_num)) with
    ⟨z, hz, hstored⟩
  have hsum := abs_add_le (y * Scale.quaternion.toInt) (z - y * Scale.quaternion.toInt)
  rw [add_sub_cancel] at hsum
  have htiny := tiny_le_ulp
  rw [ulp_eq] at hz htiny
  have hsize : |z| ≤ ((2 ^ 49 : ℤ) : ℝ) := by
    push_cast
    linarith
  rw [abs_le, ← Int.cast_neg] at hsize
  rw [hstored]
  exact abs_le.mpr ⟨le_nearestEven hsize.1, nearestEven_le hsize.2⟩

end Near

section Attitude

/-- The sum that the norm is the root of. -/
noncomputable def squares (q : Quaternion (Rounded R)) : Rounded R :=
  q.w * q.w + q.x * q.x + q.y * q.y + q.z * q.z

theorem norm_eq (q : Quaternion (Rounded R)) : q.norm = F64.sqrt (squares q) := rfl

theorem atLeast_square {v : Rounded R} (hv : Finite64 v) : AtLeast 0 (v * v) := by
  rcases exists_finite hv with ⟨x, has, rfl⟩
  exact atLeast_result le_rfl (round_nonneg (mul_self_nonneg x))

/-- No square is larger than the sum. -/
theorem atLeast_squares {q : Quaternion (Rounded R)} (hq : ∀ v ∈ q.toList, Finite64 v) {x : ℝ}
    {has : R.Has x} (hx : finite x has ∈ q.toList) : AtLeast (R.round (x * x)) (squares q) := by
  have hnonneg : 0 ≤ R.round (x * x) := round_nonneg (mul_self_nonneg x)
  have hhas := R.has_round (x * x)
  have hzero := R.has_zero
  have hself : AtLeast (R.round (x * x)) (finite x has * finite x has) :=
    atLeast_result hnonneg le_rfl
  simp only [Quaternion.toList, List.forall_mem_cons] at hq
  rcases hq with ⟨hw, hx', hy, hz, _⟩
  have hw0 := atLeast_square hw
  have hx0 := atLeast_square hx'
  have hy0 := atLeast_square hy
  have hz0 := atLeast_square hz
  unfold squares
  simp only [Quaternion.toList, List.mem_cons, List.not_mem_nil, or_false] at hx
  rcases hx with hx | hx | hx | hx <;> rw [← hx]
  · exact ((hself.add_left hhas hnonneg hx0).add_left hhas hnonneg hy0).add_left hhas hnonneg hz0
  · exact ((hw0.add_right hhas hnonneg hself).add_left hhas hnonneg hy0).add_left hhas hnonneg hz0
  · exact ((hw0.add_left hzero le_rfl hx0).add_right hhas hnonneg hself).add_left hhas hnonneg hz0
  · exact ((hw0.add_left hzero le_rfl hx0).add_left hzero le_rfl hy0).add_right hhas hnonneg hself

/-- The root of what is not negative. -/
theorem sqrt_finite {x : ℝ} {has : R.Has x} (hx : 0 ≤ x) :
    (F64.sqrt (finite x has : Rounded R)) = result R √x := by
  change (if x < 0 then nan else result R √x) = _
  rw [if_neg (not_lt.mpr hx)]

theorem AtLeast.sqrt {c : ℝ} {v : Rounded R} (hc : 0 ≤ c) (h : AtLeast c v) :
    AtLeast (R.round √c) (F64.sqrt v) := by
  rcases h with rfl | ⟨x, has, rfl, hx⟩
  · exact Or.inl rfl
  · rw [sqrt_finite (hc.trans hx)]
    exact atLeast_result (round_nonneg (Real.sqrt_nonneg c))
      (R.monotone (Real.sqrt_le_sqrt hx))

/-- The sign is one of two values. -/
theorem exists_sign (q : Quaternion (Rounded R)) :
    ∃ a has, q.sign = finite a has ∧ |a| = 1 := by
  have hcases : q.sign = F64.ofInt 1 ∨ q.sign = F64.ofInt (-1) := by
    unfold Quaternion.sign
    dsimp only
    split_ifs <;> first | exact Or.inl rfl | exact Or.inr rfl
  rcases hcases with hone | hone
  · rcases ofInt_small (R := R) 1 (by norm_num) with ⟨has, hofInt⟩
    exact ⟨_, has, hone.trans hofInt, by norm_num⟩
  · rcases ofInt_small (R := R) (-1) (by norm_num) with ⟨has, hofInt⟩
    exact ⟨_, has, hone.trans hofInt, by norm_num⟩

variable (hR : R.Near)

include hR

/-- A norm that is not zero is not close to it. -/
theorem le_norm {q : Quaternion (Rounded R)} (hq : ∀ v ∈ q.toList, Finite64 v) {n : ℝ}
    {has : R.Has n} (hn : q.norm = finite n has) (hpos : 0 < n) :
    (2 : ℝ) ^ (-530 : ℤ) ≤ 256 * n := by
  rcases exists_finite (hq q.w List.mem_cons_self) with ⟨w, hasw, hw⟩
  have hmem : finite w hasw ∈ q.toList := by
    rw [← hw]
    exact List.mem_cons_self
  have hsum := (atLeast_squares hq hmem).mono (round_nonneg (mul_self_nonneg w))
  rw [norm_eq] at hn
  rcases hsum with hinf | ⟨s, hass, hs, hs0⟩
  · rw [hinf] at hn
    exact absurd hn (by simp only [F64.sqrt, Bool.false_eq_true, if_false, reduceCtorEq,
      not_false_eq_true])
  · rw [hs, sqrt_finite hs0] at hn
    have hround := round_of_result_eq hn
    -- The sum is a value of the format, so it is zero or at least the least value.
    have hspos : 0 < s := by
      rcases hs0.lt_or_eq with hlt | rfl
      · exact hlt
      · rw [Real.sqrt_zero, R.has_zero] at hround
        exact absurd hround hpos.ne
    have hleast : tiny ≤ s := by
      have hle := hR.least s (by rwa [hass])
      rwa [hass] at hle
    rw [tiny_eq] at hleast
    have hroot := Real.le_sqrt_of_sq_le hleast
    have herr := abs_le.mp (hR.error √s)
    have htiny := tiny_le_small
    have hsmall := two_zpow_pos (K := ℝ) (-530)
    rw [hround, abs_of_nonneg (Real.sqrt_nonneg s), ulp_eq] at herr
    linarith [herr.1]

/-- Dividing a component by the norm leaves a small number, also where the squares
    underflow and where they overflow. -/
theorem exists_div {q : Quaternion (Rounded R)} (hq : ∀ v ∈ q.toList, Finite64 v)
    (hnorm : CanonicalF64.le q.norm (CanonicalF64.minPositive : Rounded R) = false) {v : Rounded R}
    (hv : v ∈ q.toList) : ∃ y has, v / q.norm = finite y has ∧ |y| ≤ 2 ^ 9 := by
  rcases exists_finite (hq v hv) with ⟨x, hasx, rfl⟩
  have hleast := (atLeast_squares hq hv).sqrt (round_nonneg (mul_self_nonneg x))
  rw [← norm_eq] at hleast
  rcases hleast with hinf | ⟨n, hasn, hn, hxn⟩
  · rcases exists_result hR (show |(0 : ℝ)| ≤ 2 ^ 64 by rw [abs_zero]; positivity) with
      ⟨y, has, hy, herr⟩
    refine ⟨y, has, by rw [hinf]; exact hy, ?_⟩
    have htiny := tiny_le_ulp
    rw [ulp_eq] at htiny
    rw [sub_zero, abs_zero, zero_mul, zero_add] at herr
    linarith
  · have hpos : 0 < n := by
      rcases exists_minPositive hR with ⟨m, hasm, hm, hm0, _⟩
      rw [hn, hm] at hnorm
      exact hm0.trans_lt (not_le.mp (of_decide_eq_false hnorm))
    have hlow := le_norm hR hq hn hpos
    have hsmall := two_zpow_pos (K := ℝ) (-530)
    have htiny := tiny_le_small
    -- A component that is not tiny has a square that is not either.
    have hquot : |x| ≤ 256 * n := by
      rcases le_total |x| (2 ^ (-530 : ℤ)) with hx | hx
      · exact hx.trans hlow
      · have hsquare : (2 ^ (-530 : ℤ) / 128) ^ 2 ≤ (x * x) / 128 ^ 2 := by
          rw [div_pow, ← abs_mul_abs_self, ← pow_two]
          exact div_le_div_of_nonneg_right (pow_le_pow_left₀ hsmall.le hx 2) (by norm_num)
        rw [← tiny_eq] at hsquare
        have hrounded := abs_le.mp (hR.error (x * x))
        have hroot : |x| / 2 ≤ √(R.round (x * x)) := by
          refine Real.le_sqrt_of_sq_le ?_
          rw [abs_of_nonneg (mul_self_nonneg x), ulp_eq] at hrounded
          rw [div_pow, sq_abs, pow_two]
          linarith [hrounded.1, mul_self_nonneg x]
        have herr := abs_le.mp (hR.error √(R.round (x * x)))
        rw [abs_of_nonneg (Real.sqrt_nonneg _), ulp_eq] at herr
        linarith [herr.1]
    have hdiv : |x / n| ≤ 256 := by
      rw [abs_div, abs_of_pos hpos, div_le_iff₀ hpos]
      exact hquot
    rcases exists_result hR (hdiv.trans (by norm_num)) with ⟨y, has, hy, herr⟩
    refine ⟨y, has, ?_, ?_⟩
    · rw [hn, ← hy]
      exact if_pos hpos.ne'
    · have hsum := abs_add_le (x / n) (y - x / n)
      rw [add_sub_cancel] at hsum
      have htiny := tiny_le_ulp
      rw [ulp_eq] at herr htiny
      linarith

/-- The components of a canonicalized attitude are small numbers. -/
theorem exists_canonicalized {q u : Quaternion (Rounded R)} (h : q.canonicalized = .ok u) :
    ∀ v ∈ u.toList, ∃ y has, v = finite y has ∧ |y| ≤ 2 ^ 10 := by
  have hq := Quaternion.finite_of_canonicalized h
  rw [Quaternion.canonicalized_of_finite hq] at h
  split at h
  · exact absurd h (by simp only [reduceCtorEq, not_false_eq_true])
  · rename_i hnorm
    rw [Bool.not_eq_true] at hnorm
    rw [← Except.ok.inj h]
    intro v hv
    rw [Quaternion.toList_map, Quaternion.toList_map, List.map_map, List.mem_map] at hv
    rcases hv with ⟨x, hx, rfl⟩
    rcases exists_div hR hq hnorm hx with ⟨y, has, hy, hsize⟩
    rcases exists_sign (q.map (· / q.norm)) with ⟨a, hasa, hsign, ha⟩
    have hprod : |a * y| ≤ 2 ^ 9 := by
      rw [abs_mul, ha, one_mul]
      exact hsize
    rcases exists_result hR (hprod.trans (by norm_num)) with ⟨z, hasz, hz, herr⟩
    refine ⟨z, hasz, ?_, ?_⟩
    · rw [Function.comp_apply, hy, hsign, ← hz]
      rfl
    · have hsum := abs_add_le (a * y) (z - a * y)
      rw [add_sub_cancel] at hsum
      have htiny := tiny_le_ulp
      rw [ulp_eq] at herr htiny
      linarith

end Attitude

end Rounded

end Seven
