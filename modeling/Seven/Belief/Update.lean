import Seven.Belief.Band
import Seven.Core.Doubles

/-!
# One Update in Rounded Arithmetic

How far from the exact ones the numbers of one update are, and the comparison that
flags it.

A mean is never exactly where the closed form puts it, and in an endless run a bound on
the error that is added up says nothing. But rounding is monotone, so an update leaves
the mean between where it was and the measurement, give or take one rounding of a number
that is about the measurement (`exists_toward`). What the first update leaves of the
prior is the one larger error (`exists_measured_prior`).

The comparison is not continuous, so no bound on errors carries over to it. It comes out
as it does on exact numbers where these are apart by more than the errors: what is at
most the least possible threshold is not above it (`not_gt_of_near`), and what is a
thousandth above the largest one is (`gt_of_far`).

## Theorems

* `exists_round`: The result of an operation that is bounded.
* `exists_toward`: Where an update leaves the mean.
* `exists_measured_prior`: What the first measurement leaves of the prior.
* `exists_reading`: What is read of a coordinate.
* `exists_threshold`: How large the threshold is.
* `not_gt_of_near`, `gt_of_far`: What is flagged.
-/

namespace Seven

namespace Rounded

open GaussianBelief

variable {R : Rounder ℝ}

theorem round_between {x y w : ℝ} (h : min x y ≤ w) (h' : w ≤ max x y) :
    min (R.round x) (R.round y) ≤ R.round w ∧ R.round w ≤ max (R.round x) (R.round y) := by
  rw [← R.monotone.map_min, ← R.monotone.map_max]
  exact ⟨R.monotone h, R.monotone h'⟩

/-- The coordinate that is read. -/
theorem exists_millis (state : CanonicalState) (d : Fin 6) :
    ∃ x : Int64, (measurements state : Vector (Rounded R) 6).get d = fromMilli x ∧
      (measurements state : Vector ℝ 6).get d = fromMilli x := by
  rcases d with ⟨i, hi⟩
  interval_cases i <;> exact ⟨_, rfl, rfl⟩

variable (hR : R.Near)

include hR

/-- The result of an operation that is bounded. -/
theorem exists_round {x b : ℝ} (h : |x| ≤ b) (hb : b ≤ 2 ^ 64) :
    ∃ y has, result R x = finite y has ∧ R.round x = y ∧ |y - x| ≤ (b + 1) * ulp := by
  have herr := hR.error x
  have htiny := tiny_le_ulp
  have hpow : (2 : ℝ) ^ 64 ≤ 2 ^ 990 := pow_le_pow_right₀ one_le_two (by norm_num)
  refine ⟨R.round x, R.has_round x, result_eq hR ((h.trans hb).trans hpow), rfl, ?_⟩
  rw [ulp_eq] at herr htiny ⊢
  linarith

/-- An update leaves the mean between where it was and about the measurement. -/
theorem exists_toward {μ z k : ℝ} (hasμ : R.Has μ) (hasz : R.Has z) (hask : R.Has k)
    (hk0 : 0 ≤ k) (hk1 : k ≤ 1) (hμ : |μ| ≤ 10 ^ 8) (hz : |z| ≤ 10 ^ 8) :
    ∃ m has t, add (finite μ hasμ) (mul (finite k hask) (sub (finite z hasz) (finite μ hasμ))) =
        finite m has ∧ |t - z| ≤ 1000000⁻¹ ∧ min μ t ≤ m ∧ m ≤ max μ t := by
  have hdist : |z - μ| ≤ 2 * 10 ^ 8 := by
    have hsub := abs_sub z μ
    linarith
  rcases exists_round hR hdist (by norm_num) with ⟨d, hasd, hd, _, hderr⟩
  rw [ulp_eq] at hderr
  have hdsize : |d| ≤ 3 * 10 ^ 8 := by
    have habs := abs_add_le (z - μ) (d - (z - μ))
    rw [add_sub_cancel] at habs
    linarith
  -- The product lies between zero and the difference, and so does its rounding.
  have hprod : min 0 d ≤ k * d ∧ k * d ≤ max 0 d := by
    rcases le_total 0 d with h | h
    · rw [min_eq_left h, max_eq_right h]
      exact ⟨mul_nonneg hk0 h, mul_le_of_le_one_left h hk1⟩
    · rw [min_eq_right h, max_eq_left h]
      exact ⟨by nlinarith, mul_nonpos_of_nonneg_of_nonpos hk0 h⟩
  have hpsize : |k * d| ≤ 3 * 10 ^ 8 := by
    rw [abs_mul, abs_of_nonneg hk0]
    exact (mul_le_of_le_one_left (abs_nonneg d) hk1).trans hdsize
  rcases exists_round hR hpsize (by norm_num) with ⟨p, hasp, hp, hpeq, _⟩
  have hbetween := round_between (R := R) hprod.1 hprod.2
  rw [R.has_zero, hasd, hpeq] at hbetween
  -- And so does the mean, between itself and the sum with the difference.
  have hsum : min (μ + 0) (μ + d) ≤ μ + p ∧ μ + p ≤ max (μ + 0) (μ + d) := by
    rw [min_add_add_left, max_add_add_left, add_le_add_iff_left, add_le_add_iff_left]
    exact hbetween
  rw [add_zero] at hsum
  have hmean := round_between (R := R) hsum.1 hsum.2
  rw [hasμ] at hmean
  have hend : |μ + d| ≤ 4 * 10 ^ 8 := (abs_add_le μ d).trans (by linarith)
  have hlarge : |μ + p| ≤ 4 * 10 ^ 8 := by
    rcases le_total 0 d with h | h
    · rw [min_eq_left h, max_eq_right h] at hbetween
      rw [abs_le] at hdsize hμ ⊢
      constructor <;> linarith
    · rw [min_eq_right h, max_eq_left h] at hbetween
      rw [abs_le] at hdsize hμ ⊢
      constructor <;> linarith
  rcases exists_round hR hlarge (by norm_num) with ⟨m, hasm, hm, hmeq, _⟩
  rcases exists_round hR hend (by norm_num) with ⟨t, _, _, hteq, hterr⟩
  rw [hmeq, hteq] at hmean
  rw [ulp_eq, abs_le] at hterr
  rw [abs_le] at hderr
  refine ⟨m, hasm, t, ?_, ?_, hmean.1, hmean.2⟩
  · simp only [sub, hd, mul, hp, add]
    exact hm
  · rw [abs_le]
    constructor <;> linarith [hderr.1, hderr.2, hterr.1, hterr.2]

theorem result_of_has {x : ℝ} (has : R.Has x) (h : |x| ≤ 2 ^ 64) : result R x = finite x has := by
  rcases exists_round hR h le_rfl with ⟨y, hasy, hy, heq, _⟩
  have hyx : y = x := heq.symm.trans has
  subst hyx
  exact hy

/-- The gain of the first measurement is almost one. -/
theorem exists_prior_gain {n : ℤ} (hn : 1 ≤ n) (hn' : n ≤ 25) :
    ∃ (k : ℝ) (has : R.Has k), (F64.ofInt 1000000000 : Rounded R) /
        (F64.ofInt 1000000000 + F64.ofInt n) = finite k has ∧ 0 ≤ k ∧ k ≤ 1 ∧
      (1 - k) * 1000000000 ≤ n + 1000000⁻¹ := by
  have hlow : (1 : ℝ) ≤ n := by exact_mod_cast hn
  have hhigh : (n : ℝ) ≤ 25 := by exact_mod_cast hn'
  have hsmall : |n| ≤ 2 ^ 53 := abs_le.mpr ⟨by omega, by omega⟩
  have hsum : (F64.ofInt 1000000000 + F64.ofInt n : Rounded R) = F64.ofInt (1000000000 + n) := by
    rw [ofInt_eq 1000000000 (by norm_num), ofInt_eq n hsmall]
    change result R (((1000000000 : ℤ) : ℝ) + (n : ℝ)) = result R ((1000000000 + n : ℤ) : ℝ)
    rw [Int.cast_add]
  have hpos : (0 : ℝ) < ((1000000000 + n : ℤ) : ℝ) := Int.cast_pos.mpr (by omega)
  have hratio : |((1000000000 : ℤ) : ℝ) / ((1000000000 + n : ℤ) : ℝ)| ≤ 1 := by
    rw [abs_of_nonneg (div_nonneg (by norm_num) hpos.le), div_le_one hpos]
    exact Int.cast_le.mpr (by omega)
  rcases exists_round hR hratio (by norm_num) with ⟨k, hask, hk, hkeq, hkerr⟩
  have hdiv : (F64.ofInt 1000000000 : Rounded R) / (F64.ofInt 1000000000 + F64.ofInt n) =
      finite k hask := by
    rw [hsum, ofInt_eq 1000000000 (by norm_num),
      ofInt_eq (1000000000 + n) (abs_le.mpr ⟨by omega, by omega⟩), ← hk]
    exact if_pos hpos.ne'
  have hk0 : 0 ≤ k := by
    rw [← hkeq]
    exact round_nonneg (div_nonneg (by norm_num) hpos.le)
  have hk1 : k ≤ 1 := by
    rw [← hkeq, ← R.has_one]
    exact R.monotone ((le_abs_self _).trans hratio)
  refine ⟨k, hask, hdiv, hk0, hk1, ?_⟩
  have hmove : (1 - ((1000000000 : ℤ) : ℝ) / ((1000000000 + n : ℤ) : ℝ)) * 1000000000 ≤ n := by
    rw [one_sub_div hpos.ne', div_mul_eq_mul_div, div_le_iff₀ hpos]
    push_cast
    nlinarith
  rw [ulp_eq, abs_le] at hkerr
  linarith [hkerr.1]

/-- What the first measurement leaves of the prior. -/
theorem exists_measured_prior {n : ℤ} (hn : 1 ≤ n) (hn' : n ≤ 25) {z b : ℝ} (hasz : R.Has z)
    (hz : |z| ≤ b) (hb : b ≤ 2 * 10 ^ 7) :
    ∃ m hasm v hasv, measured (⟨F64.ofInt 0, F64.ofInt 1000000000⟩ : Fusion.Gaussian (Rounded R))
        (finite z hasz) (F64.ofInt n) = ⟨finite m hasm, finite v hasv⟩ ∧
      |m - z| * 1000000000 ≤ b * (n + 1000000⁻¹) + 10 ∧ 0 ≤ v ∧ v ≤ n + 1000⁻¹ := by
  have hlow : (1 : ℝ) ≤ n := by exact_mod_cast hn
  have hhigh : (n : ℝ) ≤ 25 := by exact_mod_cast hn'
  rcases exists_prior_gain hR hn hn' with ⟨k, hask, hk, hk0, hk1, hrest⟩
  have hone : (F64.ofInt 1 : Rounded R) = finite 1 R.has_one := by
    rw [ofInt_eq 1 (by norm_num)]
    simp only [Int.cast_one]
  have hzero : (F64.ofInt 0 : Rounded R) = finite 0 R.has_zero := by
    rw [ofInt_eq 0 (by norm_num)]
    simp only [Int.cast_zero]
  -- The mean is the product of the gain and the measurement.
  have hprod : |k * z| ≤ 2 * 10 ^ 7 := by
    rw [abs_mul, abs_of_nonneg hk0]
    exact (mul_le_of_le_one_left (abs_nonneg z) hk1).trans (hz.trans hb)
  rcases exists_round hR hprod (by norm_num) with ⟨m, hasm, hm, hmeq, hmerr⟩
  have hmsize : |m| ≤ 2 ^ 64 := by
    have habs := abs_add_le (k * z) (m - k * z)
    rw [add_sub_cancel] at habs
    rw [ulp_eq] at hmerr
    linarith
  have hmean : add (finite 0 R.has_zero) (mul (finite k hask)
      (sub (finite z hasz) (finite 0 R.has_zero))) = finite m hasm := by
    have hzres := result_of_has hR hasz ((hz.trans hb).trans (by norm_num))
    have hmres := result_of_has hR hasm hmsize
    simp only [sub, sub_zero, hzres, mul, hm, add, zero_add, hmres]
  -- The variance is what the gain leaves of one, times the prior's.
  have hleft : |1 - k| ≤ 1 := abs_le.mpr ⟨by linarith, by linarith⟩
  rcases exists_round hR hleft (by norm_num) with ⟨q, hasq, hq, hqeq, hqerr⟩
  have hq0 : 0 ≤ q := by
    rw [← hqeq]
    exact round_nonneg (sub_nonneg.mpr hk1)
  rw [ulp_eq, abs_le] at hqerr
  have hvsize : |((1000000000 : ℤ) : ℝ) * q| ≤ 100 := by
    rw [abs_of_nonneg (mul_nonneg (by norm_num) hq0)]
    push_cast
    linarith [hqerr.2]
  rcases exists_round hR hvsize (by norm_num) with ⟨v, hasv, hv, hveq, hverr⟩
  have hvar : mul (finite ((1000000000 : ℤ) : ℝ) (R.has_int 1000000000 (by norm_num)))
      (sub (finite 1 R.has_one) (finite k hask)) = finite v hasv := by
    simp only [sub, hq, mul, hv]
  refine ⟨m, hasm, v, hasv, ?_, ?_, ?_, ?_⟩
  · unfold measured
    dsimp only
    rw [hk, hone, hzero, ofInt_eq 1000000000 (by norm_num)]
    exact Fusion.Gaussian.ext hmean hvar
  · have hmove : m - z = (m - k * z) - (1 - k) * z := by ring
    have habs := abs_sub (m - k * z) ((1 - k) * z)
    rw [← hmove, abs_mul, abs_of_nonneg (sub_nonneg.mpr hk1)] at habs
    rw [ulp_eq] at hmerr
    have hshare := mul_le_mul hrest hz (abs_nonneg z) (by linarith)
    linarith
  · rw [← hveq]
    exact round_nonneg (mul_nonneg (by norm_num) hq0)
  · rw [ulp_eq, abs_le] at hverr
    have hup := hverr.2
    push_cast at hup
    linarith [hqerr.2]

/-- What is read of a coordinate. -/
theorem exists_reading (state : CanonicalState) (d : Fin 6) :
    ∃ y has, (measurements state : Vector (Rounded R) 6).get d = finite y has ∧ |y| ≤ 2 ^ 60 ∧
      |y - (measurements state : Vector ℝ 6).get d| ≤
        (|(measurements state : Vector ℝ 6).get d| + 1) * (4 * ulp) := by
  rcases exists_millis (R := R) state d with ⟨x, hx, hexact⟩
  have hsize : |(x.toInt : ℝ)| ≤ 2 ^ 63 := by
    have hlow := Int64.le_toInt x
    have hhigh := Int64.toInt_lt x
    have hint : |x.toInt| ≤ 2 ^ 63 := abs_le.mpr ⟨hlow, hhigh.le⟩
    exact_mod_cast hint
  have htiny := tiny_le_ulp
  rcases exists_result hR (hsize.trans (by norm_num)) with ⟨w, hasw, hw, hwerr⟩
  have hwabs := abs_add_le (x.toInt : ℝ) (w - x.toInt)
  rw [add_sub_cancel] at hwabs
  rw [ulp_eq] at hwerr htiny
  have hquot : |w / ((1000 : ℤ) : ℝ)| = |w| * 1000⁻¹ := by
    rw [Int.cast_ofNat, abs_div, abs_of_pos (by norm_num : (0 : ℝ) < 1000), div_eq_mul_inv]
  rcases exists_result hR (show |w / ((1000 : ℤ) : ℝ)| ≤ 2 ^ 64 by rw [hquot]; linarith) with
    ⟨y, hasy, hy, hyerr⟩
  have hread : (fromMilli x : Rounded R) = finite y hasy := by
    change div (result R (x.toInt : ℝ)) (F64.ofInt 1000) = _
    rw [hw, ofInt_eq 1000 (by norm_num), ← hy]
    exact if_pos (by norm_num)
  have hyabs := abs_add_le (w / ((1000 : ℤ) : ℝ)) (y - w / ((1000 : ℤ) : ℝ))
  rw [add_sub_cancel] at hyabs
  rw [hquot, ulp_eq] at hyerr
  rw [hquot] at hyabs
  have hvalue : (fromMilli x : ℝ) = x.toInt * 1000⁻¹ := by
    change (x.toInt : ℝ) / ((1000 : ℤ) : ℝ) = _
    rw [Int.cast_ofNat, div_eq_mul_inv]
  rw [hx, hexact, hread, hvalue]
  refine ⟨y, hasy, rfl, by linarith, ?_⟩
  -- Two roundings, of the integer and of the quotient.
  have hmove : |y - x.toInt * 1000⁻¹| ≤
      |y - w / ((1000 : ℤ) : ℝ)| + |w - x.toInt| * 1000⁻¹ := by
    have htriangle := abs_add_le (y - w / ((1000 : ℤ) : ℝ)) ((w - x.toInt) * 1000⁻¹)
    rw [abs_mul, abs_of_pos (by norm_num : (0 : ℝ) < 1000⁻¹), sub_mul, Int.cast_ofNat,
      div_eq_mul_inv, sub_add_sub_cancel] at htriangle
    rwa [Int.cast_ofNat, div_eq_mul_inv]
  rw [abs_mul, abs_of_pos (by norm_num : (0 : ℝ) < 1000⁻¹), ulp_eq]
  linarith [abs_nonneg (x.toInt : ℝ)]

/-- How large the threshold is. -/
theorem exists_threshold {n r : ℤ} (hr : 1 ≤ r) (hr' : r ≤ 5) (hn : n = r * r) {v : ℝ}
    (hasv : R.Has v) (hv : 0 ≤ v) (hv' : v ≤ n + 1000⁻¹) {top : ℝ} (htop : 0 ≤ top)
    (hsq : 9 * (2 * n + 500⁻¹) ≤ top ^ 2) :
    ∃ t has, (F64.ofInt 3 : Rounded R) * F64.sqrt (finite v hasv + F64.ofInt n) = finite t has ∧
      ((3 * r : ℤ) : ℝ) ≤ t ∧ t ≤ top + 1000⁻¹ := by
  have hlow : (1 : ℝ) ≤ r := by exact_mod_cast hr
  have hhigh : (r : ℝ) ≤ 5 := by exact_mod_cast hr'
  have hsmall {m : ℤ} (hm : 1 ≤ m) (hm' : m ≤ 25) : |m| ≤ 2 ^ 53 :=
    abs_le.mpr ⟨by omega, by omega⟩
  have hone : 1 ≤ n := by rw [hn]; nlinarith
  have hmost : n ≤ 25 := by rw [hn]; nlinarith
  have hnlow : (1 : ℝ) ≤ n := by exact_mod_cast hone
  have hnhigh : (n : ℝ) ≤ 25 := by exact_mod_cast hmost
  -- The predictive variance is at least the noise.
  have hsum : |v + n| ≤ 51 := abs_le.mpr ⟨by linarith, by linarith⟩
  rcases exists_round hR hsum (by norm_num) with ⟨s, hass, hs, hseq, hserr⟩
  have hns := R.monotone (show (n : ℝ) ≤ v + n by linarith)
  rw [R.has_int n (hsmall hone hmost), hseq] at hns
  rw [ulp_eq, abs_le] at hserr
  -- So its root is at least the standard deviation of the noise.
  have hroot : (r : ℝ) ≤ √s := by
    refine Real.le_sqrt_of_sq_le (le_trans (le_of_eq ?_) hns)
    rw [hn, Int.cast_mul, pow_two]
  have hroot' : 3 * √s ≤ top := by
    have hnine : (3 : ℝ) * √s = √(9 * s) := by
      rw [Real.sqrt_mul (by norm_num), show (9 : ℝ) = 3 ^ 2 by norm_num,
        Real.sqrt_sq (by norm_num)]
    rw [hnine]
    refine (Real.sqrt_le_left htop).mpr (le_trans ?_ hsq)
    linarith [hserr.2]
  have hsmallroot : |√s| ≤ 10 := by
    rw [abs_of_nonneg (Real.sqrt_nonneg s)]
    refine (Real.sqrt_le_left (by norm_num)).mpr ?_
    linarith [hserr.2]
  rcases exists_round hR hsmallroot (by norm_num) with ⟨q, hasq, hq, hqeq, hqerr⟩
  have hrq := R.monotone hroot
  rw [R.has_int r (hsmall hr (by omega)), hqeq] at hrq
  rw [ulp_eq, abs_le] at hqerr
  rw [abs_of_nonneg (Real.sqrt_nonneg s)] at hsmallroot
  have hprod : |((3 : ℤ) : ℝ) * q| ≤ 31 := by
    push_cast
    exact abs_le.mpr ⟨by linarith, by linarith [hqerr.2]⟩
  rcases exists_round hR hprod (by norm_num) with ⟨t, hast, ht, hteq, hterr⟩
  have hthree := R.monotone (show ((3 * r : ℤ) : ℝ) ≤ ((3 : ℤ) : ℝ) * q by push_cast; linarith)
  rw [R.has_int (3 * r) (hsmall (by omega) (by omega)), hteq] at hthree
  refine ⟨t, hast, ?_, hthree, ?_⟩
  · have hsqrt : (F64.sqrt (finite s hass) : Rounded R) = finite q hasq := by
      change (if s < 0 then nan else result R √s) = _
      rw [if_neg (not_lt.mpr (by linarith)), hq]
    have hadd : (finite v hasv + F64.ofInt n : Rounded R) = finite s hass := by
      rw [ofInt_eq n (hsmall hone hmost), ← hs]
      rfl
    rw [hadd, hsqrt, ofInt_eq 3 (by norm_num), ← ht]
    rfl
  · rw [ulp_eq, abs_le] at hterr
    have hup := hterr.2
    push_cast at hup
    linarith [hqerr.2]

/-- What is nearer than the threshold is not above it. -/
theorem not_gt_of_near {z μ t : ℝ} (hasz : R.Has z) (hasμ : R.Has μ) (hast : R.Has t) {l : ℤ}
    (hl : l ≤ 100) (h : |z - μ| ≤ l) (ht : (l : ℝ) ≤ t) :
    F64.gt (F64.abs (finite z hasz - finite μ hasμ : Rounded R)) (finite t hast) = false := by
  have hl' : (l : ℝ) ≤ 100 := by exact_mod_cast hl
  have hnonneg : 0 ≤ l := by exact_mod_cast (abs_nonneg _).trans h
  have hasl := R.has_int l (abs_le.mpr ⟨by omega, by omega⟩)
  have hasneg := R.has_int (-l) (abs_le.mpr ⟨by omega, by omega⟩)
  rw [Int.cast_neg] at hasneg
  rcases exists_round hR (h.trans hl') (by norm_num) with ⟨d, hasd, hd, hdeq, _⟩
  -- The bound is a value of the format, so neither rounding passes it.
  have hdist : |d| ≤ l := by
    rw [abs_le] at h
    have hlow := R.monotone h.1
    have hhigh := R.monotone h.2
    rw [hasneg, hdeq] at hlow
    rw [hasl, hdeq] at hhigh
    exact abs_le.mpr ⟨hlow, hhigh⟩
  have habs : |(|d|)| ≤ 100 := by
    rw [abs_abs]
    exact hdist.trans hl'
  rcases exists_round hR habs (by norm_num) with ⟨e, hase, he, heeq, _⟩
  have hle := R.monotone hdist
  rw [hasl, heeq] at hle
  have hvalue : F64.abs (finite z hasz - finite μ hasμ : Rounded R) = finite e hase := by
    change F64.abs (result R (z - μ)) = _
    rw [hd]
    exact he
  rw [hvalue]
  exact decide_eq_false (not_lt.mpr (hle.trans ht))

/-- What is farther than the threshold, by a little, is above it. -/
theorem gt_of_far {z μ t c : ℝ} (hasz : R.Has z) (hasμ : R.Has μ) (hast : R.Has t)
    (hz : |z - μ| ≤ 2 ^ 62) (h : c ≤ |z - μ|) (hc : c ≤ 100) (ht : t + 1000⁻¹ ≤ c) :
    F64.gt (F64.abs (finite z hasz - finite μ hasμ : Rounded R)) (finite t hast) = true := by
  have htiny := tiny_le_ulp
  rcases exists_result hR (hz.trans (by norm_num)) with ⟨d, hasd, hd, hderr⟩
  have hdlow := abs_sub_abs_le_abs_sub (z - μ) d
  have hdhigh := abs_sub_abs_le_abs_sub d (z - μ)
  rw [abs_sub_comm (z - μ) d] at hdlow
  rw [ulp_eq] at hderr htiny
  rcases exists_result hR (show |(|d|)| ≤ 2 ^ 64 by rw [abs_abs]; linarith) with
    ⟨e, hase, he, heerr⟩
  have hvalue : F64.abs (finite z hasz - finite μ hasμ : Rounded R) = finite e hase := by
    change F64.abs (result R (z - μ)) = _
    rw [hd]
    exact he
  rw [abs_abs, ulp_eq, abs_le] at heerr
  rw [hvalue]
  refine decide_eq_true ?_
  linarith [heerr.1]

end Rounded

end Seven
