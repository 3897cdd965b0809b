import Seven.Core.Laws

/-!
# The Range of Canonical States

How far a stored number is from what was observed, and when an attitude is lost.

On exact numbers a stored number is the observed one in fixed point, off by at most
one half, unless it does not fit (`stored_fixed`). The attitude is that of the
multiple of norm one, and its stored norm is off by at most one (`canonicalize_near`).

When results may overflow, the squares of large components do, and the norm is
infinite although every component is finite. The norm is not too small then, so the
attitude is accepted, and every component divided by infinity is zero. That happens
exactly when the sum of the squares is larger than every finite number
(`attitude_ne_zero_iff`).

## Main definitions

* `Stored`: What a number is stored as.
* `Quaternion.Near`: Off by at most one half in every component.

## Theorems

* `stored_fixed`: How far a stored number is from the observed one.
* `canonicalize_near`: How far a canonical state is from an observation.
* `canonicalized_overflowing`: What becomes of an attitude whose norm overflows.
* `attitude_ne_zero_iff`: Which attitudes are not lost.
-/

namespace Seven

open Rounding Real64

section Error

/-- Off by at most one half, or the nearest bound when the number does not fit. -/
def Stored (x : Int64) (p : ℝ) : Prop :=
  ((Int64.minValue.toInt : ℝ) ≤ p → p ≤ (Int64.maxValue.toInt : ℝ) → WithinHalf x.toInt p) ∧
    (p < (Int64.minValue.toInt : ℝ) → x = Int64.minValue) ∧
    ((Int64.maxValue.toInt : ℝ) < p → x = Int64.maxValue)

/-- Off by at most one half in every component. -/
def Quaternion.Near (a : Quaternion ℤ) (q : Quaternion ℝ) : Prop :=
  WithinHalf a.w q.w ∧ WithinHalf a.x q.x ∧ WithinHalf a.y q.y ∧ WithinHalf a.z q.z

theorem stored_fixed (x : ℝ) (scale : Int64) : Stored (fixed x scale) (x * scale.toInt) := by
  have hbounds : Int64.minValue.toInt ≤ Int64.maxValue.toInt := by decide
  have hint := toInt_saturate (nearestEven (x * (scale.toInt : ℝ)))
  unfold fixed
  refine ⟨?_, ?_, ?_⟩
  · intro hmin hmax
    have hlow := le_nearestEven hmin
    have hhigh := nearestEven_le hmax
    have hsame : (saturate (nearestEven (x * (scale.toInt : ℝ)))).toInt =
        nearestEven (x * (scale.toInt : ℝ)) := by
      omega
    rw [hsame]
    exact abs_nearestEven_sub_le _
  · intro hmin
    have hle := nearestEven_le hmin.le
    refine Int64.toInt_inj.mp ?_
    omega
  · intro hmax
    have hge := le_nearestEven hmax.le
    refine Int64.toInt_inj.mp ?_
    omega

/-- An integer that fits is stored as it is. -/
theorem Stored.eq_of_toInt {x y : Int64} (h : Stored x (y.toInt : ℝ)) : x = y := by
  have hmin : Int64.minValue.toInt ≤ y.toInt := Int64.le_toInt y
  have hmax : y.toInt ≤ Int64.maxValue.toInt := Int.le_sub_one_of_lt (Int64.toInt_lt y)
  have hhalf := abs_le.mp (h.1 (Int.cast_le.mpr hmin) (Int.cast_le.mpr hmax))
  have hlt : (x.toInt : ℝ) < (y.toInt + 1 : ℤ) := by
    push_cast
    linarith
  have hgt : (y.toInt : ℝ) < (x.toInt + 1 : ℤ) := by
    push_cast
    linarith
  exact Int64.toInt_inj.mp (le_antisymm (Int.lt_add_one_iff.mp (Int.cast_lt.mp hlt))
    (Int.lt_add_one_iff.mp (Int.cast_lt.mp hgt)))

theorem Quaternion.near_rounded (k : ℤ) (q : Quaternion ℝ) :
    (q.rounded k).Near (q.scale k) := by
  have hnear (c : ℝ) : WithinHalf (nearestEven (c * (k : ℝ))) (k * c) := by
    rw [mul_comm (k : ℝ)]
    exact abs_nearestEven_sub_le _
  exact ⟨hnear q.w, hnear q.x, hnear q.y, hnear q.z⟩

namespace CanonicalState

/-- Every stored coordinate is off by at most one half, or is the nearest bound. The
    stored attitude is off by at most one half in every component from a multiple of
    the observed one, which has norm one in fixed point. No component of it is larger
    than the scale, and its norm is off by at most one. -/
theorem canonicalize_near (raw : PhysicalObservation Exact64) (s : CanonicalState)
    (h : canonicalize raw = .ok s) :
    (∀ i, Stored (s.positionMm.get i) ((raw.positionM.get i).toReal * 1000)) ∧
      (∀ i, Stored (s.velocityMms.get i) ((raw.velocityMs.get i).toReal * 1000)) ∧
      (∃ c : ℝ, ((raw.attitude.map toReal).scale c).normSq = 1 ∧
        s.attitude.ints.Near (((raw.attitude.map toReal).scale c).scale (10 ^ 6))) ∧
      (∀ n ∈ s.attitude.ints.toList, |n| ≤ 10 ^ 6) ∧ s.attitude.InBand := by
  rcases (canonicalize_exact_iff raw s).mp h with ⟨obs, rfl, hlarge, rfl⟩
  have hpos := Quaternion.normSq_pos_of_large hlarge
  have hunit := Quaternion.normSq_unit hpos
  have hvector (v : Vector ℝ 3) {scale : Int64} (hscale : scale.toInt = 1000) (i : Fin 3) :
      Stored ((v.map (fixed · scale)).get i)
        (((v.map real : Vector Exact64 3).get i).toReal * 1000) := by
    have hstored := stored_fixed (v.get i) scale
    rw [hscale, Int.cast_ofNat] at hstored
    change Stored (v.map (fixed · scale))[(i : Nat)]
      ((v.map real : Vector Exact64 3)[(i : Nat)].toReal * 1000)
    rw [Vector.getElem_map, Vector.getElem_map]
    exact hstored
  refine ⟨hvector obs.positionM rfl, hvector obs.velocityMs rfl, ?_, ?_, inBand_canonical hlarge⟩
  · refine ⟨SignType.sign (leading obs.attitude.toList) / √obs.attitude.normSq, hunit, ?_⟩
    have hnear := Quaternion.near_rounded (10 ^ 6) obs.attitude.unit
    rw [← ints_canonical hpos, Int.cast_pow, Int.cast_ofNat] at hnear
    exact hnear
  -- The components of a unit quaternion lie between minus one and one.
  · rw [ints_canonical hpos, Quaternion.rounded, Quaternion.toList_map]
    intro n hn
    rcases List.mem_map.mp hn with ⟨c, hc, rfl⟩
    exact Quaternion.abs_rounded_le hunit (by norm_num) hc

theorem canonicalize_near_tilted :
    (∀ n ∈ (canonical (atAttitude tilted)).attitude.ints.toList, |n| ≤ 10 ^ 6) ∧
      (canonical (atAttitude tilted)).attitude.InBand :=
  (canonicalize_near _ _ canonicalize_tilted).2.2.2

end CanonicalState

end Error

/-- `f64` read as numbers whose results may overflow. -/
abbrev Overflow64 := Real64 .overflowing

section Collapse

namespace Quaternion

/-- No quaternion of a rotation. -/
def zero : Quaternion ℝ := ⟨0, 0, 0, 0⟩

theorem fits_zero : Fits .overflowing 0 := by
  rw [Fits, abs_zero]
  exact maxFinite_pos.le

theorem fits_one : Fits .overflowing 1 := by
  rw [Fits, abs_one]
  exact pow_le_maxFinite (Nat.zero_le _)

/-- Every component divided by infinity is zero. -/
theorem canonicalized_overflowing {q : Quaternion ℝ} (h : maxFinite < q.normSq) :
    (q.map real : Quaternion Overflow64).canonicalized = .ok (zero.map real) := by
  have hnorm : (q.map real : Quaternion Overflow64).norm = inf false := by
    rw [norm_map_real, result_of_lt h]
    rfl
  -- Infinity is not too small a norm.
  have hlarge : CanonicalF64.le (inf false : Overflow64) CanonicalF64.minPositive = false := by
    rw [minPositive_eq]
    exact decide_eq_false (not_le.mpr (EReal.coe_lt_top (2 ^ (-1022 : ℤ))))
  have hdiv : (q.map real : Quaternion Overflow64).map (· / inf false) = zero.map real := rfl
  have hsign : (zero.map real : Quaternion Overflow64).sign = real (-1) := by
    unfold sign zero map
    simp only [ofInt_eq, gt_real, Int.cast_zero, lt_irrefl, decide_false, Bool.false_eq_true,
      if_false, Int.cast_neg, Int.cast_one]
  have hmul : (zero.map real : Quaternion Overflow64).map (real (-1) * ·) = zero.map real := by
    unfold zero map
    simp only [mul_real, mul_zero, result_of_fits fits_zero]
  rw [canonicalized_of_finite (finite_map_real q), hnorm, hlarge, if_neg Bool.false_ne_true, hdiv,
    hsign, hmul]

/-- Nothing is left of it in fixed point. -/
theorem toCanonical_zero :
    (zero.map real : Quaternion Overflow64).toCanonical = ⟨0, 0, 0, 0⟩ := by
  have hzero : quantize (real 0 : Overflow64) Scale.quaternion = 0 := by
    rw [quantize_real, Seven.fixed, zero_mul, nearestEven_zero]
    · rfl
    · rw [zero_mul]
      exact fits_zero
  unfold toCanonical zero map
  simp only [hzero]

/-- What is stored of an attitude is lost exactly when its norm overflows. -/
theorem toCanonical_eq_zero_iff {q : Quaternion ℝ} {u : Quaternion Overflow64}
    (h : (q.map real : Quaternion Overflow64).canonicalized = .ok u) :
    u.toCanonical = ⟨0, 0, 0, 0⟩ ↔ maxFinite < q.normSq := by
  constructor
  · intro hzero
    by_contra hsmall
    have hfits : Fits .overflowing q.normSq := by
      rw [Fits, abs_of_nonneg q.normSq_nonneg]
      exact not_lt.mp hsmall
    have hscale : Fits .overflowing Scale.quaternion.toInt := by
      have hint : Scale.quaternion.toInt = 10 ^ 6 := rfl
      have hpow : (2 : ℝ) ^ 20 ≤ maxFinite := pow_le_maxFinite (by norm_num)
      rw [Fits, hint, Int.cast_pow, Int.cast_ofNat, abs_of_pos (by positivity)]
      exact le_trans (by norm_num) hpow
    rw [canonicalized_real hfits fits_one] at h
    by_cases hnorm : √q.normSq ≤ 2 ^ (-1022 : ℤ)
    · rw [if_pos hnorm] at h
      exact absurd h (by simp only [reduceCtorEq, not_false_eq_true])
    · -- Without overflow the stored norm is off by at most one.
      rw [if_neg hnorm, Except.ok.injEq] at h
      have hunit := normSq_unit (normSq_pos_of_large (not_le.mp hnorm))
      rw [← h, toCanonical_real hunit hscale] at hzero
      have hband := CanonicalQuaternion.inBand_fixed hunit
      rw [hzero] at hband
      exact absurd hband.1 (by decide)
  · intro hlarge
    rw [canonicalized_overflowing hlarge, Except.ok.injEq] at h
    rw [← h, toCanonical_zero]

end Quaternion

namespace CanonicalState

/-- The attitude of an accepted observation is not lost exactly when the square of
    its norm does not overflow. -/
theorem attitude_ne_zero_iff (raw : PhysicalObservation Overflow64) (s : CanonicalState)
    (h : canonicalize raw = .ok s) :
    s.attitude ≠ ⟨0, 0, 0, 0⟩ ↔ (raw.attitude.map toReal).normSq ≤ maxFinite := by
  rcases (canonicalize_eq_ok_iff raw s).mp h with ⟨_, _, u, hu, rfl⟩
  have hreal := Quaternion.eq_map_real (Quaternion.finite_of_canonicalized hu)
  rw [hreal] at hu
  rw [ne_eq, Quaternion.toCanonical_eq_zero_iff hu, not_lt]

theorem attitude_ne_zero_iff_tilted :
    ∃ s, canonicalize ((atAttitude tilted).map real : PhysicalObservation Overflow64) = .ok s ∧
      s.attitude ≠ ⟨0, 0, 0, 0⟩ := by
  have hpow : (2 : ℝ) ^ 5 ≤ maxFinite := pow_le_maxFinite (by norm_num)
  have hsmall : tilted.normSq ≤ maxFinite := by
    rw [normSq_tilted]
    exact le_trans (by norm_num) hpow
  have hfits : Fits .overflowing tilted.normSq := by
    rwa [Fits, abs_of_nonneg tilted.normSq_nonneg]
  have haccepted := Quaternion.canonicalized_real hfits Quaternion.fits_one
  rw [if_neg (not_le.mpr large_tilted)] at haccepted
  rcases exists_canonicalize (atAttitude tilted) haccepted with ⟨s, hs, _⟩
  exact ⟨s, hs, (attitude_ne_zero_iff _ s hs).mpr hsmall⟩

/-- A finite attitude with an infinite norm. -/
def huge : Quaternion ℝ := ⟨((2 ^ 600 : ℤ) : ℝ), 0, 0, 0⟩

theorem maxFinite_lt_normSq_huge : maxFinite < huge.normSq := by
  have hsq : huge.normSq = 2 ^ 600 * 2 ^ 600 := by
    unfold huge Quaternion.normSq
    rw [Int.cast_pow, Int.cast_ofNat, mul_zero, add_zero, add_zero, add_zero]
  have hpow : (2 : ℝ) ^ 1024 ≤ 2 ^ (600 + 600) := pow_le_pow_right₀ one_le_two (by norm_num)
  rw [hsq, ← pow_add]
  exact lt_of_lt_of_le maxFinite_lt_pow hpow

/-- Every number of the observation is a finite `f64`. -/
def Representable (raw : PhysicalObservation Overflow64) : Prop :=
  (∀ i, |(raw.positionM.get i).toReal| ≤ maxFinite) ∧
    (∀ i, |(raw.velocityMs.get i).toReal| ≤ maxFinite) ∧
    ∀ v ∈ raw.attitude.toList, |v.toReal| ≤ maxFinite

theorem representable_huge : Representable ((atAttitude huge).map real) := by
  have hrest (i : Fin 3) : |(((#v[0, 0, 0] : Vector ℝ 3).map real :
      Vector Overflow64 3).get i).toReal| ≤ maxFinite := by
    change |((#v[0, 0, 0] : Vector ℝ 3).map real : Vector Overflow64 3)[(i : Nat)].toReal| ≤ _
    rw [Vector.getElem_map]
    fin_cases i <;> exact Quaternion.fits_zero
  have hattitude : ∀ c ∈ huge.toList, |c| ≤ maxFinite := by
    simp only [huge, Quaternion.toList, List.forall_mem_cons, List.not_mem_nil, false_imp_iff,
      implies_true, and_true, abs_zero, maxFinite_pos.le]
    rw [Int.cast_pow, Int.cast_ofNat, abs_of_pos (pow_pos two_pos 600)]
    exact pow_le_maxFinite (by norm_num)
  refine ⟨hrest, hrest, ?_⟩
  intro v hv
  change v ∈ huge.toList.map real at hv
  rcases List.mem_map.mp hv with ⟨c, hc, rfl⟩
  exact hattitude c hc

/-- An observation of finite numbers whose attitude is lost. -/
theorem not_attitude_ne_zero :
    ¬ ∀ (raw : PhysicalObservation Overflow64) (s : CanonicalState),
      Representable raw → canonicalize raw = .ok s → s.attitude ≠ ⟨0, 0, 0, 0⟩ := by
  intro h
  rcases exists_canonicalize (atAttitude huge)
    (Quaternion.canonicalized_overflowing maxFinite_lt_normSq_huge) with ⟨s, hs, hzero⟩
  exact h _ s representable_huge hs (hzero.trans Quaternion.toCanonical_zero)

end CanonicalState

end Collapse

end Seven
