import Seven.Core.Reals
import Seven.Core.Rotation

/-!
# Canonicalization on Exact Numbers

What canonicalization does when `f64` is read as the reals with the special values
and only `quantize` rounds. Exactly the observations of reals whose attitude is long
enough are accepted, and `canonical` is what they become
(`canonicalize_exact_iff`): fixed point of the position, of the velocity and of the
representative of the rotation.

## Main definitions

* `fixed`, `canonical`: What reals become.
* `ints`, `InBand`, `InHemisphere`: The stored attitude.

## Theorems

* `canonicalized_real`: What an attitude of reals is canonicalized to.
* `canonicalized_eq_iff`: Which attitudes become one.
* `inBand_fixed`: The norm of a stored attitude.
* `canonicalize_exact_iff`: What is accepted and what it becomes.
-/

namespace Seven

open Rounding Real64

/-- `f64` read as exact numbers. -/
abbrev Exact64 := Real64 .exact

/-- A number in fixed point. What does not fit saturates. -/
noncomputable def fixed (x : ℝ) (scale : Int64) : Int64 :=
  saturate (nearestEven (x * (scale.toInt : ℝ)))

section Numbers

variable {r : Reading}

theorem quantize_real {x : ℝ} {scale : Int64} (h : Fits r (x * scale.toInt)) :
    quantize (real x : Real64 r) scale = fixed x scale := by
  unfold quantize fixed
  rw [ofInt_eq, mul_real, result_of_fits h, roundTiesEven_real, toI64_ofInt]

theorem dequantize_eq (x : Int64) {scale : Int64} (h : scale.toInt ≠ 0) :
    dequantize Exact64 x scale = real (x.toInt / scale.toInt) := by
  unfold dequantize
  rw [ofInt_eq, ofInt_eq, div_real _ (Int.cast_ne_zero.mpr h), result_exact]

/-- A quantized number is quantized to itself. -/
theorem fixed_div (x : Int64) {scale : Int64} (h : scale.toInt ≠ 0) :
    fixed (x.toInt / scale.toInt) scale = x := by
  unfold fixed
  rw [div_mul_cancel₀ _ (Int.cast_ne_zero.mpr h), nearestEven_intCast, saturate_toInt]

theorem quantize_dequantize (x : Int64) {scale : Int64} (h : scale.toInt ≠ 0) :
    quantize (dequantize Exact64 x scale) scale = x := by
  rw [dequantize_eq x h, quantize_real (fits_exact _), fixed_div x h]

theorem finite64_real (x : ℝ) : Finite64 (real x : Real64 r) := ⟨rfl, rfl⟩

theorem Finite64.eq_real {v : Real64 r} (h : Finite64 v) : v = real v.toReal :=
  eq_real_of_finite h.1 h.2

end Numbers

namespace Quaternion

section Canonicalized

variable {r : Reading}

theorem finite_map_real (q : Quaternion ℝ) :
    ∀ v ∈ (q.map real : Quaternion (Real64 r)).toList, Finite64 v := by
  intro v hv
  rw [toList_map, List.mem_map] at hv
  rcases hv with ⟨x, _, rfl⟩
  exact finite64_real x

theorem eq_map_real {q : Quaternion (Real64 r)} (h : ∀ v ∈ q.toList, Finite64 v) :
    q = (q.map toReal).map real := by
  have hsame : q.map id = q.map (real ∘ toReal) := map_congr fun v hv => (h v hv).eq_real
  exact hsame

/-- The norm overflows where its square does. -/
theorem norm_map_real (q : Quaternion ℝ) :
    (q.map real : Quaternion (Real64 r)).norm = F64.sqrt (result r q.normSq) := by
  have hw := mul_self_nonneg q.w
  have hx := mul_self_nonneg q.x
  have hy := mul_self_nonneg q.y
  have hz := mul_self_nonneg q.z
  unfold norm map
  simp only [mul_real]
  rw [result_add_result hw hx, result_add_result (add_nonneg hw hx) hy,
    result_add_result (add_nonneg (add_nonneg hw hx) hy) hz]
  rfl

theorem norm_real {q : Quaternion ℝ} (h : Fits r q.normSq) :
    (q.map real : Quaternion (Real64 r)).norm = real √q.normSq := by
  rw [norm_map_real, result_of_fits h, sqrt_real q.normSq_nonneg]

/-- One component in the choice of the sign: zero leaves it to the next ones. -/
theorem sign_step (x : ℝ) (xs : List ℝ) (rest : Real64 r)
    (hrest : leading xs ≠ 0 → rest = real (SignType.sign (leading xs)))
    (hne : leading (x :: xs) ≠ 0) :
    (if F64.gt (real x) (F64.ofInt 0 : Real64 r) then F64.ofInt 1
      else if F64.gt (F64.ofInt 0 : Real64 r) (real x) then F64.ofInt (-1) else rest) =
      real (SignType.sign (leading (x :: xs))) := by
  simp only [ofInt_eq, gt_real, Int.cast_zero, Int.cast_one, Int.cast_neg, decide_eq_true_iff]
  rw [leading] at hne ⊢
  rcases lt_trichotomy x 0 with hlt | rfl | hgt
  · rw [if_neg hlt.asymm, if_pos hlt, if_neg hlt.ne, sign_neg hlt, SignType.coe_neg_one]
  · rw [if_pos rfl] at hne
    rw [if_neg (lt_irrefl _), if_neg (lt_irrefl _), if_pos rfl]
    exact hrest hne
  · rw [if_pos hgt, if_neg hgt.ne', sign_pos hgt, SignType.coe_one]

/-- The sign is that of the first nonzero component. -/
theorem sign_real {q : Quaternion ℝ} (hq : leading q.toList ≠ 0) :
    (q.map real : Quaternion (Real64 r)).sign = real (SignType.sign (leading q.toList)) := by
  -- The last component is not asked whether it is negative.
  have hlast : leading [q.z] ≠ 0 →
      (if F64.gt (real q.z) (F64.ofInt 0 : Exact64) then F64.ofInt 1 else F64.ofInt (-1)) =
        (real (SignType.sign (leading [q.z])) : Real64 r) := by
    intro hz
    have h := sign_step (r := r) q.z [] (F64.ofInt (-1)) (fun h => absurd rfl h) hz
    rwa [ite_self] at h
  exact sign_step q.w _ _ (sign_step q.x _ _ (sign_step q.y _ _ hlast)) hq

/-- No component is larger than the norm. -/
theorem abs_le_one {u : Quaternion ℝ} (hu : u.normSq = 1) {c : ℝ} (hc : c ∈ u.toList) :
    |c| ≤ 1 := by
  rw [← sq_le_one_iff_abs_le_one, ← hu]
  exact sq_le_normSq u hc

/-- A multiple of a quaternion of norm one that does not overflow. -/
theorem scale_map_real_of_unit {u : Quaternion ℝ} (hu : u.normSq = 1) {a : ℝ} (ha : Fits r a) :
    (u.map real : Quaternion (Real64 r)).scale (real a) = (u.scale a).map real := by
  have hsame : u.map ((real a * ·) ∘ real : ℝ → Real64 r) = u.map (real ∘ (a * ·)) := by
    refine map_congr fun c hc => ?_
    have hle : |a * c| ≤ |a| := by
      rw [abs_mul]
      exact mul_le_of_le_one_right (abs_nonneg a) (abs_le_one hu hc)
    simp only [Function.comp_apply, mul_real, result_of_fits (fits_of_abs_le ha hle)]
  exact hsame

/-- What an attitude of reals is canonicalized to, when the square of its norm does
    not overflow. -/
theorem canonicalized_real {q : Quaternion ℝ} (hfits : Fits r q.normSq) (hone : Fits r 1) :
    (q.map real : Quaternion (Real64 r)).canonicalized =
      if √q.normSq ≤ 2 ^ (-1022 : ℤ) then .error .zeroNormQuaternion
      else .ok (q.unit.map real) := by
  rw [canonicalized_of_finite (finite_map_real q), norm_real hfits, minPositive_eq, le_real]
  simp only [decide_eq_true_iff]
  by_cases hsmall : √q.normSq ≤ 2 ^ (-1022 : ℤ)
  · rw [if_pos hsmall, if_pos hsmall]
  · rw [if_neg hsmall, if_neg hsmall]
    have hroot : 0 < √q.normSq := lt_trans (by positivity) (not_le.mp hsmall)
    have hpos : 0 < q.normSq := Real.sqrt_pos.mp hroot
    have hscale : 1 / √q.normSq ≠ 0 := one_div_ne_zero hroot.ne'
    have hunit : (q.scale (1 / √q.normSq)).normSq = 1 := by
      rw [normSq_scale, div_pow, one_pow, Real.sq_sqrt hpos.le, one_div_mul_cancel hpos.ne']
    -- The normalized components are a positive multiple, with the same sign.
    have hdiv : (q.map real : Quaternion (Real64 r)).map (· / real √q.normSq) =
        (q.scale (1 / √q.normSq)).map real := by
      have hsame : q.map ((· / real √q.normSq) ∘ real : ℝ → Real64 r) =
          q.map (real ∘ (1 / √q.normSq * ·)) := by
        refine map_congr fun c hc => ?_
        have hle : |1 / √q.normSq * c| ≤ |1| := by
          rw [abs_one]
          exact abs_le_one hunit (List.mem_map_of_mem hc)
        rw [Function.comp_apply, Function.comp_apply, div_real c hroot.ne', ← one_div_mul_eq_div,
          result_of_fits (fits_of_abs_le hone hle)]
      exact hsame
    have hlead : leading (q.scale (1 / √q.normSq)).toList = 1 / √q.normSq * leading q.toList :=
      leading_scale q hscale
    have hne : leading (q.scale (1 / √q.normSq)).toList ≠ 0 := by
      rw [hlead]
      exact mul_ne_zero hscale (leading_ne_zero hpos)
    have hsign : Fits r (SignType.sign (leading q.toList) : ℝ) := by
      refine fits_of_abs_le hone ?_
      rcases SignType.sign (leading q.toList) with _ | _ | _ <;> norm_num
    rw [hdiv, sign_real hne, hlead, sign_mul, sign_pos (one_div_pos.mpr hroot), one_mul, ← scale,
      scale_map_real_of_unit hunit hsign, scale_scale, mul_one_div, unit]

end Canonicalized

/-- What is accepted and what it becomes. -/
theorem canonicalized_exact_iff (q u : Quaternion Exact64) :
    q.canonicalized = .ok u ↔
      ∃ q' : Quaternion ℝ, q = q'.map real ∧ 2 ^ (-1022 : ℤ) < √q'.normSq ∧
        u = q'.unit.map real := by
  constructor
  · intro h
    have hq := eq_map_real (finite_of_canonicalized h)
    rw [hq, canonicalized_real (fits_exact _) (fits_exact _)] at h
    by_cases hsmall : √(q.map toReal).normSq ≤ 2 ^ (-1022 : ℤ)
    · rw [if_pos hsmall] at h
      exact absurd h (by simp only [reduceCtorEq, not_false_eq_true])
    · rw [if_neg hsmall, Except.ok.injEq] at h
      exact ⟨_, hq, not_le.mp hsmall, h.symm⟩
  · intro h
    rcases h with ⟨q', rfl, hlarge, rfl⟩
    rw [canonicalized_real (fits_exact _) (fits_exact _), if_neg (not_le.mpr hlarge)]

/-- What is normalized has a norm. -/
theorem normSq_pos_of_large {q : Quaternion ℝ} (h : 2 ^ (-1022 : ℤ) < √q.normSq) :
    0 < q.normSq :=
  Real.sqrt_pos.mp (lt_trans (by positivity) h)

theorem large_of_quarter_lt {q : Quaternion ℝ} (h : 1 / 4 < q.normSq) :
    2 ^ (-1022 : ℤ) < √q.normSq := by
  have hsmall : (2 : ℝ) ^ (-1022 : ℤ) ≤ 2 ^ (-1 : ℤ) :=
    zpow_le_zpow_right₀ one_le_two (by norm_num)
  refine Real.lt_sqrt_of_sq_lt ?_
  calc ((2 : ℝ) ^ (-1022 : ℤ)) ^ 2 ≤ (2 ^ (-1 : ℤ)) ^ 2 :=
        pow_le_pow_left₀ (by positivity) hsmall 2
    _ = 1 / 4 := by norm_num
    _ < q.normSq := h

theorem map_real_inj {r : Reading} {p p' : Quaternion ℝ} :
    (p.map real : Quaternion (Real64 r)) = p'.map real ↔ p = p' := by
  rcases p with ⟨w, x, y, z⟩
  rcases p' with ⟨w', x', y', z'⟩
  simp only [map, mk.injEq, Real64.real.injEq]

/-- Canonicalization keeps rotations apart, and nothing else: two attitudes become one
    exactly when they are nonzero multiples of each other. -/
theorem canonicalized_eq_iff {q q' u u' : Quaternion Exact64} (h : q.canonicalized = .ok u)
    (h' : q'.canonicalized = .ok u') :
    u = u' ↔ ∃ p : Quaternion ℝ, q = p.map real ∧ ∃ c, c ≠ 0 ∧ q' = (p.scale c).map real := by
  rcases (canonicalized_exact_iff q u).mp h with ⟨p, rfl, hlarge, rfl⟩
  rcases (canonicalized_exact_iff q' u').mp h' with ⟨p', rfl, hlarge', rfl⟩
  rw [map_real_inj, unit_eq_iff (normSq_pos_of_large hlarge) (normSq_pos_of_large hlarge')]
  constructor
  · intro h
    rcases h with ⟨c, hc, rfl⟩
    exact ⟨p, rfl, c, hc, rfl⟩
  · intro h
    rcases h with ⟨p₀, hp, c, hc, hp'⟩
    rw [← map_real_inj.mp hp] at hp'
    exact ⟨c, hc, map_real_inj.mp hp'⟩

/-- The components in fixed point. -/
noncomputable def fixed (u : Quaternion ℝ) : CanonicalQuaternion :=
  { w := Seven.fixed u.w Scale.quaternion
    x := Seven.fixed u.x Scale.quaternion
    y := Seven.fixed u.y Scale.quaternion
    z := Seven.fixed u.z Scale.quaternion }

/-- At norm one nothing overflows while it is quantized. -/
theorem toCanonical_real {r : Reading} {u : Quaternion ℝ} (hu : u.normSq = 1)
    (hscale : Fits r Scale.quaternion.toInt) :
    (u.map real : Quaternion (Real64 r)).toCanonical = u.fixed := by
  have hfits : ∀ c ∈ u.toList, Fits r (c * Scale.quaternion.toInt) := by
    intro c hc
    refine fits_of_abs_le hscale ?_
    rw [abs_mul]
    exact mul_le_of_le_one_left (abs_nonneg _) (abs_le_one hu hc)
  simp only [toList, List.forall_mem_cons] at hfits
  rcases hfits with ⟨hw, hx, hy, hz, _⟩
  unfold toCanonical map fixed
  rw [quantize_real hw, quantize_real hx, quantize_real hy, quantize_real hz]

end Quaternion

namespace CanonicalQuaternion

/-- The stored components as integers. -/
def ints (q : CanonicalQuaternion) : Quaternion Int :=
  ⟨q.w.toInt, q.x.toInt, q.y.toInt, q.z.toInt⟩

/-- The norm is off by at most one. -/
def InBand (q : CanonicalQuaternion) : Prop :=
  (10 ^ 6 - 1) ^ 2 ≤ q.ints.normSq ∧ q.ints.normSq ≤ (10 ^ 6 + 1) ^ 2

/-- The first nonzero component is positive. -/
def InHemisphere (q : CanonicalQuaternion) : Prop :=
  0 < leading q.ints.toList

/-- At norm one nothing saturates. -/
theorem ints_fixed {u : Quaternion ℝ} (hu : u.normSq = 1) :
    u.fixed.ints = u.rounded (10 ^ 6) := by
  have hscale : (Scale.quaternion.toInt : ℤ) = 10 ^ 6 := rfl
  have hfits : ∀ c ∈ u.toList, (Seven.fixed c Scale.quaternion).toInt =
      nearestEven (c * ((10 ^ 6 : ℤ) : ℝ)) := by
    intro c hc
    unfold Seven.fixed
    rw [hscale]
    refine toInt_saturate_of_abs_le (x := Scale.quaternion) ?_
    rw [hscale]
    exact Quaternion.abs_rounded_le hu (by norm_num) hc
  simp only [Quaternion.toList, List.forall_mem_cons] at hfits
  rcases hfits with ⟨hw, hx, hy, hz, _⟩
  unfold ints Quaternion.fixed Quaternion.rounded Quaternion.map
  simp only [hw, hx, hy, hz]

theorem inBand_fixed {u : Quaternion ℝ} (hu : u.normSq = 1) : u.fixed.InBand := by
  unfold InBand
  rw [ints_fixed hu]
  exact Quaternion.normSq_rounded_mem hu (by norm_num)

end CanonicalQuaternion

/-- The same function on every number of an observation. -/
def PhysicalObservation.map {F G : Type} (f : F → G) (obs : PhysicalObservation F) :
    PhysicalObservation G :=
  { positionM := obs.positionM.map f
    velocityMs := obs.velocityMs.map f
    attitude := obs.attitude.map f
    observedAtNanos := obs.observedAtNanos }

theorem vector_eq_map_real {v : Vector Exact64 3} (h : ∀ i, Finite64 (v.get i)) :
    v = (v.map toReal).map real := by
  ext i hi
  rw [Vector.getElem_map, Vector.getElem_map]
  exact (h ⟨i, hi⟩).eq_real

theorem map_toReal_map_real (obs : PhysicalObservation ℝ) :
    (obs.map real : PhysicalObservation Exact64).map toReal = obs := by
  have hvector (v : Vector ℝ 3) : (v.map real : Vector Exact64 3).map toReal = v := by
    rw [Vector.map_map]
    exact Vector.map_id v
  unfold PhysicalObservation.map
  rw [hvector, hvector]
  rfl

theorem finite_vector_map_real {r : Reading} (v : Vector ℝ 3) (i : Fin 3) :
    Finite64 ((v.map real : Vector (Real64 r) 3).get i) := by
  change Finite64 (v.map real : Vector (Real64 r) 3)[(i : Nat)]
  rw [Vector.getElem_map]
  exact finite64_real _

namespace CanonicalState

/-- An observation of reals is accepted when its attitude is. -/
theorem exists_canonicalize {r : Reading} (obs : PhysicalObservation ℝ)
    {u : Quaternion (Real64 r)} (h : (obs.attitude.map real).canonicalized = .ok u) :
    ∃ s, canonicalize (obs.map real : PhysicalObservation (Real64 r)) = .ok s ∧
      s.attitude = u.toCanonical :=
  ⟨_, (canonicalize_eq_ok_iff _ _).mpr
    ⟨finite_vector_map_real _, finite_vector_map_real _, u, h, rfl⟩, rfl⟩

/-- What an observation of reals becomes. -/
noncomputable def canonical (obs : PhysicalObservation ℝ) : CanonicalState :=
  { positionMm := obs.positionM.map (fixed · Scale.position)
    velocityMms := obs.velocityMs.map (fixed · Scale.velocity)
    attitude := obs.attitude.unit.fixed
    observedAtNanos := obs.observedAtNanos }

/-- Exactly the observations of reals with a large enough attitude are accepted. -/
theorem canonicalize_exact_iff (raw : PhysicalObservation Exact64) (s : CanonicalState) :
    canonicalize raw = .ok s ↔
      ∃ obs : PhysicalObservation ℝ, raw = obs.map real ∧
        2 ^ (-1022 : ℤ) < √obs.attitude.normSq ∧ s = canonical obs := by
  have hfixed (v : Vector ℝ 3) (scale : Int64) :
      ((v.map real : Vector Exact64 3).map (quantize · scale)) = v.map (fixed · scale) := by
    rw [Vector.map_map]
    exact congrArg (Vector.map · v) (funext fun x => quantize_real (fits_exact _))
  rw [canonicalize_eq_ok_iff]
  constructor
  -- What passes the checks is finite throughout, so it is an observation of reals.
  · intro h
    rcases h with ⟨hp, hv, u, hu, rfl⟩
    rcases (Quaternion.canonicalized_exact_iff _ _).mp hu with ⟨q, hq, hlarge, rfl⟩
    refine ⟨⟨raw.positionM.map toReal, raw.velocityMs.map toReal, q, raw.observedAtNanos⟩, ?_,
      hlarge, ?_⟩
    · unfold PhysicalObservation.map
      rw [← vector_eq_map_real hp, ← vector_eq_map_real hv, ← hq]
    · unfold canonical
      rw [← hfixed, ← hfixed, ← vector_eq_map_real hp, ← vector_eq_map_real hv,
        Quaternion.toCanonical_real (Quaternion.normSq_unit (Quaternion.normSq_pos_of_large hlarge))
          (fits_exact _)]
  · intro h
    rcases h with ⟨obs, rfl, hlarge, rfl⟩
    refine ⟨finite_vector_map_real _, finite_vector_map_real _, obs.attitude.unit.map real,
      (Quaternion.canonicalized_exact_iff _ _).mpr ⟨_, rfl, hlarge, rfl⟩, ?_⟩
    unfold canonical PhysicalObservation.map
    rw [hfixed, hfixed,
      Quaternion.toCanonical_real (Quaternion.normSq_unit (Quaternion.normSq_pos_of_large hlarge))
        (fits_exact _)]

theorem ints_canonical {obs : PhysicalObservation ℝ} (h : 0 < obs.attitude.normSq) :
    (canonical obs).attitude.ints = obs.attitude.unit.rounded (10 ^ 6) :=
  CanonicalQuaternion.ints_fixed (Quaternion.normSq_unit h)

/-- An observation of reals is accepted when its attitude is large enough. -/
theorem canonicalize_map_real_iff (obs : PhysicalObservation ℝ) (s : CanonicalState) :
    canonicalize (obs.map real : PhysicalObservation Exact64) = .ok s ↔
      2 ^ (-1022 : ℤ) < √obs.attitude.normSq ∧ s = canonical obs := by
  rw [canonicalize_exact_iff]
  constructor
  · intro h
    rcases h with ⟨obs', hobs, hs⟩
    have hsame := congrArg (PhysicalObservation.map toReal) hobs
    rw [map_toReal_map_real, map_toReal_map_real] at hsame
    rw [hsame]
    exact hs
  · intro h
    exact ⟨obs, rfl, h⟩

end CanonicalState

end Seven
