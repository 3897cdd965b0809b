import Mathlib.Data.Sign.Basic
import Seven.Core.Canonicalize
import Seven.Library.Rounding

/-!
# Rotations

A quaternion and its nonzero multiples are one rotation. Among them `unit` picks the
one of norm one whose first nonzero component is positive, and this is what
canonicalization aims at: it does not depend on the multiple (`unit_scale`), and it
tells rotations apart (`unit_eq_iff`).

What is stored is `rounded`. Rounding moves the norm by at most one
(`normSq_rounded_mem`), but it forgets small components, and where the first nonzero
one is among them the sign of what is stored is another's (`leading_rounded_unit_pos_iff`).

## Main definitions

* `normSq`, `scale`: The norm and the multiples of a quaternion.
* `unit`: The representative of a rotation.
* `rounded`: A quaternion in fixed point.
* `SignSurvives`: The sign outlives rounding.
* `Close`: Off by at most one in every component.

## Theorems

* `unit_eq_iff`: Representatives are the same for the same rotation only.
* `normSq_rounded_mem`: The norm of what is stored.
* `leading_rounded_unit_pos_iff`: The sign of what is stored.
* `close_rounded_unit`: Storing what is stored.
-/

namespace Seven

open Rounding

namespace Quaternion

/-- The square of the Euclidean norm. -/
def normSq {K : Type} [Add K] [Mul K] (q : Quaternion K) : K :=
  q.w * q.w + q.x * q.x + q.y * q.y + q.z * q.z

/-- A multiple of a quaternion. -/
def scale {K : Type} [Mul K] (c : K) (q : Quaternion K) : Quaternion K :=
  q.map (c * ·)

/-- The multiple of norm one whose first nonzero component is positive. -/
noncomputable def unit (q : Quaternion ℝ) : Quaternion ℝ :=
  q.scale (SignType.sign (leading q.toList) / √q.normSq)

/-- The components in fixed point. -/
noncomputable def rounded (k : ℤ) (q : Quaternion ℝ) : Quaternion ℤ :=
  q.map fun c : ℝ => nearestEven (c * (k : ℝ))

@[simp] theorem toList_map {F G : Type} (f : F → G) (q : Quaternion F) :
    (q.map f).toList = q.toList.map f := rfl

@[simp] theorem map_map {F G H : Type} (f : G → H) (g : F → G) (q : Quaternion F) :
    (q.map g).map f = q.map (f ∘ g) := rfl

theorem map_congr {F G : Type} {f g : F → G} {q : Quaternion F} (h : ∀ c ∈ q.toList, f c = g c) :
    q.map f = q.map g := by
  simp only [toList, List.forall_mem_cons] at h
  rcases h with ⟨hw, hx, hy, hz, _⟩
  unfold map
  rw [hw, hx, hy, hz]

section Norm

variable (q : Quaternion ℝ)

/-- A component is no longer than the whole. -/
theorem sq_le_normSq {c : ℝ} (hc : c ∈ q.toList) : c ^ 2 ≤ q.normSq := by
  have hw := mul_self_nonneg q.w
  have hx := mul_self_nonneg q.x
  have hy := mul_self_nonneg q.y
  have hz := mul_self_nonneg q.z
  unfold normSq
  simp only [toList, List.mem_cons, List.not_mem_nil, or_false] at hc
  rcases hc with rfl | rfl | rfl | rfl <;> rw [pow_two] <;> linarith

theorem normSq_nonneg : 0 ≤ q.normSq :=
  (sq_nonneg q.w).trans (sq_le_normSq q List.mem_cons_self)

theorem normSq_scale (c : ℝ) : (q.scale c).normSq = c ^ 2 * q.normSq := by
  unfold scale map normSq
  ring

theorem scale_scale (b c : ℝ) : (q.scale c).scale b = q.scale (b * c) := by
  unfold scale map
  simp only [mul_assoc]

theorem scale_one : q.scale 1 = q := by
  unfold scale map
  simp only [one_mul]

theorem leading_scale {c : ℝ} (hc : c ≠ 0) :
    leading (q.scale c).toList = c * leading q.toList := by
  refine leading_map_of_iff (c * ·) ?_ q.toList
  intro x
  rw [mul_eq_zero, or_iff_right hc]

variable {q}

theorem leading_ne_zero (hq : 0 < q.normSq) : leading q.toList ≠ 0 := by
  intro hzero
  rw [leading_eq_zero_iff] at hzero
  simp only [toList, List.forall_mem_cons] at hzero
  rcases hzero with ⟨hw, hx, hy, hz, _⟩
  unfold normSq at hq
  rw [hw, hx, hy, hz] at hq
  linarith

/-- The factor that `unit` scales with. -/
theorem unit_factor_ne_zero (hq : 0 < q.normSq) :
    (SignType.sign (leading q.toList) : ℝ) / √q.normSq ≠ 0 := by
  refine div_ne_zero ?_ (Real.sqrt_pos.mpr hq).ne'
  intro hzero
  have hlead := leading_ne_zero hq
  rw [← sign_mul_abs (leading q.toList), hzero, zero_mul] at hlead
  exact hlead rfl

/-- The factor turns the sign of a component the way the first nonzero one says. -/
theorem unit_factor_mul_pos_iff (hq : 0 < q.normSq) (c : ℝ) :
    0 < SignType.sign (leading q.toList) / √q.normSq * c ↔ 0 < leading q.toList * c := by
  have hroot := Real.sqrt_pos.mpr hq
  have hpos : 0 < |leading q.toList| * √q.normSq :=
    mul_pos (abs_pos.mpr (leading_ne_zero hq)) hroot
  have hfactor : leading q.toList * c =
      SignType.sign (leading q.toList) / √q.normSq * c * (|leading q.toList| * √q.normSq) := by
    calc leading q.toList * c
        = SignType.sign (leading q.toList) * |leading q.toList| * c := by rw [sign_mul_abs]
      _ = SignType.sign (leading q.toList) / √q.normSq * √q.normSq * |leading q.toList| * c := by
        rw [div_mul_cancel₀ _ hroot.ne']
      _ = SignType.sign (leading q.toList) / √q.normSq * c *
          (|leading q.toList| * √q.normSq) := by ring
  rw [hfactor, mul_pos_iff_of_pos_right hpos]

/-- The representative does not depend on the multiple. -/
theorem unit_scale {c : ℝ} (hc : c ≠ 0) : (q.scale c).unit = q.unit := by
  have habs : |c| ≠ 0 := abs_ne_zero.mpr hc
  have hsign : (SignType.sign c : ℝ) * c = |c| := sign_mul_self c
  unfold unit
  rw [leading_scale q hc, normSq_scale, scale_scale, sign_mul, SignType.coe_mul,
    Real.sqrt_mul (sq_nonneg c), Real.sqrt_sq_eq_abs]
  congr 1
  calc (SignType.sign c : ℝ) * SignType.sign (leading q.toList) / (|c| * √q.normSq) * c
      = (SignType.sign c * c) / |c| * (SignType.sign (leading q.toList) / √q.normSq) := by
        rw [div_mul_div_comm]
        ring
    _ = SignType.sign (leading q.toList) / √q.normSq := by
        rw [hsign, div_self habs, one_mul]

theorem normSq_unit (hq : 0 < q.normSq) : q.unit.normSq = 1 := by
  have hsign : (SignType.sign (leading q.toList) : ℝ) ^ 2 = 1 := by
    rcases (leading_ne_zero hq).lt_or_gt with hlt | hgt
    · rw [sign_neg hlt, SignType.coe_neg_one, neg_one_sq]
    · rw [sign_pos hgt, SignType.coe_one, one_pow]
  rw [unit, normSq_scale, div_pow, Real.sq_sqrt hq.le, hsign, one_div_mul_cancel hq.ne']

/-- Representatives are the same for multiples of one quaternion only. -/
theorem unit_eq_iff {q' : Quaternion ℝ} (hq : 0 < q.normSq) (hq' : 0 < q'.normSq) :
    q.unit = q'.unit ↔ ∃ c : ℝ, c ≠ 0 ∧ q' = q.scale c := by
  constructor
  · intro h
    have hfactor' := unit_factor_ne_zero hq'
    refine ⟨_, mul_ne_zero (inv_ne_zero hfactor') (unit_factor_ne_zero hq), ?_⟩
    rw [← scale_scale, ← unit, h, unit, scale_scale, inv_mul_cancel₀ hfactor', scale_one]
  · intro h
    rcases h with ⟨c, hc, rfl⟩
    exact (unit_scale hc).symm

end Norm

section Rounded

/-- The first component that is not rounded to zero has the sign of the first one
    that is not zero. -/
noncomputable def SignSurvives (k : ℤ) (q : Quaternion ℝ) : Prop :=
  0 < leading q.toList * leading (q.toList.filter fun c => q.normSq < 4 * (k : ℝ) ^ 2 * c ^ 2)

variable {q : Quaternion ℝ} {k : ℤ}

/-- The components that are not rounded to zero. -/
theorem half_lt_abs_unit_iff (hq : 0 < q.normSq) (c : ℝ) :
    1 / 2 < |SignType.sign (leading q.toList) / √q.normSq * c * k| ↔
      q.normSq < 4 * (k : ℝ) ^ 2 * c ^ 2 := by
  have hfactor : ((SignType.sign (leading q.toList) : ℝ) / √q.normSq) ^ 2 = 1 / q.normSq := by
    have hunit := normSq_unit hq
    rw [unit, normSq_scale] at hunit
    rw [eq_div_iff hq.ne', hunit]
  have hhalf : |(1 / 2 : ℝ)| = 1 / 2 := abs_of_pos one_half_pos
  rw [← hhalf, ← sq_lt_sq, mul_pow, mul_pow, hfactor, one_div_mul_eq_div, div_mul_eq_mul_div,
    lt_div_iff₀ hq]
  constructor <;> intro h <;> linarith

theorem normSq_map_cast (a : Quaternion ℤ) :
    (a.map fun n : ℤ => (n : ℝ)).normSq = (a.normSq : ℝ) := by
  unfold normSq map
  push_cast
  rfl

theorem leading_map_cast (a : Quaternion ℤ) :
    leading (a.map fun n : ℤ => (n : ℝ)).toList = ((leading a.toList : ℤ) : ℝ) :=
  leading_map_of_iff (fun n : ℤ => (n : ℝ)) (fun _ => Int.cast_eq_zero) a.toList

/-- What is stored has a positive first nonzero component exactly when the sign
    survives. -/
theorem leading_rounded_unit_pos_iff (hk : 0 < k) (hq : 0 < q.normSq) :
    0 < leading (q.unit.rounded k).toList ↔ q.SignSurvives k := by
  let a : ℝ := SignType.sign (leading q.toList) / √q.normSq
  have hzero : nearestEven (a * 0 * (k : ℝ)) = 0 := by
    rw [mul_zero, zero_mul, nearestEven_zero]
  -- A component is kept when it is more than half a unit in fixed point.
  have hkept : (q.toList.filter fun c => nearestEven (a * c * (k : ℝ)) ≠ 0) =
      q.toList.filter fun c => q.normSq < 4 * (k : ℝ) ^ 2 * c ^ 2 := by
    refine List.filter_congr fun c _ => ?_
    rw [decide_eq_decide, ne_eq, nearestEven_eq_zero_iff, not_le, half_lt_abs_unit_iff hq]
  have hleading : leading (q.unit.rounded k).toList = _ :=
    leading_map (fun c => nearestEven (a * c * (k : ℝ))) hzero q.toList
  rw [hleading, hkept, nearestEven_pos_iff, SignSurvives]
  generalize hl : leading (q.toList.filter fun c => q.normSq < 4 * (k : ℝ) ^ 2 * c ^ 2) = l
  by_cases hnone : l = 0
  · rw [hnone, mul_zero, zero_mul, mul_zero]
    constructor <;> intro h <;> linarith
  · -- The first component that is kept is kept, so only its sign is in question.
    have hmem := leading_mem (hl.trans_ne hnone)
    rw [hl, List.mem_filter, decide_eq_true_iff, ← half_lt_abs_unit_iff hq] at hmem
    have hsame : 0 < a * l * k ↔ 0 < leading q.toList * l := by
      rw [mul_pos_iff_of_pos_right (Int.cast_pos.mpr hk), unit_factor_mul_pos_iff hq]
    rw [← hsame]
    constructor
    · intro h
      linarith
    · intro h
      rw [← abs_of_pos h]
      exact hmem.2

/-- A quaternion as a vector. -/
noncomputable def vector (q : Quaternion ℝ) : EuclideanSpace ℝ (Fin 4) :=
  (EuclideanSpace.equiv (Fin 4) ℝ).symm ![q.w, q.x, q.y, q.z]

theorem norm_sq_vector (q : Quaternion ℝ) : ‖q.vector‖ ^ 2 = q.normSq := by
  rw [EuclideanSpace.real_norm_sq_eq, Fin.sum_univ_four]
  simp only [vector, normSq, pow_two]
  rfl

/-- The norm of what is stored is off by at most one. -/
theorem normSq_rounded_mem (hq : q.normSq = 1) (hk : 0 < k) :
    (k - 1) ^ 2 ≤ (q.rounded k).normSq ∧ (q.rounded k).normSq ≤ (k + 1) ^ 2 := by
  let scaled := (q.map fun c : ℝ => c * (k : ℝ)).vector
  let stored := ((q.rounded k).map fun n : ℤ => (n : ℝ)).vector
  have hnear : ∀ i, |stored i - scaled i| ≤ 1 / 2 := by
    intro i
    fin_cases i <;> exact abs_nearestEven_sub_le _
  have hscaled : ‖scaled‖ = k := by
    have hsq : ‖scaled‖ ^ 2 = (k : ℝ) ^ 2 := by
      have hmul := normSq_scale q k
      rw [hq, mul_one] at hmul
      rw [norm_sq_vector, ← hmul]
      unfold scale
      simp only [mul_comm]
    rwa [sq_eq_sq₀ (norm_nonneg _) (Int.cast_nonneg hk.le)] at hsq
  have hstored : ‖stored‖ ^ 2 = ((q.rounded k).normSq : ℝ) := by
    rw [norm_sq_vector, normSq_map_cast]
  have hroot : √(Fintype.card (Fin 4) : ℝ) / 2 = 1 := by
    rw [Fintype.card_fin, div_eq_one_iff_eq two_ne_zero, Real.sqrt_eq_iff_mul_self_eq] <;> norm_num
  -- A vector of four halves has norm one, so the norms differ by at most one.
  have hdist := abs_norm_sub_norm_le_of_near hnear
  rw [hroot, hscaled, abs_le] at hdist
  have hk' : (1 : ℝ) ≤ k := Int.cast_one_le_of_pos hk
  constructor
  · have hle : ((k : ℝ) - 1) ^ 2 ≤ ‖stored‖ ^ 2 :=
      pow_le_pow_left₀ (by linarith) (by linarith) 2
    rw [hstored] at hle
    exact_mod_cast hle
  · have hle : ‖stored‖ ^ 2 ≤ ((k : ℝ) + 1) ^ 2 :=
      pow_le_pow_left₀ (norm_nonneg _) (by linarith) 2
    rw [hstored] at hle
    exact_mod_cast hle

/-- No stored component is larger than the scale. -/
theorem abs_rounded_le (hq : q.normSq = 1) (hk : 0 < k) {c : ℝ} (hc : c ∈ q.toList) :
    |nearestEven (c * (k : ℝ))| ≤ k := by
  have hle := sq_le_normSq q hc
  rw [hq, sq_le_one_iff_abs_le_one, abs_le] at hle
  have hk' : (0 : ℝ) ≤ k := Int.cast_nonneg hk.le
  rw [abs_le]
  constructor
  · refine le_nearestEven ?_
    rw [Int.cast_neg]
    linarith [mul_le_mul_of_nonneg_right hle.1 hk']
  · refine nearestEven_le ?_
    linarith [mul_le_mul_of_nonneg_right hle.2 hk']

/-- Where the first component is positive, it decides the sign. -/
theorem rounded_unit_of_pos (hw : 0 < q.w) :
    q.unit.rounded k = q.map fun c : ℝ => nearestEven (c * (k : ℝ) / √q.normSq) := by
  have hlead : leading q.toList = q.w := by
    rw [toList, leading, if_neg hw.ne']
  unfold unit rounded scale
  rw [hlead, sign_pos hw, SignType.coe_one, map_map]
  refine map_congr fun c _ => ?_
  rw [Function.comp_apply, one_div_mul_eq_div, div_mul_eq_mul_div]

/-- Integer components that are off by at most one each. -/
def Close (a b : Quaternion ℤ) : Prop :=
  |a.w - b.w| ≤ 1 ∧ |a.x - b.x| ≤ 1 ∧ |a.y - b.y| ≤ 1 ∧ |a.z - b.z| ≤ 1

/-- Stretching a component of a vector whose norm is off by at most one moves it by
    at most one. -/
theorem abs_nearestEven_stretch_sub_le {n : ℤ} {r : ℝ} (hr : 0 < r) (hnorm : |(k : ℝ) - r| ≤ 1)
    (hn : |(n : ℝ)| ≤ r) : |nearestEven (1 / r * n * (k : ℝ)) - n| ≤ 1 := by
  have hmove : |1 / r * n * (k : ℝ) - n| ≤ 1 := by
    have heq : 1 / r * n * (k : ℝ) - n = n * (k - r) / r := by
      field_simp
    rw [heq, abs_div, abs_mul, abs_of_pos hr, div_le_one hr]
    calc |(n : ℝ)| * |(k : ℝ) - r| ≤ r * 1 :=
          mul_le_mul hn hnorm (abs_nonneg _) hr.le
      _ = r := mul_one r
  rw [abs_le] at hmove
  have hlow : n - 1 ≤ nearestEven (1 / r * n * (k : ℝ)) := by
    refine le_nearestEven ?_
    rw [Int.cast_sub, Int.cast_one]
    linarith
  have hhigh : nearestEven (1 / r * n * (k : ℝ)) ≤ n + 1 := by
    refine nearestEven_le ?_
    rw [Int.cast_add, Int.cast_one]
    linarith
  rw [abs_le]
  omega

/-- What is stored is nearly its own representative, as long as its sign is right. -/
theorem close_rounded_unit {a : Quaternion ℤ} (hk : 1 < k)
    (hnorm : (k - 1) ^ 2 ≤ a.normSq ∧ a.normSq ≤ (k + 1) ^ 2) (hsign : 0 < leading a.toList) :
    ((a.map fun n : ℤ => (n : ℝ)).unit.rounded k).Close a := by
  let q := a.map fun n : ℤ => (n : ℝ)
  have hcast : q.normSq = (a.normSq : ℝ) := normSq_map_cast a
  have hk' : (1 : ℝ) < k := by exact_mod_cast hk
  have hlow : ((k : ℝ) - 1) ^ 2 ≤ q.normSq := by
    rw [hcast]
    exact_mod_cast hnorm.1
  have hhigh : q.normSq ≤ ((k : ℝ) + 1) ^ 2 := by
    rw [hcast]
    exact_mod_cast hnorm.2
  have hpos : 0 < √q.normSq :=
    Real.sqrt_pos.mpr (lt_of_lt_of_le (pow_pos (by linarith) 2) hlow)
  have hroot : |(k : ℝ) - √q.normSq| ≤ 1 := by
    have hge := Real.le_sqrt_of_sq_le hlow
    have hle := (Real.sqrt_le_left (by linarith)).mpr hhigh
    rw [abs_le]
    constructor <;> linarith
  have hfactor : (SignType.sign (leading q.toList) : ℝ) = 1 := by
    rw [leading_map_cast, sign_pos (Int.cast_pos.mpr hsign), SignType.coe_one]
  -- The factor on a component is the scale over the norm, which is nearly one.
  have hmove : ∀ n ∈ a.toList, |nearestEven (1 / √q.normSq * n * (k : ℝ)) - n| ≤ 1 := by
    intro n hn
    refine abs_nearestEven_stretch_sub_le hpos hroot ?_
    refine Real.abs_le_sqrt (sq_le_normSq q ?_)
    exact List.mem_map_of_mem hn
  simp only [toList, List.forall_mem_cons] at hmove
  unfold unit
  rw [hfactor]
  exact ⟨hmove.1, hmove.2.1, hmove.2.2.1, hmove.2.2.2.1⟩

end Rounded

end Quaternion

end Seven
