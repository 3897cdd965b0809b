import Seven.Core.Normalization

/-!
# Opposite Attitudes in Rounded Arithmetic

A quaternion and its opposite are one rotation, so they have to become one canonical
attitude, also where every operation rounds. A rounding that treats both signs alike
does not see the difference up to the choice of the hemisphere: the squares are the
same, the quotients are opposite, and the sign that is chosen is opposite too. Only
where every quotient has underflowed to zero, or is not a number, nothing is left to
choose a sign by, and there is nothing to flip either.

So the opposite of any observation whatsoever is canonicalized to the same state, or
fails with the same error (`canonicalize_neg`).

## Main definitions

* `Rounder.Symmetric`: A rounding that treats both signs alike.
* `Rounded.neg`: The opposite value.
* `Undecided`: A component that does not choose the hemisphere.

## Theorems

* `result_neg`, `mul_neg_neg`, `div_neg`: Operations on opposite values.
* `sign_map_neg`: The sign of the opposite quaternion.
* `canonicalize_neg`: The state of the opposite attitude.
-/

namespace Seven

open Rounding

/-- A rounding that treats both signs alike. -/
def Rounder.Symmetric (R : Rounder ℝ) : Prop :=
  ∀ x, R.round (-x) = -R.round x

theorem symmetric_binary64 : (Rounder.binary64 : Rounder ℝ).Symmetric :=
  fun x => toFormat_neg x

namespace Rounded

variable {R : Rounder ℝ} (hR : R.Symmetric)

include hR in
theorem has_neg {x : ℝ} (has : R.Has x) : R.Has (-x) := by
  unfold Rounder.Has at has ⊢
  rw [hR, has]

/-- The opposite value. -/
def neg (hR : R.Symmetric) : Rounded R → Rounded R
  | nan => nan
  | inf s => inf (!s)
  | finite x has => finite (-x) (has_neg hR has)

theorem decide_neg_lt {x : ℝ} (hx : x ≠ 0) : decide (-x < 0) = !decide (x < 0) := by
  rcases hx.lt_or_gt with hlt | hgt
  · rw [decide_eq_true hlt, decide_eq_false (by linarith), Bool.not_true]
  · rw [decide_eq_false hgt.not_gt, decide_eq_true (by linarith), Bool.not_false]

theorem result_neg (x : ℝ) : result R (-x) = neg hR (result R x) := by
  unfold result
  have habs : |R.round (-x)| = |R.round x| := by rw [hR, abs_neg]
  by_cases h : |R.round x| ≤ R.maxFinite
  · rw [if_pos h, if_pos (by rwa [habs])]
    simp only [hR x, neg]
  · -- What is too large is not zero.
    have hne : R.round x ≠ 0 := by
      intro hzero
      rw [hzero, abs_zero] at h
      exact h (le_trans (by norm_num) R.le_maxFinite)
    rw [if_neg h, if_neg (by rwa [habs]), hR, decide_neg_lt hne]
    rfl

theorem mul_neg_neg (v w : Rounded R) : neg hR v * neg hR w = v * w := by
  cases v with
  | nan => rfl
  | inf s =>
      cases w with
      | nan => rfl
      | inf t => cases s <;> cases t <;> rfl
      | finite y has =>
          change (if -y = 0 then nan else inf ((!s) != decide (-y < 0))) =
            if y = 0 then nan else inf (s != decide (y < 0))
          by_cases hy : y = 0
          · rw [if_pos hy, if_pos (neg_eq_zero.mpr hy)]
          · rw [if_neg hy, if_neg (neg_ne_zero.mpr hy), decide_neg_lt hy]
            cases s <;> cases decide (y < 0) <;> rfl
  | finite x has =>
      cases w with
      | nan => rfl
      | inf t =>
          change (if -x = 0 then nan else inf (decide (-x < 0) != (!t))) =
            if x = 0 then nan else inf (decide (x < 0) != t)
          by_cases hx : x = 0
          · rw [if_pos hx, if_pos (neg_eq_zero.mpr hx)]
          · rw [if_neg hx, if_neg (neg_ne_zero.mpr hx), decide_neg_lt hx]
            cases t <;> cases decide (x < 0) <;> rfl
      | finite y has' =>
          change result R (-x * -y) = result R (x * y)
          rw [neg_mul_neg]

theorem div_neg (v w : Rounded R) : neg hR v / w = neg hR (v / w) := by
  cases v with
  | nan => rfl
  | inf s =>
      cases w with
      | nan => rfl
      | inf t => rfl
      | finite y has =>
          change inf ((!s) != decide (y < 0)) = inf (!(s != decide (y < 0)))
          cases s <;> cases decide (y < 0) <;> rfl
  | finite x has =>
      cases w with
      | nan => rfl
      | inf t =>
          change result R 0 = neg hR (result R 0)
          rw [← result_neg hR, neg_zero]
      | finite y has' =>
          change (if y ≠ 0 then result R (-x / y) else if -x = 0 then nan
              else inf (decide (-x < 0))) =
            neg hR (if y ≠ 0 then result R (x / y) else if x = 0 then nan
              else inf (decide (x < 0)))
          by_cases hy : y ≠ 0
          · rw [if_pos hy, if_pos hy, neg_div, result_neg hR]
          · rw [if_neg hy, if_neg hy]
            by_cases hx : x = 0
            · rw [if_pos hx, if_pos (neg_eq_zero.mpr hx)]
              rfl
            · rw [if_neg hx, if_neg (neg_ne_zero.mpr hx), decide_neg_lt hx]
              rfl

/-- A component that does not choose the hemisphere. -/
def Undecided (v : Rounded R) : Prop :=
  F64.gt v (F64.ofInt 0) = false ∧ F64.gt (F64.ofInt 0) v = false

theorem gt_neg_zero (v : Rounded R) :
    F64.gt (neg hR v) (F64.ofInt 0) = F64.gt (F64.ofInt 0) v := by
  rcases ofInt_small (R := R) 0 (by norm_num) with ⟨has, hzero⟩
  rw [hzero]
  cases v with
  | nan => rfl
  | inf s => exact Bool.not_not s
  | finite x hasx =>
      change decide (((0 : ℤ) : ℝ) < -x) = decide (x < ((0 : ℤ) : ℝ))
      rw [Int.cast_zero, decide_eq_decide]
      exact neg_pos

theorem gt_zero_neg (v : Rounded R) :
    F64.gt (F64.ofInt 0) (neg hR v) = F64.gt v (F64.ofInt 0) := by
  rcases ofInt_small (R := R) 0 (by norm_num) with ⟨has, hzero⟩
  rw [hzero]
  cases v with
  | nan => rfl
  | inf s => rfl
  | finite x hasx =>
      change decide (-x < ((0 : ℤ) : ℝ)) = decide (((0 : ℤ) : ℝ) < x)
      rw [Int.cast_zero, decide_eq_decide]
      exact neg_lt_zero

/-- No value is on both sides of zero. -/
theorem gt_asymm {v : Rounded R} (h : F64.gt v (F64.ofInt 0) = true) :
    F64.gt (F64.ofInt 0) v = false := by
  rcases ofInt_small (R := R) 0 (by norm_num) with ⟨has, hzero⟩
  rw [hzero] at h ⊢
  cases v with
  | nan => rfl
  | inf s =>
      cases s with
      | false => rfl
      | true => exact absurd h Bool.false_ne_true
  | finite x hasx =>
      exact decide_eq_false (not_lt.mpr (of_decide_eq_true h).le)

/-- What does not choose the hemisphere is its own opposite. -/
theorem Undecided.neg_eq {v : Rounded R} (h : Undecided v) : neg hR v = v := by
  rcases ofInt_small (R := R) 0 (by norm_num) with ⟨has, hzero⟩
  unfold Undecided at h
  rw [hzero] at h
  cases v with
  | nan => rfl
  | inf s =>
      cases s with
      | false => exact absurd h.1 Bool.noConfusion
      | true => exact absurd h.2 Bool.noConfusion
  | finite x hasx =>
      have hle := not_lt.mp (of_decide_eq_false h.1)
      have hge := not_lt.mp (of_decide_eq_false h.2)
      have hx : x = 0 := by
        rw [Int.cast_zero] at hle hge
        exact le_antisymm hle hge
      simp only [neg, hx, neg_zero]

theorem neg_one : neg hR (F64.ofInt 1) = (F64.ofInt (-1) : Rounded R) := by
  rw [ofInt_real 1 (by norm_num), ofInt_real (-1) (by norm_num)]
  simp only [neg, Int.cast_neg]

theorem neg_neg_one : neg hR (F64.ofInt (-1)) = (F64.ofInt 1 : Rounded R) := by
  rw [ofInt_real 1 (by norm_num), ofInt_real (-1) (by norm_num)]
  simp only [neg, Int.cast_neg, neg_neg]

/-- One component in the choice of the sign. -/
theorem sign_step_neg (v : Rounded R) {rest rest' : Rounded R} {others : Prop}
    (h : rest' = neg hR rest ∨ others ∧ rest' = rest) :
    (if F64.gt (neg hR v) (F64.ofInt 0) then F64.ofInt 1
        else if F64.gt (F64.ofInt 0) (neg hR v) then F64.ofInt (-1) else rest') =
      neg hR (if F64.gt v (F64.ofInt 0) then F64.ofInt 1
        else if F64.gt (F64.ofInt 0) v then F64.ofInt (-1) else rest) ∨
    (Undecided v ∧ others) ∧ (if F64.gt (neg hR v) (F64.ofInt 0) then F64.ofInt 1
        else if F64.gt (F64.ofInt 0) (neg hR v) then F64.ofInt (-1) else rest') =
      if F64.gt v (F64.ofInt 0) then F64.ofInt 1
        else if F64.gt (F64.ofInt 0) v then F64.ofInt (-1) else rest := by
  rw [gt_neg_zero, gt_zero_neg]
  cases hpos : F64.gt v (F64.ofInt 0) with
  | true =>
      left
      rw [gt_asymm hpos, if_neg Bool.false_ne_true, if_pos rfl, if_pos rfl, neg_one]
  | false =>
      cases hneg : F64.gt (F64.ofInt 0) v with
      | true =>
          left
          rw [if_pos rfl, if_neg Bool.false_ne_true, if_pos rfl, neg_neg_one]
      | false =>
          rw [if_neg Bool.false_ne_true, if_neg Bool.false_ne_true, if_neg Bool.false_ne_true,
            if_neg Bool.false_ne_true]
          rcases h with h | ⟨hothers, h⟩
          · exact Or.inl h
          · exact Or.inr ⟨⟨⟨hpos, hneg⟩, hothers⟩, h⟩

/-- The opposite quaternion chooses the opposite sign, unless there is nothing to choose
    by. -/
theorem sign_map_neg (q : Quaternion (Rounded R)) :
    (q.map (neg hR)).sign = neg hR q.sign ∨
      (∀ v ∈ q.toList, Undecided v) ∧ (q.map (neg hR)).sign = q.sign := by
  -- The last component is not asked whether it is negative.
  have hlast : F64.ofInt (-1) = neg hR (F64.ofInt (-1) : Rounded R) ∨
      True ∧ (F64.ofInt (-1) : Rounded R) = F64.ofInt (-1) := Or.inr ⟨trivial, rfl⟩
  have hz := sign_step_neg hR q.z hlast
  rw [ite_self, ite_self] at hz
  have hy := sign_step_neg hR q.y hz
  have hx := sign_step_neg hR q.x hy
  rcases sign_step_neg hR q.w hx with h | ⟨⟨hw, hx, hy, hz, _⟩, h⟩
  · exact Or.inl h
  · refine Or.inr ⟨?_, h⟩
    simp only [Quaternion.toList, List.forall_mem_cons, List.not_mem_nil, false_imp_iff,
      implies_true, and_true]
    exact ⟨hw, hx, hy, hz⟩

/-- The opposite quaternion is brought into its hemisphere as the same one. -/
theorem hemisphere_map_neg (u : Quaternion (Rounded R)) :
    (u.map (neg hR)).map ((u.map (neg hR)).sign * ·) = u.map (u.sign * ·) := by
  rw [Quaternion.map_map]
  refine Quaternion.map_congr fun v hv => ?_
  rw [Function.comp_apply]
  rcases sign_map_neg hR u with h | ⟨hall, h⟩
  · rw [h, mul_neg_neg]
  · rw [h, (hall v hv).neg_eq hR]

theorem validateF64_neg (v : Rounded R) (field : String) :
    validateF64 (neg hR v) field = validateF64 v field := by
  cases v <;> rfl

theorem norm_map_neg (q : Quaternion (Rounded R)) : (q.map (neg hR)).norm = q.norm := by
  unfold Quaternion.norm Quaternion.map
  simp only [mul_neg_neg]

/-- The opposite of a quaternion is canonicalized to the same, or fails the same. -/
theorem canonicalized_neg (q : Quaternion (Rounded R)) :
    (q.map (neg hR)).canonicalized = q.canonicalized := by
  have hvalidate : (q.map (neg hR)).validate = q.validate := by
    unfold Quaternion.validate Quaternion.map
    simp only [validateF64_neg]
  have hquotients : (q.map (neg hR)).map (· / q.norm) = (q.map (· / q.norm)).map (neg hR) := by
    rw [Quaternion.map_map, Quaternion.map_map]
    exact Quaternion.map_congr fun v _ => div_neg hR v q.norm
  unfold Quaternion.canonicalized
  simp only [hvalidate, norm_map_neg, hquotients, hemisphere_map_neg]

/-- The opposite attitude leads to the same state, or to the same error, for every
    observation whatsoever. -/
theorem canonicalize_neg (raw : PhysicalObservation (Rounded R)) :
    CanonicalState.canonicalize { raw with attitude := raw.attitude.map (neg hR) } =
      CanonicalState.canonicalize raw :=
  CanonicalState.canonicalize_congr raw (canonicalized_neg hR raw.attitude)

/-- In the format of `f64`. -/
theorem canonicalize_neg_banked :
    CanonicalState.canonicalize { (banked : PhysicalObservation (Rounded Rounder.binary64)) with
        attitude := banked.attitude.map (neg symmetric_binary64) } =
      CanonicalState.canonicalize (banked : PhysicalObservation (Rounded Rounder.binary64)) :=
  canonicalize_neg symmetric_binary64 banked

end Rounded

end Seven
