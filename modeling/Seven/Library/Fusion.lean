import Mathlib.Algebra.BigOperators.Group.List.Basic
import Mathlib.Algebra.Order.BigOperators.Group.List
import Mathlib.Algebra.Order.Field.Basic
import Mathlib.Tactic.FieldSimp
import Mathlib.Tactic.Linarith
import Mathlib.Tactic.Ring

/-!
# Fusing Scalar Gaussian Measurements

The conjugate update of a scalar Gaussian by independent measurements with known
noise, over any ordered field.

The update is written with a gain that depends on the variance so far, so two
measurements taken in different orders pass through different gains. In the
coordinates `1 / var` and `mean / var` the gain disappears: each measurement
adds its own precision and its own information, whatever came before it. A fold
over measurements is then a pair of sums, and that it does not depend on their
order is that a sum does not.

## Main definitions

* `Gaussian`: A mean and a variance.
* `update`: The update by one measurement.
* `fuse`: The update by a list of measurements.
* `IsPosterior`: What a list of measurements has to make of a Gaussian.
* `Narrows`: What one of them does to the variance.

## Theorems

* `var_update`, `mean_update`: An update without its gain.
* `var_update_pos`: Variances stay positive.
* `precision_update`, `information_update`: One update in additive coordinates.
* `precision_fuse`, `information_fuse`: The closed form of a fold.
* `isPosterior_fuse`: The Gaussian a fold ends in.
* `narrows_update`: What an update does to the variance.
* `var_fuse_lt`, `mean_fuse_le`, `le_mean_fuse`: How far a fold is from the measurements.
* `fuse_perm`: Order does not matter.
-/

namespace Fusion

/-- A scalar Gaussian. -/
@[ext] structure Gaussian (K : Type*) where
  mean : K
  var : K

variable {K : Type*} [Field K]

/-- Update by a measurement and its noise variance, with the scalar gain. -/
def update (g : Gaussian K) (z : K × K) : Gaussian K :=
  let k := g.var / (g.var + z.2)
  ⟨g.mean + k * (z.1 - g.mean), g.var * (1 - k)⟩

def fuse (g : Gaussian K) (zs : List (K × K)) : Gaussian K :=
  zs.foldl update g

@[simp] theorem fuse_nil (g : Gaussian K) : fuse g [] = g := rfl

@[simp] theorem fuse_cons (g : Gaussian K) (z : K × K) (zs : List (K × K)) :
    fuse g (z :: zs) = fuse (update g z) zs := rfl

/-- The variance determines the mean once the information is known. -/
theorem ext_information {g g' : Gaussian K} (hg : g.var ≠ 0) (hvar : 1 / g.var = 1 / g'.var)
    (hinfo : g.mean / g.var = g'.mean / g'.var) : g = g' := by
  have hv : g.var = g'.var := by
    rw [one_div, one_div, inv_inj] at hvar
    exact hvar
  refine Gaussian.ext ?_ hv
  rw [← hv, div_left_inj' hg] at hinfo
  exact hinfo

/-- The variance of an update without its gain. -/
theorem var_update {g : Gaussian K} {z : K × K} (hsum : g.var + z.2 ≠ 0) :
    (update g z).var = g.var * z.2 / (g.var + z.2) := by
  -- The gain is a quotient over the sum of the variances.
  simp only [update]
  field_simp
  ring

/-- The mean of an update without its gain. -/
theorem mean_update {g : Gaussian K} {z : K × K} (hsum : g.var + z.2 ≠ 0) :
    (update g z).mean = (g.mean * z.2 + g.var * z.1) / (g.var + z.2) := by
  simp only [update]
  field_simp
  ring

/-- Reflecting all numbers reflects the fold. -/
theorem fuse_neg (g : Gaussian K) (zs : List (K × K)) :
    fuse ⟨-g.mean, g.var⟩ (zs.map fun z => (-z.1, z.2)) =
      ⟨-(fuse g zs).mean, (fuse g zs).var⟩ := by
  induction zs generalizing g with
  | nil => rfl
  | cons z zs ih =>
      have hstep : update ⟨-g.mean, g.var⟩ (-z.1, z.2) =
          ⟨-(update g z).mean, (update g z).var⟩ := by
        refine Gaussian.ext ?_ rfl
        simp only [update]
        ring
      rw [List.map_cons, fuse_cons, hstep, ih, fuse_cons]

variable [LinearOrder K] [IsStrictOrderedRing K]

theorem var_update_pos {g : Gaussian K} {z : K × K} (hg : 0 < g.var) (hz : 0 < z.2) :
    0 < (update g z).var := by
  rw [var_update (add_pos hg hz).ne']
  exact div_pos (mul_pos hg hz) (add_pos hg hz)

/-- A measurement adds its precision. -/
theorem precision_update {g : Gaussian K} {z : K × K} (hg : 0 < g.var) (hz : 0 < z.2) :
    1 / (update g z).var = 1 / g.var + 1 / z.2 := by
  have hsum : g.var + z.2 ≠ 0 := (add_pos hg hz).ne'
  rw [var_update hsum]
  field_simp
  ring

/-- A measurement adds its information. -/
theorem information_update {g : Gaussian K} {z : K × K} (hg : 0 < g.var) (hz : 0 < z.2) :
    (update g z).mean / (update g z).var = g.mean / g.var + z.1 / z.2 := by
  have hsum : g.var + z.2 ≠ 0 := (add_pos hg hz).ne'
  rw [var_update hsum, mean_update hsum]
  field_simp

theorem var_fuse_pos {g : Gaussian K} {zs : List (K × K)} (hg : 0 < g.var)
    (hzs : ∀ z ∈ zs, 0 < z.2) : 0 < (fuse g zs).var := by
  induction zs generalizing g with
  | nil => exact hg
  | cons z zs ih =>
      rw [List.forall_mem_cons] at hzs
      exact ih (var_update_pos hg hzs.1) hzs.2

/-- The precision of a fold is a sum of precisions. -/
theorem precision_fuse {g : Gaussian K} {zs : List (K × K)} (hg : 0 < g.var)
    (hzs : ∀ z ∈ zs, 0 < z.2) :
    1 / (fuse g zs).var = 1 / g.var + (zs.map fun z => 1 / z.2).sum := by
  induction zs generalizing g with
  | nil => rw [fuse_nil, List.map_nil, List.sum_nil, add_zero]
  | cons z zs ih =>
      rw [List.forall_mem_cons] at hzs
      rw [fuse_cons, ih (var_update_pos hg hzs.1) hzs.2, precision_update hg hzs.1, List.map_cons,
        List.sum_cons, add_assoc]

/-- The information of a fold is a sum of informations. -/
theorem information_fuse {g : Gaussian K} {zs : List (K × K)} (hg : 0 < g.var)
    (hzs : ∀ z ∈ zs, 0 < z.2) :
    (fuse g zs).mean / (fuse g zs).var =
      g.mean / g.var + (zs.map fun z => z.1 / z.2).sum := by
  induction zs generalizing g with
  | nil => rw [fuse_nil, List.map_nil, List.sum_nil, add_zero]
  | cons z zs ih =>
      rw [List.forall_mem_cons] at hzs
      rw [fuse_cons, ih (var_update_pos hg hzs.1) hzs.2, information_update hg hzs.1,
        List.map_cons, List.sum_cons, add_assoc]

/-- The one Gaussian that a list of measurements makes of another: its precision and
    its information are the sums. -/
structure IsPosterior (g : Gaussian K) (zs : List (K × K)) (g' : Gaussian K) : Prop where
  precision_pos : 0 < 1 / g.var + (zs.map fun z => 1 / z.2).sum
  var_eq : g'.var = 1 / (1 / g.var + (zs.map fun z => 1 / z.2).sum)
  mean_eq : g'.mean = g'.var * (g.mean / g.var + (zs.map fun z => z.1 / z.2).sum)

theorem isPosterior_fuse {g : Gaussian K} {zs : List (K × K)} (hg : 0 < g.var)
    (hzs : ∀ z ∈ zs, 0 < z.2) : IsPosterior g zs (fuse g zs) where
  precision_pos := by
    rw [← precision_fuse hg hzs]
    exact one_div_pos.mpr (var_fuse_pos hg hzs)
  var_eq := by rw [← precision_fuse hg hzs, one_div_one_div]
  mean_eq := by rw [← information_fuse hg hzs, mul_div_cancel₀ _ (var_fuse_pos hg hzs).ne']

/-- One update divides by something, and leaves a smaller variance that is positive. -/
structure Narrows (g : Gaussian K) (z : K × K) (g' : Gaussian K) : Prop where
  sum_ne_zero : g.var + z.2 ≠ 0
  var_pos : 0 < g'.var
  var_lt : g'.var < g.var

theorem narrows_update {g : Gaussian K} {z : K × K} (hg : 0 < g.var) (hz : 0 < z.2) :
    Narrows g z (update g z) where
  sum_ne_zero := (add_pos hg hz).ne'
  var_pos := var_update_pos hg hz
  var_lt := by
    rw [var_update (add_pos hg hz).ne', div_lt_iff₀ (add_pos hg hz), mul_lt_mul_iff_right₀ hg]
    exact lt_add_of_pos_left z.2 hg

/-- One measurement makes the variance smaller than its own. -/
theorem var_fuse_lt {g : Gaussian K} {zs : List (K × K)} (hg : 0 < g.var)
    (hzs : ∀ z ∈ zs, 0 < z.2) {z : K × K} (hz : z ∈ zs) : (fuse g zs).var < z.2 := by
  have hterms : ∀ x ∈ zs.map fun z => 1 / z.2, 0 ≤ x := by
    intro x hx
    rcases List.mem_map.mp hx with ⟨y, hy, rfl⟩
    exact one_div_nonneg.mpr (hzs y hy).le
  have hone : 1 / z.2 ≤ (zs.map fun z => 1 / z.2).sum :=
    List.single_le_sum hterms _ (List.mem_map_of_mem hz)
  have hprecision := precision_fuse hg hzs
  refine lt_of_one_div_lt_one_div (hzs z hz) ?_
  rw [hprecision]
  exact lt_of_le_of_lt hone (lt_add_of_pos_left _ (one_div_pos.mpr hg))

/-- Seen from a number above all measurements, a fold has at most the information of
    the start. -/
theorem mean_fuse_sub_le {g : Gaussian K} {zs : List (K × K)} (hg : 0 < g.var)
    (hzs : ∀ z ∈ zs, 0 < z.2) {c : K} (hc : ∀ z ∈ zs, z.1 ≤ c) :
    ((fuse g zs).mean - c) / (fuse g zs).var ≤ (g.mean - c) / g.var := by
  induction zs generalizing g with
  | nil => exact le_rfl
  | cons z zs ih =>
      rw [List.forall_mem_cons] at hzs hc
      refine (ih (var_update_pos hg hzs.1) hzs.2 hc.2).trans ?_
      have hprecision := precision_update hg hzs.1
      have hinformation := information_update hg hzs.1
      have hoffset : ((update g z).mean - c) / (update g z).var =
          (g.mean - c) / g.var + (z.1 - c) / z.2 := by
        calc ((update g z).mean - c) / (update g z).var
            = (update g z).mean / (update g z).var - c * (1 / (update g z).var) := by
              rw [sub_div, mul_one_div]
          _ = (g.mean - c) / g.var + (z.1 - c) / z.2 := by
              rw [hinformation, hprecision]
              ring
      rw [hoffset]
      exact add_le_of_nonpos_right (div_nonpos_of_nonpos_of_nonneg (sub_nonpos.mpr hc.1) hzs.1.le)

/-- The mean of a fold is not far above all measurements: the start pulls it by no
    more than the share of its precision. -/
theorem mean_fuse_le {g : Gaussian K} {zs : List (K × K)} (hg : 0 < g.var)
    (hzs : ∀ z ∈ zs, 0 < z.2) {z : K × K} (hz : z ∈ zs) {c m : K} (hc : ∀ z ∈ zs, z.1 ≤ c)
    (hm : |g.mean - c| ≤ m) : (fuse g zs).mean ≤ c + m * z.2 / g.var := by
  have hpos := var_fuse_pos hg hzs
  have hoffset := mean_fuse_sub_le hg hzs hc
  rw [div_le_iff₀ hpos] at hoffset
  have hpull : (g.mean - c) / g.var * (fuse g zs).var ≤ m / g.var * z.2 := by
    refine mul_le_mul ?_ (var_fuse_lt hg hzs hz).le hpos.le ?_
    · exact div_le_div_of_nonneg_right ((le_abs_self _).trans hm) hg.le
    · exact div_nonneg ((abs_nonneg _).trans hm) hg.le
  rw [← sub_le_iff_le_add', mul_div_right_comm]
  exact hoffset.trans hpull

theorem le_mean_fuse {g : Gaussian K} {zs : List (K × K)} (hg : 0 < g.var)
    (hzs : ∀ z ∈ zs, 0 < z.2) {z : K × K} (hz : z ∈ zs) {c m : K} (hc : ∀ z ∈ zs, c ≤ z.1)
    (hm : |g.mean - c| ≤ m) : c - m * z.2 / g.var ≤ (fuse g zs).mean := by
  -- The reflected measurements lie below the reflected bound.
  have hzs' : ∀ y ∈ zs.map fun z => (-z.1, z.2), 0 < y.2 := by
    intro y hy
    rcases List.mem_map.mp hy with ⟨x, hx, rfl⟩
    exact hzs x hx
  have hc' : ∀ y ∈ zs.map fun z => (-z.1, z.2), y.1 ≤ -c := by
    intro y hy
    rcases List.mem_map.mp hy with ⟨x, hx, rfl⟩
    exact neg_le_neg (hc x hx)
  have hm' : |(⟨-g.mean, g.var⟩ : Gaussian K).mean - -c| ≤ m := by
    rwa [neg_sub_neg, abs_sub_comm]
  have hle := mean_fuse_le (g := ⟨-g.mean, g.var⟩) hg hzs' (List.mem_map_of_mem hz) hc' hm'
  rw [fuse_neg] at hle
  linarith

/-- The order of the measurements does not matter. -/
theorem fuse_perm {g : Gaussian K} {zs zs' : List (K × K)} (hg : 0 < g.var)
    (hzs : ∀ z ∈ zs, 0 < z.2) (hperm : zs.Perm zs') : fuse g zs = fuse g zs' := by
  have hzs' : ∀ z ∈ zs', 0 < z.2 := fun z hz => hzs z (hperm.mem_iff.mpr hz)
  -- Both sums are taken over permuted lists.
  refine ext_information (var_fuse_pos hg hzs).ne' ?_ ?_
  · rw [precision_fuse hg hzs, precision_fuse hg hzs', (hperm.map _).sum_eq]
  · rw [information_fuse hg hzs, information_fuse hg hzs', (hperm.map _).sum_eq]

end Fusion
