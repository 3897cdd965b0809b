import Seven.Core.Doubles

/-!
# Normalization in Rounded Arithmetic

How near to norm one a rounded attitude is. The squares are off by a little, their sums
and the root by a little more, and a component divided by the norm by twice as much; a
number `N` that all of it is small against keeps the count of the errors simple
(`Off`). Squares that underflow are small against a sum that does not, so nothing has
to be said about single components.

With the exact squared norm of an attitude between `2 ^ -900` and `2 ^ 900`
(`InRange`), canonicalization accepts it, the debug assertion on the norm holds, every
stored component is as near to the exact one as rounding to integers allows, up to a
hundred millionth, and the norm of what is stored is off by at most one
(`canonicalize_normalized`).

Whatever the squares are, storing a canonical state again is the identity
(`canonicalize_stored`).

## Main definitions

* `Quaternion.isUnit`: The debug assertion of `to_canonical`.
* `CanonicalQuaternion.Stores`: Components as near as they can be stored.
* `Off`: A value that is off by a multiple of the relative error of a number.
* `value`: The number of a finite value.

## Theorems

* `off_squares`, `off_norm`: The sum of the squares and its root.
* `off_canonicalized`: The components of a canonicalized attitude.
* `Stores.inBand`: The norm of components that are stored.
* `canonicalize_normalized`: What canonicalization makes of an attitude.
* `canonicalize_stored`: Storing a canonical state again.
-/

namespace Seven

open Rounding

/-- The debug assertion of `to_canonical`. -/
def Quaternion.isUnit {F : Type} [CanonicalF64 F] (q : Quaternion F) : Bool :=
  F64.gt (F64.ofInt 1 / F64.ofInt 1000000) (F64.abs (q.norm - F64.ofInt 1))

/-- Every component is as near to that of a quaternion as rounding to integers allows,
    up to a hundred millionth. -/
structure CanonicalQuaternion.Stores (q : CanonicalQuaternion) (u : Quaternion ℝ) : Prop where
  w : |(q.w.toInt : ℝ) - u.w * 10 ^ 6| ≤ 1 / 2 + 1 / 10 ^ 8
  x : |(q.x.toInt : ℝ) - u.x * 10 ^ 6| ≤ 1 / 2 + 1 / 10 ^ 8
  y : |(q.y.toInt : ℝ) - u.y * 10 ^ 6| ≤ 1 / 2 + 1 / 10 ^ 8
  z : |(q.z.toInt : ℝ) - u.z * 10 ^ 6| ≤ 1 / 2 + 1 / 10 ^ 8

/-- Components that are stored about half a unit from a vector of norm one have a norm
    that is off by at most one: it is a whole number, so a little more than half a unit
    does not matter. -/
theorem CanonicalQuaternion.Stores.inBand {q : CanonicalQuaternion} {u : Quaternion ℝ}
    (h : q.Stores u) (hu : u.normSq = 1) : q.InBand := by
  rcases h with ⟨hw, hx, hy, hz⟩
  let scaled := (u.scale (10 ^ 6)).vector
  let stored := (q.ints.map fun n : ℤ => (n : ℝ)).vector
  have hnear : ∀ i, |stored i - scaled i| ≤ 1 / 2 + 1 / 10 ^ 8 := by
    rw [mul_comm] at hw hx hy hz
    intro i
    fin_cases i
    · exact hw
    · exact hx
    · exact hy
    · exact hz
  have hscaled : ‖scaled‖ = 10 ^ 6 := by
    have hsq : ‖scaled‖ ^ 2 = (10 ^ 6 : ℝ) ^ 2 := by
      rw [Quaternion.norm_sq_vector, Quaternion.normSq_scale, hu, mul_one]
    rwa [sq_eq_sq₀ (norm_nonneg _) (by norm_num)] at hsq
  have hstored : ‖stored‖ ^ 2 = ((q.ints.normSq : ℤ) : ℝ) := by
    rw [Quaternion.norm_sq_vector, Quaternion.normSq_map_cast]
  have hroot : √(Fintype.card (Fin 4) : ℝ) = 2 := by
    rw [Fintype.card_fin, Real.sqrt_eq_iff_mul_self_eq] <;> norm_num
  have hdist := abs_norm_sub_norm_le_mul (by norm_num) hnear
  rw [hroot, hscaled, abs_le] at hdist
  constructor
  · have hle : (10 ^ 6 - 1 - 2 / 10 ^ 8 : ℝ) ^ 2 ≤ ‖stored‖ ^ 2 :=
      pow_le_pow_left₀ (by norm_num) (by linarith) 2
    have hlt : (((10 ^ 6 - 1) ^ 2 - 1 : ℤ) : ℝ) < ((q.ints.normSq : ℤ) : ℝ) := by
      rw [← hstored]
      push_cast
      linarith
    have hint := Int.cast_lt.mp hlt
    omega
  · have hle : ‖stored‖ ^ 2 ≤ (10 ^ 6 + 1 + 2 / 10 ^ 8 : ℝ) ^ 2 :=
      pow_le_pow_left₀ (norm_nonneg _) (by linarith) 2
    have hlt : ((q.ints.normSq : ℤ) : ℝ) < (((10 ^ 6 + 1) ^ 2 + 1 : ℤ) : ℝ) := by
      rw [← hstored]
      push_cast
      linarith
    have hint := Int.cast_lt.mp hlt
    omega

namespace Rounded

variable {R : Rounder ℝ}

/-- The number of a finite value. -/
def value : Rounded R → ℝ
  | finite x _ => x
  | _ => 0

/-- A finite value that is off from a number by at most so many units of the relative
    error of `N`. -/
def Off (N : ℝ) (k : ℕ) (v : Rounded R) (x : ℝ) : Prop :=
  ∃ y has, v = finite y has ∧ |y - x| ≤ k * (ulp * N)

theorem Off.finite64 {N x : ℝ} {k : ℕ} {v : Rounded R} (h : Off N k v x) : Finite64 v := by
  rcases h with ⟨y, has, rfl, _⟩
  exact finite64_finite y has

theorem Off.abs_value_sub_le {N x : ℝ} {k : ℕ} {v : Rounded R} (h : Off N k v x) :
    |v.value - x| ≤ k * (ulp * N) := by
  rcases h with ⟨y, has, rfl, hoff⟩
  exact hoff

/-- A squared norm between `2 ^ -900` and `2 ^ 900`: neither so small that what
    underflows matters, nor so large that anything overflows. Both hold somewhat
    further out, where nothing is said. -/
structure InRange (N : ℝ) : Prop where
  low : 2 ^ (-900 : ℤ) ≤ N
  high : N ≤ 2 ^ 900

theorem InRange.pos {N : ℝ} (hN : InRange N) : 0 < N :=
  (two_zpow_pos _).trans_le hN.1

theorem InRange.tiny_le {N : ℝ} (hN : InRange N) : tiny ≤ ulp * N / 2 ^ 100 := by
  have hpow : tiny ≤ ulp * 2 ^ (-900 : ℤ) / 2 ^ 100 := by
    rw [ulp_eq_zpow, ← zpow_natCast (2 : ℝ) 100, ← zpow_add₀ two_ne_zero,
      ← zpow_sub₀ two_ne_zero]
    exact tiny_le_zpow (by norm_num)
  have hulp : 0 < ulp := by
    rw [ulp_eq_zpow]
    exact two_zpow_pos _
  refine hpow.trans (div_le_div_of_nonneg_right ?_ (by positivity))
  exact mul_le_mul_of_nonneg_left hN.1 hulp.le

theorem InRange.sqrt {N : ℝ} (hN : InRange N) : InRange √N := by
  have hlow : (2 : ℝ) ^ (-900 : ℤ) ≤ 2 ^ (-450 : ℤ) := zpow_le_zpow_right₀ one_le_two (by norm_num)
  constructor
  · refine hlow.trans (Real.le_sqrt_of_sq_le ?_)
    rw [← zpow_natCast, ← zpow_mul]
    exact hN.1
  · refine (Real.sqrt_le_left (by positivity)).mpr (hN.2.trans ?_)
    rw [← pow_mul]
    exact pow_le_pow_right₀ one_le_two (by norm_num)

theorem inRange_one : InRange 1 := by
  constructor
  · rw [← zpow_zero (2 : ℝ)]
    exact zpow_le_zpow_right₀ one_le_two (by norm_num)
  · exact one_le_pow₀ one_le_two

section Near

variable (hR : R.Near) {N : ℝ} (hN : InRange N)

include hR hN

/-- One more operation, on values that are a little off, is off by two units more. -/
theorem off_result {k : ℕ} {x y : ℝ} (hk : k ≤ 100) (hx : |x| ≤ N) (hy : |y - x| ≤ k * (ulp * N)) :
    Off N (k + 2) (result R y) x := by
  have hpos := hN.pos
  have htiny := hN.tiny_le
  have hk' : (k : ℝ) ≤ 100 := by exact_mod_cast hk
  have hsum := abs_add_le x (y - x)
  rw [add_sub_cancel] at hsum
  rw [ulp_eq] at hy htiny
  have hoff := mul_le_mul_of_nonneg_right hk' (by positivity : 0 ≤ 1 / 4503599627370496 * N)
  have hsize : |y| ≤ 2 * N := by linarith
  have htop : (2 : ℝ) * 2 ^ 900 ≤ 2 ^ 990 := by
    rw [← pow_succ']
    exact pow_le_pow_right₀ one_le_two (by norm_num)
  refine ⟨R.round y, R.has_round y, result_eq hR ?_, ?_⟩
  · exact (hsize.trans (mul_le_mul_of_nonneg_left hN.2 two_pos.le)).trans htop
  · have herr := hR.error y
    have htriangle := abs_add_le (R.round y - y) (y - x)
    rw [sub_add_sub_cancel] at htriangle
    rw [ulp_eq] at herr ⊢
    push_cast
    linarith

theorem off_square {v : Rounded R} (hv : Finite64 v) (hsize : v.value * v.value ≤ N) :
    Off N 2 (v * v) (v.value * v.value) := by
  rcases exists_finite hv with ⟨x, has, rfl⟩
  refine off_result hR hN (k := 0) (by norm_num) ?_ ?_
  · rw [abs_of_nonneg (mul_self_nonneg _)]
    exact hsize
  · change |x * x - x * x| ≤ _
    rw [sub_self, abs_zero, Nat.cast_zero, zero_mul]

theorem Off.add {j k : ℕ} {v w : Rounded R} {x y : ℝ} (hv : Off N j v x)
    (hw : Off N k w y) (hx : 0 ≤ x) (hy : 0 ≤ y) (hsize : x + y ≤ N) (hjk : j + k ≤ 100) :
    Off N (j + k + 2) (v + w) (x + y) := by
  rcases hv with ⟨x', hasx, rfl, hx'⟩
  rcases hw with ⟨y', hasy, rfl, hy'⟩
  refine off_result hR hN hjk ?_ ?_
  · rw [abs_of_nonneg (add_nonneg hx hy)]
    exact hsize
  · have htriangle := abs_add_le (x' - x) (y' - y)
    rw [sub_add_sub_comm] at htriangle
    push_cast
    linarith

/-- The sum of the squares, where they are in range. -/
theorem off_squares {q : Quaternion (Rounded R)} (hq : ∀ v ∈ q.toList, Finite64 v)
    (hsum : (q.map value).normSq = N) : Off N 14 (squares q) N := by
  simp only [Quaternion.toList, List.forall_mem_cons] at hq
  rcases hq with ⟨hw, hx, hy, hz, _⟩
  unfold Quaternion.normSq Quaternion.map at hsum
  dsimp only at hsum
  have hw0 := mul_self_nonneg q.w.value
  have hx0 := mul_self_nonneg q.x.value
  have hy0 := mul_self_nonneg q.y.value
  have hz0 := mul_self_nonneg q.z.value
  have hwx := (off_square hR hN hw (by linarith)).add hR hN
    (off_square hR hN hx (by linarith)) hw0 hx0 (by linarith) (by norm_num)
  have hwxy := hwx.add hR hN (off_square hR hN hy (by linarith)) (by linarith) hy0 (by linarith)
    (by norm_num)
  have hall := hwxy.add hR hN (off_square hR hN hz (by linarith)) (by linarith) hz0 (by linarith)
    (by norm_num)
  rwa [hsum] at hall

/-- The norm is off by no more than the sum of the squares is, but for one operation. -/
theorem off_norm {q : Quaternion (Rounded R)} (hq : ∀ v ∈ q.toList, Finite64 v)
    (hsum : (q.map value).normSq = N) : Off √N 16 q.norm √N := by
  have hpos := hN.pos
  have hroot := Real.sqrt_pos.mpr hpos
  rcases off_squares hR hN hq hsum with ⟨s, has, hs, hoff⟩
  rw [ulp_eq, abs_le] at hoff
  push_cast at hoff
  have hs0 : 0 ≤ s := by linarith [hoff.1]
  rw [norm_eq, hs, sqrt_finite hs0]
  refine off_result hR hN.sqrt (k := 14) (by norm_num) ?_ ?_
  · rw [abs_of_pos hroot]
  -- A number near one is nearer to one than its square.
  · have hsq := Real.sq_sqrt hpos.le
    rw [ulp_eq, abs_le]
    push_cast
    constructor
    · have hlow : √N * (1 - 14 / 4503599627370496) ≤ √s := by
        refine Real.le_sqrt_of_sq_le ?_
        rw [mul_pow, hsq]
        linarith [hoff.1]
      linarith
    · have hhigh : √s ≤ √N * (1 + 14 / 4503599627370496) := by
        refine (Real.sqrt_le_left (by positivity)).mpr ?_
        rw [mul_pow, hsq]
        linarith [hoff.2]
      linarith

/-- A component over the norm. -/
theorem off_div {q : Quaternion (Rounded R)} (hq : ∀ v ∈ q.toList, Finite64 v)
    (hsum : (q.map value).normSq = N) {v : Rounded R} (hv : v ∈ q.toList) :
    Off 1 19 (v / q.norm) (v.value / √N) := by
  have hpos := hN.pos
  have hroot := Real.sqrt_pos.mpr hpos
  have hone := inRange_one
  rcases off_norm hR hN hq hsum with ⟨n, hasn, hn, hoff⟩
  rcases exists_finite (hq v hv) with ⟨x, has, rfl⟩
  have hx : |x| ≤ √N := by
    refine Real.abs_le_sqrt ?_
    have hmem : x ∈ (q.map value).toList := List.mem_map_of_mem (f := value) hv
    rw [← hsum]
    exact Quaternion.sq_le_normSq _ hmem
  rw [ulp_eq] at hoff
  push_cast at hoff
  have hn' := abs_le.mp hoff
  have hn0 : 0 < n := by linarith [hn'.1]
  have hdiv : (finite x has : Rounded R) / finite n hasn = result R (x / n) := if_pos hn0.ne'
  rw [hn, hdiv]
  change Off 1 19 (result R (x / n)) (x / √N)
  refine off_result hR hone (k := 17) (by norm_num) ?_ ?_
  · rw [abs_div, abs_of_pos hroot, div_le_one hroot]
    exact hx
  · have hmove : x / n - x / √N = x / √N * (√N - n) / n := by
      field_simp
    have hratio : |x / √N| ≤ 1 := by
      rw [abs_div, abs_of_pos hroot, div_le_one hroot]
      exact hx
    rw [hmove, abs_div, abs_mul, abs_of_pos hn0, div_le_iff₀ hn0, abs_sub_comm, ulp_eq]
    have hle := mul_le_mul hratio hoff (abs_nonneg _) zero_le_one
    push_cast
    linarith [hn'.1]

/-- What canonicalization makes of the components: multiples of the exact ones by the
    inverse of the norm, up to a common sign. -/
theorem off_canonicalized {q : Quaternion (Rounded R)} (hq : ∀ v ∈ q.toList, Finite64 v)
    (hsum : (q.map value).normSq = N) :
    ∃ (f : Rounded R → Rounded R) (a : ℝ), |a| = 1 ∧ q.canonicalized = .ok (q.map f) ∧
      ∀ v ∈ q.toList, Off 1 21 (f v) (a / √N * v.value) := by
  have hroot := Real.sqrt_pos.mpr hN.pos
  have haccepted : CanonicalF64.le q.norm (CanonicalF64.minPositive : Rounded R) = false := by
    rcases off_norm hR hN hq hsum with ⟨n, hasn, hn, hoff⟩
    rcases exists_minPositive hR with ⟨m, hasm, hm, _, hsmall⟩
    rw [hn, hm]
    refine decide_eq_false (not_le.mpr ?_)
    have hlow := hN.sqrt.1
    have hpow : (2 : ℝ) ^ (-1000 : ℤ) = 2 ^ (-900 : ℤ) / 2 ^ 100 := by
      rw [← zpow_natCast (2 : ℝ) 100, ← zpow_sub₀ two_ne_zero]
      norm_num
    rw [ulp_eq, abs_le] at hoff
    push_cast at hoff
    linarith [hoff.1]
  rcases exists_sign (q.map (· / q.norm)) with ⟨a, hasa, hsign, ha⟩
  refine ⟨fun v => finite a hasa * (v / q.norm), a, ha, ?_, ?_⟩
  · rw [Quaternion.canonicalized_of_finite hq, if_neg (by rw [haccepted]; exact Bool.false_ne_true),
      hsign]
    rfl
  · intro v hv
    rcases off_div hR hN hq hsum hv with ⟨y, has, hy, hoff⟩
    have hratio : |v.value / √N| ≤ 1 := by
      have hmem : v.value ∈ (q.map value).toList := List.mem_map_of_mem (f := value) hv
      rw [abs_div, abs_of_pos hroot, div_le_one hroot, ← hsum]
      exact Real.abs_le_sqrt (Quaternion.sq_le_normSq _ hmem)
    have hprod : finite a hasa * (v / q.norm) = result R (a * y) := by
      rw [hy]
      rfl
    dsimp only
    rw [hprod]
    rw [div_mul_eq_mul_div, mul_div_assoc]
    refine off_result hR inRange_one (k := 19) (by norm_num) ?_ ?_
    · rwa [abs_mul, ha, one_mul]
    · rwa [← mul_sub, abs_mul, ha, one_mul]

end Near

section Unit

variable (hR : R.Near)

include hR

/-- A number near one in size is stored about half a unit from where it belongs. -/
theorem abs_stored_sub_le {v : Rounded R} {x : ℝ} (hv : Off 1 21 v x) (hx : |x| ≤ 1) :
    |((quantize v Scale.quaternion).toInt : ℝ) - x * 10 ^ 6| ≤ 1 / 2 + 1 / 10 ^ 8 := by
  rcases hv with ⟨y, has, rfl, hoff⟩
  have hscale : (Scale.quaternion.toInt : ℝ) = 10 ^ 6 := by
    rw [show Scale.quaternion.toInt = 10 ^ 6 by decide]
    norm_num
  have htiny := tiny_le_ulp
  have hsum := abs_add_le x (y - x)
  rw [add_sub_cancel] at hsum
  rw [ulp_eq] at hoff htiny
  push_cast at hoff
  have hprod : |y * Scale.quaternion.toInt| ≤ 2 ^ 20 := by
    rw [hscale, abs_mul, abs_of_pos (by norm_num : (0 : ℝ) < 10 ^ 6)]
    linarith
  rcases exists_quantize hR has (by decide) (by decide) (hprod.trans (by norm_num)) with
    ⟨z, hz, hstored⟩
  have hproduct : |z - y * 10 ^ 6| ≤ 1 / 10 ^ 9 := by
    rw [ulp_eq] at hz
    rw [← hscale]
    generalize |y * Scale.quaternion.toInt| = a at hz hprod
    linarith
  have hmove : |y * 10 ^ 6 - x * 10 ^ 6| ≤ 9 / 10 ^ 9 := by
    rw [← sub_mul, abs_mul, abs_of_pos (by norm_num : (0 : ℝ) < 10 ^ 6)]
    linarith
  rw [hstored]
  -- The integer is half a unit from the product, the product an error from the number.
  have hround := abs_nearestEven_sub_le z
  have htriangle := abs_add_three ((nearestEven z : ℝ) - z) (z - y * 10 ^ 6)
    (y * 10 ^ 6 - x * 10 ^ 6)
  rw [sub_add_sub_cancel, sub_add_sub_cancel] at htriangle
  exact htriangle.trans ((add_le_add (add_le_add hround hproduct) hmove).trans (by norm_num))

omit hR in
/-- Squares of numbers that are nearly the same. -/
theorem Off.abs_sq_sub_le {v : Rounded R} {x : ℝ} (hv : Off 1 21 v x) (hx : |x| ≤ 1) :
    |v.value * v.value - x * x| ≤ 50 * ulp := by
  have hoff := hv.abs_value_sub_le
  have hfactor : v.value * v.value - x * x = (v.value - x) * (v.value - x + 2 * x) := by ring
  have hsum := abs_add_le (v.value - x) (2 * x)
  rw [abs_mul, abs_two] at hsum
  rw [ulp_eq] at hoff ⊢
  push_cast at hoff
  have hle := mul_le_mul hoff (hsum.trans (by linarith : _ ≤ (50 / 21 : ℝ))) (abs_nonneg _)
    (by norm_num)
  rw [hfactor, abs_mul]
  linarith

/-- The norm of what has nearly norm one. -/
theorem exists_norm_near_one {u : Quaternion (Rounded R)} (hu : ∀ v ∈ u.toList, Finite64 v)
    (hnear : |(u.map value).normSq - 1| ≤ 200 * ulp) :
    ∃ n has, u.norm = finite n has ∧ |n - 1| ≤ 300 * ulp := by
  have hN := hnear
  rw [ulp_eq, abs_le] at hN
  have hone := inRange_one
  have hrange : InRange (u.map value).normSq := by
    have hlow : (2 : ℝ) ^ (-900 : ℤ) ≤ 2 ^ (-1 : ℤ) := zpow_le_zpow_right₀ one_le_two (by norm_num)
    have hhigh : (2 : ℝ) ^ 1 ≤ 2 ^ 900 := pow_le_pow_right₀ one_le_two (by norm_num)
    rw [zpow_neg_one] at hlow
    rw [pow_one] at hhigh
    constructor
    · refine hlow.trans ?_
      linarith [hN.1]
    · refine le_trans ?_ hhigh
      linarith [hN.2]
  have hsq := Real.sq_sqrt hrange.pos.le
  have hlow : 1 - 200 / 4503599627370496 ≤ √(u.map value).normSq := by
    refine Real.le_sqrt_of_sq_le ?_
    linarith [hN.1]
  have hhigh : √(u.map value).normSq ≤ 1 + 200 / 4503599627370496 := by
    refine (Real.sqrt_le_left (by norm_num)).mpr ?_
    linarith [hN.2]
  rcases off_norm hR hrange hu rfl with ⟨n, has, hn, hoff⟩
  refine ⟨n, has, hn, ?_⟩
  rw [ulp_eq, abs_le] at hoff
  rw [ulp_eq, abs_le]
  push_cast at hoff
  constructor <;> linarith [hoff.1, hoff.2]

omit hR in
/-- The sum of the squares of components that are nearly those of a vector of norm one. -/
theorem abs_normSq_sub_one_le {u : Quaternion (Rounded R)} {r : Quaternion ℝ} (hr : r.normSq = 1)
    (hw : Off 1 21 u.w r.w) (hx : Off 1 21 u.x r.x) (hy : Off 1 21 u.y r.y)
    (hz : Off 1 21 u.z r.z) : |(u.map value).normSq - 1| ≤ 200 * ulp := by
  have hcomponent {c : ℝ} (hc : c ∈ r.toList) : |c| ≤ 1 := Quaternion.abs_le_one hr hc
  simp only [Quaternion.toList, List.mem_cons, List.not_mem_nil, or_false] at hcomponent
  have hsw := abs_le.mp (hw.abs_sq_sub_le (hcomponent (Or.inl rfl)))
  have hsx := abs_le.mp (hx.abs_sq_sub_le (hcomponent (Or.inr (Or.inl rfl))))
  have hsy := abs_le.mp (hy.abs_sq_sub_le (hcomponent (Or.inr (Or.inr (Or.inl rfl)))))
  have hsz := abs_le.mp (hz.abs_sq_sub_le (hcomponent (Or.inr (Or.inr (Or.inr rfl)))))
  unfold Quaternion.normSq at hr
  unfold Quaternion.normSq Quaternion.map
  dsimp only
  refine abs_le.mpr ⟨?_, ?_⟩ <;> linarith [hsw.1, hsw.2, hsx.1, hsx.2, hsy.1, hsy.2, hsz.1, hsz.2]

/-- The debug assertion holds of a norm that is nearly one: what the difference, its
    absolute value and the bound are rounded by is far below the bound. -/
theorem isUnit_of_norm {u : Quaternion (Rounded R)} {n : ℝ} {hasn : R.Has n}
    (hn : u.norm = finite n hasn) (hoff : |n - 1| ≤ 300 * ulp) : u.isUnit = true := by
  rcases ofInt_small (R := R) 1 (by norm_num) with ⟨hasone, hone⟩
  rcases ofInt_small (R := R) 1000000 (by norm_num) with ⟨hasmicro, hmicro⟩
  rw [ulp_eq] at hoff
  have htiny := tiny_le_ulp
  rw [ulp_eq] at htiny
  rcases exists_result hR (show |n - 1| ≤ 2 ^ 64 by linarith) with ⟨d, hasd, hd, hderr⟩
  have hdsum := abs_add_le (n - 1) (d - (n - 1))
  rw [add_sub_cancel] at hdsum
  rw [ulp_eq] at hderr
  rcases exists_result hR (show |(|d|)| ≤ 2 ^ 64 by rw [abs_abs]; linarith) with
    ⟨e, hase, he, heerr⟩
  rw [abs_abs, ulp_eq] at heerr
  have hsmall := (abs_le.mp heerr).2
  rcases exists_result hR (show |((1 : ℤ) : ℝ) / ((1000000 : ℤ) : ℝ)| ≤ 2 ^ 64 by norm_num) with
    ⟨m, hasm, hm, hmerr⟩
  rw [ulp_eq] at hmerr
  norm_num at hmerr
  have hlarge := (abs_le.mp hmerr).1
  have hdiv : (finite ((1 : ℤ) : ℝ) hasone : Rounded R) / finite ((1000000 : ℤ) : ℝ) hasmicro =
      finite m hasm := by
    rw [← hm]
    exact if_pos (by norm_num)
  have hsub : (finite n hasn : Rounded R) - finite ((1 : ℤ) : ℝ) hasone = finite d hasd := by
    change result R (n - ((1 : ℤ) : ℝ)) = _
    rw [Int.cast_one, hd]
  have habs : F64.abs (finite d hasd : Rounded R) = finite e hase := he
  unfold Quaternion.isUnit
  rw [hn, hone, hmicro, hdiv, hsub, habs]
  refine decide_eq_true ?_
  linarith

/-- The debug assertion holds of components that are nearly those of a vector of norm
    one. -/
theorem isUnit_of_off {u : Quaternion (Rounded R)} {r : Quaternion ℝ} (hr : r.normSq = 1)
    (hw : Off 1 21 u.w r.w) (hx : Off 1 21 u.x r.x) (hy : Off 1 21 u.y r.y)
    (hz : Off 1 21 u.z r.z) : u.isUnit = true := by
  have hfinite : ∀ v ∈ u.toList, Finite64 v := by
    simp only [Quaternion.toList, List.forall_mem_cons, List.not_mem_nil, false_imp_iff,
      implies_true, and_true]
    exact ⟨hw.finite64, hx.finite64, hy.finite64, hz.finite64⟩
  have hnear := abs_normSq_sub_one_le hr hw hx hy hz
  rcases exists_norm_near_one hR hfinite hnear with ⟨n, hasn, hn, hoff⟩
  exact isUnit_of_norm hR hn hoff

end Unit

/-- Numbers that are finite, with an attitude whose exact squared norm is between
    `2 ^ -900` and `2 ^ 900`, are accepted. The debug assertion holds, the attitude is
    stored as near to the exact one, up to its sign, as rounding to integers allows, and
    the norm of what is stored is off by at most one. -/
theorem canonicalize_normalized (hR : R.Near) (raw : PhysicalObservation (Rounded R))
    (hposition : ∀ i, Finite64 (raw.positionM.get i))
    (hvelocity : ∀ i, Finite64 (raw.velocityMs.get i))
    (hattitude : ∀ v ∈ raw.attitude.toList, Finite64 v)
    (hrange : InRange (raw.attitude.map value).normSq) :
    ∃ u s, raw.attitude.canonicalized = .ok u ∧ u.isUnit = true ∧
      CanonicalState.canonicalize raw = .ok s ∧ s.attitude.InBand ∧
      ∃ a : ℝ, |a| = 1 ∧ s.attitude.Stores
        ((raw.attitude.map value).scale (a / √(raw.attitude.map value).normSq)) := by
  rcases off_canonicalized hR hrange hattitude rfl with ⟨f, a, ha, hu, hoff⟩
  have hunit : ((raw.attitude.map value).scale
      (a / √(raw.attitude.map value).normSq)).normSq = 1 := by
    rw [Quaternion.normSq_scale, div_pow, Real.sq_sqrt hrange.pos.le, ← sq_abs, ha, one_pow,
      one_div_mul_cancel hrange.pos.ne']
  have hcomponent {c : ℝ} (hc : c ∈ ((raw.attitude.map value).scale
      (a / √(raw.attitude.map value).normSq)).toList) : |c| ≤ 1 := Quaternion.abs_le_one hunit hc
  simp only [Quaternion.toList, List.forall_mem_cons] at hoff
  rcases hoff with ⟨hw, hx, hy, hz, _⟩
  simp only [Quaternion.toList, List.mem_cons, List.not_mem_nil, or_false] at hcomponent
  have hstores : (raw.attitude.map f).toCanonical.Stores ((raw.attitude.map value).scale
      (a / √(raw.attitude.map value).normSq)) :=
    ⟨abs_stored_sub_le hR hw (hcomponent (Or.inl rfl)),
      abs_stored_sub_le hR hx (hcomponent (Or.inr (Or.inl rfl))),
      abs_stored_sub_le hR hy (hcomponent (Or.inr (Or.inr (Or.inl rfl)))),
      abs_stored_sub_le hR hz (hcomponent (Or.inr (Or.inr (Or.inr rfl))))⟩
  refine ⟨raw.attitude.map f, _, hu, isUnit_of_off hR hunit hw hx hy hz,
    (CanonicalState.canonicalize_eq_ok_iff raw _).mpr
      ⟨hposition, hvelocity, raw.attitude.map f, hu, rfl⟩, hstores.inBand hunit, a, ha, hstores⟩

/-- The attitude of norm five that turns about the first axis. -/
def banked : PhysicalObservation (Rounded R) :=
  { positionM := Vector.replicate 3 (finite 0 R.has_zero)
    velocityMs := Vector.replicate 3 (finite 0 R.has_zero)
    attitude := ⟨finite ((3 : ℤ) : ℝ) (R.has_int 3 (by norm_num)),
      finite ((4 : ℤ) : ℝ) (R.has_int 4 (by norm_num)), finite 0 R.has_zero, finite 0 R.has_zero⟩
    observedAtNanos := 7 }

theorem finite_replicate (i : Fin 3) :
    Finite64 ((Vector.replicate 3 (finite 0 R.has_zero : Rounded R)).get i) := by
  have hget : (Vector.replicate 3 (finite 0 R.has_zero : Rounded R)).get i =
      finite 0 R.has_zero := Vector.getElem_replicate i.isLt
  rw [hget]
  exact finite64_finite 0 R.has_zero

theorem finite_banked : ∀ v ∈ (banked : PhysicalObservation (Rounded R)).attitude.toList,
    Finite64 v := by
  intro v hv
  simp only [banked, Quaternion.toList, List.mem_cons, List.not_mem_nil, or_false] at hv
  rcases hv with rfl | rfl | rfl | rfl <;> exact finite64_finite _ _

theorem inRange_banked :
    InRange ((banked : PhysicalObservation (Rounded R)).attitude.map value).normSq := by
  have hsum : ((banked : PhysicalObservation (Rounded R)).attitude.map value).normSq = 25 := by
    change ((3 : ℤ) : ℝ) * ((3 : ℤ) : ℝ) + ((4 : ℤ) : ℝ) * ((4 : ℤ) : ℝ) + 0 * 0 + 0 * 0 = 25
    norm_num
  have hpow : (2 : ℝ) ^ 5 ≤ 2 ^ 900 := pow_le_pow_right₀ one_le_two (by norm_num)
  rw [hsum]
  exact ⟨inRange_one.1.trans (by norm_num), le_trans (by norm_num) hpow⟩

/-- In the format of `f64`. -/
theorem canonicalize_normalized_banked :
    ∃ u s, (banked : PhysicalObservation (Rounded Rounder.binary64)).attitude.canonicalized =
        .ok u ∧ u.isUnit = true ∧
      CanonicalState.canonicalize (banked : PhysicalObservation (Rounded Rounder.binary64)) =
        .ok s ∧ s.attitude.InBand := by
  rcases canonicalize_normalized near_binary64 banked finite_replicate finite_replicate
    finite_banked inRange_banked with ⟨u, s, hu, hunit, hs, hband, _⟩
  exact ⟨u, s, hu, hunit, hs, hband⟩

/-- Storing a canonical state again changes nothing, and a state that is read back as an
    observation keeps its time and all coordinates of up to 49 bits. -/
theorem canonicalize_stored (hR : R.Near) (raw : PhysicalObservation (Rounded R))
    (s : CanonicalState) (h : CanonicalState.canonicalize raw = .ok s) :
    s.recanonicalize (Rounded R) = .ok s ∧
      ∀ s', CanonicalState.canonicalize (s.dequantized (Rounded R)) = .ok s' →
        (∀ i, |(s.positionMm.get i).toInt| ≤ 2 ^ 49 → s'.positionMm.get i = s.positionMm.get i) ∧
          (∀ i, |(s.velocityMms.get i).toInt| ≤ 2 ^ 49 →
            s'.velocityMms.get i = s.velocityMms.get i) ∧
          s'.observedAtNanos = s.observedAtNanos := by
  rcases (CanonicalState.canonicalize_eq_ok_iff raw s).mp h with ⟨_, _, u, hu, hs⟩
  constructor
  · have hcomponents := exists_canonicalized hR hu
    have hagain : ∀ v ∈ u.toList, quantize (dequantize (Rounded R)
        (quantize v Scale.quaternion) Scale.quaternion) Scale.quaternion =
          quantize v Scale.quaternion := by
      intro v hv
      rcases hcomponents v hv with ⟨y, has, rfl, hy⟩
      exact quantize_dequantize hR (by decide) (by decide) (abs_quantize_le hR has hy)
    simp only [Quaternion.toList, List.forall_mem_cons] at hagain
    rcases hagain with ⟨hw, hx, hy, hz, _⟩
    rw [hs]
    unfold CanonicalState.recanonicalize Quaternion.toCanonical
    simp only [hw, hx, hy, hz]
  · intro s' h'
    rcases (CanonicalState.canonicalize_eq_ok_iff _ s').mp h' with ⟨_, _, u', _, hs'⟩
    have hvector (v : Vector Int64 3) (scale : Int64) (hscale : 0 < scale.toInt)
        (hsmall : scale.toInt ≤ 10 ^ 6) (i : Fin 3) (hi : |(v.get i).toInt| ≤ 2 ^ 49) :
        ((v.map (dequantize (Rounded R) · scale)).map (quantize · scale)).get i = v.get i := by
      change ((v.map (dequantize (Rounded R) · scale)).map (quantize · scale))[(i : Nat)] = _
      rw [Vector.getElem_map, Vector.getElem_map]
      exact quantize_dequantize hR hscale hsmall hi
    rw [hs']
    exact ⟨fun i => hvector s.positionMm Scale.position (by decide) (by decide) i,
      fun i => hvector s.velocityMms Scale.velocity (by decide) (by decide) i, rfl⟩

/-- The state that the format of `f64` makes of an observation. -/
theorem canonicalize_stored_banked :
    ∃ s, CanonicalState.canonicalize (banked : PhysicalObservation (Rounded Rounder.binary64)) =
        .ok s ∧ s.recanonicalize (Rounded (Rounder.binary64 : Rounder ℝ)) = .ok s := by
  rcases off_canonicalized near_binary64 inRange_banked finite_banked rfl with ⟨f, a, _, hu, _⟩
  have hs := (CanonicalState.canonicalize_eq_ok_iff
    (banked : PhysicalObservation (Rounded Rounder.binary64)) _).mpr
      ⟨finite_replicate, finite_replicate, _, hu, rfl⟩
  exact ⟨_, hs, (canonicalize_stored near_binary64 banked _ hs).1⟩

end Rounded

end Seven
