import Mathlib.Algebra.Order.Floor.Ring
import Mathlib.Algebra.Order.Round
import Mathlib.Analysis.InnerProductSpace.PiL2
import Mathlib.Data.Int.Log
import Mathlib.Tactic.Linarith

/-!
# Rounding to Nearest Integers

A number is rounded to the nearest integer, and to the even one of two that are
equally near. The error is at most one half (`abs_nearestEven_sub_le`), which is
all that most facts about rounding need: an integer nearer than one half is the
result, an integer bound of a number is a bound of the result.

Rounding forgets numbers of at most one half, and keeps the sign of the others.
So the first nonzero number of a list and the first nonzero number after rounding
may stand at different places; `leading_map` says which number the second one
comes from.

A vector that is rounded in every coordinate moves by at most half the square root
of its dimension, so its length changes by no more than that.

A binary format with `p` digits, of which the last one stands no lower than at the
exponent `emin`, rounds a number to a multiple of a place that its size decides. This
is monotone too. Inside of a binade it is because rounding to integers is, and the
place is the same; two numbers of different binades are separated by a power of two,
which is a value of the format on both sides.

## Main definitions

* `nearestEven`: Rounding half to even.
* `WithinHalf`: What every rounding to a nearest integer satisfies.
* `leading`: The first nonzero element of a list.
* `lastPlace`: The exponent of the last digit in a format.
* `toFormat`, `Representable`: Rounding to a format, and its values.

## Theorems

* `abs_nearestEven_sub_le`: The error of rounding.
* `nearestEven_eq_of_abs_sub_lt`: What is nearer than one half is the result.
* `nearestEven_pos_iff`, `nearestEven_eq_zero_iff`: The sign of the result.
* `leading_map`, `leading_map_of_iff`: The first nonzero element after a map.
* `nearestEven_div_sqrt`: Rounding a quotient by a root.
* `abs_norm_sub_norm_le_of_near`: The length of a rounded vector.
* `toFormat_of_representable`: Values of a format are left alone.
* `representable_toFormat`: Rounding leads to a value of the format.
* `abs_toFormat_sub_le`: The error of rounding to a format.
* `toFormat_mono`: Rounding to a format is monotone.
-/

namespace Rounding

section NearestEven

variable {K : Type*} [Field K] [LinearOrder K] [FloorRing K]

/-- The nearest integer, and of two that are equally near the even one. -/
def nearestEven (x : K) : ℤ :=
  if Int.fract x < 1 / 2 then ⌊x⌋
  else if 1 / 2 < Int.fract x then ⌊x⌋ + 1
  else ⌊x⌋ + ⌊x⌋ % 2

/-- Off by at most one half. -/
def WithinHalf (n : ℤ) (x : K) : Prop :=
  |(n : K) - x| ≤ 1 / 2

variable [IsStrictOrderedRing K]

/-- The error is at most one half. -/
theorem abs_nearestEven_sub_le (x : K) : |(nearestEven x : K) - x| ≤ 1 / 2 := by
  have hx := Int.floor_add_fract x
  have hnonneg := Int.fract_nonneg x
  have hlt := Int.fract_lt_one x
  unfold nearestEven
  rw [abs_le]
  by_cases hlow : Int.fract x < 1 / 2
  · rw [if_pos hlow]
    constructor <;> linarith
  · rw [if_neg hlow]
    by_cases hhigh : 1 / 2 < Int.fract x
    · rw [if_pos hhigh, Int.cast_add, Int.cast_one]
      constructor <;> linarith
    · rw [if_neg hhigh, Int.cast_add]
      -- In the middle the floor is left alone or raised by one.
      rcases Int.emod_two_eq_zero_or_one ⌊x⌋ with hpar | hpar
      · rw [hpar, Int.cast_zero]
        constructor <;> linarith
      · rw [hpar, Int.cast_one]
        constructor <;> linarith

/-- Two integers less than one apart are the same. -/
theorem eq_of_abs_cast_sub_lt_one {m n : ℤ} (h : |(m : K) - n| < 1) : m = n := by
  have hcast : ((|m - n| : ℤ) : K) < ((1 : ℤ) : K) := by
    rwa [Int.cast_abs, Int.cast_sub, Int.cast_one]
  have hlt := abs_lt.mp (Int.cast_lt.mp hcast)
  omega

/-- An integer nearer than one half is the result. -/
theorem nearestEven_eq_of_abs_sub_lt {x : K} {n : ℤ} (h : |x - n| < 1 / 2) : nearestEven x = n := by
  refine eq_of_abs_cast_sub_lt_one (K := K) ?_
  calc |(nearestEven x : K) - n| = |((nearestEven x : K) - x) + (x - n)| := by
        rw [sub_add_sub_cancel]
    _ ≤ |(nearestEven x : K) - x| + |x - n| := abs_add_le _ _
    _ < 1 := by linarith [abs_nearestEven_sub_le x]

@[simp] theorem nearestEven_intCast (n : ℤ) : nearestEven (n : K) = n := by
  refine nearestEven_eq_of_abs_sub_lt ?_
  rw [sub_self, abs_zero]
  exact one_half_pos

/-- An integer lower bound is one of the result. -/
theorem le_nearestEven {x : K} {n : ℤ} (h : (n : K) ≤ x) : n ≤ nearestEven x := by
  have herr := abs_le.mp (abs_nearestEven_sub_le x)
  have hlt : (n : K) < ((nearestEven x + 1 : ℤ) : K) := by
    rw [Int.cast_add, Int.cast_one]
    linarith
  have := Int.cast_lt.mp hlt
  omega

/-- An integer upper bound is one of the result. -/
theorem nearestEven_le {x : K} {n : ℤ} (h : x ≤ (n : K)) : nearestEven x ≤ n := by
  have herr := abs_le.mp (abs_nearestEven_sub_le x)
  have hlt : (nearestEven x : K) < ((n + 1 : ℤ) : K) := by
    rw [Int.cast_add, Int.cast_one]
    linarith
  have := Int.cast_lt.mp hlt
  omega

/-- The middle between two integers goes to the even one. -/
theorem nearestEven_add_half (n : ℤ) : nearestEven ((n : K) + 1 / 2) = n + n % 2 := by
  have hhalf : Int.fract (1 / 2 : K) = 1 / 2 :=
    Int.fract_eq_self.mpr ⟨one_half_pos.le, one_half_lt_one⟩
  have hfloor : ⌊(1 / 2 : K)⌋ = 0 := Int.floor_eq_zero_iff.mpr ⟨one_half_pos.le, one_half_lt_one⟩
  unfold nearestEven
  rw [Int.fract_intCast_add, hhalf, if_neg (lt_irrefl _), if_neg (lt_irrefl _),
    Int.floor_intCast_add, hfloor, add_zero]

/-- The nearest integer is less than one half away, or the number is in the middle
    between two integers. -/
theorem abs_sub_nearestEven_lt_or (x : K) :
    |x - nearestEven x| < 1 / 2 ∨ ∃ n : ℤ, x = n + 1 / 2 := by
  rcases (abs_nearestEven_sub_le x).lt_or_eq with hlt | heq
  · left
    rwa [abs_sub_comm]
  · right
    rcases (abs_eq one_half_pos.le).mp heq with heq | heq
    · refine ⟨nearestEven x - 1, ?_⟩
      rw [Int.cast_sub, Int.cast_one]
      linarith
    · exact ⟨nearestEven x, by linarith⟩

theorem nearestEven_neg (x : K) : nearestEven (-x) = -nearestEven x := by
  rcases abs_sub_nearestEven_lt_or x with hlt | ⟨n, rfl⟩
  · refine nearestEven_eq_of_abs_sub_lt ?_
    rwa [Int.cast_neg, ← neg_sub', abs_neg]
  · -- In the middle, both sides are even.
    have hneg : -((n : K) + 1 / 2) = ((-n - 1 : ℤ) : K) + 1 / 2 := by
      rw [Int.cast_sub, Int.cast_neg, Int.cast_one]
      linarith
    rw [hneg, nearestEven_add_half, nearestEven_add_half]
    omega

/-- Exactly the numbers above one half round to a positive integer. -/
theorem nearestEven_pos_iff (x : K) : 0 < nearestEven x ↔ 1 / 2 < x := by
  constructor
  · intro hpos
    by_contra hle
    rw [not_lt] at hle
    rcases hle.lt_or_eq with hlt | rfl
    · have herr := abs_le.mp (abs_nearestEven_sub_le x)
      have hone : ((1 : ℤ) : K) ≤ (nearestEven x : K) := Int.cast_le.mpr (by omega)
      rw [Int.cast_one] at hone
      linarith
    · have hmid := nearestEven_add_half (K := K) 0
      rw [Int.cast_zero, zero_add] at hmid
      rw [hmid] at hpos
      omega
  · intro hlt
    by_contra hle
    have herr := abs_le.mp (abs_nearestEven_sub_le x)
    have hzero : (nearestEven x : K) ≤ ((0 : ℤ) : K) := Int.cast_le.mpr (by omega)
    rw [Int.cast_zero] at hzero
    linarith

/-- Exactly the numbers of at most one half are forgotten. -/
theorem nearestEven_eq_zero_iff (x : K) : nearestEven x = 0 ↔ |x| ≤ 1 / 2 := by
  have hpos := nearestEven_pos_iff x
  have hneg := nearestEven_pos_iff (-x)
  rw [nearestEven_neg] at hneg
  rw [abs_le, ← not_lt, ← not_lt, ← hpos, ← neg_lt_neg_iff, neg_neg, ← hneg]
  omega

@[simp] theorem nearestEven_zero : nearestEven (0 : K) = 0 := by
  rw [nearestEven_eq_zero_iff, abs_zero]
  exact one_half_pos.le

end NearestEven

section Leading

variable {α β : Type*} [Zero α] [DecidableEq α] [Zero β] [DecidableEq β]

/-- The first nonzero element, and zero where there is none. -/
def leading : List α → α
  | [] => 0
  | x :: xs => if x = 0 then leading xs else x

theorem leading_eq_zero_iff {xs : List α} : leading xs = 0 ↔ ∀ x ∈ xs, x = 0 := by
  induction xs with
  | nil => simp only [leading, List.not_mem_nil, false_imp_iff, implies_true]
  | cons x xs ih =>
      rw [leading, List.forall_mem_cons]
      by_cases hx : x = 0
      · rw [if_pos hx, ih, and_iff_right hx]
      · rw [if_neg hx]
        exact ⟨fun h => absurd h hx, fun h => absurd h.1 hx⟩

theorem leading_mem {xs : List α} (h : leading xs ≠ 0) : leading xs ∈ xs := by
  induction xs with
  | nil => exact absurd rfl h
  | cons x xs ih =>
      rw [leading] at h ⊢
      by_cases hx : x = 0
      · rw [if_pos hx] at h ⊢
        exact List.mem_cons_of_mem _ (ih h)
      · rw [if_neg hx]
        exact List.mem_cons_self

/-- The first nonzero element after a map comes from the first one that the map
    does not send to zero. -/
theorem leading_map (f : α → β) (hf : f 0 = 0) (xs : List α) :
    leading (xs.map f) = f (leading (xs.filter fun x => f x ≠ 0)) := by
  induction xs with
  | nil => exact hf.symm
  | cons x xs ih =>
      rw [List.map_cons, leading]
      by_cases hx : f x = 0
      · rw [if_pos hx, List.filter_cons_of_neg (by simpa using hx), ih]
      · have hne : x ≠ 0 := fun h => hx (by rw [h, hf])
        rw [if_neg hx, List.filter_cons_of_pos (by simpa using hx), leading, if_neg hne]

/-- A map that sends nothing else to zero keeps the first nonzero element. -/
theorem leading_map_of_iff (f : α → β) (hf : ∀ x, f x = 0 ↔ x = 0) (xs : List α) :
    leading (xs.map f) = f (leading xs) := by
  induction xs with
  | nil => exact ((hf 0).mpr rfl).symm
  | cons x xs ih =>
      rw [List.map_cons, leading, leading, ih]
      by_cases hx : x = 0
      · rw [if_pos hx, if_pos ((hf x).mpr hx)]
      · rw [if_neg hx, if_neg (fun h => hx ((hf x).mp h))]

end Leading

/-- A quotient by a root rounds to an integer when the squares say so. -/
theorem nearestEven_div_sqrt {N c : ℝ} {n : ℤ} (hN : 0 < N) (hc : 0 < c)
    (hlow : ((n : ℝ) - 1 / 2) ^ 2 * N < c ^ 2) (hn : 0 < n)
    (hhigh : c ^ 2 < ((n : ℝ) + 1 / 2) ^ 2 * N) : nearestEven (c / √N) = n := by
  have hroot : 0 < √N := Real.sqrt_pos.mpr hN
  have hn' : (1 : ℝ) ≤ n := Int.cast_one_le_of_pos hn
  have hlow' : ((n : ℝ) - 1 / 2) * √N < c := by
    refine lt_of_pow_lt_pow_left₀ 2 hc.le ?_
    rwa [mul_pow, Real.sq_sqrt hN.le]
  have hhigh' : c < ((n : ℝ) + 1 / 2) * √N := by
    refine lt_of_pow_lt_pow_left₀ 2 (by positivity) ?_
    rwa [mul_pow, Real.sq_sqrt hN.le]
  rw [← lt_div_iff₀ hroot] at hlow'
  rw [← div_lt_iff₀ hroot] at hhigh'
  refine nearestEven_eq_of_abs_sub_lt ?_
  rw [abs_lt]
  constructor <;> linarith

/-- A vector that moves a little in every coordinate keeps its length up to the square
    root of its dimension times as much. -/
theorem abs_norm_sub_norm_le_mul {ι : Type*} [Fintype ι] {v w : EuclideanSpace ℝ ι} {ε : ℝ}
    (hε : 0 ≤ ε) (h : ∀ i, |w i - v i| ≤ ε) : |‖w‖ - ‖v‖| ≤ √(Fintype.card ι) * ε := by
  refine (abs_norm_sub_norm_le w v).trans ?_
  have hsq : ‖w - v‖ ^ 2 ≤ (√(Fintype.card ι) * ε) ^ 2 := by
    rw [EuclideanSpace.norm_sq_eq, mul_pow, Real.sq_sqrt (Nat.cast_nonneg _)]
    calc ∑ i, ‖(w - v) i‖ ^ 2 ≤ ∑ _i : ι, ε ^ 2 := by
          refine Finset.sum_le_sum fun i _ => ?_
          exact pow_le_pow_left₀ (norm_nonneg _) (h i) 2
      _ = (Fintype.card ι : ℝ) * ε ^ 2 := by
          rw [Finset.sum_const, Finset.card_univ, nsmul_eq_mul]
  exact (sq_le_sq₀ (norm_nonneg _) (by positivity)).mp hsq

/-- A vector that is rounded in every coordinate keeps its length up to half the
    square root of its dimension. -/
theorem abs_norm_sub_norm_le_of_near {ι : Type*} [Fintype ι] {v w : EuclideanSpace ℝ ι}
    (h : ∀ i, |w i - v i| ≤ 1 / 2) : |‖w‖ - ‖v‖| ≤ √(Fintype.card ι) / 2 := by
  rw [← mul_one_div]
  exact abs_norm_sub_norm_le_mul one_half_pos.le h

section Formats

variable {K : Type*} [Field K] [LinearOrder K] [IsStrictOrderedRing K] [FloorRing K]

theorem nearestEven_mono {x y : K} (h : x ≤ y) : nearestEven x ≤ nearestEven y := by
  have hx := abs_le.mp (abs_nearestEven_sub_le x)
  have hy := abs_le.mp (abs_nearestEven_sub_le y)
  by_contra hlt
  have hstep : (nearestEven y : K) + 1 ≤ nearestEven x := by
    have hint : nearestEven y + 1 ≤ nearestEven x := by omega
    rw [← Int.cast_one, ← Int.cast_add]
    exact Int.cast_le.mpr hint
  -- They are one apart, so both errors are one half and the numbers are one.
  have heq : x = y := by linarith
  rw [heq] at hlt
  exact hlt le_rfl

variable (p : ℕ) (emin : ℤ)

/-- The exponent of the last digit. -/
def lastPlace (x : K) : ℤ :=
  max (Int.log 2 |x| + 1 - p) emin

/-- Rounding to the nearest multiple of the last place. -/
def toFormat (x : K) : K :=
  nearestEven (x / 2 ^ lastPlace p emin x) * 2 ^ lastPlace p emin x

/-- The values with `p` digits. -/
def Representable (x : K) : Prop :=
  ∃ (m k : ℤ), |m| < 2 ^ p ∧ emin ≤ k ∧ x = m * 2 ^ k

variable {p emin}

theorem two_zpow_pos (k : ℤ) : (0 : K) < 2 ^ k :=
  zpow_pos two_pos k

theorem abs_two_zpow (k : ℤ) : |(2 : K) ^ k| = 2 ^ k :=
  abs_of_pos (two_zpow_pos k)

omit [FloorRing K] in
/-- A power of two that is not below a place is a multiple of it. -/
theorem two_zpow_eq {j k : ℤ} (h : j ≤ k) :
    (2 : K) ^ k = ((2 ^ (k - j).toNat : ℤ) : K) * 2 ^ j := by
  rw [Int.cast_pow, Int.cast_ofNat, ← zpow_natCast, Int.toNat_of_nonneg (by omega),
    ← zpow_add₀ two_ne_zero, sub_add_cancel]

/-- A multiple of the last place is left alone. -/
theorem toFormat_of_multiple {x : K} {n : ℤ} (h : x = n * 2 ^ lastPlace p emin x) :
    toFormat p emin x = x := by
  have hdiv : x / 2 ^ lastPlace p emin x = n := by
    rw [div_eq_iff (two_zpow_pos _).ne']
    exact h
  rw [toFormat, hdiv, nearestEven_intCast, ← h]

omit [FloorRing K] in
/-- One more digit that is zero. -/
theorem representable_of_le (hp : 0 < p) {m k : ℤ} (hm : |m| ≤ 2 ^ p) (hk : emin ≤ k) :
    Representable p emin ((m : K) * 2 ^ k) := by
  rcases hm.lt_or_eq with hlt | heq
  · exact ⟨m, k, hlt, hk, rfl⟩
  · -- The digits are a one and zeros.
    rcases Nat.exists_eq_add_of_lt hp with ⟨q, hq⟩
    have hpow : (2 : ℤ) ^ p = 2 ^ q * 2 := by rw [hq, Nat.zero_add, pow_succ]
    have hlt : (2 : ℤ) ^ q < 2 ^ p := by
      rw [hpow]
      exact lt_mul_of_one_lt_right (pow_pos two_pos q) one_lt_two
    have hval (n : ℤ) (hn : m = n * 2) : (m : K) * 2 ^ k = (n : K) * 2 ^ (k + 1) := by
      rw [hn, Int.cast_mul, Int.cast_ofNat, zpow_add_one₀ two_ne_zero, mul_assoc, mul_comm (2 : K)]
    rcases abs_eq (pow_pos two_pos p).le |>.mp heq with hpos | hneg
    · refine ⟨2 ^ q, k + 1, ?_, by omega, hval _ (by rw [hpos, hpow])⟩
      rwa [abs_of_pos (pow_pos two_pos q)]
    · refine ⟨-2 ^ q, k + 1, ?_, by omega, hval _ (by rw [hneg, hpow, neg_mul])⟩
      rwa [abs_neg, abs_of_pos (pow_pos two_pos q)]

/-- Values of the format are left alone. -/
theorem toFormat_of_representable {x : K} (h : Representable p emin x) :
    toFormat p emin x = x := by
  rcases h with ⟨m, k, hm, hk, hx⟩
  by_cases hzero : x = 0
  · exact toFormat_of_multiple (n := 0) (by rw [Int.cast_zero, zero_mul, hzero])
  · -- The number has at most as many digits as its last place allows.
    have hsize : |x| < ((2 : ℕ) : K) ^ ((p : ℤ) + k) := by
      rw [hx, abs_mul, abs_two_zpow, zpow_add₀ (by norm_num), Nat.cast_ofNat,
        zpow_natCast]
      refine mul_lt_mul_of_pos_right ?_ (two_zpow_pos k)
      rw [← Int.cast_abs, ← Int.cast_ofNat, ← Int.cast_pow]
      exact Int.cast_lt.mpr hm
    have hlog := (Int.lt_zpow_iff_log_lt one_lt_two (abs_pos.mpr hzero)).mp hsize
    have hplace : lastPlace p emin x ≤ k := max_le (by omega) hk
    refine toFormat_of_multiple (n := m * 2 ^ (k - lastPlace p emin x).toNat) ?_
    rw [Int.cast_mul, mul_assoc, ← two_zpow_eq hplace]
    exact hx

/-- A number has `p` digits down to its last place. -/
theorem abs_div_lastPlace_lt (x : K) : |x / 2 ^ lastPlace p emin x| < ((2 ^ p : ℤ) : K) := by
  have hsize := Int.lt_zpow_succ_log_self one_lt_two |x|
  rw [abs_div, abs_two_zpow, div_lt_iff₀ (two_zpow_pos _), Int.cast_pow,
    Int.cast_ofNat, ← zpow_natCast, ← zpow_add₀ two_ne_zero]
  refine hsize.trans_le ?_
  rw [Nat.cast_ofNat]
  refine zpow_le_zpow_right₀ one_le_two ?_
  have hplace : Int.log 2 |x| + 1 - p ≤ lastPlace p emin x := le_max_left _ _
  omega

/-- Rounding leads to a value of the format. -/
theorem representable_toFormat (hp : 0 < p) (x : K) :
    Representable p emin (toFormat p emin x) := by
  have hsize : -((2 ^ p : ℤ) : K) < x / 2 ^ lastPlace p emin x ∧ _ < ((2 ^ p : ℤ) : K) :=
    abs_lt.mp (abs_div_lastPlace_lt x)
  refine representable_of_le hp (abs_le.mpr ⟨le_nearestEven ?_, nearestEven_le hsize.2.le⟩)
    (le_max_right _ _)
  rw [Int.cast_neg]
  exact hsize.1.le

/-- No value but zero is smaller than the last place of all. -/
theorem Representable.le_abs {x : K} (h : Representable p emin x) (hx : x ≠ 0) :
    2 ^ emin ≤ |x| := by
  rcases h with ⟨m, k, _, hk, rfl⟩
  have hm : m ≠ 0 := by
    rintro rfl
    rw [Int.cast_zero, zero_mul] at hx
    exact hx rfl
  have hone : (1 : K) ≤ |(m : K)| := by
    rw [← Int.cast_abs, ← Int.cast_one]
    exact Int.cast_le.mpr (Int.one_le_abs hm)
  rw [abs_mul, abs_two_zpow]
  calc (2 : K) ^ emin ≤ 2 ^ k := zpow_le_zpow_right₀ one_le_two hk
    _ ≤ |(m : K)| * 2 ^ k := le_mul_of_one_le_left (two_zpow_pos k).le hone

/-- The error is at most half a unit in the last place of the number, or half of the last
    place of all. -/
theorem abs_toFormat_sub_le (x : K) :
    |toFormat p emin x - x| ≤ |x| * 2 ^ (-(p : ℤ)) + 2 ^ (emin - 1) := by
  by_cases hzero : x = 0
  · rw [hzero, toFormat_of_multiple (n := 0) (by rw [Int.cast_zero, zero_mul]), sub_zero, abs_zero,
      zero_mul, zero_add]
    exact (two_zpow_pos _).le
  · have hplace := two_zpow_pos (K := K) (lastPlace p emin x)
    have hmove : toFormat p emin x - x =
        (nearestEven (x / 2 ^ lastPlace p emin x) - x / 2 ^ lastPlace p emin x) *
          2 ^ lastPlace p emin x := by
      rw [sub_mul, div_mul_cancel₀ _ hplace.ne', toFormat]
    have hhalf := mul_le_mul_of_nonneg_right
      (abs_nearestEven_sub_le (x / 2 ^ lastPlace p emin x)) hplace.le
    rw [hmove, abs_mul, abs_two_zpow]
    refine hhalf.trans ?_
    -- The last place is that of the number, or the last place of all.
    have hlog : (2 : K) ^ (Int.log 2 |x| + 1 - p) ≤ 2 * (|x| * 2 ^ (-(p : ℤ))) := by
      have hle := Int.zpow_log_le_self one_lt_two (abs_pos.mpr hzero)
      rw [Nat.cast_ofNat] at hle
      rw [sub_eq_add_neg, zpow_add₀ two_ne_zero, zpow_add_one₀ two_ne_zero, mul_comm _ (2 : K),
        mul_assoc]
      exact mul_le_mul_of_nonneg_left (mul_le_mul_of_nonneg_right hle (two_zpow_pos _).le)
        two_pos.le
    have hemin : (2 : K) ^ emin = 2 * 2 ^ (emin - 1) := by
      rw [← zpow_one_add₀ two_ne_zero]
      congr 1
      omega
    have hpos := two_zpow_pos (K := K) (emin - 1)
    have hnonneg : 0 ≤ |x| * 2 ^ (-(p : ℤ)) := mul_nonneg (abs_nonneg x) (two_zpow_pos _).le
    rcases max_choice (Int.log 2 |x| + 1 - p) emin with hmax | hmax <;>
      rw [lastPlace, hmax] <;> linarith

omit [IsStrictOrderedRing K] in
theorem lastPlace_neg (x : K) : lastPlace p emin (-x) = lastPlace p emin x := by
  rw [lastPlace, lastPlace, abs_neg]

theorem toFormat_neg (x : K) : toFormat p emin (-x) = -toFormat p emin x := by
  rw [toFormat, toFormat, lastPlace_neg, neg_div, nearestEven_neg, Int.cast_neg, neg_mul]

/-- A multiple of the last place below a number is below the rounded number. -/
theorem le_toFormat {x b : K} {n : ℤ} (hb : b = n * 2 ^ lastPlace p emin x) (h : b ≤ x) :
    b ≤ toFormat p emin x := by
  rw [hb, toFormat]
  refine mul_le_mul_of_nonneg_right (Int.cast_le.mpr (le_nearestEven ?_)) (two_zpow_pos _).le
  rw [le_div_iff₀ (two_zpow_pos _), ← hb]
  exact h

theorem toFormat_le {x b : K} {n : ℤ} (hb : b = n * 2 ^ lastPlace p emin x) (h : x ≤ b) :
    toFormat p emin x ≤ b := by
  rw [hb, toFormat]
  refine mul_le_mul_of_nonneg_right (Int.cast_le.mpr (nearestEven_le ?_)) (two_zpow_pos _).le
  rw [div_le_iff₀ (two_zpow_pos _), ← hb]
  exact h

theorem toFormat_nonneg {x : K} (h : 0 ≤ x) : 0 ≤ toFormat p emin x :=
  le_toFormat (n := 0) (by rw [Int.cast_zero, zero_mul]) h

/-- Rounding is monotone on positive numbers. -/
theorem toFormat_mono_of_pos (hp : 0 < p) {x y : K} (hx : 0 < x) (h : x ≤ y) :
    toFormat p emin x ≤ toFormat p emin y := by
  have hy := hx.trans_le h
  have hlog : Int.log 2 |x| ≤ Int.log 2 |y| := by
    rw [abs_of_pos hx, abs_of_pos hy]
    exact Int.log_mono_right hx h
  have hplace : lastPlace p emin x ≤ lastPlace p emin y := max_le_max (by omega) le_rfl
  rcases hplace.lt_or_eq with hlt | heq
  · -- Between numbers of different binades there is a power of two.
    have hemin : emin ≤ lastPlace p emin x := le_max_right _ _
    have hxplace : Int.log 2 |x| + 1 - p ≤ lastPlace p emin x := le_max_left _ _
    have hyplace : lastPlace p emin y = Int.log 2 |y| + 1 - p := by
      rcases max_choice (Int.log 2 |y| + 1 - p) emin with hmax | hmax
      · exact hmax
      · rw [lastPlace, lastPlace, hmax] at hlt
        exact absurd (le_max_right _ _) hlt.not_ge
    have hxb : x ≤ (2 : K) ^ (lastPlace p emin y + p - 1) := by
      have hsize := (Int.lt_zpow_iff_log_lt one_lt_two hx).mpr
        (show Int.log 2 x < lastPlace p emin y + p - 1 by rw [abs_of_pos hx] at hxplace; omega)
      rw [Nat.cast_ofNat] at hsize
      exact hsize.le
    have hby : (2 : K) ^ (lastPlace p emin y + p - 1) ≤ y := by
      have hsize := (Int.zpow_le_iff_le_log one_lt_two hy).mpr
        (show lastPlace p emin y + p - 1 ≤ Int.log 2 y by rw [abs_of_pos hy] at hyplace; omega)
      rwa [Nat.cast_ofNat] at hsize
    exact (toFormat_le (two_zpow_eq (by omega)) hxb).trans
      (le_toFormat (two_zpow_eq (by omega)) hby)
  · rw [toFormat, toFormat, heq]
    refine mul_le_mul_of_nonneg_right (Int.cast_le.mpr (nearestEven_mono ?_)) (two_zpow_pos _).le
    exact div_le_div_of_nonneg_right h (two_zpow_pos _).le

/-- Rounding is monotone. -/
theorem toFormat_mono (hp : 0 < p) : Monotone (toFormat p emin : K → K) := by
  intro x y h
  rcases lt_trichotomy x 0 with hneg | hzero | hpos
  · rcases lt_or_ge y 0 with hy | hy
    · have hmono : toFormat p emin (-y) ≤ toFormat p emin (-x) :=
        toFormat_mono_of_pos hp (neg_pos.mpr hy) (neg_le_neg h)
      rwa [toFormat_neg, toFormat_neg, neg_le_neg_iff] at hmono
    · have hx : 0 ≤ toFormat p emin (-x) := toFormat_nonneg (neg_nonneg.mpr hneg.le)
      rw [toFormat_neg, neg_nonneg] at hx
      exact hx.trans (toFormat_nonneg hy)
  · rw [hzero] at h ⊢
    rw [toFormat_of_multiple (n := 0) (by rw [Int.cast_zero, zero_mul])]
    exact toFormat_nonneg h
  · exact toFormat_mono_of_pos hp hpos h

end Formats

end Rounding
