import Mathlib.Algebra.Order.Field.Basic
import Mathlib.Algebra.Order.Ring.Abs
import Mathlib.Data.Rat.Floor
import Mathlib.Tactic.Linarith
import Seven.Belief.Gate
import Seven.Library.Rounding

/-!
# Beliefs in Rounded Arithmetic

`f64` as a format with finitely many digits: the result of every operation is
rounded to a value of the format, results beyond the largest finite value are
infinities, and what has no result is not a number.

Of the rounding little is used. It is monotone, it leaves the values of the
format alone, and the integers of 53 bits and their multiples by small powers of
two are among these values. All rounding directions of binary64 are like that,
so nothing here depends on which one is taken, nor on how near to its argument a
rounded value lies.

That is enough for what the track promises of itself, that its variances are
finite and not negative. The gain is a quotient of a variance and a rounded sum
that is at least as large, so it lies between zero and one, and a product with
what is left of one is no larger than the variance. The mean moves towards the
measurement and may pass it, by rounding, at every observation of an endless run;
`abs_mean_le` says that it stays within twice the largest measurement
nevertheless.

## Main definitions

* `Rounder`, `Rounded`: The rounding of a format and its values.
* `Between`: A finite value within bounds.
* `Settled`: What holds of every track.
* `NoWider`: No variance is larger.

## Theorems

* `between_result`: A result within bounds of the format.
* `between_gain`: The gain is neither negative nor larger than one.
* `settled_fuse`, `noWider_fuse`: What an observation keeps.
* `settled_track`: What holds of every track of every run.
-/

namespace Seven

/-- The rounding of a floating-point format. -/
structure Rounder (K : Type) [Field K] [LinearOrder K] where
  round : K → K
  monotone : Monotone round
  round_round : ∀ x, round (round x) = round x
  /-- Integers of 53 bits, scaled by a power of two, are values of the format. -/
  round_scaled : ∀ (m : Int) (e : Nat), |m| ≤ 2 ^ 53 → e ≤ 64 →
    round ((m * 2 ^ e : Int) : K) = ((m * 2 ^ e : Int) : K)
  maxFinite : K
  le_maxFinite : ((2 ^ 64 : Int) : K) ≤ maxFinite

namespace Rounder

variable {K : Type} [Field K] [LinearOrder K]

/-- A value of the format. -/
def Has (R : Rounder K) (x : K) : Prop := R.round x = x

theorem has_round (R : Rounder K) (x : K) : R.Has (R.round x) := R.round_round x

theorem has_int (R : Rounder K) (m : Int) (hm : |m| ≤ 2 ^ 53) : R.Has (m : K) := by
  have h := R.round_scaled m 0 hm (Nat.zero_le _)
  rwa [pow_zero, mul_one] at h

theorem has_zero (R : Rounder K) : R.Has 0 := by
  have h := R.has_int 0 (by norm_num)
  rwa [Int.cast_zero] at h

theorem has_one (R : Rounder K) : R.Has 1 := by
  have h := R.has_int 1 (by norm_num)
  rwa [Int.cast_one] at h

theorem Has.max {R : Rounder K} {x y : K} (hx : R.Has x) (hy : R.Has y) : R.Has (max x y) := by
  rcases max_choice x y with h | h
  · rw [h]
    exact hx
  · rw [h]
    exact hy

theorem pow_le_largest : (2 : Int) ^ 64 ≤ 2 ^ 1024 - 2 ^ 971 := by
  have hpow {m n : Nat} (h : m ≤ n) : (2 : Int) ^ m ≤ 2 ^ n := pow_le_pow_right₀ one_le_two h
  rw [le_sub_iff_add_le]
  calc (2 : Int) ^ 64 + 2 ^ 971 ≤ 2 ^ 971 + 2 ^ 971 := add_le_add_left (hpow (by norm_num)) _
    _ = 2 ^ 972 := by rw [← mul_two, ← pow_succ]
    _ ≤ 2 ^ 1024 := hpow (by norm_num)

/-- The format of `f64`, rounded to nearest with ties to even. -/
def binary64 {K : Type} [Field K] [LinearOrder K] [IsStrictOrderedRing K] [FloorRing K] :
    Rounder K where
  round := Rounding.toFormat 53 (-1074)
  monotone := Rounding.toFormat_mono (by norm_num)
  round_round x :=
    Rounding.toFormat_of_representable (Rounding.representable_toFormat (by norm_num) x)
  round_scaled m e hm _ := by
    have h : Rounding.Representable 53 (-1074) ((m : K) * 2 ^ (e : Int)) :=
      Rounding.representable_of_le (by norm_num) hm (by omega)
    rw [zpow_natCast] at h
    rw [Int.cast_mul, Int.cast_pow, Int.cast_ofNat]
    exact Rounding.toFormat_of_representable h
  maxFinite := ((2 ^ 1024 - 2 ^ 971 : Int) : K)
  le_maxFinite := Int.cast_le.mpr pow_le_largest

end Rounder

/-- The values of a format. -/
inductive Rounded {K : Type} [Field K] [LinearOrder K] (R : Rounder K) where
  | nan
  | inf (negative : Bool)
  | finite (x : K) (has : R.Has x)

namespace Rounded

variable {K : Type} [Field K] [LinearOrder K] {R : Rounder K}

/-- The result of an operation. -/
def result (R : Rounder K) (x : K) : Rounded R :=
  if |R.round x| ≤ R.maxFinite then finite (R.round x) (R.has_round x)
  else inf (decide (R.round x < 0))

def add : Rounded R → Rounded R → Rounded R
  | finite x _, finite y _ => result R (x + y)
  | inf s, inf t => if s = t then inf s else nan
  | inf s, finite _ _ => inf s
  | finite _ _, inf t => inf t
  | _, _ => nan

def sub : Rounded R → Rounded R → Rounded R
  | finite x _, finite y _ => result R (x - y)
  | inf s, inf t => if s = t then nan else inf s
  | inf s, finite _ _ => inf s
  | finite _ _, inf t => inf (!t)
  | _, _ => nan

def mul : Rounded R → Rounded R → Rounded R
  | finite x _, finite y _ => result R (x * y)
  | inf s, inf t => inf (s != t)
  | inf s, finite y _ => if y = 0 then nan else inf (s != decide (y < 0))
  | finite x _, inf t => if x = 0 then nan else inf (decide (x < 0) != t)
  | _, _ => nan

/-- Division, with zero taken as the positive one. -/
def div : Rounded R → Rounded R → Rounded R
  | finite x _, finite y _ =>
      if y ≠ 0 then result R (x / y) else if x = 0 then nan else inf (decide (x < 0))
  | inf s, finite y _ => inf (s != decide (y < 0))
  | finite _ _, inf _ => result R 0
  | _, _ => nan

def gt : Rounded R → Rounded R → Bool
  | finite x _, finite y _ => decide (y < x)
  | inf s, inf t => !s && t
  | inf s, finite _ _ => !s
  | finite _ _, inf t => t
  | _, _ => false

instance [SquareRoot K] : F64 (Rounded R) where
  add := add
  sub := sub
  mul := mul
  div := div
  ofInt n := result R n
  abs
    | nan => nan
    | inf _ => inf false
    | finite x _ => result R |x|
  sqrt
    | nan => nan
    | inf s => if s then nan else inf s
    | finite x _ => if x < 0 then nan else result R (SquareRoot.root x)
  gt := gt

/-- A finite value within bounds. -/
def Between (lo hi : K) (v : Rounded R) : Prop :=
  ∃ x has, v = finite x has ∧ lo ≤ x ∧ x ≤ hi

/-- A multiple of a bound, for which there is a value of the format. -/
def Scale (R : Rounder K) (b : K) : Prop :=
  0 ≤ b ∧ 3 * b ≤ ((2 ^ 64 : Int) : K) ∧ ∀ m : Int, |m| ≤ 3 → R.Has (m * b)

theorem Scale.has {b : K} (hb : Scale R b) (m : Int) (hm : |m| ≤ 3) {x : K} (hx : (m : K) * b = x) :
    R.Has x := by
  rw [← hx]
  exact hb.2.2 m hm

/-- The bound of the measurements: what an `i64` of millimetres can say, in metres. -/
def span (K : Type) [Field K] : K := ((2 ^ 54 : Int) : K)

/-- The bound of the means, twice as much. -/
def reach (K : Type) [Field K] : K := span K + span K

/-- The variance of the prior. -/
def widest (K : Type) [Field K] : K := ((1000000000 : Int) : K)

/-- Every dimension has a finite mean within twice the bound of the measurements,
    and a finite variance that is not negative and no larger than the prior's. -/
def Settled (track : GaussianBelief (Rounded R)) : Prop :=
  ∀ d, Between (-reach K) (reach K) (track.mean.get d) ∧
    Between 0 (widest K) (track.var.get d)

/-- No variance is larger than it was. -/
def NoWider (track before : GaussianBelief (Rounded R)) : Prop :=
  ∀ d v has, before.var.get d = finite v has → Between 0 v (track.var.get d)

/-- The gain of a dimension for a measurement of some noise. -/
def gain [SquareRoot K] (track : GaussianBelief (Rounded R)) (d : Fin 6) (r : Rounded R) :
    Rounded R :=
  track.var.get d / (track.var.get d + r)

theorem NoWider.trans {a b c : GaussianBelief (Rounded R)} (hab : NoWider a b)
    (hbc : NoWider b c) : NoWider a c := by
  intro d v has hv
  rcases hbc d v has hv with ⟨w, hasw, hw, _, hwv⟩
  rcases hab d w hasw hw with ⟨x, hasx, hx, hx0, hxw⟩
  exact ⟨x, hasx, hx, hx0, hxw.trans hwv⟩

theorem NoWider.refl {track : GaussianBelief (Rounded R)} (h : Settled track) :
    NoWider track track := by
  intro d v has hv
  rcases (h d).2 with ⟨x, hasx, hx, hx0, _⟩
  rw [hv, finite.injEq] at hx
  exact ⟨v, has, hv, hx ▸ hx0, le_rfl⟩

variable [IsStrictOrderedRing K]

/-- A result within bounds that are values of the format, and not too large. -/
theorem between_result {lo hi x : K} (hlo : R.Has lo) (hhi : R.Has hi)
    (hlo' : -((2 ^ 64 : Int) : K) ≤ lo) (hhi' : hi ≤ ((2 ^ 64 : Int) : K)) (h : lo ≤ x)
    (h' : x ≤ hi) : Between lo hi (result R x) := by
  have hlow : lo ≤ R.round x := by
    rw [← hlo]
    exact R.monotone h
  have hhigh : R.round x ≤ hi := by
    rw [← hhi]
    exact R.monotone h'
  have hsize : |R.round x| ≤ R.maxFinite := by
    refine (abs_le.mpr ⟨?_, ?_⟩).trans R.le_maxFinite
    · exact hlo'.trans hlow
    · exact hhigh.trans hhi'
  exact ⟨R.round x, R.has_round x, if_pos hsize, hlow, hhigh⟩

/-- Integers of 53 bits are values. -/
theorem ofInt_eq [SquareRoot K] (m : Int) (hm : |m| ≤ 2 ^ 53) :
    (F64.ofInt m : Rounded R) = finite (m : K) (R.has_int m hm) := by
  have hround : R.round (m : K) = m := R.has_int m hm
  have hsize : |R.round (m : K)| ≤ R.maxFinite := by
    rw [hround, ← Int.cast_abs]
    refine (Int.cast_le.mpr (hm.trans ?_)).trans R.le_maxFinite
    norm_num
  change result R (m : K) = _
  unfold result
  rw [if_pos hsize]
  simp only [hround]

/-- How far a measurement is from a mean above it at most. -/
theorem exists_floor {b μ z : K} (hb : Scale R b) (hμ : μ ≤ 2 * b) (hz : -b ≤ z) (h : z ≤ μ) :
    ∃ lo, R.Has lo ∧ -((2 ^ 64 : Int) : K) ≤ lo ∧ lo ≤ 0 ∧ lo ≤ z - μ ∧ -(2 * b) ≤ μ + lo := by
  have hnonneg := hb.1
  have hsize := hb.2.1
  rcases le_total μ 0 with hneg | hpos
  · refine ⟨-b, hb.has (-1) (by norm_num) (by norm_num), ?_, ?_, ?_, ?_⟩ <;> linarith
  · rcases le_total μ b with hsmall | hlarge
    · refine ⟨-(2 * b), hb.has (-2) (by norm_num) (by norm_num), ?_, ?_, ?_, ?_⟩ <;> linarith
    · refine ⟨-(3 * b), hb.has (-3) (by norm_num) (by norm_num), ?_, ?_, ?_, ?_⟩ <;> linarith

theorem exists_ceiling {b μ z : K} (hb : Scale R b) (hμ : -(2 * b) ≤ μ) (hz : z ≤ b) (h : μ ≤ z) :
    ∃ hi, R.Has hi ∧ hi ≤ ((2 ^ 64 : Int) : K) ∧ 0 ≤ hi ∧ z - μ ≤ hi ∧ μ + hi ≤ 2 * b := by
  have hnonneg := hb.1
  have hsize := hb.2.1
  rcases le_total 0 μ with hpos | hneg
  · refine ⟨b, hb.has 1 (by norm_num) (by norm_num), ?_, ?_, ?_, ?_⟩ <;> linarith
  · rcases le_total (-b) μ with hsmall | hlarge
    · refine ⟨2 * b, hb.has 2 (by norm_num) (by norm_num), ?_, ?_, ?_, ?_⟩ <;> linarith
    · refine ⟨3 * b, hb.has 3 (by norm_num) (by norm_num), ?_, ?_, ?_, ?_⟩ <;> linarith

/-- The mean stays within twice the bound of the measurements, whatever the
    rounding of the difference, the product and the sum. -/
theorem between_mean {b : K} (hb : Scale R b) {mean z k : Rounded R}
    (hmean : Between (-(2 * b)) (2 * b) mean) (hz : Between (-b) b z) (hk : Between 0 1 k) :
    Between (-(2 * b)) (2 * b) (mean.add (k.mul (z.sub mean))) := by
  rcases hmean with ⟨μ, hasμ, rfl, hlo, hhi⟩
  rcases hz with ⟨z, hasz, rfl, hzlo, hzhi⟩
  rcases hk with ⟨k, hask, rfl, hk0, hk1⟩
  have hzero := R.has_zero
  have hsize : 2 * b ≤ ((2 ^ 64 : Int) : K) := by linarith [hb.1, hb.2.1]
  have hneg : R.Has (-(2 * b)) := hb.has (-2) (by norm_num) (by norm_num)
  have hpos : R.Has (2 * b) := hb.has 2 (by norm_num) (by norm_num)
  have hbig : (0 : K) ≤ ((2 ^ 64 : Int) : K) := Int.cast_nonneg (by norm_num)
  rcases le_total z μ with hle | hle
  -- The mean moves down, and by no more than the whole difference.
  · rcases exists_floor hb hhi hzlo hle with ⟨lo, haslo, hbound, hlo0, hdiff, hsum⟩
    rcases between_result haslo hzero hbound hbig hdiff (sub_nonpos.mpr hle) with
      ⟨d, hasd, hd, hdlo, hd0⟩
    have hprod : Between lo 0 (result R (k * d)) :=
      between_result haslo hzero hbound hbig (by nlinarith) (mul_nonpos_of_nonneg_of_nonpos hk0 hd0)
    rcases hprod with ⟨p, hasp, hp, hplo, hp0⟩
    simp only [sub, hd, mul, hp, add]
    exact between_result hneg hpos (by linarith) hsize (by linarith) (by linarith)
  -- The mean moves up.
  · rcases exists_ceiling hb hlo hzhi hle with ⟨hi, hashi, hbound, hhi0, hdiff, hsum⟩
    rcases between_result hzero hashi (by linarith) hbound (sub_nonneg.mpr hle) hdiff with
      ⟨d, hasd, hd, hd0, hdhi⟩
    have hprod : Between 0 hi (result R (k * d)) :=
      between_result hzero hashi (by linarith) hbound (mul_nonneg hk0 hd0) (by nlinarith)
    rcases hprod with ⟨p, hasp, hp, hp0, hphi⟩
    simp only [sub, hd, mul, hp, add]
    exact between_result hneg hpos (by linarith) hsize (by linarith) (by linarith)

/-- The gain is neither negative nor larger than one, and its divisor is not
    zero. -/
theorem between_gain {v r : K} (hasv : R.Has v) (hasr : R.Has r) (hv : 0 ≤ v) (hr : 0 < r)
    (hsize : v + r ≤ ((2 ^ 62 : Int) : K)) :
    Between r ((2 ^ 62 : Int) : K) ((finite v hasv : Rounded R).add (finite r hasr)) ∧
      Between 0 1 ((finite v hasv : Rounded R).div ((finite v hasv).add (finite r hasr))) := by
  have hone := R.has_one
  have hpow : R.Has ((2 ^ 62 : Int) : K) := by
    have h := R.round_scaled 1 62 (by norm_num) (by norm_num)
    rwa [one_mul] at h
  have hle : ((2 ^ 62 : Int) : K) ≤ ((2 ^ 64 : Int) : K) := Int.cast_le.mpr (by norm_num)
  have hbig : (1 : K) ≤ ((2 ^ 64 : Int) : K) := by
    rw [← Int.cast_one]
    exact Int.cast_le.mpr (by norm_num)
  -- The rounded sum is at least as large as each of its terms.
  have hsum : Between (max v r) ((2 ^ 62 : Int) : K) (result R (v + r)) :=
    between_result (hasv.max hasr) hpow (by linarith [le_max_left v r]) hle
      (max_le (by linarith) (by linarith)) hsize
  rcases hsum with ⟨s, hass, hs, hmax, hshi⟩
  have hvs : v ≤ s := (le_max_left v r).trans hmax
  have hrs : r ≤ s := (le_max_right v r).trans hmax
  have hpos : 0 < s := hr.trans_le hrs
  simp only [add, hs]
  refine ⟨⟨s, hass, rfl, hrs, hshi⟩, ?_⟩
  rw [div, if_pos hpos.ne']
  exact between_result R.has_zero hone (by linarith) hbig (div_nonneg hv hpos.le)
    ((div_le_one hpos).mpr hvs)

/-- What is left of the variance is not negative, and no larger than it was. -/
theorem between_var {v : K} (hasv : R.Has v) (hv : 0 ≤ v) (hsize : v ≤ ((2 ^ 62 : Int) : K))
    {k : Rounded R} (hk : Between 0 1 k) :
    Between 0 v ((finite v hasv : Rounded R).mul ((finite 1 R.has_one).sub k)) := by
  rcases hk with ⟨k, hask, rfl, hk0, hk1⟩
  have hbig : (1 : K) ≤ ((2 ^ 64 : Int) : K) := by
    rw [← Int.cast_one]
    exact Int.cast_le.mpr (by norm_num)
  have hle : ((2 ^ 62 : Int) : K) ≤ ((2 ^ 64 : Int) : K) := Int.cast_le.mpr (by norm_num)
  have hrest : Between 0 1 (result R (1 - k)) :=
    between_result R.has_zero R.has_one (by linarith) hbig (by linarith) (by linarith)
  rcases hrest with ⟨c, hasc, hc, hc0, hc1⟩
  simp only [sub, hc, mul]
  exact between_result R.has_zero hasv (by linarith) (by linarith) (mul_nonneg hv hc0)
    (mul_le_of_le_one_right hv hc1)


section Track

theorem scale_span (R : Rounder K) : Scale R (span K) := by
  refine ⟨Int.cast_nonneg (by norm_num), ?_, ?_⟩
  · have hint : ((3 * 2 ^ 54 : Int) : K) ≤ ((2 ^ 64 : Int) : K) := Int.cast_le.mpr (by norm_num)
    rwa [Int.cast_mul, Int.cast_ofNat] at hint
  · intro m hm
    have h := R.round_scaled m 54 (hm.trans (by norm_num)) (by norm_num)
    rwa [Int.cast_mul] at h

variable [SquareRoot K]

/-- A coordinate is read within the bound. -/
theorem between_fromMilli (x : Int64) :
    Between (-span K) (span K) (fromMilli x : Rounded R) := by
  have hlow : -1 * 2 ^ 63 ≤ x.toInt := by
    rw [neg_one_mul]
    exact Int64.le_toInt x
  have hhigh : x.toInt ≤ 1 * 2 ^ 63 := by
    rw [one_mul]
    exact (Int64.toInt_lt x).le
  have hpow (m : Int) (hm : |m| ≤ 2 ^ 53) : R.Has ((m * 2 ^ 63 : Int) : K) :=
    R.round_scaled m 63 hm (by norm_num)
  have hint : Between ((-1 * 2 ^ 63 : Int) : K) ((1 * 2 ^ 63 : Int) : K)
      (F64.ofInt x.toInt : Rounded R) := by
    refine between_result (hpow (-1) (by norm_num)) (hpow 1 (by norm_num)) ?_ ?_ ?_ ?_
    · rw [← Int.cast_neg]
      exact Int.cast_le.mpr (by norm_num)
    · exact Int.cast_le.mpr (by norm_num)
    · exact Int.cast_le.mpr hlow
    · exact Int.cast_le.mpr hhigh
  rcases hint with ⟨v, hasv, hv, hvlo, hvhi⟩
  have hthousand : ((1000 : Int) : K) ≠ 0 := Int.cast_ne_zero.mpr (by norm_num)
  have hpos : (0 : K) < ((1000 : Int) : K) := Int.cast_pos.mpr (by norm_num)
  change Between _ _ (div (F64.ofInt x.toInt : Rounded R) (F64.ofInt 1000))
  rw [hv, ofInt_eq 1000 (by norm_num), div, if_pos hthousand]
  have hspan := scale_span R
  have hbound : ((2 ^ 63 : Int) : K) ≤ span K * ((1000 : Int) : K) := by
    rw [span, ← Int.cast_mul]
    exact Int.cast_le.mpr (by norm_num)
  rw [one_mul] at hvhi
  rw [neg_one_mul, Int.cast_neg] at hvlo
  refine between_result (hspan.has (-1) (by norm_num) (by norm_num))
    (hspan.has 1 (by norm_num) (by norm_num)) (by linarith [hspan.1, hspan.2.1])
    (by linarith [hspan.1, hspan.2.1]) ?_ ?_
  · rw [le_div_iff₀ hpos]
    linarith
  · rw [div_le_iff₀ hpos]
    linarith

omit [IsStrictOrderedRing K] in
theorem get_noise (d : Fin 6) :
    (noise : Vector (Rounded R) 6).get d = F64.ofInt (if d.val < 3 then 25 else 1) := by
  rcases d with ⟨i, hi⟩
  interval_cases i <;> rfl

omit [IsStrictOrderedRing K] in
theorem exists_get_measurements (state : CanonicalState) (d : Fin 6) :
    ∃ x : Int64, (measurements state : Vector (Rounded R) 6).get d = fromMilli x := by
  rcases d with ⟨i, hi⟩
  interval_cases i <;> exact ⟨_, rfl⟩

theorem settled_uninformative : Settled (R := R) .uninformative := by
  have hreach : (0 : K) ≤ reach K := add_nonneg (scale_span R).1 (scale_span R).1
  have hwidest : (0 : K) ≤ widest K := Int.cast_nonneg (by norm_num)
  have hget (x : Rounded R) (d : Fin 6) : (Vector.replicate 6 x).get d = x := by
    change (Vector.replicate 6 x)[(d : Nat)] = x
    rw [Vector.getElem_replicate]
  intro d
  unfold GaussianBelief.uninformative
  rw [hget, hget, ofInt_eq 0 (by norm_num), ofInt_eq 1000000000 (by norm_num)]
  refine ⟨⟨_, _, rfl, ?_, ?_⟩, _, _, rfl, hwidest, le_rfl⟩
  · rw [Int.cast_zero]
    linarith
  · rw [Int.cast_zero]
    linarith

/-- The gain of a settled track for a noise of at least one square metre and at most
    the prior's. -/
theorem between_gain_of_settled {track : GaussianBelief (Rounded R)} (h : Settled track)
    (d : Fin 6) {n : Int} (hn : 1 ≤ n) (hn' : n ≤ 1000000000) :
    Between ((n : Int) : K) ((2 ^ 62 : Int) : K) (track.var.get d + (F64.ofInt n : Rounded R)) ∧
      Between 0 1 (gain track d (F64.ofInt n)) := by
  rcases (h d).2 with ⟨v, hasv, hv, hv0, hvhi⟩
  have hsize : |n| ≤ 2 ^ 53 := by
    rw [abs_le]
    omega
  rw [gain, hv, ofInt_eq n hsize]
  refine between_gain hasv (R.has_int n hsize) hv0 (Int.cast_pos.mpr (by omega)) ?_
  calc v + (n : K) ≤ widest K + ((1000000000 : Int) : K) :=
        add_le_add hvhi (Int.cast_le.mpr hn')
    _ = ((2000000000 : Int) : K) := by
        rw [widest, ← Int.cast_add]
        norm_num
    _ ≤ ((2 ^ 62 : Int) : K) := Int.cast_le.mpr (by norm_num)

/-- One update of one dimension. -/
theorem settled_updateDim {track : GaussianBelief (Rounded R)} (h : Settled track) (d : Fin 6)
    {z : Rounded R} (hz : Between (-span K) (span K) z) {n : Int} (hn : 1 ≤ n)
    (hn' : n ≤ 1000000000) :
    Settled (track.updateDim d z (F64.ofInt n)) ∧
      NoWider (track.updateDim d z (F64.ofInt n)) track := by
  have hgain := (between_gain_of_settled h d hn hn').2
  rcases (h d).2 with ⟨v, hasv, hv, hv0, hvhi⟩
  have hwidest : widest K ≤ ((2 ^ 62 : Int) : K) := Int.cast_le.mpr (by norm_num)
  have hone : (F64.ofInt 1 : Rounded R) = finite 1 R.has_one := by
    rw [ofInt_eq 1 (by norm_num)]
    simp only [Int.cast_one]
  have hvar : Between 0 v (track.var.get d * ((F64.ofInt 1 : Rounded R) -
      gain track d (F64.ofInt n))) := by
    rw [hv, hone]
    exact between_var hasv hv0 (hvhi.trans hwidest) hgain
  have hmean : Between (-reach K) (reach K)
      (track.mean.get d + gain track d (F64.ofInt n) * (z - track.mean.get d)) := by
    have hbefore := (h d).1
    rw [reach, ← two_mul] at hbefore ⊢
    exact between_mean (scale_span R) hbefore hz hgain
  refine ⟨fun i => ?_, fun i w hasw hw => ?_⟩
  · unfold GaussianBelief.updateDim
    rw [GaussianBelief.get_set, GaussianBelief.get_set]
    by_cases hi : i = d
    · rw [if_pos hi, if_pos hi]
      rcases hvar with ⟨x, hasx, hx, hx0, hxv⟩
      exact ⟨hmean, x, hasx, hx, hx0, hxv.trans hvhi⟩
    · rw [if_neg hi, if_neg hi]
      exact h i
  · unfold GaussianBelief.updateDim
    rw [GaussianBelief.get_set]
    by_cases hi : i = d
    · rw [hi, hv, finite.injEq] at hw
      rw [if_pos hi, ← hw]
      exact hvar
    · rw [if_neg hi]
      rcases (h i).2 with ⟨x, hasx, hx, hx0, _⟩
      rw [hw, finite.injEq] at hx
      exact ⟨w, hasw, hw, hx ▸ hx0, le_rfl⟩

/-- A whole observation. -/
theorem settled_fuse {track : GaussianBelief (Rounded R)} (h : Settled track)
    (state : CanonicalState) :
    Settled (track.fuse (measurements state)) ∧
      NoWider (track.fuse (measurements state)) track := by
  unfold GaussianBelief.fuse
  -- Induction on the dimensions that are updated, one after the other.
  induction List.finRange 6 generalizing track with
  | nil => exact ⟨h, .refl h⟩
  | cons d ds ih =>
      rcases exists_get_measurements (R := R) state d with ⟨x, hx⟩
      have hnoise : 1 ≤ (if d.val < 3 then 25 else 1 : Int) ∧
          (if d.val < 3 then 25 else 1 : Int) ≤ 1000000000 := by
        split <;> decide
      have hstep := settled_updateDim h d (between_fromMilli (R := R) x) hnoise.1 hnoise.2
      rw [List.foldl_cons, hx, get_noise]
      exact ⟨(ih hstep.1).1, (ih hstep.1).2.trans hstep.2⟩

omit [IsStrictOrderedRing K] in
/-- What a call makes of the track of a subject. -/
theorem track_incorporate (c : Crypto) (eng : BeliefEngine (Rounded R)) (e : Evidence)
    (s : SubjectId) :
    (eng.incorporate c e).1.track s = eng.track s ∨
      ∃ state, (eng.incorporate c e).1.track s = (eng.track s).fuse (measurements state) := by
  unfold BeliefEngine.track
  rcases BeliefEngine.incorporate_counted_cases c eng e with ⟨_, htracks, _⟩ | ⟨state, _, h⟩
  · rw [htracks]
    exact Or.inl rfl
  · rw [h, BeliefEngine.tracks_absorb_mark]
    by_cases hs : e.subject = s
    · rw [if_pos hs, Option.getD_some]
      exact Or.inr ⟨state, rfl⟩
    · rw [if_neg hs]
      exact Or.inl rfl

theorem settled_folded (c : Crypto) (run : List Evidence) (s : SubjectId) :
    Settled ((BeliefEngine.folded (Rounded R) c run).track s) := by
  induction run using List.reverseRecOn with
  | nil =>
      have hempty : (BeliefEngine.folded (Rounded R) c []).track s = .uninformative := rfl
      rw [hempty]
      exact settled_uninformative
  | append_singleton run e ih =>
      rw [BeliefEngine.folded_concat]
      rcases track_incorporate c (BeliefEngine.folded (Rounded R) c run) e s with h | ⟨state, h⟩
      · rw [h]
        exact ih
      · rw [h]
        exact (settled_fuse ih state).1

/-- Rounding never breaks a track. In every run, of any length and over any evidence,
    every mean is finite and within 2^55 metres, every variance is finite, not
    negative and at most that of the prior, and no later evidence makes a variance
    larger. The predictive variance of a measurement is finite and at least its noise
    (25 for a position, 1 for a velocity), so the gain divides by no zero and lies
    between zero and one. -/
theorem settled_track (R : Rounder K) (c : Crypto) (run later : List Evidence) (s : SubjectId) :
    Settled ((BeliefEngine.folded (Rounded R) c run).track s) ∧
      NoWider ((BeliefEngine.folded (Rounded R) c (run ++ later)).track s)
        ((BeliefEngine.folded (Rounded R) c run).track s) ∧
      ∀ d, Between ((if d.val < 3 then 25 else 1 : Int) : K) ((2 ^ 62 : Int) : K)
          (((BeliefEngine.folded (Rounded R) c run).track s).var.get d + noise.get d) ∧
        Between 0 1 (gain ((BeliefEngine.folded (Rounded R) c run).track s) d (noise.get d)) := by
  refine ⟨settled_folded c run s, ?_, fun d => ?_⟩
  · induction later using List.reverseRecOn with
    | nil =>
        rw [List.append_nil]
        exact .refl (settled_folded c run s)
    | append_singleton later e ih =>
        rw [← List.append_assoc, BeliefEngine.folded_concat]
        rcases track_incorporate c (BeliefEngine.folded (Rounded R) c (run ++ later)) e s with
          h | ⟨state, h⟩
        · rw [h]
          exact ih
        · rw [h]
          exact (settled_fuse (settled_folded c (run ++ later) s) state).2.trans ih
  · have hnoise : 1 ≤ (if d.val < 3 then 25 else 1 : Int) ∧
        (if d.val < 3 then 25 else 1 : Int) ≤ 1000000000 := by
      split <;> decide
    rw [get_noise]
    exact between_gain_of_settled (settled_folded c run s) d hnoise.1 hnoise.2

/-- Two observations that count, one after the other, in the arithmetic of `f64`. -/
theorem settled_track_binary64 :
    let R : Rounder ℚ := .binary64
    let e := Evidence.minted (Vector.replicate 32 7) ⟨"ac"⟩ (.atRest 5)
    let e' := Evidence.minted (Vector.replicate 32 7) ⟨"ac"⟩ (.atRest 6)
    let c := Evidence.ledgerOf [e, e']
    let track : GaussianBelief (Rounded R) := GaussianBelief.uninformative.fuse
      (measurements (.atRest 5))
    (BeliefEngine.folded (Rounded R) c [e]).track ⟨"ac"⟩ = track ∧
      (BeliefEngine.folded (Rounded R) c [e, e']).track ⟨"ac"⟩ =
        track.fuse (measurements (.atRest 6)) ∧
      Settled track ∧ NoWider (track.fuse (measurements (.atRest 6))) track ∧
      ∀ d, Between ((if d.val < 3 then 25 else 1 : Int) : ℚ) ((2 ^ 62 : Int) : ℚ)
          (track.var.get d + noise.get d) ∧
        Between 0 1 (gain track d (noise.get d)) := by
  intro R e e' c track
  have hv : e.verify c = .ok () := Evidence.verify_minted _ List.mem_cons_self
  have hv' : e'.verify c = .ok () :=
    Evidence.verify_minted _ (List.mem_cons_of_mem _ List.mem_cons_self)
  have hfirst := BeliefEngine.track_folded_concat (F := Rounded R) (BeliefEngine.introduces_nil hv)
    (Evidence.fromCanonicalBytes_minted (Vector.replicate 32 7) ⟨"ac"⟩ (.atRest 5))
  have hsecond := BeliefEngine.track_folded_concat (F := Rounded R)
    (BeliefEngine.introduces_singleton hv' (by decide : e.observationId ≠ e'.observationId))
    (Evidence.fromCanonicalBytes_minted (Vector.replicate 32 7) ⟨"ac"⟩ (.atRest 6))
  have hprior : (BeliefEngine.folded (Rounded R) c []).track ⟨"ac"⟩ = .uninformative := rfl
  change (BeliefEngine.folded (Rounded R) c [e]).track ⟨"ac"⟩ =
    ((BeliefEngine.folded (Rounded R) c []).track ⟨"ac"⟩).fuse _ at hfirst
  change (BeliefEngine.folded (Rounded R) c [e, e']).track ⟨"ac"⟩ =
    ((BeliefEngine.folded (Rounded R) c [e]).track ⟨"ac"⟩).fuse _ at hsecond
  rw [hprior] at hfirst
  rw [hfirst] at hsecond
  have hsettled := settled_track R c [e] [e'] ⟨"ac"⟩
  rw [List.singleton_append, hfirst, hsecond] at hsettled
  exact ⟨hfirst, hsecond, hsettled⟩

end Track

end Rounded

end Seven
