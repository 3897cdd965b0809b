import Seven.Core.F64
import Seven.Core.State

/-!
# Canonicalization

From a raw observation to the canonical state that evidence identity hashes. Every
number is checked to be finite, the quaternion is normalized and brought into the
hemisphere where its first nonzero component is positive, and then everything is
quantized to fixed-point integers.

The hemisphere is chosen on the normalized components, so before they are quantized.
Canonicalizing a canonical state again (`recanonicalize`) only takes the quaternion
apart and quantizes it; it neither normalizes nor chooses a hemisphere.

Only the release build is modelled: `to_canonical` has a debug assertion on the
norm, which `canonicalize_normalized` shows to hold in the arithmetic of `f64`.

## Main definitions

* `quantize`, `validateF64`: One number.
* `Quaternion`, `canonicalized`, `toCanonical`: The attitude.
* `PhysicalObservation`, `canonicalize`: A whole observation.
* `dequantized`: A canonical state as an observation.

## Theorems

* `canonicalize_eq_ok_iff`: What is accepted and what it becomes.
* `canonicalize_congr`: Only what the attitude is canonicalized to matters.
-/

namespace Seven

namespace Scale

/-- Quaternion components: unitless after normalization. -/
def quaternion : Int64 := 1000000

/-- Position: metres at millimetre resolution. -/
def position : Int64 := 1000

/-- Velocity: metres per second at the same resolution. -/
def velocity : Int64 := 1000

theorem quaternion_ne_zero : quaternion.toInt ≠ 0 := by decide

theorem position_ne_zero : position.toInt ≠ 0 := by decide

theorem velocity_ne_zero : velocity.toInt ≠ 0 := by decide

end Scale

section Numbers

variable {F : Type} [CanonicalF64 F]

/-- Quantize a number by rounding it times the scale. What does not fit saturates. -/
def quantize (v : F) (scale : Int64) : Int64 :=
  CanonicalF64.toI64 (CanonicalF64.roundTiesEven (v * F64.ofInt scale.toInt))

/-- A quantized number as a number again. -/
def dequantize (F : Type) [F64 F] (x : Int64) (scale : Int64) : F :=
  F64.ofInt x.toInt / F64.ofInt scale.toInt

/-- Reject values that are not finite: the canonical encoding has none. -/
def validateF64 (v : F) (field : String) : Except CanonicalError Unit :=
  if CanonicalF64.isNan v then .error (.notFinite field "NaN")
  else if CanonicalF64.isInfinite v then .error (.notFinite field "Inf")
  else .ok ()

/-- Validate the three coordinates of a vector in order. -/
def validateVector (v : Vector F 3) (names : Vector String 3) : Except CanonicalError Unit :=
  (List.finRange 3).forM fun i => validateF64 (v.get i) (names.get i)

/-- A value is a number and finite. -/
def Finite64 (v : F) : Prop :=
  CanonicalF64.isNan v = false ∧ CanonicalF64.isInfinite v = false

theorem validateF64_eq_ok_iff {v : F} {field : String} :
    validateF64 v field = .ok () ↔ Finite64 v := by
  unfold validateF64 Finite64
  cases CanonicalF64.isNan v with
  | true => simp only [if_true, reduceCtorEq, Bool.true_eq_false, false_and]
  | false =>
      cases CanonicalF64.isInfinite v with
      | true => simp only [Bool.false_eq_true, if_false, if_true, reduceCtorEq, Bool.true_eq_false,
          and_false]
      | false => simp only [Bool.false_eq_true, if_false, and_self]

theorem validateVector_eq_ok_iff {v : Vector F 3} {names : Vector String 3} :
    validateVector v names = .ok () ↔ ∀ i, Finite64 (v.get i) := by
  unfold validateVector
  rw [Outcome.except_forM_eq_ok]
  simp only [validateF64_eq_ok_iff, List.mem_finRange, forall_const]

end Numbers

/-- A quaternion in the Hamilton convention. -/
structure Quaternion (F : Type) where
  w : F
  x : F
  y : F
  z : F

namespace Quaternion

/-- The components in the order in which ties are broken. -/
def toList {F : Type} (q : Quaternion F) : List F :=
  [q.w, q.x, q.y, q.z]

/-- The same function on every component. -/
def map {F G : Type} (f : F → G) (q : Quaternion F) : Quaternion G :=
  ⟨f q.w, f q.x, f q.y, f q.z⟩

variable {F : Type} [CanonicalF64 F]

/-- Euclidean norm of the four components. -/
def norm (q : Quaternion F) : F :=
  F64.sqrt (q.w * q.w + q.x * q.x + q.y * q.y + q.z * q.z)

/-- The sign that brings a quaternion into its hemisphere: that of the first
    component which is not zero. -/
def sign (q : Quaternion F) : F :=
  let zero : F := F64.ofInt 0
  if F64.gt q.w zero then F64.ofInt 1
  else if F64.gt zero q.w then F64.ofInt (-1)
  else if F64.gt q.x zero then F64.ofInt 1
  else if F64.gt zero q.x then F64.ofInt (-1)
  else if F64.gt q.y zero then F64.ofInt 1
  else if F64.gt zero q.y then F64.ofInt (-1)
  else if F64.gt q.z zero then F64.ofInt 1
  else F64.ofInt (-1)

/-- Validate the components in order. -/
def validate (q : Quaternion F) : Except CanonicalError Unit := do
  validateF64 q.w "quaternion.w"
  validateF64 q.x "quaternion.x"
  validateF64 q.y "quaternion.y"
  validateF64 q.z "quaternion.z"

/-- Validate, normalize and bring into the hemisphere. -/
def canonicalized (q : Quaternion F) : Except CanonicalError (Quaternion F) := do
  q.validate
  let n := q.norm
  -- Zero and subnormal norms cannot be normalized.
  if CanonicalF64.le n CanonicalF64.minPositive then throw .zeroNormQuaternion
  else
    let u := q.map (· / n)
    return u.map (u.sign * ·)

/-- Quantize the components. -/
def toCanonical (q : Quaternion F) : CanonicalQuaternion :=
  { w := quantize q.w Scale.quaternion
    x := quantize q.x Scale.quaternion
    y := quantize q.y Scale.quaternion
    z := quantize q.z Scale.quaternion }

theorem validate_eq_ok_iff {q : Quaternion F} :
    q.validate = .ok () ↔ ∀ v ∈ q.toList, Finite64 v := by
  unfold validate toList
  rw [Outcome.except_check_eq_ok, Outcome.except_check_eq_ok, Outcome.except_check_eq_ok]
  simp only [validateF64_eq_ok_iff, List.forall_mem_cons, List.not_mem_nil, false_imp_iff,
    implies_true, and_true]

/-- Finite components are normalized, unless their norm is too small. -/
theorem canonicalized_of_finite {q : Quaternion F} (h : ∀ v ∈ q.toList, Finite64 v) :
    q.canonicalized =
      if CanonicalF64.le q.norm (CanonicalF64.minPositive : F) then .error .zeroNormQuaternion
      else .ok ((q.map (· / q.norm)).map ((q.map (· / q.norm)).sign * ·)) := by
  unfold canonicalized
  rw [validate_eq_ok_iff.mpr h]
  rfl

/-- Only finite components are accepted. -/
theorem finite_of_canonicalized {q u : Quaternion F} (h : q.canonicalized = .ok u) :
    ∀ v ∈ q.toList, Finite64 v := by
  unfold canonicalized at h
  rw [Outcome.except_check_eq_ok] at h
  exact validate_eq_ok_iff.mp h.1

/-- What fails the same checks is canonicalized to the same error. -/
theorem canonicalized_of_not_finite {q q' : Quaternion F} (h : ¬ ∀ v ∈ q.toList, Finite64 v)
    (hsame : q'.validate = q.validate) : q'.canonicalized = q.canonicalized := by
  unfold canonicalized
  rw [hsame]
  cases hv : q.validate with
  | ok => exact absurd (validate_eq_ok_iff.mp hv) h
  | error e => rfl

end Quaternion

/-- A raw observation in SI units. -/
structure PhysicalObservation (F : Type) where
  positionM : Vector F 3
  velocityMs : Vector F 3
  attitude : Quaternion F
  observedAtNanos : Int64

namespace CanonicalState

variable {F : Type} [CanonicalF64 F]

def positionNames : Vector String 3 := #v["position.x", "position.y", "position.z"]

def velocityNames : Vector String 3 := #v["velocity.x", "velocity.y", "velocity.z"]

/-- The whole pipeline. -/
def canonicalize (raw : PhysicalObservation F) : Except CanonicalError CanonicalState := do
  validateVector raw.positionM positionNames
  validateVector raw.velocityMs velocityNames
  let q ← raw.attitude.canonicalized
  return {
    positionMm := raw.positionM.map (quantize · Scale.position)
    velocityMms := raw.velocityMs.map (quantize · Scale.velocity)
    attitude := q.toCanonical
    observedAtNanos := raw.observedAtNanos }

/-- Canonicalize a canonical state again: the quaternion is taken apart and
    quantized, and not normalized. -/
def recanonicalize (F : Type) [CanonicalF64 F] (s : CanonicalState) :
    Except CanonicalError CanonicalState :=
  let again (x : Int64) := quantize (dequantize F x Scale.quaternion) Scale.quaternion
  let q : CanonicalQuaternion :=
    ⟨again s.attitude.w, again s.attitude.x, again s.attitude.y, again s.attitude.z⟩
  .ok { s with attitude := q }

/-- A canonical state as an observation. -/
def dequantized (F : Type) [F64 F] (s : CanonicalState) : PhysicalObservation F :=
  { positionM := s.positionMm.map (dequantize F · Scale.position)
    velocityMs := s.velocityMms.map (dequantize F · Scale.velocity)
    attitude :=
      ⟨dequantize F s.attitude.w Scale.quaternion, dequantize F s.attitude.x Scale.quaternion,
        dequantize F s.attitude.y Scale.quaternion, dequantize F s.attitude.z Scale.quaternion⟩
    observedAtNanos := s.observedAtNanos }

/-- What is accepted and what it becomes. -/
theorem canonicalize_eq_ok_iff (raw : PhysicalObservation F) (s : CanonicalState) :
    canonicalize raw = .ok s ↔
      (∀ i, Finite64 (raw.positionM.get i)) ∧ (∀ i, Finite64 (raw.velocityMs.get i)) ∧
        ∃ q, raw.attitude.canonicalized = .ok q ∧
          s = { positionMm := raw.positionM.map (quantize · Scale.position)
                velocityMms := raw.velocityMs.map (quantize · Scale.velocity)
                attitude := q.toCanonical
                observedAtNanos := raw.observedAtNanos } := by
  unfold canonicalize
  rw [Outcome.except_check_eq_ok, Outcome.except_check_eq_ok, Outcome.except_bind_eq_ok,
    validateVector_eq_ok_iff, validateVector_eq_ok_iff]
  simp only [pure, Except.pure, Except.ok.injEq, eq_comm (b := s)]

/-- Two observations that differ in an attitude that is canonicalized to the same
    are canonicalized to the same. -/
theorem canonicalize_congr (raw : PhysicalObservation F) {q : Quaternion F}
    (h : q.canonicalized = raw.attitude.canonicalized) :
    canonicalize { raw with attitude := q } = canonicalize raw := by
  unfold canonicalize
  simp only [h]

end CanonicalState

end Seven
