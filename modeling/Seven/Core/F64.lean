import Mathlib.Logic.Function.Defs

/-!
# Floating Point

Arithmetic on `f64` enters the model as classes, so that what is proved without
looking at numbers holds of the machine's floats and of any other reading of them.
The belief engine needs the operations of `F64`. What the code asks for beside them
is apart: a fingerprint hashes bit patterns and a probability is compared, and
canonicalization tests for special values, rounds and casts.

Lean's `Float` is one such reading of `f64`, with a single not-a-number value.

## Main definitions

* `F64`: The arithmetic that the belief engine does.
* `Binary64`: `f64` with its bit pattern.
* `CanonicalF64`: `f64` with what canonicalization asks of it.
-/

namespace Seven

/-- The arithmetic the engine does on `f64`. -/
class F64 (F : Type) extends Add F, Sub F, Mul F, Div F where
  /-- An integral literal, or an `i64` cast `as f64`. -/
  ofInt : Int → F
  abs : F → F
  sqrt : F → F
  /-- The comparison `>`. -/
  gt : F → F → Bool

/-- `f64` with its bit pattern. -/
class Binary64 (F : Type) extends F64 F where
  /-- The comparison `<=`. -/
  le : F → F → Bool
  toBits : F → UInt64
  toBits_injective : Function.Injective toBits

/-- `f64` with what canonicalization asks of it. -/
class CanonicalF64 (F : Type) extends F64 F where
  isNan : F → Bool
  isInfinite : F → Bool
  /-- `f64::MIN_POSITIVE`, the smallest normal value. -/
  minPositive : F
  /-- The comparison `<=`. -/
  le : F → F → Bool
  roundTiesEven : F → F
  /-- The cast `as i64`: it drops the fraction, saturates, and takes NaN to zero. -/
  toI64 : F → Int64

instance : Binary64 Float where
  ofInt := Float.ofInt
  abs := Float.abs
  sqrt := Float.sqrt
  gt x y := decide (y < x)
  le x y := decide (x ≤ y)
  toBits := Float.toBits
  toBits_injective := by
    rintro ⟨⟨x, hx⟩⟩ ⟨⟨y, hy⟩⟩ h
    have hbits : x = y := h
    subst hbits
    rfl

end Seven
