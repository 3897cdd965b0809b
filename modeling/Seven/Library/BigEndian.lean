import Mathlib.Algebra.Order.Ring.Nat
import Mathlib.Data.List.Induction
import Mathlib.Tactic.Ring

/-!
# Big-Endian Numbers

The `w` bytes of a number, most significant first, and the number of a byte
string. Writing drops what does not fit into `w` bytes, so it is injective on
the numbers below `256 ^ w`.

## Main definitions

* `encode`: The bytes of a number.
* `value`: The number of a byte string.

## Theorems

* `value_encode`: Reading what was written.
* `encode_value`: Writing what was read.
* `encode_inj`: Numbers that fit have different bytes.
-/

namespace BigEndian

/-- The `w` bytes of a number, most significant first. -/
def encode : Nat → Nat → List UInt8
  | 0, _ => []
  | w + 1, n => encode w (n / 256) ++ [UInt8.ofNat n]

/-- The number of a byte string. -/
def value (bs : List UInt8) : Nat :=
  bs.foldl (fun n b => n * 256 + b.toNat) 0

@[simp] theorem length_encode (w n : Nat) : (encode w n).length = w := by
  induction w generalizing n with
  | zero => rfl
  | succ w ih => rw [encode, List.length_append, ih, List.length_singleton]

theorem value_concat (bs : List UInt8) (b : UInt8) :
    value (bs ++ [b]) = value bs * 256 + b.toNat := by
  rw [value, List.foldl_append, List.foldl_cons, List.foldl_nil, value]

/-- Reading what was written, as far as it fits. -/
theorem value_encode (w n : Nat) : value (encode w n) = n % 256 ^ w := by
  induction w generalizing n with
  | zero => rw [Nat.pow_zero, Nat.mod_one, encode, value, List.foldl_nil]
  | succ w ih =>
      have hbyte : (UInt8.ofNat n).toNat = n % 256 := UInt8.toNat_ofNat'
      rw [encode, value_concat, ih, hbyte, Nat.pow_succ, Nat.mul_comm (256 ^ w), Nat.mod_mul]
      ring

/-- Every byte string is what is written for its number. -/
theorem encode_value (bs : List UInt8) : encode bs.length (value bs) = bs := by
  induction bs using List.reverseRecOn with
  | nil => rfl
  | append_singleton bs b ih =>
      have hlt := b.toNat_lt
      have hdiv : (value bs * 256 + b.toNat) / 256 = value bs := by omega
      have hbyte : UInt8.ofNat (value bs * 256 + b.toNat) = b := by
        rw [← UInt8.toNat_inj, UInt8.toNat_ofNat']
        omega
      rw [List.length_append, List.length_singleton, encode, value_concat, hdiv, hbyte, ih]

theorem value_lt (bs : List UInt8) : value bs < 256 ^ bs.length := by
  rw [← encode_value bs, value_encode, length_encode]
  exact Nat.mod_lt _ (Nat.pow_pos (by decide))

/-- Numbers that fit have different bytes. -/
theorem encode_inj {w m n : Nat} (hm : m < 256 ^ w) (hn : n < 256 ^ w)
    (h : encode w m = encode w n) : m = n := by
  have hvalue := congrArg value h
  rwa [value_encode, value_encode, Nat.mod_eq_of_lt hm, Nat.mod_eq_of_lt hn] at hvalue

end BigEndian
