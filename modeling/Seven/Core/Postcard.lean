import Seven.Library.Leb128
import Seven.Library.Outcome
import Mathlib.Data.Nat.Cast.Order.Basic

/-!
# Postcard Integers

The part of the postcard 1.x wire format the canonical codec rests on. An `i64`
is zigzagged into an unsigned number and written as a varint of at most ten
bytes; structs and arrays are concatenations of their fields, with no header of
their own. Reading takes a value from the front of the slice and hands back the
rest.

The reader takes any group of at most ten bytes whose tenth byte is at most 1,
padded or not, so `readI64` is a left inverse of `writeI64` and not a right
one. `writeI64_groupI64` is the converse that does hold, for minimal groups.

## Main definitions

* `zigzag`, `unzigzag`: Signed numbers as unsigned ones.
* `writeI64`, `readI64`: One integer on the wire.
* `writeI64s`, `readI64s`: A fixed number of integers, one after the other.
* `Accepted`: The byte groups the reader takes for one integer.
* `groupI64`: The integer an accepted group denotes.
* `digits`: How many digits an integer is written with.

## Theorems

* `readI64s_eq_ok_iff`: A run of integers is read off exactly a run of
  accepted groups.
* `accepted_writeI64`, `minimal_writeI64`, `groupI64_writeI64`: What is written
  for one integer.
* `writeI64_groupI64`: A minimal accepted group is what is written.
* `readI64s_writeI64s`: Reading what was written.
-/

namespace Seven

/-- A `Vec<u8>` or a byte slice. -/
abbrev Bytes := List UInt8

namespace Postcard

/-- The most bytes a 64-bit varint may take. -/
def varintMax : Nat := 10

/-- The largest tenth byte: 63 bits are spent by then. -/
def maxOfLastByte : Nat := 1

/-- Small magnitudes of either sign become small numbers. -/
def zigzag (x : Int) : Nat :=
  if 0 ≤ x then (2 * x).toNat else (-2 * x - 1).toNat

def unzigzag (n : Nat) : Int :=
  if n % 2 = 0 then (n / 2 : Nat) else -(n / 2 : Nat) - 1

/-- The text of a decoding error. -/
def errorText : Leb128.Error → String
  | .unexpectedEnd => "Hit the end of buffer, expected more data"
  | .badVarint =>
      "Found a varint that didn't terminate. Is the usize too big for this platform?"

def writeI64 (x : Int64) : Bytes :=
  Leb128.encode varintMax (zigzag x.toInt)

def readI64 (bs : Bytes) : Except Leb128.Error (Int64 × Bytes) := do
  let (n, rest) ← Leb128.decode maxOfLastByte varintMax bs
  return (Int64.ofInt (unzigzag n), rest)

/-- The fields of a struct or the elements of an array, in order. -/
def writeI64s (xs : List Int64) : Bytes :=
  xs.flatMap writeI64

def readI64s : (n : Nat) → Bytes → Except Leb128.Error (Vector Int64 n × Bytes)
  | 0, bs => .ok (#v[], bs)
  | n + 1, bs => do
      let (xs, bs) ← readI64s n bs
      let (x, bs) ← readI64 bs
      return (xs.push x, bs)

-- Non-negative numbers take the even codes, negative ones the odd codes.
theorem unzigzag_zigzag (x : Int) : unzigzag (zigzag x) = x := by
  unfold zigzag unzigzag
  by_cases h : 0 ≤ x
  · rw [if_pos h, if_pos (by omega)]
    omega
  · rw [if_neg h, if_neg (by omega)]
    omega

theorem zigzag_unzigzag (n : Nat) : zigzag (unzigzag n) = n := by
  unfold zigzag unzigzag
  by_cases h : n % 2 = 0
  · rw [if_pos h, if_pos (by omega)]
    omega
  · rw [if_neg h, if_neg (by omega)]
    omega

/-- The bound a ten-byte varint has room for, in the form the library states
    it. -/
theorem varint_bound : (maxOfLastByte + 1) * 128 ^ 9 = 2 ^ 64 := by
  norm_num [maxOfLastByte]

theorem zigzag_lt (x : Int64) : zigzag x.toInt < 2 ^ 64 := by
  have hlo := x.le_toInt
  have hhi := x.toInt_lt
  unfold zigzag
  split <;> omega

theorem unzigzag_range {n : Nat} (h : n < 2 ^ 64) :
    -2 ^ 63 ≤ unzigzag n ∧ unzigzag n < 2 ^ 63 := by
  unfold unzigzag
  split <;> omega

/-- The byte groups the reader takes for one integer. -/
def Accepted (g : Bytes) : Prop :=
  Leb128.IsGroup g ∧ Leb128.Fits maxOfLastByte varintMax g

/-- The integer an accepted group denotes. -/
def groupI64 (g : Bytes) : Int64 :=
  Int64.ofInt (unzigzag (Leb128.value g))

theorem accepted_value_lt {g : Bytes} (h : Accepted g) : Leb128.value g < 2 ^ 64 := by
  rw [← varint_bound]
  exact Leb128.value_lt h.1 h.2 (by decide)

theorem readI64_eq_ok_iff (bs : Bytes) (x : Int64) (rest : Bytes) :
    readI64 bs = .ok (x, rest) ↔ ∃ g, Accepted g ∧ bs = g ++ rest ∧ x = groupI64 g := by
  unfold readI64
  -- The reader is the library's on ten slots; only the sign is undone.
  rw [Outcome.except_bind_eq_ok]
  simp only [Prod.exists, Leb128.decode_eq_ok_iff, pure, Except.pure, Except.ok.injEq,
    Prod.mk.injEq]
  constructor
  · rintro ⟨n, r, ⟨g, hg, hfit, hbs, rfl⟩, hx, rfl⟩
    exact ⟨g, ⟨hg, hfit⟩, hbs, hx.symm⟩
  · rintro ⟨g, ⟨hg, hfit⟩, hbs, rfl⟩
    exact ⟨_, rest, ⟨g, hg, hfit, hbs, rfl⟩, rfl, rfl⟩

/-- A run of integers is read off exactly a run of accepted groups. -/
theorem readI64s_eq_ok_iff (n : Nat) (bs : Bytes) (xs : Vector Int64 n) (rest : Bytes) :
    readI64s n bs = .ok (xs, rest) ↔
      ∃ gs : List Bytes, gs.length = n ∧ (∀ g ∈ gs, Accepted g) ∧
        bs = gs.flatten ++ rest ∧ xs.toList = gs.map groupI64 := by
  induction n generalizing rest with
  | zero =>
      have hxs : xs = #v[] := Vector.eq_empty
      simp only [readI64s, Except.ok.injEq, Prod.mk.injEq, hxs, true_and,
        List.length_eq_zero_iff]
      constructor
      · rintro rfl
        exact ⟨[], rfl, by simp only [List.not_mem_nil, false_implies, implies_true], rfl, rfl⟩
      · intro h
        rcases h with ⟨gs, rfl, _, hbs, _⟩
        exact hbs
  | succ n ih =>
      simp only [readI64s, Outcome.except_bind_eq_ok, Prod.exists, ih, readI64_eq_ok_iff, pure,
        Except.pure, Except.ok.injEq, Prod.mk.injEq]
      constructor
      -- The shorter run, then one group more at its end.
      · rintro ⟨ys, mid, ⟨gs, hlen, hacc, hbs, hys⟩, y, r, ⟨g, hg, hmid, rfl⟩, rfl, rfl⟩
        refine ⟨gs ++ [g], ?_, ?_, ?_, ?_⟩
        · rw [List.length_append, hlen, List.length_singleton]
        · intro c hc
          rcases List.mem_append.mp hc with hc | hc
          · exact hacc c hc
          · rw [List.mem_singleton.mp hc]
            exact hg
        · rw [hbs, hmid, List.flatten_append, List.flatten_singleton, List.append_assoc]
        · rw [Vector.toList_push, hys, List.map_append, List.map_singleton]
      · intro h
        rcases h with ⟨gs, hlen, hacc, hbs, hxs⟩
        -- Split the last group off; the others are the shorter run.
        rcases List.eq_nil_or_concat gs with rfl | ⟨init, g, rfl⟩
        · simp only [List.length_nil] at hlen
          omega
        · rw [List.concat_eq_append] at *
          rw [List.length_append, List.length_singleton] at hlen
          rw [List.map_append, List.map_singleton] at hxs
          have hinit : ∀ c ∈ init, Accepted c := fun c hc =>
            hacc c (List.mem_append_left _ hc)
          have hlen' : (init.map groupI64).toArray.size = n := by
            rw [List.size_toArray, List.length_map]
            omega
          refine ⟨⟨(init.map groupI64).toArray, hlen'⟩, g ++ rest,
            ⟨init, by omega, hinit, ?_, rfl⟩, groupI64 g, rest,
            ⟨g, hacc g (List.mem_append_right _ (List.mem_singleton_self g)), rfl, rfl⟩, ?_, rfl⟩
          · rw [hbs, List.flatten_append, List.flatten_singleton, List.append_assoc]
          · rw [← Vector.toList_inj, Vector.toList_push, hxs]
            rfl

theorem accepted_writeI64 (x : Int64) : Accepted (writeI64 x) := by
  have h := zigzag_lt x
  rw [← varint_bound] at h
  exact ⟨(Leb128.encode_isGroup _ 9 _ (by decide) h).1, Leb128.encode_fits _ 9 _ (by decide) h⟩

theorem minimal_writeI64 (x : Int64) : Leb128.Minimal (writeI64 x) := by
  have h := zigzag_lt x
  rw [← varint_bound] at h
  exact (Leb128.encode_minimal _ 9 _ (by decide) h).1

theorem groupI64_writeI64 (x : Int64) : groupI64 (writeI64 x) = x := by
  have h := zigzag_lt x
  rw [← varint_bound] at h
  rw [groupI64, writeI64, varintMax, Leb128.value_encode _ 9 _ (by decide) h, unzigzag_zigzag,
    Int64.ofInt_toInt]

theorem length_writeI64_le (x : Int64) : (writeI64 x).length ≤ 10 :=
  Leb128.length_encode_le _ _

/-- The digits to the base 128 that an integer is written with. -/
def digits (x : Int64) : Nat :=
  Nat.log 128 (zigzag x.toInt) + 1

theorem length_writeI64 (x : Int64) : (writeI64 x).length = digits x :=
  Leb128.length_encode ((zigzag_lt x).trans_le (by decide))

theorem length_writeI64s (xs : List Int64) : (writeI64s xs).length = (xs.map digits).sum := by
  rw [writeI64s, List.length_flatMap]
  exact congrArg List.sum (List.map_congr_left fun x _ => length_writeI64 x)

/-- A magnitude of so many bits needs so many digits. -/
theorem digits_le {x : Int64} {k : Nat} (hlow : -2 ^ (7 * k + 6) ≤ x.toInt)
    (hhigh : x.toInt < 2 ^ (7 * k + 6)) : digits x ≤ k + 1 := by
  -- The sign takes one bit more, which makes seven for every digit.
  have hpow : (128 : Nat) ^ (k + 1) = 2 * 2 ^ (7 * k + 6) := by
    rw [← Nat.pow_succ', show (128 : Nat) = 2 ^ 7 from rfl, ← Nat.pow_mul]
    congr 1
  have hcast : ((2 ^ (7 * k + 6) : Nat) : Int) = 2 ^ (7 * k + 6) := by push_cast; rfl
  have hlt : zigzag x.toInt < 128 ^ (k + 1) := by
    rw [← hcast] at hlow hhigh
    rw [hpow]
    unfold zigzag
    split <;> omega
  rw [digits, Nat.add_le_add_iff_right, ← Nat.lt_add_one_iff]
  by_cases hzero : zigzag x.toInt = 0
  · rw [hzero, Nat.log_zero_right]
    exact Nat.succ_pos k
  · exact (Nat.log_lt_iff_lt_pow (by decide) hzero).mpr hlt

/-- A minimal accepted group is what is written for the integer it denotes. -/
theorem writeI64_groupI64 {g : Bytes} (h : Accepted g) (hm : Leb128.Minimal g) :
    writeI64 (groupI64 g) = g := by
  -- An accepted group denotes a 64-bit value, so nothing wraps.
  rcases unzigzag_range (accepted_value_lt h) with ⟨hlo, hhi⟩
  rw [writeI64, groupI64, Int64.toInt_ofInt_of_le hlo hhi, zigzag_unzigzag]
  exact Leb128.encode_value h.1 hm h.2.1

theorem length_writeI64s_le (xs : List Int64) : (writeI64s xs).length ≤ 10 * xs.length := by
  induction xs with
  | nil => exact le_refl 0
  | cons x xs ih =>
      have hx := length_writeI64_le x
      simp only [writeI64s, List.flatMap_cons, List.length_append, List.length_cons] at ih ⊢
      omega

/-- Reading what was written gives the integers back and leaves what follows. -/
theorem readI64s_writeI64s {n : Nat} (xs : Vector Int64 n) (rest : Bytes) :
    readI64s n (writeI64s xs.toList ++ rest) = .ok (xs, rest) := by
  rw [readI64s_eq_ok_iff]
  refine ⟨xs.toList.map writeI64, ?_, ?_, ?_, ?_⟩
  · rw [List.length_map, Vector.length_toList]
  · intro g hg
    rcases List.mem_map.mp hg with ⟨x, _, rfl⟩
    exact accepted_writeI64 x
  · rw [writeI64s, List.flatMap_def]
  · rw [List.map_map]
    simp only [Function.comp_def, groupI64_writeI64, List.map_id']

end Postcard

end Seven
