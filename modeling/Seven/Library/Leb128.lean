import Mathlib.Data.Nat.Log
import Mathlib.Data.Nat.Notation
import Mathlib.Tactic.Ring

/-!
# LEB128 Varints

Little-endian base-128 numbers with a bounded number of bytes. Every byte but
the last carries the continuation bit, so a number on the wire is a *group*:
some bytes at or above 128 and then one below it.

The writer and the reader are stated with a number of slots, the most bytes a
number may take. The reader also bounds the byte in the last slot by `last`,
which is how a 64-bit reader with ten slots keeps its value below `2 ^ 64`.
Both are structural in the slots, so they evaluate.

A group has exactly one value, but a value has many groups: padding a number
with a zero top digit does not change it. `Minimal` singles out the group the
writer produces, and `decode_eq_ok_iff` says which groups the reader takes.
The gap between the two is what a codec built on this reader has to close by
itself if it wants one encoding per value.

## Main definitions

* `encode`: The bytes of a number.
* `decode`: Reading a number off the front of a byte string.
* `IsGroup`: Continued bytes followed by one final byte.
* `value`: The number a group denotes.
* `Fits`: The groups a reader with bounded slots takes.
* `Minimal`: The groups without a zero top digit.

## Theorems

* `decode_eq_ok_iff`: The reader takes exactly the groups that fit.
* `encode_isGroup`, `encode_minimal`, `value_encode`: What the writer emits.
* `length_encode`: How long it is.
* `value_lt`: A group that fits denotes a bounded number.
* `encode_value`: The writer gives a minimal group back.
* `decode_encode`: Reading what was written.
* `isGroup_append_inj`: A byte string starts with at most one group.
-/

namespace Leb128

/-- Why a number could not be read. -/
inductive Error where
  | unexpectedEnd
  | badVarint
  deriving DecidableEq, Repr

/-- The bytes of `n`, seven bits each and lowest first, in at most `slots` bytes. -/
def encode : (slots : Nat) → (n : Nat) → List UInt8
  | 0, _ => []
  | k + 1, n =>
      if n < 128 then [UInt8.ofNat n] else UInt8.ofNat (n % 128 + 128) :: encode k (n / 128)

/-- Read one number and return it with the bytes after it. The byte in the last
    slot may not exceed `last`. -/
def decode (last : Nat) : (slots : Nat) → List UInt8 → Except Error (Nat × List UInt8)
  | 0, _ => .error .badVarint
  | _ + 1, [] => .error .unexpectedEnd
  | k + 1, b :: rest =>
      if b.toNat < 128 then
        if k = 0 ∧ last < b.toNat then .error .badVarint else .ok (b.toNat, rest)
      else
        match decode last k rest with
        | .ok (n, rest') => .ok (b.toNat - 128 + 128 * n, rest')
        | .error e => .error e

/-- Bytes with the continuation bit, then one byte without it. -/
inductive IsGroup : List UInt8 → Prop
  | last (b : UInt8) : b.toNat < 128 → IsGroup [b]
  | more (b : UInt8) (g : List UInt8) : 128 ≤ b.toNat → IsGroup g → IsGroup (b :: g)

/-- The number a group denotes. -/
def value : List UInt8 → Nat
  | [] => 0
  | b :: g => b.toNat % 128 + 128 * value g

/-- The group stays within the slots, its byte in the last slot within `last`. -/
def Fits (last slots : Nat) (g : List UInt8) : Prop :=
  g.length ≤ slots ∧ (g.length = slots → ∀ b ∈ g.getLast?, b.toNat ≤ last)

/-- The top digit is not a padding zero. -/
def Minimal (g : List UInt8) : Prop :=
  g.length = 1 ∨ ∀ b ∈ g.getLast?, b.toNat ≠ 0

-- A group has its final byte at least.
theorem IsGroup.ne_nil {g : List UInt8} (h : IsGroup g) : g ≠ [] := by
  cases h with
  | last b _ => exact List.cons_ne_nil _ _
  | more b g _ _ => exact List.cons_ne_nil _ _

theorem IsGroup.length_pos {g : List UInt8} (h : IsGroup g) : 0 < g.length :=
  List.length_pos_iff.mpr h.ne_nil

theorem toNat_ofNat_of_lt {n : Nat} (h : n < 256) : (UInt8.ofNat n).toNat = n := by
  rw [UInt8.toNat_ofNat']
  exact Nat.mod_eq_of_lt h

-- The final byte of a longer group is that of its tail.
theorem getLast?_cons_of_isGroup {b : UInt8} {g : List UInt8} (h : IsGroup g) :
    (b :: g).getLast? = g.getLast? := by
  cases g with
  | nil => exact absurd rfl h.ne_nil
  | cons c g => rw [List.getLast?_cons_cons]

-- A continued byte takes one slot and leaves the last one alone.
theorem fits_cons {last slots : Nat} {b : UInt8} {g : List UInt8} (h : IsGroup g) :
    Fits last (slots + 1) (b :: g) ↔ Fits last slots g := by
  unfold Fits
  rw [getLast?_cons_of_isGroup h, List.length_cons]
  simp only [Nat.add_le_add_iff_right, Nat.add_right_cancel_iff]

theorem minimal_cons {b : UInt8} {g : List UInt8} (h : IsGroup g) :
    Minimal (b :: g) ↔ ∀ c ∈ g.getLast?, c.toNat ≠ 0 := by
  have hpos := h.length_pos
  unfold Minimal
  rw [getLast?_cons_of_isGroup h, List.length_cons]
  constructor
  · rintro (hlen | hlast)
    · omega
    · exact hlast
  · exact Or.inr

/-- A byte string starts with at most one group: a group ends at the first
    byte without the continuation bit. -/
theorem isGroup_append_inj {g g' : List UInt8} (h : IsGroup g) (h' : IsGroup g')
    {r r' : List UInt8} (heq : g ++ r = g' ++ r') : g = g' ∧ r = r' := by
  induction h generalizing g' with
  | last b hb =>
      cases h' with
      | last c _ =>
          simp only [List.cons_append, List.nil_append, List.cons.injEq] at heq
          exact ⟨by rw [heq.1], heq.2⟩
      -- A byte with and one without the continuation bit are not the same.
      | more c g hc _ =>
          simp only [List.cons_append, List.nil_append, List.cons.injEq] at heq
          rw [heq.1] at hb
          omega
  | more b g hb _ ih =>
      cases h' with
      | last c hc =>
          simp only [List.cons_append, List.nil_append, List.cons.injEq] at heq
          rw [heq.1] at hb
          omega
      | more c g₂ _ hg₂ =>
          simp only [List.cons_append, List.cons.injEq] at heq
          rcases ih hg₂ heq.2 with ⟨hg, hr⟩
          exact ⟨by rw [heq.1, hg], hr⟩

theorem value_singleton {b : UInt8} (hb : b.toNat < 128) : value [b] = b.toNat := by
  simp only [value, Nat.mul_zero, Nat.add_zero, Nat.mod_eq_of_lt hb]

/-- Reading a final byte: the number is that byte, if it may stand in its slot. -/
theorem decode_final {last k n : Nat} {b : UInt8} {tl rest : List UInt8} (hb : b.toNat < 128) :
    decode last (k + 1) (b :: tl) = .ok (n, rest) ↔
      Fits last (k + 1) [b] ∧ b.toNat = n ∧ tl = rest := by
  have hfit : Fits last (k + 1) [b] ↔ ¬(k = 0 ∧ last < b.toNat) := by
    simp only [Fits, List.length_cons, List.length_nil, List.getLast?_singleton,
      Option.mem_some_iff, forall_eq']
    omega
  rw [decode, if_pos hb, hfit]
  by_cases hbad : k = 0 ∧ last < b.toNat
  · rw [if_pos hbad]
    simp only [reduceCtorEq, hbad, and_self, not_true_eq_false, false_and]
  · rw [if_neg hbad]
    simp only [Except.ok.injEq, Prod.mk.injEq, hbad, not_false_eq_true, true_and]

/-- Reading a continued byte: it is the low digit of what follows. -/
theorem decode_continued {last k n : Nat} {b : UInt8} {tl rest : List UInt8}
    (hb : 128 ≤ b.toNat) :
    decode last (k + 1) (b :: tl) = .ok (n, rest) ↔
      ∃ m, decode last k tl = .ok (m, rest) ∧ b.toNat % 128 + 128 * m = n := by
  have hdigit : b.toNat % 128 = b.toNat - 128 := by
    have hbyte := b.toNat_lt
    omega
  rw [decode, if_neg (by omega), hdigit]
  cases decode last k tl with
  | error e => simp only [reduceCtorEq, false_and, exists_false]
  | ok p =>
      simp only [Except.ok.injEq, Prod.mk.injEq]
      constructor
      · intro h
        exact ⟨p.1, ⟨by rw [← h.2], h.1⟩⟩
      · intro hexists
        rcases hexists with ⟨m, rfl, hn⟩
        exact ⟨hn, rfl⟩

/-- The reader takes exactly the groups that fit, and returns their value. -/
theorem decode_eq_ok_iff (last slots : Nat) (bs : List UInt8) (n : Nat) (rest : List UInt8) :
    decode last slots bs = .ok (n, rest) ↔
      ∃ g, IsGroup g ∧ Fits last slots g ∧ bs = g ++ rest ∧ n = value g := by
  -- Induction on the slots: the first byte decides whether the group goes on.
  induction slots generalizing bs n with
  | zero =>
      simp only [decode, reduceCtorEq, false_iff, not_exists, not_and]
      intro g hg hfit
      -- Without slots no group fits, since none is empty.
      have := hg.length_pos
      have := hfit.1
      omega
  | succ k ih =>
      cases bs with
      | nil =>
          simp only [decode, reduceCtorEq, false_iff, not_exists, not_and]
          intro g hg _ hnil
          rw [eq_comm, List.append_eq_nil_iff] at hnil
          exact absurd hnil.1 hg.ne_nil
      | cons b tl =>
          by_cases hb : b.toNat < 128
          · rw [decode_final hb]
            constructor
            · intro h
              rcases h with ⟨hfit, rfl, rfl⟩
              exact ⟨[b], IsGroup.last b hb, hfit, rfl, (value_singleton hb).symm⟩
            · intro h
              rcases h with ⟨g, hg, hfit, heq, rfl⟩
              -- A group that starts with a final byte is that byte.
              have hone : [b] ++ tl = g ++ rest := heq
              rcases isGroup_append_inj (IsGroup.last b hb) hg hone with ⟨rfl, htl⟩
              exact ⟨hfit, (value_singleton hb).symm, htl⟩
          · rw [decode_continued (by omega)]
            constructor
            · intro h
              rcases h with ⟨m, hd, rfl⟩
              rcases (ih tl m).mp hd with ⟨g, hg, hfit, htl, hm⟩
              exact ⟨b :: g, IsGroup.more b g (by omega) hg, (fits_cons hg).mpr hfit,
                by rw [htl, List.cons_append], by rw [value, hm]⟩
            · intro h
              rcases h with ⟨g, hg, hfit, heq, rfl⟩
              cases hg with
              | last c hc =>
                  simp only [List.cons_append, List.nil_append, List.cons.injEq] at heq
                  rw [heq.1] at hb
                  omega
              | more c g _ hg =>
                  simp only [List.cons_append, List.cons.injEq] at heq
                  have hd := (ih tl (value g)).mpr ⟨g, hg, (fits_cons hg).mp hfit, heq.2, rfl⟩
                  exact ⟨value g, hd, by rw [value, heq.1]⟩

/-- The bound a number must meet to be written in `k + 1` slots. -/
theorem div_lt_bound {last k n : Nat} (h : n < (last + 1) * 128 ^ (k + 1)) :
    n / 128 < (last + 1) * 128 ^ k := by
  rw [Nat.div_lt_iff_lt_mul (by omega)]
  calc n < (last + 1) * 128 ^ (k + 1) := h
    _ = (last + 1) * 128 ^ k * 128 := by ring

-- A number below 128 is its own last byte.
theorem encode_of_lt {k n : Nat} (hn : n < 128) : encode (k + 1) n = [UInt8.ofNat n] := by
  rw [encode, if_pos hn]

/-- A single digit is a group of its own value. -/
theorem isGroup_digit {n : Nat} (hn : n < 128) :
    IsGroup [UInt8.ofNat n] ∧ value [UInt8.ofNat n] = n := by
  have hb := toNat_ofNat_of_lt (show n < 256 by omega)
  exact ⟨IsGroup.last _ (by omega), by rw [value_singleton (by omega), hb]⟩

theorem getLast?_digit {n : Nat} (hn : n < 128) (hne : n ≠ 0) :
    ∀ b ∈ [UInt8.ofNat n].getLast?, b.toNat ≠ 0 := by
  have hb := toNat_ofNat_of_lt (show n < 256 by omega)
  simpa only [List.getLast?_singleton, Option.mem_some_iff, forall_eq', hb] using hne

/-- The writer emits one group, of the number's value. -/
theorem encode_isGroup (last k n : Nat) (hlast : last < 128) (h : n < (last + 1) * 128 ^ k) :
    IsGroup (encode (k + 1) n) ∧ value (encode (k + 1) n) = n := by
  induction k generalizing n with
  | zero =>
      have hn : n < 128 := by
        rw [Nat.pow_zero, Nat.mul_one] at h
        omega
      rw [encode_of_lt hn]
      exact isGroup_digit hn
  | succ k ih =>
      by_cases hn : n < 128
      · rw [encode_of_lt hn]
        exact isGroup_digit hn
      -- The low digit with the continuation bit, then the group of the rest.
      · have hb := toNat_ofNat_of_lt (show n % 128 + 128 < 256 by omega)
        rcases ih (n / 128) (div_lt_bound h) with ⟨hg, hv⟩
        rw [encode, if_neg hn]
        refine ⟨IsGroup.more _ _ (by omega) hg, ?_⟩
        rw [value, hb, hv]
        omega

theorem value_encode (last k n : Nat) (hlast : last < 128) (h : n < (last + 1) * 128 ^ k) :
    value (encode (k + 1) n) = n :=
  (encode_isGroup last k n hlast h).2

theorem length_encode_le (slots n : Nat) : (encode slots n).length ≤ slots := by
  induction slots generalizing n with
  | zero => exact le_refl 0
  | succ k ih =>
      rw [encode]
      split
      · simp only [List.length_cons, List.length_nil]
        omega
      · have := ih (n / 128)
        rw [List.length_cons]
        omega

/-- With slots enough, one byte for every digit. -/
theorem length_encode {k n : Nat} (h : n < 128 ^ (k + 1)) :
    (encode (k + 1) n).length = Nat.log 128 n + 1 := by
  induction k generalizing n with
  | zero =>
      rw [Nat.zero_add, Nat.pow_one] at h
      rw [encode_of_lt h, Nat.log_of_lt h, List.length_singleton]
  | succ k ih =>
      by_cases hn : n < 128
      · rw [encode_of_lt hn, Nat.log_of_lt hn, List.length_singleton]
      · have hdiv : n / 128 < 128 ^ (k + 1) := by
          rw [Nat.div_lt_iff_lt_mul (by decide), ← Nat.pow_succ]
          exact h
        rw [encode, if_neg hn, List.length_cons, ih hdiv,
          Nat.log_of_one_lt_of_le (by decide) (Nat.le_of_not_lt hn)]

/-- The byte in the last slot is the number's top digit, within the bound. -/
theorem encode_fits (last k n : Nat) (hlast : last < 128) (h : n < (last + 1) * 128 ^ k) :
    Fits last (k + 1) (encode (k + 1) n) := by
  induction k generalizing n with
  | zero =>
      rw [Nat.pow_zero, Nat.mul_one] at h
      have hb := toNat_ofNat_of_lt (show n < 256 by omega)
      rw [encode_of_lt (by omega)]
      simp only [Fits, List.length_cons, List.length_nil, List.getLast?_singleton,
        Option.mem_some_iff, forall_eq', hb]
      omega
  | succ k ih =>
      by_cases hn : n < 128
      · rw [encode_of_lt hn]
        simp only [Fits, List.length_cons, List.length_nil]
        omega
      · rw [encode, if_neg hn]
        exact (fits_cons (encode_isGroup last k _ hlast (div_lt_bound h)).1).mpr
          (ih _ (div_lt_bound h))

/-- The writer never pads: the top digit of a number of several digits is
    not zero. -/
theorem encode_minimal (last k n : Nat) (hlast : last < 128) (h : n < (last + 1) * 128 ^ k) :
    Minimal (encode (k + 1) n) ∧ (n ≠ 0 → ∀ b ∈ (encode (k + 1) n).getLast?, b.toNat ≠ 0) := by
  induction k generalizing n with
  | zero =>
      rw [Nat.pow_zero, Nat.mul_one] at h
      rw [encode_of_lt (by omega)]
      exact ⟨Or.inl rfl, getLast?_digit (by omega)⟩
  | succ k ih =>
      by_cases hn : n < 128
      · rw [encode_of_lt hn]
        exact ⟨Or.inl rfl, getLast?_digit hn⟩
      · rw [encode, if_neg hn]
        have hg := (encode_isGroup last k _ hlast (div_lt_bound h)).1
        have htop := (ih _ (div_lt_bound h)).2 (by omega)
        refine ⟨(minimal_cons hg).mpr htop, fun _ => ?_⟩
        rw [getLast?_cons_of_isGroup hg]
        exact htop

theorem value_pos_of_top {g : List UInt8} (h : IsGroup g)
    (htop : ∀ b ∈ g.getLast?, b.toNat ≠ 0) : 0 < value g := by
  induction h with
  | last b hb =>
      have hne : b.toNat ≠ 0 := by
        simpa only [List.getLast?_singleton, Option.mem_some_iff, forall_eq'] using htop
      rw [value_singleton hb]
      omega
  | more b g _ hg ih =>
      rw [getLast?_cons_of_isGroup hg] at htop
      have := ih htop
      rw [value]
      omega

/-- A group that fits denotes a number the writer has room for. -/
theorem value_lt {last k : Nat} {g : List UInt8} (h : IsGroup g) (hfit : Fits last (k + 1) g)
    (hlast : last < 128) : value g < (last + 1) * 128 ^ k := by
  induction h generalizing k with
  | last b hb =>
      rw [value_singleton hb]
      cases k with
      | zero =>
          have := hfit.2 rfl b rfl
          rw [Nat.pow_zero]
          omega
      | succ k =>
          -- With more than one slot left any final byte is within the bound.
          have hpow : 128 ≤ (last + 1) * 128 ^ (k + 1) := by
            calc 128 = 1 * 128 ^ 1 := by norm_num
              _ ≤ (last + 1) * 128 ^ (k + 1) :=
                Nat.mul_le_mul (by omega) (Nat.pow_le_pow_right (by omega) (by omega))
          omega
  | more b g _ hg ih =>
      cases k with
      | zero =>
          -- A continued byte cannot stand in the last slot.
          have := hfit.1
          have := hg.length_pos
          simp only [List.length_cons] at *
          omega
      | succ k =>
          have hrec := ih ((fits_cons hg).mp hfit)
          have hmod := Nat.mod_lt b.toNat (show 128 > 0 by omega)
          have hpow : (last + 1) * 128 ^ (k + 1) = 128 * ((last + 1) * 128 ^ k) := by ring
          rw [value, hpow]
          omega

/-- A minimal group is what the writer emits for its value. -/
theorem encode_value {slots : Nat} {g : List UInt8} (h : IsGroup g) (hm : Minimal g)
    (hlen : g.length ≤ slots) : encode slots (value g) = g := by
  induction h generalizing slots with
  | last b hb =>
      cases slots with
      | zero => simp only [List.length_cons, List.length_nil] at hlen; omega
      | succ k =>
          rw [value_singleton hb, encode_of_lt hb, UInt8.ofNat_toNat]
  | more b g hb hg ih =>
      cases slots with
      | zero => simp only [List.length_cons] at hlen; omega
      | succ k =>
          have htop := (minimal_cons hg).mp hm
          have hpos := value_pos_of_top hg htop
          have hbyte := b.toNat_lt
          rw [List.length_cons] at hlen
          rw [value, encode, if_neg (by omega)]
          -- The tail denotes a positive number, so the writer continues here too.
          have hhead : (b.toNat % 128 + 128 * value g) % 128 + 128 = b.toNat := by omega
          have htail : (b.toNat % 128 + 128 * value g) / 128 = value g := by omega
          rw [hhead, htail, UInt8.ofNat_toNat, ih (Or.inr htop) (by omega)]

/-- Reading what was written gives the number back and leaves what follows. -/
theorem decode_encode (last k n : Nat) (rest : List UInt8) (hlast : last < 128)
    (h : n < (last + 1) * 128 ^ k) :
    decode last (k + 1) (encode (k + 1) n ++ rest) = .ok (n, rest) := by
  rw [decode_eq_ok_iff]
  rcases encode_isGroup last k n hlast h with ⟨hg, hv⟩
  exact ⟨_, hg, encode_fits last k n hlast h, rfl, hv.symm⟩

end Leb128
