import Seven.Core.Postcard
import Seven.Library.Chunks
import Mathlib.Tactic.IntervalCases

/-!
# Hexadecimal Text

The error type of the projection and its hexadecimal helpers.

Writing is total and gives two lowercase digits a byte. Reading slices the UTF-8
text at byte offsets 0, 2, 4, … and parses each slice with
`u8::from_str_radix(_, 16)`. Two things follow that a hex reader should not do:
a slice that runs past the end or cuts a character panics, and a slice that is
not two digits is dropped, or taken where it is a plus sign and one digit.

`hexBytes_eq_none_iff` says which strings panic and `hexBytes_of_sliceable` what
the others read as, so nothing later unfolds the loop.

## Main definitions

* `MqlError`: What the projection can fail with.
* `hexSlice`, `hex`: Writing.
* `strSlice`: A slice of a string, undefined where it panics.
* `fromStrRadix16`: `u8::from_str_radix` on a short text.
* `hexBytes`, `parseHex32`: Reading.
* `Sliceable`: The strings that do not panic.

## Theorems

* `hexBytes_of_sliceable`, `hexBytes_eq_none_iff`: What reading does.
* `hexBytes_hexSlice`, `parseHex32_hex`: Reading what was written.
* `parseHex32_eq_panicked_iff`, `parseHex32_eq_err_iff`: When reading 32 bytes
  fails.
-/

namespace Seven

inductive MqlError where
  | subject (message : String)
  | canonical (message : String)
  | unexpectedPayload
  | quic (message : String)
  | lora (message : String)
  deriving DecidableEq, Repr

namespace Mql

/-- The bytes of a `str`. -/
def utf8 (s : String) : Bytes :=
  s.toList.flatMap String.utf8EncodeChar

def hexDigit (n : Nat) : Char :=
  if n < 10 then Char.ofNat (0x30 + n) else Char.ofNat (0x57 + n)

/-- The format `{:02x}`. -/
def hexByte (b : UInt8) : List Char :=
  [hexDigit (b.toNat / 16), hexDigit (b.toNat % 16)]

def hexSlice (bs : Bytes) : String :=
  String.ofList (bs.flatMap hexByte)

def hex (bs : Vector UInt8 32) : String :=
  hexSlice bs.toList

/-- `str::is_char_boundary`: the offset is an end of the string or does not
    point at a continuation byte. -/
def isCharBoundary (text : Bytes) (i : Nat) : Bool :=
  i == 0 || match text[i]? with
    | none => i == text.length
    | some b => !(decide (0x80 ≤ b) && decide (b < 0xC0))

/-- `&s[a..b]`, undefined where it panics. -/
def strSlice (text : Bytes) (a b : Nat) : Option Bytes :=
  if a ≤ b ∧ isCharBoundary text a ∧ isCharBoundary text b then some ((text.drop a).take (b - a))
  else none

/-- `char::to_digit(16)` of a byte. -/
def toDigit16 (b : UInt8) : Option Nat :=
  if 0x30 ≤ b ∧ b ≤ 0x39 then some (b.toNat - 0x30)
  else if 0x61 ≤ b ∧ b ≤ 0x66 then some (b.toNat - 0x57)
  else if 0x41 ≤ b ∧ b ≤ 0x46 then some (b.toNat - 0x37)
  else none

/-- One more digit, with the checked arithmetic of a `u8`. -/
def pushDigit (acc : Nat) (b : UInt8) : Option Nat := do
  let d ← toDigit16 b
  if acc * 16 + d < 256 then some (acc * 16 + d) else none

/-- `u8::from_str_radix(_, 16).ok()`: a leading plus sign is taken when
    something follows it. -/
def fromStrRadix16 (text : Bytes) : Option UInt8 :=
  let digits := if text.head? = some 0x2B ∧ 1 < text.length then text.tail else text
  if digits = [] then none else (digits.foldlM pushDigit 0).map UInt8.ofNat

/-- The stepped loop over byte offsets; undefined where a slice panics. -/
def hexBytes (s : String) : Option Bytes := do
  let text := utf8 s
  let offsets := (List.range ((text.length + 1) / 2)).map (· * 2)
  let slices ← offsets.mapM fun i => strSlice text i (i + 2)
  return slices.filterMap fromStrRadix16

def parseHex32 (s : String) : Outcome MqlError (Vector UInt8 32) := do
  let b ← Outcome.orPanic (hexBytes s)
  if h : b.toArray.size = 32 then .ok ⟨b.toArray, h⟩
  else .err (.canonical ("hex32 expected 32 bytes, got " ++ toString b.length))

/-- An even number of bytes and no character across an even offset: the strings
    on which no slice panics. -/
def Sliceable (s : String) : Prop :=
  (utf8 s).length % 2 = 0 ∧ ∀ i, i * 2 ≤ (utf8 s).length → isCharBoundary (utf8 s) (i * 2) = true

/-- The bytes that the slices of a string read as. -/
def hexPairs (s : String) : Bytes :=
  (Chunks.chunks 2 (utf8 s)).filterMap fromStrRadix16

/-- A string is determined by its bytes. -/
theorem utf8_inj {s t : String} (h : utf8 s = utf8 t) : s = t := by
  have hbytes : ∀ s : String, (utf8 s).toByteArray = s.toByteArray := by
    intro s
    rw [← String.ofList_toList (s := s), String.toByteArray_ofList, utf8, String.toList_ofList,
      List.utf8Encode]
  rw [← String.toByteArray_inj, ← hbytes, ← hbytes, h]

/-- The bytes of a string that is not empty start with a character. -/
theorem exists_utf8EncodeChar_prefix {s : String} (h : s ≠ "") :
    ∃ ch, String.utf8EncodeChar ch <+: utf8 s := by
  cases hs : s.toList with
  | nil => exact absurd (String.toList_eq_nil_iff.mp hs) h
  | cons ch chs => exact ⟨ch, by rw [utf8, hs, List.flatMap_cons]; exact List.prefix_append _ _⟩

theorem utf8_singleton (ch : Char) : utf8 (String.singleton ch) = String.utf8EncodeChar ch := by
  rw [utf8, String.toList_singleton, List.flatMap_singleton]

theorem isCharBoundary_le {text : Bytes} {i : Nat} (h : isCharBoundary text i = true) :
    i ≤ text.length := by
  unfold isCharBoundary at h
  rw [Bool.or_eq_true, beq_iff_eq] at h
  rcases h with rfl | h
  · exact Nat.zero_le _
  · cases hb : text[i]? with
    | none =>
        rw [hb] at h
        exact (beq_iff_eq.mp h).le
    | some b => exact (List.getElem?_eq_some_iff.mp hb).1.le

/-- Every slice of a sliceable string is a two-byte piece of it. -/
theorem hexBytes_of_sliceable {s : String} (h : Sliceable s) : hexBytes s = some (hexPairs s) := by
  have hslice : ∀ i ∈ (List.range (((utf8 s).length + 1) / 2)).map (· * 2),
      strSlice (utf8 s) i (i + 2) = some (((utf8 s).drop i).take 2) := by
    intro i hi
    rcases List.mem_map.mp hi with ⟨j, hj, rfl⟩
    have hlt := List.mem_range.mp hj
    -- With an even length the last slice ends where the string does.
    have hstart := h.2 j (by omega)
    have hend := h.2 (j + 1) (by have heven := h.1; omega)
    rw [Nat.succ_mul] at hend
    rw [strSlice, if_pos ⟨Nat.le_add_right _ _, hstart, hend⟩, Nat.add_sub_cancel_left]
  have hcount : ((utf8 s).length + 1) / 2 = ((utf8 s).length + 2 - 1) / 2 := rfl
  rw [hexBytes, Outcome.option_mapM_of_forall hslice, List.map_map, hexPairs, Chunks.chunks, hcount]
  rfl

/-- A string that is not sliceable has a slice that panics. -/
theorem hexBytes_of_not_sliceable {s : String} (h : ¬ Sliceable s) : hexBytes s = none := by
  rw [hexBytes, Outcome.option_mapM_of_exists]
  · rfl
  by_contra hall
  refine h ?_
  -- Every slice is defined, so both ends of each of them are boundaries.
  have hends : ∀ j < ((utf8 s).length + 1) / 2,
      isCharBoundary (utf8 s) (j * 2) = true ∧ isCharBoundary (utf8 s) (j * 2 + 2) = true := by
    intro j hj
    by_contra hbad
    refine hall ⟨j * 2, List.mem_map_of_mem (List.mem_range.mpr hj), ?_⟩
    rw [strSlice, if_neg fun hand => hbad hand.2]
  have heven : (utf8 s).length % 2 = 0 := by
    by_contra hodd
    -- With an odd length the last slice would end past the string.
    have hlast := isCharBoundary_le (hends ((utf8 s).length / 2) (by omega)).2
    omega
  refine ⟨heven, fun i hi => ?_⟩
  by_cases hlt : i < ((utf8 s).length + 1) / 2
  · exact (hends i hlt).1
  · cases i with
    | zero => rfl
    | succ i =>
        have hend := (hends i (by omega)).2
        rwa [Nat.succ_mul]

theorem hexBytes_eq_none_iff (s : String) : hexBytes s = none ↔ ¬ Sliceable s := by
  refine ⟨fun hnone h => ?_, hexBytes_of_not_sliceable⟩
  rw [hexBytes_of_sliceable h] at hnone
  exact absurd hnone (by simp only [reduceCtorEq, not_false_eq_true])

instance (s : String) : Decidable (Sliceable s) :=
  decidable_of_iff (¬ hexBytes s = none) (by rw [hexBytes_eq_none_iff, not_not])

theorem parseHex32_of_sliceable {s : String} (h : Sliceable s) :
    parseHex32 s =
      if hsize : (hexPairs s).toArray.size = 32 then .ok ⟨(hexPairs s).toArray, hsize⟩
      else .err (.canonical ("hex32 expected 32 bytes, got " ++ toString (hexPairs s).length)) := by
  rw [parseHex32, hexBytes_of_sliceable h]
  rfl

theorem parseHex32_eq_panicked_iff (s : String) : parseHex32 s = .panicked ↔ ¬ Sliceable s := by
  by_cases h : Sliceable s
  · rw [parseHex32_of_sliceable h]
    split <;> simp only [reduceCtorEq, h, not_true_eq_false]
  · rw [parseHex32, hexBytes_of_not_sliceable h]
    simp only [Outcome.orPanic, Outcome.panicked_bind, h, not_false_eq_true]

theorem parseHex32_eq_err_iff (s : String) :
    (∃ err, parseHex32 s = .err err) ↔ Sliceable s ∧ (hexPairs s).length ≠ 32 := by
  by_cases h : Sliceable s
  · rw [parseHex32_of_sliceable h]
    simp only [List.size_toArray, h, true_and]
    split
    · rename_i hsize
      simp only [reduceCtorEq, exists_false, hsize, ne_eq, not_true_eq_false]
    · rename_i hsize
      simp only [Outcome.err.injEq, exists_eq', ne_eq, hsize, not_false_eq_true]
  · rw [parseHex32, hexBytes_of_not_sliceable h]
    simp only [Outcome.orPanic, Outcome.panicked_bind, reduceCtorEq, exists_false, h, false_and]

theorem parseHex32_isOk_iff (s : String) :
    (∃ b, parseHex32 s = .ok b) ↔ Sliceable s ∧ (hexPairs s).length = 32 := by
  by_cases h : Sliceable s
  · rw [parseHex32_of_sliceable h]
    simp only [List.size_toArray, h, true_and]
    split
    · rename_i hsize
      simp only [Outcome.ok.injEq, exists_eq', hsize]
    · rename_i hsize
      simp only [reduceCtorEq, exists_false, hsize]
  · rw [parseHex32, hexBytes_of_not_sliceable h]
    simp only [Outcome.orPanic, Outcome.panicked_bind, reduceCtorEq, exists_false, h, false_and]

/-- The code of a written digit. -/
def digitCode (n : Nat) : UInt8 :=
  if n < 10 then UInt8.ofNat (0x30 + n) else UInt8.ofNat (0x57 + n)

theorem utf8EncodeChar_hexDigit {n : Nat} (hn : n < 16) :
    String.utf8EncodeChar (hexDigit n) = [digitCode n] := by
  interval_cases n <;> rfl

theorem toDigit16_digitCode {n : Nat} (hn : n < 16) : toDigit16 (digitCode n) = some n := by
  interval_cases n <;> rfl

theorem digitCode_ne_plus {n : Nat} (hn : n < 16) : digitCode n ≠ 0x2B := by
  interval_cases n <;> decide

theorem isCharBoundary_digitCode {n : Nat} (hn : n < 16) :
    (!(decide (0x80 ≤ digitCode n) && decide (digitCode n < 0xC0))) = true := by
  interval_cases n <;> rfl

/-- The codes of the two digits of a byte. -/
def byteCodes (b : UInt8) : Bytes :=
  [digitCode (b.toNat / 16), digitCode (b.toNat % 16)]

/-- The text of written bytes is their digit codes. -/
theorem utf8_hexSlice (bs : Bytes) : utf8 (hexSlice bs) = (bs.map byteCodes).flatten := by
  rw [utf8, hexSlice, String.toList_ofList, List.flatMap_assoc, ← List.flatMap_def]
  refine congrArg (bs.flatMap ·) (funext fun b => ?_)
  have hlt := b.toNat_lt
  simp only [hexByte, List.flatMap_cons, List.flatMap_nil, List.append_nil, byteCodes,
    utf8EncodeChar_hexDigit (show b.toNat / 16 < 16 by omega),
    utf8EncodeChar_hexDigit (show b.toNat % 16 < 16 by omega), List.singleton_append]

/-- Two written digits are read back as their byte. -/
theorem fromStrRadix16_byteCodes (b : UInt8) : fromStrRadix16 (byteCodes b) = some b := by
  have hlt := b.toNat_lt
  have hhi : b.toNat / 16 < 16 := by omega
  have hlo : b.toNat % 16 < 16 := by omega
  -- No written digit is a plus sign.
  have hplus : ¬ ((byteCodes b).head? = some 0x2B ∧ 1 < (byteCodes b).length) := by
    intro h
    rcases h with ⟨hhead, _⟩
    exact digitCode_ne_plus hhi (Option.some.inj hhead)
  have hval : (b.toNat / 16) * 16 + b.toNat % 16 = b.toNat := Nat.div_add_mod' _ _
  unfold fromStrRadix16
  rw [if_neg hplus]
  simp only [byteCodes, List.cons_ne_nil, if_false, List.foldlM_cons, List.foldlM_nil, pushDigit,
    toDigit16_digitCode hhi, toDigit16_digitCode hlo, Option.bind_eq_bind, Option.bind_some,
    Nat.zero_mul, Nat.zero_add, if_pos (show b.toNat / 16 < 256 by omega), hval, if_pos hlt,
    Option.pure_def, Option.map_some, UInt8.ofNat_toNat]

theorem length_byteCodes {bs : Bytes} : ∀ l ∈ bs.map byteCodes, l.length = 2 := by
  intro l hl
  rcases List.mem_map.mp hl with ⟨b, _, rfl⟩
  rfl

theorem hexPairs_hexSlice (bs : Bytes) : hexPairs (hexSlice bs) = bs := by
  rw [hexPairs, utf8_hexSlice, Chunks.chunks_flatten Nat.two_pos length_byteCodes,
    List.filterMap_map]
  simp only [Function.comp_def, fromStrRadix16_byteCodes, List.filterMap_some]

/-- Without continuation bytes every offset is a boundary. -/
theorem sliceable_of_forall {s : String} (heven : (utf8 s).length % 2 = 0)
    (hbytes : ∀ c ∈ utf8 s, (!(decide (0x80 ≤ c) && decide (c < 0xC0))) = true) : Sliceable s := by
  refine ⟨heven, fun i hi => ?_⟩
  unfold isCharBoundary
  cases hc : (utf8 s)[i * 2]? with
  | none =>
      -- Past the last byte only the end itself is an offset.
      have hle := List.getElem?_eq_none_iff.mp hc
      have heq : i * 2 = (utf8 s).length := by omega
      simp only [heq, beq_self_eq_true, Bool.or_true]
  | some c => simp only [hbytes c (List.mem_of_getElem? hc), Bool.or_true]

/-- No written byte is a continuation byte. -/
theorem sliceable_hexSlice (bs : Bytes) : Sliceable (hexSlice bs) := by
  refine sliceable_of_forall ?_ fun c hc => ?_
  · rw [utf8_hexSlice, Chunks.length_flatten length_byteCodes, Nat.mul_mod_left]
  · rw [utf8_hexSlice, ← List.flatMap_def] at hc
    rcases List.mem_flatMap.mp hc with ⟨b, _, hb⟩
    have hlt := b.toNat_lt
    simp only [byteCodes, List.mem_cons, List.not_mem_nil, or_false] at hb
    rcases hb with rfl | rfl
    · exact isCharBoundary_digitCode (by omega)
    · exact isCharBoundary_digitCode (by omega)

theorem hexBytes_hexSlice (bs : Bytes) : hexBytes (hexSlice bs) = some bs := by
  rw [hexBytes_of_sliceable (sliceable_hexSlice bs), hexPairs_hexSlice]

theorem parseHex32_hex (bs : Vector UInt8 32) : parseHex32 (hex bs) = .ok bs := by
  rw [parseHex32, hex, hexBytes_hexSlice]
  have hsize : bs.toList.toArray.size = 32 := by rw [List.size_toArray, Vector.length_toList]
  simp only [Outcome.orPanic, Outcome.ok_bind, hsize, dif_pos, Outcome.ok.injEq]
  rfl

end Mql

end Seven
