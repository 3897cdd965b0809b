import Seven.Mql.Hex

/-!
# Which Texts Read as 32 Bytes

The hex reader on ASCII text of even length, where no slice panics. It reads the
characters two by two. A pair of hexadecimal digits is its byte, a plus sign and
a digit are the digit's byte, and any other pair is dropped; whether 32 bytes
came out is all that is checked.

So 64 hexadecimal digits read as the bytes they write, in either letter case.
Another text should be rejected, and is as long as the pairs that read are not
32 (`parseHex32_exact_iff`): with 32 of them, and a dropped pair or a plus sign
somewhere, it is taken for an identifier that nobody wrote.

## Main definitions

* `isHexDigit`, `reads`: Characters and pairs that the reader takes.
* `pairs`: The characters of a text two by two.
* `IsHex64`: 64 hexadecimal digits.
* `ReadsExactly`: The text is read as a hex reader should.

## Theorems

* `hexPairs_of_ascii`: What the pairs of a text read as.
* `map_toLower_of_digits`: Digits write the bytes they read as.
* `parseHex32_exact_iff`: Which texts are read as they should be.
-/

namespace Seven

namespace Mql

def isHexDigit (ch : Char) : Bool :=
  ('0' ≤ ch && ch ≤ '9') || ('a' ≤ ch && ch ≤ 'f') || ('A' ≤ ch && ch ≤ 'F')

/-- Two digits, or a plus sign and a digit. -/
def reads (pair : Char × Char) : Bool :=
  (isHexDigit pair.1 || pair.1 == '+') && isHexDigit pair.2

/-- The characters two by two. -/
def pairs : List Char → List (Char × Char)
  | hi :: lo :: rest => (hi, lo) :: pairs rest
  | _ => []

/-- 64 hexadecimal digits. -/
def IsHex64 (s : String) : Prop :=
  s.toList.length = 64 ∧ ∀ ch ∈ s.toList, isHexDigit ch = true

/-- The text is taken for the bytes that it writes, if it is 64 hexadecimal digits,
    and rejected otherwise. -/
def ReadsExactly (s : String) : Prop :=
  (∀ b, parseHex32 s = .ok b ↔ IsHex64 s ∧ s.toList.map Char.toLower = (hex b).toList) ∧
    (¬ IsHex64 s → ∃ err, parseHex32 s = .err err)

/-- The code of an ASCII character. -/
def code (ch : Char) : UInt8 :=
  UInt8.ofNat ch.toNat

/-- The byte that a pair reads as. -/
def readPair (pair : Char × Char) : Option UInt8 :=
  fromStrRadix16 [code pair.1, code pair.2]

section Digits

set_option maxRecDepth 4000 in
theorem toDigit16_code_fin : ∀ n : Fin 128,
    (toDigit16 (code (Char.ofNat n))).isSome = isHexDigit (Char.ofNat n) := by
  decide

set_option maxRecDepth 4000 in
theorem hexDigit_toDigit16_fin : ∀ n : Fin 128, isHexDigit (Char.ofNat n) = true →
    (toDigit16 (code (Char.ofNat n))).map hexDigit = some (Char.ofNat n).toLower := by
  decide

variable {ch : Char} (hch : ch.toNat < 128)

include hch

/-- The hexadecimal digits are the characters with a value. -/
theorem isSome_toDigit16_code : (toDigit16 (code ch)).isSome = isHexDigit ch := by
  have hfin := toDigit16_code_fin ⟨ch.toNat, hch⟩
  rwa [Char.ofNat_toNat] at hfin

/-- The value of a digit is written as the digit in lower case. -/
theorem hexDigit_toDigit16_code (hdigit : isHexDigit ch = true) :
    (toDigit16 (code ch)).map hexDigit = some ch.toLower := by
  have hfin := hexDigit_toDigit16_fin ⟨ch.toNat, hch⟩
  rw [Char.ofNat_toNat] at hfin
  exact hfin hdigit

theorem utf8EncodeChar_of_ascii : String.utf8EncodeChar ch = [code ch] :=
  if_pos (Nat.le_of_lt_succ hch)

theorem code_lt : code ch < 0x80 := by
  rw [UInt8.lt_iff_toNat_lt, code, UInt8.toNat_ofNat', Nat.mod_eq_of_lt (by omega)]
  exact hch

theorem code_eq_plus_iff : code ch = 0x2B ↔ ch = '+' := by
  refine ⟨fun h => ?_, fun h => by rw [h]; rfl⟩
  have hnat := congrArg UInt8.toNat h
  rw [code, UInt8.toNat_ofNat', Nat.mod_eq_of_lt (by omega)] at hnat
  rw [← Char.ofNat_toNat ch, hnat]
  rfl

end Digits

theorem toDigit16_lt {b : UInt8} {d : Nat} (h : toDigit16 b = some d) : d < 16 := by
  have hb := b.toNat_lt
  unfold toDigit16 at h
  simp only [UInt8.le_iff_toNat_le] at h
  split at h
  · rename_i hrange
    have hle : b.toNat ≤ 57 := hrange.2
    rw [← Option.some.inj h]
    omega
  · split at h
    · rename_i hrange
      have hle : b.toNat ≤ 102 := hrange.2
      rw [← Option.some.inj h]
      omega
    · split at h
      · rename_i hrange
        have hle : b.toNat ≤ 70 := hrange.2
        rw [← Option.some.inj h]
        omega
      · exact absurd h (by simp only [reduceCtorEq, not_false_eq_true])

/-- What a pair of bytes reads as: a plus sign is no digit, and is dropped. -/
theorem fromStrRadix16_pair (a b : UInt8) :
    fromStrRadix16 [a, b] =
      if a = 0x2B then (toDigit16 b).map UInt8.ofNat
      else (toDigit16 a).bind fun hi => (toDigit16 b).map fun lo => UInt8.ofNat (hi * 16 + lo) := by
  -- No value of one or two digits overflows a byte.
  have hone : ∀ x, (pushDigit 0 x) = toDigit16 x := by
    intro x
    cases hx : toDigit16 x with
    | none => simp only [pushDigit, hx, Option.bind_eq_bind, Option.bind_none]
    | some d =>
        have hd := toDigit16_lt hx
        simp only [pushDigit, hx, Option.bind_eq_bind, Option.bind_some, Nat.zero_mul,
          Nat.zero_add, if_pos (show d < 256 by omega)]
  have htwo : ∀ x hi, toDigit16 a = some hi →
      pushDigit hi x = (toDigit16 x).map fun lo => hi * 16 + lo := by
    intro x hi ha
    have hhi := toDigit16_lt ha
    cases hx : toDigit16 x with
    | none => simp only [pushDigit, hx, Option.bind_eq_bind, Option.bind_none, Option.map_none]
    | some d =>
        have hd := toDigit16_lt hx
        simp only [pushDigit, hx, Option.bind_eq_bind, Option.bind_some, Option.map_some,
          if_pos (show hi * 16 + d < 256 by omega)]
  unfold fromStrRadix16
  simp only [List.head?_cons, Option.some.injEq, List.length_cons, List.length_nil, Nat.zero_add,
    Nat.reduceAdd, Nat.reduceLT, and_true, List.tail_cons]
  by_cases hplus : a = 0x2B
  -- After a plus sign one digit is left to read.
  · simp only [hplus, if_true, List.cons_ne_nil, if_false, List.foldlM_cons, List.foldlM_nil, hone,
      Option.pure_def, Option.bind_eq_bind, Option.bind_fun_some]
  · simp only [hplus, if_false, List.cons_ne_nil, List.foldlM_cons, List.foldlM_nil, hone,
      Option.pure_def, Option.bind_eq_bind, Option.bind_fun_some]
    cases ha : toDigit16 a with
    | none => rfl
    | some hi =>
        rw [Option.bind_some, Option.bind_some, htwo b hi ha, Option.map_map]
        rfl

/-- A pair of characters is read when it is two digits or a plus sign and one. -/
theorem isSome_readPair {hi lo : Char} (hhi : hi.toNat < 128) (hlo : lo.toNat < 128) :
    (readPair (hi, lo)).isSome = reads (hi, lo) := by
  rw [readPair, fromStrRadix16_pair, reads, ← isSome_toDigit16_code hhi,
    ← isSome_toDigit16_code hlo]
  by_cases hplus : hi = '+'
  · rw [if_pos ((code_eq_plus_iff hhi).mpr hplus), hplus, Option.isSome_map, beq_self_eq_true,
      Bool.or_true, Bool.true_and]
  · rw [if_neg fun h => hplus ((code_eq_plus_iff hhi).mp h), beq_false_of_ne hplus, Bool.or_false]
    cases toDigit16 (code hi) with
    | none => rfl
    | some d => rw [Option.bind_some, Option.isSome_map, Option.isSome_some, Bool.true_and]

/-- Two digits write the byte that they read as, in lower case. -/
theorem readPair_of_digits {hi lo : Char} (hhi : hi.toNat < 128) (hlo : lo.toNat < 128)
    (hdigits : isHexDigit hi = true ∧ isHexDigit lo = true) :
    ∃ b, readPair (hi, lo) = some b ∧ hexByte b = [hi.toLower, lo.toLower] := by
  rcases Option.map_eq_some_iff.mp (hexDigit_toDigit16_code hhi hdigits.1) with ⟨d, hget, hwrite⟩
  rcases Option.map_eq_some_iff.mp (hexDigit_toDigit16_code hlo hdigits.2) with
    ⟨d', hget', hwrite'⟩
  have hlt := toDigit16_lt hget
  have hlt' := toDigit16_lt hget'
  have hplus : ¬ code hi = 0x2B := by
    intro h
    rw [h] at hget
    have hnone : toDigit16 0x2B = none := by decide
    exact Option.some_ne_none d (hget.symm.trans hnone)
  refine ⟨UInt8.ofNat (d * 16 + d'), ?_, ?_⟩
  · rw [readPair, fromStrRadix16_pair, if_neg hplus, hget, hget', Option.bind_some,
      Option.map_some]
  · have hnat : (UInt8.ofNat (d * 16 + d')).toNat = d * 16 + d' := by
      rw [UInt8.toNat_ofNat', Nat.mod_eq_of_lt (by omega)]
    have hdiv : (d * 16 + d') / 16 = d := by omega
    have hmod : (d * 16 + d') % 16 = d' := by omega
    rw [hexByte, hnat, hdiv, hmod, hwrite, hwrite']

section Texts

/-- The text is ASCII and has an even number of characters. -/
structure EvenAscii (l : List Char) : Prop where
  ascii : ∀ ch ∈ l, ch.toNat < 128
  even : l.length % 2 = 0

theorem EvenAscii.tail {hi lo : Char} {rest : List Char} (h : EvenAscii (hi :: lo :: rest)) :
    EvenAscii rest := by
  refine ⟨fun ch hch => h.ascii ch (List.mem_cons_of_mem _ (List.mem_cons_of_mem _ hch)), ?_⟩
  have heven := h.even
  rw [List.length_cons, List.length_cons] at heven
  omega

/-- Without a pair to take off, such a text is empty. -/
theorem EvenAscii.eq_nil {l : List Char} (h : EvenAscii l)
    (hne : ∀ hi lo rest, l = hi :: lo :: rest → False) : l = [] := by
  cases l with
  | nil => rfl
  | cons ch l =>
      cases l with
      | nil => exact absurd h.even Nat.one_ne_zero
      | cons ch' l => exact (hne ch ch' l rfl).elim

theorem mem_of_mem_pairs {l : List Char} {pair : Char × Char} (h : pair ∈ pairs l) :
    pair.1 ∈ l ∧ pair.2 ∈ l := by
  induction l using pairs.induct with
  | case1 hi lo rest ih =>
      rw [pairs, List.mem_cons] at h
      rcases h with h | h
      · rw [h]
        exact ⟨List.mem_cons_self, List.mem_cons_of_mem _ List.mem_cons_self⟩
      · exact ⟨List.mem_cons_of_mem _ (List.mem_cons_of_mem _ (ih h).1),
          List.mem_cons_of_mem _ (List.mem_cons_of_mem _ (ih h).2)⟩
  | case2 l hne =>
      rw [pairs] at h
      · exact absurd h List.not_mem_nil
      · exact hne

/-- The two-byte pieces of a text are its pairs. -/
theorem chunks_map_code {l : List Char} (h : EvenAscii l) :
    Chunks.chunks 2 (l.map code) = (pairs l).map fun pair => [code pair.1, code pair.2] := by
  have hflatten : ((pairs l).map fun pair => [code pair.1, code pair.2]).flatten = l.map code := by
    induction l using pairs.induct with
    | case1 hi lo rest ih =>
        rw [pairs, List.map_cons, List.flatten_cons, ih h.tail]
        rfl
    | case2 l hne =>
        rw [h.eq_nil hne]
        rfl
  rw [← hflatten]
  refine Chunks.chunks_flatten Nat.two_pos fun piece hpiece => ?_
  rcases List.mem_map.mp hpiece with ⟨pair, _, rfl⟩
  rfl

/-- Digits write the bytes that they read as, in lower case, and no pair of them is
    dropped. -/
theorem map_toLower_of_digits {l : List Char} (h : EvenAscii l)
    (hdigits : ∀ ch ∈ l, isHexDigit ch = true) :
    l.map Char.toLower = ((pairs l).filterMap readPair).flatMap hexByte ∧
      l.length = ((pairs l).filterMap readPair).length * 2 := by
  induction l using pairs.induct with
  | case1 hi lo rest ih =>
      have hmem : lo ∈ hi :: lo :: rest := List.mem_cons_of_mem _ List.mem_cons_self
      rcases readPair_of_digits (h.ascii hi List.mem_cons_self) (h.ascii lo hmem)
        ⟨hdigits hi List.mem_cons_self, hdigits lo hmem⟩ with ⟨b, hb, hwrite⟩
      rcases ih h.tail fun ch hch => hdigits ch
        (List.mem_cons_of_mem _ (List.mem_cons_of_mem _ hch)) with ⟨hmap, hlen⟩
      rw [pairs, List.filterMap_cons_some hb]
      refine ⟨?_, ?_⟩
      · rw [List.map_cons, List.map_cons, hmap, List.flatMap_cons, hwrite]
        rfl
      · rw [List.length_cons, List.length_cons, hlen, List.length_cons, Nat.succ_mul]
  | case2 l hne =>
      rw [h.eq_nil hne]
      exact ⟨rfl, rfl⟩

variable {s : String} (hs : EvenAscii s.toList)

include hs

theorem utf8_of_ascii : utf8 s = s.toList.map code := by
  rw [utf8, List.flatMap_congr fun ch hch => utf8EncodeChar_of_ascii (hs.ascii ch hch),
    List.map_eq_flatMap]

/-- No byte of ASCII text is a continuation byte, so no slice panics. -/
theorem sliceable_of_ascii : Sliceable s := by
  refine sliceable_of_forall ?_ fun c hc => ?_
  · rw [utf8_of_ascii hs, List.length_map]
    exact hs.even
  · rw [utf8_of_ascii hs] at hc
    rcases List.mem_map.mp hc with ⟨ch, hch, rfl⟩
    have hlt := code_lt (hs.ascii ch hch)
    rw [decide_eq_false (UInt8.not_le.mpr hlt)]
    rfl

/-- The pairs that read, read out. -/
theorem hexPairs_of_ascii : hexPairs s = (pairs s.toList).filterMap readPair := by
  rw [hexPairs, utf8_of_ascii hs, chunks_map_code hs, List.filterMap_map]
  rfl

theorem length_hexPairs : (hexPairs s).length = (pairs s.toList).countP reads := by
  rw [hexPairs_of_ascii hs, List.length_filterMap_eq_countP]
  refine List.countP_congr fun pair hpair => ?_
  rcases mem_of_mem_pairs hpair with ⟨hhi, hlo⟩
  rw [isSome_readPair (hs.ascii _ hhi) (hs.ascii _ hlo)]

/-- The bytes of a text of 64 digits are the ones that it writes. -/
theorem parseHex32_of_isHex64 (h64 : IsHex64 s) (b : Vector UInt8 32) :
    parseHex32 s = .ok b ↔ s.toList.map Char.toLower = (hex b).toList := by
  rcases map_toLower_of_digits hs h64.2 with ⟨hmap, hlen⟩
  rw [← hexPairs_of_ascii hs] at hmap hlen
  rw [h64.1] at hlen
  have hsize : (hexPairs s).toArray.size = 32 := by
    rw [List.size_toArray]
    omega
  rw [parseHex32_of_sliceable (sliceable_of_ascii hs), dif_pos hsize, Outcome.ok.injEq, hmap, hex,
    hexSlice, String.toList_ofList]
  constructor
  · intro h
    rw [← h]
    rfl
  · intro h
    -- Writing tells bytes apart, since they are read back.
    have hslice : hexSlice (hexPairs s) = hexSlice b.toList := by
      rw [hexSlice, hexSlice, h]
    have hbytes := congrArg hexPairs hslice
    rw [hexPairs_hexSlice, hexPairs_hexSlice] at hbytes
    exact Vector.toList_inj.mp hbytes

/-- 32 bytes are taken from a text that does not write them. -/
theorem not_readsExactly (h64 : ¬ IsHex64 s) (hcount : (pairs s.toList).countP reads = 32) :
    ¬ ReadsExactly s := by
  intro h
  rcases h.2 h64 with ⟨err, herr⟩
  exact ((parseHex32_eq_err_iff s).mp ⟨err, herr⟩).2 ((length_hexPairs hs).trans hcount)

end Texts

/-- A text of an even number of ASCII characters is read as it should be exactly when
    it is 64 hexadecimal digits, or not 32 of its pairs read as a byte. -/
theorem parseHex32_exact_iff (s : String) (hs : EvenAscii s.toList) :
    ReadsExactly s ↔ IsHex64 s ∨ (pairs s.toList).countP reads ≠ 32 := by
  constructor
  · intro h
    by_contra hnot
    rw [not_or, not_not] at hnot
    exact not_readsExactly hs hnot.1 hnot.2 h
  · intro h
    by_cases h64 : IsHex64 s
    -- Every pair of digits is read, so the bytes are the ones written.
    · refine ⟨fun b => ?_, fun hnot => absurd h64 hnot⟩
      rw [parseHex32_of_isHex64 hs h64, and_iff_right h64]
    -- Too few or too many bytes are an error, and that is all that is checked.
    · have hlen := h.resolve_left h64
      rw [← length_hexPairs hs] at hlen
      rcases (parseHex32_eq_err_iff s).mpr ⟨sliceable_of_ascii hs, hlen⟩ with ⟨err, herr⟩
      refine ⟨fun b => ?_, fun _ => ⟨err, herr⟩⟩
      rw [herr]
      exact iff_of_false (by simp only [reduceCtorEq, not_false_eq_true]) fun hand => h64 hand.1

/-- 64 capital digits. -/
theorem parseHex32_exact_iff_capitals :
    let s := String.ofList (List.replicate 64 'F')
    ReadsExactly s ↔ IsHex64 s ∨ (pairs s.toList).countP reads ≠ 32 := by
  intro s
  refine parseHex32_exact_iff s ⟨?_, ?_⟩
  · rw [String.toList_ofList]
    exact fun ch hch => List.eq_of_mem_replicate hch ▸ by decide
  · rw [String.toList_ofList, List.length_replicate]

/-- Two letters that are no digits before 64 that are, and a plus sign in place of a
    digit, are taken. -/
theorem not_parseHex32_exact :
    let junk := String.ofList ('z' :: 'z' :: List.replicate 64 '0')
    let signed := String.ofList ('+' :: List.replicate 63 '0')
    (EvenAscii junk.toList ∧ ¬ ReadsExactly junk) ∧
      EvenAscii signed.toList ∧ ¬ ReadsExactly signed := by
  intro junk signed
  have hjunk : junk.toList = 'z' :: 'z' :: List.replicate 64 '0' := String.toList_ofList
  have hsigned : signed.toList = '+' :: List.replicate 63 '0' := String.toList_ofList
  have hzeros : ∀ n, ∀ ch ∈ List.replicate n '0', ch.toNat < 128 :=
    fun n ch hch => List.eq_of_mem_replicate hch ▸ by decide
  have hs : EvenAscii junk.toList := by
    rw [hjunk]
    exact ⟨List.forall_mem_cons.mpr ⟨by decide, List.forall_mem_cons.mpr ⟨by decide, hzeros 64⟩⟩,
      rfl⟩
  have hs' : EvenAscii signed.toList := by
    rw [hsigned]
    exact ⟨List.forall_mem_cons.mpr ⟨by decide, hzeros 63⟩, rfl⟩
  refine ⟨⟨hs, not_readsExactly hs ?_ ?_⟩, hs', not_readsExactly hs' ?_ ?_⟩
  · intro h64
    have hlen := h64.1
    rw [hjunk] at hlen
    exact absurd hlen (by decide)
  · rw [hjunk]
    decide
  · intro h64
    have hplus := h64.2 '+' (hsigned ▸ List.mem_cons_self)
    exact absurd hplus (by decide)
  · rw [hsigned]
    decide

end Mql

end Seven
