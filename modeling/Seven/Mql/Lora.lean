import Seven.Evidence.Tamper
import Seven.Mql.Fragments

/-!
# LoRa Framing

The compact binary frame. It has a header of a hundred bytes, the payload under a
one-byte length, and the signature when a flag says so; decoding checks every length
and refuses what is left over.

The round trip of the frame, what a receiver of fragments gets, and the fact that
verification reads only what the frame carries make the whole path from one evidence
to another.

## Main definitions

* `LoraFrame`, `fromEvidence`: The frame of an evidence.
* `encode`, `decode`: The frame's bytes.
* `clearReserved`: The bytes without the reserved bits of the flags.

## Theorems

* `decode_encode`: Decoding what was encoded.
* `decode_eq_ok_iff_encode`: What decodes, up to the reserved bits of the flags.
* `encode_forwards`: Frames of forwarded origin evidence encode.
* `lora_end_to_end`: From evidence to evidence over a lossy link.
-/

namespace Seven

namespace Lora

/-- Frame version pinned on the wire. -/
def version : UInt8 := 1

/-- Flag bit: a signature follows the payload. -/
def flagSigned : UInt8 := 0x01

/-- Signature length on the wire. -/
def sigLen : Nat := 64

/-- Compact binary frame. -/
structure LoraFrame where
  evidenceId : EvidenceId
  observationId : ObservationId
  sourceId : SourceId
  /-- Hop-count summary of the provenance. -/
  hopCount : UInt8
  canonicalPayload : Bytes
  signature : Option Bytes
  deriving DecidableEq

namespace LoraFrame

/-- The frame of an evidence; the hop count saturates. -/
def fromEvidence (e : Evidence) : LoraFrame :=
  { evidenceId := e.evidenceId
    observationId := e.observationId
    sourceId := e.sourceId
    hopCount := UInt8.ofNat (min e.provenance.hops.length 255)
    canonicalPayload := e.payload
    signature := e.signature }

def encode (f : LoraFrame) : Except MqlError Bytes :=
  if 255 < f.canonicalPayload.length then
    .error (.lora ("canonical payload " ++ toString f.canonicalPayload.length ++
      " B exceeds 255 B length field"))
  else if f.signature.any fun sig => sig.length ≠ sigLen then
    .error (.lora ("signature must be " ++ toString sigLen ++ " B, got " ++
      toString (f.signature.getD []).length))
  else
    let flags := if f.signature.isSome then flagSigned else 0
    .ok ([version, flags, f.hopCount, UInt8.ofNat f.canonicalPayload.length] ++
      f.evidenceId.bytes.toList ++ f.observationId.bytes.toList ++ f.sourceId.bytes.toList ++
      f.canonicalPayload ++ f.signature.getD [])

/-- `bytes.get(a..b)`. -/
def getRange (bytes : Bytes) (a b : Nat) : Option Bytes :=
  if a ≤ b ∧ b ≤ bytes.length then some ((bytes.drop a).take (b - a)) else none

/-- A 32-byte field of the header. -/
def arr (bytes : Bytes) (a b : Nat) : Except MqlError Bytes32 :=
  let truncated : MqlError :=
    .lora ("truncated header at " ++ toString a ++ ".." ++ toString b)
  match getRange bytes a b with
  | none => .error truncated
  | some s => if h : s.toArray.size = 32 then .ok ⟨s.toArray, h⟩ else .error truncated

/-- A range that must be there. -/
def rangeOrErr (bytes : Bytes) (a b : Nat) (message : String) : Except MqlError Bytes :=
  match getRange bytes a b with
  | none => .error (.lora message)
  | some s => .ok s

def trailing (bytes : Bytes) (expected : Nat) : MqlError :=
  .lora ("trailing bytes: " ++ toString bytes.length ++ " vs expected " ++ toString expected)

def decode (bytes : Bytes) : Except MqlError LoraFrame :=
  if h : bytes.length < 100 then
    .error (.lora ("frame too short: " ++ toString bytes.length ++ " B (min 100)"))
  else if bytes[0] ≠ version then
    .error (.lora ("unsupported version " ++ toString bytes[0] ++ ", expected " ++
      toString version))
  else do
    let flags := bytes[1]
    let hopCount := bytes[2]
    let payloadLen := bytes[3].toNat
    let evidenceId ← arr bytes 4 36
    let observationId ← arr bytes 36 68
    let sourceId ← arr bytes 68 100
    -- At most 355, so the checked addition does not overflow.
    let payloadEnd := 100 + payloadLen
    let canonicalPayload ← rangeOrErr bytes 100 payloadEnd "truncated canonical payload"
    let frame : LoraFrame :=
      { evidenceId := ⟨evidenceId⟩
        observationId := ⟨observationId⟩
        sourceId := ⟨sourceId⟩
        hopCount
        canonicalPayload
        signature := none }
    if flags &&& flagSigned ≠ 0 then
      let sig ← rangeOrErr bytes payloadEnd (payloadEnd + sigLen) "truncated signature"
      if bytes.length ≠ payloadEnd + sigLen then .error (trailing bytes (payloadEnd + sigLen))
      else .ok { frame with signature := some sig }
    else if bytes.length ≠ payloadEnd then .error (trailing bytes payloadEnd)
    else .ok frame

/-- What encodes: a payload of at most 255 bytes and a signature of 64, if any. -/
theorem encode_eq_ok_iff (f : LoraFrame) (bytes : Bytes) :
    f.encode = .ok bytes ↔
      f.canonicalPayload.length ≤ 255 ∧ (∀ sig, f.signature = some sig → sig.length = sigLen) ∧
        bytes = [version, if f.signature.isSome then flagSigned else 0, f.hopCount,
            UInt8.ofNat f.canonicalPayload.length] ++
          f.evidenceId.bytes.toList ++ f.observationId.bytes.toList ++ f.sourceId.bytes.toList ++
          f.canonicalPayload ++ f.signature.getD [] := by
  unfold encode
  by_cases hlen : 255 < f.canonicalPayload.length
  · simp only [hlen, if_true, reduceCtorEq, false_iff, not_and]
    exact fun h => absurd hlen (by omega)
  · have hle : f.canonicalPayload.length ≤ 255 := by omega
    simp only [hlen, if_false, hle, true_and]
    cases hsig : f.signature with
    | none =>
        simp only [Option.any_none, Bool.false_eq_true, if_false, Except.ok.injEq, reduceCtorEq,
          false_imp_iff, implies_true, true_and, eq_comm]
    | some sig =>
        by_cases hsize : sig.length = sigLen
        · simp only [Option.any_some, hsize, ne_eq, not_true_eq_false, decide_false,
            Bool.false_eq_true, if_false, Except.ok.injEq, Option.some.injEq, forall_eq', true_and,
            eq_comm]
        · simp only [Option.any_some, hsize, ne_eq, not_false_eq_true, decide_true, if_true,
            reduceCtorEq, Option.some.injEq, forall_eq', false_and]

theorem getRange_append {bytes pre mid post : Bytes} {a b : Nat}
    (hbytes : bytes = pre ++ mid ++ post) (ha : pre.length = a) (hb : pre.length + mid.length = b) :
    getRange bytes a b = some mid := by
  subst ha hb hbytes
  rw [getRange, if_pos ⟨Nat.le_add_right _ _, by
    rw [List.length_append, List.length_append]; exact Nat.le_add_right _ _⟩,
    List.append_assoc, List.drop_left, Nat.add_sub_cancel_left, List.take_left]

theorem arr_append {bytes : Bytes} {a b : Nat} (pre : Bytes) (field : Bytes32) (post : Bytes)
    (hbytes : bytes = pre ++ field.toList ++ post) (ha : pre.length = a) (hb : a + 32 = b) :
    arr bytes a b = .ok field := by
  rw [arr, getRange_append hbytes ha (by rw [Vector.length_toList, ha, hb])]
  have hsize : field.toList.toArray.size = 32 := by rw [List.size_toArray, Vector.length_toList]
  simp only [hsize, dif_pos, Except.ok.injEq]
  rfl

theorem rangeOrErr_append {bytes mid : Bytes} {a b : Nat} (pre post : Bytes) (message : String)
    (hbytes : bytes = pre ++ mid ++ post) (ha : pre.length = a) (hb : a + mid.length = b) :
    rangeOrErr bytes a b message = .ok mid := by
  rw [rangeOrErr, getRange_append hbytes ha (by rw [ha, hb])]

/-- The four parts of an encoded frame, found by their offsets. -/
theorem parts_of_frame {bytes body tail : Bytes} (head : Bytes) (id obs src : Bytes32)
    (hhead : head.length = 4)
    (hbytes : bytes = head ++ id.toList ++ obs.toList ++ src.toList ++ body ++ tail) :
    arr bytes 4 36 = .ok id ∧ arr bytes 36 68 = .ok obs ∧ arr bytes 68 100 = .ok src ∧
      (∀ message, rangeOrErr bytes 100 (100 + body.length) message = .ok body) ∧
      ∀ message, rangeOrErr bytes (100 + body.length) (100 + body.length + tail.length) message =
        .ok tail := by
  have hid : id.toList.length = 32 := Vector.length_toList
  have hobs : obs.toList.length = 32 := Vector.length_toList
  have hsrc : src.toList.length = 32 := Vector.length_toList
  refine ⟨?_, ?_, ?_, fun message => ?_, fun message => ?_⟩
  · exact arr_append head id (obs.toList ++ src.toList ++ body ++ tail)
      (by rw [hbytes]; simp only [List.append_assoc]) hhead rfl
  · exact arr_append (head ++ id.toList) obs (src.toList ++ body ++ tail)
      (by rw [hbytes]; simp only [List.append_assoc])
      (by rw [List.length_append, hhead, hid]) rfl
  · exact arr_append (head ++ id.toList ++ obs.toList) src (body ++ tail)
      (by rw [hbytes]; simp only [List.append_assoc])
      (by rw [List.length_append, List.length_append, hhead, hid, hobs]) rfl
  · exact rangeOrErr_append (head ++ id.toList ++ obs.toList ++ src.toList) tail message hbytes
      (by simp only [List.length_append, hhead, hid, hobs, hsrc]) rfl
  · exact rangeOrErr_append (head ++ id.toList ++ obs.toList ++ src.toList ++ body) [] message
      (by rw [hbytes, List.append_nil])
      (by simp only [List.length_append, hhead, hid, hobs, hsrc]) rfl

theorem rangeOrErr_of_lt {bytes : Bytes} {a b : Nat} (message : String) (h : bytes.length < b) :
    rangeOrErr bytes a b message = .error (.lora message) := by
  rw [rangeOrErr, getRange, if_neg (by omega)]

/-- What decoding takes, behind a header and a payload of the length that it states: a
    signature when the flag says so, and nothing otherwise. -/
theorem decode_layout {v flags hopCount len : UInt8} {id obs src : Bytes32}
    {body tail bytes : Bytes} {f : LoraFrame}
    (hbytes : bytes = [v, flags, hopCount, len] ++ id.toList ++ obs.toList ++ src.toList ++ body ++
      tail) (hlen : body.length = len.toNat) :
    decode bytes = .ok f ↔
      v = version ∧ tail.length = (if flags &&& flagSigned ≠ 0 then sigLen else 0) ∧
        f = ⟨⟨id⟩, ⟨obs⟩, ⟨src⟩, hopCount, body,
          if flags &&& flagSigned ≠ 0 then some tail else none⟩ := by
  rcases parts_of_frame _ _ _ _ rfl hbytes with ⟨hid, hobs, hsrc, hbody, htail⟩
  have hwhole : bytes.length = 100 + body.length + tail.length := by
    rw [hbytes]
    simp only [List.length_append, List.length_cons, List.length_nil, Vector.length_toList]
  -- The four bytes in front of the fields.
  have h0 : bytes[0] = v := by subst hbytes; rfl
  have h1 : bytes[1] = flags := by subst hbytes; rfl
  have h2 : bytes[2] = hopCount := by subst hbytes; rfl
  have h3 : bytes[3] = len := by subst hbytes; rfl
  unfold decode
  rw [dif_neg (show ¬ bytes.length < 100 by omega)]
  simp only [h0, h1, h2, h3, hid, hobs, hsrc, ← hlen, hbody, bind, Except.bind]
  by_cases hv : v ≠ version
  · rw [if_pos hv]
    exact iff_of_false (by simp only [reduceCtorEq, not_false_eq_true]) fun h => hv h.1
  rw [if_neg hv, and_iff_right (not_not.mp hv)]
  by_cases hsigned : flags &&& flagSigned ≠ 0
  · simp only [if_pos hsigned]
    by_cases hsize : tail.length = sigLen
    · rw [hsize] at htail
      simp only [htail, hwhole, hsize, ne_eq, not_true_eq_false, if_false, Except.ok.injEq,
        true_and, eq_comm]
    · -- Too short for a signature, or longer than that.
      refine iff_of_false ?_ fun h => hsize h.1
      have hne : bytes.length ≠ 100 + body.length + sigLen := by omega
      cases rangeOrErr bytes (100 + body.length) (100 + body.length + sigLen)
          "truncated signature" with
      | error err => simp only [reduceCtorEq, not_false_eq_true]
      | ok sig => simp only [hne, ne_eq, not_false_eq_true, if_true, reduceCtorEq]
  · simp only [if_neg hsigned]
    by_cases hsize : tail.length = 0
    · simp only [hwhole, hsize, Nat.add_zero, ne_eq, not_true_eq_false, if_false,
        Except.ok.injEq, true_and, eq_comm]
    · refine iff_of_false ?_ fun h => hsize h.1
      rw [if_pos (by omega)]
      simp only [reduceCtorEq, not_false_eq_true]

/-- A header and what follows it. -/
theorem exists_header {bytes : Bytes} (h : 100 ≤ bytes.length) :
    ∃ (v flags hopCount len : UInt8) (id obs src : Bytes32) (rest : Bytes),
      bytes = [v, flags, hopCount, len] ++ id.toList ++ obs.toList ++ src.toList ++ rest := by
  have hfield : ∀ bs : Bytes, 32 ≤ bs.length →
      ∃ (field : Bytes32) (rest : Bytes), bs = field.toList ++ rest := by
    intro bs hbs
    refine ⟨⟨(bs.take 32).toArray, by rw [List.size_toArray, List.length_take]; omega⟩, bs.drop 32,
      (List.take_append_drop 32 bs).symm⟩
  rcases bytes with _ | ⟨v, _ | ⟨flags, _ | ⟨hopCount, _ | ⟨len, bs⟩⟩⟩⟩
  · exact absurd h (by decide)
  · exact absurd h (by simp only [List.length_cons, List.length_nil]; omega)
  · exact absurd h (by simp only [List.length_cons, List.length_nil]; omega)
  · exact absurd h (by simp only [List.length_cons, List.length_nil]; omega)
  simp only [List.length_cons] at h
  rcases hfield bs (by omega) with ⟨id, bs₁, rfl⟩
  rw [List.length_append, Vector.length_toList] at h
  rcases hfield bs₁ (by omega) with ⟨obs, bs₂, rfl⟩
  rw [List.length_append, Vector.length_toList] at h
  rcases hfield bs₂ (by omega) with ⟨src, rest, rfl⟩
  exact ⟨v, flags, hopCount, len, id, obs, src, rest, by simp only [List.append_assoc]; rfl⟩

/-- Decoding takes a header, and as much payload as it states. -/
theorem exists_layout {bytes : Bytes} {f : LoraFrame} (h : decode bytes = .ok f) :
    ∃ (v flags hopCount len : UInt8) (id obs src : Bytes32) (body tail : Bytes),
      bytes = [v, flags, hopCount, len] ++ id.toList ++ obs.toList ++ src.toList ++ body ++ tail ∧
        body.length = len.toNat := by
  by_cases hshort : bytes.length < 100
  · rw [decode, dif_pos hshort] at h
    exact absurd h (by simp only [reduceCtorEq, not_false_eq_true])
  rcases exists_header (Nat.le_of_not_lt hshort) with
    ⟨v, flags, hopCount, len, id, obs, src, rest, hbytes⟩
  by_cases hrest : rest.length < len.toNat
  · -- The payload is cut short, whatever the version.
    have hwhole : bytes.length < 100 + len.toNat := by
      rw [hbytes]
      simp only [List.length_append, List.length_cons, List.length_nil, Vector.length_toList]
      omega
    have h3 : bytes[3] = len := by subst hbytes; rfl
    rw [← List.append_nil (_ ++ rest)] at hbytes
    rcases parts_of_frame _ _ _ _ rfl hbytes with ⟨hid, hobs, hsrc, _, _⟩
    unfold decode at h
    rw [dif_neg hshort] at h
    simp only [h3, hid, hobs, hsrc, rangeOrErr_of_lt _ hwhole, bind, Except.bind] at h
    by_cases hv : bytes[0] ≠ version
    · rw [if_pos hv] at h
      exact absurd h (by simp only [reduceCtorEq, not_false_eq_true])
    · rw [if_neg hv] at h
      exact absurd h (by simp only [reduceCtorEq, not_false_eq_true])
  · refine ⟨v, flags, hopCount, len, id, obs, src, rest.take len.toNat, rest.drop len.toNat, ?_, ?_⟩
    · rw [List.append_assoc _ (rest.take _), List.take_append_drop, hbytes]
    · rw [List.length_take]
      omega

/-- What decodes: a frame as it is encoded, whatever the other bits of the flags. -/
theorem decode_eq_ok_iff (f : LoraFrame) (bytes : Bytes) :
    decode bytes = .ok f ↔
      f.canonicalPayload.length ≤ 255 ∧ (∀ sig, f.signature = some sig → sig.length = sigLen) ∧
        ∃ flags, (flags &&& flagSigned ≠ 0 ↔ f.signature.isSome) ∧
          bytes = [version, flags, f.hopCount, UInt8.ofNat f.canonicalPayload.length] ++
            f.evidenceId.bytes.toList ++ f.observationId.bytes.toList ++
            f.sourceId.bytes.toList ++ f.canonicalPayload ++ f.signature.getD [] := by
  constructor
  · intro h
    rcases exists_layout h with ⟨v, flags, hopCount, len, id, obs, src, body, tail, hbytes, hlen⟩
    rcases (decode_layout hbytes hlen).mp h with ⟨rfl, htail, rfl⟩
    have hlt := len.toNat_lt
    have hbyte : len = UInt8.ofNat body.length := by rw [hlen, UInt8.ofNat_toNat]
    rw [hbyte] at hbytes
    refine ⟨show body.length ≤ 255 by omega, ?_, flags, ?_⟩
    · intro sig hsig
      by_cases hsigned : flags &&& flagSigned ≠ 0
      · simp only [if_pos hsigned, Option.some.injEq] at hsig htail
        rw [← hsig, htail]
      · simp only [if_neg hsigned, reduceCtorEq] at hsig
    · by_cases hsigned : flags &&& flagSigned ≠ 0
      · simp only [if_pos hsigned]
        exact ⟨iff_of_true hsigned rfl, hbytes⟩
      · -- Nothing follows the payload.
        rw [if_neg hsigned] at htail
        rw [List.eq_nil_of_length_eq_zero htail] at hbytes
        simp only [if_neg hsigned]
        exact ⟨iff_of_false hsigned Bool.false_ne_true, hbytes⟩
  · intro h
    rcases h with ⟨hpay, hsig, flags, hflags, hbytes⟩
    have hbyte : (UInt8.ofNat f.canonicalPayload.length).toNat = f.canonicalPayload.length := by
      rw [UInt8.toNat_ofNat']
      exact Nat.mod_eq_of_lt (by omega)
    refine (decode_layout hbytes hbyte.symm).mpr ⟨rfl, ?_⟩
    -- The flag says whether a signature follows; the other bits are not looked at.
    cases hs : f.signature with
    | none =>
        rw [hs, Option.isSome_none, Bool.false_eq_true, iff_false] at hflags
        rw [if_neg hflags, if_neg hflags, ← hs]
        exact ⟨by rw [hs]; rfl, rfl⟩
    | some sig =>
        have hsigned : flags &&& flagSigned ≠ 0 := hflags.mpr (by rw [hs]; rfl)
        rw [if_pos hsigned, if_pos hsigned, Option.getD_some, ← hs]
        exact ⟨hsig sig hs, rfl⟩

/-- Decoding what was encoded gives the frame back. -/
theorem decode_encode {f : LoraFrame} {bytes : Bytes} (h : f.encode = .ok bytes) :
    decode bytes = .ok f := by
  rcases (encode_eq_ok_iff f bytes).mp h with ⟨hpay, hsig, hbytes⟩
  refine (decode_eq_ok_iff f bytes).mpr ⟨hpay, hsig, _, ?_, hbytes⟩
  cases f.signature with
  | none => decide
  | some sig => exact iff_of_true (show flagSigned &&& flagSigned ≠ 0 by decide) rfl

/-- The bytes with the reserved bits of the flags cleared. -/
def clearReserved (bytes : Bytes) : Bytes :=
  bytes.modify 1 fun flags => flags &&& flagSigned

theorem and_flagSigned (flags : UInt8) :
    flags &&& flagSigned = 0 ∨ flags &&& flagSigned = flagSigned := by
  have hmod : (flags &&& flagSigned).toNat = flags.toNat % 2 := Nat.and_one_is_mod _
  rcases Nat.mod_two_eq_zero_or_one flags.toNat with h | h
  · exact Or.inl (UInt8.toNat_inj.mp (hmod.trans h))
  · exact Or.inr (UInt8.toNat_inj.mp (hmod.trans h))

theorem and_flagSigned_eq_iff (flags : UInt8) (signed : Bool) :
    (flags &&& flagSigned ≠ 0 ↔ signed = true) ↔
      flags &&& flagSigned = if signed then flagSigned else 0 := by
  have hne : flagSigned ≠ 0 := by decide
  cases signed with
  | false => simp only [Bool.false_eq_true, iff_false, not_not, if_false, ne_eq]
  | true =>
      rcases and_flagSigned flags with h | h
      · simp only [h, ne_eq, not_true_eq_false, if_true, false_iff]
        exact fun heq => hne heq.symm
      · simp only [h, ne_eq, hne, not_false_eq_true, if_true]

/-- What decodes is what encoding emits, up to the reserved bits of the flags. Decoding
    accepts every frame that is emitted, and no other bytes without a reserved bit. -/
theorem decode_eq_ok_iff_encode (bytes : Bytes) (f : LoraFrame) :
    (decode bytes = .ok f ↔ f.encode = .ok (clearReserved bytes)) ∧
      (f.encode = .ok bytes ↔ decode bytes = .ok f ∧ clearReserved bytes = bytes) := by
  have hiff : decode bytes = .ok f ↔ f.encode = .ok (clearReserved bytes) := by
    rw [decode_eq_ok_iff, encode_eq_ok_iff]
    refine and_congr_right fun _ => and_congr_right fun _ => ?_
    constructor
    · intro h
      rcases h with ⟨flags, hflags, rfl⟩
      rw [← (and_flagSigned_eq_iff flags _).mp hflags]
      rfl
    · intro h
      -- Clearing changes the second byte only.
      simp only [List.cons_append] at h
      rcases bytes with _ | ⟨v, _ | ⟨flags, bs⟩⟩
      · exact absurd h (List.cons_ne_nil _ _).symm
      · exact absurd (List.cons.inj h).2 (List.cons_ne_nil _ _).symm
      · change v :: (flags &&& flagSigned) :: bs = _ at h
        rw [List.cons.injEq, List.cons.injEq] at h
        rcases h with ⟨rfl, hflags, rfl⟩
        exact ⟨flags, (and_flagSigned_eq_iff flags _).mpr hflags, rfl⟩
  refine ⟨hiff, ?_⟩
  constructor
  · intro h
    have hdecode := decode_encode h
    refine ⟨hdecode, ?_⟩
    rw [hiff.mp hdecode, Except.ok.injEq] at h
    exact h
  · intro h
    rcases h with ⟨hdecode, hclear⟩
    rw [hiff.mp hdecode, hclear]

/-- A flag that no frame is emitted with is ignored. -/
theorem not_decode_iff_encode :
    ¬ ∀ (bytes : Bytes) (f : LoraFrame), decode bytes = .ok f ↔ f.encode = .ok bytes := by
  intro h
  let id : Bytes32 := Vector.replicate 32 0
  let f : LoraFrame := ⟨⟨id⟩, ⟨id⟩, ⟨id⟩, 0, [], none⟩
  let bytes : Bytes := [version, 2, 0, 0] ++ id.toList ++ id.toList ++ id.toList ++ [] ++ []
  have hdecode : decode bytes = .ok f :=
    (decode_eq_ok_iff f bytes).mpr ⟨by decide,
      fun sig hs => absurd hs (Option.some_ne_none sig).symm,
      2, iff_of_false (by decide) Bool.false_ne_true, rfl⟩
  -- The frame is emitted with zero flags.
  have hencode := (encode_eq_ok_iff f bytes).mp ((h bytes f).mp hdecode)
  exact absurd (List.cons.inj (List.cons.inj hencode.2.2).2).1 (by decide)

/-- Origin evidence encodes, however often it was forwarded. -/
theorem encode_forwards {c : Crypto} {source : SigningKey} {subject : SubjectId}
    {state : CanonicalState} {receivedAtNanos expiresAtNanos : Int64} {origin : Evidence}
    (h : Evidence.originate c source subject state receivedAtNanos expiresAtNanos = .ok origin)
    (hops : List ProvenanceHop) :
    ∃ bytes, (fromEvidence (origin.forwards hops)).encode = .ok bytes := by
  rw [Evidence.originate_eq, Except.ok.injEq] at h
  rw [Evidence.forwards_eq, ← h]
  refine ⟨_, (encode_eq_ok_iff _ _).mpr ⟨?_, ?_, rfl⟩⟩
  -- Eleven varints of at most ten bytes stay below the length byte.
  · have hle := CanonicalState.length_writeI64s_fields_le state
    exact hle.trans (by decide)
  · rintro sig hsig
    rw [← Option.some.inj hsig, Vector.length_toList]
    rfl

/-- The hop count of origin evidence saturates. -/
theorem hopCount_forwards {c : Crypto} {source : SigningKey} {subject : SubjectId}
    {state : CanonicalState} {receivedAtNanos expiresAtNanos : Int64} {origin : Evidence}
    (h : Evidence.originate c source subject state receivedAtNanos expiresAtNanos = .ok origin)
    (hops : List ProvenanceHop) :
    (fromEvidence (origin.forwards hops)).hopCount.toNat = min 255 hops.length := by
  rw [Evidence.originate_eq, Except.ok.injEq] at h
  have hhops : (origin.forwards hops).provenance.hops = hops := by
    rw [Evidence.forwards_eq, ← h]
    exact List.nil_append hops
  rw [fromEvidence, hhops, UInt8.toNat_ofNat', Nat.min_comm]
  exact Nat.mod_eq_of_lt (by omega)

/-- Verification reads nothing that the frame does not carry. -/
theorem verify_of_frame (c : Crypto) {e e' : Evidence}
    (hid : e'.evidenceId = (fromEvidence e).evidenceId)
    (hsource : e'.sourceId = (fromEvidence e).sourceId)
    (hpayload : e'.payload = (fromEvidence e).canonicalPayload)
    (hsig : e'.signature = (fromEvidence e).signature) : e'.verify c = e.verify c :=
  Evidence.verify_congr c hid hpayload hsource hsig

end LoraFrame

/-- The whole path. Fragments of a frame that arrive in any order, repeated or
    lost, decode to the frame of the evidence that was sent when every number
    occurs, and fail otherwise. Whatever evidence is rebuilt from the four fields
    verification reads has the sender's verification outcome. Frames of forwarded
    origin evidence always encode, and their hop count saturates. -/
theorem lora_end_to_end (c : Crypto) (e : Evidence) (bytes : Bytes) (frameId : UInt32) (mtu : Nat)
    (frags received : List Fragment)
    (hencode : (LoraFrame.fromEvidence e).encode = .ok bytes)
    (hfragment : fragment bytes frameId mtu = .ok frags)
    (hne : received ≠ []) (hdrawn : ∀ f ∈ received, f ∈ frags) :
    ((∀ i < frags.length, ∃ f ∈ received, f.index.toNat = i) →
        (reassemble received >>= LoraFrame.decode) = .ok (LoraFrame.fromEvidence e)) ∧
      ((∃ i < frags.length, ∀ f ∈ received, f.index.toNat ≠ i) →
        ∃ err, reassemble received = .error err) ∧
      (∀ frame, (reassemble received >>= LoraFrame.decode) = .ok frame →
        ∀ e' : Evidence, e'.evidenceId = frame.evidenceId → e'.sourceId = frame.sourceId →
          e'.payload = frame.canonicalPayload → e'.signature = frame.signature →
          e'.verify c = e.verify c) ∧
      (∀ source subject state receivedAtNanos expiresAtNanos origin hops,
        Evidence.originate c source subject state receivedAtNanos expiresAtNanos = .ok origin →
        (∃ bytes, (LoraFrame.fromEvidence (origin.forwards hops)).encode = .ok bytes) ∧
          (LoraFrame.fromEvidence (origin.forwards hops)).hopCount.toNat =
            min 255 hops.length) := by
  rcases reassemble_drawn hfragment hne hdrawn with ⟨hall, hmissing⟩
  have hdecode : (∀ i < frags.length, ∃ f ∈ received, f.index.toNat = i) →
      (reassemble received >>= LoraFrame.decode) = .ok (LoraFrame.fromEvidence e) := by
    intro hcover
    rw [hall hcover]
    exact LoraFrame.decode_encode hencode
  refine ⟨hdecode, hmissing, ?_, fun _ _ _ _ _ _ hops h =>
    ⟨LoraFrame.encode_forwards h hops, LoraFrame.hopCount_forwards h hops⟩⟩
  intro frame hframe e' hid hsource hpayload hsig
  -- A frame comes out in one way only, and it is the frame of the evidence.
  by_cases hcover : ∀ i < frags.length, ∃ f ∈ received, f.index.toNat = i
  · rw [hdecode hcover, Except.ok.injEq] at hframe
    rw [← hframe] at hid hsource hpayload hsig
    exact LoraFrame.verify_of_frame c hid hsource hpayload hsig
  · -- With a number missing nothing is reassembled.
    push Not at hcover
    rcases hmissing hcover with ⟨err, herr⟩
    rw [herr] at hframe
    exact absurd hframe (by simp only [Bind.bind, Except.bind, reduceCtorEq, not_false_eq_true])

/-- A relayed frame in fragments of 64 bytes, received backwards and then once
    more in order. -/
theorem lora_end_to_end_relayed :
    let e := (Evidence.minted (Vector.replicate 32 7) ⟨"ac"⟩ (.atRest 5)).forwards [⟨⟨"relay"⟩, 6⟩]
    ∃ bytes frags, (LoraFrame.fromEvidence e).encode = .ok bytes ∧
      fragment bytes 7 64 = .ok frags ∧
      (reassemble (frags.reverse ++ frags) >>= LoraFrame.decode) =
        .ok (LoraFrame.fromEvidence e) := by
  intro e
  rcases LoraFrame.encode_forwards (Evidence.originate_ledger [] (Vector.replicate 32 7) ⟨"ac"⟩
    (.atRest 5)) [⟨⟨"relay"⟩, 6⟩] with ⟨bytes, hencode⟩
  have hlen : bytes.length = 177 := by
    rw [((LoraFrame.encode_eq_ok_iff _ _).mp hencode).2.2]
    rfl
  have hfits : Fragmentable bytes 64 :=
    ⟨by decide, List.ne_nil_of_length_pos (by omega), by rw [hlen]; decide⟩
  rcases fragment_isOk bytes 7 64 hfits with ⟨frags, hfragment⟩
  have hne : frags ≠ [] := by
    rintro rfl
    have hflat := (fragment_eq_ok hfragment).2.2.2
    rw [← hflat] at hlen
    exact absurd hlen (by decide)
  have hdrawn : ∀ f ∈ frags.reverse ++ frags, f ∈ frags := fun f hf =>
    (List.mem_append.mp hf).elim List.mem_reverse.mp id
  have hpath := lora_end_to_end (Crypto.ledger []) e bytes 7 64 frags (frags.reverse ++ frags)
    hencode hfragment (List.append_ne_nil_of_right_ne_nil _ hne) hdrawn
  refine ⟨bytes, frags, hencode, hfragment, hpath.1 fun i hi => ?_⟩
  exact ⟨frags[i], List.mem_append_right _ (List.getElem_mem hi),
    (fragment_eq_ok hfragment).2.1 i hi⟩

end Lora

end Seven
