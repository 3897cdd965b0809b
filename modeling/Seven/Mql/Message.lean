import Seven.Evidence.Tamper
import Seven.Mql.Hex
import Std.Data.ExtTreeMap

/-!
# Projection onto Messages

Evidence travels in a theMQL message: the canonical bytes as its payload, the
subject as a dotted path, and everything else as JSON values under extension
keys. `toMessage` writes one, `fromMessage` reads one back.

theMQL and the derived JSON codec of the provenance chain are established
crates, so they enter as the parameter `TheMql`, and what is relied on of them
is `TheMql.Faithful`. The JSON values themselves, and what `as_str`, `as_array`
and `as_i64` make of them, are written out.

`fromMessage` makes eight checks one after the other and none depends on what an
earlier one returned, so how it ends is decided by the first check that does not
pass: `verdict_fromMessage`. The expiry is not among them, since a value that is
no `i64` reads as the largest one.

## Main definitions

* `Number`, `Value`: JSON values.
* `Subject`, `Payload`, `Message`: The parts of a message both ways use.
* `TheMql`: What is taken from the crates.
* `toMessage`, `fromMessage`: The projection and its inverse.
* `messageVerdict`: How reading a message ends.

## Theorems

* `asI64_eq_some_iff`: The numbers that read as an `i64` are the written ones.
* `verdict_parentIds`: How reading the parent list ends.
* `verdict_fromMessage`: How reading a message ends.
-/

namespace Seven

namespace Mql

/-- A JSON number. A float is kept as its bits. -/
inductive Number where
  | posInt (n : UInt64)
  | negInt (n : Int64) (neg : n < 0)
  | float (bits : UInt64)
  deriving DecidableEq

namespace Number

/-- The number an `i64` is written as. -/
def ofI64 (x : Int64) : Number :=
  if h : x < 0 then .negInt x h else .posInt x.toUInt64

def asI64 : Number → Option Int64
  | .posInt n => if n.toNat < 2 ^ 63 then some n.toInt64 else none
  | .negInt n _ => some n
  | .float _ => none

end Number

/-- A JSON value. -/
inductive Value where
  | null
  | bool (b : Bool)
  | number (n : Number)
  | string (s : String)
  | array (vs : List Value)
  | object (fields : List (String × Value))

namespace Value

def asStr : Value → Option String
  | .string s => some s
  | _ => none

def asArray : Value → Option (List Value)
  | .array vs => some vs
  | _ => none

def asI64 : Value → Option Int64
  | .number n => n.asI64
  | _ => none

end Value

/-- A theMQL subject: its text and the segments it was parsed into. -/
structure Subject where
  asStr : String
  segments : List String
  deriving DecidableEq

inductive FormatTag where
  | postcard
  | other
  deriving DecidableEq

inductive Payload where
  | bytes (canonicalBytes : Bytes) (tag : FormatTag)
  | other
  deriving DecidableEq

/-- A theMQL message. -/
structure Message where
  subject : Subject
  payload : Payload
  extensions : Std.ExtTreeMap String Value

/-- The segments of a dotted path. -/
def splitDots (s : String) : List String :=
  (s.toList.splitOn '.').map String.ofList

/-- What is taken from theMQL and from the derived JSON codec of the provenance. -/
structure TheMql where
  /-- `Subject::from_str`, with the text of its error. -/
  fromStr : String → Except String Subject
  /-- The subject of `Message::new`, with the text of its error. -/
  newMessage : String → Except String Subject
  provenanceToValue : Provenance → Except String Value
  provenanceFromValue : Value → Except String Provenance
  /-- The format `{:?}` of a string. -/
  debug : String → String

/-- Subjects keep their segments, and the JSON codec round-trips. -/
structure TheMql.Faithful (t : TheMql) : Prop where
  fromStr_verbatim : ∀ s subject, t.fromStr s = .ok subject →
    subject.asStr = s ∧ subject.segments = splitDots s
  newMessage_fromStr : ∀ s subject, t.newMessage s = .ok subject → t.fromStr s = .ok subject
  provenance_roundtrip : ∀ p v, t.provenanceToValue p = .ok v → t.provenanceFromValue v = .ok p

def evidenceIdKey : String := "seven_evidence_id"
def observationIdKey : String := "seven_observation_id"
def sourceIdKey : String := "seven_source_id"
def provenanceKey : String := "seven_provenance"
def expiresAtKey : String := "seven_expires_at"
def parentIdsKey : String := "seven_parent_ids"
def signatureKey : String := "seven_signature"

/-- One segment of the subject grammar. -/
def checkSegment (t : TheMql) (name v : String) : Except MqlError Unit :=
  if v = "" ∨ '.' ∈ v.toList then
    .error (.subject ("invalid " ++ name ++ " " ++ t.debug v ++
      ": must be a single non-empty subject segment"))
  else .ok ()

def subjectText (subjectId domain : String) : String :=
  "seven." ++ domain ++ "." ++ subjectId ++ ".evidence"

def evidenceSubjectInner (t : TheMql) (subjectId domain : String) : Except MqlError Subject := do
  checkSegment t "domain" domain
  checkSegment t "subject_id" subjectId
  (t.fromStr (subjectText subjectId domain)).mapError .subject

/-- The extensions of an evidence. -/
def extensionsOf (e : Evidence) (provenance : Value) : Std.ExtTreeMap String Value :=
  let ext : Std.ExtTreeMap String Value := ∅
  let ext := ext.insert evidenceIdKey (.string (hex e.evidenceId.bytes))
  let ext := ext.insert observationIdKey (.string (hex e.observationId.bytes))
  let ext := ext.insert sourceIdKey (.string (hex e.sourceId.bytes))
  let ext := ext.insert provenanceKey provenance
  let ext := ext.insert expiresAtKey (.number (.ofI64 e.expiresAtNanos))
  let ext := ext.insert parentIdsKey
    (.array (e.parentEvidenceIds.map fun id => .string (hex id.bytes)))
  match e.signature with
  | some sig => ext.insert signatureKey (.string (hexSlice sig))
  | none => ext

/-- Project evidence onto a message. -/
def toMessage (t : TheMql) (e : Evidence) (domain : String) : Except MqlError Message := do
  let provenance ← (t.provenanceToValue e.provenance).mapError .canonical
  let subject ← evidenceSubjectInner t e.subject.name domain
  let subject ← (t.newMessage subject.asStr).mapError .subject
  return { subject, payload := .bytes e.payload .postcard,
           extensions := extensionsOf e provenance }

/-- The string under a key; a missing key and any other value read as empty. -/
def textAt (extensions : Std.ExtTreeMap String Value) (key : String) : String :=
  (extensions[key]?.bind Value.asStr).getD ""

/-- The strings of the list that are the hex of 32 bytes. The others are
    dropped, but each of them is sliced first. -/
def parentIds : List Value → Outcome MqlError (List EvidenceId)
  | [] => .ok []
  | v :: vs =>
      match v.asStr with
      | none => parentIds vs
      | some h =>
          match parseHex32 h with
          | .ok id => do
              let ids ← parentIds vs
              return ⟨id⟩ :: ids
          | .err _ => parentIds vs
          | .panicked => .panicked

/-- The source id; a message from before it was carried has none. -/
def sourceBytes (extensions : Std.ExtTreeMap String Value) :
    Outcome MqlError (Vector UInt8 32) :=
  match extensions[sourceIdKey]? with
  | none => .ok (Vector.replicate 32 0)
  | some v => parseHex32 (v.asStr.getD "")

/-- The signature; a value that is no string reads as no signature. -/
def signatureBytes (extensions : Std.ExtTreeMap String Value) :
    Outcome MqlError (Option Bytes) :=
  match extensions[signatureKey]?.bind Value.asStr with
  | none => .ok none
  | some s => do
      let sig ← .orPanic (hexBytes s)
      return some sig

/-- The subject has the evidence grammar. -/
def isEvidencePath (segs : List String) : Bool :=
  segs.length == 4 && segs[0]? == some "seven" && segs[3]? == some "evidence"

def subjectOf (t : TheMql) (subject : Subject) : Outcome MqlError SubjectId :=
  if isEvidencePath subject.segments then .ok ⟨subject.segments[2]?.getD ""⟩
  else .err (.subject ("subject " ++ t.debug subject.asStr ++
    " does not match seven.<domain>.<subject_id>.evidence"))

/-- Recover evidence from a message. -/
def fromMessage (t : TheMql) (msg : Message) (_originalSubject : SubjectId) :
    Outcome MqlError Evidence :=
  match msg.payload with
  | .bytes canonicalBytes .postcard => do
      let extensions := msg.extensions
      let evidenceId ← parseHex32 (textAt extensions evidenceIdKey)
      let observationId ← parseHex32 (textAt extensions observationIdKey)
      let provenance ← .ofExcept ((t.provenanceFromValue
        (extensions[provenanceKey]?.getD (.object [("hops", .array [])]))).mapError .canonical)
      let parentEvidenceIds ←
        parentIds ((extensions[parentIdsKey]?.bind Value.asArray).getD [])
      let state ← .ofExcept ((CanonicalState.fromCanonicalBytes canonicalBytes).mapError
        fun err => .canonical err.display)
      let source ← sourceBytes extensions
      let signature ← signatureBytes extensions
      let subject ← subjectOf t msg.subject
      let expiresAtNanos := (extensions[expiresAtKey]?.bind Value.asI64).getD Int64.maxValue
      return { evidenceId := ⟨evidenceId⟩
               observationId := ⟨observationId⟩
               sourceId := ⟨source⟩
               subject
               observedAtNanos := state.observedAtNanos
               receivedAtNanos := 0
               expiresAtNanos
               payload := canonicalBytes
               provenance
               parentEvidenceIds
               signature }
  | _ => .err .unexpectedPayload

/-- A call without panics as a check. -/
def okVerdict {ε α : Type} : Except ε α → Outcome.Verdict
  | .ok _ => .pass
  | .error _ => .fail

/-- A slice-only read panics or passes. -/
def sliceVerdict (s : String) : Outcome.Verdict :=
  if Sliceable s then .pass else .crash

/-- A read of 32 bytes panics, fails on another length, or passes. -/
def hexVerdict (s : String) : Outcome.Verdict :=
  if Sliceable s then if (hexPairs s).length = 32 then .pass else .fail else .crash

/-- The strings of the parent list. -/
def parentTexts (ext : Std.ExtTreeMap String Value) : List String :=
  ((ext[parentIdsKey]?.bind Value.asArray).getD []).filterMap Value.asStr

/-- The text of the source id, when the key is there. -/
def sourceText (ext : Std.ExtTreeMap String Value) : Option String :=
  ext[sourceIdKey]?.map fun v => v.asStr.getD ""

/-- The text of the signature, when there is one. -/
def signatureText (ext : Std.ExtTreeMap String Value) : Option String :=
  ext[signatureKey]?.bind Value.asStr

/-- The value that the provenance is read from. -/
def provenanceValue (ext : Std.ExtTreeMap String Value) : Value :=
  ext[provenanceKey]?.getD (.object [("hops", .array [])])

/-- How reading a message ends: the first check that does not pass decides. -/
def messageVerdict (t : TheMql) (msg : Message) : Outcome.Verdict :=
  match msg.payload with
  | .bytes canonicalBytes .postcard =>
      let ext := msg.extensions
      .all [
        hexVerdict (textAt ext evidenceIdKey),
        hexVerdict (textAt ext observationIdKey),
        okVerdict (t.provenanceFromValue (provenanceValue ext)),
        .all ((parentTexts ext).map sliceVerdict),
        okVerdict (CanonicalState.fromCanonicalBytes canonicalBytes),
        (sourceText ext).elim .pass hexVerdict,
        (signatureText ext).elim .pass sliceVerdict,
        if isEvidencePath msg.subject.segments then .pass else .fail]
  | _ => .fail

/-- The top bit is the sign. -/
theorem toInt64_neg_iff (m : UInt64) : m.toInt64 < 0 ↔ ¬ m.toNat < 2 ^ 63 := by
  have hm := m.toNat_lt
  have hnat : m.toBitVec.toNat = m.toNat := rfl
  rw [Int64.lt_iff_toInt_lt, Int64.toInt_zero]
  change m.toBitVec.toInt < 0 ↔ _
  rw [BitVec.toInt_eq_toNat_cond, hnat]
  split <;> omega

/-- The numbers that read as an `i64` are the written ones. -/
theorem asI64_eq_some_iff (n : Number) (x : Int64) : n.asI64 = some x ↔ n = .ofI64 x := by
  unfold Number.asI64 Number.ofI64
  cases n with
  | posInt m =>
      -- A non-negative number is written as `posInt`, and only below the sign bit.
      by_cases hm : m.toNat < 2 ^ 63
      · simp only [hm, if_true, Option.some.injEq]
        constructor
        · rintro rfl
          rw [dif_neg (fun h => (toInt64_neg_iff m).mp h hm)]
          rfl
        · intro h
          split at h
          · exact absurd h (by simp only [reduceCtorEq, not_false_eq_true])
          · rw [Number.posInt.inj h]
            rfl
      · simp only [hm, if_false, reduceCtorEq, false_iff]
        intro h
        split at h
        · exact absurd h (by simp only [reduceCtorEq, not_false_eq_true])
        · rename_i hx
          have hmx := Number.posInt.inj h
          rw [hmx] at hm
          exact hx ((toInt64_neg_iff x.toUInt64).mpr hm)
  | negInt m hm =>
      simp only [Option.some.injEq]
      constructor
      · rintro rfl
        rw [dif_pos hm]
      · intro h
        split at h
        · exact Number.negInt.inj h
        · exact absurd h (by simp only [reduceCtorEq, not_false_eq_true])
  | float bits =>
      simp only [reduceCtorEq, false_iff]
      split <;> simp only [reduceCtorEq, not_false_eq_true]

theorem verdict_ofExcept_mapError {ε ε' α : Type} (x : Except ε α) (f : ε → ε') :
    (Outcome.ofExcept (x.mapError f)).verdict = okVerdict x := by
  cases x <;> rfl

theorem verdict_parseHex32 (s : String) : (parseHex32 s).verdict = hexVerdict s := by
  unfold hexVerdict
  by_cases h : Sliceable s
  · rw [if_pos h]
    by_cases hlen : (hexPairs s).length = 32
    · rcases (parseHex32_isOk_iff s).mpr ⟨h, hlen⟩ with ⟨b, hb⟩
      rw [if_pos hlen, hb, Outcome.verdict_ok]
    · rw [if_neg hlen, Outcome.verdict_eq_fail_iff, parseHex32_eq_err_iff]
      exact ⟨h, hlen⟩
  · rw [if_neg h, Outcome.verdict_eq_crash_iff, parseHex32_eq_panicked_iff]
    exact h

/-- Reading the parent list never fails; it panics on the first string that is
    not sliceable. -/
theorem verdict_parentIds (vs : List Value) :
    (parentIds vs).verdict = .all ((vs.filterMap Value.asStr).map sliceVerdict) := by
  induction vs with
  | nil => rfl
  | cons v vs ih =>
      unfold parentIds
      cases hv : v.asStr with
      | none =>
          rw [List.filterMap_cons_none hv]
          exact ih
      | some s =>
          rw [List.filterMap_cons_some hv, List.map_cons, Outcome.Verdict.all, List.foldr_cons,
            ← Outcome.Verdict.all, ← ih, sliceVerdict]
          -- A string that is no hex text is dropped, so only slicing can go wrong.
          by_cases hs : Sliceable s
          · rw [if_pos hs]
            cases hp : parseHex32 s with
            | panicked => exact absurd hs ((parseHex32_eq_panicked_iff s).mp hp)
            | err e => simp only [hp, Outcome.Verdict.andThen]
            | ok id =>
                simp only [hp]
                rw [Outcome.verdict_bind (v := .pass) _ fun _ _ => rfl]
                cases (parentIds vs).verdict <;> rfl
          · simp only [if_neg hs, (parseHex32_eq_panicked_iff s).mpr hs, Outcome.verdict_panicked,
              Outcome.Verdict.andThen]

theorem verdict_sourceBytes (ext : Std.ExtTreeMap String Value) :
    (sourceBytes ext).verdict = (sourceText ext).elim .pass hexVerdict := by
  unfold sourceBytes sourceText
  cases ext[sourceIdKey]? with
  | none => rfl
  | some v => exact verdict_parseHex32 _

theorem verdict_signatureBytes (ext : Std.ExtTreeMap String Value) :
    (signatureBytes ext).verdict = (signatureText ext).elim .pass sliceVerdict := by
  unfold signatureBytes signatureText
  cases ext[signatureKey]?.bind Value.asStr with
  | none => rfl
  | some s =>
      rw [Option.elim_some, sliceVerdict]
      by_cases h : Sliceable s
      · simp only [if_pos h, hexBytes_of_sliceable h]
        rfl
      · simp only [if_neg h, hexBytes_of_not_sliceable h]
        rfl

theorem verdict_subjectOf (t : TheMql) (subject : Subject) :
    (subjectOf t subject).verdict = if isEvidencePath subject.segments then .pass else .fail := by
  unfold subjectOf
  by_cases h : isEvidencePath subject.segments
  · rw [if_pos h, if_pos h, Outcome.verdict_ok]
  · rw [if_neg h, if_neg h, Outcome.verdict_err]

/-- How reading a message ends. -/
theorem verdict_fromMessage (t : TheMql) (msg : Message) (original : SubjectId) :
    (fromMessage t msg original).verdict = messageVerdict t msg := by
  unfold fromMessage messageVerdict
  cases msg.payload with
  | other => rfl
  | bytes canonicalBytes tag =>
      cases tag with
      | other => rfl
      | postcard =>
          simp only [parentTexts, provenanceValue]
          rw [← verdict_parseHex32, ← verdict_parseHex32, ← verdict_parentIds,
            ← verdict_sourceBytes, ← verdict_signatureBytes, ← verdict_subjectOf,
            ← verdict_ofExcept_mapError _ MqlError.canonical,
            ← verdict_ofExcept_mapError (CanonicalState.fromCanonicalBytes canonicalBytes)
              fun err => MqlError.canonical err.display]
          -- One bind for one check, eight times.
          refine Outcome.verdict_bind _ fun _ _ => ?_
          refine Outcome.verdict_bind _ fun _ _ => ?_
          refine Outcome.verdict_bind _ fun _ _ => ?_
          refine Outcome.verdict_bind _ fun _ _ => ?_
          refine Outcome.verdict_bind _ fun _ _ => ?_
          refine Outcome.verdict_bind _ fun _ _ => ?_
          refine Outcome.verdict_bind _ fun _ _ => ?_
          exact Outcome.verdict_bind _ fun _ _ => rfl

end Mql

end Seven
