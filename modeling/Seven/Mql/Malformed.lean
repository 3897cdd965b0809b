import Seven.Library.Maps
import Seven.Mql.Projection

/-!
# Malformed Messages

What reading does with a message that projecting could not have written. Two
properties would make it safe to read messages from a stranger: reading never
panics, and it returns an error whenever a value under one of the seven keys was
not written by the projection. Neither holds of every message.

Reading panics exactly when it reaches a text it cannot slice (`SafeSlices` is
the absence of that), and it returns an error exactly when it does not panic and
one of the checks collected in `Accepted` does not pass. A malformed value that
no check looks at is taken: an expiry that is no `i64` becomes the largest one, a
parent that is no hex text is dropped, a signature that is no string is dropped.

## Main definitions

* `SafeSlices`: No text that reading reaches is unsliceable.
* `Accepted`: Every check that reading makes passes.
* `Written`: The values that projecting writes under each key.
* `ExplicitFailure`: A value that was not written makes reading fail.
* `keyVerdict`: How the check of one key ends.

## Theorems

* `fromMessage_ne_panicked_iff`: When reading does not panic.
* `fromMessage_isErr_iff`: When reading returns an error.
* `accepted_of_toMessage`: What was projected is accepted.
* `written_iff_toMessage`: The written values are those projecting writes.
* `messageVerdict_insert_expiresAt`: No expiry makes reading fail.
* `fromMessage_insert_isErr_iff`: Which values are refused, key by key.
* `explicitFailure_iff`: When malformed metadata is refused.
-/

namespace Seven

namespace Mql

open Outcome (Verdict)

/-- A text whose slices are 32 hex pairs. -/
def Hex32 (s : String) : Prop := Sliceable s ∧ (hexPairs s).length = 32

/-- No text that reading reaches is unsliceable. The conditions are nested as
    the checks follow each other: one matters only where the ones before it
    pass. -/
def SafeSlices (t : TheMql) (msg : Message) : Prop :=
  ∀ canonicalBytes, msg.payload = .bytes canonicalBytes .postcard →
    let ext := msg.extensions
    Sliceable (textAt ext evidenceIdKey) ∧ (Hex32 (textAt ext evidenceIdKey) →
      Sliceable (textAt ext observationIdKey) ∧ (Hex32 (textAt ext observationIdKey) →
        (∃ p, t.provenanceFromValue (provenanceValue ext) = .ok p) →
          (∀ s ∈ parentTexts ext, Sliceable s) ∧
          ((∃ state, CanonicalState.fromCanonicalBytes canonicalBytes = .ok state) →
            (∀ s ∈ sourceText ext, Sliceable s) ∧ ((∀ s ∈ sourceText ext, Hex32 s) →
              ∀ s ∈ signatureText ext, Sliceable s))))

/-- Every check that reading makes passes. -/
structure Accepted (t : TheMql) (msg : Message) (canonicalBytes : Bytes) : Prop where
  payload : msg.payload = .bytes canonicalBytes .postcard
  evidenceId : Hex32 (textAt msg.extensions evidenceIdKey)
  observationId : Hex32 (textAt msg.extensions observationIdKey)
  provenance : ∃ p, t.provenanceFromValue (provenanceValue msg.extensions) = .ok p
  parentIds : ∀ s ∈ parentTexts msg.extensions, Sliceable s
  state : ∃ state, CanonicalState.fromCanonicalBytes canonicalBytes = .ok state
  sourceId : ∀ s ∈ sourceText msg.extensions, Hex32 s
  signature : ∀ s ∈ signatureText msg.extensions, Sliceable s
  subject : isEvidencePath msg.subject.segments = true

theorem sliceVerdict_ne_crash_iff (s : String) : sliceVerdict s ≠ .crash ↔ Sliceable s := by
  unfold sliceVerdict
  by_cases h : Sliceable s <;> simp only [h, if_true, if_false, ne_eq, reduceCtorEq,
    not_false_eq_true, not_true_eq_false]

theorem sliceVerdict_eq_pass_iff (s : String) : sliceVerdict s = .pass ↔ Sliceable s := by
  unfold sliceVerdict
  by_cases h : Sliceable s <;> simp only [h, if_true, if_false, reduceCtorEq]

theorem hexVerdict_ne_crash_iff (s : String) : hexVerdict s ≠ .crash ↔ Sliceable s := by
  unfold hexVerdict
  by_cases h : Sliceable s
  · by_cases hlen : (hexPairs s).length = 32 <;> simp only [h, hlen, if_true, if_false, ne_eq,
      reduceCtorEq, not_false_eq_true]
  · simp only [h, if_false, ne_eq, not_true_eq_false]

theorem hexVerdict_eq_pass_iff (s : String) : hexVerdict s = .pass ↔ Hex32 s := by
  unfold hexVerdict Hex32
  by_cases h : Sliceable s
  · by_cases hlen : (hexPairs s).length = 32 <;> simp only [h, hlen, if_true, if_false,
      reduceCtorEq, and_self, and_false]
  · simp only [h, if_false, reduceCtorEq, false_and]

theorem okVerdict_ne_crash_iff {ε α : Type} (x : Except ε α) :
    okVerdict x ≠ .crash ↔ True := by
  cases x <;> simp only [okVerdict, ne_eq, reduceCtorEq, not_false_eq_true]

theorem okVerdict_eq_pass_iff {ε α : Type} (x : Except ε α) :
    okVerdict x = .pass ↔ ∃ a, x = .ok a := by
  cases x <;> simp only [okVerdict, reduceCtorEq, Except.ok.injEq, exists_eq', exists_false]

theorem and_imp_self_iff {a b : Prop} : (a ∧ (a → b)) ↔ a ∧ b :=
  and_congr_right fun h => ⟨fun f => f h, fun hb _ => hb⟩

/-- Slicing a list of texts never fails, so not panicking and passing are one. -/
theorem all_sliceVerdict_iff (ss : List String) :
    (Verdict.all (ss.map sliceVerdict) ≠ .crash ↔ ∀ s ∈ ss, Sliceable s) ∧
      (Verdict.all (ss.map sliceVerdict) = .pass ↔ ∀ s ∈ ss, Sliceable s) := by
  induction ss with
  | nil => simp only [List.map_nil, Verdict.all_nil, List.not_mem_nil, false_imp_iff, implies_true,
      ne_eq, reduceCtorEq, not_false_eq_true, and_self]
  | cons s ss ih =>
      rw [List.map_cons, Verdict.all_cons, Verdict.andThen_ne_crash_iff,
        Verdict.andThen_eq_pass_iff, ih.1, ih.2, sliceVerdict_ne_crash_iff,
        sliceVerdict_eq_pass_iff, List.forall_mem_cons, and_imp_self_iff]
      exact ⟨Iff.rfl, Iff.rfl⟩

/-- A check of a text that may be absent. -/
theorem option_elim_iff (o : Option String) (f : String → Verdict) :
    (o.elim .pass f ≠ .crash ↔ ∀ s ∈ o, f s ≠ .crash) ∧
      (o.elim .pass f = .pass ↔ ∀ s ∈ o, f s = .pass) := by
  cases o <;> simp only [Option.elim_none, Option.elim_some, reduceCtorEq, false_imp_iff,
    implies_true, Option.mem_def, Option.some.injEq, forall_eq', ne_eq, not_false_eq_true, and_self]

theorem path_verdict_iff (segs : List String) :
    ((if isEvidencePath segs then Verdict.pass else .fail) ≠ .crash ↔ True) ∧
      ((if isEvidencePath segs then Verdict.pass else .fail) = .pass ↔
        isEvidencePath segs = true) := by
  cases isEvidencePath segs <;> simp only [Bool.false_eq_true, if_true, if_false, ne_eq,
    reduceCtorEq, not_false_eq_true, and_self]

theorem messageVerdict_of_payload {t : TheMql} {msg : Message}
    (h : ∀ canonicalBytes, msg.payload ≠ .bytes canonicalBytes .postcard) :
    messageVerdict t msg = .fail := by
  unfold messageVerdict
  cases hp : msg.payload with
  | other => rfl
  | bytes canonicalBytes tag =>
      cases tag with
      | other => rfl
      | postcard => exact absurd hp (h canonicalBytes)

/-- Reading does not panic when the texts it reaches are sliceable. -/
theorem messageVerdict_ne_crash_iff (t : TheMql) (msg : Message) :
    messageVerdict t msg ≠ .crash ↔ SafeSlices t msg := by
  by_cases hp : ∃ canonicalBytes, msg.payload = .bytes canonicalBytes .postcard
  · rcases hp with ⟨canonicalBytes, hp⟩
    -- Eight checks in a row: each matters only when the ones before it pass.
    simp only [messageVerdict, SafeSlices, hp, Payload.bytes.injEq, and_true, forall_eq',
      Verdict.all_cons, Verdict.all_nil, Verdict.andThen_ne_crash_iff, hexVerdict_ne_crash_iff,
      hexVerdict_eq_pass_iff, okVerdict_ne_crash_iff, okVerdict_eq_pass_iff,
      (all_sliceVerdict_iff _).1, (all_sliceVerdict_iff _).2, (option_elim_iff _ _).1,
      (option_elim_iff _ _).2, sliceVerdict_ne_crash_iff, sliceVerdict_eq_pass_iff,
      (path_verdict_iff _).1, (path_verdict_iff _).2, true_and, and_imp_self_iff]
    simp only [ne_eq, reduceCtorEq, not_false_eq_true, implies_true, and_true]
  · have hnone : ∀ canonicalBytes, msg.payload ≠ .bytes canonicalBytes .postcard :=
      fun b hb => hp ⟨b, hb⟩
    rw [messageVerdict_of_payload hnone]
    exact iff_of_true (by simp only [ne_eq, reduceCtorEq, not_false_eq_true])
      fun b hb => absurd hb (hnone b)

/-- Reading passes when all of its checks do. -/
theorem messageVerdict_eq_pass_iff (t : TheMql) (msg : Message) :
    messageVerdict t msg = .pass ↔ ∃ canonicalBytes, Accepted t msg canonicalBytes := by
  by_cases hp : ∃ canonicalBytes, msg.payload = .bytes canonicalBytes .postcard
  · rcases hp with ⟨canonicalBytes, hp⟩
    simp only [messageVerdict, hp, Verdict.all_cons, Verdict.all_nil, Verdict.andThen_eq_pass_iff,
      hexVerdict_eq_pass_iff, okVerdict_eq_pass_iff, (all_sliceVerdict_iff _).2,
      (option_elim_iff _ _).2, sliceVerdict_eq_pass_iff, (path_verdict_iff _).2, and_true]
    constructor
    · intro hexists
      rcases hexists with ⟨hid, hobs, hprov, hpar, hstate, hsrc, hsig, hsub⟩
      exact ⟨canonicalBytes, hp, hid, hobs, hprov, hpar, hstate, hsrc, hsig, hsub⟩
    · intro hexists
      rcases hexists with ⟨bytes, h⟩
      have hbytes : canonicalBytes = bytes := by
        have heq := hp.symm.trans h.payload
        exact (Payload.bytes.inj heq).1
      rw [hbytes]
      exact ⟨h.evidenceId, h.observationId, h.provenance, h.parentIds, h.state, h.sourceId,
        h.signature, h.subject⟩
  · rw [messageVerdict_of_payload fun b hb => hp ⟨b, hb⟩]
    exact iff_of_false (by simp only [reduceCtorEq, not_false_eq_true])
      fun ⟨b, h⟩ => hp ⟨b, h.payload⟩

/-- Reading a message does not panic exactly when every text it reaches is
    sliceable. -/
theorem fromMessage_ne_panicked_iff (t : TheMql) (msg : Message) (original : SubjectId) :
    fromMessage t msg original ≠ .panicked ↔ SafeSlices t msg := by
  rw [← messageVerdict_ne_crash_iff, ← verdict_fromMessage t msg original, ne_eq, ne_eq,
    Outcome.verdict_eq_crash_iff]

/-- Reading does panic: an identifier of one digit is sliced past its end. -/
theorem fromMessage_panics :
    ¬ ∀ (t : TheMql) (msg : Message) (original : SubjectId), t.Faithful →
      fromMessage t msg original ≠ .panicked := by
  intro hall
  let msg : Message :=
    { subject := ⟨"", []⟩
      payload := .bytes [] .postcard
      extensions := Std.ExtTreeMap.insert ∅ evidenceIdKey (.string "a") }
  have htext : textAt msg.extensions evidenceIdKey = "a" :=
    textAt_of_getElem? Std.ExtTreeMap.getElem?_insert_self
  -- One digit has an odd length, and the identifier is sliced first.
  have hcrash : messageVerdict verbatim msg = .crash := by
    have hodd : ¬ Sliceable "a" := by decide
    simp only [msg, messageVerdict, Verdict.all_cons] at htext ⊢
    rw [htext, hexVerdict, if_neg hodd, Verdict.andThen]
  refine hall verbatim msg ⟨""⟩ verbatim_faithful ?_
  rw [← Outcome.verdict_eq_crash_iff, verdict_fromMessage, hcrash]

/-- Reading a message fails exactly when it does not panic and some check does
    not pass. -/
theorem fromMessage_isErr_iff (t : TheMql) (msg : Message) (original : SubjectId) :
    (∃ err, fromMessage t msg original = .err err) ↔
      SafeSlices t msg ∧ ¬ ∃ canonicalBytes, Accepted t msg canonicalBytes := by
  rw [← Outcome.verdict_eq_fail_iff, verdict_fromMessage, Verdict.eq_fail_iff,
    messageVerdict_ne_crash_iff, ← messageVerdict_eq_pass_iff]

/-- The values that projecting writes under each key. -/
inductive Written (t : TheMql) : String → Value → Prop
  | evidenceId (bs : Vector UInt8 32) : Written t evidenceIdKey (.string (hex bs))
  | observationId (bs : Vector UInt8 32) : Written t observationIdKey (.string (hex bs))
  | sourceId (bs : Vector UInt8 32) : Written t sourceIdKey (.string (hex bs))
  | provenance (p : Provenance) (v : Value) (h : t.provenanceToValue p = .ok v) :
      Written t provenanceKey v
  | expiresAt (x : Int64) : Written t expiresAtKey (.number (.ofI64 x))
  | parentIds (ids : List EvidenceId) :
      Written t parentIdsKey (.array (ids.map fun id => .string (hex id.bytes)))
  | signature (bs : Bytes) : Written t signatureKey (.string (hexSlice bs))

/-- The keys of an evidence. -/
def evidenceKeys : List String :=
  [evidenceIdKey, observationIdKey, sourceIdKey, provenanceKey, expiresAtKey, parentIdsKey,
    signatureKey]

/-- Every value under an evidence key was written by projecting. -/
def AllWritten (t : TheMql) (msg : Message) : Prop :=
  ∀ key ∈ evidenceKeys, ∀ v, msg.extensions[key]? = some v → Written t key v

/-- Projecting writes under the seven keys only. -/
theorem mem_evidenceKeys_of_getElem? {e : Evidence} {provenance v : Value} {key : String}
    (h : (extensionsOf e provenance)[key]? = some v) : key ∈ evidenceKeys := by
  by_contra hkey
  simp only [evidenceKeys, List.mem_cons, List.not_mem_nil, or_false, not_or] at hkey
  rcases hkey with ⟨hid, hobs, hsrc, hchain, hexp, hpar, hsig⟩
  cases hsome : e.signature with
  | none =>
      simp only [extensionsOf, hsome, Std.ExtTreeMap.getElem?_insert, Std.compare_eq_iff_eq,
        Ne.symm hid, Ne.symm hobs, Ne.symm hsrc, Ne.symm hchain, Ne.symm hexp, Ne.symm hpar,
        if_false, Std.ExtTreeMap.getElem?_empty, reduceCtorEq] at h
  | some sig =>
      simp only [extensionsOf, hsome, Std.ExtTreeMap.getElem?_insert, Std.compare_eq_iff_eq,
        Ne.symm hid, Ne.symm hobs, Ne.symm hsrc, Ne.symm hchain, Ne.symm hexp, Ne.symm hpar,
        Ne.symm hsig, if_false, Std.ExtTreeMap.getElem?_empty, reduceCtorEq] at h

/-- What projecting puts under a key is a written value. -/
theorem written_of_getElem? {t : TheMql} {e : Evidence} {provenance v : Value} {key : String}
    (hto : t.provenanceToValue e.provenance = .ok provenance)
    (h : (extensionsOf e provenance)[key]? = some v) : Written t key v := by
  have hkey := mem_evidenceKeys_of_getElem? h
  rcases extensionsOf_getElem? e provenance with ⟨hid, hobs, hsrc, hchain, hexp, hpar, hsig⟩
  simp only [evidenceKeys, List.mem_cons, List.not_mem_nil, or_false] at hkey
  rcases hkey with rfl | rfl | rfl | rfl | rfl | rfl | rfl
  · rw [hid] at h
    rw [← Option.some.inj h]
    exact .evidenceId _
  · rw [hobs] at h
    rw [← Option.some.inj h]
    exact .observationId _
  · rw [hsrc] at h
    rw [← Option.some.inj h]
    exact .sourceId _
  · rw [hchain] at h
    rw [← Option.some.inj h]
    exact .provenance _ _ hto
  · rw [hexp] at h
    rw [← Option.some.inj h]
    exact .expiresAt _
  · rw [hpar] at h
    rw [← Option.some.inj h]
    exact .parentIds _
  · rw [hsig] at h
    rcases Option.map_eq_some_iff.mp h with ⟨sig, _, rfl⟩
    exact .signature _

/-- The written values are those that projecting writes, when every evidence of
    some subject is projected. -/
theorem written_iff_toMessage {t : TheMql} (ht : t.Faithful) (base : Evidence) (domain : String)
    (htakes : ∀ e, e.subject = base.subject → ∃ m, toMessage t e domain = .ok m)
    (key : String) (v : Value) :
    Written t key v ↔ ∃ e m, toMessage t e domain = .ok m ∧ m.extensions[key]? = some v := by
  constructor
  · intro h
    -- The base with the one field set that the key carries.
    have hset : ∀ e : Evidence, e.subject = base.subject →
        (∀ provenance, t.provenanceToValue e.provenance = .ok provenance →
          (extensionsOf e provenance)[key]? = some v) →
        ∃ e m, toMessage t e domain = .ok m ∧ m.extensions[key]? = some v := by
      intro e hsubject hkey
      rcases htakes e hsubject with ⟨m, hm⟩
      rcases toMessage_eq_ok ht hm with ⟨_, _, provenance, hto, hext⟩
      exact ⟨e, m, hm, hext ▸ hkey provenance hto⟩
    cases h with
    | evidenceId bs =>
        exact hset { base with evidenceId := ⟨bs⟩ } rfl fun p _ => (extensionsOf_getElem? _ p).1
    | observationId bs =>
        exact hset { base with observationId := ⟨bs⟩ } rfl
          fun p _ => (extensionsOf_getElem? _ p).2.1
    | sourceId bs =>
        exact hset { base with sourceId := ⟨bs⟩ } rfl fun p _ => (extensionsOf_getElem? _ p).2.2.1
    | provenance chain v hv =>
        refine hset { base with provenance := chain } rfl fun p hp => ?_
        rw [Except.ok.inj (hv.symm.trans hp)]
        exact (extensionsOf_getElem? _ p).2.2.2.1
    | expiresAt x =>
        exact hset { base with expiresAtNanos := x } rfl
          fun p _ => (extensionsOf_getElem? _ p).2.2.2.2.1
    | parentIds ids =>
        exact hset { base with parentEvidenceIds := ids } rfl
          fun p _ => (extensionsOf_getElem? _ p).2.2.2.2.2.1
    | signature bs =>
        exact hset { base with signature := some bs } rfl
          fun p _ => (extensionsOf_getElem? _ p).2.2.2.2.2.2
  · intro hexists
    rcases hexists with ⟨e, m, hm, hkey⟩
    rcases toMessage_eq_ok ht hm with ⟨_, _, provenance, hto, hext⟩
    exact written_of_getElem? hto (hext ▸ hkey)

/-- A value under an evidence key that projecting could not have written makes
    reading fail. -/
def ExplicitFailure (t : TheMql) (msg : Message) (original : SubjectId) : Prop :=
  (∃ key ∈ evidenceKeys, ∃ v, msg.extensions[key]? = some v ∧ ¬ Written t key v) →
    ∃ err, fromMessage t msg original = .err err

theorem hex32_hex (bs : Vector UInt8 32) : Hex32 (hex bs) := by
  refine ⟨sliceable_hexSlice _, ?_⟩
  rw [hex, hexPairs_hexSlice, Vector.length_toList]

/-- What was projected is accepted. -/
theorem accepted_of_toMessage {t : TheMql} (ht : t.Faithful) {e : Evidence} {domain : String}
    {m : Message} (hm : toMessage t e domain = .ok m)
    (hstate : ∃ state, CanonicalState.fromCanonicalBytes e.payload = .ok state) :
    Accepted t m e.payload := by
  rcases toMessage_eq_ok ht hm with ⟨hpayload, hsegs, provenance, hto, hext⟩
  rcases extensionsOf_getElem? e provenance with ⟨hid, hobs, hsrc, hchain, _, hpar, hsig⟩
  rw [← hext] at hid hobs hsrc hchain hpar hsig
  refine ⟨hpayload, ?_, ?_, ?_, ?_, hstate, ?_, ?_, ?_⟩
  · rw [textAt_of_getElem? hid]
    exact hex32_hex _
  · rw [textAt_of_getElem? hobs]
    exact hex32_hex _
  · rw [provenanceValue, hchain]
    exact ⟨_, ht.provenance_roundtrip _ _ hto⟩
  -- Every text under a key that is read was written by the hex writer.
  · intro s hs
    simp only [parentTexts, hpar, Option.bind_some, Value.asArray, Option.getD_some,
      List.mem_filterMap, List.mem_map] at hs
    rcases hs with ⟨_, ⟨id, _, rfl⟩, hs⟩
    rw [← Option.some.inj hs]
    exact (hex32_hex _).1
  · intro s hs
    rw [sourceText, hsrc] at hs
    rw [← Option.some.inj hs]
    exact hex32_hex _
  · intro s hs
    rw [signatureText, hsig] at hs
    rcases Option.bind_eq_some_iff.mp hs with ⟨_, hv, hs⟩
    rcases Option.map_eq_some_iff.mp hv with ⟨sig, _, rfl⟩
    rw [← Option.some.inj hs]
    exact sliceable_hexSlice _
  · rw [hsegs]
    rfl

/-- No expiry makes reading fail: no check looks at it. -/
theorem messageVerdict_insert_expiresAt (t : TheMql) (msg : Message) (v : Value) :
    messageVerdict t { msg with extensions := msg.extensions.insert expiresAtKey v } =
      messageVerdict t msg := by
  -- The six other keys are looked up as before.
  have hother : ∀ key, key ≠ expiresAtKey →
      (msg.extensions.insert expiresAtKey v)[key]? = msg.extensions[key]? := by
    intro key hkey
    rw [Std.ExtTreeMap.getElem?_insert, if_neg]
    rw [Std.compare_eq_iff_eq]
    exact hkey.symm
  unfold messageVerdict textAt provenanceValue parentTexts sourceText signatureText
  simp only [hother evidenceIdKey (by decide), hother observationIdKey (by decide),
    hother provenanceKey (by decide), hother parentIdsKey (by decide),
    hother sourceIdKey (by decide), hother signatureKey (by decide)]

/-- A projected message whose expiry was overwritten with a text is read. -/
theorem not_explicitFailure :
    ¬ ∀ (t : TheMql) (msg : Message) (original : SubjectId), t.Faithful →
      ExplicitFailure t msg original := by
  intro hall
  let e := Evidence.minted (Vector.replicate 32 7) ⟨"ac1"⟩ (.atRest 5)
  have hstate : CanonicalState.fromCanonicalBytes e.payload = .ok (.atRest 5) :=
    CanonicalState.fromCanonicalBytes_writeI64s (.atRest 5)
  rcases toMessage_verbatim e "aviation" (by decide) (by decide) (by decide) (by decide)
    with ⟨m, hm⟩
  let msg := { m with extensions := m.extensions.insert expiresAtKey (.string "never") }
  have hpass : messageVerdict verbatim msg = .pass := by
    rw [messageVerdict_insert_expiresAt, messageVerdict_eq_pass_iff]
    exact ⟨_, accepted_of_toMessage verbatim_faithful hm ⟨_, hstate⟩⟩
  have hget : msg.extensions[expiresAtKey]? = some (.string "never") :=
    Std.ExtTreeMap.getElem?_insert_self
  have hmalformed : ¬ Written verbatim expiresAtKey (.string "never") := by
    intro h
    generalize hkey : expiresAtKey = key at h
    generalize hv : Value.string "never" = v at h
    cases h with
    | expiresAt x => exact absurd hv (by simp only [reduceCtorEq, not_false_eq_true])
    | _ => exact absurd hkey (by decide)
  have herr := hall verbatim msg ⟨"ac1"⟩ verbatim_faithful
    ⟨expiresAtKey, by decide, _, hget, hmalformed⟩
  rw [← Outcome.verdict_eq_fail_iff, verdict_fromMessage, hpass] at herr
  exact absurd herr (by decide)

/-- How the check of one key ends on a value. -/
def keyVerdict (t : TheMql) (key : String) (v : Value) : Verdict :=
  if key = provenanceKey then okVerdict (t.provenanceFromValue v)
  else if key = parentIdsKey then
    .all (((v.asArray.getD []).filterMap Value.asStr).map sliceVerdict)
  else if key = signatureKey then v.asStr.elim .pass sliceVerdict
  else if key = expiresAtKey then .pass
  else hexVerdict (v.asStr.getD "")

/-- In a message that is otherwise accepted, the check of a key decides. -/
theorem messageVerdict_insert {t : TheMql} {msg : Message} {canonicalBytes : Bytes}
    (h : Accepted t msg canonicalBytes) {key : String} (hkey : key ∈ evidenceKeys) (v : Value) :
    messageVerdict t { msg with extensions := msg.extensions.insert key v } =
      keyVerdict t key v := by
  have hother : ∀ k, key ≠ k → (msg.extensions.insert key v)[k]? = msg.extensions[k]? :=
    fun k hne => Maps.getElem?_insert_of_ne _ _ hne
  have hself : (msg.extensions.insert key v)[key]? = some v :=
    Std.ExtTreeMap.getElem?_insert_self
  have hid := (hexVerdict_eq_pass_iff _).mpr h.evidenceId
  have hobs := (hexVerdict_eq_pass_iff _).mpr h.observationId
  have hprov := (okVerdict_eq_pass_iff _).mpr h.provenance
  have hpar := (all_sliceVerdict_iff _).2.mpr h.parentIds
  have hstate := (okVerdict_eq_pass_iff _).mpr h.state
  have hsrc := (option_elim_iff _ hexVerdict).2.mpr fun s hs =>
    (hexVerdict_eq_pass_iff s).mpr (h.sourceId s hs)
  have hsig := (option_elim_iff _ sliceVerdict).2.mpr fun s hs =>
    (sliceVerdict_eq_pass_iff s).mpr (h.signature s hs)
  unfold textAt at hid hobs
  unfold provenanceValue at hprov
  unfold parentTexts at hpar
  unfold sourceText at hsrc
  unfold signatureText at hsig
  unfold messageVerdict textAt provenanceValue parentTexts sourceText signatureText
  simp only [evidenceKeys, List.mem_cons, List.not_mem_nil, or_false] at hkey
  -- The checks of the six other keys see what they saw before, and pass.
  rcases hkey with rfl | rfl | rfl | rfl | rfl | rfl | rfl <;>
    simp (disch := decide) only [h.payload, hself, hother, Option.bind_some, Option.map_some,
      Option.getD_some, Option.elim_some, hid, hobs, hprov, hpar, hstate, hsrc, hsig, h.subject,
      keyVerdict, if_pos, if_neg, Verdict.all_cons, Verdict.all_nil, Verdict.pass_andThen,
      Verdict.andThen_pass]

theorem hexVerdict_eq_fail_iff (s : String) :
    hexVerdict s = .fail ↔ Sliceable s ∧ (hexPairs s).length ≠ 32 := by
  rw [Verdict.eq_fail_iff, hexVerdict_ne_crash_iff, ne_eq, hexVerdict_eq_pass_iff, Hex32]
  exact and_congr_right fun h => not_congr (and_iff_right h)

theorem okVerdict_eq_fail_iff {ε α : Type} (x : Except ε α) :
    okVerdict x = .fail ↔ ∃ err, x = .error err := by
  cases x <;> simp only [okVerdict, reduceCtorEq, Except.error.injEq, exists_eq', exists_false]

/-- The checks of the expiry, of the parents and of the signature never fail: they
    panic or pass. -/
theorem keyVerdict_ne_fail (t : TheMql) {key : String}
    (hkey : key ∈ [expiresAtKey, parentIdsKey, signatureKey]) (v : Value) :
    keyVerdict t key v ≠ .fail := by
  intro h
  rcases (Verdict.eq_fail_iff _).mp h with ⟨hcrash, hpass⟩
  simp only [List.mem_cons, List.not_mem_nil, or_false] at hkey
  rcases hkey with rfl | rfl | rfl
  · exact hpass rfl
  · have hverdict : keyVerdict t parentIdsKey v =
        .all (((v.asArray.getD []).filterMap Value.asStr).map sliceVerdict) := by
      simp (disch := decide) only [keyVerdict, if_neg, if_true]
    rw [hverdict] at hcrash hpass
    exact hpass ((all_sliceVerdict_iff _).2.mpr ((all_sliceVerdict_iff _).1.mp hcrash))
  · have hverdict : keyVerdict t signatureKey v = v.asStr.elim .pass sliceVerdict := by
      simp (disch := decide) only [keyVerdict, if_neg, if_true]
    rw [hverdict] at hcrash hpass
    refine hpass ((option_elim_iff _ _).2.mpr fun s hs => (sliceVerdict_eq_pass_iff s).mpr ?_)
    exact (sliceVerdict_ne_crash_iff s).mp ((option_elim_iff _ _).1.mp hcrash s hs)

/-- Malformed metadata, key by key. In a message that is otherwise accepted, a value is
    refused under an id or the source key when it is no text, or a text of other than
    32 hex pairs, and under the provenance key when the codec refuses it. No expiry, no
    list of parents and no signature is ever refused. -/
theorem fromMessage_insert_isErr_iff {t : TheMql} {msg : Message} {canonicalBytes : Bytes}
    (h : Accepted t msg canonicalBytes) {key : String} (hkey : key ∈ evidenceKeys) (v : Value)
    (original : SubjectId) :
    (∃ err, fromMessage t { msg with extensions := msg.extensions.insert key v } original =
        .err err) ↔
      (key ∈ [evidenceIdKey, observationIdKey, sourceIdKey] ∧ Sliceable (v.asStr.getD "") ∧
          (hexPairs (v.asStr.getD "")).length ≠ 32) ∨
        (key = provenanceKey ∧ ∃ err, t.provenanceFromValue v = .error err) := by
  rw [← Outcome.verdict_eq_fail_iff, verdict_fromMessage, messageVerdict_insert h hkey]
  have hcases : key ∈ [evidenceIdKey, observationIdKey, sourceIdKey] ∨ key = provenanceKey ∨
      key ∈ [expiresAtKey, parentIdsKey, signatureKey] := by
    simp only [evidenceKeys, List.mem_cons, List.not_mem_nil, or_false] at hkey ⊢
    tauto
  rcases hcases with hhex | rfl | hnever
  · have hverdict : keyVerdict t key v = hexVerdict (v.asStr.getD "") := by
      simp only [List.mem_cons, List.not_mem_nil, or_false] at hhex
      rcases hhex with rfl | rfl | rfl <;>
        simp (disch := decide) only [keyVerdict, if_neg]
    have hne : key ≠ provenanceKey := by
      rintro rfl
      exact absurd hhex (by decide)
    rw [hverdict, hexVerdict_eq_fail_iff, and_iff_right hhex, or_iff_left fun h => hne h.1]
  · rw [or_iff_right fun h => absurd h.1 (by decide), and_iff_right rfl, ← okVerdict_eq_fail_iff]
    rfl
  · refine iff_of_false (keyVerdict_ne_fail t hnever v) ?_
    intro h
    rcases h with ⟨hhex, _⟩ | ⟨rfl, _⟩
    · simp only [List.mem_cons, List.not_mem_nil, or_false] at hhex
      rcases hhex with rfl | rfl | rfl <;> exact absurd hnever (by decide)
    · exact absurd hnever (by decide)

/-- Malformed metadata is refused exactly when there is none, or when reading
    does not panic and one of its checks does not pass. -/
theorem explicitFailure_iff (t : TheMql) (msg : Message) (original : SubjectId) :
    ExplicitFailure t msg original ↔
      AllWritten t msg ∨
        (SafeSlices t msg ∧ ¬ ∃ canonicalBytes, Accepted t msg canonicalBytes) := by
  rw [ExplicitFailure, fromMessage_isErr_iff]
  have hmalformed : (∃ key ∈ evidenceKeys, ∃ v, msg.extensions[key]? = some v ∧
      ¬ Written t key v) ↔ ¬ AllWritten t msg := by
    unfold AllWritten
    push Not
    rfl
  rw [hmalformed, ← or_iff_not_imp_left]

end Mql

end Seven
