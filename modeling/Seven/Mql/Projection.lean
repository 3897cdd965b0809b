import Seven.Mql.Message

/-!
# The Projection Round Trip

An evidence that was projected onto a message is recovered from it, up to the
receipt time, which the receiver stamps. Eleven fields travel by different
carriers: three ids and the parents as hex strings, the chain and the expiry as
JSON values, the signature as a hex string that is there or not, the subject as
a path segment, the observation time inside the payload.

`extensionsOf_getElem?` is what the writer put under every key and each reader
is checked against it once. The subject needs more: the segments a path is cut
into are the ones it was joined from, because a segment with a dot in it is
refused on the way out.

## Main definitions

* `verbatim`: theMQL as an implementation that keeps subjects as they are and
  the JSON codec that is derived for the provenance.

## Theorems

* `splitDots_subjectText`: A subject path is cut where it was joined.
* `extensionsOf_getElem?`: What was written under every key.
* `toMessage_eq_ok`: What a projected message is.
* `fromMessage_of_toMessage`, `projection_roundtrip`: Reading a projected
  message.
* `verbatim_faithful`: The parameter can be instantiated.
-/

namespace Seven

namespace Mql

theorem mapError_eq_ok {ε ε' α : Type} {x : Except ε α} {f : ε → ε'} {a : α}
    (h : x.mapError f = .ok a) : x = .ok a := by
  cases x with
  | ok b =>
      have hba : b = a := Except.ok.inj h
      rw [hba]
  | error e => exact absurd h (by simp only [Except.mapError, reduceCtorEq, not_false_eq_true])

/-- A subject path is cut where it was joined. -/
theorem splitDots_subjectText {subjectId domain : String} (hid : '.' ∉ subjectId.toList)
    (hdomain : '.' ∉ domain.toList) :
    splitDots (subjectText subjectId domain) = ["seven", domain, subjectId, "evidence"] := by
  have htext : (subjectText subjectId domain).toList =
      ['.'].intercalate ["seven".toList, domain.toList, subjectId.toList, "evidence".toList] := by
    simp only [subjectText, String.toList_append, List.intercalate, List.intersperse,
      List.flatten_cons, List.flatten_nil, List.append_nil, List.append_assoc]
    rfl
  -- No part has a dot in it, so the splits are where the joins were.
  have hparts : ∀ l ∈ ["seven".toList, domain.toList, subjectId.toList, "evidence".toList],
      '.' ∉ l := by
    simp only [List.forall_mem_cons, List.not_mem_nil, false_imp_iff, implies_true, and_true]
    exact ⟨by decide, hdomain, hid, by decide⟩
  rw [splitDots, htext, List.splitOn_intercalate '.' hparts (List.cons_ne_nil _ _)]
  simp only [List.map_cons, List.map_nil, String.ofList_toList]

/-- A segment that passes has no dot in it. -/
theorem notMem_of_checkSegment {t : TheMql} {name v : String} {u : Unit}
    (h : checkSegment t name v = .ok u) : '.' ∉ v.toList := by
  unfold checkSegment at h
  split at h
  · exact absurd h (by simp only [reduceCtorEq, not_false_eq_true])
  · rename_i hv
    exact fun hdot => hv (Or.inr hdot)

/-- What was written under every key. -/
theorem extensionsOf_getElem? (e : Evidence) (provenance : Value) :
    let ext := extensionsOf e provenance
    ext[evidenceIdKey]? = some (.string (hex e.evidenceId.bytes)) ∧
      ext[observationIdKey]? = some (.string (hex e.observationId.bytes)) ∧
      ext[sourceIdKey]? = some (.string (hex e.sourceId.bytes)) ∧
      ext[provenanceKey]? = some provenance ∧
      ext[expiresAtKey]? = some (.number (.ofI64 e.expiresAtNanos)) ∧
      ext[parentIdsKey]? =
        some (.array (e.parentEvidenceIds.map fun id => .string (hex id.bytes))) ∧
      ext[signatureKey]? = e.signature.map fun sig => .string (hexSlice sig) := by
  intro ext
  cases hsig : e.signature with
  | none =>
      simp only [ext, extensionsOf, hsig, Std.ExtTreeMap.getElem?_insert, Std.compare_eq_iff_eq,
        evidenceIdKey, observationIdKey, sourceIdKey, provenanceKey, expiresAtKey, parentIdsKey,
        signatureKey, String.reduceEq, if_true, if_false, Std.ExtTreeMap.getElem?_empty,
        Option.map_none, and_self]
  | some sig =>
      simp only [ext, extensionsOf, hsig, Std.ExtTreeMap.getElem?_insert, Std.compare_eq_iff_eq,
        evidenceIdKey, observationIdKey, sourceIdKey, provenanceKey, expiresAtKey, parentIdsKey,
        signatureKey, String.reduceEq, if_true, if_false, Option.map_some, and_self]

/-- What a projected message is. -/
theorem toMessage_eq_ok {t : TheMql} (ht : t.Faithful) {e : Evidence} {domain : String}
    {m : Message} (h : toMessage t e domain = .ok m) :
    m.payload = .bytes e.payload .postcard ∧
      m.subject.segments = ["seven", domain, e.subject.name, "evidence"] ∧
      ∃ provenance, t.provenanceToValue e.provenance = .ok provenance ∧
        m.extensions = extensionsOf e provenance := by
  simp only [toMessage, evidenceSubjectInner, Outcome.except_bind_eq_ok] at h
  rcases h with ⟨provenance, hprov, subject, ⟨_, hdomain, _, hid, hsub⟩, subject', hnew, hm⟩
  have hfrom := ht.fromStr_verbatim _ _ (mapError_eq_ok hsub)
  have hagain := ht.newMessage_fromStr _ _ (mapError_eq_ok hnew)
  rw [hfrom.1] at hagain
  -- The message's own subject was parsed from the same text.
  have hsegs := (ht.fromStr_verbatim _ _ hagain).2
  rw [splitDots_subjectText (notMem_of_checkSegment hid) (notMem_of_checkSegment hdomain)] at hsegs
  rw [← Except.ok.inj hm]
  exact ⟨rfl, hsegs, provenance, mapError_eq_ok hprov, rfl⟩

theorem textAt_of_getElem? {ext : Std.ExtTreeMap String Value} {key s : String}
    (h : ext[key]? = some (Value.string s)) : textAt ext key = s := by
  rw [textAt, h]
  rfl

/-- A written parent list is read back whole. -/
theorem parentIds_written (ids : List EvidenceId) :
    parentIds (ids.map fun id => Value.string (hex id.bytes)) = .ok ids := by
  induction ids with
  | nil => rfl
  | cons id ids ih =>
      rw [List.map_cons, parentIds]
      simp only [Value.asStr, parseHex32_hex, ih, Outcome.ok_bind, Outcome.pure_eq]

/-- Reading a projected message gives the evidence back, with the receipt time
    left to the receiver. -/
theorem fromMessage_of_toMessage {t : TheMql} (ht : t.Faithful) {e : Evidence} {domain : String}
    {m : Message} {state : CanonicalState}
    (hstate : CanonicalState.fromCanonicalBytes e.payload = .ok state)
    (htime : state.observedAtNanos = e.observedAtNanos) (hm : toMessage t e domain = .ok m)
    (original : SubjectId) : fromMessage t m original = .ok { e with receivedAtNanos := 0 } := by
  rcases toMessage_eq_ok ht hm with ⟨hpayload, hsegs, provenance, hto, hext⟩
  have hprov := ht.provenance_roundtrip _ _ hto
  rcases extensionsOf_getElem? e provenance with ⟨hid, hobs, hsrc, hchain, hexp, hpar, hsig⟩
  rw [← hext] at hid hobs hsrc hchain hexp hpar hsig
  -- Every reader finds what the writer put under its key.
  have hsource : sourceBytes m.extensions = .ok e.sourceId.bytes := by
    rw [sourceBytes, hsrc]
    exact parseHex32_hex _
  have hsignature : signatureBytes m.extensions = .ok e.signature := by
    rw [signatureBytes, hsig]
    cases e.signature with
    | none => rfl
    | some sig =>
        simp only [Option.map_some, Option.bind_some, Value.asStr, hexBytes_hexSlice,
          Outcome.orPanic, Outcome.ok_bind, Outcome.pure_eq]
  have hsubject : subjectOf t m.subject = .ok e.subject := by
    have hpath : isEvidencePath ["seven", domain, e.subject.name, "evidence"] = true := rfl
    rw [subjectOf, hsegs, if_pos hpath]
    rfl
  have hexpires : (Number.ofI64 e.expiresAtNanos).asI64 = some e.expiresAtNanos :=
    (asI64_eq_some_iff _ _).mpr rfl
  unfold fromMessage
  simp only [hpayload, textAt_of_getElem? hid, textAt_of_getElem? hobs, parseHex32_hex, hchain,
    Option.getD_some, hprov, hpar, Option.bind_some, Value.asArray, parentIds_written, hstate,
    hsource, hsignature, hsubject, hexp, Value.asI64, hexpires, htime, Except.mapError,
    Outcome.ofExcept, Outcome.ok_bind, Outcome.pure_eq]

/-- A projected message is read back, and what is read verifies as before. -/
theorem projection_roundtrip (c : Crypto) (t : TheMql) (ht : t.Faithful) (e : Evidence)
    (domain : String) (m : Message) (original : SubjectId) (state : CanonicalState)
    (hstate : CanonicalState.fromCanonicalBytes e.payload = .ok state)
    (htime : state.observedAtNanos = e.observedAtNanos) (hm : toMessage t e domain = .ok m) :
    ∃ e', fromMessage t m original = .ok e' ∧ e' = { e with receivedAtNanos := 0 } ∧
      e'.verify c = e.verify c := by
  have hread := fromMessage_of_toMessage ht hstate htime hm original
  exact ⟨_, hread, rfl, Evidence.verify_congr c rfl rfl rfl rfl⟩

/-- The derived JSON of a hop. -/
def hopToValue (hop : ProvenanceHop) : Value :=
  .object [("node", .string hop.node.name),
    ("received_at_nanos", .number (.ofI64 hop.receivedAtNanos))]

def hopFromValue : Value → Except String ProvenanceHop
  | .object fields =>
      match (fields.lookup "node").bind Value.asStr,
        (fields.lookup "received_at_nanos").bind Value.asI64 with
      | some node, some receivedAtNanos => .ok ⟨⟨node⟩, receivedAtNanos⟩
      | _, _ => .error "invalid hop"
  | _ => .error "invalid type, expected struct ProvenanceHop"

/-- theMQL as an implementation that keeps subjects as they are, with the JSON
    codec that is derived for the provenance. -/
def verbatim : TheMql where
  fromStr s := .ok ⟨s, splitDots s⟩
  newMessage s := .ok ⟨s, splitDots s⟩
  provenanceToValue p := .ok (.object [("hops", .array (p.hops.map hopToValue))])
  provenanceFromValue
    | .object fields =>
        match (fields.lookup "hops").bind Value.asArray with
        | some hops => (hops.mapM hopFromValue).map Provenance.mk
        | none => .error "invalid hops"
    | _ => .error "invalid type, expected struct Provenance"
  debug := String.quote

theorem hopFromValue_hopToValue (hop : ProvenanceHop) :
    hopFromValue (hopToValue hop) = .ok hop := by
  have hasI64 : (Number.ofI64 hop.receivedAtNanos).asI64 = some hop.receivedAtNanos :=
    (asI64_eq_some_iff _ _).mpr rfl
  have hnode : ([("node", Value.string hop.node.name),
      ("received_at_nanos", .number (.ofI64 hop.receivedAtNanos))].lookup "node").bind Value.asStr =
      some hop.node.name := rfl
  have htime : ([("node", Value.string hop.node.name),
      ("received_at_nanos", .number (.ofI64 hop.receivedAtNanos))].lookup
        "received_at_nanos").bind Value.asI64 = some hop.receivedAtNanos := hasI64
  simp only [hopToValue, hopFromValue, hnode, htime]

theorem verbatim_faithful : verbatim.Faithful where
  fromStr_verbatim s subject h := by
    rw [← Except.ok.inj h]
    exact ⟨rfl, rfl⟩
  newMessage_fromStr s subject h := h
  provenance_roundtrip p v h := by
    have hhops : ∀ hops : List ProvenanceHop,
        (hops.map hopToValue).mapM hopFromValue = Except.ok hops := by
      intro hops
      induction hops with
      | nil => rfl
      | cons hop hops ih =>
          rw [List.map_cons, List.mapM_cons, hopFromValue_hopToValue, ih]
          rfl
    rw [← Except.ok.inj h]
    change ((p.hops.map hopToValue).mapM hopFromValue).map Provenance.mk = .ok p
    rw [hhops]
    rfl

theorem checkSegment_eq_ok {t : TheMql} {name v : String} (hne : v ≠ "") (hdot : '.' ∉ v.toList) :
    checkSegment t name v = .ok () :=
  if_neg fun h => h.elim hne hdot

/-- The verbatim implementation takes every evidence with single segments. -/
theorem toMessage_verbatim (e : Evidence) (domain : String) (hne : domain ≠ "")
    (hdot : '.' ∉ domain.toList) (hsne : e.subject.name ≠ "")
    (hsdot : '.' ∉ e.subject.name.toList) : ∃ m, toMessage verbatim e domain = .ok m := by
  unfold toMessage evidenceSubjectInner
  rw [checkSegment_eq_ok hne hdot, checkSegment_eq_ok hsne hsdot]
  exact ⟨_, rfl⟩

/-- Relayed evidence with a parent and a finite expiry, over the verbatim
    implementation. -/
theorem projection_roundtrip_verbatim :
    let e : Evidence :=
      { (Evidence.minted (Vector.replicate 32 7) ⟨"ac1"⟩ (.atRest 5)).forwards [⟨⟨"relay"⟩, 6⟩] with
        expiresAtNanos := 999999
        parentEvidenceIds := [⟨Vector.replicate 32 1⟩] }
    ∃ m, toMessage verbatim e "aviation" = .ok m ∧
      fromMessage verbatim m ⟨"ac1"⟩ = .ok { e with receivedAtNanos := 0 } := by
  intro e
  have hstate : CanonicalState.fromCanonicalBytes e.payload = .ok (.atRest 5) :=
    CanonicalState.fromCanonicalBytes_writeI64s (.atRest 5)
  rcases toMessage_verbatim e "aviation" (by decide) (by decide) (by decide) (by decide)
    with ⟨m, hm⟩
  rcases projection_roundtrip (Crypto.ledger []) verbatim verbatim_faithful e "aviation" m ⟨"ac1"⟩
    (.atRest 5) hstate rfl hm with ⟨e', hfrom, he', _⟩
  exact ⟨m, hm, by rw [hfrom, he']⟩

end Mql

end Seven
