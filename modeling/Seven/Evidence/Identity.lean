import Seven.Core.State

/-!
# Evidence

Evidence identity, provenance and authentication. Integrity is the blake3 hash
over the canonical bytes, authentication is an ed25519 signature over
`evidence_id ++ payload`, and provenance is a chain of hops that neither of the
two looks at.

Hash and signature scheme are established crates, so they enter as the
parameter `Crypto`. Nothing is assumed of it here; what a result needs of
hashing or signing is a hypothesis of that result.

`verify` reads four of the eleven fields: the payload, the evidence id, the
source id and the signature. `verify_congr` is that fact, and everything about
forwarding and transport rests on it. The observation id, on which duplicates
are recognised downstream, is not among the four.

## Main definitions

* `Crypto`: The hash function and the signature scheme.
* `Evidence`: The evidence record.
* `originate`: Minting origin evidence.
* `forward`, `forwards`: One hop and a chain of hops.
* `signingPreimage`: The bytes the signature signs.
* `verify`: Integrity, then authentication.
* `isStale`: Freshness.
* `Originated`: Evidence that was minted.

## Theorems

* `signingPreimage_inj`: The preimage determines the evidence id and payload.
* `verify_eq_ok_iff`: What a verified evidence satisfies.
* `verify_congr`: Verification reads four fields.
* `forwards_eq`: A chain of forwards changes the provenance and receipt time.
* `originate_eq`: What originating returns.
* `verify_originate`: Origin evidence verifies.
* `Originated.observationId`, `Originated.state`: What it says of its payload.
-/

namespace Seven

/-- A `[u8; 32]`. -/
abbrev Bytes32 := Vector UInt8 32

/-- An ed25519 secret key. -/
abbrev SigningKey := Bytes32

/-- The hash function and the signature scheme. -/
structure Crypto where
  blake3 : Bytes → Bytes32
  verifyingKey : SigningKey → Bytes32
  sign : SigningKey → Bytes → Vector UInt8 64
  /-- `VerifyingKey::from_bytes` accepts these bytes. -/
  validKey : Bytes32 → Bool
  /-- `VerifyingKey::verify` accepts this signature on this message. -/
  verifies : Bytes32 → Bytes → Vector UInt8 64 → Bool

/-- What a signer makes, the verifier accepts. -/
structure Crypto.Correct (c : Crypto) : Prop where
  validKey_verifyingKey : ∀ source, c.validKey (c.verifyingKey source) = true
  verifies_sign : ∀ source m, c.verifies (c.verifyingKey source) m (c.sign source m) = true

inductive EvidenceError where
  | canonical (e : CanonicalError)
  | invalidSignature
  | signatureIdentityMismatch
  | stale (nowNanos expiresAt : Int64)
  deriving DecidableEq

/-- Deterministic evidence identity: the hash of the canonical bytes. -/
structure EvidenceId where
  bytes : Bytes32
  deriving DecidableEq

/-- Groups duplicates of the same underlying physical observation. -/
structure ObservationId where
  bytes : Bytes32
  deriving DecidableEq

/-- An ed25519 verifying key as a source identity. -/
structure SourceId where
  bytes : Bytes32
  deriving DecidableEq

/-- One hop in the custody chain. -/
structure ProvenanceHop where
  node : NodeId
  receivedAtNanos : Int64
  deriving DecidableEq

/-- Explicit provenance chain, appended and never mutated. -/
structure Provenance where
  hops : List ProvenanceHop
  deriving DecidableEq

namespace Provenance

def new : Provenance := ⟨[]⟩

/-- Append a hop; returns a new chain. -/
def extended (p : Provenance) (node : NodeId) (receivedAtNanos : Int64) : Provenance :=
  ⟨p.hops ++ [⟨node, receivedAtNanos⟩]⟩

end Provenance

structure Evidence where
  evidenceId : EvidenceId
  observationId : ObservationId
  sourceId : SourceId
  subject : SubjectId
  observedAtNanos : Int64
  receivedAtNanos : Int64
  expiresAtNanos : Int64
  payload : Bytes
  provenance : Provenance
  parentEvidenceIds : List EvidenceId
  signature : Option Bytes
  deriving DecidableEq

/-- `EvidenceId::of`. -/
def EvidenceId.ofState (c : Crypto) (state : CanonicalState) : Except EvidenceError EvidenceId :=
  match state.canonicalBytes with
  | .ok bytes => .ok ⟨c.blake3 bytes⟩
  | .error e => .error (.canonical e)

/-- `Signature::from_slice`: any 64 bytes. -/
def signatureFromSlice (bs : Bytes) : Option (Vector UInt8 64) :=
  if h : bs.toArray.size = 64 then some ⟨bs.toArray, h⟩ else none

namespace Evidence

/-- The domain separator of the signing preimage. -/
def signingDomain : Bytes :=
  "seven/evidence/v1".toList.map fun ch => UInt8.ofNat ch.toNat

/-- The bytes the signature signs: the evidence id and the payload. -/
def signingPreimage (e : Evidence) : Bytes :=
  signingDomain ++ e.evidenceId.bytes.toList ++ e.payload

/-- Mint origin evidence. -/
def originate (c : Crypto) (source : SigningKey) (subject : SubjectId) (state : CanonicalState)
    (receivedAtNanos expiresAtNanos : Int64) : Except EvidenceError Evidence :=
  match state.canonicalBytes with
  | .error e => .error (.canonical e)
  | .ok payload =>
      match EvidenceId.ofState c state with
      | .error e => .error e
      | .ok evidenceId =>
          let this : Evidence :=
            { evidenceId
              observationId := ⟨c.blake3 payload⟩
              sourceId := ⟨c.verifyingKey source⟩
              subject
              observedAtNanos := state.observedAtNanos
              receivedAtNanos
              expiresAtNanos
              payload
              provenance := .new
              parentEvidenceIds := []
              signature := none }
          let sig := c.sign source this.signingPreimage
          .ok { this with signature := some sig.toList }

/-- Forward existing evidence through a node: identity fields are copied, only
    the provenance and the receipt time advance. -/
def forward (e : Evidence) (node : NodeId) (receivedAtNanos : Int64) : Evidence :=
  { e with
    receivedAtNanos
    provenance := e.provenance.extended node receivedAtNanos }

/-- A chain of forwards, first hop first. -/
def forwards (e : Evidence) (hops : List ProvenanceHop) : Evidence :=
  hops.foldl (fun e hop => e.forward hop.node hop.receivedAtNanos) e

/-- Integrity first: the stored id must equal the payload's hash. Then the
    signature, as a whole, under the source's key. -/
def verify (c : Crypto) (e : Evidence) : Except EvidenceError Unit :=
  let computed : EvidenceId := ⟨c.blake3 e.payload⟩
  if computed ≠ e.evidenceId then .error .signatureIdentityMismatch
  else
    match e.signature with
    | none => .error .invalidSignature
    | some sigBytes =>
        match signatureFromSlice sigBytes with
        | none => .error .invalidSignature
        | some sig =>
            if !c.validKey e.sourceId.bytes then .error .invalidSignature
            else if c.verifies e.sourceId.bytes e.signingPreimage sig then .ok ()
            else .error .invalidSignature

/-- A valid signature never implies fresh. -/
def isStale (e : Evidence) (nowNanos : Int64) : Bool :=
  decide (e.expiresAtNanos ≤ nowNanos)

/-- The preimage determines the evidence id and the payload: the id has a fixed
    length, so there is one way to cut the bytes. -/
theorem signingPreimage_inj {e e' : Evidence} (h : e.signingPreimage = e'.signingPreimage) :
    e.evidenceId = e'.evidenceId ∧ e.payload = e'.payload := by
  unfold signingPreimage at h
  rw [List.append_assoc, List.append_assoc, List.append_cancel_left_eq] at h
  -- Both ids have 32 bytes, so the payloads start at one offset.
  rcases List.append_inj h (by rw [Vector.length_toList, Vector.length_toList]) with ⟨hid, hp⟩
  rw [Vector.toList_inj] at hid
  refine ⟨?_, hp⟩
  cases e
  cases e'
  exact congrArg EvidenceId.mk hid

theorem signatureFromSlice_toList (sig : Vector UInt8 64) :
    signatureFromSlice sig.toList = some sig := by
  unfold signatureFromSlice
  rw [dif_pos (by rw [List.size_toArray, Vector.length_toList])]
  rfl

theorem signatureFromSlice_eq_some {bs : Bytes} {sig : Vector UInt8 64}
    (h : signatureFromSlice bs = some sig) : bs = sig.toList := by
  unfold signatureFromSlice at h
  split at h
  · rw [Option.some.injEq] at h
    rw [← h]
    rfl
  · exact absurd h (by simp only [reduceCtorEq, not_false_eq_true])

theorem verify_eq_ok_iff (c : Crypto) (e : Evidence) :
    e.verify c = .ok () ↔
      e.evidenceId = ⟨c.blake3 e.payload⟩ ∧
        ∃ sig : Vector UInt8 64, e.signature = some sig.toList ∧
          c.validKey e.sourceId.bytes = true ∧
          c.verifies e.sourceId.bytes e.signingPreimage sig = true := by
  unfold verify
  by_cases hid : (⟨c.blake3 e.payload⟩ : EvidenceId) = e.evidenceId
  · simp only [ne_eq, hid, not_true_eq_false, if_false, true_and]
    cases hsig : e.signature with
    | none => simp only [reduceCtorEq, false_and, exists_false]
    | some bs =>
        cases hslice : signatureFromSlice bs with
        | none =>
            simp only [hslice, reduceCtorEq, Option.some.injEq, false_iff, not_exists, not_and]
            intro sig hbs
            rw [hbs, signatureFromSlice_toList] at hslice
            exact absurd hslice (by simp only [reduceCtorEq, not_false_eq_true])
        | some sig =>
            have hbs := signatureFromSlice_eq_some hslice
            -- 64 bytes are one signature only.
            have hone : ∀ sig' : Vector UInt8 64, bs = sig'.toList ↔ sig' = sig := by
              intro sig'
              rw [hbs, Vector.toList_inj, eq_comm]
            simp only [hslice, Option.some.injEq, hone, exists_eq_left]
            cases c.validKey e.sourceId.bytes <;>
              cases c.verifies e.sourceId.bytes e.signingPreimage sig <;>
              simp only [Bool.not_true, Bool.not_false, if_true, if_false, reduceCtorEq,
                Bool.false_eq_true, false_and, and_false, and_self]
  · simp only [ne_eq, hid, not_false_eq_true, if_true, reduceCtorEq, false_iff, not_and]
    exact fun h => absurd h.symm hid

/-- Verification reads the evidence id, the payload, the source id and the
    signature. -/
theorem verify_congr (c : Crypto) {e e' : Evidence} (hid : e'.evidenceId = e.evidenceId)
    (hp : e'.payload = e.payload) (hs : e'.sourceId = e.sourceId)
    (hsig : e'.signature = e.signature) : e'.verify c = e.verify c := by
  unfold verify signingPreimage
  rw [hid, hp, hs, hsig]

/-- A chain of forwards appends its hops and moves the receipt time; every other
    field is copied. -/
theorem forwards_eq (e : Evidence) (hops : List ProvenanceHop) :
    e.forwards hops =
      { e with
        receivedAtNanos := (hops.getLast?.map ProvenanceHop.receivedAtNanos).getD e.receivedAtNanos
        provenance := ⟨e.provenance.hops ++ hops⟩ } := by
  induction hops generalizing e with
  | nil => simp only [forwards, List.foldl_nil, List.getLast?_nil, Option.map_none,
      Option.getD_none, List.append_nil]
  | cons hop hops ih =>
      have hrec := ih (e.forward hop.node hop.receivedAtNanos)
      simp only [forwards, List.foldl_cons] at hrec ⊢
      rw [hrec]
      simp only [forward, Provenance.extended, List.append_assoc, List.singleton_append,
        mk.injEq, true_and, and_true]
      -- The receipt time is the last hop's.
      cases hops with
      | nil => simp only [List.getLast?_nil, Option.map_none, Option.getD_none,
          List.getLast?_singleton, Option.map_some, Option.getD_some]
      | cons hop' hops => simp only [List.getLast?_cons, Option.map_some, Option.getD_some]

theorem verify_forwards (c : Crypto) (e : Evidence) (hops : List ProvenanceHop) :
    (e.forwards hops).verify c = e.verify c := by
  rw [forwards_eq]
  exact verify_congr c rfl rfl rfl rfl

/-- The origin evidence of a state, before it is signed. -/
def unsigned (c : Crypto) (source : SigningKey) (subject : SubjectId) (state : CanonicalState)
    (receivedAtNanos expiresAtNanos : Int64) : Evidence :=
  { evidenceId := ⟨c.blake3 (Postcard.writeI64s state.fields.toList)⟩
    observationId := ⟨c.blake3 (Postcard.writeI64s state.fields.toList)⟩
    sourceId := ⟨c.verifyingKey source⟩
    subject
    observedAtNanos := state.observedAtNanos
    receivedAtNanos
    expiresAtNanos
    payload := Postcard.writeI64s state.fields.toList
    provenance := .new
    parentEvidenceIds := []
    signature := none }

/-- Originating never fails, and returns the signed record. -/
theorem originate_eq (c : Crypto) (source : SigningKey) (subject : SubjectId)
    (state : CanonicalState) (receivedAtNanos expiresAtNanos : Int64) :
    originate c source subject state receivedAtNanos expiresAtNanos =
      .ok { unsigned c source subject state receivedAtNanos expiresAtNanos with
        signature := some (c.sign source
          (unsigned c source subject state receivedAtNanos expiresAtNanos).signingPreimage).toList }
      :=
  rfl

/-- Origin evidence verifies when signatures do. -/
theorem verify_originate (c : Crypto) (hc : c.Correct) (source : SigningKey)
    (subject : SubjectId) (state : CanonicalState) (receivedAtNanos expiresAtNanos : Int64)
    (e : Evidence)
    (he : originate c source subject state receivedAtNanos expiresAtNanos = .ok e) :
    e.verify c = .ok () := by
  rw [originate_eq, Except.ok.injEq] at he
  rw [← he, verify_eq_ok_iff]
  exact ⟨rfl, _, rfl, hc.validKey_verifyingKey source, hc.verifies_sign source _⟩

/-- The evidence was minted by some source. -/
def Originated (c : Crypto) (e : Evidence) : Prop :=
  ∃ source subject state receivedAtNanos expiresAtNanos,
    originate c source subject state receivedAtNanos expiresAtNanos = .ok e

theorem Originated.verify {c : Crypto} (hc : c.Correct) {e : Evidence} (h : e.Originated c) :
    e.verify c = .ok () := by
  rcases h with ⟨source, subject, state, receivedAtNanos, expiresAtNanos, h⟩
  exact verify_originate c hc source subject state receivedAtNanos expiresAtNanos e h

theorem Originated.eq_signed {c : Crypto} {e : Evidence} (h : e.Originated c) :
    ∃ source subject state receivedAtNanos expiresAtNanos signature,
      e = { unsigned c source subject state receivedAtNanos expiresAtNanos with signature } := by
  rcases h with ⟨source, subject, state, receivedAtNanos, expiresAtNanos, h⟩
  rw [originate_eq, Except.ok.injEq] at h
  exact ⟨source, subject, state, receivedAtNanos, expiresAtNanos, _, h.symm⟩

/-- Origin evidence carries the hash of its payload as its observation id. -/
theorem Originated.observationId {c : Crypto} {e : Evidence} (h : e.Originated c) :
    e.observationId = ⟨c.blake3 e.payload⟩ := by
  rcases h.eq_signed with ⟨_, _, _, _, _, _, rfl⟩
  rfl

/-- Origin evidence has not been forwarded. -/
theorem Originated.hops {c : Crypto} {e : Evidence} (h : e.Originated c) :
    e.provenance.hops = [] := by
  rcases h.eq_signed with ⟨_, _, _, _, _, _, rfl⟩
  rfl

/-- The payload of origin evidence decodes to its state. -/
theorem Originated.state {c : Crypto} {e : Evidence} (h : e.Originated c) :
    ∃ state, CanonicalState.fromCanonicalBytes e.payload = .ok state ∧
      state.observedAtNanos = e.observedAtNanos := by
  rcases h.eq_signed with ⟨_, _, state, _, _, _, rfl⟩
  exact ⟨state, CanonicalState.fromCanonicalBytes_writeI64s state, rfl⟩

end Evidence

end Seven
