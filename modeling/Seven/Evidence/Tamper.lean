import Seven.Evidence.Identity

/-!
# Tamper Evidence

What a verified signature pins down. The signature covers the domain separator,
the evidence id and the payload, so a relay that keeps the source id and the
signature can change neither of those two without failing verification. The
subject, the observation id and the observation time are carried beside the
signed bytes and are not bound by it.

Signatures are idealised by what they exclude: `SignsOnly` says that the
signature of one message is accepted for that message alone. It is a statement
about one signature and not about all messages at once. A 64-byte signature
cannot separate infinitely many messages, so the global form would be empty.

`ledger` is the ideal functionality that makes the hypothesis concrete: a
verifier that looks the message up among the ones that were signed.

## Main definitions

* `Crypto.SignsOnly`: A signature is accepted for its own message alone.
* `Crypto.ledger`: The verifier that knows what was signed.
* `Evidence.minted`: Origin evidence under a ledger.

## Theorems

* `ledger_signsOnly`: A ledger is ideal for a key that signed one message.
* `verify_ledger_iff`: What verifies under a ledger.
* `verify_binds_payload`: A signature binds the evidence id and the payload.
* `verify_does_not_bind_attribution`: It binds nothing else of the record.
-/

namespace Seven

namespace Crypto

/-- The signature that `source` makes of `m` is accepted for no other message. -/
def SignsOnly (c : Crypto) (source : SigningKey) (m : Bytes) : Prop :=
  ∀ m', c.verifies (c.verifyingKey source) m' (c.sign source m) = true → m' = m

/-- The first 32 bytes, padded with zeros: no collisions among short strings of
    one length. -/
def prefixHash (bs : Bytes) : Bytes32 :=
  Vector.ofFn fun i => bs.getD i 0

/-- A verifier that accepts exactly the messages on its ledger. -/
def ledger (signed : List (SigningKey × Bytes)) : Crypto where
  blake3 := prefixHash
  verifyingKey source := source
  sign _ _ := Vector.replicate 64 0
  validKey _ := true
  verifies key m sig := decide ((key, m) ∈ signed) && decide (sig = Vector.replicate 64 0)

theorem ledger_verifies_iff (signed : List (SigningKey × Bytes)) (key : Bytes32) (m : Bytes)
    (sig : Vector UInt8 64) :
    (ledger signed).verifies key m sig = true ↔
      (key, m) ∈ signed ∧ sig = Vector.replicate 64 0 := by
  simp only [ledger, Bool.and_eq_true, decide_eq_true_eq]

theorem ledger_signsOnly (signed : List (SigningKey × Bytes)) (source : SigningKey) (m : Bytes)
    (h : ∀ m', (source, m') ∈ signed → m' = m) : (ledger signed).SignsOnly source m :=
  fun m' hv => h m' ((ledger_verifies_iff _ _ _ _).mp hv).1

end Crypto

/-- At rest at the origin, level, observed at time `t`. -/
def CanonicalState.atRest (t : Int64) : CanonicalState :=
  ⟨#v[0, 0, 0], #v[0, 0, 0], ⟨1000000, 0, 0, 0⟩, t⟩

namespace Evidence

/-- Origin evidence as it is minted under any ledger. -/
def minted (source : SigningKey) (subject : SubjectId) (state : CanonicalState) : Evidence :=
  { unsigned (Crypto.ledger []) source subject state 0 0 with
    signature := some (Vector.replicate 64 (0 : UInt8)).toList }

theorem originate_ledger (signed : List (SigningKey × Bytes)) (source : SigningKey)
    (subject : SubjectId) (state : CanonicalState) :
    originate (Crypto.ledger signed) source subject state 0 0 =
      .ok (minted source subject state) := by
  rw [originate_eq]
  rfl

theorem verify_ledger_iff (signed : List (SigningKey × Bytes)) (e : Evidence) :
    e.verify (Crypto.ledger signed) = .ok () ↔
      e.evidenceId = ⟨Crypto.prefixHash e.payload⟩ ∧
        e.signature = some (Vector.replicate 64 (0 : UInt8)).toList ∧
        (e.sourceId.bytes, e.signingPreimage) ∈ signed := by
  rw [verify_eq_ok_iff]
  constructor
  -- The ledger accepts one signature, the zero one.
  · intro h
    rcases h with ⟨hid, sig, hsig, _, hver⟩
    rcases (Crypto.ledger_verifies_iff _ _ _ _).mp hver with ⟨hmem, hzero⟩
    exact ⟨hid, by rw [hsig, hzero], hmem⟩
  · intro h
    rcases h with ⟨hid, hsig, hmem⟩
    exact ⟨hid, _, hsig, rfl, (Crypto.ledger_verifies_iff _ _ _ _).mpr ⟨hmem, rfl⟩⟩

/-- Anything that verifies with an origin's source id and signature carries the
    origin's evidence id and payload, whatever happened to the rest of it on the
    way. -/
theorem verify_binds_payload (c : Crypto) (source : SigningKey) (subject : SubjectId)
    (state : CanonicalState) (receivedAtNanos expiresAtNanos : Int64)
    (origin : Evidence) (hops : List ProvenanceHop) (e' : Evidence)
    (horigin : originate c source subject state receivedAtNanos expiresAtNanos = .ok origin)
    (hideal : c.SignsOnly source origin.signingPreimage)
    (hsource : e'.sourceId = (origin.forwards hops).sourceId)
    (hsig : e'.signature = (origin.forwards hops).signature)
    (hv : e'.verify c = .ok ()) :
    e'.evidenceId = (origin.forwards hops).evidenceId ∧
      e'.payload = (origin.forwards hops).payload := by
  rw [forwards_eq] at hsource hsig ⊢
  rcases (verify_eq_ok_iff c e').mp hv with ⟨_, sig, hsig', _, hver⟩
  -- The signature is the one the source made of the origin's preimage.
  rw [originate_eq, Except.ok.injEq] at horigin
  have hkey : e'.sourceId.bytes = c.verifyingKey source := by
    rw [hsource, ← horigin]
    rfl
  have hmade : sig = c.sign source origin.signingPreimage := by
    rw [hsig] at hsig'
    rw [← horigin, Option.some.injEq, Vector.toList_inj] at hsig'
    rw [← hsig', ← horigin]
    rfl
  rw [hkey, hmade] at hver
  -- So the copy's preimage is the origin's, and it determines the two fields.
  exact signingPreimage_inj (hideal _ hver)

/-- The hypotheses are met by evidence on a ledger and a relayed copy of it. -/
theorem verify_binds_payload_relayed :
    let origin := minted (Vector.replicate 32 7) ⟨"ac"⟩ (.atRest 5)
    let copy := origin.forwards [⟨⟨"relay"⟩, 6⟩]
    copy.evidenceId = origin.evidenceId ∧ copy.payload = origin.payload := by
  intro origin copy
  have hverify : copy.verify (Crypto.ledger [(origin.sourceId.bytes, origin.signingPreimage)])
      = .ok () :=
    (verify_ledger_iff _ copy).mpr ⟨rfl, rfl, List.mem_singleton_self _⟩
  exact verify_binds_payload _ (Vector.replicate 32 7) ⟨"ac"⟩ (.atRest 5) 0 0 origin [] copy
    (originate_ledger _ _ _ _)
    (Crypto.ledger_signsOnly _ _ _ fun m' hm => congrArg Prod.snd (List.mem_singleton.mp hm))
    rfl rfl hverify

/-- The rest of the record is not bound: with the same source id and signature,
    a copy re-attributed to another subject, with a fresh observation id and
    another observation time, still verifies. -/
theorem verify_does_not_bind_attribution :
    ∃ (c : Crypto) (source : SigningKey) (origin e' : Evidence),
      originate c source ⟨"ac"⟩ (.atRest 5) 0 0 = .ok origin ∧
        c.SignsOnly source origin.signingPreimage ∧
        (c.blake3 e'.payload = c.blake3 origin.payload → e'.payload = origin.payload) ∧
        e'.sourceId = (origin.forwards []).sourceId ∧
        e'.signature = (origin.forwards []).signature ∧ e'.verify c = .ok () ∧
        e'.observationId ≠ (origin.forwards []).observationId ∧
        e'.subject ≠ (origin.forwards []).subject ∧
        e'.observedAtNanos ≠ (origin.forwards []).observedAtNanos := by
  let origin := minted (Vector.replicate 32 7) ⟨"ac"⟩ (.atRest 5)
  let c := Crypto.ledger [(origin.sourceId.bytes, origin.signingPreimage)]
  let e' : Evidence :=
    { origin with
      observationId := ⟨Vector.replicate 32 1⟩
      subject := ⟨"other"⟩
      observedAtNanos := 9 }
  refine ⟨c, Vector.replicate 32 7, origin, e', originate_ledger _ _ _ _,
    Crypto.ledger_signsOnly _ _ _ fun m' hm => congrArg Prod.snd (List.mem_singleton.mp hm),
    fun _ => rfl, rfl, rfl, ?_, by decide, by decide, by decide⟩
  exact (verify_ledger_iff _ e').mpr ⟨rfl, rfl, List.mem_singleton_self _⟩

end Evidence

end Seven
