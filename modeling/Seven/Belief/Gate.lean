import Seven.Belief.Exact
import Mathlib.Data.List.Pairwise

/-!
# The Duplicate Gate

What the gate guarantees over whole runs from a fresh engine, with every field
of every evidence arbitrary.

The gate keys on the observation id, and verification does not: the id is
carried beside the signed bytes. So a relay may change it on the way, and three
properties that honest traffic has hold of a run only under a condition on the
ids in it. A payload is counted once for a subject when its verified copies
introduce one id; fresh evidence is never dropped when a repeated id belongs to
a copy of it; and a failed call leaves the engine as it was unless verified
evidence brings a new id with a payload that does not decode.

Each property is shown equivalent to its condition, and each is refuted by a
short run under a verifier that accepts exactly what was signed and a hash
without collisions among the payloads of the run.

What the gate holds it never gives up. So copies that only were forwarded are
inert, however many hops they took and whatever was called in between.

## Main definitions

* `CollisionFree`: No two payloads of a run have one hash.
* `CountedOnce`, `OneIdPerPayload`: No double counting, and when it holds.
* `NoSuppression`, `RepeatsAreCopies`: No dropped fresh evidence, and when it
  holds.
* `AtomicFailure`: An error leaves the engine unchanged.
* `CopyOf`: A copy with more hops.

## Theorems

* `countedOnce_iff`: When no payload is counted twice.
* `noSuppression_iff`: When no fresh evidence is dropped.
* `atomicFailure_iff`: When a failed call changes nothing.
* `forwards_inert`: Forwarded copies of counted evidence change nothing.
-/

namespace Seven

/-- The hash has no collision among the payloads of a run. -/
def CollisionFree (c : Crypto) (run : List Evidence) : Prop :=
  Set.InjOn c.blake3 {p | ∃ e ∈ run, e.payload = p}

theorem CollisionFree.mono {c : Crypto} {run run' : List Evidence} (h : CollisionFree c run')
    (hsub : ∀ e ∈ run, e ∈ run') : CollisionFree c run := by
  refine Set.InjOn.mono ?_ h
  rintro p ⟨e, he, hp⟩
  exact ⟨e, hsub e he, hp⟩

theorem CollisionFree.payload_eq {c : Crypto} {run : List Evidence} (h : CollisionFree c run)
    {e e' : Evidence} (he : e ∈ run) (he' : e' ∈ run)
    (hhash : c.blake3 e.payload = c.blake3 e'.payload) : e.payload = e'.payload :=
  h ⟨e, he, rfl⟩ ⟨e', he', rfl⟩ hhash

/-- Payloads with different hashes do not collide. -/
theorem CollisionFree.of_pairwise {c : Crypto} {run : List Evidence}
    (h : run.Pairwise fun e e' => c.blake3 e.payload ≠ c.blake3 e'.payload) :
    CollisionFree c run := by
  have hall : run.Pairwise fun e e' =>
      c.blake3 e.payload = c.blake3 e'.payload → e.payload = e'.payload :=
    h.imp fun hne heq => absurd heq hne
  have hflip : run.Pairwise fun e e' =>
      c.blake3 e'.payload = c.blake3 e.payload → e'.payload = e.payload :=
    h.imp fun hne heq => absurd heq.symm hne
  rintro p ⟨x, hx, rfl⟩ q ⟨y, hy, rfl⟩ hxy
  exact hall.forall_of_forall_of_flip (fun _ _ _ => rfl) hflip hx hy hxy

/-- A copy that differs in the chain and the receipt time at most, its chain the
    original's with these hops after it. -/
structure Evidence.CopyOf (copy e : Evidence) (hops : List ProvenanceHop) : Prop where
  evidenceId : copy.evidenceId = e.evidenceId
  observationId : copy.observationId = e.observationId
  sourceId : copy.sourceId = e.sourceId
  subject : copy.subject = e.subject
  payload : copy.payload = e.payload
  signature : copy.signature = e.signature
  parentEvidenceIds : copy.parentEvidenceIds = e.parentEvidenceIds
  isStale : ∀ nowNanos, copy.isStale nowNanos = e.isStale nowNanos
  hops : copy.provenance.hops = e.provenance.hops ++ hops

theorem Evidence.copyOf_forwards (e : Evidence) (hops : List ProvenanceHop) :
    (e.forwards hops).CopyOf e hops := by
  rw [forwards_eq]
  exact ⟨rfl, rfl, rfl, rfl, rfl, rfl, rfl, fun _ => rfl, rfl⟩

namespace BeliefEngine

/-- The call counted this payload for this subject. -/
def counts (s : SubjectId) (p : Bytes) (call : Evidence × Except BeliefError Bool) : Bool :=
  decide (call.1.subject = s) && decide (call.1.payload = p) && decide (call.2 = .ok true)

/-- For no subject and payload do two calls of the run count. -/
def CountedOnce (F : Type) [F64 F] (c : Crypto) (run : List Evidence) : Prop :=
  ∀ s p, (answers F c run).countP (counts s p) ≤ 1

/-- A payload that decodes introduces at most one observation id for a subject. -/
def OneIdPerPayload (c : Crypto) (run : List Evidence) : Prop :=
  ∀ m n : Fin run.length, m < n →
    Introduces c (run.take m) (run.get m) → Introduces c (run.take n) (run.get n) →
    (run.get m).subject = (run.get n).subject → (run.get m).payload = (run.get n).payload →
    ¬ (run.get m).Decodes

/-- Evidence that verifies and decodes is dropped as a duplicate only when a
    call before it counted its payload for its subject. -/
def NoSuppression (F : Type) [F64 F] (c : Crypto) (run : List Evidence) : Prop :=
  ∀ n : Fin run.length, (run.get n).verify c = .ok () → (run.get n).Decodes →
    answer F c run n = .ok false →
    ∃ m : Fin run.length, m < n ∧ (run.get m).subject = (run.get n).subject ∧
      (run.get m).payload = (run.get n).payload ∧ answer F c run m = .ok true

/-- Where evidence that verifies and decodes repeats an observation id, a copy
    of it before introduced one. -/
def RepeatsAreCopies (c : Crypto) (run : List Evidence) : Prop :=
  ∀ n : Fin run.length, (run.get n).verify c = .ok () → (run.get n).Decodes →
    Carried c (run.take n) (run.get n).subject (run.get n).observationId →
    ∃ m : Fin run.length, m < n ∧ (run.get m).subject = (run.get n).subject ∧
      (run.get m).payload = (run.get n).payload ∧ Introduces c (run.take m) (run.get m)

/-- A call on this evidence that fails leaves the engine as it was. -/
def AtomicFailure {F : Type} [F64 F] (c : Crypto) (eng : BeliefEngine F) (e : Evidence) : Prop :=
  ∀ err, (eng.incorporate c e).2 = .error err → (eng.incorporate c e).1 = eng

variable {F : Type} [F64 F]

theorem counts_eq_true_iff (s : SubjectId) (p : Bytes) (call : Evidence × Except BeliefError Bool) :
    counts s p call = true ↔ call.1.subject = s ∧ call.1.payload = p ∧ call.2 = .ok true := by
  simp only [counts, Bool.and_eq_true, decide_eq_true_eq, and_assoc]

/-- The call at a position counts exactly when its evidence introduces its id
    and decodes. -/
theorem answer_eq_true_iff (c : Crypto) (run : List Evidence) (n : Fin run.length) :
    answer F c run n = .ok true ↔ Introduces c (run.take n) (run.get n) ∧ (run.get n).Decodes :=
  answer_true_iff c (run.take n) (run.get n)

/-- The call at a position is dropped exactly when verified evidence of its
    subject carried its id before. -/
theorem answer_eq_false_iff (c : Crypto) (run : List Evidence) (n : Fin run.length) :
    answer F c run n = .ok false ↔
      (run.get n).verify c = .ok () ∧
        Carried c (run.take n) (run.get n).subject (run.get n).observationId :=
  answer_false_iff c (run.take n) (run.get n)

/-- Counting once, position by position. -/
theorem countedOnce_iff_answer (F : Type) [F64 F] (c : Crypto) (run : List Evidence) :
    CountedOnce F c run ↔
      ∀ m n : Fin run.length, m < n → (run.get m).subject = (run.get n).subject →
        (run.get m).payload = (run.get n).payload → answer F c run m = .ok true →
        ¬ answer F c run n = .ok true := by
  -- Two calls that count share the subject and the payload they count for.
  simp only [CountedOnce, answers, Machine.countP_trace_le_one_iff, counts_eq_true_iff]
  constructor
  · intro h m n hmn hs hp hm hn
    exact h (run.get n).subject (run.get n).payload m n hmn ⟨hs, hp, hm⟩ ⟨rfl, rfl, hn⟩
  · rintro h s p m n hmn ⟨hsm, hpm, hm⟩ ⟨hsn, hpn, hn⟩
    exact h m n hmn (hsm.trans hsn.symm) (hpm.trans hpn.symm) hm hn

/-- No payload is counted twice for a subject exactly when none introduces two
    observation ids for it. -/
theorem countedOnce_iff (F : Type) [F64 F] (c : Crypto) (run : List Evidence) :
    CountedOnce F c run ↔ OneIdPerPayload c run := by
  simp only [countedOnce_iff_answer, answer_eq_true_iff]
  constructor
  · intro h m n hmn hm hn hs hp hd
    -- The second call decodes too, having the first one's payload.
    exact h m n hmn hs hp ⟨hm, hd⟩ ⟨hn, hd.congr hp⟩
  · rintro h m n hmn hs hp ⟨hm, hd⟩ ⟨hn, _⟩
    exact h m n hmn hm hn hs hp hd

/-- Fresh evidence is never dropped exactly when every repeated observation id
    belongs to a copy. -/
theorem noSuppression_iff (F : Type) [F64 F] (c : Crypto) (run : List Evidence) :
    NoSuppression F c run ↔ RepeatsAreCopies c run := by
  simp only [NoSuppression, RepeatsAreCopies, answer_eq_true_iff, answer_eq_false_iff]
  constructor
  · intro h n hv hd hcar
    rcases h n hv hd ⟨hv, hcar⟩ with ⟨m, hmn, hs, hp, hm, _⟩
    exact ⟨m, hmn, hs, hp, hm⟩
  · rintro h n hv hd ⟨_, hcar⟩
    rcases h n hv hd hcar with ⟨m, hmn, hs, hp, hm⟩
    exact ⟨m, hmn, hs, hp, hm, hd.congr hp.symm⟩

omit [F64 F] in
/-- A fresh mark shows in the gate. -/
theorem mark_ne {eng : BeliefEngine F} {e : Evidence} (hid : e.observationId ∉ eng.seen e.subject) :
    eng.mark e ≠ eng := by
  intro heq
  have hmark := seen_mark eng e e.subject
  rw [heq, if_pos rfl] at hmark
  exact hid (hmark ▸ Finset.mem_insert_self _ _)

/-- Verified evidence with a new observation id and a payload that does not
    decode fails and leaves its mark, in any engine. -/
theorem not_atomicFailure_undecodable {c : Crypto} {eng : BeliefEngine F} {e : Evidence}
    (hv : e.verify c = .ok ()) (hid : e.observationId ∉ eng.seen e.subject) (hd : ¬ e.Decodes) :
    ¬ AtomicFailure c eng e := by
  intro h
  -- Of the four ways only the failed decode is left.
  rcases incorporate_cases c eng e with ⟨err, hv', _⟩ | ⟨_, hid', _⟩ | ⟨err, _, _, _, hstep⟩ |
    ⟨state, _, _, hd', _⟩
  · rw [hv] at hv'
    exact absurd hv' (by simp only [reduceCtorEq, not_false_eq_true])
  · exact hid hid'
  · rw [AtomicFailure, hstep] at h
    exact mark_ne hid (h .nonFinite rfl)
  · exact hd ⟨state, hd'⟩

/-- A failed call after any run changes nothing exactly when it is not the case
    that verified evidence brings a new observation id with a payload that does
    not decode. -/
theorem atomicFailure_iff (F : Type) [F64 F] (c : Crypto) (run : List Evidence) (e : Evidence) :
    AtomicFailure c (folded F c run) e ↔ (Introduces c run e → e.Decodes) := by
  rw [introduces_iff (F := F)]
  constructor
  · rintro h ⟨hv, hid⟩
    by_contra hd
    exact not_atomicFailure_undecodable hv hid hd h
  · intro himp err herr
    rcases incorporate_cases c (folded F c run) e with ⟨_, _, h⟩ | ⟨_, _, h⟩ |
      ⟨_, hv, hid, hd, h⟩ | ⟨_, _, _, _, h⟩
    · -- Rejected by verification: nothing was written.
      rw [h]
    · rw [h]
    -- The one branch that writes before it fails is ruled out.
    · rcases himp ⟨hv, hid⟩ with ⟨state, hstate⟩
      rw [hd] at hstate
      exact absurd hstate (by simp only [reduceCtorEq, not_false_eq_true])
    · rw [h] at herr
      exact absurd herr (by simp only [reduceCtorEq, not_false_eq_true])

/-- The gate holds the id of verified evidence ever after. -/
theorem mem_seen_folded_of_verify {c : Crypto} {e : Evidence} (hv : e.verify c = .ok ())
    (run later : List Evidence) :
    e.observationId ∈ (folded F c (run ++ e :: later)).seen e.subject :=
  (mem_seen_folded c _ _ _).mpr ⟨e, List.mem_append_right run List.mem_cons_self, hv, rfl, rfl⟩

/-- Forwarded copies are inert. When a call counted evidence, a copy of it with any
    further hops verifies, says the same in every identity field, and at any later
    point is dropped without a trace. -/
theorem forwards_inert (F : Type) [F64 F] (c : Crypto) (run later : List Evidence) (e : Evidence)
    (hops : List ProvenanceHop) (h : ((folded F c run).incorporate c e).2 = .ok true) :
    (e.forwards hops).verify c = .ok () ∧ (e.forwards hops).CopyOf e hops ∧
      (folded F c (run ++ e :: later)).incorporate c (e.forwards hops) =
        (folded F c (run ++ e :: later), .ok false) := by
  have hv : e.verify c = .ok () := ((answer_true_iff c run e).mp h).1.1
  have hcopy := Evidence.copyOf_forwards e hops
  have hvf : (e.forwards hops).verify c = .ok () := by rw [Evidence.verify_forwards, hv]
  refine ⟨hvf, hcopy, incorporate_of_mem hvf ?_⟩
  rw [hcopy.observationId, hcopy.subject]
  exact mem_seen_folded_of_verify hv run later

/-- The first evidence of a run introduces its id when it verifies. -/
theorem introduces_nil {c : Crypto} {e : Evidence} (hv : e.verify c = .ok ()) :
    Introduces c [] e := by
  refine ⟨hv, ?_⟩
  intro h
  rcases h with ⟨x, hx, _⟩
  exact absurd hx List.not_mem_nil

/-- And so does the second one when its id is another. -/
theorem introduces_singleton {c : Crypto} {e e' : Evidence} (hv : e'.verify c = .ok ())
    (hid : e.observationId ≠ e'.observationId) : Introduces c [e] e' := by
  refine ⟨hv, ?_⟩
  intro h
  rcases h with ⟨x, hx, _, _, hxid⟩
  exact hid (List.mem_singleton.mp hx ▸ hxid)

/-- A copy under a fresh observation id is counted again. -/
theorem not_countedOnce_renamed (F : Type) [F64 F] (c : Crypto) (e : Evidence) (id : ObservationId)
    (hv : e.verify c = .ok ()) (hd : e.Decodes) (hid : e.observationId ≠ id) :
    ¬ CountedOnce F c [e, { e with observationId := id }] := by
  rw [countedOnce_iff_answer]
  intro h
  refine h ⟨0, Nat.zero_lt_two⟩ ⟨1, Nat.one_lt_two⟩ Nat.zero_lt_one rfl rfl ?_ ?_
  · exact (answer_true_iff c [] e).mpr ⟨introduces_nil hv, hd⟩
  -- The gate holds the first id only, and the copy brings the other.
  · refine (answer_true_iff c [e] { e with observationId := id }).mpr ⟨⟨hv, ?_⟩, hd⟩
    intro hexists
    rcases hexists with ⟨x, hx, _, _, hxid⟩
    rw [List.mem_singleton.mp hx] at hxid
    exact hid hxid

/-- Evidence whose observation id was carried by evidence of its subject with
    another payload is dropped. -/
theorem not_noSuppression_forged (F : Type) [F64 F] (c : Crypto) (forged e : Evidence)
    (hforged : forged.verify c = .ok ()) (hv : e.verify c = .ok ()) (hd : e.Decodes)
    (hs : forged.subject = e.subject) (hid : forged.observationId = e.observationId)
    (hp : forged.payload ≠ e.payload) : ¬ NoSuppression F c [forged, e] := by
  intro h
  have hdropped : answer F c [forged, e] ⟨1, Nat.one_lt_two⟩ = .ok false :=
    (answer_false_iff c [forged] e).mpr ⟨hv, forged, List.mem_singleton_self _, hforged, hs, hid⟩
  rcases h ⟨1, Nat.one_lt_two⟩ hv hd hdropped with ⟨⟨m, hm⟩, hlt, _, hpm, _⟩
  -- The only call before it was on the other payload.
  have hzero : m = 0 := Nat.lt_one_iff.mp hlt
  subst hzero
  exact hp hpm

end BeliefEngine

namespace Evidence

/-- The ledger on which the preimages of these evidences stand. -/
def ledgerOf (es : List Evidence) : Crypto :=
  Crypto.ledger (es.map fun e => (e.sourceId.bytes, e.signingPreimage))

theorem verify_ledgerOf {es : List Evidence} {e : Evidence} (hmem : e ∈ es)
    (hid : e.evidenceId = ⟨Crypto.prefixHash e.payload⟩)
    (hsig : e.signature = some (Vector.replicate 64 (0 : UInt8)).toList) :
    e.verify (ledgerOf es) = .ok () :=
  (verify_ledger_iff _ e).mpr ⟨hid, hsig, List.mem_map_of_mem hmem⟩

theorem fromCanonicalBytes_minted (source : SigningKey) (subject : SubjectId)
    (state : CanonicalState) :
    CanonicalState.fromCanonicalBytes (minted source subject state).payload = .ok state :=
  CanonicalState.fromCanonicalBytes_writeI64s state

theorem decodes_minted (source : SigningKey) (subject : SubjectId) (state : CanonicalState) :
    (minted source subject state).Decodes :=
  ⟨state, fromCanonicalBytes_minted source subject state⟩

/-- Minted evidence verifies under a ledger that has it, whatever observation id
    it carries. -/
theorem verify_minted {es : List Evidence} {source : SigningKey} {subject : SubjectId}
    {state : CanonicalState} (id : ObservationId)
    (hmem : { minted source subject state with observationId := id } ∈ es) :
    ({ minted source subject state with observationId := id } : Evidence).verify (ledgerOf es) =
      .ok () :=
  verify_ledgerOf hmem rfl rfl

/-- Signed evidence with nothing in it. -/
def hollow : Evidence :=
  { minted (Vector.replicate 32 7) ⟨"ac"⟩ (.atRest 5) with
    evidenceId := ⟨Crypto.prefixHash []⟩
    observationId := ⟨Crypto.prefixHash []⟩
    payload := [] }

theorem not_decodes_hollow : ¬ hollow.Decodes := by
  intro h
  rcases h with ⟨state, hstate⟩
  have herr : CanonicalState.fromCanonicalBytes hollow.payload =
      .error (.deserialization (Postcard.errorText .unexpectedEnd)) := rfl
  rw [herr] at hstate
  exact absurd hstate (by simp only [reduceCtorEq, not_false_eq_true])

end Evidence

namespace BeliefEngine

/-- Of two signed observations with different ids the second one counts as well. -/
theorem answer_minted_of_ne (F : Type) [F64 F] {source : SigningKey} {subject : SubjectId}
    {state state' : CanonicalState}
    (hid : (Evidence.minted source subject state).observationId ≠
      (Evidence.minted source subject state').observationId) :
    let e := Evidence.minted source subject state
    let e' := Evidence.minted source subject state'
    let c := Evidence.ledgerOf [e, e']
    ((folded F c [e]).incorporate c e').2 = .ok true := by
  intro e e' c
  have hv' : e'.verify c = .ok () :=
    Evidence.verify_minted _ (List.mem_cons_of_mem _ List.mem_cons_self)
  exact (answer_true_iff c [e] e').mpr
    ⟨introduces_singleton hv' hid, Evidence.decodes_minted _ _ _⟩

/-- Two hops, after a call that failed and one on another subject. -/
theorem forwards_inert_relayed :
    let e := Evidence.minted (Vector.replicate 32 7) ⟨"ac"⟩ (.atRest 5)
    let other := Evidence.minted (Vector.replicate 32 7) ⟨"ad"⟩ (.atRest 5)
    let c := Evidence.ledgerOf [e, other]
    let hops : List ProvenanceHop := [⟨⟨"relay"⟩, 6⟩, ⟨⟨"ground"⟩, 7⟩]
    (folded Rat c [e, .hollow, other]).incorporate c (e.forwards hops) =
      (folded Rat c [e, .hollow, other], .ok false) := by
  intro e other c hops
  have hv : e.verify c = .ok () := Evidence.verify_minted _ List.mem_cons_self
  have htrue : ((folded Rat c []).incorporate c e).2 = .ok true :=
    (answer_true_iff c [] e).mpr ⟨introduces_nil hv, Evidence.decodes_minted _ _ _⟩
  exact (forwards_inert Rat c [] [.hollow, other] e hops htrue).2.2

/-- One signed observation, sent again under another observation id, is counted
    twice. -/
theorem not_countedOnce :
    ¬ ∀ (c : Crypto) (run : List Evidence),
      CollisionFree c run → CountedOnce Rat c run := by
  intro h
  let e := Evidence.minted (Vector.replicate 32 7) ⟨"ac"⟩ (.atRest 5)
  let c := Evidence.ledgerOf [e]
  refine not_countedOnce_renamed Rat c e ⟨Vector.replicate 32 1⟩
    (Evidence.verify_minted _ (List.mem_singleton_self _)) (Evidence.decodes_minted _ _ _)
    (by decide) (h c _ ?_)
  -- Both copies carry the one payload.
  have hone : ∀ x ∈ [e, { e with observationId := ⟨Vector.replicate 32 1⟩ }],
      x.payload = e.payload := by
    intro x hx
    simp only [List.mem_cons, List.not_mem_nil, or_false] at hx
    rcases hx with rfl | rfl <;> rfl
  rintro p ⟨x, hx, rfl⟩ q ⟨y, hy, rfl⟩ _
  exact (hone x hx).trans (hone y hy).symm

/-- A signed observation under the observation id of another one makes the other
    one look like a duplicate. -/
theorem not_noSuppression :
    ¬ ∀ (c : Crypto) (run : List Evidence),
      CollisionFree c run → NoSuppression Rat c run := by
  intro h
  let e := Evidence.minted (Vector.replicate 32 7) ⟨"ac"⟩ (.atRest 6)
  let forged : Evidence :=
    { Evidence.minted (Vector.replicate 32 8) ⟨"ac"⟩ (.atRest 5) with
      observationId := e.observationId }
  let c := Evidence.ledgerOf [forged, e]
  refine not_noSuppression_forged Rat c forged e (Evidence.verify_minted _ List.mem_cons_self)
    (Evidence.verify_minted _ (List.mem_cons_of_mem _ List.mem_cons_self))
    (Evidence.decodes_minted _ _ _) rfl rfl (by decide) (h c _ ?_)
  -- The two payloads differ in the time, within the first 32 bytes.
  exact .of_pairwise (List.pairwise_pair.mpr (by decide))

/-- A signed payload that does not decode leaves its observation id in the gate
    of a fresh engine. -/
theorem not_atomicFailure :
    ¬ ∀ (c : Crypto) (run : List Evidence) (e : Evidence),
      AtomicFailure c (folded Rat c run) e := by
  intro h
  have hv : Evidence.hollow.verify (Evidence.ledgerOf [.hollow]) = .ok () :=
    Evidence.verify_ledgerOf (List.mem_singleton_self _) rfl rfl
  exact not_atomicFailure_undecodable hv (Finset.notMem_empty _) Evidence.not_decodes_hollow
    (h _ [] .hollow)

end BeliefEngine

end Seven
