import Seven.Belief.Conflicts
import Seven.Belief.Imu

/-!
# Gating on the Two Paths

Evidence enters a belief through the engine or through an IMU-fused track. The
gating is written twice, over different states: maps with one entry a subject
there, a single set and a single previous evidence here.

On one subject the two keep step (`paths_agree`), calls that propagate the filter
being skipped on the side of the engine. That takes a filter that accepts every
reading. When the filter rejects one the track has already put the evidence
through its gate and remembered it, so the failure is not atomic, and the evidence
cannot be offered again (`recovers_iff`).

## Main definitions

* `Ekf.Atomic`: A filter that stays where it is when it rejects.
* `Takes`: The filter takes the reading of some evidence.
* `Recovers`: A failed call leaves the track as it was.
* `Agrees`: The engine and the track hold the same for a subject.

## Theorems

* `recovers_of_unchanged`: Evidence may be offered again after an atomic failure.
* `duplicate_of_not_takes`: It is reported as a duplicate otherwise.
* `recovers_iff`: When a failed call leaves the track as it was.
* `follows`: The track keeps step with the engine.
* `paths_agree`: The same verdicts, gate and previous evidence after any run.
-/

namespace Seven

variable {E I F : Type}

/-- A filter that stays where it is when it rejects. -/
structure Ekf.Atomic (est : Ekf E I F) : Prop where
  predict : ∀ ekf dt imu err, (est.predict ekf dt imu).2 = .error err →
    (est.predict ekf dt imu).1 = ekf
  updateGps : ∀ ekf gps err, (est.updateGps ekf gps).2 = .error err →
    (est.updateGps ekf gps).1 = ekf

namespace ImuFusedTrack

/-- The call answers with an error. -/
def Answer.Failed : Answer → Prop
  | .predicted r => ∃ err, r = .error err
  | .updated r => ∃ err, r = .error err

/-- The evidence of an update. -/
def Call.evidence : Call I F → Option Evidence
  | .predict _ _ => none
  | .update e => some e

/-- The verdict of an update. -/
def Answer.verdict : Answer → Option (Except BeliefError Bool)
  | .predicted _ => none
  | .updated r => some r

/-- The evidence that the calls update with. -/
def evidences (calls : List (Call I F)) : List Evidence :=
  calls.filterMap Call.evidence

variable [F64 F]

/-- The payload decodes to a state whose reading the filter takes. -/
def Takes (est : Ekf E I F) (ekf : E) (e : Evidence) : Prop :=
  ∃ state, CanonicalState.fromCanonicalBytes e.payload = .ok state ∧
    (est.updateGps ekf (gpsReading (measurements state))).2 = .ok ()

/-- A call that fails leaves the track as it was, and evidence that failed is not
    reported as a duplicate when it is offered again. -/
structure Recovers (est : Ekf E I F) (c : Crypto) (track : ImuFusedTrack E) (call : Call I F) :
    Prop where
  unchanged : (step est c track call).2.Failed → (step est c track call).1 = track
  offeredAgain : (step est c track call).2.Failed →
    (step est c (step est c track call).1 call).2 ≠ .updated (.ok false)

/-- Evidence may be offered again when its failure changed nothing. -/
theorem recovers_of_unchanged {est : Ekf E I F} {c : Crypto} {track : ImuFusedTrack E}
    {call : Call I F}
    (h : (step est c track call).2.Failed → (step est c track call).1 = track) :
    Recovers est c track call := by
  refine ⟨h, ?_⟩
  intro hfailed hdup
  -- The second call is the first one again.
  rw [h hfailed] at hdup
  rw [hdup] at hfailed
  rcases hfailed with ⟨err, herr⟩
  exact absurd herr (by simp only [reduceCtorEq, not_false_eq_true])

/-- Evidence in the gate is reported as a duplicate. -/
theorem step_update_of_mem {est : Ekf E I F} {c : Crypto} {track : ImuFusedTrack E} {e : Evidence}
    (hv : e.verify c = .ok ()) (hid : e.observationId ∈ track.incorporated) :
    (step est c track (.update e)).2 = .updated (.ok false) := by
  unfold step updateFromEvidence
  simp only [hv, hid, if_true]

/-- New evidence that the filter does not take fails, and is reported as a
    duplicate when it is offered again. -/
theorem duplicate_of_not_takes {est : Ekf E I F} {c : Crypto} {track : ImuFusedTrack E}
    {e : Evidence} (hv : e.verify c = .ok ()) (hid : e.observationId ∉ track.incorporated)
    (ht : ¬ Takes est track.ekf e) :
    (step est c track (.update e)).2.Failed ∧
      (step est c (step est c track (.update e)).1 (.update e)).2 = .updated (.ok false) := by
  refine ⟨?_, step_update_of_mem hv ?_⟩
  · rw [step_update]
    rcases updateFromEvidence_cases est c track e with ⟨err, hv', _⟩ | ⟨_, hid', _⟩ |
      ⟨err, _, _, _, h⟩ | ⟨state, ekf, err, _, _, _, _, h⟩ | ⟨state, ekf, _, _, hd, hgps, _⟩
    · rw [hv] at hv'
      exact absurd hv' (by simp only [reduceCtorEq, not_false_eq_true])
    · exact absurd hid' hid
    · rw [h]
      exact ⟨_, rfl⟩
    · rw [h]
      exact ⟨_, rfl⟩
    · exact absurd ⟨state, hd, by rw [hgps]⟩ ht
  · exact (incorporated_step est c track (.update e) _).mpr (Or.inr ⟨e, rfl, hv, rfl⟩)

/-- Propagating recovers when the filter does. -/
theorem recovers_predict {est : Ekf E I F} (hatomic : est.Atomic) (c : Crypto)
    (track : ImuFusedTrack E) (dt : F) (imu : I) : Recovers est c track (.predict dt imu) := by
  refine recovers_of_unchanged fun hfailed => ?_
  rcases hfailed with ⟨err, herr⟩
  have hekf := hatomic.predict track.ekf dt imu
  rw [step_predict] at *
  unfold predict at *
  rcases hstep : est.predict track.ekf dt imu with ⟨ekf, err' | u⟩
  · have hsame : ekf = track.ekf := by
      rw [hstep] at hekf
      exact hekf err' rfl
    rw [hsame]
  · rw [hstep] at herr
    exact absurd herr (by simp only [reduceCtorEq, not_false_eq_true])

/-- An update recovers when it is not the case that new evidence is not taken. -/
theorem recovers_update {est : Ekf E I F} {c : Crypto} {track : ImuFusedTrack E} {e : Evidence}
    (h : e.verify c = .ok () → e.observationId ∉ track.incorporated → Takes est track.ekf e) :
    Recovers est c track (.update e) := by
  refine recovers_of_unchanged fun hfailed => ?_
  rcases hfailed with ⟨err, herr⟩
  rw [step_update] at *
  rcases updateFromEvidence_cases est c track e with ⟨_, _, hstep⟩ | ⟨_, _, hstep⟩ |
    ⟨_, hv, hid, hd, _⟩ | ⟨state, ekf, err', hv, hid, hd, hgps, _⟩ | ⟨_, _, _, _, _, _, hstep⟩
  · rw [hstep]
  · rw [hstep]
  · rcases h hv hid with ⟨state, hstate, _⟩
    rw [hd] at hstate
    exact absurd hstate (by simp only [reduceCtorEq, not_false_eq_true])
  · rcases h hv hid with ⟨state', hstate, hok⟩
    rw [hd, Except.ok.injEq] at hstate
    rw [← hstate, hgps] at hok
    exact absurd hok (by simp only [reduceCtorEq, not_false_eq_true])
  · rw [hstep] at herr
    exact absurd herr (by simp only [reduceCtorEq, not_false_eq_true])

/-- Over a filter that stays where it is when it rejects, a failed call after any
    run leaves the track as it was exactly when the call is not an update with
    verified evidence under a new observation id that the filter does not take. -/
theorem recovers_iff (est : Ekf E I F) (hatomic : est.Atomic) (c : Crypto)
    (calls : List (Call I F)) (call : Call I F) :
    Recovers est c (after est c calls) call ↔
      ∀ e, call = .update e → e.verify c = .ok () → ¬ CarriedBy c calls e.observationId →
        Takes est (after est c calls).ekf e := by
  constructor
  · intro h e hcall hv hid
    subst hcall
    rw [← mem_incorporated_after est] at hid
    by_contra ht
    rcases duplicate_of_not_takes hv hid ht with ⟨hfailed, hdup⟩
    exact h.offeredAgain hfailed hdup
  · intro h
    cases call with
    | predict dt imu => exact recovers_predict hatomic c _ dt imu
    | update e =>
        refine recovers_update fun hv hid => h e rfl hv ?_
        rwa [← mem_incorporated_after est]

/-- A filter that wants time to pass and takes no reading. -/
def wary : Ekf Unit I F :=
  { new := ()
    state := fun _ => ⟨Vector.replicate 21 (F64.ofInt 0), fun _ _ => F64.ofInt 0⟩
    predict := fun _ dt _ =>
      ((), if F64.gt dt (F64.ofInt 0) then .ok () else .error "non-positive dt")
    updateGps := fun _ _ => ((), .error "reading rejected") }

theorem atomic_wary : (wary : Ekf Unit I F).Atomic :=
  ⟨fun _ _ _ _ _ => rfl, fun _ _ _ _ => rfl⟩

theorem not_takes_wary (e : Evidence) : ¬ Takes (wary : Ekf Unit I F) () e := by
  intro h
  rcases h with ⟨state, _, hok⟩
  exact absurd hok (by unfold wary; simp only [reduceCtorEq, not_false_eq_true])

/-- Over the wary filter propagating recovers, and an update does not. -/
theorem recovers_iff_wary :
    let e := Evidence.minted (Vector.replicate 32 7) ⟨"ac"⟩ (.atRest 5)
    let c := Evidence.ledgerOf [e]
    let est : Ekf Unit Unit Float := wary
    let stuck : Call Unit Float := .predict (F64.ofInt 0) ()
    Recovers est c (after est c [stuck]) stuck ∧
      ¬ Recovers est c (after est c [stuck]) (.update e) := by
  intro e c est stuck
  have hv : e.verify c = .ok () := Evidence.verify_minted _ (List.mem_singleton_self _)
  have hid : ¬ CarriedBy c [stuck] e.observationId := by
    intro h
    rcases h with ⟨e', he', _⟩
    exact absurd (List.mem_singleton.mp he') (by simp only [reduceCtorEq, not_false_eq_true])
  refine ⟨(recovers_iff est atomic_wary c [stuck] _).mpr ?_, ?_⟩
  · intro e' he'
    exact absurd he' (by simp only [reduceCtorEq, not_false_eq_true])
  · intro h
    exact not_takes_wary (I := Unit) (F := Float) e
      ((recovers_iff est atomic_wary c [stuck] _).mp h e rfl hv hid)

/-- The first signed evidence whose reading the filter rejects stays in the gate
    of a fresh track. -/
theorem not_recovers :
    ¬ ∀ (E : Type) (est : Ekf E Unit Float), est.Atomic →
      ∀ (c : Crypto) (calls : List (Call Unit Float)) (call : Call Unit Float),
        Recovers est c (after est c calls) call := by
  intro h
  let e := Evidence.minted (Vector.replicate 32 7) ⟨"ac"⟩ (.atRest 5)
  have hv : e.verify (Evidence.ledgerOf [e]) = .ok () :=
    Evidence.verify_minted _ (List.mem_singleton_self _)
  have hid : e.observationId ∉ (new (wary : Ekf Unit Unit Float)).incorporated :=
    Finset.notMem_empty _
  have ht : ¬ Takes (wary : Ekf Unit Unit Float) () e := not_takes_wary e
  rcases duplicate_of_not_takes hv hid ht with ⟨hfailed, hdup⟩
  exact (h Unit wary atomic_wary (Evidence.ledgerOf [e]) [] (.update e)).offeredAgain hfailed hdup

/-- The engine and the track hold the same for a subject, and the engine holds
    nothing for any other. -/
structure Agrees (s : SubjectId) (track : ImuFusedTrack E) (eng : BeliefEngine F) : Prop where
  gate : track.incorporated = eng.seen s
  last : track.lastEvidence = eng.lastEvidence[s]?
  otherGate : ∀ s', s ≠ s' → eng.seen s' = ∅
  otherLast : ∀ s', s ≠ s' → eng.lastEvidence[s']? = none

omit [F64 F] in
theorem agrees_new (est : Ekf E I F) (s : SubjectId) :
    Agrees s (new est) (BeliefEngine.new : BeliefEngine F) :=
  ⟨rfl, rfl, fun _ _ => rfl, fun _ _ => rfl⟩

omit [F64 F] in
theorem Agrees.mark {s : SubjectId} {track : ImuFusedTrack E} {eng : BeliefEngine F}
    (h : Agrees s track eng) {e : Evidence} (hs : e.subject = s) :
    Agrees s (track.mark e) (eng.mark e) := by
  refine ⟨?_, h.last, fun s' hne => ?_, h.otherLast⟩
  · rw [BeliefEngine.seen_mark, if_pos hs, ← h.gate]
    rfl
  · rw [BeliefEngine.seen_mark, hs, if_neg hne, h.otherGate s' hne]

/-- Absorbing a state agrees with remembering the evidence, whatever is done to
    the filter and the counts. -/
theorem Agrees.absorb {s : SubjectId} {track track' : ImuFusedTrack E} {eng : BeliefEngine F}
    (h : Agrees s track eng) {e : Evidence} (hs : e.subject = s)
    (hgate : track'.incorporated = track.incorporated) (hlast : track'.lastEvidence = some e)
    (state : CanonicalState) : Agrees s track' (eng.absorb e state) := by
  refine ⟨hgate.trans h.gate, ?_, h.otherGate, fun s' hne => ?_⟩
  · rw [hlast, BeliefEngine.absorb, hs, Std.ExtTreeMap.getElem?_insert_self]
  · rw [BeliefEngine.absorb, hs, Maps.getElem?_insert_of_ne _ _ hne, h.otherLast s' hne]

/-- An update agrees with incorporating, when the filter accepts. -/
theorem Agrees.update {est : Ekf E I F}
    (haccepts : ∀ ekf gps, (est.updateGps ekf gps).2 = .ok ()) (c : Crypto) {s : SubjectId}
    {track : ImuFusedTrack E} {eng : BeliefEngine F} (h : Agrees s track eng) {e : Evidence}
    (hs : e.subject = s) :
    Agrees s (track.updateFromEvidence est c e).1 (eng.incorporate c e).1 ∧
      (track.updateFromEvidence est c e).2 = (eng.incorporate c e).2 := by
  have hgate : track.incorporated = eng.seen e.subject := by rw [h.gate, hs]
  rcases updateFromEvidence_cases est c track e with ⟨err, hv, htrack⟩ | ⟨hv, hid, htrack⟩ |
    ⟨err, hv, hid, hd, htrack⟩ | ⟨state, ekf, err, _, _, _, hgps, _⟩ |
    ⟨state, ekf, hv, hid, hd, _, htrack⟩
  · rw [htrack, BeliefEngine.incorporate_of_unverified hv]
    exact ⟨h, rfl⟩
  · rw [hgate] at hid
    rw [htrack, BeliefEngine.incorporate_of_mem hv hid]
    exact ⟨h, rfl⟩
  · rw [hgate] at hid
    rw [htrack, BeliefEngine.incorporate_of_undecodable hv hid hd]
    exact ⟨h.mark hs, rfl⟩
  -- The one way that the engine does not have.
  · have hok := haccepts track.ekf (gpsReading (measurements state))
    rw [hgps] at hok
    exact absurd hok (by simp only [reduceCtorEq, not_false_eq_true])
  · rw [hgate] at hid
    rw [htrack, BeliefEngine.incorporate_of_decodes hv hid hd]
    refine ⟨(h.mark hs).absorb hs ?_ ?_ state, rfl⟩
    · rfl
    · rfl

/-- A track keeps step with the engine on updates about one subject. -/
theorem follows {est : Ekf E I F} (haccepts : ∀ ekf gps, (est.updateGps ekf gps).2 = .ok ())
    (c : Crypto) (s : SubjectId) :
    Machine.Follows (step est c) (BeliefEngine.incorporate (F := F) c) Call.evidence
      Answer.verdict (fun call => ∀ e, call = .update e → e.subject = s) (Agrees s) := by
  refine ⟨?_, ?_⟩
  · intro track eng call e hcall h hkeep
    cases call with
    | predict dt imu => exact absurd hkeep.symm (Option.some_ne_none e)
    | update e' =>
        rw [Call.evidence, Option.some.injEq] at hkeep
        subst hkeep
        rcases h.update haccepts c (hcall e' rfl) with ⟨hnext, hanswer⟩
        exact ⟨hnext, congrArg some hanswer⟩
  · intro track eng call _ h hkeep
    cases call with
    | predict dt imu =>
        rcases predict_eq est track dt imu with ⟨ekf, predictSteps, hstep⟩
        rw [step_predict, hstep]
        exact ⟨h.gate, h.last, h.otherGate, h.otherLast⟩
    | update e => exact absurd hkeep (Option.some_ne_none e)

/-- The two paths gate identically. On any evidence about one subject, with any
    propagation in between and a filter that accepts every reading, the updates
    of a fresh track are answered as a fresh engine answers the evidence, and
    afterwards the two hold the same gate and the same previous evidence. -/
theorem paths_agree (est : Ekf E I F) (haccepts : ∀ ekf gps, (est.updateGps ekf gps).2 = .ok ())
    (c : Crypto) (s : SubjectId) (calls : List (Call I F))
    (hs : ∀ call ∈ calls, ∀ e, call = .update e → e.subject = s) :
    (Machine.trace (step est c) (new est) calls).filterMap
        (Machine.share Call.evidence Answer.verdict) =
      BeliefEngine.answers F c (evidences calls) ∧
      Agrees s (after est c calls) (BeliefEngine.folded F c (evidences calls)) :=
  ⟨(follows haccepts c s).trace (agrees_new est s) hs,
    (follows haccepts c s).after (agrees_new est s) hs⟩

/-- A copy, something hollow and a propagation on the way. -/
theorem paths_agree_still :
    let e := Evidence.minted (Vector.replicate 32 7) ⟨"ac"⟩ (.atRest 5)
    let c := Evidence.ledgerOf [e, .hollow]
    let calls : List (Call Unit Float) :=
      [.update e, .predict (F64.ofInt 1) (), .update (e.forwards [⟨⟨"relay"⟩, 6⟩]),
        .update .hollow]
    Agrees ⟨"ac"⟩ (after still c calls) (BeliefEngine.folded Float c (evidences calls)) := by
  intro e c calls
  refine (paths_agree still (fun _ _ => rfl) c ⟨"ac"⟩ calls ?_).2
  intro call hcall e' he'
  simp only [calls, List.mem_cons, List.not_mem_nil, or_false] at hcall
  rcases hcall with rfl | rfl | rfl | rfl
  · rw [← Call.update.inj he']
    rfl
  · exact absurd he' (by simp only [reduceCtorEq, not_false_eq_true])
  · rw [← Call.update.inj he', (Evidence.copyOf_forwards e _).subject]
    rfl
  · rw [← Call.update.inj he']
    rfl

end ImuFusedTrack

end Seven
