import Seven.Belief.Gate

/-!
# The IMU-Fused Track

A track that composes a Kalman filter with the engine's gating. The filter is
another library's, and enters as an arbitrary state machine that may accept or
reject a reading; the track verifies, drops duplicates, decodes, flags
conflicts against the filter's estimate and hands the measurement on.

A track is for one subject, and nothing in it says which: the subject is taken
from the evidence. So a run never mixes subjects when its evidence does not
(`singleSubject_iff`), and otherwise some filter accepts two of them.

## Main definitions

* `Ekf`, `EstimatorState`, `GpsReading`: The filter.
* `ImuFusedTrack`, `predict`, `updateFromEvidence`: The track.
* `Call`, `Answer`, `step`: Its two operations as one machine.
* `Offers`, `Fused`: A run offers evidence to the filter, and fuses it.
* `SingleSubject`, `OneSubject`: No mixed subjects, and when it holds.

## Theorems

* `updateFromEvidence_cases`: The five ways an update can go.
* `mem_incorporated_after`: What the gate holds after a run.
* `recorded_after`: What is remembered and paired was offered.
* `Fused.offers`, `fused_of_offers`: What was fused was offered, and all of it
  when the filter accepts.
* `singleSubject_iff`: When no track mixes subjects.
-/

namespace Seven

/-- A position and velocity reading. -/
structure GpsReading (F : Type) where
  position : Vector F 3
  velocity : Vector F 3
  clockBias : F

/-- The estimate of a filter and its covariance. -/
structure EstimatorState (F : Type) where
  x : Vector F 21
  P : Fin 21 → Fin 21 → F

/-- A Kalman filter with states in `E` and inertial readings in `I`. A call that
    is rejected may leave another state as well. -/
structure Ekf (E I F : Type) where
  new : E
  state : E → EstimatorState F
  predict : E → F → I → E × Except String Unit
  updateGps : E → GpsReading F → E × Except String Unit

/-- An IMU-fused track for one subject. -/
structure ImuFusedTrack (E : Type) where
  ekf : E
  incorporated : Finset ObservationId
  /-- Number of independent GPS updates applied. -/
  independentUpdates : UInt64
  /-- Number of IMU predict steps applied. -/
  predictSteps : UInt64
  /-- Flagged conflicting pairs; the subject is taken from the evidence. -/
  conflicts : List (SubjectId × Evidence × Evidence)
  /-- The previous half of a conflict pair. -/
  lastEvidence : Option Evidence

section Reading

variable {F : Type} [F64 F]

/-- In some dimension the measurement is further from the estimate than the
    threshold allows under the predictive variance. -/
def EstimatorState.conflicts (prior : EstimatorState F) (measurements : Vector F 6) : Bool :=
  (List.finRange 6).any fun d =>
    let i : Fin 21 := d.castLE (by omega)
    let sigma := F64.sqrt (prior.P i i + noise.get d)
    F64.gt (F64.abs (measurements.get d - prior.x.get i)) (conflictSigma * sigma)

/-- The measurements as a reading without clock bias. -/
def gpsReading (measurements : Vector F 6) : GpsReading F :=
  { position := #v[measurements.get 0, measurements.get 1, measurements.get 2]
    velocity := #v[measurements.get 3, measurements.get 4, measurements.get 5]
    clockBias := F64.ofInt 0 }

end Reading

namespace ImuFusedTrack

variable {E I F : Type}

def new (est : Ekf E I F) : ImuFusedTrack E :=
  { ekf := est.new
    incorporated := ∅
    independentUpdates := 0
    predictSteps := 0
    conflicts := []
    lastEvidence := none }

/-- Propagate the filter. -/
def predict (est : Ekf E I F) (track : ImuFusedTrack E) (dt : F) (imu : I) :
    ImuFusedTrack E × Except BeliefError Unit :=
  match est.predict track.ekf dt imu with
  | (ekf, .error e) => ({ track with ekf }, .error (.estimator e))
  | (ekf, .ok ()) => ({ track with ekf, predictSteps := track.predictSteps + 1 }, .ok ())

/-- Propagating moves the filter and the count of steps. -/
theorem predict_eq (est : Ekf E I F) (track : ImuFusedTrack E) (dt : F) (imu : I) :
    ∃ ekf predictSteps, (track.predict est dt imu).1 = { track with ekf, predictSteps } := by
  unfold predict
  rcases est.predict track.ekf dt imu with ⟨ekf, err | u⟩
  · exact ⟨ekf, track.predictSteps, rfl⟩
  · exact ⟨ekf, track.predictSteps + 1, rfl⟩

/-- Put the evidence's observation id through the gate. -/
def mark (track : ImuFusedTrack E) (e : Evidence) : ImuFusedTrack E :=
  { track with incorporated := insert e.observationId track.incorporated }

/-- A call of one of the two operations. -/
inductive Call (I F : Type) where
  | predict (dt : F) (imu : I)
  | update (e : Evidence)

/-- What a call answers. -/
inductive Answer where
  | predicted (r : Except BeliefError Unit)
  | updated (r : Except BeliefError Bool)

/-- Some verified evidence of the calls carried this observation id. -/
def CarriedBy (c : Crypto) (calls : List (Call I F)) (id : ObservationId) : Prop :=
  ∃ e, .update e ∈ calls ∧ e.verify c = .ok () ∧ e.observationId = id

/-- The calls offer this evidence to the filter: somewhere in them it verifies, is
    the first to carry its observation id, and decodes. -/
def Offers (c : Crypto) (calls : List (Call I F)) (e : Evidence) : Prop :=
  ∃ pre post, calls = pre ++ .update e :: post ∧ e.verify c = .ok () ∧
    ¬ CarriedBy c pre e.observationId ∧ e.Decodes

/-- The evidence that the calls offer is about one subject. -/
def OneSubject (c : Crypto) (calls : List (Call I F)) : Prop :=
  ∀ e e', Offers c calls e → Offers c calls e' → e.subject = e'.subject

theorem carriedBy_concat (c : Crypto) (calls : List (Call I F)) (call : Call I F)
    (id : ObservationId) :
    CarriedBy c (calls ++ [call]) id ↔
      CarriedBy c calls id ∨
        ∃ e, call = .update e ∧ e.verify c = .ok () ∧ e.observationId = id := by
  unfold CarriedBy
  simp only [List.mem_append, List.mem_singleton, or_and_right, exists_or, eq_comm (b := call)]

theorem Offers.concat {c : Crypto} {calls : List (Call I F)} {e : Evidence} (h : Offers c calls e)
    (call : Call I F) : Offers c (calls ++ [call]) e := by
  rcases h with ⟨pre, post, hcalls, h⟩
  exact ⟨pre, post ++ [call], by rw [hcalls, List.append_assoc, List.cons_append], h⟩

theorem offers_concat_self {c : Crypto} {calls : List (Call I F)} {e : Evidence}
    (hv : e.verify c = .ok ()) (hid : ¬ CarriedBy c calls e.observationId) (hd : e.Decodes) :
    Offers c (calls ++ [.update e]) e :=
  ⟨calls, [], rfl, hv, hid, hd⟩

variable [F64 F]

/-- Flag a conflict against the estimate as it is and remember the evidence. -/
def remember (est : Ekf E I F) (track : ImuFusedTrack E) (e : Evidence) (state : CanonicalState) :
    ImuFusedTrack E :=
  let conflict := (est.state track.ekf).conflicts (measurements state)
  { track with
    conflicts :=
      match conflict, track.lastEvidence with
      | true, some prev => track.conflicts ++ [(e.subject, prev, e)]
      | _, _ => track.conflicts
    lastEvidence := some e }

/-- Remembering evidence appends at most one pair, with the evidence before. -/
theorem conflicts_remember (est : Ekf E I F) (track : ImuFusedTrack E) (e : Evidence)
    (state : CanonicalState) :
    (track.remember est e state).conflicts = track.conflicts ∨
      ∃ prev, track.lastEvidence = some prev ∧
        (track.remember est e state).conflicts = track.conflicts ++ [(e.subject, prev, e)] := by
  unfold remember
  cases (est.state track.ekf).conflicts (measurements state) with
  | false => exact Or.inl rfl
  | true =>
      cases hlast : track.lastEvidence with
      | none => exact Or.inl rfl
      | some prev => exact Or.inr ⟨prev, rfl, rfl⟩

/-- Fuse verified evidence: the track after the call and its answer. -/
def updateFromEvidence (est : Ekf E I F) (c : Crypto) (track : ImuFusedTrack E) (e : Evidence) :
    ImuFusedTrack E × Except BeliefError Bool :=
  match e.verify c with
  | .error err => (track, .error (.unverifiedEvidence err))
  | .ok () =>
      if e.observationId ∈ track.incorporated then (track, .ok false)
      else
        let track := track.mark e
        match CanonicalState.fromCanonicalBytes e.payload with
        | .error _ => (track, .error .nonFinite)
        | .ok state =>
            let track := track.remember est e state
            match est.updateGps track.ekf (gpsReading (measurements state)) with
            -- The mark, the pair and the evidence stay when the filter rejects.
            | (ekf, .error err) => ({ track with ekf }, .error (.estimator err))
            | (ekf, .ok ()) =>
                ({ track with ekf, independentUpdates := track.independentUpdates + 1 }, .ok true)

/-- The five ways an update can go. -/
theorem updateFromEvidence_cases (est : Ekf E I F) (c : Crypto) (track : ImuFusedTrack E)
    (e : Evidence) :
    (∃ err, e.verify c = .error err ∧
        track.updateFromEvidence est c e = (track, .error (.unverifiedEvidence err))) ∨
      (e.verify c = .ok () ∧ e.observationId ∈ track.incorporated ∧
        track.updateFromEvidence est c e = (track, .ok false)) ∨
      (∃ err, e.verify c = .ok () ∧ e.observationId ∉ track.incorporated ∧
        CanonicalState.fromCanonicalBytes e.payload = .error err ∧
        track.updateFromEvidence est c e = (track.mark e, .error .nonFinite)) ∨
      (∃ state ekf err, e.verify c = .ok () ∧ e.observationId ∉ track.incorporated ∧
        CanonicalState.fromCanonicalBytes e.payload = .ok state ∧
        est.updateGps track.ekf (gpsReading (measurements state)) = (ekf, .error err) ∧
        track.updateFromEvidence est c e =
          ({ (track.mark e).remember est e state with ekf }, .error (.estimator err))) ∨
      ∃ state ekf, e.verify c = .ok () ∧ e.observationId ∉ track.incorporated ∧
        CanonicalState.fromCanonicalBytes e.payload = .ok state ∧
        est.updateGps track.ekf (gpsReading (measurements state)) = (ekf, .ok ()) ∧
        track.updateFromEvidence est c e =
          ({ (track.mark e).remember est e state with
              ekf, independentUpdates := track.independentUpdates + 1 }, .ok true) := by
  unfold updateFromEvidence
  -- One alternative for each return, in the order of the checks.
  cases hv : e.verify c with
  | error err => exact Or.inl ⟨err, rfl, rfl⟩
  | ok u =>
      right
      by_cases hid : e.observationId ∈ track.incorporated
      · exact Or.inl ⟨rfl, hid, by simp only [hid, if_true]⟩
      · right
        cases hd : CanonicalState.fromCanonicalBytes e.payload with
        | error err => exact Or.inl ⟨err, rfl, hid, rfl, by simp only [hid, if_false]⟩
        | ok state =>
            right
            have hekf : ((track.mark e).remember est e state).ekf = track.ekf := rfl
            rcases hgps : est.updateGps track.ekf (gpsReading (measurements state)) with
              ⟨ekf, err | u⟩
            · exact Or.inl ⟨state, ekf, err, rfl, hid, rfl, hgps, by
                simp only [hid, if_false, hekf, hgps]⟩
            · refine Or.inr ⟨state, ekf, rfl, hid, rfl, hgps, ?_⟩
              simp only [hid, if_false, hekf, hgps]
              rfl

/-- The two operations as one machine. -/
def step (est : Ekf E I F) (c : Crypto) (track : ImuFusedTrack E) :
    Call I F → ImuFusedTrack E × Answer
  | .predict dt imu => ((track.predict est dt imu).1, .predicted (track.predict est dt imu).2)
  | .update e =>
      ((track.updateFromEvidence est c e).1, .updated (track.updateFromEvidence est c e).2)

theorem step_predict (est : Ekf E I F) (c : Crypto) (track : ImuFusedTrack E) (dt : F) (imu : I) :
    step est c track (.predict dt imu) =
      ((track.predict est dt imu).1, .predicted (track.predict est dt imu).2) := rfl

theorem step_update (est : Ekf E I F) (c : Crypto) (track : ImuFusedTrack E) (e : Evidence) :
    step est c track (.update e) =
      ((track.updateFromEvidence est c e).1, .updated (track.updateFromEvidence est c e).2) := rfl

/-- The track after a run from a fresh one. -/
def after (est : Ekf E I F) (c : Crypto) (calls : List (Call I F)) : ImuFusedTrack E :=
  Machine.after (step est c) (new est) calls

/-- The run fused this evidence: an update with it answered `Ok(true)`. -/
def Fused (est : Ekf E I F) (c : Crypto) (calls : List (Call I F)) (e : Evidence) : Prop :=
  (.update e, .updated (.ok true)) ∈ Machine.trace (step est c) (new est) calls

theorem after_concat (est : Ekf E I F) (c : Crypto) (calls : List (Call I F)) (call : Call I F) :
    after est c (calls ++ [call]) = (step est c (after est c calls) call).1 :=
  Machine.after_concat (step est c) (new est) calls call

/-- All evidence that a run fused is about one subject, and so is every pair
    that it flagged. -/
def SingleSubject (est : Ekf E I F) (c : Crypto) (calls : List (Call I F)) : Prop :=
  (∀ e e', Fused est c calls e → Fused est c calls e' → e.subject = e'.subject) ∧
    ∀ s prev e, (s, prev, e) ∈ (after est c calls).conflicts → s = prev.subject ∧ s = e.subject

/-- What a call does to the gate. -/
theorem incorporated_step (est : Ekf E I F) (c : Crypto) (track : ImuFusedTrack E) (call : Call I F)
    (id : ObservationId) :
    id ∈ (step est c track call).1.incorporated ↔
      id ∈ track.incorporated ∨
        ∃ e, call = .update e ∧ e.verify c = .ok () ∧ e.observationId = id := by
  cases call with
  | predict dt imu =>
      rcases predict_eq est track dt imu with ⟨ekf, predictSteps, h⟩
      simp only [step, h, reduceCtorEq, false_and, exists_false, or_false]
  | update e =>
      unfold step
      simp only [Call.update.injEq, exists_eq_left']
      have hmark : id ∈ (track.mark e).incorporated ↔
          id ∈ track.incorporated ∨ e.observationId = id := by
        unfold mark
        rw [Finset.mem_insert, or_comm, eq_comm]
      rcases updateFromEvidence_cases est c track e with ⟨err, hv, h⟩ | ⟨hv, hid, h⟩ |
        ⟨err, hv, _, _, h⟩ | ⟨state, ekf, err, hv, _, _, _, h⟩ | ⟨state, ekf, hv, _, _, _, h⟩
      · simp only [h, hv, reduceCtorEq, false_and, or_false]
      · simp only [h, hv, true_and]
        -- A duplicate is in the gate already.
        exact ⟨Or.inl, fun hor => hor.elim (fun hmem => hmem) fun heq => heq ▸ hid⟩
      · simp only [h, hv, true_and, hmark]
      · simp only [h, hv, true_and]
        exact hmark
      · simp only [h, hv, true_and]
        exact hmark

/-- After any run the gate holds the ids that verified evidence carried. -/
theorem mem_incorporated_after (est : Ekf E I F) (c : Crypto) (calls : List (Call I F))
    (id : ObservationId) : id ∈ (after est c calls).incorporated ↔ CarriedBy c calls id := by
  induction calls using List.reverseRecOn with
  | nil =>
      refine iff_of_false (Finset.notMem_empty id) ?_
      intro h
      rcases h with ⟨e, he, _⟩
      exact List.not_mem_nil he
  | append_singleton calls call ih =>
      rw [after_concat, incorporated_step, carriedBy_concat, ih]

/-- What a call does to the conflict log and to the evidence remembered: nothing,
    or it offers its evidence, remembers it and perhaps pairs it with the one
    before. -/
theorem evidence_step (est : Ekf E I F) (c : Crypto) (track : ImuFusedTrack E) (call : Call I F) :
    ((step est c track call).1.lastEvidence = track.lastEvidence ∧
        (step est c track call).1.conflicts = track.conflicts) ∨
      ∃ e, call = .update e ∧ e.verify c = .ok () ∧ e.observationId ∉ track.incorporated ∧
        e.Decodes ∧ (step est c track call).1.lastEvidence = some e ∧
        ((step est c track call).1.conflicts = track.conflicts ∨
          ∃ prev, track.lastEvidence = some prev ∧
            (step est c track call).1.conflicts = track.conflicts ++ [(e.subject, prev, e)]) := by
  cases call with
  | predict dt imu =>
      rcases predict_eq est track dt imu with ⟨ekf, predictSteps, h⟩
      exact Or.inl (by simp only [step, h, and_self])
  | update e =>
      unfold step
      rcases updateFromEvidence_cases est c track e with ⟨err, _, h⟩ | ⟨_, _, h⟩ |
        ⟨err, _, _, _, h⟩ | ⟨state, ekf, err, hv, hid, hd, _, h⟩ | ⟨state, ekf, hv, hid, hd, _, h⟩
      · exact Or.inl (by simp only [h, and_self])
      · exact Or.inl (by simp only [h, and_self])
      · refine Or.inl ?_
        simp only [h]
        exact ⟨rfl, rfl⟩
      -- What decodes is remembered, also when the filter then rejects it.
      · refine Or.inr ⟨e, rfl, hv, hid, ⟨state, hd⟩, ?_⟩
        simp only [h]
        exact ⟨rfl, conflicts_remember est (track.mark e) e state⟩
      · refine Or.inr ⟨e, rfl, hv, hid, ⟨state, hd⟩, ?_⟩
        simp only [h]
        exact ⟨rfl, conflicts_remember est (track.mark e) e state⟩

/-- What was remembered and paired was offered, and a pair is filed under the
    subject of its second half. -/
structure Recorded (c : Crypto) (calls : List (Call I F)) (track : ImuFusedTrack E) : Prop where
  last : ∀ e, track.lastEvidence = some e → Offers c calls e
  pairs : ∀ s prev e, (s, prev, e) ∈ track.conflicts →
    s = e.subject ∧ Offers c calls prev ∧ Offers c calls e

theorem recorded_after (est : Ekf E I F) (c : Crypto) (calls : List (Call I F)) :
    Recorded c calls (after est c calls) := by
  induction calls using List.reverseRecOn with
  | nil =>
      exact ⟨fun _ h => absurd h.symm (Option.some_ne_none _),
        fun _ _ _ h => absurd h List.not_mem_nil⟩
  | append_singleton calls call ih =>
      have hpairs : ∀ s prev e, (s, prev, e) ∈ (after est c calls).conflicts →
          s = e.subject ∧ Offers c (calls ++ [call]) prev ∧ Offers c (calls ++ [call]) e :=
        fun s prev e hmem => (ih.pairs s prev e hmem).imp_right fun h =>
          ⟨h.1.concat call, h.2.concat call⟩
      -- Offers stay offers in a longer run, so only what the last call wrote is new.
      rw [after_concat]
      rcases evidence_step est c (after est c calls) call with ⟨hlast, hconflicts⟩ |
        ⟨e, rfl, hv, hid, hd, hlast, hconflicts⟩
      · exact ⟨fun e h => (ih.last e (hlast ▸ h)).concat call, fun s prev e h =>
          hpairs s prev e (hconflicts ▸ h)⟩
      · rw [mem_incorporated_after] at hid
        have hoffer := offers_concat_self hv hid hd
        refine ⟨fun e' h => ?_, fun s prev e' h => ?_⟩
        · rw [hlast, Option.some.injEq] at h
          exact h ▸ hoffer
        · rcases hconflicts with heq | ⟨prev', hprev, heq⟩
          · exact hpairs s prev e' (heq ▸ h)
          · rw [heq, List.mem_append, List.mem_singleton] at h
            rcases h with h | h
            · exact hpairs s prev e' h
            · -- The new pair: the evidence remembered and the one offered.
              simp only [Prod.mk.injEq] at h
              rw [h.1, h.2.1, h.2.2]
              exact ⟨rfl, (ih.last prev' hprev).concat _, hoffer⟩

/-- When an update answers that it fused its evidence. -/
theorem answer_fused_iff (est : Ekf E I F) (c : Crypto) (track : ImuFusedTrack E) (e : Evidence) :
    (step est c track (.update e)).2 = .updated (.ok true) ↔
      e.verify c = .ok () ∧ e.observationId ∉ track.incorporated ∧
        ∃ state, CanonicalState.fromCanonicalBytes e.payload = .ok state ∧
          (est.updateGps track.ekf (gpsReading (measurements state))).2 = .ok () := by
  unfold step
  simp only [Answer.updated.injEq]
  rcases updateFromEvidence_cases est c track e with ⟨err, hv, h⟩ | ⟨hv, hid, h⟩ |
    ⟨err, hv, hid, hd, h⟩ | ⟨state, ekf, err, hv, hid, hd, hgps, h⟩ |
    ⟨state, ekf, hv, hid, hd, hgps, h⟩
  · simp only [h, hv, reduceCtorEq, false_and]
  · simp only [h, hid, Except.ok.injEq, Bool.false_eq_true, not_true_eq_false, false_and, and_false]
  · simp only [h, hd, reduceCtorEq, false_and, exists_false, and_false]
  · simp only [h, hd, reduceCtorEq, Except.ok.injEq, exists_eq_left', hgps, and_false]
  · simp only [h, hv, hid, hd, not_false_eq_true, Except.ok.injEq, exists_eq_left', hgps, and_self]

/-- What was fused was offered. -/
theorem Fused.offers {est : Ekf E I F} {c : Crypto} {calls : List (Call I F)} {e : Evidence}
    (h : Fused est c calls e) : Offers c calls e := by
  rcases (Machine.mem_trace_iff (step est c) (new est) calls _ _).mp h with
    ⟨pre, post, hcalls, hans⟩
  rcases (answer_fused_iff est c _ e).mp hans with ⟨hv, hid, state, hd, _⟩
  rw [← after, mem_incorporated_after] at hid
  exact ⟨pre, post, hcalls, hv, hid, state, hd⟩

/-- A filter that takes every reading is updated with whatever is offered. -/
theorem fused_of_offers {est : Ekf E I F} (haccepts : ∀ ekf gps, (est.updateGps ekf gps).2 = .ok ())
    {c : Crypto} {calls : List (Call I F)} {e : Evidence} (h : Offers c calls e) :
    Fused est c calls e := by
  rcases h with ⟨pre, post, hcalls, hv, hid, state, hd⟩
  rw [← mem_incorporated_after est] at hid
  exact (Machine.mem_trace_iff (step est c) (new est) calls _ _).mpr
    ⟨pre, post, hcalls, (answer_fused_iff est c _ e).mpr ⟨hv, hid, state, hd, haccepts _ _⟩⟩

/-- A filter that stays where it is and takes everything. -/
def still : Ekf Unit I F :=
  { new := ()
    state := fun _ => ⟨Vector.replicate 21 (F64.ofInt 0), fun _ _ => F64.ofInt 0⟩
    predict := fun _ _ _ => ((), .ok ())
    updateGps := fun _ _ => ((), .ok ()) }

/-- Whatever the filter, a run never mixes subjects, exactly when the evidence that
    its calls offer is about one subject. -/
theorem singleSubject_iff (I F : Type) [F64 F] (c : Crypto) (calls : List (Call I F)) :
    (∀ (E : Type) (est : Ekf E I F), SingleSubject est c calls) ↔ OneSubject c calls := by
  constructor
  · intro h e e' he he'
    exact (h Unit still).1 e e' (fused_of_offers (fun _ _ => rfl) he)
      (fused_of_offers (fun _ _ => rfl) he')
  · intro h E est
    refine ⟨fun e e' he he' => h e e' he.offers he'.offers, fun s prev e hmem => ?_⟩
    rcases (recorded_after est c calls).pairs s prev e hmem with ⟨hs, hprev, he⟩
    exact ⟨hs.trans (h e prev he hprev), hs⟩

/-- Two aircraft, each under its own subject, are fused into one track. -/
theorem not_singleSubject :
    ¬ ∀ (E : Type) (est : Ekf E Unit Float) (c : Crypto) (calls : List (Call Unit Float)),
      SingleSubject est c calls := by
  intro h
  let e₁ := Evidence.minted (Vector.replicate 32 7) ⟨"ac1"⟩ (.atRest 5)
  let e₂ := Evidence.minted (Vector.replicate 32 7) ⟨"ac2"⟩ (.atRest 6)
  let c := Evidence.ledgerOf [e₁, e₂]
  let calls : List (Call Unit Float) := [.update e₁, .update e₂]
  have hv₁ : e₁.verify c = .ok () := Evidence.verify_minted _ List.mem_cons_self
  have hv₂ : e₂.verify c = .ok () :=
    Evidence.verify_minted _ (List.mem_cons_of_mem _ List.mem_cons_self)
  have hid : e₁.observationId ≠ e₂.observationId := by decide
  have h₁ : Offers c calls e₁ := by
    refine ⟨[], [.update e₂], rfl, hv₁, ?_, Evidence.decodes_minted _ _ _⟩
    intro hcar
    rcases hcar with ⟨e, he, _⟩
    exact List.not_mem_nil he
  have h₂ : Offers c calls e₂ := by
    refine ⟨[.update e₁], [], rfl, hv₂, ?_, Evidence.decodes_minted _ _ _⟩
    intro hcar
    rcases hcar with ⟨e, he, _, heid⟩
    rw [List.mem_singleton, Call.update.injEq] at he
    exact hid (he ▸ heid)
  have hs := (singleSubject_iff Unit Float c calls).mp (fun E est => h E est c calls) e₁ e₂ h₁ h₂
  exact absurd hs (by decide)

end ImuFusedTrack

end Seven
