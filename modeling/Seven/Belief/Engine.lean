import Seven.Core.F64
import Seven.Evidence.Tamper
import Seven.Library.Machine
import Mathlib.Data.Finset.Insert
import Std.Data.ExtTreeMap

/-!
# The Belief Engine

Evidence gating and the linear-Gaussian update. `incorporate` does four things
in order: it verifies, it tests and marks the observation id in the subject's
gate, it decodes the payload, and it folds the measurements into the subject's
track.

The order matters. The gate is marked before the payload is decoded, so a
decoding failure returns an error and leaves the mark behind; and the gate keys
on the observation id, which verification does not look at. `incorporate_cases`
is the four ways a call can go, and `mem_seen_folded` says what the gate holds
after any run: the ids that verified evidence of the subject carried, whatever
else became of those calls.

Arithmetic on `f64` enters through the class `F64`, so that the gating results
hold of the machine's floats and of any other reading of them.

## Main definitions

* `GaussianBelief`: The track of one subject.
* `updateDim`, `fuse`: The update of one dimension and of all six.
* `BeliefEngine`, `incorporate`: The engine.
* `Carried`, `Introduces`: What a run says about an observation id.

## Theorems

* `incorporate_cases`: The four ways a call can go.
* `incorporate_counted_cases`: What a call writes beside the gate.
* `seen_incorporate`: What a call does to the gate.
* `mem_seen_folded`: What the gate holds after a run.
* `answer_true_iff`, `answer_false_iff`: Which calls count and which are
  dropped as duplicates.
-/

namespace Seven

inductive BeliefError where
  | unverifiedEvidence (e : EvidenceError)
  | nonFinite
  | estimator (message : String)
  deriving DecidableEq

section Track

variable {F : Type} [F64 F]

/-- Measurement noise on position evidence, in square metres. -/
def measVarPos : F := F64.ofInt 25

/-- Measurement noise on velocity evidence. -/
def measVarVel : F := F64.ofInt 1

/-- Conflict-flagging threshold in sigmas. -/
def conflictSigma : F := F64.ofInt 3

def noise : Vector F 6 :=
  #v[measVarPos, measVarPos, measVarPos, measVarVel, measVarVel, measVarVel]

/-- A quantized coordinate in metres or metres per second. -/
def fromMilli (x : Int64) : F :=
  F64.ofInt x.toInt / F64.ofInt 1000

def measurements (state : CanonicalState) : Vector F 6 :=
  #v[fromMilli (state.positionMm.get 0), fromMilli (state.positionMm.get 1),
    fromMilli (state.positionMm.get 2), fromMilli (state.velocityMms.get 0),
    fromMilli (state.velocityMms.get 1), fromMilli (state.velocityMms.get 2)]

end Track

/-- Mean and diagonal covariance of a position and velocity track. -/
structure GaussianBelief (F : Type) where
  mean : Vector F 6
  var : Vector F 6
  independentUpdates : UInt64

namespace GaussianBelief

variable {F : Type} [F64 F]

/-- Explicit prior: high variance. -/
def uninformative : GaussianBelief F :=
  { mean := Vector.replicate 6 (F64.ofInt 0)
    var := Vector.replicate 6 (F64.ofInt 1000000000)
    independentUpdates := 0 }

/-- Conjugate update of one dimension, with the scalar gain. -/
def updateDim (track : GaussianBelief F) (dim : Fin 6) (measurement measurementVar : F) :
    GaussianBelief F :=
  let mean := track.mean.get dim
  let var := track.var.get dim
  let k := var / (var + measurementVar)
  { mean := track.mean.set dim (mean + k * (measurement - mean)) dim.isLt
    var := track.var.set dim (var * (F64.ofInt 1 - k)) dim.isLt
    independentUpdates := track.independentUpdates + 1 }

/-- The update of every dimension, in order. -/
def fuse (track : GaussianBelief F) (measurements : Vector F 6) : GaussianBelief F :=
  (List.finRange 6).foldl (fun track d => track.updateDim d (measurements.get d) (noise.get d))
    track

/-- In some dimension the measurement is further from the mean than the
    threshold allows under the predictive variance. -/
def conflicts (track : GaussianBelief F) (measurements : Vector F 6) : Bool :=
  (List.finRange 6).any fun d =>
    let sigma := F64.sqrt (track.var.get d + noise.get d)
    F64.gt (F64.abs (measurements.get d - track.mean.get d)) (conflictSigma * sigma)

end GaussianBelief

/-- Belief store for the whole node. -/
structure BeliefEngine (F : Type) where
  tracks : Std.ExtTreeMap SubjectId (GaussianBelief F)
  /-- Observation ids already incorporated: the duplicate gate. -/
  incorporated : Std.ExtTreeMap SubjectId (Finset ObservationId)
  /-- Conflicting observations, retained verbatim. -/
  conflicts : List (SubjectId × Evidence × Evidence)
  /-- The previous half of a conflict pair. -/
  lastEvidence : Std.ExtTreeMap SubjectId Evidence

namespace BeliefEngine

variable {F : Type}

def new : BeliefEngine F :=
  { tracks := ∅, incorporated := ∅, conflicts := [], lastEvidence := ∅ }

/-- The gate of one subject; a subject without an entry has an empty one. -/
def seen (eng : BeliefEngine F) (s : SubjectId) : Finset ObservationId :=
  eng.incorporated[s]?.getD ∅

/-- Put the evidence's observation id through its subject's gate. -/
def mark (eng : BeliefEngine F) (e : Evidence) : BeliefEngine F :=
  { eng with
    incorporated :=
      eng.incorporated.insert e.subject (insert e.observationId (eng.seen e.subject)) }

variable [F64 F]

/-- The track of one subject; a subject without one starts from the prior. -/
def track (eng : BeliefEngine F) (s : SubjectId) : GaussianBelief F :=
  eng.tracks[s]?.getD .uninformative

/-- Flag a conflict against the track as it is, remember the evidence, update
    the track. A first observation has no track to disagree with. -/
def absorb (eng : BeliefEngine F) (e : Evidence) (state : CanonicalState) : BeliefEngine F :=
  let conflict := eng.tracks[e.subject]?.any fun track => track.conflicts (measurements state)
  let conflicts :=
    match conflict, eng.lastEvidence[e.subject]? with
    | true, some prev => eng.conflicts ++ [(e.subject, prev, e)]
    | _, _ => eng.conflicts
  { eng with
    tracks := eng.tracks.insert e.subject ((eng.track e.subject).fuse (measurements state))
    conflicts
    lastEvidence := eng.lastEvidence.insert e.subject e }

/-- Incorporate verified evidence: the engine after the call and its answer. -/
def incorporate (c : Crypto) (eng : BeliefEngine F) (e : Evidence) :
    BeliefEngine F × Except BeliefError Bool :=
  match e.verify c with
  | .error err => (eng, .error (.unverifiedEvidence err))
  | .ok () =>
      -- A member found has an entry, so nothing is written on this branch.
      if e.observationId ∈ eng.seen e.subject then (eng, .ok false)
      else
        -- The mark stays whether or not the payload decodes.
        let eng := eng.mark e
        match CanonicalState.fromCanonicalBytes e.payload with
        | .error _ => (eng, .error .nonFinite)
        | .ok state => (eng.absorb e state, .ok true)

/-- The four ways a call can go. -/
theorem incorporate_cases (c : Crypto) (eng : BeliefEngine F) (e : Evidence) :
    (∃ err, e.verify c = .error err ∧
        eng.incorporate c e = (eng, .error (.unverifiedEvidence err))) ∨
      (e.verify c = .ok () ∧ e.observationId ∈ eng.seen e.subject ∧
        eng.incorporate c e = (eng, .ok false)) ∨
      (∃ err, e.verify c = .ok () ∧ e.observationId ∉ eng.seen e.subject ∧
        CanonicalState.fromCanonicalBytes e.payload = .error err ∧
        eng.incorporate c e = (eng.mark e, .error .nonFinite)) ∨
      ∃ state, e.verify c = .ok () ∧ e.observationId ∉ eng.seen e.subject ∧
        CanonicalState.fromCanonicalBytes e.payload = .ok state ∧
        eng.incorporate c e = ((eng.mark e).absorb e state, .ok true) := by
  unfold incorporate
  cases hv : e.verify c with
  | error err => exact Or.inl ⟨err, rfl, rfl⟩
  | ok u =>
      right
      by_cases hid : e.observationId ∈ eng.seen e.subject
      · exact Or.inl ⟨rfl, hid, by simp only [hid, if_true]⟩
      · right
        cases hd : CanonicalState.fromCanonicalBytes e.payload with
        | error err => exact Or.inl ⟨err, rfl, hid, rfl, by simp only [hid, if_false]⟩
        | ok state => exact Or.inr ⟨state, rfl, hid, rfl, by simp only [hid, if_false]⟩

/-- A call that does not count leaves everything but the gate; one that counts
    absorbs the state of its payload. -/
theorem incorporate_counted_cases (c : Crypto) (eng : BeliefEngine F) (e : Evidence) :
    ((eng.incorporate c e).2 ≠ .ok true ∧ (eng.incorporate c e).1.tracks = eng.tracks ∧
        (eng.incorporate c e).1.conflicts = eng.conflicts ∧
        (eng.incorporate c e).1.lastEvidence = eng.lastEvidence) ∨
      ∃ state, CanonicalState.fromCanonicalBytes e.payload = .ok state ∧
        eng.incorporate c e = ((eng.mark e).absorb e state, .ok true) := by
  rcases incorporate_cases c eng e with ⟨err, _, h⟩ | ⟨_, _, h⟩ | ⟨err, _, _, _, h⟩ |
    ⟨state, _, _, hd, h⟩
  · left
    rw [h]
    exact ⟨by simp only [ne_eq, reduceCtorEq, not_false_eq_true], rfl, rfl, rfl⟩
  · left
    rw [h]
    exact ⟨fun heq => Bool.false_ne_true (Except.ok.inj heq), rfl, rfl, rfl⟩
  · left
    rw [h]
    exact ⟨by simp only [ne_eq, reduceCtorEq, not_false_eq_true], rfl, rfl, rfl⟩
  · exact Or.inr ⟨state, hd, h⟩

/-- Evidence that does not verify is rejected. -/
theorem incorporate_of_unverified {c : Crypto} {eng : BeliefEngine F} {e : Evidence}
    {err : EvidenceError} (hv : e.verify c = .error err) :
    eng.incorporate c e = (eng, .error (.unverifiedEvidence err)) := by
  rw [incorporate, hv]

/-- Verified evidence whose id is in the gate is dropped. -/
theorem incorporate_of_mem {c : Crypto} {eng : BeliefEngine F} {e : Evidence}
    (hv : e.verify c = .ok ()) (hid : e.observationId ∈ eng.seen e.subject) :
    eng.incorporate c e = (eng, .ok false) := by
  rw [incorporate, hv]
  exact if_pos hid

/-- Verified evidence with a new id that decodes is counted. -/
theorem incorporate_of_decodes {c : Crypto} {eng : BeliefEngine F} {e : Evidence}
    {state : CanonicalState} (hv : e.verify c = .ok ())
    (hid : e.observationId ∉ eng.seen e.subject)
    (hd : CanonicalState.fromCanonicalBytes e.payload = .ok state) :
    eng.incorporate c e = ((eng.mark e).absorb e state, .ok true) := by
  rw [incorporate, hv]
  simp only [hid, if_false, hd]

/-- Verified evidence with a new id that does not decode leaves its mark. -/
theorem incorporate_of_undecodable {c : Crypto} {eng : BeliefEngine F} {e : Evidence}
    {err : CanonicalError} (hv : e.verify c = .ok ())
    (hid : e.observationId ∉ eng.seen e.subject)
    (hd : CanonicalState.fromCanonicalBytes e.payload = .error err) :
    eng.incorporate c e = (eng.mark e, .error .nonFinite) := by
  rw [incorporate, hv]
  simp only [hid, if_false, hd]

omit [F64 F] in
@[simp] theorem seen_new (s : SubjectId) : (new : BeliefEngine F).seen s = ∅ := rfl

omit [F64 F] in
theorem seen_mark (eng : BeliefEngine F) (e : Evidence) (s : SubjectId) :
    (eng.mark e).seen s =
      if e.subject = s then insert e.observationId (eng.seen s) else eng.seen s := by
  simp only [seen, mark, Std.ExtTreeMap.getElem?_insert, Std.compare_eq_iff_eq]
  by_cases hs : e.subject = s
  · simp only [hs, if_true, Option.getD_some]
  · simp only [hs, if_false]

@[simp] theorem seen_absorb (eng : BeliefEngine F) (e : Evidence) (state : CanonicalState)
    (s : SubjectId) : (eng.absorb e state).seen s = eng.seen s := rfl

/-- A call puts the observation id of verified evidence through the gate, and
    does nothing else to it. -/
theorem seen_incorporate (c : Crypto) (eng : BeliefEngine F) (e : Evidence) (s : SubjectId) :
    (eng.incorporate c e).1.seen s =
      if e.verify c = .ok () ∧ e.subject = s then insert e.observationId (eng.seen s)
      else eng.seen s := by
  rcases incorporate_cases c eng e with ⟨err, hv, h⟩ | ⟨hv, hid, h⟩ | ⟨err, hv, hid, hd, h⟩ |
    ⟨state, hv, hid, hd, h⟩
  · simp only [h, hv, reduceCtorEq, false_and, if_false]
  -- A duplicate is in the gate already, so inserting it changes nothing.
  · by_cases hs : e.subject = s
    · rw [hs] at hid
      simp only [h, hv, hs, true_and, if_true, Finset.insert_eq_of_mem hid]
    · simp only [h, hv, hs, and_false, if_false]
  · simp only [h, hv, true_and, seen_mark]
  · simp only [h, hv, true_and, seen_absorb, seen_mark]

theorem mem_seen_incorporate (c : Crypto) (eng : BeliefEngine F) (e : Evidence) (s : SubjectId)
    (id : ObservationId) :
    id ∈ (eng.incorporate c e).1.seen s ↔
      id ∈ eng.seen s ∨ (e.verify c = .ok () ∧ e.subject = s ∧ e.observationId = id) := by
  rw [seen_incorporate, ← and_assoc]
  by_cases h : e.verify c = .ok () ∧ e.subject = s
  · rw [if_pos h, Finset.mem_insert, or_comm, eq_comm (a := id), and_iff_right h]
  · rw [if_neg h]
    simp only [h, false_and, or_false]

/-- The tracks after a counted call. -/
theorem tracks_absorb_mark (eng : BeliefEngine F) (e : Evidence) (state : CanonicalState)
    (s : SubjectId) :
    ((eng.mark e).absorb e state).tracks[s]? =
      if e.subject = s then some ((eng.tracks[s]?.getD .uninformative).fuse (measurements state))
      else eng.tracks[s]? := by
  simp only [absorb, mark, track, Std.ExtTreeMap.getElem?_insert, Std.compare_eq_iff_eq]
  by_cases hs : e.subject = s
  · rw [if_pos hs, if_pos hs, hs]
  · rw [if_neg hs, if_neg hs]

/-- A call does not touch the tracks of other subjects. -/
theorem tracks_incorporate_of_ne (c : Crypto) (eng : BeliefEngine F) (e : Evidence) {s : SubjectId}
    (hs : e.subject ≠ s) : (eng.incorporate c e).1.tracks[s]? = eng.tracks[s]? := by
  rcases incorporate_counted_cases c eng e with ⟨_, htracks, _⟩ | ⟨state, _, h⟩
  · rw [htracks]
  · rw [h, tracks_absorb_mark, if_neg hs]

/-- What a call answers and the track it leaves depend on the subject's track and
    gate alone. -/
theorem incorporate_congr (c : Crypto) {eng eng' : BeliefEngine F} {e : Evidence}
    (htrack : eng.tracks[e.subject]? = eng'.tracks[e.subject]?)
    (hseen : eng.seen e.subject = eng'.seen e.subject) :
    (eng.incorporate c e).2 = (eng'.incorporate c e).2 ∧
      (eng.incorporate c e).1.tracks[e.subject]? = (eng'.incorporate c e).1.tracks[e.subject]? := by
  unfold incorporate
  rw [← hseen]
  cases e.verify c with
  | error err => exact ⟨rfl, htrack⟩
  | ok u =>
      by_cases hid : e.observationId ∈ eng.seen e.subject
      · simp only [hid, if_true]
        exact ⟨trivial, htrack⟩
      · simp only [hid, if_false]
        cases CanonicalState.fromCanonicalBytes e.payload with
        | error err => exact ⟨rfl, htrack⟩
        | ok state => exact ⟨rfl, by rw [tracks_absorb_mark, tracks_absorb_mark, htrack]⟩

end BeliefEngine

/-- Some verified evidence of the subject carried this observation id. -/
def Carried (c : Crypto) (run : List Evidence) (s : SubjectId) (id : ObservationId) : Prop :=
  ∃ e ∈ run, e.verify c = .ok () ∧ e.subject = s ∧ e.observationId = id

/-- Verified evidence, the first of its subject in the run to carry its
    observation id. -/
def Introduces (c : Crypto) (run : List Evidence) (e : Evidence) : Prop :=
  e.verify c = .ok () ∧ ¬ Carried c run e.subject e.observationId

/-- The payload decodes to a state. -/
def Evidence.Decodes (e : Evidence) : Prop :=
  ∃ state, CanonicalState.fromCanonicalBytes e.payload = .ok state

theorem Evidence.Decodes.congr {e e' : Evidence} (h : e.Decodes) (hp : e.payload = e'.payload) :
    e'.Decodes := by
  unfold Decodes at *
  rwa [← hp]

theorem carried_concat (c : Crypto) (run : List Evidence) (e : Evidence) (s : SubjectId)
    (id : ObservationId) :
    Carried c (run ++ [e]) s id ↔
      Carried c run s id ∨ (e.verify c = .ok () ∧ e.subject = s ∧ e.observationId = id) := by
  simp only [Carried, List.mem_append, List.mem_singleton, or_and_right, exists_or,
    exists_eq_left]

namespace BeliefEngine

variable {F : Type} [F64 F]

/-- The engine after a run from a fresh one. -/
def folded (F : Type) [F64 F] (c : Crypto) (run : List Evidence) : BeliefEngine F :=
  Machine.after (incorporate c) new run

theorem folded_concat (c : Crypto) (run : List Evidence) (e : Evidence) :
    folded F c (run ++ [e]) = (incorporate c (folded F c run) e).1 :=
  Machine.after_concat (incorporate c) new run e

/-- What a fresh engine answers along a run. -/
def answers (F : Type) [F64 F] (c : Crypto) (run : List Evidence) :
    List (Evidence × Except BeliefError Bool) :=
  Machine.trace (incorporate (F := F) c) new run

/-- The answer at one position of a run. -/
def answer (F : Type) [F64 F] (c : Crypto) (run : List Evidence) (n : Fin run.length) :
    Except BeliefError Bool :=
  (incorporate c (folded F c (run.take n)) (run.get n)).2

/-- After any run the gate holds the ids that verified evidence carried. -/
theorem mem_seen_folded (c : Crypto) (run : List Evidence) (s : SubjectId) (id : ObservationId) :
    id ∈ (folded F c run).seen s ↔ Carried c run s id := by
  -- Induction on the run: one call puts through the gate what it adds to `Carried`.
  refine Machine.after_induction (incorporate c) (s := new)
    (P := fun run eng => ∀ s id, id ∈ (BeliefEngine.seen eng s) ↔ Carried c run s id) ?_ ?_ run s id
  · intro s id
    simp only [seen_new, Finset.notMem_empty, Carried, List.not_mem_nil, false_and, exists_false]
  · intro run e ih s id
    rw [mem_seen_incorporate, carried_concat, ih s id]

theorem introduces_iff (c : Crypto) (run : List Evidence) (e : Evidence) :
    Introduces c run e ↔
      e.verify c = .ok () ∧ e.observationId ∉ (folded F c run).seen e.subject := by
  rw [Introduces, mem_seen_folded]

/-- Evidence that counts is fused into the track of its subject. -/
theorem track_folded_concat {c : Crypto} {run : List Evidence} {e : Evidence}
    {state : CanonicalState} (h : Introduces c run e)
    (hd : CanonicalState.fromCanonicalBytes e.payload = .ok state) :
    (folded F c (run ++ [e])).track e.subject =
      ((folded F c run).track e.subject).fuse (measurements state) := by
  rw [introduces_iff (F := F)] at h
  rw [folded_concat, incorporate_of_decodes h.1 h.2 hd, track, tracks_absorb_mark, if_pos rfl]
  rfl

/-- A call succeeds when its evidence verifies and, where its id is new, decodes. -/
theorem exists_ok_incorporate_iff (c : Crypto) (eng : BeliefEngine F) (e : Evidence) :
    (∃ b, (eng.incorporate c e).2 = .ok b) ↔
      e.verify c = .ok () ∧ (e.Decodes ∨ e.observationId ∈ eng.seen e.subject) := by
  rcases incorporate_cases c eng e with ⟨err, hv, h⟩ | ⟨hv, hid, h⟩ | ⟨err, hv, hid, hd, h⟩ |
    ⟨state, hv, hid, hd, h⟩
  · simp only [h, hv, reduceCtorEq, exists_false, false_and]
  · simp only [h, hv, hid, Except.ok.injEq, exists_eq', or_true, and_self]
  · simp only [h, hid, Evidence.Decodes, hd, reduceCtorEq, exists_false, or_self, and_false]
  · simp only [h, hv, Evidence.Decodes, hd, Except.ok.injEq, exists_eq', true_or, and_self]

/-- A call counts exactly when its evidence introduces its id and decodes. -/
theorem answer_true_iff (c : Crypto) (run : List Evidence) (e : Evidence) :
    (incorporate c (folded F c run) e).2 = .ok true ↔ Introduces c run e ∧ e.Decodes := by
  rw [introduces_iff (F := F)]
  rcases incorporate_cases c (folded F c run) e with ⟨err, hv, h⟩ | ⟨hv, hid, h⟩ |
    ⟨err, hv, hid, hd, h⟩ | ⟨state, hv, hid, hd, h⟩
  · simp only [h, hv, reduceCtorEq, false_and]
  · simp only [h, hid, Except.ok.injEq, Bool.false_eq_true, not_true_eq_false, and_false, false_and]
  · simp only [h, Evidence.Decodes, hd, reduceCtorEq, exists_false, and_false]
  · simp only [h, hv, hid, Evidence.Decodes, hd, Except.ok.injEq, not_false_eq_true, and_self,
      exists_eq']

/-- Evidence that verifies and decodes never fails. -/
theorem exists_ok_of_mem_answers {c : Crypto} {run : List Evidence}
    (h : ∀ e ∈ run, e.verify c = .ok () ∧ e.Decodes)
    {call : Evidence × Except BeliefError Bool} (hcall : call ∈ answers F c run) :
    ∃ counted, call.2 = .ok counted := by
  rcases (Machine.mem_trace_iff _ _ _ call.1 call.2).mp hcall with ⟨pre, post, hrun, hans⟩
  have hmem : call.1 ∈ run := by
    rw [hrun]
    exact List.mem_append_right pre List.mem_cons_self
  rw [← hans]
  exact (exists_ok_incorporate_iff c _ call.1).mpr ⟨(h call.1 hmem).1, Or.inl (h call.1 hmem).2⟩

/-- A call is dropped as a duplicate exactly when verified evidence of its
    subject carried its id before. -/
theorem answer_false_iff (c : Crypto) (run : List Evidence) (e : Evidence) :
    (incorporate c (folded F c run) e).2 = .ok false ↔
      e.verify c = .ok () ∧ Carried c run e.subject e.observationId := by
  rw [← mem_seen_folded (F := F)]
  rcases incorporate_cases c (folded F c run) e with ⟨err, hv, h⟩ | ⟨hv, hid, h⟩ |
    ⟨err, hv, hid, hd, h⟩ | ⟨state, hv, hid, hd, h⟩
  · simp only [h, hv, reduceCtorEq, false_and]
  · simp only [h, hv, hid, and_self]
  · simp only [h, hid, reduceCtorEq, and_false]
  · simp only [h, hid, Except.ok.injEq, Bool.true_eq_false, and_false]

end BeliefEngine

end Seven
