import Seven.Belief.Counts

/-!
# The Filter behind the Gate

What reaches the filter of a fused track. Calls come in any order: propagations,
evidence, copies of it, evidence that does not verify or decode. The gate decides about
each from the evidence alone, whatever the filter answers, and lets through a list of
commands (`commands`). The track is what these make of the filter: its state and its
counts are those of a filter that gets the commands and nothing else, the evidence it
remembers is the last that was let through, and the conflicts it flagged are the
disagreements of a command with the estimate before it, in order (`track_filtered`).

So calls that are not let through are of no consequence, wherever they stand.

## Main definitions

* `Command`, `Command.run`: What the filter is asked to do.
* `gate`, `commands`: The gate, and what it lets through.
* `filtered`, `lastFused`, `disagreement`, `disagreements`: What the commands make of a
  filter.
* `estimatorState`, `position`, `velocity`: What can be read of a track.
* `Taken`: Evidence that reaches the filter and that it takes.

## Theorems

* `step_of_gate`: What a call does, by what the gate makes of it.
* `track_filtered`: The whole track, by the commands.
* `estimates_eq_of_commands`: What is read of a track depends on the commands alone.
* `singleSubject_filtered_iff`: When a track over one filter mixes no subjects.
-/

namespace Seven

namespace ImuFusedTrack

variable {E I F : Type}

/-- The estimate of the filter. -/
def estimatorState (est : Ekf E I F) (track : ImuFusedTrack E) : EstimatorState F :=
  est.state track.ekf

/-- Current position estimate. -/
def position (est : Ekf E I F) (track : ImuFusedTrack E) : Vector F 3 :=
  let x := (track.estimatorState est).x
  #v[x.get 0, x.get 1, x.get 2]

/-- Current velocity estimate. -/
def velocity (est : Ekf E I F) (track : ImuFusedTrack E) : Vector F 3 :=
  let x := (track.estimatorState est).x
  #v[x.get 3, x.get 4, x.get 5]

/-- What the filter is asked to do. -/
inductive Command (I F : Type) where
  | predict (dt : F) (imu : I)
  | fuse (e : Evidence) (state : CanonicalState)

/-- The evidence of a command. -/
def Command.evidence : Command I F → Option Evidence
  | .predict _ _ => none
  | .fuse e _ => some e

/-- The gate: the ids it holds after a call, and what it lets through. -/
def gate (c : Crypto) (seen : Finset ObservationId) :
    Call I F → Finset ObservationId × Option (Command I F)
  | .predict dt imu => (seen, some (.predict dt imu))
  | .update e =>
      if e.verify c = .ok () ∧ e.observationId ∉ seen then
        (insert e.observationId seen,
          (CanonicalState.fromCanonicalBytes e.payload).toOption.map (.fuse e))
      else (seen, none)

/-- What the gate lets through of the calls. -/
def commands (c : Crypto) (calls : List (Call I F)) : List (Command I F) :=
  (Machine.trace (gate c) ∅ calls).filterMap Prod.snd

/-- The last evidence that was let through. -/
def lastFused (cmds : List (Command I F)) : Option Evidence :=
  (cmds.filterMap Command.evidence).getLast?

variable [F64 F]

/-- The filter does what it is asked to. -/
def Command.run (est : Ekf E I F) (ekf : E) : Command I F → E × Except String Unit
  | .predict dt imu => est.predict ekf dt imu
  | .fuse _ state => est.updateGps ekf (gpsReading (measurements state))

/-- The filter after the commands. -/
def filtered (est : Ekf E I F) (cmds : List (Command I F)) : E :=
  Machine.after (Command.run est) est.new cmds

/-- The pair that a command makes: the evidence before it and its own, if its
    measurement disagrees with the estimate between them. -/
def disagreement (est : Ekf E I F) (ekf : E) (last : Option Evidence) :
    Command I F → Option (SubjectId × Evidence × Evidence)
  | .predict _ _ => none
  | .fuse e state =>
      if (est.state ekf).conflicts (measurements state) then
        last.map fun prev => (e.subject, prev, e)
      else none

/-- The pairs of all commands, in order, from a filter and the evidence before. -/
def disagreementsFrom (est : Ekf E I F) (ekf : E) (last : Option Evidence) :
    List (Command I F) → List (SubjectId × Evidence × Evidence)
  | [] => []
  | cmd :: cmds =>
      (disagreement est ekf last cmd).toList ++
        disagreementsFrom est (cmd.run est ekf).1 (cmd.evidence.or last) cmds

def disagreements (est : Ekf E I F) (cmds : List (Command I F)) :
    List (SubjectId × Evidence × Evidence) :=
  disagreementsFrom est est.new none cmds

/-- How many commands of a kind the filter accepted: those with evidence, or those
    without. -/
def accepted (est : Ekf E I F) (kind : Option Evidence → Bool) (cmds : List (Command I F)) : Nat :=
  (Machine.trace (Command.run est) est.new cmds).countP fun io =>
    kind io.1.evidence && io.2.isOk

section Concat

variable (c : Crypto) (est : Ekf E I F)

omit [F64 F] in
theorem commands_concat (calls : List (Call I F)) (call : Call I F) :
    commands c (calls ++ [call]) =
      commands c calls ++ (gate c (Machine.after (gate c) ∅ calls) call).2.toList := by
  rw [commands, Machine.trace_concat, List.filterMap_append, ← commands]
  cases (gate c (Machine.after (gate c) ∅ calls) call).2 with
  | none => rfl
  | some cmd => rfl

omit [F64 F] in
theorem lastFused_concat (cmds : List (Command I F)) (cmd : Command I F) :
    lastFused (cmds ++ [cmd]) = cmd.evidence.or (lastFused cmds) := by
  rw [lastFused, List.filterMap_append]
  cases cmd with
  | predict dt imu =>
      rw [List.filterMap_cons_none rfl, List.filterMap_nil, List.append_nil, ← lastFused]
      exact Option.none_or.symm
  | fuse e state =>
      change (cmds.filterMap Command.evidence ++ [e]).getLast? = _
      rw [List.getLast?_concat]
      exact Option.some_or.symm

omit [F64 F] in
theorem lastFused_cons (cmd : Command I F) (cmds : List (Command I F)) :
    lastFused (cmd :: cmds) = (lastFused cmds).or cmd.evidence := by
  cases cmd with
  | predict dt imu => exact Option.or_none.symm
  | fuse e state =>
      change (e :: cmds.filterMap Command.evidence).getLast? = (lastFused cmds).or (some e)
      rw [List.getLast?_cons, lastFused]
      cases (cmds.filterMap Command.evidence).getLast? with
      | none => rfl
      | some last => rfl

theorem filtered_concat (cmds : List (Command I F)) (cmd : Command I F) :
    filtered est (cmds ++ [cmd]) = (cmd.run est (filtered est cmds)).1 :=
  Machine.after_concat (Command.run est) est.new cmds cmd

theorem disagreementsFrom_concat (ekf : E) (last : Option Evidence) (cmds : List (Command I F))
    (cmd : Command I F) :
    disagreementsFrom est ekf last (cmds ++ [cmd]) = disagreementsFrom est ekf last cmds ++
      (disagreement est (Machine.after (Command.run est) ekf cmds) ((lastFused cmds).or last)
        cmd).toList := by
  induction cmds generalizing ekf last with
  | nil => exact List.append_nil _
  | cons first cmds ih =>
      rw [List.cons_append, disagreementsFrom, disagreementsFrom, ih, List.append_assoc,
        Machine.after_cons, lastFused_cons, Option.or_assoc]

theorem disagreements_concat (cmds : List (Command I F)) (cmd : Command I F) :
    disagreements est (cmds ++ [cmd]) = disagreements est cmds ++
      (disagreement est (filtered est cmds) (lastFused cmds) cmd).toList := by
  rw [disagreements, disagreementsFrom_concat, Option.or_none]
  rfl

theorem accepted_concat (kind : Option Evidence → Bool) (cmds : List (Command I F))
    (cmd : Command I F) :
    UInt64.ofNat (accepted est kind (cmds ++ [cmd])) =
      if kind cmd.evidence && (cmd.run est (filtered est cmds)).2.isOk then
        UInt64.ofNat (accepted est kind cmds) + 1
      else UInt64.ofNat (accepted est kind cmds) := by
  rw [accepted, Machine.trace_concat, List.countP_append, ← accepted, List.countP_singleton]
  change UInt64.ofNat (_ + if kind cmd.evidence && (cmd.run est (filtered est cmds)).2.isOk then 1
    else 0) = _
  split
  · rw [UInt64.ofNat_add]
    rfl
  · rfl

end Concat

/-- What a command makes of a track, its gate apart. -/
def perform (est : Ekf E I F) (track : ImuFusedTrack E) (cmd : Command I F) : ImuFusedTrack E :=
  let (ekf, answer) := cmd.run est track.ekf
  { track with
    ekf
    independentUpdates :=
      if cmd.evidence.isSome && answer.isOk then track.independentUpdates + 1
      else track.independentUpdates
    predictSteps :=
      if cmd.evidence.isNone && answer.isOk then track.predictSteps + 1 else track.predictSteps
    conflicts :=
      track.conflicts ++ (disagreement est track.ekf track.lastEvidence cmd).toList
    lastEvidence := cmd.evidence.or track.lastEvidence }

/-- Propagating is a command. -/
theorem predict_eq_perform (est : Ekf E I F) (track : ImuFusedTrack E) (dt : F) (imu : I) :
    (track.predict est dt imu).1 = track.perform est (.predict dt imu) := by
  have hconflicts : track.conflicts ++ (disagreement est track.ekf track.lastEvidence
      (.predict dt imu : Command I F)).toList = track.conflicts := List.append_nil _
  rcases hpredict : est.predict track.ekf dt imu with ⟨ekf, err | u⟩
  · have hrun : (Command.predict dt imu : Command I F).run est track.ekf = (ekf, .error err) :=
      hpredict
    rw [predict, hpredict, perform, hrun, hconflicts]
    rfl
  · have hrun : (Command.predict dt imu : Command I F).run est track.ekf = (ekf, .ok ()) :=
      hpredict
    rw [predict, hpredict, perform, hrun, hconflicts]
    rfl

/-- What is fused is remembered and paired before the filter answers. -/
theorem remember_eq (est : Ekf E I F) (track : ImuFusedTrack E) (e : Evidence)
    (state : CanonicalState) :
    track.remember est e state =
      { track with
        conflicts := track.conflicts ++
          (disagreement est track.ekf track.lastEvidence (.fuse e state : Command I F)).toList
        lastEvidence := some e } := by
  unfold remember disagreement
  cases hc : (est.state track.ekf).conflicts (measurements state) with
  | false =>
      simp only [hc, Bool.false_eq_true, if_false, Option.toList_none, List.append_nil]
  | true =>
      cases hlast : track.lastEvidence with
      | none => simp only [hc, if_true, Option.map_none, Option.toList_none, List.append_nil]
      | some prev => simp only [hc, if_true, Option.map_some, Option.toList_some]

omit [F64 F] in
/-- What the gate makes of evidence that it lets through. -/
theorem gate_update_of_new {c : Crypto} {seen : Finset ObservationId} {e : Evidence}
    (hv : e.verify c = .ok ()) (hid : e.observationId ∉ seen) :
    gate c seen (.update e : Call I F) = (insert e.observationId seen,
      (CanonicalState.fromCanonicalBytes e.payload).toOption.map (.fuse e)) :=
  if_pos ⟨hv, hid⟩

/-- A call puts its id through the gate, and performs the command that the gate makes
    of it, if any. -/
theorem step_of_gate (est : Ekf E I F) (c : Crypto) (track : ImuFusedTrack E) (call : Call I F) :
    (step est c track call).1 =
      { ((gate c track.incorporated call).2.elim track (track.perform est)) with
        incorporated := (gate c track.incorporated call).1 } := by
  cases call with
  | predict dt imu =>
      rw [step_predict, predict_eq_perform]
      rfl
  | update e =>
      rw [step_update]
      rcases updateFromEvidence_cases est c track e with ⟨err, hv, h⟩ | ⟨hv, hid, h⟩ |
        ⟨err, hv, hid, hd, h⟩ | ⟨state, ekf, err, hv, hid, hd, hgps, h⟩ |
        ⟨state, ekf, hv, hid, hd, hgps, h⟩
      · have hgate : gate c track.incorporated (.update e : Call I F) =
            (track.incorporated, none) := if_neg fun hboth => by
          rw [hv] at hboth
          exact absurd hboth.1 (by simp only [reduceCtorEq, not_false_eq_true])
        rw [h, hgate]
        rfl
      · have hgate : gate c track.incorporated (.update e : Call I F) =
            (track.incorporated, none) := if_neg fun hboth => hboth.2 hid
        rw [h, hgate]
        rfl
      · rw [h, gate_update_of_new hv hid, hd]
        rfl
      · have hrun : (Command.fuse e state : Command I F).run est track.ekf = (ekf, .error err) :=
          hgps
        have hperform : track.perform est (.fuse e state) =
            { track.remember est e state with ekf } := by
          rw [perform, hrun, remember_eq]
          rfl
        rw [h, gate_update_of_new hv hid, hd]
        simp only [Except.toOption, Option.map_some, Option.elim_some, hperform, remember_eq]
        rfl
      · have hrun : (Command.fuse e state : Command I F).run est track.ekf = (ekf, .ok ()) :=
          hgps
        have hperform : track.perform est (.fuse e state) =
            { track.remember est e state with
              ekf, independentUpdates := track.independentUpdates + 1 } := by
          rw [perform, hrun, remember_eq]
          rfl
        rw [h, gate_update_of_new hv hid, hd]
        simp only [Except.toOption, Option.map_some, Option.elim_some, hperform, remember_eq]
        rfl

/-- The gate is the track's. -/
theorem after_gate (est : Ekf E I F) (c : Crypto) (calls : List (Call I F)) :
    Machine.after (gate c) ∅ calls = (after est c calls).incorporated := by
  induction calls using List.reverseRecOn with
  | nil => rfl
  | append_singleton calls call ih =>
      rw [Machine.after_concat, after_concat, step_of_gate, ih]

/-- A track is what the commands make of a filter, its gate apart. -/
structure MadeBy (est : Ekf E I F) (cmds : List (Command I F)) (track : ImuFusedTrack E) :
    Prop where
  ekf : track.ekf = filtered est cmds
  lastEvidence : track.lastEvidence = lastFused cmds
  conflicts : track.conflicts = disagreements est cmds
  independentUpdates : track.independentUpdates = UInt64.ofNat (accepted est Option.isSome cmds)
  predictSteps : track.predictSteps = UInt64.ofNat (accepted est Option.isNone cmds)

theorem MadeBy.perform {est : Ekf E I F} {cmds : List (Command I F)} {track : ImuFusedTrack E}
    (h : MadeBy est cmds track) (cmd : Command I F) :
    MadeBy est (cmds ++ [cmd]) (track.perform est cmd) where
  ekf := by
    rw [filtered_concat, ← h.ekf]
    rfl
  lastEvidence := by
    rw [lastFused_concat, ← h.lastEvidence]
    rfl
  conflicts := by
    rw [disagreements_concat, ← h.ekf, ← h.lastEvidence, ← h.conflicts]
    rfl
  independentUpdates := by
    rw [accepted_concat, ← h.ekf, ← h.independentUpdates]
    rfl
  predictSteps := by
    rw [accepted_concat, ← h.ekf, ← h.predictSteps]
    rfl

theorem madeBy_after (est : Ekf E I F) (c : Crypto) (calls : List (Call I F)) :
    MadeBy est (commands c calls) (after est c calls) := by
  induction calls using List.reverseRecOn with
  | nil => exact ⟨rfl, rfl, rfl, rfl, rfl⟩
  | append_singleton calls call ih =>
      rw [after_concat, step_of_gate, commands_concat, after_gate est]
      cases (gate c (after est c calls).incorporated call).2 with
      | none =>
          rw [Option.toList_none, List.append_nil]
          exact ⟨ih.ekf, ih.lastEvidence, ih.conflicts, ih.independentUpdates, ih.predictSteps⟩
      | some cmd =>
          have hcmd := ih.perform cmd
          exact ⟨hcmd.ekf, hcmd.lastEvidence, hcmd.conflicts, hcmd.independentUpdates,
            hcmd.predictSteps⟩

/-- The whole track, by the commands. Whatever the calls are and however the filter
    answers, its state and its counts are those of a filter that is given the commands
    alone, the evidence it remembers is that of the last command that has one, and its
    conflicts are the pairs that the commands make, in order. -/
theorem track_filtered (est : Ekf E I F) (c : Crypto) (calls : List (Call I F)) :
    (after est c calls).ekf = filtered est (commands c calls) ∧
      (after est c calls).lastEvidence = lastFused (commands c calls) ∧
      (after est c calls).conflicts = disagreements est (commands c calls) ∧
      (after est c calls).independentUpdates =
        UInt64.ofNat (accepted est Option.isSome (commands c calls)) ∧
      (after est c calls).predictSteps =
        UInt64.ofNat (accepted est Option.isNone (commands c calls)) := by
  have h := madeBy_after est c calls
  exact ⟨h.ekf, h.lastEvidence, h.conflicts, h.independentUpdates, h.predictSteps⟩

/-- What is read of a track depends on the commands alone: runs of which the gate lets
    through the same have one estimate, position and velocity included. -/
theorem estimates_eq_of_commands (est : Ekf E I F) (c : Crypto) {calls calls' : List (Call I F)}
    (h : commands c calls = commands c calls') :
    (after est c calls).estimatorState est = (after est c calls').estimatorState est ∧
      (after est c calls).position est = (after est c calls').position est ∧
      (after est c calls).velocity est = (after est c calls').velocity est := by
  have hstate :
      (after est c calls).estimatorState est = (after est c calls').estimatorState est := by
    rw [estimatorState, estimatorState, (madeBy_after est c calls).ekf,
      (madeBy_after est c calls').ekf, h]
  refine ⟨hstate, ?_, ?_⟩
  · rw [position, position, hstate]
  · rw [velocity, velocity, hstate]

/-- The calls offer this evidence to the filter, which takes it. -/
def Taken (est : Ekf E I F) (c : Crypto) (calls : List (Call I F)) (e : Evidence) : Prop :=
  ∃ pre post, calls = pre ++ .update e :: post ∧ e.verify c = .ok () ∧
    ¬ CarriedBy c pre e.observationId ∧ Takes est (filtered est (commands c pre)) e

theorem fused_iff_taken (est : Ekf E I F) (c : Crypto) (calls : List (Call I F)) (e : Evidence) :
    Fused est c calls e ↔ Taken est c calls e := by
  unfold Fused Taken
  rw [Machine.mem_trace_iff]
  refine exists_congr fun pre => exists_congr fun post => and_congr_right fun _ => ?_
  rw [answer_fused_iff, ← after, mem_incorporated_after, (madeBy_after est c pre).ekf]
  rfl

/-- What one filter makes of it: a run mixes no subjects exactly when all evidence that
    this filter takes is about one subject, and what disagrees with an estimate of it is
    about the subject of the evidence before. -/
theorem singleSubject_filtered_iff (est : Ekf E I F) (c : Crypto) (calls : List (Call I F)) :
    SingleSubject est c calls ↔
      (∀ e e', Taken est c calls e → Taken est c calls e' → e.subject = e'.subject) ∧
        ∀ s prev e, (s, prev, e) ∈ disagreements est (commands c calls) →
          prev.subject = e.subject := by
  unfold SingleSubject
  simp only [fused_iff_taken, (madeBy_after est c calls).conflicts]
  refine and_congr_right fun _ => forall_congr' fun s => forall_congr' fun prev =>
    forall_congr' fun e => forall_congr' fun hmem => ?_
  -- A pair is filed under the subject of its second half.
  rw [← (madeBy_after est c calls).conflicts] at hmem
  have hs := ((recorded_after est c calls).pairs s prev e hmem).1
  rw [hs, eq_comm]
  exact and_iff_left rfl

end ImuFusedTrack

end Seven
