import Seven.Belief.Convergence
import Seven.Belief.Paths
import Mathlib.Data.Finset.Card
import Mathlib.Data.Nat.GCD.Basic
import Mathlib.Data.Nat.SuccPred

/-!
# What the Update Counts Count

The count a track carries, the number of calls that counted for its subject and
the number of ids in its gate.

The three differ. The engine moves the count on in the update of each dimension,
so it grows by six with every call that counts, while the IMU-fused track moves
it on once. In both the gate is marked before the evidence can still fail, by a
payload that does not decode or a reading that the filter rejects, so the gate
holds the ids of failed calls as well.

`exact_iff` of either namespace says when the three agree: for a subject of the
engine when there is no track, and for the fused track when nothing fails after
its mark, as far as a `u64` can count.

## Main definitions

* `BeliefEngine.trueCalls`, `ImuFusedTrack.trueCalls`: The calls that counted.
* `BeliefEngine.Exact`, `ImuFusedTrack.Exact`: The three numbers are equal.
* `CountsNothing`, `DecodesAll`, `TakesAll`: The conditions on a run.

## Theorems

* `independentUpdates_track`: The count of a track is six times the calls.
* `trueCalls_eq_card_iff`: When the calls that count are the ids in the gate.
* `exact_iff`: When all three numbers agree.
* `independentUpdates_exact_iff`: Both of them together.
-/

namespace Seven

namespace BeliefEngine

variable (F : Type) [F64 F]

/-- The call put a new id through the gate of a subject. -/
def marksFor (s : SubjectId) (call : Evidence × Except BeliefError Bool) : Bool :=
  decide (call.1.subject = s ∧ (call.2 = .ok true ∨ call.2 = .error .nonFinite))

/-- The number of calls for a subject that returned `Ok(true)`. -/
def trueCalls (c : Crypto) (run : List Evidence) (s : SubjectId) : Nat :=
  (answers F c run).countP (countsFor s)

/-- The count of the subject's track, if there is one, is the number of calls that
    counted for the subject and the number of ids in its gate. -/
def Exact (c : Crypto) (run : List Evidence) (s : SubjectId) : Prop :=
  ∀ track, (folded F c run).tracks[s]? = some track →
    track.independentUpdates.toNat = trueCalls F c run s ∧
      trueCalls F c run s = ((folded F c run).seen s).card

/-- No verified evidence of the subject that brings a new id decodes. -/
def CountsNothing (c : Crypto) (run : List Evidence) (s : SubjectId) : Prop :=
  ∀ pre e post, run = pre ++ e :: post → e.subject = s → ¬ (Introduces c pre e ∧ e.Decodes)

/-- All verified evidence of the subject that brings a new id decodes. -/
def DecodesAll (c : Crypto) (run : List Evidence) (s : SubjectId) : Prop :=
  ∀ pre e post, run = pre ++ e :: post → e.subject = s → Introduces c pre e → e.Decodes

variable {F}

theorem countsFor_iff (s : SubjectId) (call : Evidence × Except BeliefError Bool) :
    countsFor s call = true ↔ call.1.subject = s ∧ call.2 = .ok true := by
  rw [countsFor, Bool.and_eq_true, decide_eq_true_eq, decide_eq_true_eq]

/-- A call marks the gate exactly when its evidence introduces its id. -/
theorem answer_marks_iff (c : Crypto) (run : List Evidence) (e : Evidence) :
    ((incorporate c (folded F c run) e).2 = .ok true ∨
        (incorporate c (folded F c run) e).2 = .error .nonFinite) ↔ Introduces c run e := by
  rw [introduces_iff (F := F)]
  rcases incorporate_cases c (folded F c run) e with ⟨err, hv, h⟩ | ⟨hv, hid, h⟩ |
    ⟨err, hv, hid, hd, h⟩ | ⟨state, hv, hid, hd, h⟩
  · simp only [h, hv, reduceCtorEq, Except.error.injEq, or_self, false_and]
  · simp only [h, hid, Except.ok.injEq, Bool.false_eq_true, reduceCtorEq, or_self,
      not_true_eq_false, and_false]
  · simp only [h, hv, hid, reduceCtorEq, or_true, not_false_eq_true, and_self]
  · simp only [h, hv, hid, reduceCtorEq, or_false, not_false_eq_true, and_self]

/-- The gate of a subject grows by one with the calls that mark it. -/
theorem card_seen_incorporate (c : Crypto) (eng : BeliefEngine F) (e : Evidence) (s : SubjectId) :
    ((eng.incorporate c e).1.seen s).card =
      if marksFor s (e, (eng.incorporate c e).2) = true then ((eng.seen s).card).succ
      else (eng.seen s).card := by
  -- The mark of a new id is one more in the gate of its own subject.
  have hmark : e.observationId ∉ eng.seen e.subject →
      (if e.subject = s then insert e.observationId (eng.seen s) else eng.seen s).card =
        if e.subject = s then ((eng.seen s).card).succ else (eng.seen s).card := by
    intro hid
    by_cases hs : e.subject = s
    · rw [hs] at hid
      rw [if_pos hs, if_pos hs, Finset.card_insert_of_notMem hid]
    · rw [if_neg hs, if_neg hs]
  rw [seen_incorporate]
  rcases incorporate_cases c eng e with ⟨err, hv, h⟩ | ⟨hv, hid, h⟩ | ⟨err, hv, hid, hd, h⟩ |
    ⟨state, hv, hid, hd, h⟩
  · simp only [h, hv, marksFor, reduceCtorEq, Except.error.injEq, or_self, false_and, and_false,
      decide_false, Bool.false_eq_true, if_false]
  · simp only [h, hv, marksFor, Except.ok.injEq, Bool.false_eq_true, reduceCtorEq, or_self,
      and_false, decide_false, if_false, true_and]
    -- A duplicate is in the gate already.
    by_cases hs : e.subject = s
    · rw [if_pos hs, Finset.insert_eq_of_mem (hs ▸ hid)]
    · rw [if_neg hs]
  · simp only [h, hv, marksFor, reduceCtorEq, or_true, and_true, true_and, decide_eq_true_eq]
    exact hmark hid
  · simp only [h, hv, marksFor, reduceCtorEq, or_false, and_true, true_and, decide_eq_true_eq]
    exact hmark hid

/-- After any run the gate of a subject has one id for each call that marked it. -/
theorem card_seen_folded (c : Crypto) (run : List Evidence) (s : SubjectId) :
    ((folded F c run).seen s).card = (answers F c run).countP (marksFor s) := by
  have hafter := Machine.reading_after (incorporate (F := F) c) (fun eng => (eng.seen s).card)
    Nat.succ (marksFor s) (fun eng e => card_seen_incorporate c eng e s) new run
  rw [folded, hafter, Nat.succ_iterate, seen_new, Finset.card_empty, Nat.zero_add, answers]

/-- The calls that count are as many as the ids in the gate exactly when nothing
    fails after its mark. -/
theorem trueCalls_eq_card_iff (c : Crypto) (run : List Evidence) (s : SubjectId) :
    trueCalls F c run s = ((folded F c run).seen s).card ↔ DecodesAll c run s := by
  have himp : ∀ call ∈ answers F c run, countsFor s call = true → marksFor s call = true := by
    intro call _ h
    rw [countsFor_iff] at h
    rw [marksFor, decide_eq_true_eq]
    exact ⟨h.1, Or.inl h.2⟩
  -- Calls that count mark too, so both are equally many when every mark counts.
  rw [card_seen_folded, trueCalls, Machine.countP_eq_countP_iff himp, answers,
    Machine.forall_mem_trace_iff]
  refine forall_congr' fun pre => forall_congr' fun e => forall_congr' fun post =>
    imp_congr_right fun _ => ?_
  have hmarks := answer_marks_iff (F := F) c pre e
  have hcounts := answer_true_iff (F := F) c pre e
  rw [folded] at hmarks hcounts
  rw [marksFor, decide_eq_true_eq, countsFor_iff, hmarks, hcounts, and_imp]
  exact ⟨fun h hs hi => (h hs hi).2.2, fun h hs hi => ⟨hs, hi, h hs hi⟩⟩

theorem length_counted (c : Crypto) (run : List Evidence) (s : SubjectId) :
    (counted F c run s).length = trueCalls F c run s := by
  rw [counted, trueCalls, List.length_filterMap_eq_countP]
  refine List.countP_congr fun call _ => ?_
  rw [countedBy, countsFor_iff]
  by_cases h : call.1.subject = s ∧ call.2 = .ok true
  · rw [if_pos h]
    exact iff_of_true rfl h
  · rw [if_neg h]
    exact iff_of_false Bool.false_ne_true h

/-- The payloads counted decode, all of them. -/
theorem length_decoded (c : Crypto) (run : List Evidence) (s : SubjectId) :
    ((counted F c run s).filterMap decoded).length = trueCalls F c run s := by
  rw [List.length_filterMap_eq_countP, ← length_counted, List.countP_eq_length]
  intro p hp
  rcases (observed_of_mem_counted hp).2 with ⟨state, hstate⟩
  rw [decoded, hstate]
  rfl

/-- There is a track where a call counted. -/
theorem exists_track_iff (c : Crypto) (run : List Evidence) (s : SubjectId) :
    (∃ track, (folded F c run).tracks[s]? = some track) ↔ 0 < trueCalls F c run s := by
  rw [tracks_folded, trackOf, ← length_decoded, List.length_pos_iff]
  by_cases h : (counted F c run s).filterMap decoded = []
  · rw [if_pos h]
    simp only [reduceCtorEq, exists_false, h, ne_eq, not_true_eq_false]
  · rw [if_neg h]
    simp only [Option.some.injEq, exists_eq', ne_eq, h, not_false_eq_true]

/-- The count of a track is six times the number of calls that counted. -/
theorem independentUpdates_track {c : Crypto} {run : List Evidence} {s : SubjectId}
    {track : GaussianBelief F} (h : (folded F c run).tracks[s]? = some track) :
    track.independentUpdates = 6 * UInt64.ofNat (trueCalls F c run s) := by
  rw [tracks_folded, trackOf] at h
  by_cases hnil : (counted F c run s).filterMap decoded = []
  · rw [if_pos hnil] at h
    exact absurd h.symm (Option.some_ne_none track)
  · rw [if_neg hnil, Option.some.injEq] at h
    rw [← h, GaussianBelief.independentUpdates_foldl_fuse, List.length_map, length_decoded]
    exact UInt64.zero_add _

/-- Six times a positive number is not the number, wrapped around or not. -/
theorem toNat_six_mul_ne {k : Nat} (hk : 0 < k) : (6 * UInt64.ofNat k).toNat ≠ k := by
  have hfive : 6 * k - k = 5 * k := by omega
  intro heq
  have hlt : k < 2 ^ 64 := heq ▸ UInt64.toNat_lt _
  rw [UInt64.toNat_mul, UInt64.toNat_ofNat', Nat.mul_mod_mod] at heq
  -- The modulus divides five times the number, and so the number itself.
  have hdvd : 2 ^ 64 ∣ 6 * k - k := (Nat.dvd_sub_mod (6 * k)).trans (dvd_of_eq (congrArg _ heq))
  rw [hfive] at hdvd
  have hcoprime : Nat.Coprime (2 ^ 64) 5 := Nat.Coprime.pow_left 64 (by decide)
  exact absurd (Nat.le_of_dvd hk (hcoprime.dvd_of_dvd_mul_left hdvd)) (Nat.not_le_of_lt hlt)

/-- So the count of a track is not the number of calls that counted. -/
theorem toNat_independentUpdates_ne {c : Crypto} {run : List Evidence} {s : SubjectId}
    {track : GaussianBelief F} (h : (folded F c run).tracks[s]? = some track) :
    track.independentUpdates.toNat ≠ trueCalls F c run s := by
  rw [independentUpdates_track h]
  exact toNat_six_mul_ne ((exists_track_iff c run s).mp ⟨track, h⟩)

/-- No call counts for the subject on these runs, and on no others. -/
theorem countsNothing_iff (c : Crypto) (run : List Evidence) (s : SubjectId) :
    CountsNothing c run s ↔ trueCalls F c run s = 0 := by
  rw [trueCalls, List.countP_eq_zero, answers, Machine.forall_mem_trace_iff]
  refine forall_congr' fun pre => forall_congr' fun e => forall_congr' fun post =>
    imp_congr_right fun _ => ?_
  have hcounts := answer_true_iff (F := F) c pre e
  rw [folded] at hcounts
  rw [countsFor_iff, hcounts]
  exact not_and.symm

/-- The three numbers agree exactly when the subject has no track. -/
theorem exact_iff (c : Crypto) (run : List Evidence) (s : SubjectId) :
    Exact F c run s ↔ CountsNothing c run s := by
  rw [countsNothing_iff (F := F)]
  constructor
  · intro h
    by_contra hne
    -- A call that counted leaves a track, and the track counts it six times.
    rcases (exists_track_iff c run s).mpr (Nat.pos_of_ne_zero hne) with ⟨track, htrack⟩
    exact toNat_independentUpdates_ne htrack (h track htrack).1
  · intro h track htrack
    have hpos := (exists_track_iff c run s).mp ⟨track, htrack⟩
    exact absurd h hpos.ne'

end BeliefEngine

namespace ImuFusedTrack

variable {E I F : Type} [F64 F]

/-- The update fused its evidence. -/
def Answer.isTrue : Answer → Bool
  | .updated (.ok true) => true
  | _ => false

/-- The update put a new id through the gate. -/
def Answer.isMark : Answer → Bool
  | .updated (.ok true) => true
  | .updated (.error .nonFinite) => true
  | .updated (.error (.estimator _)) => true
  | _ => false

/-- The number of updates that returned `Ok(true)`. -/
def trueCalls (est : Ekf E I F) (c : Crypto) (calls : List (Call I F)) : Nat :=
  (Machine.trace (step est c) (new est) calls).countP fun io => io.2.isTrue

/-- The count of the track is the number of updates that returned `Ok(true)` and
    the number of ids in its gate. -/
def Exact (est : Ekf E I F) (c : Crypto) (calls : List (Call I F)) : Prop :=
  (after est c calls).independentUpdates.toNat = trueCalls est c calls ∧
    trueCalls est c calls = (after est c calls).incorporated.card

/-- The filter takes all verified evidence that brings a new id. -/
def TakesAll (est : Ekf E I F) (c : Crypto) (calls : List (Call I F)) : Prop :=
  ∀ pre e post, calls = pre ++ .update e :: post → e.verify c = .ok () →
    ¬ CarriedBy c pre e.observationId → Takes est (after est c pre).ekf e

/-- The id that verified evidence carries. -/
def verifiedId (c : Crypto) (call : Call I F) : Option ObservationId :=
  call.evidence.bind fun e => if e.verify c = .ok () then some e.observationId else none

/-- The ids that verified evidence of the calls carried. -/
def carriedIds (c : Crypto) (calls : List (Call I F)) : Finset ObservationId :=
  (calls.filterMap (verifiedId c)).toFinset

/-- The count moves on by one where an update fused. -/
theorem independentUpdates_step (est : Ekf E I F) (c : Crypto) (track : ImuFusedTrack E)
    (call : Call I F) :
    (step est c track call).1.independentUpdates =
      if (step est c track call).2.isTrue = true then track.independentUpdates + 1
      else track.independentUpdates := by
  cases call with
  | predict dt imu =>
      rcases predict_eq est track dt imu with ⟨ekf, predictSteps, h⟩
      rw [step_predict, h]
      rfl
  | update e =>
      rw [step_update]
      rcases updateFromEvidence_cases est c track e with ⟨err, _, h⟩ | ⟨_, _, h⟩ |
        ⟨err, _, _, _, h⟩ | ⟨state, ekf, err, _, _, _, _, h⟩ | ⟨state, ekf, _, _, _, _, h⟩
      · rw [h]
        rfl
      · rw [h]
        rfl
      · rw [h]
        rfl
      · rw [h]
        rfl
      · rw [h]
        rfl

/-- The gate grows by one where an update marks it. -/
theorem card_incorporated_step (est : Ekf E I F) (c : Crypto) (track : ImuFusedTrack E)
    (call : Call I F) :
    (step est c track call).1.incorporated.card =
      if (step est c track call).2.isMark = true then track.incorporated.card.succ
      else track.incorporated.card := by
  cases call with
  | predict dt imu =>
      rcases predict_eq est track dt imu with ⟨ekf, predictSteps, h⟩
      rw [step_predict, h]
      rfl
  -- The last three ways put the id through the gate, and it is a new one.
  | update e =>
      rw [step_update]
      rcases updateFromEvidence_cases est c track e with ⟨err, _, h⟩ | ⟨_, _, h⟩ |
        ⟨err, _, hid, _, h⟩ | ⟨state, ekf, err, _, hid, _, _, h⟩ | ⟨state, ekf, _, hid, _, _, h⟩
      · rw [h]
        rfl
      · rw [h]
        rfl
      · rw [h]
        exact Finset.card_insert_of_notMem hid
      · rw [h]
        exact Finset.card_insert_of_notMem hid
      · rw [h]
        exact Finset.card_insert_of_notMem hid

/-- An update marks the gate exactly when its evidence verifies and its id is new. -/
theorem isMark_update_iff (est : Ekf E I F) (c : Crypto) (track : ImuFusedTrack E) (e : Evidence) :
    (step est c track (.update e)).2.isMark = true ↔
      e.verify c = .ok () ∧ e.observationId ∉ track.incorporated := by
  rw [step_update]
  rcases updateFromEvidence_cases est c track e with ⟨err, hv, h⟩ | ⟨hv, hid, h⟩ |
    ⟨err, hv, hid, _, h⟩ | ⟨state, ekf, err, hv, hid, _, _, h⟩ | ⟨state, ekf, hv, hid, _, _, h⟩
  · simp only [h, hv, Answer.isMark, Bool.false_eq_true, reduceCtorEq, false_and]
  · simp only [h, hid, Answer.isMark, Bool.false_eq_true, not_true_eq_false, and_false]
  · simp only [h, hv, hid, Answer.isMark, not_false_eq_true, and_self]
  · simp only [h, hv, hid, Answer.isMark, not_false_eq_true, and_self]
  · simp only [h, hv, hid, Answer.isMark, not_false_eq_true, and_self]

/-- An update fuses its evidence when it marks the gate and the filter takes it. -/
theorem isTrue_update_iff (est : Ekf E I F) (c : Crypto) (track : ImuFusedTrack E)
    (e : Evidence) :
    (step est c track (.update e)).2.isTrue = true ↔
      e.verify c = .ok () ∧ e.observationId ∉ track.incorporated ∧ Takes est track.ekf e := by
  rw [Takes, ← answer_fused_iff]
  cases (step est c track (.update e)).2 with
  | predicted r => simp only [Answer.isTrue, Bool.false_eq_true, reduceCtorEq]
  | updated r =>
      rw [Answer.updated.injEq]
      unfold Answer.isTrue
      split
      · rename_i heq
        exact iff_of_true rfl (Answer.updated.inj heq)
      · rename_i hne
        exact iff_of_false Bool.false_ne_true fun heq => hne (congrArg Answer.updated heq)

theorem iterate_add_one (n : Nat) : (fun x : UInt64 => x + 1)^[n] 0 = UInt64.ofNat n := by
  induction n with
  | zero => rfl
  | succ n ih =>
      rw [Function.iterate_succ_apply', ih, UInt64.ofNat_add]
      rfl

/-- The count of the track is the number of updates that fused, as a `u64`. -/
theorem independentUpdates_after (est : Ekf E I F) (c : Crypto) (calls : List (Call I F)) :
    (after est c calls).independentUpdates = UInt64.ofNat (trueCalls est c calls) := by
  have hafter := Machine.reading_after (step est c) (fun track => track.independentUpdates)
    (fun x => x + 1) (fun io => io.2.isTrue) (independentUpdates_step est c) (new est) calls
  rw [after, hafter, trueCalls, ← iterate_add_one]
  rfl

/-- The gate has one id for each update that marked it. -/
theorem card_incorporated_after (est : Ekf E I F) (c : Crypto) (calls : List (Call I F)) :
    (after est c calls).incorporated.card =
      (Machine.trace (step est c) (new est) calls).countP fun io => io.2.isMark := by
  have hafter := Machine.reading_after (step est c) (fun track => track.incorporated.card)
    Nat.succ (fun io => io.2.isMark) (card_incorporated_step est c) (new est) calls
  rw [after, hafter, Nat.succ_iterate]
  exact Nat.zero_add _

theorem incorporated_after (est : Ekf E I F) (c : Crypto) (calls : List (Call I F)) :
    (after est c calls).incorporated = carriedIds c calls := by
  ext id
  rw [mem_incorporated_after, carriedIds, List.mem_toFinset, List.mem_filterMap]
  constructor
  · intro h
    rcases h with ⟨e, he, hv, hid⟩
    exact ⟨.update e, he, (if_pos hv).trans (congrArg some hid)⟩
  · intro h
    rcases h with ⟨call, hcall, hid⟩
    cases call with
    | predict dt imu => exact absurd hid (by simp only [verifiedId, Call.evidence, Option.bind_none,
        reduceCtorEq, not_false_eq_true])
    | update e =>
        rw [verifiedId, Call.evidence, Option.bind_some, Option.ite_none_right_eq_some] at hid
        exact ⟨e, hcall, hid.1, Option.some.inj hid.2⟩

/-- The updates that fuse are as many as the ids in the gate exactly when nothing
    fails after its mark. -/
theorem trueCalls_eq_card_iff (est : Ekf E I F) (c : Crypto) (calls : List (Call I F)) :
    trueCalls est c calls = (after est c calls).incorporated.card ↔ TakesAll est c calls := by
  have himp : ∀ io ∈ Machine.trace (step est c) (new est) calls,
      io.2.isTrue = true → io.2.isMark = true := by
    intro io _ h
    unfold Answer.isTrue at h
    split at h
    · rename_i heq
      rw [heq]
      rfl
    · exact absurd h Bool.false_ne_true
  rw [card_incorporated_after, trueCalls, Machine.countP_eq_countP_iff himp,
    Machine.forall_mem_trace_iff, TakesAll]
  constructor
  -- The gate before a call holds the ids carried until then.
  · intro h pre e post hcalls hv hnew
    have hid := hnew
    rw [← mem_incorporated_after est, after] at hid
    have hmarks := (isMark_update_iff est c _ e).mpr ⟨hv, hid⟩
    exact ((isTrue_update_iff est c _ e).mp (h pre (.update e) post hcalls hmarks)).2.2
  · intro h pre call post hcalls hmarks
    cases call with
    | predict dt imu => exact absurd hmarks Bool.false_ne_true
    | update e =>
        rcases (isMark_update_iff est c _ e).mp hmarks with ⟨hv, hid⟩
        have hnew := hid
        rw [← after, mem_incorporated_after] at hnew
        exact (isTrue_update_iff est c _ e).mpr ⟨hv, hid, h pre e post hcalls hv hnew⟩

/-- The three numbers agree on the runs in which nothing fails after its mark, as
    far as a `u64` can count. -/
theorem exact_iff (est : Ekf E I F) (c : Crypto) (calls : List (Call I F)) :
    Exact est c calls ↔ TakesAll est c calls ∧ (carriedIds c calls).card < 2 ^ 64 := by
  have hcount : (after est c calls).independentUpdates.toNat = trueCalls est c calls ↔
      trueCalls est c calls < 2 ^ 64 := by
    -- The count is kept modulo the size of a `u64`.
    rw [independentUpdates_after, UInt64.toNat_ofNat']
    exact Nat.mod_eq_iff_lt (by decide)
  rw [Exact, hcount, ← incorporated_after est, ← trueCalls_eq_card_iff]
  constructor
  · intro h
    exact ⟨h.2, h.2 ▸ h.1⟩
  · intro h
    exact ⟨h.1 ▸ h.2, h.1⟩

end ImuFusedTrack

/-- When the update counts are exact: in the engine for a subject that nothing was
    counted for, and in the fused track on the runs whose gate has only the ids
    that the filter took, fewer than a `u64` can count. The calls that count and
    the ids in the gate of a subject are equally many when all that marks the gate
    decodes. -/
theorem independentUpdates_exact_iff {E I F : Type} [F64 F] (est : Ekf E I F) (c : Crypto) :
    (∀ run s, BeliefEngine.Exact F c run s ↔ BeliefEngine.CountsNothing c run s) ∧
      (∀ run s, BeliefEngine.trueCalls F c run s = ((BeliefEngine.folded F c run).seen s).card ↔
        BeliefEngine.DecodesAll c run s) ∧
      ∀ calls, ImuFusedTrack.Exact est c calls ↔
        ImuFusedTrack.TakesAll est c calls ∧ (ImuFusedTrack.carriedIds c calls).card < 2 ^ 64 :=
  ⟨BeliefEngine.exact_iff c, BeliefEngine.trueCalls_eq_card_iff c, ImuFusedTrack.exact_iff est c⟩

/-- One honest observation counts six times in the engine, and one signed payload
    that does not decode is in the gate of a fused track that took nothing. -/
theorem not_independentUpdates_exact :
    (¬ ∀ (c : Crypto) (run : List Evidence) (s : SubjectId),
        BeliefEngine.Exact Float c run s) ∧
      ¬ ∀ (est : Ekf Unit Unit Float) (c : Crypto) (calls : List (ImuFusedTrack.Call Unit Float)),
        ImuFusedTrack.Exact est c calls := by
  constructor
  · intro h
    let e := Evidence.minted (Vector.replicate 32 7) ⟨"ac"⟩ (.atRest 5)
    let c := Evidence.ledgerOf [e]
    have hv : e.verify c = .ok () := Evidence.verify_minted _ List.mem_cons_self
    have hnothing := (BeliefEngine.exact_iff c [e] ⟨"ac"⟩).mp (h c [e] ⟨"ac"⟩)
    exact hnothing [] e [] rfl rfl
      ⟨BeliefEngine.introduces_nil hv, Evidence.decodes_minted _ _ _⟩
  · intro h
    let c := Evidence.ledgerOf [Evidence.hollow]
    have hv : Evidence.hollow.verify c = .ok () :=
      Evidence.verify_ledgerOf List.mem_cons_self rfl rfl
    have htakes := ((ImuFusedTrack.exact_iff ImuFusedTrack.still c [.update Evidence.hollow]).mp
      (h ImuFusedTrack.still c [.update Evidence.hollow])).1
    have hnew : ¬ ImuFusedTrack.CarriedBy c ([] : List (ImuFusedTrack.Call Unit Float))
        Evidence.hollow.observationId := by
      intro hcar
      rcases hcar with ⟨e, he, _⟩
      exact List.not_mem_nil he
    rcases htakes [] Evidence.hollow [] rfl hv hnew with ⟨state, hstate, _⟩
    exact Evidence.not_decodes_hollow ⟨state, hstate⟩

end Seven
