import Seven.Belief.Gate
import Seven.Replay.Fingerprint
import Seven.Replay.Parts

/-!
# Equal Futures

How much of the future of a replay its fingerprint fixes. Two states that cover
the same and have the same duplicate gates take the same events and stay that
way. The gates are needed: a fingerprint does not cover them, and an observation
that one gate has seen and the other has not is dropped by the one and counted
by the other.

A fingerprint fixes the covered part once the layout of the hashed bytes is
fixed, so `futures_agree` starts from equal fingerprints, layouts and gates.
`futures_agree_iff` is the converse for the gates: states that cover the same
have equal futures only if their gates are equal.

## Main definitions

* `SameGates`: No subject's gate tells the states apart.

## Theorems

* `sameView_iff`: Covering the same with the same gates.
* `futures_agree`: Fingerprint, layout and gates fix every future.
* `futures_agree_iff`: Equal futures need equal gates.
-/

namespace Seven

namespace GaussianBelief

variable {F : Type} [Binary64 F]

theorem bits_injective : Function.Injective (bits : GaussianBelief F → TrackBits) := by
  rintro ⟨m, v, n⟩ ⟨m', v', n'⟩ h
  rw [bits, bits, TrackBits.mk.injEq] at h
  rw [mk.injEq]
  exact ⟨(Vector.map_inj_right fun _ _ heq => Binary64.toBits_injective heq).mp h.1,
    (Vector.map_inj_right fun _ _ heq => Binary64.toBits_injective heq).mp h.2.1, h.2.2⟩

end GaussianBelief

namespace ReplayEngine

variable {F : Type} [Binary64 F]

/-- No subject's gate tells the states apart. -/
def SameGates (eng eng' : ReplayEngine F) : Prop :=
  ∀ s, eng.beliefs.seen s = eng'.beliefs.seen s

/-- Showing the same payloads, nodes, database, tracks and gates is covering the
    same with the same gates. -/
theorem sameView_iff (eng eng' : ReplayEngine F) :
    Fallible.SameView (view SevenMessage.canonicalPayload) eng eng' ↔
      eng.covered = eng'.covered ∧ SameGates eng eng' := by
  constructor
  · intro h
    refine ⟨Covered.ext ?_ ?_ ?_ ?_, fun s => (View.subject.inj (h (.subject s))).2⟩
    · refine Std.ExtTreeMap.ext_getElem? fun id => ?_
      rw [covered, covered, Std.ExtTreeMap.getElem?_map, Std.ExtTreeMap.getElem?_map]
      exact View.message.inj (h (.message id))
    · exact Std.ExtTreeMap.ext_getElem? fun id => View.node.inj (h (.node id))
    · exact Std.ExtTreeMap.ext_getElem? fun key => View.key.inj (h (.key key))
    · refine Std.ExtTreeMap.ext_getElem? fun s => ?_
      rw [covered, covered, Std.ExtTreeMap.getElem?_map, Std.ExtTreeMap.getElem?_map,
        (View.subject.inj (h (.subject s))).1]
  · rintro ⟨hcov, hgates⟩ p
    have hp := congrArg Covered.payloads hcov
    have ht := congrArg Covered.tracks hcov
    cases p with
    | message id =>
        have hid := congrArg (fun m : Std.ExtTreeMap String Bytes => m[id]?) hp
        simp only [covered, Std.ExtTreeMap.getElem?_map] at hid
        rw [view, view, hid]
    | node id => rw [view, view, show eng.nodesOnline = eng'.nodesOnline from
        congrArg Covered.nodesOnline hcov]
    | key key => rw [view, view, show eng.db = eng'.db from congrArg Covered.db hcov]
    | subject s =>
        have hs := congrArg (fun m : Std.ExtTreeMap SubjectId TrackBits => m[s]?) ht
        simp only [covered, Std.ExtTreeMap.getElem?_map] at hs
        rw [view, view, hgates s, Option.map_injective GaussianBelief.bits_injective hs]

/-- States that cover the same with the same gates take the same events, and
    cover the same with the same gates afterwards. -/
theorem agree_replay_append (c : Crypto) {A B : EventLog F} {eng eng' : ReplayEngine F}
    (hA : replay c A = .ok eng) (hB : replay c B = .ok eng') (hcov : eng.covered = eng'.covered)
    (hgates : SameGates eng eng') (C : List (SevenEvent F)) :
    Fallible.Agree (fun u u' => u.covered = u'.covered ∧ SameGates u u')
      (replay c (A.append C)) (replay c (B.append C)) := by
  have hrun := Fallible.agree_run
    (fun s t i => (footprint_apply SevenMessage.canonicalPayload c).agree_step s t i) 0 0
    ((sameView_iff eng eng').mpr ⟨hcov, hgates⟩) C
  have hleft : ∀ u, replay c (A.append C) = .ok u ↔ Fallible.run (apply c) 0 eng C = .ok u := by
    intro u
    rw [replay_append_eq_ok_iff, hA]
    simp only [Except.ok.injEq, exists_eq_left']
  have hright : ∀ u, replay c (B.append C) = .ok u ↔ Fallible.run (apply c) 0 eng' C = .ok u := by
    intro u
    rw [replay_append_eq_ok_iff, hB]
    simp only [Except.ok.injEq, exists_eq_left']
  exact ((Fallible.agree_congr hleft hright).mpr hrun).mono fun u u' => (sameView_iff u u').mp

/-- Two logs with equal fingerprints, whose hashed bytes have one layout and
    whose states have the same gates, have the same futures: every continuation
    of the one succeeds exactly when it does of the other, and then the
    fingerprints are equal again. -/
theorem futures_agree (c : Crypto) (A B : EventLog F) (eng eng' : ReplayEngine F)
    (hA : replay c A = .ok eng) (hB : replay c B = .ok eng')
    (hideal : c.blake3 eng.hashedBytes = c.blake3 eng'.hashedBytes →
      eng.hashedBytes = eng'.hashedBytes)
    (hfingerprint : eng.stateFingerprint c = eng'.stateFingerprint c)
    (hlayout : eng.covered.layout = eng'.covered.layout) (hgates : SameGates eng eng')
    (C : List (SevenEvent F)) :
    ((∃ u, replay c (A.append C) = .ok u) ↔ ∃ u', replay c (B.append C) = .ok u') ∧
      ∀ u u', replay c (A.append C) = .ok u → replay c (B.append C) = .ok u' →
        u.stateFingerprint c = u'.stateFingerprint c := by
  have hcov := (stateFingerprint_eq_iff hideal hlayout).mp hfingerprint
  have hagree := agree_replay_append c hA hB hcov hgates C
  rw [Fallible.agree_iff] at hagree
  refine ⟨hagree.1, fun u u' hu hu' => ?_⟩
  rw [stateFingerprint, stateFingerprint, hashedBytes_eq, hashedBytes_eq, (hagree.2 u u' hu hu').1]

/-- Two pieces of state in either order of writing, then a read. -/
theorem futures_agree_reordered :
    let c := Crypto.ledger []
    let online : SevenEvent Float := .nodeOnline "n"
    let write : SevenEvent Float := .dbWrite "k" (Vector.replicate 32 1)
    let read : SevenEvent Float := .dbRead "k" (Vector.replicate 32 1)
    (∃ u, replay c (EventLog.append ⟨[online, write], 0⟩ [read]) = .ok u) ↔
      ∃ u', replay c (EventLog.append ⟨[write, online], 0⟩ [read]) = .ok u' := by
  intro c online write read
  exact (futures_agree c ⟨[online, write], 0⟩ ⟨[write, online], 0⟩ _ _
    ((replay_eq_ok_iff c _ _).mpr rfl) ((replay_eq_ok_iff c _ _).mpr rfl) (fun _ => rfl) rfl rfl
    (fun _ => rfl) [read]).1

/-- The evidence observed along a list of events. -/
def observed (events : List (SevenEvent F)) : List Evidence :=
  events.filterMap fun
    | .observation e => some e
    | _ => none

/-- What the gates hold after a replay was observed, verified and decodes. -/
theorem gate_replay {c : Crypto} {log : EventLog F} {eng : ReplayEngine F}
    (h : replay c log = .ok eng) {s : SubjectId} {id : ObservationId}
    (hid : id ∈ eng.beliefs.seen s) :
    ∃ e ∈ observed log.events, e.verify c = .ok () ∧ e.subject = s ∧ e.observationId = id ∧
      e.Decodes := by
  rw [replay_eq_ok_iff] at h
  -- Induction on the log: only an observation of the subject changes its gate.
  refine Fallible.run_induction (apply c) (s := new)
    (P := fun events eng => ∀ id ∈ eng.beliefs.seen s, ∃ e ∈ observed events,
      e.verify c = .ok () ∧ e.subject = s ∧ e.observationId = id ∧ e.Decodes) ?_ ?_ h id hid
  · intro id hid
    exact absurd hid (Finset.notMem_empty id)
  · intro events event t t' _ ih hstep id hid
    have hold : id ∈ t.beliefs.seen s → ∃ e ∈ observed (events ++ [event]),
        e.verify c = .ok () ∧ e.subject = s ∧ e.observationId = id ∧ e.Decodes := by
      intro hid
      rcases ih id hid with ⟨e, he, hand⟩
      exact ⟨e, by rw [observed, List.filterMap_append]; exact List.mem_append_left _ he, hand⟩
    rcases (mem_seen_apply hstep s id).mp hid with hid | ⟨e, rfl, rfl, rfl⟩
    · exact hold hid
    · rcases (apply_observation_eq_ok_iff c t t' e).mp hstep with ⟨hok, _⟩
      rcases (BeliefEngine.exists_ok_incorporate_iff c t.beliefs e).mp hok with ⟨hv, hd | hid⟩
      · refine ⟨e, ?_, hv, rfl, rfl, hd⟩
        rw [observed, List.filterMap_append]
        exact List.mem_append_right _ (List.mem_singleton_self e)
      -- A duplicate was let through before.
      · exact hold hid

/-- An observation that one gate has seen and the other has not tells states
    apart that cover the same. -/
theorem not_agree_of_gate {c : Crypto} {A B : EventLog F} {eng eng' : ReplayEngine F}
    (hA : replay c A = .ok eng) (hB : replay c B = .ok eng') (hcov : eng.covered = eng'.covered)
    {s : SubjectId} {id : ObservationId} (hid : id ∈ eng.beliefs.seen s)
    (hid' : id ∉ eng'.beliefs.seen s) :
    ∃ e u u', replay c (A.append [.observation e]) = .ok u ∧
      replay c (B.append [.observation e]) = .ok u' ∧ u.covered ≠ u'.covered := by
  rcases gate_replay hA hid with ⟨e, _, hv, rfl, rfl, state, hd⟩
  have hdup := BeliefEngine.incorporate_of_mem hv hid
  have hnew := BeliefEngine.incorporate_of_decodes hv hid' hd
  have hstep : ∀ (log : EventLog F) (t t' : ReplayEngine F), replay c log = .ok t →
      apply c t (.observation e) = .ok t' → replay c (log.append [.observation e]) = .ok t' := by
    intro log t t' hlog happly
    rw [replay_append_eq_ok_iff]
    exact ⟨t, hlog, by rw [Fallible.run_cons_ok _ happly, Fallible.run_nil]⟩
  refine ⟨e, eng, _, hstep A eng eng hA (apply_observation_of_ok hdup),
    hstep B eng' _ hB (apply_observation_of_ok hnew), ?_⟩
  intro heq
  -- The one track is as it was, the other has six more updates.
  have htracks := congrArg (fun x : Covered => x.tracks[e.subject]?) (hcov.symm.trans heq)
  simp only [covered, Std.ExtTreeMap.getElem?_map, BeliefEngine.tracks_absorb_mark, if_true,
    Option.map_some] at htracks
  cases ht : eng'.beliefs.tracks[e.subject]? with
  | none =>
      rw [ht] at htracks
      exact absurd htracks (by simp only [Option.map_none, reduceCtorEq, not_false_eq_true])
  | some track =>
      rw [ht, Option.map_some, Option.some.injEq, Option.getD_some] at htracks
      have hcount := congrArg TrackBits.independentUpdates htracks
      simp only [GaussianBelief.bits, GaussianBelief.independentUpdates_fuse] at hcount
      exact absurd (UInt64.left_eq_add.mp hcount) (by decide)

/-- The state after one observation that counts. -/
def observedOnce (e : Evidence) (state : CanonicalState) : ReplayEngine F :=
  { (new : ReplayEngine F) with beliefs := (BeliefEngine.new.mark e).absorb e state }

theorem replay_observation (c : Crypto) {e : Evidence} {state : CanonicalState}
    (hv : e.verify c = .ok ()) (hd : CanonicalState.fromCanonicalBytes e.payload = .ok state) :
    replay c ⟨[.observation e], 0⟩ = .ok (observedOnce e state : ReplayEngine F) := by
  have hinc : (BeliefEngine.new : BeliefEngine F).incorporate c e = _ :=
    BeliefEngine.incorporate_of_decodes hv (by
      rw [BeliefEngine.seen_new]
      exact Finset.notMem_empty e.observationId) hd
  rw [replay_eq_ok_iff, Fallible.run_cons_ok _ (apply_observation_of_ok hinc), Fallible.run_nil]
  rfl

/-- The measurements at rest do not depend on the time. -/
theorem measurements_atRest (t t' : Int64) :
    (measurements (.atRest t) : Vector F 6) = measurements (.atRest t') :=
  rfl

/-- Observations of one subject with the same measurements leave the same bytes. -/
theorem hashedBytes_observedOnce {e e' : Evidence} {state state' : CanonicalState}
    (hs : e.subject = e'.subject)
    (hm : (measurements state : Vector F 6) = measurements state') :
    (observedOnce e state : ReplayEngine F).hashedBytes =
      (observedOnce e' state' : ReplayEngine F).hashedBytes := by
  have htracks : (observedOnce e state : ReplayEngine F).beliefs.tracks =
      (observedOnce e' state' : ReplayEngine F).beliefs.tracks := by
    rw [observedOnce, observedOnce, BeliefEngine.absorb, BeliefEngine.absorb, hm, hs]
    rfl
  rw [hashedBytes, hashedBytes, htracks]
  rfl

/-- Evidence with the id of one observation that does not decode is dropped after
    it, and fails after another observation. -/
theorem replay_forged (c : Crypto) {e e' forged : Evidence} {state state' : CanonicalState}
    (hv : e.verify c = .ok ()) (hd : CanonicalState.fromCanonicalBytes e.payload = .ok state)
    (hv' : e'.verify c = .ok ()) (hd' : CanonicalState.fromCanonicalBytes e'.payload = .ok state')
    (hvf : forged.verify c = .ok ()) (hdf : ¬ forged.Decodes) (hs : e.subject = forged.subject)
    (hs' : e'.subject = forged.subject) (hid : e.observationId = forged.observationId)
    (hid' : e'.observationId ≠ forged.observationId) :
    (∃ u : ReplayEngine F, replay c (EventLog.append ⟨[.observation e], 0⟩ [.observation forged]) =
        .ok u) ∧
      ¬ ∃ u : ReplayEngine F, replay c
        (EventLog.append ⟨[.observation e'], 0⟩ [.observation forged]) = .ok u := by
  have hseen : ∀ (x : Evidence) (st : CanonicalState), x.subject = forged.subject →
      (observedOnce x st : ReplayEngine F).beliefs.seen forged.subject =
        insert x.observationId ∅ := by
    intro x st hx
    rw [observedOnce, BeliefEngine.seen_absorb, BeliefEngine.seen_mark, if_pos hx,
      BeliefEngine.seen_new]
  constructor
  · have hmem : forged.observationId ∈
        (observedOnce e state : ReplayEngine F).beliefs.seen forged.subject := by
      rw [hseen e state hs, hid]
      exact Finset.mem_insert_self _ _
    refine ⟨observedOnce e state, (replay_append_eq_ok_iff c _ _ _).mpr
      ⟨_, replay_observation c hv hd, ?_⟩⟩
    rw [Fallible.run_cons_ok _
      (apply_observation_of_ok (BeliefEngine.incorporate_of_mem hvf hmem)), Fallible.run_nil]
  · intro h
    rcases h with ⟨u, hu⟩
    have hmem : forged.observationId ∉
        (observedOnce e' state' : ReplayEngine F).beliefs.seen forged.subject := by
      rw [hseen e' state' hs', Finset.mem_insert]
      exact not_or.mpr ⟨hid'.symm, Finset.notMem_empty _⟩
    rcases (replay_append_eq_ok_iff c _ _ _).mp hu with ⟨mid, hmid, hrun⟩
    rw [replay_observation c hv' hd', Except.ok.injEq] at hmid
    rcases (Fallible.run_cons_eq_ok_iff _ _ _ _ _ _).mp hrun with ⟨t, ht, _⟩
    rcases ((apply_observation_eq_ok_iff c mid t forged).mp ht).1 with ⟨b, hb⟩
    rw [← hmid] at hb
    -- A payload that does not decode is an error here.
    cases hdec : CanonicalState.fromCanonicalBytes forged.payload with
    | ok st => exact hdf ⟨st, hdec⟩
    | error err =>
        rw [BeliefEngine.incorporate_of_undecodable hvf hmem hdec] at hb
        exact absurd hb (by simp only [reduceCtorEq, not_false_eq_true])

/-- Two observations at one place leave one track and different gates. A signed
    payload that does not decode, under the id of the first of them, is dropped
    after the first and fails after the second. -/
theorem not_futures_agree :
    ¬ ∀ (c : Crypto) (A B : EventLog Float) (C : List (SevenEvent Float))
      (eng eng' : ReplayEngine Float), replay c A = .ok eng → replay c B = .ok eng' →
      CollisionFree c (observed (A.events ++ B.events ++ C)) →
      (c.blake3 eng.hashedBytes = c.blake3 eng'.hashedBytes →
        eng.hashedBytes = eng'.hashedBytes) →
      eng.stateFingerprint c = eng'.stateFingerprint c →
      ((∃ u, replay c (A.append C) = .ok u) ↔ ∃ u', replay c (B.append C) = .ok u') ∧
        ∀ u u', replay c (A.append C) = .ok u → replay c (B.append C) = .ok u' →
          u.stateFingerprint c = u'.stateFingerprint c := by
  intro h
  let e := Evidence.minted (Vector.replicate 32 7) ⟨"ac"⟩ (.atRest 5)
  let e' := Evidence.minted (Vector.replicate 32 7) ⟨"ac"⟩ (.atRest 6)
  let forged : Evidence := { Evidence.hollow with observationId := e.observationId }
  let c := Evidence.ledgerOf [e, e', forged]
  have hv : e.verify c = .ok () := Evidence.verify_ledgerOf List.mem_cons_self rfl rfl
  have hv' : e'.verify c = .ok () :=
    Evidence.verify_ledgerOf (List.mem_cons_of_mem _ List.mem_cons_self) rfl rfl
  have hvf : forged.verify c = .ok () :=
    Evidence.verify_ledgerOf
      (List.mem_cons_of_mem _ (List.mem_cons_of_mem _ List.mem_cons_self)) rfl rfl
  have hd := Evidence.fromCanonicalBytes_minted (Vector.replicate 32 7) ⟨"ac"⟩ (.atRest 5)
  have hd' := Evidence.fromCanonicalBytes_minted (Vector.replicate 32 7) ⟨"ac"⟩ (.atRest 6)
  have hs : e.subject = ⟨"ac"⟩ := rfl
  have hs' : e'.subject = ⟨"ac"⟩ := rfl
  have hbytes : (observedOnce e (.atRest 5) : ReplayEngine Float).hashedBytes =
      (observedOnce e' (.atRest 6) : ReplayEngine Float).hashedBytes :=
    hashedBytes_observedOnce (hs.trans hs'.symm) (measurements_atRest 5 6)
  have hfingerprint : (observedOnce e (.atRest 5) : ReplayEngine Float).stateFingerprint c =
      (observedOnce e' (.atRest 6) : ReplayEngine Float).stateFingerprint c := by
    rw [stateFingerprint, stateFingerprint, hbytes]
  have hfork := replay_forged (F := Float) c hv hd hv' hd' hvf Evidence.not_decodes_hollow hs hs'
    rfl (by decide)
  -- The two payloads differ in the time, and the third is empty.
  have hfree : CollisionFree c [e, e', forged] := by
    refine .of_pairwise (List.pairwise_cons.mpr ⟨?_, List.pairwise_pair.mpr (by decide)⟩)
    exact List.forall_mem_cons.mpr ⟨by decide, List.forall_mem_singleton.mpr (by decide)⟩
  exact hfork.2 ((h c ⟨[.observation e], 0⟩ ⟨[.observation e'], 0⟩ [.observation forged] _ _
    (replay_observation c hv hd) (replay_observation c hv' hd') hfree (fun _ => hbytes)
    hfingerprint).1.mp hfork.1)

/-- States that cover the same have the same futures exactly when their gates are
    the same. -/
theorem futures_agree_iff (c : Crypto) (A B : EventLog F) (eng eng' : ReplayEngine F)
    (hA : replay c A = .ok eng) (hB : replay c B = .ok eng') (hcov : eng.covered = eng'.covered) :
    (∀ C, Fallible.Agree (fun u u' => u.covered = u'.covered) (replay c (A.append C))
      (replay c (B.append C))) ↔ SameGates eng eng' := by
  constructor
  · intro h s
    ext id
    constructor
    · intro hid
      by_contra hid'
      rcases not_agree_of_gate hA hB hcov hid hid' with ⟨e, u, u', hu, hu', hne⟩
      exact hne ((Fallible.agree_iff.mp (h _)).2 u u' hu hu')
    · intro hid'
      by_contra hid
      rcases not_agree_of_gate hB hA hcov.symm hid' hid with ⟨e, u', u, hu', hu, hne⟩
      exact hne ((Fallible.agree_iff.mp (h _)).2 u u' hu hu').symm
  · intro hgates C
    exact (agree_replay_append c hA hB hcov hgates C).mono fun _ _ => And.left

end ReplayEngine

end Seven
