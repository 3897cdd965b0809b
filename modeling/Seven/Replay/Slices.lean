import Seven.Library.Slices
import Seven.Replay.Accepts

/-!
# Slices of a Log

A log records what happened to many messages, nodes, keys and subjects, one
event after the other. Taken apart by what the events are about, it falls into
slices, and replay works on the slices: a log replays exactly when all of its
slices do, and what it leaves of a message, a node, a key or a subject is what
the slice alone leaves of it (`replay_iff_slices`).

The conflict bookkeeping is part of this. The list of conflicts is one list for
all subjects, but the conflicts of one subject, in their order, and its previous
evidence are decided by the observations of this subject. So two logs with the
same slices, however they were interleaved, leave the same state but for the
order in which conflicts of different subjects stand in the list
(`replay_same_slices`).

## Main definitions

* `BeliefEngine.conflictsOf`: The conflicts of one subject.
* `ReplayEngine.wholeView`: What is seen at a part, conflicts included.
* `EventLog.slice`: The events about one part.

## Theorems

* `footprint_wholeView`: Applying an event is confined to its part.
* `replay_iff_slices`: A log and its slices.
* `replay_same_slices`: Logs with the same slices.
-/

namespace Seven

namespace BeliefEngine

variable {F : Type}

/-- The conflicts of one subject. -/
def conflictsOf (eng : BeliefEngine F) (s : SubjectId) : List (SubjectId × Evidence × Evidence) :=
  eng.conflicts.filter fun conflict => conflict.1 = s

variable [F64 F]

/-- The pair that is kept of an evidence, given the track and the evidence of its
    subject before it. -/
def flagged (track : Option (GaussianBelief F)) (prev : Option Evidence) (e : Evidence)
    (state : CanonicalState) : List (SubjectId × Evidence × Evidence) :=
  match track.any fun track => track.conflicts (measurements state), prev with
  | true, some prev => [(e.subject, prev, e)]
  | _, _ => []

theorem conflicts_absorb_mark (eng : BeliefEngine F) (e : Evidence) (state : CanonicalState) :
    ((eng.mark e).absorb e state).conflicts =
      eng.conflicts ++ flagged eng.tracks[e.subject]? eng.lastEvidence[e.subject]? e state := by
  unfold absorb mark flagged
  cases eng.tracks[e.subject]?.any fun track => track.conflicts (measurements state) with
  | false => exact (List.append_nil _).symm
  | true =>
      cases eng.lastEvidence[e.subject]? with
      | none => exact (List.append_nil _).symm
      | some prev => rfl

/-- A pair is kept under its subject. -/
theorem filter_flagged (track : Option (GaussianBelief F)) (prev : Option Evidence) (e : Evidence)
    (state : CanonicalState) (s : SubjectId) :
    (flagged track prev e state).filter (fun conflict => conflict.1 = s) =
      if e.subject = s then flagged track prev e state else [] := by
  unfold flagged
  split
  · simp only [List.filter_cons, decide_eq_true_eq, List.filter_nil]
  · rw [List.filter_nil, ite_self]

theorem conflictsOf_absorb_mark (eng : BeliefEngine F) (e : Evidence) (state : CanonicalState)
    (s : SubjectId) :
    ((eng.mark e).absorb e state).conflictsOf s =
      eng.conflictsOf s ++ if e.subject = s then
        flagged eng.tracks[e.subject]? eng.lastEvidence[e.subject]? e state else [] := by
  rw [conflictsOf, conflicts_absorb_mark, List.filter_append, filter_flagged, ← conflictsOf]

theorem lastEvidence_absorb_mark (eng : BeliefEngine F) (e : Evidence) (state : CanonicalState)
    (s : SubjectId) :
    ((eng.mark e).absorb e state).lastEvidence[s]? =
      if e.subject = s then some e else eng.lastEvidence[s]? := by
  unfold absorb mark
  by_cases hs : e.subject = s
  · rw [if_pos hs, hs, Std.ExtTreeMap.getElem?_insert_self]
  · rw [if_neg hs, Maps.getElem?_insert_of_ne _ _ hs]

/-- A call does not touch the conflicts and the previous evidence of other
    subjects. -/
theorem memory_incorporate_of_ne (c : Crypto) (eng : BeliefEngine F) (e : Evidence) {s : SubjectId}
    (hs : e.subject ≠ s) :
    (eng.incorporate c e).1.conflictsOf s = eng.conflictsOf s ∧
      (eng.incorporate c e).1.lastEvidence[s]? = eng.lastEvidence[s]? := by
  rcases incorporate_counted_cases c eng e with ⟨_, _, hconflicts, hlast⟩ | ⟨state, _, h⟩
  · rw [conflictsOf, hconflicts, hlast]
    exact ⟨rfl, rfl⟩
  · rw [h, conflictsOf_absorb_mark, lastEvidence_absorb_mark, if_neg hs, if_neg hs, List.append_nil]
    exact ⟨rfl, rfl⟩

/-- What a call makes of the conflicts and the previous evidence of its subject
    depends on the subject's entries alone. -/
theorem memory_incorporate_congr (c : Crypto) {eng eng' : BeliefEngine F} {e : Evidence}
    (htrack : eng.tracks[e.subject]? = eng'.tracks[e.subject]?)
    (hseen : eng.seen e.subject = eng'.seen e.subject)
    (hconflicts : eng.conflictsOf e.subject = eng'.conflictsOf e.subject)
    (hlast : eng.lastEvidence[e.subject]? = eng'.lastEvidence[e.subject]?) :
    (eng.incorporate c e).1.conflictsOf e.subject =
        (eng'.incorporate c e).1.conflictsOf e.subject ∧
      (eng.incorporate c e).1.lastEvidence[e.subject]? =
        (eng'.incorporate c e).1.lastEvidence[e.subject]? := by
  have hanswer := (incorporate_congr c htrack hseen).1
  rcases incorporate_counted_cases c eng e with ⟨hne, _, hkept, hsame⟩ | ⟨state, hd, h⟩
  · rcases incorporate_counted_cases c eng' e with ⟨_, _, hkept', hsame'⟩ | ⟨state', _, h'⟩
    · rw [conflictsOf, conflictsOf, hkept, hkept', hsame, hsame']
      exact ⟨hconflicts, hlast⟩
    · rw [hanswer, h'] at hne
      exact absurd rfl hne
  · rcases incorporate_counted_cases c eng' e with ⟨hne', _⟩ | ⟨state', hd', h'⟩
    · rw [← hanswer, h] at hne'
      exact absurd rfl hne'
    · rw [hd, Except.ok.injEq] at hd'
      rw [h, h', conflictsOf_absorb_mark, conflictsOf_absorb_mark, lastEvidence_absorb_mark,
        lastEvidence_absorb_mark, htrack, hconflicts, hlast, hd']
      exact ⟨rfl, rfl⟩

end BeliefEngine

/-- The events about one part. -/
def EventLog.slice {F : Type} (log : EventLog F) (p : Part) : EventLog F :=
  { log with events := Fallible.slice SevenEvent.part p log.events }

namespace ReplayEngine

variable {F : Type}

/-- What is remembered of a subject beside its track and gate. -/
def memory (eng : ReplayEngine F) :
    Part → Option (List (SubjectId × Evidence × Evidence) × Option Evidence)
  | .subject s => some (eng.beliefs.conflictsOf s, eng.beliefs.lastEvidence[s]?)
  | _ => none

/-- What is seen of a state at one part, conflicts included. -/
def wholeView (eng : ReplayEngine F) (p : Part) :
    View SevenMessage F × Option (List (SubjectId × Evidence × Evidence) × Option Evidence) :=
  (eng.view id p, eng.memory p)

/-- States that show the same everywhere hold the same but for the order of
    conflicts of different subjects. -/
theorem eq_of_sameWholeView {eng eng' : ReplayEngine F}
    (h : Fallible.SameView wholeView eng eng') :
    Fallible.SameView (view id) eng eng' ∧
      eng.beliefs.lastEvidence = eng'.beliefs.lastEvidence ∧
      ∀ s, eng.beliefs.conflictsOf s = eng'.beliefs.conflictsOf s := by
  have hmemory : ∀ s, (eng.beliefs.conflictsOf s, eng.beliefs.lastEvidence[s]?) =
      (eng'.beliefs.conflictsOf s, eng'.beliefs.lastEvidence[s]?) :=
    fun s => Option.some.inj (Prod.mk.inj (h (.subject s))).2
  exact ⟨fun p => (Prod.mk.inj (h p)).1,
    Std.ExtTreeMap.ext_getElem? fun s => (Prod.mk.inj (hmemory s)).2,
    fun s => (Prod.mk.inj (hmemory s)).1⟩

section Apply

variable [F64 F]

/-- Only an observation changes the beliefs. -/
theorem beliefs_apply_of_not_observation (c : Crypto) {eng eng' : ReplayEngine F}
    {event : SevenEvent F} (h : apply c eng event = .ok eng') (hnot : ∀ e, event ≠ .observation e) :
    eng'.beliefs = eng.beliefs := by
  cases event with
  | observation e => exact absurd rfl (hnot e)
  | dbRead key valueHash => rw [((apply_dbRead_eq_ok_iff c eng eng' key valueHash).mp h).2]
  | _ =>
      have hbeliefs := congrArg ReplayEngine.beliefs (Except.ok.inj h)
      exact hbeliefs.symm

/-- So only an observation changes what is remembered of a subject. -/
theorem memory_apply_of_not_observation (c : Crypto) {eng eng' : ReplayEngine F}
    {event : SevenEvent F} (h : apply c eng event = .ok eng') (hnot : ∀ e, event ≠ .observation e)
    (p : Part) : eng'.memory p = eng.memory p := by
  cases p with
  | subject s => rw [memory, memory, beliefs_apply_of_not_observation c h hnot]
  | _ => rfl

theorem memory_apply_of_ne (c : Crypto) {eng eng' : ReplayEngine F} {event : SevenEvent F}
    {p : Part} (h : apply c eng event = .ok eng') (hp : event.part ≠ some p) :
    eng'.memory p = eng.memory p := by
  cases event with
  | observation e =>
      rw [((apply_observation_eq_ok_iff c eng eng' e).mp h).2]
      cases p with
      | subject s =>
          have hne : e.subject ≠ s := SevenEvent.ne_of_part_ne .subject rfl hp rfl
          have hsame := BeliefEngine.memory_incorporate_of_ne c eng.beliefs e hne
          rw [memory, memory, hsame.1, hsame.2]
      | _ => rfl
  | _ =>
      refine memory_apply_of_not_observation c h ?_ p
      intro e
      simp only [ne_eq, reduceCtorEq, not_false_eq_true]

theorem memory_apply_congr (c : Crypto) {eng eng' s t : ReplayEngine F} {event : SevenEvent F}
    (h : ∀ p, event.part = some p → eng.wholeView p = eng'.wholeView p)
    (hs : apply c eng event = .ok s) (ht : apply c eng' event = .ok t) (p : Part)
    (hp : event.part = some p) : s.memory p = t.memory p := by
  cases event with
  | observation e =>
      rw [SevenEvent.part, Option.some.injEq] at hp
      have hwhole := Prod.mk.inj (h (.subject e.subject) rfl)
      have hview := View.subject.inj hwhole.1
      have hmem := Prod.mk.inj (Option.some.inj hwhole.2)
      have hcongr := BeliefEngine.memory_incorporate_congr c hview.1 hview.2 hmem.1 hmem.2
      rw [((apply_observation_eq_ok_iff c eng s e).mp hs).2,
        ((apply_observation_eq_ok_iff c eng' t e).mp ht).2, ← hp, memory, memory, hcongr.1,
        hcongr.2]
  | _ =>
      have hsame := (Prod.mk.inj (h p hp)).2
      rwa [← memory_apply_of_not_observation c hs (by simp only [ne_eq, reduceCtorEq,
          not_false_eq_true, implies_true]) p,
        ← memory_apply_of_not_observation c ht (by simp only [ne_eq, reduceCtorEq,
          not_false_eq_true, implies_true]) p] at hsame

/-- Applying an event is confined to its part, conflicts included. -/
theorem footprint_wholeView (c : Crypto) :
    Fallible.Footprint (apply (F := F) c) SevenEvent.part wholeView where
  frame h hp := Prod.ext (view_apply_of_ne id c h hp) (memory_apply_of_ne c h hp)
  locality {eng eng' event} h := by
    have hsame : ∀ p, event.part = some p → eng.view id p = eng'.view id p :=
      fun p hp => (Prod.mk.inj (h p hp)).1
    have hlocal := Fallible.agree_iff.mp (view_apply_congr id c hsame)
    refine Fallible.agree_iff.mpr ⟨hlocal.1, fun s t hs ht p hp => ?_⟩
    exact Prod.ext (hlocal.2 s t hs ht p hp) (memory_apply_congr c h hs ht p hp)

/-- An event about no part applies in every state. -/
theorem exists_apply_of_part_eq_none (c : Crypto) (event : SevenEvent F) (eng : ReplayEngine F)
    (h : event.part = none) : ∃ eng', apply c eng event = .ok eng' := by
  cases event with
  | messageReceived m => exact ⟨eng, rfl⟩
  | transportDuplicate messageId => exact ⟨eng, rfl⟩
  | transportReorder fromIndex toIndex => exact ⟨eng, rfl⟩
  | beliefUpdate subject posterior => exact ⟨eng, rfl⟩
  | _ => exact absurd h (by simp only [SevenEvent.part, reduceCtorEq, not_false_eq_true])

end Apply

variable [Binary64 F]

/-- A log replays exactly when each of its slices does: the events about one
    message, one node, one key or one subject, alone and in their order. What the
    log leaves there, with the gate, the previous evidence and the conflicts of a
    subject, is what the slice leaves. -/
theorem replay_iff_slices (c : Crypto) (log : EventLog F) :
    ((∃ eng, replay c log = .ok eng) ↔ ∀ p, ∃ part, replay c (log.slice p) = .ok part) ∧
      ∀ eng, replay c log = .ok eng → ∀ p part, replay c (log.slice p) = .ok part →
        part.wholeView p = eng.wholeView p := by
  simp only [replay_eq_ok_iff, EventLog.slice]
  exact ⟨(footprint_wholeView c).run_iff_slices (exists_apply_of_part_eq_none c) log.events,
    fun eng heng p part hpart => (footprint_wholeView c).view_eq_of_slice heng hpart⟩

/-- Two logs with the same slices, interleaved in any two ways and with any
    events that replay ignores between them, replay or fail together. They leave
    the same messages, nodes, database, tracks, gates and previous evidence, each
    subject's conflicts in the same order, and one fingerprint. -/
theorem replay_same_slices (c : Crypto) (A B : EventLog F)
    (hslices : ∀ p, (A.slice p).events = (B.slice p).events) :
    ((∃ eng, replay c A = .ok eng) ↔ ∃ eng', replay c B = .ok eng') ∧
      ∀ eng eng', replay c A = .ok eng → replay c B = .ok eng' →
        eng.seenMessages = eng'.seenMessages ∧ eng.nodesOnline = eng'.nodesOnline ∧
          eng.db = eng'.db ∧ eng.beliefs.tracks = eng'.beliefs.tracks ∧
          (∀ s, eng.beliefs.seen s = eng'.beliefs.seen s) ∧
          eng.beliefs.lastEvidence = eng'.beliefs.lastEvidence ∧
          (∀ s, eng.beliefs.conflictsOf s = eng'.beliefs.conflictsOf s) ∧
          eng.stateFingerprint c = eng'.stateFingerprint c := by
  have hagree := (footprint_wholeView c).agree_run_of_slices (exists_apply_of_part_eq_none c)
    (s := new) hslices
  simp only [replay_eq_ok_iff]
  rw [Fallible.agree_iff] at hagree
  refine ⟨hagree.1, fun eng eng' heng heng' => ?_⟩
  rcases eq_of_sameWholeView (hagree.2 eng eng' heng heng') with ⟨hview, hlast, hconflicts⟩
  rcases maps_eq_of_sameView hview with ⟨hm, hn, hd, ht⟩
  refine ⟨hm, hn, hd, ht, fun s => (View.subject.inj (hview (.subject s))).2, hlast, hconflicts, ?_⟩
  rw [stateFingerprint, stateFingerprint, hashedBytes, hashedBytes, hm, hn, hd, ht]

/-- Two keys written in turns, and one after the other. -/
theorem replay_same_slices_keys :
    let write (key : String) (v : UInt8) : SevenEvent Float := .dbWrite key (Vector.replicate 32 v)
    (∃ eng, replay (Crypto.ledger []) ⟨[write "j" 1, write "k" 2, write "j" 3], 0⟩ = .ok eng) ↔
      ∃ eng', replay (Crypto.ledger []) ⟨[write "j" 1, write "j" 3, write "k" 2], 0⟩ =
        .ok eng' := by
  intro write
  refine (replay_same_slices (Crypto.ledger []) ⟨[write "j" 1, write "k" 2, write "j" 3], 0⟩
    ⟨[write "j" 1, write "j" 3, write "k" 2], 0⟩ ?_).1
  intro p
  unfold EventLog.slice Fallible.slice
  by_cases hj : p = .key "j"
  · rw [hj]
    rfl
  · have hnot : ∀ v, (write "j" v).part ≠ some p := fun v h => hj (Option.some.inj h).symm
    simp only [List.filter_cons, hnot, decide_false, Bool.false_eq_true, if_false]

end ReplayEngine

end Seven
