import Seven.Replay.Accepts
import Seven.Replay.Futures

/-!
# The State a Log Leaves

What a log means. The state after a replay can be read off the log without
executing it: the beliefs are what the observed evidence makes of a new engine,
a message is the one last sent under its id unless it was lost since, a node is
as it was last reported, and a key holds the hash last written to it
(`StateAfter`). A log replays to a state exactly when the log is well formed and
the state is this one (`replay_eq_ok_iff_stateAfter`).

Six kinds of events say something here. The others are checked or ignored, and a
log without them leaves the same state, conflicts included
(`replay_effective_iff`).

## Main definitions

* `messageSaid`, `livenessSaid`, `hashSaid`, `latest`: What an event says about one
  entry, and what was said last.
* `StateAfter`: The state that a list of events means.
* `SevenEvent.isEffective`, `EventLog.effective`: The events that say something.

## Theorems

* `stateAfter_run`: A pass ends in the state the events mean.
* `replay_eq_ok_iff_stateAfter`: Replay by what the log records.
* `replay_effective_iff`: Replay without reads and audit entries.
-/

namespace Seven

variable {F : Type}

/-- What an event says about the message under an id: it is there, or it is not. -/
def messageSaid (id : String) : SevenEvent F → Option (Option SevenMessage)
  | .messageSent envelope => if envelope.id = id then some (some envelope) else none
  | .transportLoss messageId => if messageId = id then some none else none
  | _ => none

/-- What an event says about a node. -/
def livenessSaid (id : String) : SevenEvent F → Option Bool
  | .nodeOnline nodeId => if nodeId = id then some true else none
  | .nodeOffline nodeId => if nodeId = id then some false else none
  | _ => none

/-- What an event says about a database key. -/
def hashSaid (key : String) : SevenEvent F → Option Bytes32
  | .dbWrite k valueHash => if k = key then some valueHash else none
  | _ => none

/-- What was said last. -/
def latest {β : Type} (said : SevenEvent F → Option β) (events : List (SevenEvent F)) :
    Option β :=
  events.reverse.findSome? said

/-- The event may change the state. -/
def SevenEvent.isEffective : SevenEvent F → Bool
  | .observation _ => true
  | .messageSent _ => true
  | .transportLoss _ => true
  | .nodeOnline _ => true
  | .nodeOffline _ => true
  | .dbWrite _ _ => true
  | _ => false

/-- The log without reads and audit entries. -/
def EventLog.effective (log : EventLog F) : EventLog F :=
  { log with events := log.events.filter SevenEvent.isEffective }

/-- One event later: what it says, or what was said before. -/
theorem latest_concat {β : Type} (said : SevenEvent F → Option β) (events : List (SevenEvent F))
    (event : SevenEvent F) :
    latest said (events ++ [event]) = (said event).or (latest said events) := by
  rw [latest, List.reverse_concat, List.findSome?_cons]
  cases said event with
  | none => rfl
  | some b => rfl

/-- Every database read comes after a write to its key. -/
def ReadsWritten (events : List (SevenEvent F)) : Prop :=
  ∀ pre key valueHash post, events = pre ++ .dbRead key valueHash :: post → Written pre key

theorem ReadsWritten.of_append {events later : List (SevenEvent F)}
    (h : ReadsWritten (events ++ later)) : ReadsWritten events := by
  intro pre key valueHash post heq
  refine h pre key valueHash (post ++ later) ?_
  rw [heq, List.append_assoc, List.cons_append]

theorem ReadsWritten.concat {events : List (SevenEvent F)} (h : ReadsWritten events)
    {event : SevenEvent F}
    (hevent : ∀ key valueHash, event = .dbRead key valueHash → Written events key) :
    ReadsWritten (events ++ [event]) := by
  intro pre key valueHash post heq
  cases post using List.reverseRecOn with
  | nil =>
      rcases List.append_inj' heq rfl with ⟨hpre, hlast⟩
      rw [← hpre]
      exact hevent key valueHash (List.singleton_inj.mp hlast)
  | append_singleton post last =>
      rw [← List.cons_append, ← List.append_assoc] at heq
      exact h pre key valueHash post (List.append_inj' heq rfl).1

namespace ReplayEngine

/-- What was last written to a key is what was last said about it. -/
theorem lastWrite_eq_latest (key : String) (events : List (SevenEvent F)) :
    lastWrite key events = latest (hashSaid key) events := by
  induction events using List.reverseRecOn with
  | nil => rfl
  | append_singleton events event ih =>
      rw [lastWrite_concat, latest_concat, ← ih]
      cases event with
      | dbWrite k valueHash =>
          rw [lastWriteAfter, hashSaid]
          by_cases hk : k = key
          · rw [if_pos hk, if_pos hk, Option.some_or]
          · rw [if_neg hk, if_neg hk, Option.none_or]
      | _ => rfl

theorem observed_concat (events : List (SevenEvent F)) (event : SevenEvent F) :
    observed (events ++ [event]) = observed events ++ observed [event] :=
  List.filterMap_append

section Apply

variable [F64 F]

/-- What an event does to the messages is what it says about them. -/
theorem seenMessages_apply (c : Crypto) {eng eng' : ReplayEngine F} {event : SevenEvent F}
    (h : apply c eng event = .ok eng') (id : String) :
    eng'.seenMessages[id]? = (messageSaid id event).getD eng.seenMessages[id]? := by
  cases event with
  | observation e =>
      rw [((apply_observation_eq_ok_iff c eng eng' e).mp h).2]
      rfl
  | dbRead key valueHash =>
      rw [((apply_dbRead_eq_ok_iff c eng eng' key valueHash).mp h).2]
      rfl
  | messageSent m =>
      rw [← Except.ok.inj h, messageSaid]
      by_cases hid : m.id = id
      · rw [if_pos hid, hid, Std.ExtTreeMap.getElem?_insert_self, Option.getD_some]
      · rw [if_neg hid, Maps.getElem?_insert_of_ne _ _ hid, Option.getD_none]
  | transportLoss messageId =>
      rw [← Except.ok.inj h, messageSaid]
      by_cases hid : messageId = id
      · rw [if_pos hid, hid, Std.ExtTreeMap.getElem?_erase_self, Option.getD_some]
      · rw [if_neg hid, Maps.getElem?_erase_of_ne _ hid, Option.getD_none]
  | _ =>
      rw [← Except.ok.inj h]
      rfl

theorem nodesOnline_apply (c : Crypto) {eng eng' : ReplayEngine F} {event : SevenEvent F}
    (h : apply c eng event = .ok eng') (id : String) :
    eng'.nodesOnline[id]? = (livenessSaid id event).or eng.nodesOnline[id]? := by
  cases event with
  | observation e =>
      rw [((apply_observation_eq_ok_iff c eng eng' e).mp h).2]
      rfl
  | dbRead key valueHash =>
      rw [((apply_dbRead_eq_ok_iff c eng eng' key valueHash).mp h).2]
      rfl
  | nodeOnline nodeId =>
      rw [← Except.ok.inj h, livenessSaid]
      by_cases hid : nodeId = id
      · rw [if_pos hid, hid, Std.ExtTreeMap.getElem?_insert_self, Option.some_or]
      · rw [if_neg hid, Maps.getElem?_insert_of_ne _ _ hid, Option.none_or]
  | nodeOffline nodeId =>
      rw [← Except.ok.inj h, livenessSaid]
      by_cases hid : nodeId = id
      · rw [if_pos hid, hid, Std.ExtTreeMap.getElem?_insert_self, Option.some_or]
      · rw [if_neg hid, Maps.getElem?_insert_of_ne _ _ hid, Option.none_or]
  | _ =>
      rw [← Except.ok.inj h]
      rfl

/-- An event that says nothing leaves the state as it is. -/
theorem eq_of_apply_of_not_effective (c : Crypto) {eng eng' : ReplayEngine F}
    {event : SevenEvent F} (heff : event.isEffective = false) (h : apply c eng event = .ok eng') :
    eng' = eng := by
  cases event with
  | dbRead key valueHash => exact ((apply_dbRead_eq_ok_iff c eng eng' key valueHash).mp h).2
  | messageReceived m => exact (Except.ok.inj h).symm
  | transportDuplicate messageId => exact (Except.ok.inj h).symm
  | transportReorder fromIndex toIndex => exact (Except.ok.inj h).symm
  | beliefUpdate subject posterior => exact (Except.ok.inj h).symm
  | _ => exact Bool.noConfusion heff

/-- It applies unless it reads a key that is not there. -/
theorem apply_of_not_effective (c : Crypto) {eng : ReplayEngine F} {event : SevenEvent F}
    (heff : event.isEffective = false)
    (hread : ∀ key valueHash, event = .dbRead key valueHash →
      ∃ written, eng.db[key]? = some written) :
    apply c eng event = .ok eng := by
  cases event with
  | dbRead key valueHash =>
      exact (apply_dbRead_eq_ok_iff c eng eng key valueHash).mpr ⟨hread key valueHash rfl, rfl⟩
  | messageReceived m => rfl
  | transportDuplicate messageId => rfl
  | transportReorder fromIndex toIndex => rfl
  | beliefUpdate subject posterior => rfl
  | _ => exact Bool.noConfusion heff

end Apply

variable [Binary64 F]

/-- The state that a list of events means. -/
structure StateAfter (c : Crypto) (events : List (SevenEvent F)) (eng : ReplayEngine F) : Prop where
  beliefs : eng.beliefs = BeliefEngine.folded F c (observed events)
  messages : ∀ id, eng.seenMessages[id]? = (latest (messageSaid id) events).join
  nodes : ∀ id, eng.nodesOnline[id]? = latest (livenessSaid id) events
  db : ∀ key, eng.db[key]? = latest (hashSaid key) events

/-- Events mean one state. -/
theorem StateAfter.unique {c : Crypto} {events : List (SevenEvent F)} {eng eng' : ReplayEngine F}
    (h : StateAfter c events eng) (h' : StateAfter c events eng') : eng = eng' := by
  rcases eng with ⟨beliefs, messages, nodes, db⟩
  rcases eng' with ⟨beliefs', messages', nodes', db'⟩
  rw [mk.injEq]
  exact ⟨h.beliefs.trans h'.beliefs.symm,
    Std.ExtTreeMap.ext_getElem? fun id => (h.messages id).trans (h'.messages id).symm,
    Std.ExtTreeMap.ext_getElem? fun id => (h.nodes id).trans (h'.nodes id).symm,
    Std.ExtTreeMap.ext_getElem? fun key => (h.db key).trans (h'.db key).symm⟩

/-- The beliefs after an event. -/
theorem beliefs_apply (c : Crypto) {eng eng' : ReplayEngine F} {event : SevenEvent F}
    (h : apply c eng event = .ok eng') {run : List Evidence}
    (hbeliefs : eng.beliefs = BeliefEngine.folded F c run) :
    eng'.beliefs = BeliefEngine.folded F c (run ++ observed [event]) := by
  cases event with
  | observation e =>
      rw [((apply_observation_eq_ok_iff c eng eng' e).mp h).2]
      change (eng.beliefs.incorporate c e).1 = BeliefEngine.folded F c (run ++ [e])
      rw [hbeliefs, BeliefEngine.folded_concat]
  | dbRead key valueHash =>
      rw [((apply_dbRead_eq_ok_iff c eng eng' key valueHash).mp h).2, hbeliefs]
      exact (congrArg _ (List.append_nil run)).symm
  | _ =>
      rw [← Except.ok.inj h]
      exact hbeliefs.trans (congrArg _ (List.append_nil run)).symm

/-- A pass ends in the state the events mean. -/
theorem stateAfter_run {c : Crypto} {events : List (SevenEvent F)} {eng : ReplayEngine F}
    (h : Fallible.run (apply c) 0 new events = .ok eng) : StateAfter c events eng := by
  refine Fallible.run_induction (apply c) (s := new)
    (P := fun events eng => StateAfter c events eng) ?_ ?_ h
  · exact ⟨rfl, fun _ => Std.ExtTreeMap.getElem?_empty, fun _ => Std.ExtTreeMap.getElem?_empty,
      fun _ => Std.ExtTreeMap.getElem?_empty⟩
  · intro events event t t' _ ih hstep
    refine ⟨?_, ?_, ?_, ?_⟩
    · rw [observed_concat]
      exact beliefs_apply c hstep ih.beliefs
    · intro id
      rw [seenMessages_apply c hstep, latest_concat, ih.messages]
      cases messageSaid id event with
      | none => rfl
      | some said => rfl
    · intro id
      rw [nodesOnline_apply c hstep, latest_concat, ih.nodes]
    · intro key
      rw [db_apply hstep, ← lastWrite_eq_latest, lastWrite_concat, lastWrite_eq_latest, ← ih.db]

/-- A log replays to a state exactly when the log is well formed and the state is
    the one its events mean: the beliefs of the observed evidence, each message
    last sent and not lost since, each node as last reported, each key as last
    written. -/
theorem replay_eq_ok_iff_stateAfter (c : Crypto) (log : EventLog F) (eng : ReplayEngine F) :
    replay c log = .ok eng ↔ log.WellFormed c ∧ StateAfter c log.events eng := by
  rw [replay_eq_ok_iff, EventLog.WellFormed]
  rcases (judges_apply c).run_cases log.events with ⟨eng', hrun, hall⟩ | ⟨index, kind, hrun, hbad⟩
  · rw [hrun, Except.ok.injEq]
    constructor
    · intro heq
      exact ⟨hall, heq ▸ stateAfter_run hrun⟩
    · intro h
      exact (stateAfter_run hrun).unique h.2
  · rw [hrun]
    exact iff_of_false (by simp only [reduceCtorEq, not_false_eq_true])
      fun h => hbad.not_allGood h.1

/-- A pass without reads and audit entries. -/
theorem run_effective {c : Crypto} {events : List (SevenEvent F)} {eng : ReplayEngine F}
    (h : Fallible.run (apply c) 0 new events = .ok eng) :
    Fallible.run (apply c) 0 new (events.filter SevenEvent.isEffective) = .ok eng ∧
      ReadsWritten events := by
  refine Fallible.run_induction (apply c) (s := new)
    (P := fun events eng =>
      Fallible.run (apply c) 0 new (events.filter SevenEvent.isEffective) = .ok eng ∧
        ReadsWritten events) ⟨rfl, ?_⟩ ?_ h
  · intro pre key valueHash post heq
    exact absurd heq.symm (List.append_ne_nil_of_right_ne_nil _ (List.cons_ne_nil _ _))
  · intro events event t t' hrun ih hstep
    refine ⟨?_, ih.2.concat ?_⟩
    · rw [List.filter_append, List.filter_cons, List.filter_nil]
      cases heff : event.isEffective with
      | true =>
          rw [if_pos rfl, Fallible.run_append_of_ok _ ih.1, Fallible.run_cons_ok _ hstep,
            Fallible.run_nil]
      | false =>
          rw [if_neg Bool.false_ne_true, List.append_nil, ih.1,
            eq_of_apply_of_not_effective c heff hstep]
    · intro key valueHash hevent
      rw [hevent] at hstep
      exact (exists_db_replay_iff hrun key).mp
        ((apply_dbRead_eq_ok_iff c t t' key valueHash).mp hstep).1

/-- A pass with reads and audit entries again. -/
theorem run_of_effective {c : Crypto} (events : List (SevenEvent F)) {eng : ReplayEngine F}
    (h : Fallible.run (apply c) 0 new (events.filter SevenEvent.isEffective) = .ok eng)
    (hreads : ReadsWritten events) : Fallible.run (apply c) 0 new events = .ok eng := by
  induction events using List.reverseRecOn generalizing eng with
  | nil => exact h
  | append_singleton events event ih =>
      rw [List.filter_append, List.filter_cons, List.filter_nil] at h
      cases heff : event.isEffective with
      | true =>
          rw [heff, if_pos rfl, Fallible.run_append_eq_ok_iff] at h
          rcases h with ⟨mid, hmid, hlast⟩
          rcases (Fallible.run_cons_eq_ok_iff _ _ _ _ _ _).mp hlast with ⟨eng', hstep, heng⟩
          rw [Fallible.run_append_of_ok _ (ih hmid hreads.of_append),
            Fallible.run_cons_ok _ hstep, Fallible.run_nil]
          exact heng
      | false =>
          rw [heff, if_neg Bool.false_ne_true, List.append_nil] at h
          have hrun := ih h hreads.of_append
          -- A key that was written is there.
          have hstep : apply c eng event = .ok eng := by
            refine apply_of_not_effective c heff ?_
            intro key valueHash hevent
            exact (exists_db_replay_iff hrun key).mpr
              (hreads events key valueHash [] (by rw [hevent]))
          rw [Fallible.run_append_of_ok _ hrun, Fallible.run_cons_ok _ hstep, Fallible.run_nil]

/-- Reads and audit entries may be left out of a log, and put into it anywhere.
    A log replays to a state exactly when what remains of it does, to the same
    state with the same conflicts, and every key that the log reads was written
    before. -/
theorem replay_effective_iff (c : Crypto) (log : EventLog F) (eng : ReplayEngine F) :
    replay c log = .ok eng ↔ replay c log.effective = .ok eng ∧ ReadsWritten log.events := by
  rw [replay_eq_ok_iff, replay_eq_ok_iff, EventLog.effective]
  constructor
  · intro h
    exact run_effective h
  · intro h
    exact run_of_effective log.events h.1 h.2

end ReplayEngine

end Seven
