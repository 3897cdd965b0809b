import Seven.Replay.Certify

/-!
# The Logs that Replay

Which logs a replay takes, said by what they record. Observations and database
reads can fail, and nothing else can. An observation has to verify, and its
payload has to decode when it is the first of its subject to carry its
observation id; a read needs a write to its key before it.

The state is not mentioned: after a part of the log that replays, a gate holds
the ids observed in it (`mem_seen_replay`) and the database has the keys written
in it (`exists_db_replay_iff`), so what comes before an event decides whether the
event applies. A replay that fails reports the first event that breaks its
condition, and it fails in no other way.

## Main definitions

* `ObservedId`, `Written`: What a list of events records.
* `SevenEvent.Acceptable`: The condition on one event.
* `WellFormed`: The condition on a log.

## Theorems

* `mem_seen_replay`, `exists_db_replay_iff`: The state by what was recorded.
* `judges_apply`: What comes before an event decides whether it applies.
* `replay_accepts_iff`: The logs that replay, and how the others fail.
-/

namespace Seven

variable {F : Type}

/-- An observation of the subject carried this observation id. -/
def ObservedId (events : List (SevenEvent F)) (s : SubjectId) (id : ObservationId) : Prop :=
  ∃ e, .observation e ∈ events ∧ e.subject = s ∧ e.observationId = id

/-- The key was written. -/
def Written (events : List (SevenEvent F)) (key : String) : Prop :=
  ∃ valueHash, .dbWrite key valueHash ∈ events

/-- The condition on an event after the events before it. -/
def SevenEvent.Acceptable (c : Crypto) (before : List (SevenEvent F)) : SevenEvent F → Prop
  | .observation e =>
      e.verify c = .ok () ∧ (e.Decodes ∨ ObservedId before e.subject e.observationId)
  | .dbRead key _ => Written before key
  | _ => True

/-- Every event of the log meets its condition. -/
def EventLog.WellFormed (c : Crypto) (log : EventLog F) : Prop :=
  Fallible.AllGood (SevenEvent.Acceptable c) log.events

theorem observedId_concat (events : List (SevenEvent F)) (event : SevenEvent F) (s : SubjectId)
    (id : ObservationId) :
    ObservedId (events ++ [event]) s id ↔
      ObservedId events s id ∨
        ∃ e, event = .observation e ∧ e.subject = s ∧ e.observationId = id := by
  simp only [ObservedId, List.mem_append, List.mem_singleton, or_and_right, exists_or,
    eq_comm (b := event)]

/-- A key was written when it has a latest hash. -/
theorem exists_lastWrite_iff (events : List (SevenEvent F)) (key : String) :
    (∃ valueHash, lastWrite key events = some valueHash) ↔ Written events key := by
  induction events using List.reverseRecOn with
  | nil =>
      refine iff_of_false ?_ ?_
      · intro h
        rcases h with ⟨valueHash, h⟩
        exact Option.some_ne_none _ h.symm
      · intro h
        rcases h with ⟨valueHash, h⟩
        exact List.not_mem_nil h
  | append_singleton events event ih =>
      have hold : Written (events ++ [event]) key ↔
          Written events key ∨ ∃ valueHash, event = .dbWrite key valueHash := by
        simp only [Written, List.mem_append, List.mem_singleton, exists_or, eq_comm (b := event)]
      rw [ReplayEngine.lastWrite_concat, hold, ← ih]
      -- Only a write to the key changes its latest hash, and then it has one.
      cases event with
      | dbWrite k valueHash =>
          rw [lastWriteAfter]
          by_cases hk : k = key
          · rw [if_pos hk]
            exact iff_of_true ⟨valueHash, rfl⟩ (Or.inr ⟨valueHash, by rw [hk]⟩)
          · rw [if_neg hk]
            simp only [SevenEvent.dbWrite.injEq, hk, false_and, exists_false, or_false]
      | _ => simp only [lastWriteAfter, reduceCtorEq, exists_false, or_false]

namespace ReplayEngine

/-- After a pass the gates hold the ids that were observed. -/
theorem mem_seen_replay [F64 F] {c : Crypto} {events : List (SevenEvent F)} {eng : ReplayEngine F}
    (h : Fallible.run (apply c) 0 new events = .ok eng) (s : SubjectId) (id : ObservationId) :
    id ∈ eng.beliefs.seen s ↔ ObservedId events s id := by
  refine Fallible.run_induction (apply c) (s := new)
    (P := fun events eng => id ∈ eng.beliefs.seen s ↔ ObservedId events s id) ?_ ?_ h
  · refine iff_of_false (Finset.notMem_empty id) ?_
    intro hnil
    rcases hnil with ⟨e, he, _⟩
    exact List.not_mem_nil he
  · intro events event t t' _ ih hstep
    rw [mem_seen_apply hstep, observedId_concat, ih]

variable [Binary64 F]

/-- After a pass the database has the keys that were written. -/
theorem exists_db_replay_iff {c : Crypto} {events : List (SevenEvent F)} {eng : ReplayEngine F}
    (h : Fallible.run (apply c) 0 new events = .ok eng) (key : String) :
    (∃ valueHash, eng.db[key]? = some valueHash) ↔ Written events key := by
  have hreplay : replay c ⟨events, 0⟩ = .ok eng := (replay_eq_ok_iff c _ eng).mpr h
  rw [db_replay hreplay, exists_lastWrite_iff]

/-- What comes before an event decides whether it applies. -/
theorem judges_apply (c : Crypto) :
    Fallible.Judges (SevenEvent.Acceptable c) (apply (F := F) c) new := by
  intro events event eng h
  -- What the state holds was recorded before, so its tests are tests of the history.
  cases event with
  | observation e =>
      simp only [apply_observation_eq_ok_iff, exists_and_left, exists_eq, and_true,
        BeliefEngine.exists_ok_incorporate_iff, mem_seen_replay h, SevenEvent.Acceptable]
  | dbRead key valueHash =>
      simp only [apply_dbRead_eq_ok_iff, exists_and_left, exists_eq, and_true,
        exists_db_replay_iff h, SevenEvent.Acceptable]
  | _ => exact iff_of_true ⟨_, rfl⟩ trivial

/-- Replay accepts exactly the well-formed logs. On any other log it fails with
    the position of the first event that breaks its condition, and no log makes
    it report nondeterminism or a hash mismatch. -/
theorem replay_accepts_iff (c : Crypto) (log : EventLog F) :
    ((∃ eng, replay c log = .ok eng) ↔ log.WellFormed c) ∧
      (¬ log.WellFormed c ↔ ∃ index kind, replay c log = .error (.eventFailed index kind) ∧
        Fallible.FirstBad (SevenEvent.Acceptable c) log.events index) ∧
      replay c log ≠ .error .nonDeterministic ∧
      ∀ expected actual, replay c log ≠ .error (.hashMismatch expected actual) := by
  rw [replay_eq_replayPass, replayPass, EventLog.WellFormed]
  rcases (judges_apply c).run_cases log.events with ⟨eng, hrun, hall⟩ | ⟨index, kind, hrun, hbad⟩
  · simp only [hrun, hall, Except.ok.injEq, exists_eq', not_true_eq_false, reduceCtorEq, false_and,
      exists_false, ne_eq, not_false_eq_true, implies_true, and_self]
  · have hnot := hbad.not_allGood
    simp only [hrun, hnot, reduceCtorEq, exists_false, not_false_eq_true, Except.error.injEq,
      ReplayError.eventFailed.injEq, ne_eq, implies_true, and_true, true_and, true_iff]
    exact ⟨index, kind, ⟨rfl, rfl⟩, hbad⟩

end ReplayEngine

end Seven
