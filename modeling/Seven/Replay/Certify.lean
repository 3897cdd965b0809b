import Seven.Replay.Parts

/-!
# What a Replay Certifies

What the success of a replay says about the values recorded in the log. A
recorded read is checked for one thing: that its key was written before it. The
hash recorded with the read is not compared with the one written, and a recorded
posterior is not compared with the track: belief updates are kept for audit, and
the observations reproduce them.

So a successful replay certifies that every read has a write before it, of which
the rebuilt database holds the latest hash at that point. It does not notice
whether the recorded reads and posteriors agree with what it rebuilt.

## Main definitions

* `lastWrite`: The latest hash written to a key.
* `GaussianBelief.snapshot`: A track as a belief update records it.
* `CertifiesReads`, `CertifiesPosteriors`: Recorded values that agree with the
  replay.
* `SameButPosteriors`: Logs that differ in their belief updates.

## Theorems

* `db_replay`: The database holds the latest writes.
* `replay_certifies`: What replay checks, and what it ignores.
* `not_certifies`: Recorded values that disagree are accepted.
-/

namespace Seven

variable {F : Type}

/-- The latest hash written to a key, one event later. -/
def lastWriteAfter (key : String) (latest : Option Bytes32) : SevenEvent F → Option Bytes32
  | .dbWrite k valueHash => if k = key then some valueHash else latest
  | _ => latest

/-- The latest hash written to a key. -/
def lastWrite (key : String) (events : List (SevenEvent F)) : Option Bytes32 :=
  events.foldl (lastWriteAfter key) none

/-- A track as a belief update records it. -/
def GaussianBelief.snapshot (track : GaussianBelief F) : BeliefSnapshot F :=
  { mean := track.mean, var := track.var, independentUpdates := track.independentUpdates }

/-- The logs differ at most in what their belief updates record. -/
def SameButPosteriors (events events' : List (SevenEvent F)) : Prop :=
  List.Forall₂ (fun a b => a = b ∨ ∃ s p s' p', a = .beliefUpdate s p ∧ b = .beliefUpdate s' p')
    events events'

namespace ReplayEngine

theorem lastWrite_concat (key : String) (events : List (SevenEvent F)) (event : SevenEvent F) :
    lastWrite key (events ++ [event]) = lastWriteAfter key (lastWrite key events) event := by
  rw [lastWrite, List.foldl_append, List.foldl_cons, List.foldl_nil, lastWrite]

/-- Only a write changes the database. -/
theorem db_apply [F64 F] {c : Crypto} {eng eng' : ReplayEngine F} {event : SevenEvent F}
    (h : apply c eng event = .ok eng') (key : String) :
    eng'.db[key]? = lastWriteAfter key eng.db[key]? event := by
  cases event with
  | observation e =>
      rw [((apply_observation_eq_ok_iff c eng eng' e).mp h).2]
      rfl
  | dbRead k valueHash =>
      rw [((apply_dbRead_eq_ok_iff c eng eng' k valueHash).mp h).2]
      rfl
  | dbWrite k valueHash =>
      rw [← Except.ok.inj h, lastWriteAfter]
      by_cases hk : k = key
      · rw [if_pos hk, hk, Std.ExtTreeMap.getElem?_insert_self]
      · rw [if_neg hk]
        exact Maps.getElem?_insert_of_ne _ _ hk
  | _ =>
      rw [← Except.ok.inj h]
      rfl

variable [Binary64 F]

/-- A successful replay certifies the hashes recorded with reads. -/
def CertifiesReads (c : Crypto) (log : EventLog F) : Prop :=
  ∀ eng, replay c log = .ok eng →
    ∀ pre key valueHash post, log.events = pre ++ .dbRead key valueHash :: post →
      lastWrite key pre = some valueHash

/-- A successful replay certifies the recorded posteriors. -/
def CertifiesPosteriors (c : Crypto) (log : EventLog F) : Prop :=
  ∀ eng, replay c log = .ok eng →
    ∀ pre subject posterior post, log.events = pre ++ .beliefUpdate subject posterior :: post →
      ∃ mid track, replay c ⟨pre, log.seed⟩ = .ok mid ∧
        mid.beliefs.tracks[(⟨subject⟩ : SubjectId)]? = some track ∧ posterior = track.snapshot

/-- After a replay the database holds the latest writes. -/
theorem db_replay {c : Crypto} {log : EventLog F} {eng : ReplayEngine F}
    (h : replay c log = .ok eng) (key : String) : eng.db[key]? = lastWrite key log.events := by
  rw [replay_eq_ok_iff] at h
  refine Fallible.run_induction (apply c) (s := new)
    (P := fun events eng => eng.db[key]? = lastWrite key events) ?_ ?_ h
  · exact Std.ExtTreeMap.getElem?_empty
  · intro events event t t' _ ih hstep
    rw [db_apply hstep, lastWrite_concat, ih]

/-- The events before a position of a log that replays do so too, to a state in
    which the event there applies. -/
theorem replay_prefix {c : Crypto} {log : EventLog F} {eng : ReplayEngine F}
    (h : replay c log = .ok eng) {pre post : List (SevenEvent F)} {event : SevenEvent F}
    (hlog : log.events = pre ++ event :: post) :
    ∃ mid mid', replay c ⟨pre, log.seed⟩ = .ok mid ∧ apply c mid event = .ok mid' := by
  rw [replay_eq_ok_iff, hlog, Fallible.run_append_eq_ok_iff] at h
  rcases h with ⟨mid, hmid, hrest⟩
  rcases (Fallible.run_cons_eq_ok_iff _ _ _ _ _ _).mp hrest with ⟨mid', hstep, _⟩
  exact ⟨mid, mid', (replay_eq_ok_iff c _ mid).mpr hmid, hstep⟩

/-- Applying a belief update is the same whatever it records. -/
theorem replay_eq_of_sameButPosteriors (c : Crypto) {log log' : EventLog F}
    (h : SameButPosteriors log.events log'.events) : replay c log = replay c log' := by
  have hcongr : List.Forall₂ (fun a b => ∀ eng : ReplayEngine F, apply c eng a = apply c eng b)
      log.events log'.events := by
    refine h.imp ?_
    rintro a b (rfl | ⟨s, p, s', p', rfl, rfl⟩) eng
    · rfl
    · rfl
  rw [replay_eq_replayPass, replay_eq_replayPass, replayPass, replayPass,
    Fallible.run_congr _ hcongr]

/-- Replay checks of a recorded read that its key was written: in a log that
    replays, the database at that point holds the latest hash written to it, and
    the first read of a key without a write fails. Recorded posteriors play no
    role: logs that differ in them alone have one outcome. -/
theorem replay_certifies (c : Crypto) (log : EventLog F) :
    (∀ eng, replay c log = .ok eng →
      ∀ pre key valueHash post, log.events = pre ++ .dbRead key valueHash :: post →
        ∃ mid written, replay c ⟨pre, log.seed⟩ = .ok mid ∧ lastWrite key pre = some written ∧
          mid.db[key]? = some written) ∧
      (∀ pre key valueHash post mid, log.events = pre ++ .dbRead key valueHash :: post →
        replay c ⟨pre, log.seed⟩ = .ok mid → lastWrite key pre = none →
        replay c log = .error (.eventFailed pre.length (.unwrittenKey key))) ∧
      ∀ log' : EventLog F, SameButPosteriors log.events log'.events →
        replay c log' = replay c log := by
  refine ⟨?_, ?_, ?_⟩
  · intro eng h pre key valueHash post hlog
    rcases replay_prefix h hlog with ⟨mid, mid', hmid, hstep⟩
    rcases ((apply_dbRead_eq_ok_iff c mid mid' key valueHash).mp hstep).1 with ⟨written, hwritten⟩
    exact ⟨mid, written, hmid, by rw [← hwritten, db_replay hmid key], hwritten⟩
  · intro pre key valueHash post mid hlog hmid hnone
    have hfail : apply c mid (.dbRead key valueHash) = .error (.unwrittenKey key) := by
      have hdb : mid.db[key]? = none := (db_replay hmid key).trans hnone
      rw [apply, Std.ExtTreeMap.contains_eq_isSome_getElem?, hdb]
      rfl
    rw [replay_eq_ok_iff] at hmid
    rw [replay_eq_replayPass, replayPass, hlog, Fallible.run_append_of_ok _ hmid,
      Fallible.run_cons_error _ hfail, Nat.zero_add]
  · intro log' hsame
    exact (replay_eq_of_sameButPosteriors c hsame).symm

/-- A write and a read of its key. -/
theorem replay_certifies_read :
    let write : SevenEvent Float := .dbWrite "k" (Vector.replicate 32 1)
    ∃ mid written, replay (Crypto.ledger []) ⟨[write], 0⟩ = .ok mid ∧
      lastWrite "k" [write] = some written ∧ mid.db["k"]? = some written := by
  intro write
  exact (replay_certifies (Crypto.ledger [])
      ⟨[write, .dbRead "k" (Vector.replicate 32 1)], 0⟩).1 _
    ((replay_eq_ok_iff _ _ _).mpr rfl) [write] "k" (Vector.replicate 32 1) [] rfl

/-- A read that records another hash than the one written, and a belief update
    without any observation, are accepted. -/
theorem not_certifies :
    (¬ ∀ (c : Crypto) (log : EventLog Float), CertifiesReads c log) ∧
      ¬ ∀ (c : Crypto) (log : EventLog Float), CertifiesPosteriors c log := by
  constructor
  · intro h
    have hread := h (Crypto.ledger [])
      ⟨[.dbWrite "k" (Vector.replicate 32 1), .dbRead "k" (Vector.replicate 32 2)], 0⟩ _
      ((replay_eq_ok_iff _ _ _).mpr rfl) [.dbWrite "k" (Vector.replicate 32 1)] "k"
      (Vector.replicate 32 2) [] rfl
    exact absurd hread (by decide)
  · intro h
    rcases h (Crypto.ledger []) ⟨[.beliefUpdate "ac" GaussianBelief.uninformative.snapshot], 0⟩ _
      ((replay_eq_ok_iff _ _ _).mpr rfl) [] "ac" _ [] rfl with ⟨mid, track, hmid, htrack, _⟩
    rw [replay_eq_ok_iff, Fallible.run_nil, Except.ok.injEq] at hmid
    rw [← hmid] at htrack
    exact absurd (Std.ExtTreeMap.getElem?_empty.symm.trans htrack)
      (by simp only [reduceCtorEq, not_false_eq_true])

end ReplayEngine

end Seven
