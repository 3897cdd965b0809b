import Seven.Belief.Engine
import Seven.Library.BigEndian
import Seven.Library.Fallible
import Seven.Mql.Hex

/-!
# Event Logs and Replay

The event log and the state machine that executes it again. Eleven kinds of
events are recorded; six of them change the state, reading a database key only
checks that the key was written, and the other four are accepted as they are.

`replay` executes a log twice and compares the fingerprints of the two final
states. The machine is a function, so they are always equal and a replay is one
pass over the log (`replay_eq_ok_iff`).

## Main definitions

* `SevenEvent`, `SevenMessage`, `BeliefSnapshot`, `EventLog`: What is recorded.
* `ReplayEngine`: The state.
* `apply`: One event.
* `hashedBytes`, `stateFingerprint`: The fingerprint and the bytes under it.
* `replay`: Executing a log.

## Theorems

* `replay_eq_ok_iff`: A successful replay is a successful pass.
* `replay_append_eq_ok_iff`: Replaying a log in two pieces.
-/

namespace Seven

/-- The message envelope of a log. -/
structure SevenMessage where
  id : String
  «from» : String
  «to» : String
  canonicalPayload : Bytes
  sentAtNanos : Int64
  deriving DecidableEq

/-- A snapshot of a track. -/
structure BeliefSnapshot (F : Type) where
  mean : Vector F 6
  var : Vector F 6
  independentUpdates : UInt64

inductive SevenEvent (F : Type) where
  | observation (evidence : Evidence)
  | messageSent (envelope : SevenMessage)
  | messageReceived (envelope : SevenMessage)
  | transportLoss (messageId : String)
  | transportDuplicate (messageId : String)
  | transportReorder (fromIndex toIndex : Nat)
  | nodeOnline (nodeId : String)
  | nodeOffline (nodeId : String)
  | dbWrite (key : String) (valueHash : Bytes32)
  | dbRead (key : String) (valueHash : Bytes32)
  | beliefUpdate (subject : String) (posterior : BeliefSnapshot F)

/-- Causal event log: the index of an event is its sequence number. -/
structure EventLog (F : Type) where
  events : List (SevenEvent F)
  seed : UInt64

/-- Why an event could not be applied. -/
inductive EventError where
  | belief (e : BeliefError)
  | unwrittenKey (key : String)
  deriving DecidableEq

/-- The text of a failed event; `debug` stands for the format `{:?}`. -/
def EventError.text (debug : BeliefError → String) : EventError → String
  | belief e => "belief: " ++ debug e
  | unwrittenKey key => "read of unwritten key " ++ key

theorem belief_append_ne (s t : String) : "belief: " ++ s ≠ "read of unwritten key " ++ t := by
  intro h
  have hhead := congrArg (fun text => text.toList.head?) h
  simp only [String.toList_append, List.head?_append] at hhead
  exact absurd hhead (by simp)

/-- The text says which failure it was, so replays that fail alike have one text and
    others do not. -/
theorem EventError.text_injective {debug : BeliefError → String}
    (hdebug : Function.Injective debug) : Function.Injective (text debug) := by
  intro e e' h
  cases e with
  | belief err =>
      cases e' with
      | belief err' => rw [hdebug ((String.append_right_inj _).mp h)]
      | unwrittenKey key' => exact absurd h (belief_append_ne _ _)
  | unwrittenKey key =>
      cases e' with
      | belief err' => exact absurd h.symm (belief_append_ne _ _)
      | unwrittenKey key' => rw [(String.append_right_inj _).mp h]

inductive ReplayError where
  | eventFailed (index : Nat) (kind : EventError)
  | hashMismatch (expected actual : String)
  | nonDeterministic
  deriving DecidableEq

namespace EventLog

variable {F : Type}

def push (log : EventLog F) (event : SevenEvent F) : EventLog F :=
  { log with events := log.events ++ [event] }

/-- A log with further events. -/
def append (log : EventLog F) (events : List (SevenEvent F)) : EventLog F :=
  { log with events := log.events ++ events }

@[simp] theorem append_nil (log : EventLog F) : log.append [] = log := by
  rw [append, List.append_nil]

@[simp] theorem append_append (log : EventLog F) (events events' : List (SevenEvent F)) :
    (log.append events).append events' = log.append (events ++ events') := by
  rw [append, append, append, List.append_assoc]

theorem push_append (log : EventLog F) (event : SevenEvent F) (events : List (SevenEvent F)) :
    (log.push event).append events = log.append (event :: events) := by
  rw [push, append, append, List.append_assoc, List.singleton_append]

end EventLog

/-- Replay state machine. -/
structure ReplayEngine (F : Type) where
  beliefs : BeliefEngine F
  seenMessages : Std.ExtTreeMap String SevenMessage
  nodesOnline : Std.ExtTreeMap String Bool
  db : Std.ExtTreeMap String Bytes32

/-- `u64::to_be_bytes`. -/
def toBeBytes (x : UInt64) : Bytes :=
  BigEndian.encode 8 x.toNat

/-- The bytes of a track in a fingerprint: the bit patterns of the means and
    variances, and the update count. -/
def GaussianBelief.bytes {F : Type} [Binary64 F] (track : GaussianBelief F) : Bytes :=
  (track.mean.toList ++ track.var.toList).flatMap (fun v => toBeBytes (Binary64.toBits v)) ++
    toBeBytes track.independentUpdates

namespace ReplayEngine

variable {F : Type}

def new : ReplayEngine F :=
  { beliefs := .new, seenMessages := ∅, nodesOnline := ∅, db := ∅ }

section Fingerprint

variable [Binary64 F]

/-- The byte string under the fingerprint: the entries of the four maps in key
    order, each its key and its value, with nothing between them. -/
def hashedBytes (eng : ReplayEngine F) : Bytes :=
  eng.seenMessages.toList.flatMap (fun kv => Mql.utf8 kv.1 ++ kv.2.canonicalPayload) ++
    eng.nodesOnline.toList.flatMap (fun kv => Mql.utf8 kv.1 ++ [if kv.2 then 1 else 0]) ++
    eng.db.toList.flatMap (fun kv => Mql.utf8 kv.1 ++ kv.2.toList) ++
    eng.beliefs.tracks.toList.flatMap (fun kv => Mql.utf8 kv.1.name ++ kv.2.bytes)

/-- Fingerprint of the state. -/
def stateFingerprint (c : Crypto) (eng : ReplayEngine F) : Bytes32 :=
  c.blake3 eng.hashedBytes

end Fingerprint

/-- Apply one event. -/
def apply [F64 F] (c : Crypto) (eng : ReplayEngine F) :
    SevenEvent F → Except EventError (ReplayEngine F)
  | .observation evidence =>
      -- A failed call may have marked the gate; the engine is then given up.
      match eng.beliefs.incorporate c evidence with
      | (beliefs, .ok _) => .ok { eng with beliefs }
      | (_, .error e) => .error (.belief e)
  | .messageSent envelope =>
      .ok { eng with seenMessages := eng.seenMessages.insert envelope.id envelope }
  | .transportLoss messageId => .ok { eng with seenMessages := eng.seenMessages.erase messageId }
  | .nodeOnline nodeId => .ok { eng with nodesOnline := eng.nodesOnline.insert nodeId true }
  | .nodeOffline nodeId => .ok { eng with nodesOnline := eng.nodesOnline.insert nodeId false }
  | .dbWrite key valueHash => .ok { eng with db := eng.db.insert key valueHash }
  | .dbRead key _ => if eng.db.contains key then .ok eng else .error (.unwrittenKey key)
  | .transportDuplicate _ | .transportReorder _ _ | .messageReceived _ => .ok eng
  -- Recorded for audit; the observations reproduce it.
  | .beliefUpdate _ _ => .ok eng

/-- One pass over a log. -/
def replayPass [F64 F] (c : Crypto) (log : EventLog F) : Except ReplayError (ReplayEngine F) :=
  match Fallible.run (apply c) 0 new log.events with
  | .ok eng => .ok eng
  | .error (index, kind) => .error (.eventFailed index kind)

/-- Execute a log twice and compare the fingerprints. -/
def replay [Binary64 F] (c : Crypto) (log : EventLog F) : Except ReplayError (ReplayEngine F) := do
  let first ← replayPass c log
  let second ← replayPass c log
  if first.stateFingerprint c ≠ second.stateFingerprint c then .error .nonDeterministic
  else .ok first

variable [Binary64 F]

/-- The second pass gives what the first one gave. -/
theorem replay_eq_replayPass (c : Crypto) (log : EventLog F) : replay c log = replayPass c log := by
  unfold replay
  cases replayPass c log with
  | error e => rfl
  | ok eng => exact if_neg fun h => h rfl

/-- A successful replay is a successful pass. -/
theorem replay_eq_ok_iff (c : Crypto) (log : EventLog F) (eng : ReplayEngine F) :
    replay c log = .ok eng ↔ Fallible.run (apply c) 0 new log.events = .ok eng := by
  rw [replay_eq_replayPass, replayPass]
  cases Fallible.run (apply c) 0 new log.events with
  | ok eng' => simp only [Except.ok.injEq]
  | error e => simp only [reduceCtorEq]

/-- Replaying a log in two pieces. -/
theorem replay_append_eq_ok_iff (c : Crypto) (log : EventLog F) (events : List (SevenEvent F))
    (eng : ReplayEngine F) :
    replay c (log.append events) = .ok eng ↔
      ∃ mid, replay c log = .ok mid ∧ Fallible.run (apply c) 0 mid events = .ok eng := by
  simp only [replay_eq_ok_iff, EventLog.append, Fallible.run_append_eq_ok_iff]
  exact exists_congr fun mid => and_congr_right fun _ =>
    Fallible.run_eq_ok_shift (apply c) _ 0 mid eng events

end ReplayEngine

end Seven
