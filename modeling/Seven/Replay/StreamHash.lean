import Seven.Replay.Certify

/-!
# The Hash of a Stream

A log is hashed as JSON. The writer is another library's and enters as a parameter,
with what it promises of the logs at hand: its text keeps all of a log but the floats
of the recorded posteriors, of which all that are not finite are written alike.

Replay does not look at recorded posteriors. So of the logs that one hash stands for
there is one outcome, whatever floats got lost in their texts
(`replay_eq_of_streamHash`).

## Main definitions

* `LogJson`, `EventLog.streamHash`: The writer, and the hash of what it writes.
* `LogJson.Keeps`: A text keeps a log, but for its posteriors.

## Theorems

* `replay_eq_of_streamHash`: Replay of logs with one hash.
-/

namespace Seven

/-- How `serde_json::to_vec` writes a log. -/
structure LogJson (F : Type) where
  toVec : EventLog F → Bytes

variable {F : Type}

/-- Of these logs, those with one text differ at most in what their belief updates
    record. A float that is finite reads back as it was, any other is a `null`. -/
def LogJson.Keeps (j : LogJson F) (logs : Set (EventLog F)) : Prop :=
  ∀ log ∈ logs, ∀ log' ∈ logs, j.toVec log = j.toVec log' →
    SameButPosteriors log.events log'.events

/-- Hash the entire stream. -/
def EventLog.streamHash (j : LogJson F) (c : Crypto) (log : EventLog F) : Bytes32 :=
  c.blake3 (j.toVec log)

namespace ReplayEngine

/-- Among logs on whose texts the hash has no collision, those with one hash replay
    alike: to the same state, or with the same error at the same event. -/
theorem replay_eq_of_streamHash [Binary64 F] (j : LogJson F) (c : Crypto)
    (logs : Set (EventLog F)) (hj : j.Keeps logs) (hideal : Set.InjOn c.blake3 (j.toVec '' logs))
    (log log' : EventLog F) (hlog : log ∈ logs) (hlog' : log' ∈ logs)
    (h : log.streamHash j c = log'.streamHash j c) : replay c log = replay c log' := by
  have htext : j.toVec log = j.toVec log' :=
    hideal (Set.mem_image_of_mem j.toVec hlog) (Set.mem_image_of_mem j.toVec hlog') h
  exact replay_eq_of_sameButPosteriors c (hj log hlog log' hlog' htext)

/-- A posterior of one number. -/
def diverged (x : Float) : BeliefSnapshot Float :=
  { mean := Vector.replicate 6 x, var := Vector.replicate 6 x, independentUpdates := 6 }

/-- The log of one belief update with such a posterior. -/
def divergedLog (x : Float) : EventLog Float :=
  ⟨[.beliefUpdate "ac" (diverged x)], 0⟩

/-- The JSON of belief updates none of whose floats is finite. -/
def nullText : SevenEvent Float → String
  | .beliefUpdate subject posterior =>
      "\x7b\"BeliefUpdate\":\x7b\"subject\":\"" ++ subject ++
        "\",\"posterior\":\x7b\"mean\":[null,null,null,null,null,null]," ++
        "\"var\":[null,null,null,null,null,null],\"independent_updates\":" ++
        toString posterior.independentUpdates.toNat ++ "\x7d\x7d\x7d"
  | _ => "null"

/-- The JSON of logs of such events. -/
def nullJson : LogJson Float where
  toVec log := ("\x7b\"events\":[" ++ ",".intercalate (log.events.map nullText) ++
    "],\"seed\":" ++ toString log.seed.toNat ++ "\x7d").toUTF8.toList

/-- Posteriors that diverged to infinity and to no number are one text, and the logs
    with them replay alike. -/
theorem replay_eq_of_streamHash_diverged :
    let inf := divergedLog (.ofBits 0x7ff0000000000000)
    let nan := divergedLog (.ofBits 0x7ff8000000000000)
    inf.streamHash nullJson (Crypto.ledger []) = nan.streamHash nullJson (Crypto.ledger []) ∧
      replay (Crypto.ledger []) inf = replay (Crypto.ledger []) nan := by
  intro inf nan
  have hkeeps : nullJson.Keeps {log | ∃ x, x.isFinite = false ∧ divergedLog x = log} := by
    rintro _ ⟨x, _, rfl⟩ _ ⟨y, _, rfl⟩ _
    exact .cons (Or.inr ⟨"ac", diverged x, "ac", diverged y, rfl, rfl⟩) .nil
  have hideal : Set.InjOn (Crypto.ledger []).blake3
      (nullJson.toVec '' {log | ∃ x, x.isFinite = false ∧ divergedLog x = log}) := by
    rintro _ ⟨_, ⟨x, _, rfl⟩, rfl⟩ _ ⟨_, ⟨y, _, rfl⟩, rfl⟩ _
    rfl
  exact ⟨rfl, replay_eq_of_streamHash nullJson (Crypto.ledger []) _ hkeeps hideal inf nan
    ⟨_, by decide, rfl⟩ ⟨_, by decide, rfl⟩ rfl⟩

end ReplayEngine

end Seven
