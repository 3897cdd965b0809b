import Seven.Library.Swaps
import Seven.Replay.Log
import Seven.Sim.Random

/-!
# The Lossy Channel

The failure-injecting channel of the simulator and the log it keeps. A message
is lost, duplicated or delivered; the arrivals of a stream may then be shuffled.
Every fault is appended to the event log, so the log has to account for the
difference between what was sent and what arrived.

`Sent` relates a list of messages to the events and arrivals of its sends, one
message after the other, and `sendStream_eq` says what a stream does: it appends
these events and the swaps of the shuffle, and the arrivals are the sent ones
with the swaps performed. Nothing later looks into the channel.

`interpret` reads a log the other way: from the messages and the appended events
alone it computes what arrived. `sendStream_accounted` is the agreement of the
two, for every source of draws.

## Main definitions

* `LossyChannel`, `new`, `send`, `sendStream`, `reorderInPlace`: The channel.
* `Sent`: The events and arrivals of sending a list of messages.
* `FaultsOf`, `swapOf`, `interpret`: What a log says about a stream.

## Theorems

* `reorderInPlace_eq`: A shuffle performs the swaps that it logs.
* `sendStream_eq`: What a stream appends and what arrives.
* `sendStream_accounted`: The log accounts for every fault.
-/

namespace Seven

inductive SimError (F : Type) where
  | invalidProbability (p : F)
  | aborted

variable {σ F : Type} [Binary64 F]

/-- `(0.0..=1.0).contains(&p)`. -/
def isProbability (p : F) : Bool :=
  Binary64.le (F64.ofInt 0) p && Binary64.le p (F64.ofInt 1)

/-- A deterministic lossy channel. Its probabilities were checked. -/
structure LossyChannel (F : Type) [Binary64 F] where
  seed : UInt64
  lossP : F
  dupP : F
  reorderP : F
  valid : ∀ p ∈ [lossP, dupP, reorderP], isProbability p = true

namespace LossyChannel

/-- The first probability out of range is rejected. The log is not touched. -/
def new (seed : UInt64) (lossP dupP reorderP : F) (_log : EventLog F) :
    Except (SimError F) (LossyChannel F) :=
  if hl : isProbability lossP = true then
    if hd : isProbability dupP = true then
      if hr : isProbability reorderP = true then
        .ok ⟨seed, lossP, dupP, reorderP, by
          simp only [List.forall_mem_cons, hl, hd, hr, List.not_mem_nil, false_imp_iff,
            implies_true, and_self]⟩
      else .error (.invalidProbability reorderP)
    else .error (.invalidProbability dupP)
  else .error (.invalidProbability lossP)

/-- Send one message: the messages that arrive and the log with the fault. -/
def send (g : Generator σ F) (ch : LossyChannel F) (msg : SevenMessage) (log : EventLog F)
    (seq : UInt64) : List SevenMessage × EventLog F :=
  match g.fate (ch.seed ^^^ seq) ch.lossP ch.dupP with
  | .lost => ([], log.push (.transportLoss msg.id))
  | .duplicated => ([msg, msg], log.push (.transportDuplicate msg.id))
  | .delivered => ([msg], log)

/-- Send the messages in order, the first of them with the sequence number
    `seqBase + i`. -/
def sendFrom (g : Generator σ F) (ch : LossyChannel F) (seqBase : UInt64) :
    Nat → List SevenMessage → EventLog F → List SevenMessage × EventLog F
  | _, [], log => ([], log)
  | i, msg :: msgs, log =>
      let (arrived, log) := ch.send g msg log (seqBase + UInt64.ofNat i)
      let (rest, log) := sendFrom g ch seqBase (i + 1) msgs log
      (arrived ++ rest, log)

/-- The loop of the shuffle, from position `i` down to 1. -/
def reorderFrom (g : Generator σ F) :
    Nat → σ → EventLog F → List SevenMessage → List SevenMessage × EventLog F
  | 0, _, log, stream => (stream, log)
  | i + 1, rng, log, stream =>
      let (j, rng) := g.upTo rng (i + 1)
      if i + 1 ≠ j then
        reorderFrom g i rng (log.push (.transportReorder (i + 1) j)) (stream.swap (i + 1) j)
      else reorderFrom g i rng log stream

/-- Reorder a stream: a seeded Fisher–Yates shuffle that logs its swaps. -/
def reorderInPlace (g : Generator σ F) (seed : UInt64) (log : EventLog F)
    (stream : List SevenMessage) : List SevenMessage × EventLog F :=
  reorderFrom g (stream.length - 1) (g.seedFromU64 seed) log stream

/-- Send a whole stream: each message by itself, then perhaps a shuffle of what
    arrived. -/
def sendStream (g : Generator σ F) (ch : LossyChannel F) (msgs : List SevenMessage)
    (log : EventLog F) (seqBase : UInt64) : List SevenMessage × EventLog F :=
  let (arrivals, log) := sendFrom g ch seqBase 0 msgs log
  if 1 < arrivals.length then
    let (reorder, _) := g.unit (g.seedFromU64 (ch.seed ^^^ seqBase ^^^ 0x0052454f52444552))
    if F64.gt ch.reorderP reorder then reorderInPlace g (ch.seed ^^^ seqBase) log arrivals
    else (arrivals, log)
  else (arrivals, log)

/-- The constructor accepts every channel there is. -/
theorem new_self (ch : LossyChannel F) (log : EventLog F) :
    new ch.seed ch.lossP ch.dupP ch.reorderP log = .ok ch := by
  have hvalid := ch.valid
  simp only [List.forall_mem_cons, List.not_mem_nil, false_imp_iff, implies_true, and_true]
    at hvalid
  rw [new, dif_pos hvalid.1, dif_pos hvalid.2.1, dif_pos hvalid.2.2]

end LossyChannel

/-- The events and arrivals of sending messages one after the other. -/
inductive Sent {F : Type} : List SevenMessage → List (SevenEvent F) → List SevenMessage → Prop
  | nil : Sent [] [] []
  | lost (msg : SevenMessage) {msgs : List SevenMessage} {events : List (SevenEvent F)}
      {arrivals : List SevenMessage} (h : Sent msgs events arrivals) :
      Sent (msg :: msgs) (.transportLoss msg.id :: events) arrivals
  | duplicated (msg : SevenMessage) {msgs : List SevenMessage} {events : List (SevenEvent F)}
      {arrivals : List SevenMessage} (h : Sent msgs events arrivals) :
      Sent (msg :: msgs) (.transportDuplicate msg.id :: events) (msg :: msg :: arrivals)
  | delivered (msg : SevenMessage) {msgs : List SevenMessage} {events : List (SevenEvent F)}
      {arrivals : List SevenMessage} (h : Sent msgs events arrivals) :
      Sent (msg :: msgs) events (msg :: arrivals)

/-- The event of a swap. -/
def reordered {F : Type} (s : Nat × Nat) : SevenEvent F :=
  .transportReorder s.1 s.2

namespace LossyChannel

theorem sendFrom_eq (g : Generator σ F) (ch : LossyChannel F) (seqBase : UInt64) (i : Nat)
    (msgs : List SevenMessage) (log : EventLog F) :
    ∃ events arrivals, sendFrom g ch seqBase i msgs log = (arrivals, log.append events) ∧
      Sent msgs events arrivals := by
  induction msgs generalizing i log with
  | nil => exact ⟨[], [], by rw [sendFrom, EventLog.append_nil], .nil⟩
  | cons msg msgs ih =>
      rw [sendFrom, send]
      -- One message, and the rest of them with the log it leaves.
      cases g.fate (ch.seed ^^^ (seqBase + UInt64.ofNat i)) ch.lossP ch.dupP with
      | lost =>
          rcases ih (i + 1) (log.push (.transportLoss msg.id)) with ⟨events, arrivals, heq, hsent⟩
          refine ⟨_, _, ?_, hsent.lost msg⟩
          simp only [heq, EventLog.push_append, List.nil_append]
      | duplicated =>
          rcases ih (i + 1) (log.push (.transportDuplicate msg.id)) with
            ⟨events, arrivals, heq, hsent⟩
          refine ⟨_, _, ?_, hsent.duplicated msg⟩
          simp only [heq, EventLog.push_append, List.cons_append, List.nil_append]
      | delivered =>
          rcases ih (i + 1) log with ⟨events, arrivals, heq, hsent⟩
          refine ⟨_, _, ?_, hsent.delivered msg⟩
          simp only [heq, List.cons_append, List.nil_append]

omit [Binary64 F] in
theorem reorderFrom_eq (g : Generator σ F) (i : Nat) (rng : σ) (log : EventLog F)
    (stream : List SevenMessage) :
    ∃ swaps, reorderFrom g i rng log stream =
        (Swaps.perform stream swaps, log.append (swaps.map reordered)) ∧
      ∀ s ∈ swaps, s.2 < s.1 ∧ s.1 ≤ i := by
  induction i generalizing rng log stream with
  | zero =>
      refine ⟨[], ?_, fun s hs => absurd hs List.not_mem_nil⟩
      rw [reorderFrom, Swaps.perform_nil, List.map_nil, EventLog.append_nil]
  | succ i ih =>
      rw [reorderFrom]
      rcases g.upTo rng (i + 1) with ⟨j, rng'⟩
      by_cases hj : i + 1 = j
      · simp only [ne_eq, hj, not_true_eq_false, if_false]
        rcases ih rng' log stream with ⟨swaps, heq, hswaps⟩
        exact ⟨swaps, heq, fun s hs => ⟨(hswaps s hs).1, by have := (hswaps s hs).2; omega⟩⟩
      · simp only [ne_eq, hj, not_false_eq_true, if_true]
        rcases ih rng' (log.push (.transportReorder (i + 1) j)) (stream.swap (i + 1) j) with
          ⟨swaps, heq, hswaps⟩
        refine ⟨(i + 1, (j : Nat)) :: swaps, ?_, List.forall_mem_cons.mpr ⟨?_, ?_⟩⟩
        · rw [heq, Swaps.perform_cons, List.map_cons, EventLog.push_append, reordered]
        -- The draw is at most the position, and the two are different.
        · exact ⟨by have hlt := j.isLt; omega, Nat.le_refl _⟩
        · exact fun s hs => ⟨(hswaps s hs).1, Nat.le_succ_of_le (hswaps s hs).2⟩

omit [Binary64 F] in
/-- A shuffle performs the swaps that it logs, and they stay in the stream. -/
theorem reorderInPlace_eq (g : Generator σ F) (seed : UInt64) (log : EventLog F)
    (stream : List SevenMessage) (hstream : stream ≠ []) :
    ∃ swaps, reorderInPlace g seed log stream =
        (Swaps.perform stream swaps, log.append (swaps.map reordered)) ∧
      ∀ s ∈ swaps, s.2 < s.1 ∧ s.1 < stream.length := by
  rcases reorderFrom_eq g (stream.length - 1) (g.seedFromU64 seed) log stream with
    ⟨swaps, heq, hswaps⟩
  have hpos := List.length_pos_iff.mpr hstream
  exact ⟨swaps, heq, fun s hs => ⟨(hswaps s hs).1, by have := (hswaps s hs).2; omega⟩⟩

/-- A stream appends the faults of its sends and then the swaps of its shuffle,
    and what arrives are the arrivals of the sends with these swaps performed. -/
theorem sendStream_eq (g : Generator σ F) (ch : LossyChannel F) (msgs : List SevenMessage)
    (log : EventLog F) (seqBase : UInt64) :
    ∃ events arrivals swaps, Sent msgs events arrivals ∧
      ch.sendStream g msgs log seqBase =
        (Swaps.perform arrivals swaps, log.append (events ++ swaps.map reordered)) ∧
      ∀ s ∈ swaps, s.2 < s.1 ∧ s.1 < arrivals.length := by
  rcases sendFrom_eq g ch seqBase 0 msgs log with ⟨events, arrivals, heq, hsent⟩
  refine ⟨events, arrivals, ?_⟩
  -- Without a shuffle there are no swaps.
  have hnone : ∃ swaps, Sent msgs events arrivals ∧
      (arrivals, log.append events) =
        (Swaps.perform arrivals swaps, log.append (events ++ swaps.map reordered)) ∧
      ∀ s ∈ swaps, s.2 < s.1 ∧ s.1 < arrivals.length := by
    refine ⟨[], hsent, ?_, fun s hs => absurd hs List.not_mem_nil⟩
    rw [Swaps.perform_nil, List.map_nil, List.append_nil]
  simp only [sendStream, heq]
  split
  · split
    · rename_i hlen _
      rcases reorderInPlace_eq g (ch.seed ^^^ seqBase) (log.append events) arrivals
        (List.ne_nil_of_length_pos (by omega)) with ⟨swaps, hswaps, hbound⟩
      exact ⟨swaps, hsent, by rw [hswaps, EventLog.append_append], hbound⟩
    · exact hnone
  · exact hnone

end LossyChannel

section Account

variable {F : Type}

/-- For each message in order nothing, one loss or one duplicate with its id. -/
inductive FaultsOf : List SevenMessage → List (SevenEvent F) → Prop
  | nil : FaultsOf [] []
  | none (msg : SevenMessage) {msgs : List SevenMessage} {events : List (SevenEvent F)}
      (h : FaultsOf msgs events) : FaultsOf (msg :: msgs) events
  | loss (msg : SevenMessage) {msgs : List SevenMessage} {events : List (SevenEvent F)}
      (h : FaultsOf msgs events) : FaultsOf (msg :: msgs) (.transportLoss msg.id :: events)
  | duplicate (msg : SevenMessage) {msgs : List SevenMessage} {events : List (SevenEvent F)}
      (h : FaultsOf msgs events) : FaultsOf (msg :: msgs) (.transportDuplicate msg.id :: events)

/-- The event is a loss of this message. -/
def isLossOf (id : String) : SevenEvent F → Bool
  | .transportLoss messageId => messageId == id
  | _ => false

/-- The event is a duplication of this message. -/
def isDuplicateOf (id : String) : SevenEvent F → Bool
  | .transportDuplicate messageId => messageId == id
  | _ => false

/-- The swap that an event logs. -/
def swapOf : SevenEvent F → Option (Nat × Nat)
  | .transportReorder fromIndex toIndex => some (fromIndex, toIndex)
  | _ => none

/-- What events say about a message: dropped with a loss event, doubled with a
    duplicate event, else kept once. -/
def copiesOf (events : List (SevenEvent F)) (msg : SevenMessage) : List SevenMessage :=
  if events.any (isLossOf msg.id) then []
  else if events.any (isDuplicateOf msg.id) then [msg, msg] else [msg]

theorem mem_copiesOf_iff {events : List (SevenEvent F)} {msg x : SevenMessage} :
    x ∈ copiesOf events msg ↔ x = msg ∧ events.any (isLossOf msg.id) = false := by
  rw [copiesOf]
  cases events.any (isLossOf msg.id) with
  | true => simp only [if_true, List.not_mem_nil, Bool.true_eq_false, and_false]
  | false =>
      cases events.any (isDuplicateOf msg.id) with
      | true => simp only [Bool.false_eq_true, if_false, if_true, List.mem_cons, List.not_mem_nil,
          or_false, or_self, and_true]
      | false => simp only [Bool.false_eq_true, if_false, List.mem_singleton, and_true]

/-- What arrived, read from the messages and the events alone: the copies in
    order, and then the logged swaps. -/
def interpret (msgs : List SevenMessage) (events : List (SevenEvent F)) : List SevenMessage :=
  Swaps.perform (msgs.flatMap (copiesOf events)) (events.filterMap swapOf)

theorem Sent.faultsOf {msgs : List SevenMessage} {events : List (SevenEvent F)}
    {arrivals : List SevenMessage} (h : Sent msgs events arrivals) : FaultsOf msgs events := by
  induction h with
  | nil => exact .nil
  | lost msg _ ih => exact ih.loss msg
  | duplicated msg _ ih => exact ih.duplicate msg
  | delivered msg _ ih => exact ih.none msg

/-- Faults are about the messages that were sent. -/
theorem FaultsOf.any_eq_false {msgs : List SevenMessage} {events : List (SevenEvent F)}
    (h : FaultsOf msgs events) {id : String} (hid : ∀ m ∈ msgs, m.id ≠ id) :
    events.any (isLossOf id) = false ∧ events.any (isDuplicateOf id) = false := by
  induction h with
  | nil => exact ⟨rfl, rfl⟩
  | none msg _ ih => exact ih fun m hm => hid m (List.mem_cons_of_mem _ hm)
  | loss msg _ ih =>
      have hne : (msg.id == id) = false := beq_eq_false_iff_ne.mpr (hid msg List.mem_cons_self)
      have hrec := ih fun m hm => hid m (List.mem_cons_of_mem _ hm)
      simp only [List.any_cons, isLossOf, isDuplicateOf, hne, hrec, Bool.or_self, and_self]
  | duplicate msg _ ih =>
      have hne : (msg.id == id) = false := beq_eq_false_iff_ne.mpr (hid msg List.mem_cons_self)
      have hrec := ih fun m hm => hid m (List.mem_cons_of_mem _ hm)
      simp only [List.any_cons, isLossOf, isDuplicateOf, hne, hrec, Bool.or_self, and_self]

theorem FaultsOf.filterMap_swapOf {msgs : List SevenMessage} {events : List (SevenEvent F)}
    (h : FaultsOf msgs events) : events.filterMap swapOf = [] := by
  induction h with
  | nil => rfl
  | none msg _ ih => exact ih
  | loss msg _ ih => rw [List.filterMap_cons_none rfl, ih]
  | duplicate msg _ ih => rw [List.filterMap_cons_none rfl, ih]

/-- A swap is no loss. -/
theorem any_isLossOf_reordered (id : String) (swaps : List (Nat × Nat)) :
    (swaps.map (reordered (F := F))).any (isLossOf id) = false := by
  rw [List.any_map, List.any_eq_false]
  exact fun _ _ => Bool.false_ne_true

/-- Swaps say nothing about single messages. -/
theorem copiesOf_append_reordered (events : List (SevenEvent F)) (swaps : List (Nat × Nat))
    (msg : SevenMessage) : copiesOf (events ++ swaps.map reordered) msg = copiesOf events msg := by
  have hloss := any_isLossOf_reordered (F := F) msg.id swaps
  have hdup : (swaps.map (reordered (F := F))).any (isDuplicateOf msg.id) = false := by
    rw [List.any_map, List.any_eq_false]
    exact fun _ _ => Bool.false_ne_true
  rw [copiesOf, List.any_append, List.any_append, hloss, hdup, Bool.or_false, Bool.or_false,
    copiesOf]

theorem filterMap_swapOf_reordered (swaps : List (Nat × Nat)) :
    (swaps.map (reordered (F := F))).filterMap swapOf = swaps := by
  rw [List.filterMap_map]
  exact List.filterMap_some

theorem ne_of_notMem_map {msgs : List SevenMessage} {id : String}
    (h : id ∉ msgs.map SevenMessage.id) : ∀ m ∈ msgs, m.id ≠ id :=
  fun _ hm heq => h (heq ▸ List.mem_map_of_mem hm)

/-- The event is a fault of this message at most. -/
def NoFaultElsewhere (id : String) (event : SevenEvent F) : Prop :=
  ∀ id', id ≠ id' → isLossOf id' event = false ∧ isDuplicateOf id' event = false

/-- An event about one message leaves the copies of the others as they are. -/
theorem flatMap_copiesOf_cons {event : SevenEvent F} (events : List (SevenEvent F))
    {msgs : List SevenMessage} {id : String} (hid : id ∉ msgs.map SevenMessage.id)
    (h : NoFaultElsewhere id event) :
    msgs.flatMap (copiesOf (event :: events)) = msgs.flatMap (copiesOf events) := by
  refine List.flatMap_congr fun m hm => ?_
  have hm' := h m.id (ne_of_notMem_map hid m hm).symm
  rw [copiesOf, List.any_cons, List.any_cons, hm'.1, hm'.2, Bool.false_or, Bool.false_or, copiesOf]

/-- With distinct ids the arrivals of a list of sends are the copies that its
    events tell of. -/
theorem Sent.arrivals_eq {msgs : List SevenMessage} {events : List (SevenEvent F)}
    {arrivals : List SevenMessage} (h : Sent msgs events arrivals)
    (hids : (msgs.map SevenMessage.id).Nodup) : arrivals = msgs.flatMap (copiesOf events) := by
  induction h with
  | nil => rfl
  | @lost msg msgs events arrivals hsent ih =>
      rw [List.map_cons, List.nodup_cons] at hids
      have hhead : copiesOf (.transportLoss msg.id :: events) msg = [] := by
        rw [copiesOf, if_pos]
        simp only [List.any_cons, isLossOf, beq_self_eq_true, Bool.true_or]
      have htail := flatMap_copiesOf_cons events hids.1 (fun id hne =>
        ⟨beq_eq_false_iff_ne.mpr hne, rfl⟩ : NoFaultElsewhere msg.id (.transportLoss msg.id))
      rw [List.flatMap_cons, hhead, htail, List.nil_append, ih hids.2]
  -- The events after the first tell of other messages, since ids are distinct.
  | @duplicated msg msgs events arrivals hsent ih =>
      rw [List.map_cons, List.nodup_cons] at hids
      have hnone := hsent.faultsOf.any_eq_false (ne_of_notMem_map hids.1)
      have hhead : copiesOf (.transportDuplicate msg.id :: events) msg = [msg, msg] := by
        simp only [copiesOf, List.any_cons, isLossOf, isDuplicateOf, hnone.1, Bool.or_self,
          Bool.false_eq_true, if_false, beq_self_eq_true, Bool.true_or, if_true]
      have htail := flatMap_copiesOf_cons events hids.1 (fun id hne =>
        ⟨rfl, beq_eq_false_iff_ne.mpr hne⟩ : NoFaultElsewhere msg.id (.transportDuplicate msg.id))
      rw [List.flatMap_cons, hhead, htail, ← ih hids.2, List.cons_append, List.cons_append,
        List.nil_append]
  | @delivered msg msgs events arrivals hsent ih =>
      rw [List.map_cons, List.nodup_cons] at hids
      have hnone := hsent.faultsOf.any_eq_false (ne_of_notMem_map hids.1)
      have hhead : copiesOf events msg = [msg] := by
        rw [copiesOf, hnone.1, hnone.2, if_neg (by decide), if_neg (by decide)]
      rw [List.flatMap_cons, hhead, ← ih hids.2, List.cons_append, List.nil_append]

end Account

namespace LossyChannel

/-- The fault log accounts for every injected fault: what a stream appends is,
    for each message in order, nothing, one loss or one duplicate, and then
    swaps; and the arrivals are what these events say about the messages. -/
theorem sendStream_accounted (g : Generator σ F) (ch : LossyChannel F) (msgs : List SevenMessage)
    (hids : (msgs.map SevenMessage.id).Nodup) (log : EventLog F) (seqBase : UInt64) :
    ∃ (faults : List (SevenEvent F)) (swaps : List (Nat × Nat)), FaultsOf msgs faults ∧
      (ch.sendStream g msgs log seqBase).2 = log.append (faults ++ swaps.map reordered) ∧
      (ch.sendStream g msgs log seqBase).1 = interpret msgs (faults ++ swaps.map reordered) ∧
      ∀ s ∈ swaps, s.2 < s.1 ∧ s.1 < (ch.sendStream g msgs log seqBase).1.length := by
  rcases sendStream_eq g ch msgs log seqBase with ⟨faults, arrivals, swaps, hsent, heq, hswaps⟩
  refine ⟨faults, swaps, hsent.faultsOf, by rw [heq], ?_, ?_⟩
  · have hcopies : copiesOf (faults ++ swaps.map reordered) = copiesOf faults :=
      funext fun msg => copiesOf_append_reordered faults swaps msg
    rw [heq, interpret, hcopies, List.filterMap_append, hsent.faultsOf.filterMap_swapOf,
      filterMap_swapOf_reordered, List.nil_append, ← hsent.arrivals_eq hids]
  · rw [heq, (Swaps.perform_perm arrivals swaps).length_eq]
    exact hswaps

/-- A channel that loses nothing, doubles every message and shuffles. -/
def doubling : LossyChannel Float :=
  { seed := 1
    lossP := F64.ofInt 0
    dupP := F64.ofInt 1
    reorderP := F64.ofInt 1
    valid := by decide }

/-- The least of every range. -/
def lowest : Generator Unit Float :=
  { seedFromU64 := fun _ => ()
    unit := fun _ => (F64.ofInt 0, ())
    upTo := fun _ n => (⟨0, Nat.succ_pos n⟩, ()) }

/-- Two messages, doubled and shuffled. -/
theorem sendStream_accounted_doubled :
    let msgs : List SevenMessage := [⟨"a", "n", "m", [1], 0⟩, ⟨"b", "n", "m", [2], 0⟩]
    let sent := doubling.sendStream lowest msgs ⟨[], 0⟩ 5
    ∃ (faults : List (SevenEvent Float)) (swaps : List (Nat × Nat)), FaultsOf msgs faults ∧
      sent.2 = EventLog.append ⟨[], 0⟩ (faults ++ swaps.map reordered) ∧
      sent.1 = interpret msgs (faults ++ swaps.map reordered) ∧
      ∀ s ∈ swaps, s.2 < s.1 ∧ s.1 < sent.1.length := by
  intro msgs sent
  exact sendStream_accounted lowest doubling msgs (by decide) ⟨[], 0⟩ 5

-- What arrives there, and where the last message went.
example : (doubling.sendStream lowest
    [⟨"a", "n", "m", [1], 0⟩, ⟨"b", "n", "m", [2], 0⟩] ⟨[], 0⟩ 5).1.map SevenMessage.id =
    ["a", "b", "b", "a"] := by
  decide

end LossyChannel

end Seven
