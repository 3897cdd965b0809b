import Seven.Library.Maps
import Seven.Sim.Channel

/-!
# Simulator and Replay

The transport events of a log have two meanings: the simulator emits them for
what it does to a stream, and replay applies them to the messages it has seen.
Replay knows a message as seen from its `MessageSent` on and forgets it with a
loss; duplicates and swaps are nothing to it.

`run_transport` is what any list of transport events does to a replay, whoever
emitted it. Read against the arrivals of the stream that logged them, it says
that replay has seen exactly what arrived (`replay_sendStream`).

## Main definitions

* `IsTransport`: A loss, a duplicate or a swap.
* `insertAll`: Messages put into a map, one after the other.

## Theorems

* `run_messageSent`: Replaying that messages were sent.
* `run_transport`: Replaying transport events.
* `Sent.mem_arrivals_iff`: A message arrives unless a loss of it is logged.
* `replay_sendStream`: Replay has seen what arrived.
-/

namespace Seven

section Transport

variable {F : Type}

/-- A loss, a duplicate or a swap. -/
def IsTransport : SevenEvent F → Prop
  | .transportLoss _ | .transportDuplicate _ | .transportReorder _ _ => True
  | _ => False

theorem FaultsOf.isTransport {msgs : List SevenMessage} {events : List (SevenEvent F)}
    (h : FaultsOf msgs events) : ∀ event ∈ events, IsTransport event := by
  induction h with
  | nil => exact fun _ he => absurd he List.not_mem_nil
  | none msg _ ih => exact ih
  | loss msg _ ih => exact List.forall_mem_cons.mpr ⟨trivial, ih⟩
  | duplicate msg _ ih => exact List.forall_mem_cons.mpr ⟨trivial, ih⟩

theorem isTransport_reordered (swaps : List (Nat × Nat)) :
    ∀ event ∈ swaps.map (reordered (F := F)), IsTransport event := by
  intro event he
  rcases List.mem_map.mp he with ⟨s, _, rfl⟩
  trivial

/-- A message that was sent arrives unless a loss of it is logged. -/
theorem Sent.mem_arrivals_iff {msgs : List SevenMessage} {events : List (SevenEvent F)}
    {arrivals : List SevenMessage} (h : Sent msgs events arrivals)
    (hids : (msgs.map SevenMessage.id).Nodup) {m : SevenMessage} (hm : m ∈ msgs) :
    m.id ∈ arrivals.map SevenMessage.id ↔ events.any (isLossOf m.id) = false := by
  rw [h.arrivals_eq hids, List.mem_map]
  constructor
  · intro hexists
    rcases hexists with ⟨x, hx, hid⟩
    rcases List.mem_flatMap.mp hx with ⟨m', _, hcopy⟩
    have hcopy := mem_copiesOf_iff.mp hcopy
    rw [← hid, hcopy.1]
    exact hcopy.2
  · intro hloss
    exact ⟨m, List.mem_flatMap.mpr ⟨m, hm, mem_copiesOf_iff.mpr ⟨rfl, hloss⟩⟩, rfl⟩

end Transport

/-- Messages put into a map, one after the other. -/
def insertAll (seen : Std.ExtTreeMap String SevenMessage) (msgs : List SevenMessage) :
    Std.ExtTreeMap String SevenMessage :=
  msgs.foldl (fun seen m => seen.insert m.id m) seen

theorem getElem?_insertAll_of_notMem (seen : Std.ExtTreeMap String SevenMessage)
    {msgs : List SevenMessage} {id : String} (hid : id ∉ msgs.map SevenMessage.id) :
    (insertAll seen msgs)[id]? = seen[id]? := by
  induction msgs generalizing seen with
  | nil => rfl
  | cons m msgs ih =>
      rw [List.map_cons, List.mem_cons, not_or] at hid
      rw [insertAll, List.foldl_cons]
      exact (ih _ hid.2).trans (Maps.getElem?_insert_of_ne _ _ fun heq => hid.1 heq.symm)

theorem getElem?_insertAll_of_mem (seen : Std.ExtTreeMap String SevenMessage)
    {msgs : List SevenMessage} (hids : (msgs.map SevenMessage.id).Nodup) {m : SevenMessage}
    (hm : m ∈ msgs) : (insertAll seen msgs)[m.id]? = some m := by
  induction msgs generalizing seen with
  | nil => exact absurd hm List.not_mem_nil
  | cons m' msgs ih =>
      rw [List.map_cons, List.nodup_cons] at hids
      rw [insertAll, List.foldl_cons]
      rcases List.mem_cons.mp hm with rfl | hm
      -- The first message is not overwritten, its id being the only one of its kind.
      · exact (getElem?_insertAll_of_notMem _ hids.1).trans Std.ExtTreeMap.getElem?_insert_self
      · exact ih _ hids.2 hm

namespace ReplayEngine

variable {F : Type} [F64 F]

/-- Replaying that messages were sent. -/
theorem run_messageSent (c : Crypto) (n : Nat) (eng : ReplayEngine F) (msgs : List SevenMessage) :
    Fallible.run (apply c) n eng (msgs.map .messageSent) =
      .ok { eng with seenMessages := insertAll eng.seenMessages msgs } := by
  induction msgs generalizing n eng with
  | nil => rfl
  | cons m msgs ih =>
      have hstep : apply c eng (.messageSent m) =
          .ok { eng with seenMessages := eng.seenMessages.insert m.id m } := rfl
      rw [List.map_cons, Fallible.run_cons_ok _ hstep, ih]
      rfl

/-- Replaying transport events: the lost messages are forgotten, and nothing else
    happens. -/
theorem run_transport (c : Crypto) (n : Nat) (eng : ReplayEngine F) (events : List (SevenEvent F))
    (h : ∀ event ∈ events, IsTransport event) :
    ∃ seen : Std.ExtTreeMap String SevenMessage,
      Fallible.run (apply c) n eng events = .ok { eng with seenMessages := seen } ∧
      ∀ id, seen[id]? = if events.any (isLossOf id) then none else eng.seenMessages[id]? := by
  induction events generalizing n eng with
  | nil => exact ⟨eng.seenMessages, rfl, fun _ => rfl⟩
  | cons event events ih =>
      rw [List.forall_mem_cons] at h
      -- A loss erases, and later events find the smaller map; the others do nothing.
      cases event with
      | transportLoss messageId =>
          have hstep : apply c eng (.transportLoss messageId) =
              .ok { eng with seenMessages := eng.seenMessages.erase messageId } := rfl
          rcases ih (n + 1) { eng with seenMessages := eng.seenMessages.erase messageId } h.2 with
            ⟨seen, hrun, hseen⟩
          refine ⟨seen, by rw [Fallible.run_cons_ok _ hstep, hrun], fun id => ?_⟩
          rw [hseen, List.any_cons, isLossOf]
          by_cases hid : messageId = id
          · rw [hid, Std.ExtTreeMap.getElem?_erase_self, beq_self_eq_true, Bool.true_or, if_pos rfl,
              ite_self]
          · rw [Maps.getElem?_erase_of_ne _ hid, beq_eq_false_iff_ne.mpr hid, Bool.false_or]
      | transportDuplicate messageId => exact ih (n + 1) eng h.2
      | transportReorder fromIndex toIndex => exact ih (n + 1) eng h.2
      | _ => exact absurd h.1 not_false

/-- Simulator and replay agree on what arrived. A log that replays, with the
    messages of a stream and what sending it appends, replays as well. Of these
    messages replay then has seen the ones that arrived, as they were sent, and
    everything else is as the first log left it. -/
theorem replay_sendStream {σ F : Type} [Binary64 F] (c : Crypto) (g : Generator σ F)
    (ch : LossyChannel F) (msgs : List SevenMessage) (hids : (msgs.map SevenMessage.id).Nodup)
    (log : EventLog F) (seqBase : UInt64) (eng : ReplayEngine F) (hlog : replay c log = .ok eng) :
    ∃ eng', replay c (ch.sendStream g msgs (log.append (msgs.map .messageSent)) seqBase).2 =
        .ok eng' ∧
      (∀ m ∈ msgs, ∀ x, eng'.seenMessages[m.id]? = some x ↔
        x = m ∧ m.id ∈ (ch.sendStream g msgs (log.append (msgs.map .messageSent)) seqBase).1.map
          SevenMessage.id) ∧
      (∀ id ∉ msgs.map SevenMessage.id, eng'.seenMessages[id]? = eng.seenMessages[id]?) ∧
      eng'.nodesOnline = eng.nodesOnline ∧ eng'.db = eng.db ∧ eng'.beliefs = eng.beliefs := by
  rcases ch.sendStream_eq g msgs (log.append (msgs.map .messageSent)) seqBase with
    ⟨faults, arrivals, swaps, hsent, heq, _⟩
  have hevents : ∀ event ∈ faults ++ swaps.map reordered, IsTransport event := by
    intro event he
    rcases List.mem_append.mp he with he | he
    · exact hsent.faultsOf.isTransport event he
    · exact isTransport_reordered swaps event he
  have hloss : ∀ id, (faults ++ swaps.map reordered).any (isLossOf id) =
      faults.any (isLossOf id) := by
    intro id
    rw [List.any_append, any_isLossOf_reordered, Bool.or_false]
  rcases run_transport c msgs.length
    { eng with seenMessages := insertAll eng.seenMessages msgs } _ hevents with ⟨seen, hrun, hseen⟩
  refine ⟨{ eng with seenMessages := seen }, ?_, ?_, ?_, rfl, rfl, rfl⟩
  · rw [heq, EventLog.append_append, replay_append_eq_ok_iff]
    refine ⟨eng, hlog, ?_⟩
    rw [Fallible.run_append_of_ok _ (run_messageSent c 0 eng msgs), List.length_map, Nat.zero_add,
      hrun]
  -- A message is seen when its loss was not logged, and then it arrived.
  · intro m hm x
    have hperm := (Swaps.perform_perm arrivals swaps).map SevenMessage.id
    rw [heq, hperm.mem_iff, hsent.mem_arrivals_iff hids hm, hseen, hloss,
      getElem?_insertAll_of_mem _ hids hm]
    cases faults.any (isLossOf m.id) with
    | true => simp only [if_true, reduceCtorEq, and_false]
    | false =>
        simp only [Bool.false_eq_true, if_false, Option.some.injEq, and_true]
        exact eq_comm
  -- No fault is logged for a message that was not in the stream.
  · intro id hid
    have hnone := (hsent.faultsOf.any_eq_false (ne_of_notMem_map hid)).1
    rw [hseen, hloss, hnone, if_neg Bool.false_ne_true, getElem?_insertAll_of_notMem _ hid]

/-- A log with one node online, then two messages doubled and shuffled. -/
theorem replay_sendStream_doubled :
    let msgs : List SevenMessage := [⟨"a", "n", "m", [1], 0⟩, ⟨"b", "n", "m", [2], 0⟩]
    let log : EventLog Float := ⟨[.nodeOnline "n"], 0⟩
    let eng : ReplayEngine Float :=
      { (new : ReplayEngine Float) with
        nodesOnline := (∅ : Std.ExtTreeMap String Bool).insert "n" true }
    let sent := LossyChannel.doubling.sendStream LossyChannel.lowest msgs
      (log.append (msgs.map .messageSent)) 5
    ∃ eng', replay (.ledger []) sent.2 = .ok eng' ∧
      (∀ m ∈ msgs, ∀ x, eng'.seenMessages[m.id]? = some x ↔
        x = m ∧ m.id ∈ sent.1.map SevenMessage.id) ∧
      (∀ id ∉ msgs.map SevenMessage.id, eng'.seenMessages[id]? = eng.seenMessages[id]?) ∧
      eng'.nodesOnline = eng.nodesOnline ∧ eng'.db = eng.db ∧ eng'.beliefs = eng.beliefs := by
  intro msgs log eng sent
  exact replay_sendStream (.ledger []) LossyChannel.lowest LossyChannel.doubling msgs (by decide)
    log 5 eng ((replay_eq_ok_iff _ log eng).mpr rfl)

end ReplayEngine

end Seven
