import Seven.Belief.Gate
import Seven.Library.Maps
import Seven.Replay.Log

/-!
# Independent Events

The state of a replay falls into parts: the message under one id, the liveness
of one node, the value under one database key, and the track and gate of one
subject. Every event has at most one of them, and applying it reads and writes
that part only (`footprint_apply`).

What is left out of the parts is the conflict bookkeeping of the belief engine,
the conflict list and the previous evidence of each subject. Nothing reads it
but the flagging of conflicts itself, so it decides neither whether an event
applies nor what it does to the parts. The conflict list is also the one piece
of state in which the order of independent events shows.

Independent events therefore commute in every log, down to the fingerprint.

## Main definitions

* `Part`, `View`, `view`: The parts of a state and what is seen there.
* `part`: The part an event is about.
* `Independent`: Events that do not interfere.

## Theorems

* `mem_seen_apply`: What applying an event puts through a gate.
* `footprint_apply`: Applying an event is confined to its part.
* `agree_apply_swap`: Independent events may be exchanged in any state.
* `replay_swap`: Independent events commute in replay.
-/

namespace Seven

/-- A piece of the state of a replay. -/
inductive Part where
  | message (id : String)
  | node (id : String)
  | key (key : String)
  | subject (s : SubjectId)
  deriving DecidableEq

/-- What is seen of a state at one part. -/
inductive View (α F : Type) where
  | message (m : Option α)
  | node (online : Option Bool)
  | key (valueHash : Option Bytes32)
  | subject (track : Option (GaussianBelief F)) (seen : Finset ObservationId)

namespace SevenEvent

variable {F : Type}

/-- The part an event is about; four kinds are about none. -/
def part : SevenEvent F → Option Part
  | .observation evidence => some (.subject evidence.subject)
  | .messageSent envelope => some (.message envelope.id)
  | .transportLoss messageId => some (.message messageId)
  | .nodeOnline nodeId => some (.node nodeId)
  | .nodeOffline nodeId => some (.node nodeId)
  | .dbWrite key _ => some (.key key)
  | .dbRead key _ => some (.key key)
  | .messageReceived _ => none
  | .transportDuplicate _ => none
  | .transportReorder _ _ => none
  | .beliefUpdate _ _ => none

/-- A database read. -/
def isRead : SevenEvent F → Bool
  | .dbRead _ _ => true
  | _ => false

/-- One of the events is ignored by replay, or they are about different parts,
    or both are database reads. -/
def Independent (a b : SevenEvent F) : Prop :=
  a.part = none ∨ b.part = none ∨ a.part ≠ b.part ∨ (a.isRead = true ∧ b.isRead = true)

/-- Events of which not both are reads are independent by their parts. -/
theorem Independent.part_ne {a b : SevenEvent F} (h : a.Independent b)
    (hread : ¬ (a.isRead = true ∧ b.isRead = true)) (p : Part) (ha : a.part = some p) :
    b.part ≠ some p := by
  intro hb
  rcases h with hnone | hnone | hne | hboth
  · rw [ha] at hnone
    exact absurd hnone (by simp only [reduceCtorEq, not_false_eq_true])
  · rw [hb] at hnone
    exact absurd hnone (by simp only [reduceCtorEq, not_false_eq_true])
  · exact hne (ha.trans hb.symm)
  · exact hread hboth

/-- An event that is not about a part is about another one of the same kind. -/
theorem ne_of_part_ne {β : Type} (kind : β → Part) {event : SevenEvent F} {x y : β} {p : Part}
    (hevent : event.part = some (kind x)) (hp : event.part ≠ some p) (hy : p = kind y) :
    x ≠ y := by
  intro hxy
  rw [hevent, hy, hxy] at hp
  exact hp rfl

end SevenEvent

namespace ReplayEngine

variable {F : Type} {α : Type}

/-- What is seen of a state at one part; of a message, what `f` keeps of it. -/
def view (f : SevenMessage → α) (eng : ReplayEngine F) : Part → View α F
  | .message id => .message (eng.seenMessages[id]?.map f)
  | .node id => .node eng.nodesOnline[id]?
  | .key key => .key eng.db[key]?
  | .subject s => .subject eng.beliefs.tracks[s]? (eng.beliefs.seen s)

/-- A change of the messages shows at the messages it changes. -/
theorem view_withMessages (f : SevenMessage → α) (eng : ReplayEngine F)
    (m : Std.ExtTreeMap String SevenMessage) {p : Part}
    (h : ∀ id, p = .message id → m[id]? = eng.seenMessages[id]?) :
    ({ eng with seenMessages := m } : ReplayEngine F).view f p = eng.view f p := by
  cases p with
  | message id => rw [view, view, h id rfl]
  | node id => rfl
  | key key => rfl
  | subject s => rfl

theorem view_withNodes (f : SevenMessage → α) (eng : ReplayEngine F)
    (m : Std.ExtTreeMap String Bool) {p : Part}
    (h : ∀ id, p = .node id → m[id]? = eng.nodesOnline[id]?) :
    ({ eng with nodesOnline := m } : ReplayEngine F).view f p = eng.view f p := by
  cases p with
  | message id => rfl
  | node id => rw [view, view, h id rfl]
  | key key => rfl
  | subject s => rfl

theorem view_withDb (f : SevenMessage → α) (eng : ReplayEngine F)
    (m : Std.ExtTreeMap String Bytes32) {p : Part}
    (h : ∀ key, p = .key key → m[key]? = eng.db[key]?) :
    ({ eng with db := m } : ReplayEngine F).view f p = eng.view f p := by
  cases p with
  | message id => rfl
  | node id => rfl
  | key key => rw [view, view, h key rfl]
  | subject s => rfl

theorem view_withBeliefs (f : SevenMessage → α) (eng : ReplayEngine F)
    (beliefs : BeliefEngine F) {p : Part}
    (h : ∀ s, p = .subject s → beliefs.tracks[s]? = eng.beliefs.tracks[s]? ∧
      beliefs.seen s = eng.beliefs.seen s) :
    ({ eng with beliefs } : ReplayEngine F).view f p = eng.view f p := by
  cases p with
  | message id => rfl
  | node id => rfl
  | key key => rfl
  | subject s => rw [view, view, (h s rfl).1, (h s rfl).2]

section Apply

variable [F64 F]

/-- An observation applies when the engine takes it, whatever it answers. -/
theorem apply_observation_eq_ok_iff (c : Crypto) (eng eng' : ReplayEngine F) (e : Evidence) :
    apply c eng (.observation e) = .ok eng' ↔
      (∃ b, (eng.beliefs.incorporate c e).2 = .ok b) ∧
        eng' = { eng with beliefs := (eng.beliefs.incorporate c e).1 } := by
  rw [apply]
  rcases eng.beliefs.incorporate c e with ⟨beliefs, answer⟩
  cases answer with
  | error err => simp only [reduceCtorEq, exists_false, false_and]
  | ok b => simp only [Except.ok.injEq, exists_eq', true_and, eq_comm]

theorem apply_observation_of_ok {c : Crypto} {eng : ReplayEngine F} {e : Evidence}
    {beliefs : BeliefEngine F} {b : Bool}
    (h : eng.beliefs.incorporate c e = (beliefs, .ok b)) :
    apply c eng (.observation e) = .ok { eng with beliefs } := by
  rw [apply, h]

/-- A database read applies when the key was written, and changes nothing. -/
theorem apply_dbRead_eq_ok_iff (c : Crypto) (eng eng' : ReplayEngine F) (key : String)
    (valueHash : Bytes32) :
    apply c eng (.dbRead key valueHash) = .ok eng' ↔
      (∃ written, eng.db[key]? = some written) ∧ eng' = eng := by
  rw [apply, ← Option.isSome_iff_exists, ← Std.ExtTreeMap.contains_eq_isSome_getElem?]
  cases eng.db.contains key with
  | true => simp only [if_true, Except.ok.injEq, true_and, eq_comm]
  | false => simp only [Bool.false_eq_true, if_false, reduceCtorEq, false_and]

/-- Only an observation puts something through a gate, its own id. -/
theorem mem_seen_apply {c : Crypto} {eng eng' : ReplayEngine F} {event : SevenEvent F}
    (h : apply c eng event = .ok eng') (s : SubjectId) (id : ObservationId) :
    id ∈ eng'.beliefs.seen s ↔
      id ∈ eng.beliefs.seen s ∨
        ∃ e, event = .observation e ∧ e.subject = s ∧ e.observationId = id := by
  cases event with
  | observation e =>
      rcases (apply_observation_eq_ok_iff c eng eng' e).mp h with ⟨hok, heng⟩
      -- Evidence that does not verify fails, so what applies went through the gate.
      have hv := ((BeliefEngine.exists_ok_incorporate_iff c eng.beliefs e).mp hok).1
      simp only [heng, BeliefEngine.mem_seen_incorporate, hv, true_and,
        SevenEvent.observation.injEq, exists_eq_left']
  | dbRead key valueHash =>
      rw [((apply_dbRead_eq_ok_iff c eng eng' key valueHash).mp h).2]
      simp only [reduceCtorEq, false_and, exists_false, or_false]
  | _ =>
      rw [← Except.ok.inj h]
      simp only [reduceCtorEq, false_and, exists_false, or_false]

/-- Applying an event leaves every other part as it was. -/
theorem view_apply_of_ne (f : SevenMessage → α) (c : Crypto) {eng eng' : ReplayEngine F}
    {event : SevenEvent F} {p : Part} (h : apply c eng event = .ok eng')
    (hp : event.part ≠ some p) : eng'.view f p = eng.view f p := by
  cases event with
  -- Of what is seen, the engine writes the track and the gate of the subject.
  | observation e =>
      rw [((apply_observation_eq_ok_iff c eng eng' e).mp h).2]
      refine view_withBeliefs f eng _ fun s hs => ?_
      have hne : e.subject ≠ s := SevenEvent.ne_of_part_ne .subject rfl hp hs
      rw [BeliefEngine.tracks_incorporate_of_ne c _ e hne, BeliefEngine.seen_incorporate,
        if_neg fun hand => hne hand.2]
      exact ⟨rfl, rfl⟩
  | messageSent m =>
      rw [← Except.ok.inj h]
      refine view_withMessages f eng _ fun id hid => ?_
      have hne : m.id ≠ id := SevenEvent.ne_of_part_ne .message rfl hp hid
      exact Maps.getElem?_insert_of_ne _ _ hne
  | transportLoss messageId =>
      rw [← Except.ok.inj h]
      refine view_withMessages f eng _ fun id hid => ?_
      have hne : messageId ≠ id := SevenEvent.ne_of_part_ne .message rfl hp hid
      exact Maps.getElem?_erase_of_ne _ hne
  | nodeOnline nodeId =>
      rw [← Except.ok.inj h]
      refine view_withNodes f eng _ fun id hid => ?_
      have hne : nodeId ≠ id := SevenEvent.ne_of_part_ne .node rfl hp hid
      exact Maps.getElem?_insert_of_ne _ _ hne
  | nodeOffline nodeId =>
      rw [← Except.ok.inj h]
      refine view_withNodes f eng _ fun id hid => ?_
      have hne : nodeId ≠ id := SevenEvent.ne_of_part_ne .node rfl hp hid
      exact Maps.getElem?_insert_of_ne _ _ hne
  | dbWrite key valueHash =>
      rw [← Except.ok.inj h]
      refine view_withDb f eng _ fun k hk => ?_
      have hne : key ≠ k := SevenEvent.ne_of_part_ne .key rfl hp hk
      exact Maps.getElem?_insert_of_ne _ _ hne
  -- The other events write nothing that is seen.
  | dbRead key valueHash => rw [((apply_dbRead_eq_ok_iff c eng eng' key valueHash).mp h).2]
  | messageReceived m => rw [← Except.ok.inj h]
  | transportDuplicate messageId => rw [← Except.ok.inj h]
  | transportReorder fromIndex toIndex => rw [← Except.ok.inj h]
  | beliefUpdate subject posterior => rw [← Except.ok.inj h]

/-- What applying an event does to its part depends on this part alone. -/
theorem view_apply_congr (f : SevenMessage → α) (c : Crypto) {eng eng' : ReplayEngine F}
    {event : SevenEvent F} (h : ∀ p, event.part = some p → eng.view f p = eng'.view f p) :
    Fallible.Agree (fun s t => ∀ p, event.part = some p → s.view f p = t.view f p)
      (apply c eng event) (apply c eng' event) := by
  cases event with
  | observation e =>
      have hview := h (.subject e.subject) rfl
      rw [view, view, View.subject.injEq] at hview
      have hcongr := BeliefEngine.incorporate_congr c hview.1 hview.2
      refine Fallible.agree_iff.mpr ⟨?_, fun s t hs ht p hp => ?_⟩
      · simp only [apply_observation_eq_ok_iff, exists_and_left, exists_eq, and_true, hcongr.1]
      · rw [((apply_observation_eq_ok_iff c eng s e).mp hs).2,
          ((apply_observation_eq_ok_iff c eng' t e).mp ht).2, ← Option.some.inj hp, view, view,
          hcongr.2, BeliefEngine.seen_incorporate, BeliefEngine.seen_incorporate, hview.2]
  -- What these write comes from the event alone.
  | messageSent m =>
      intro p hp
      rw [← Option.some.inj hp]
      simp only [view, Std.ExtTreeMap.getElem?_insert_self]
  | transportLoss messageId =>
      intro p hp
      rw [← Option.some.inj hp]
      simp only [view, Std.ExtTreeMap.getElem?_erase_self]
  | nodeOnline nodeId =>
      intro p hp
      rw [← Option.some.inj hp]
      simp only [view, Std.ExtTreeMap.getElem?_insert_self]
  | nodeOffline nodeId =>
      intro p hp
      rw [← Option.some.inj hp]
      simp only [view, Std.ExtTreeMap.getElem?_insert_self]
  | dbWrite key valueHash =>
      intro p hp
      rw [← Option.some.inj hp]
      simp only [view, Std.ExtTreeMap.getElem?_insert_self]
  -- Whether the key was written is seen at its part.
  | dbRead key valueHash =>
      have hview := h (.key key) rfl
      rw [view, view, View.key.injEq] at hview
      refine Fallible.agree_iff.mpr ⟨?_, fun s t hs ht p hp => ?_⟩
      · simp only [apply_dbRead_eq_ok_iff, exists_and_left, exists_eq, and_true, hview]
      · rw [((apply_dbRead_eq_ok_iff c eng s key valueHash).mp hs).2,
          ((apply_dbRead_eq_ok_iff c eng' t key valueHash).mp ht).2]
        exact h p hp
  | messageReceived m => exact fun p hp => h p hp
  | transportDuplicate messageId => exact fun p hp => h p hp
  | transportReorder fromIndex toIndex => exact fun p hp => h p hp
  | beliefUpdate subject posterior => exact fun p hp => h p hp

/-- Applying an event is confined to its part. -/
theorem footprint_apply (f : SevenMessage → α) (c : Crypto) :
    Fallible.Footprint (apply (F := F) c) SevenEvent.part (view f) where
  frame := view_apply_of_ne f c
  locality := view_apply_congr f c

theorem eq_of_apply_isRead (c : Crypto) {event : SevenEvent F} (hread : event.isRead = true)
    {eng eng' : ReplayEngine F} (h : apply c eng event = .ok eng') : eng' = eng := by
  cases event with
  | dbRead key valueHash => exact ((apply_dbRead_eq_ok_iff c eng eng' key valueHash).mp h).2
  | _ => exact absurd hread Bool.false_ne_true

/-- Independent events may be exchanged in any state. -/
theorem agree_apply_swap (c : Crypto) {a b : SevenEvent F} (h : a.Independent b)
    (eng : ReplayEngine F) :
    Fallible.Agree (Fallible.SameView (view id)) ((apply c eng a).bind fun s => apply c s b)
      ((apply c eng b).bind fun s => apply c s a) := by
  by_cases hread : a.isRead = true ∧ b.isRead = true
  · exact Fallible.agree_swap_of_readOnly (fun _ _ => rfl) (eq_of_apply_isRead c hread.1)
      (eq_of_apply_isRead c hread.2) eng
  · exact (footprint_apply id c).agree_swap (h.part_ne hread) eng

end Apply

/-- States that show the same have the same maps. -/
theorem maps_eq_of_sameView {eng eng' : ReplayEngine F}
    (h : Fallible.SameView (view id) eng eng') :
    eng.seenMessages = eng'.seenMessages ∧ eng.nodesOnline = eng'.nodesOnline ∧
      eng.db = eng'.db ∧ eng.beliefs.tracks = eng'.beliefs.tracks := by
  refine ⟨?_, ?_, ?_, ?_⟩
  · refine Std.ExtTreeMap.ext_getElem? fun id => ?_
    have hid := View.message.inj (h (.message id))
    rwa [Option.map_id, id_eq, id_eq] at hid
  · exact Std.ExtTreeMap.ext_getElem? fun id => View.node.inj (h (.node id))
  · exact Std.ExtTreeMap.ext_getElem? fun key => View.key.inj (h (.key key))
  · exact Std.ExtTreeMap.ext_getElem? fun s => (View.subject.inj (h (.subject s))).1

/-- Independent events commute in replay: wherever they are next to each other
    in a log, exchanging them leaves a log that replays exactly when the log
    does, to the same messages, nodes, database, tracks and fingerprint. -/
theorem replay_swap [Binary64 F] (c : Crypto) (seed : UInt64) (pre post : List (SevenEvent F))
    (a b : SevenEvent F) (h : a.Independent b) :
    ((∃ eng, replay c ⟨pre ++ a :: b :: post, seed⟩ = .ok eng) ↔
        ∃ eng, replay c ⟨pre ++ b :: a :: post, seed⟩ = .ok eng) ∧
      ∀ eng eng', replay c ⟨pre ++ a :: b :: post, seed⟩ = .ok eng →
        replay c ⟨pre ++ b :: a :: post, seed⟩ = .ok eng' →
        eng.seenMessages = eng'.seenMessages ∧ eng.nodesOnline = eng'.nodesOnline ∧
          eng.db = eng'.db ∧ eng.beliefs.tracks = eng'.beliefs.tracks ∧
          eng.stateFingerprint c = eng'.stateFingerprint c := by
  have hagree := (footprint_apply id c).agree_run_swap (agree_apply_swap c h) 0 new pre post
  simp only [replay_eq_ok_iff]
  rw [Fallible.agree_iff] at hagree
  refine ⟨hagree.1, fun eng eng' heng heng' => ?_⟩
  rcases maps_eq_of_sameView (hagree.2 eng eng' heng heng') with ⟨hm, hn, hd, ht⟩
  refine ⟨hm, hn, hd, ht, ?_⟩
  rw [stateFingerprint, stateFingerprint, hashedBytes, hashedBytes, hm, hn, hd, ht]

/-- A log of observations that verify and decode replays. -/
theorem exists_replay_observations [Binary64 F] (c : Crypto) (seed : UInt64) {es : List Evidence}
    (h : ∀ e ∈ es, e.verify c = .ok () ∧ e.Decodes) :
    ∃ eng : ReplayEngine F, replay c ⟨es.map .observation, seed⟩ = .ok eng := by
  simp only [replay_eq_ok_iff]
  refine Fallible.exists_run_ok (apply c) (fun event hevent eng => ?_) 0 new
  rcases List.mem_map.mp hevent with ⟨e, he, rfl⟩
  rcases h e he with ⟨hv, hd⟩
  exact ⟨_, (apply_observation_eq_ok_iff c eng _ e).mpr
    ⟨(eng.beliefs.exists_ok_incorporate_iff c e).mpr ⟨hv, Or.inl hd⟩, rfl⟩⟩

/-- Observations of two subjects, in either order: both logs replay, to one
    state as far as the fingerprint sees it. -/
theorem replay_swap_observations :
    let e := Evidence.minted (Vector.replicate 32 7) ⟨"ac"⟩ (.atRest 5)
    let e' := Evidence.minted (Vector.replicate 32 7) ⟨"bd"⟩ (.atRest 6)
    let c := Evidence.ledgerOf [e, e']
    let a : SevenEvent Float := .observation e
    let b : SevenEvent Float := .observation e'
    ∃ eng eng' : ReplayEngine Float, replay c ⟨[] ++ a :: b :: [], 0⟩ = .ok eng ∧
      replay c ⟨[] ++ b :: a :: [], 0⟩ = .ok eng' ∧
      eng.seenMessages = eng'.seenMessages ∧ eng.nodesOnline = eng'.nodesOnline ∧
      eng.db = eng'.db ∧ eng.beliefs.tracks = eng'.beliefs.tracks ∧
      eng.stateFingerprint c = eng'.stateFingerprint c := by
  intro e e' c a b
  have hgood : ∀ x ∈ [e, e'], x.verify c = .ok () ∧ x.Decodes := by
    intro x hx
    rcases List.mem_pair.mp hx with rfl | rfl
    · exact ⟨Evidence.verify_minted e.observationId List.mem_cons_self,
        Evidence.decodes_minted _ _ _⟩
    · exact ⟨Evidence.verify_minted e'.observationId
        (List.mem_cons_of_mem e List.mem_cons_self), Evidence.decodes_minted _ _ _⟩
  have hswap := replay_swap (F := Float) c 0 [] [] a b (Or.inr (Or.inr (Or.inl (by decide))))
  rcases exists_replay_observations (F := Float) c 0 hgood with ⟨eng, heng⟩
  rcases hswap.1.mp ⟨eng, heng⟩ with ⟨eng', heng'⟩
  exact ⟨eng, eng', heng, heng', hswap.2 eng eng' heng heng'⟩

end ReplayEngine

end Seven
