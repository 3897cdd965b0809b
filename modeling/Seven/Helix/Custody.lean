import Seven.Evidence.Tamper
import Seven.Helix.Queries

/-!
# Custody Chains in the Graph

An evidence is persisted as its node and one relay node for each hop, and the hops
are found again through the evidence id. Persisting a copy that came by later
creates a second node with the same id. Every hop that is written then is linked to
both, and a read starts from both.

`custody` is what stands at the nodes that hold an id, one after the other: each has
the hops written since it was created. So a read returns the hops of all copies,
and some of them as often as there are nodes (`readsBack_iff`). It is exact when
each hop was written once and with one holder.

## Main definitions

* `persist`: Writing an evidence and its chain.
* `ReadsBack`: A read returns the hops of a copy, each once, and nothing else.
* `custody`: The hops that each holder of an id leads to.
* `Held`: The graph holds them.

## Theorems

* `Held.persistAll`: What is held after copies were persisted.
* `perm_dedup_custody`: Every hop that was written, once.
* `readsBack_iff`: When the last copy's chain reads back.
-/

namespace Seven

namespace Helix

open PropertyGraph

/-- Write an evidence and its custody chain. -/
def persist (e : Evidence) : List QueryRequest :=
  writeEvidence e :: writeProvenance e

/-- The request that reads the chain of an evidence. -/
def readProvenanceOf (e : Evidence) : QueryRequest :=
  readProvenance.withParameterValue "evidence_id" (.string (hex32 e.evidenceId.bytes))

/-- Reading the chain of an evidence returns every hop of it once and no other. -/
def ReadsBack (distinct : Bool) (g : Store) (e : Evidence) : Prop :=
  ∃ rows, (exec distinct g (readProvenanceOf e)).2.lookup "relays" = some (.rows rows) ∧
    rows.Perm (e.provenance.hops.map hopRow)

/-- What each holder leads to, when they were created one after the other, each
    just before its part was written. -/
def custody {α : Type} : List (List α) → List (List α)
  | [] => []
  | part :: parts => (part ++ parts.flatten) :: custody parts

section Custody

variable {α β : Type}

theorem custody_concat (parts : List (List α)) (part : List α) :
    custody (parts ++ [part]) = (custody parts).map (· ++ part) ++ [part] := by
  induction parts with
  | nil => simp only [List.nil_append, custody, List.flatten_nil, List.append_nil, List.map_nil]
  | cons first parts ih =>
      rw [List.cons_append, custody, ih, custody, List.map_cons, List.cons_append,
        List.flatten_concat, List.append_assoc]

/-- What is written next comes to every holder. -/
theorem map_custody_concat (parts : List (List α)) (part : List α) (a : α) :
    (custody (parts ++ [part])).map (· ++ [a]) = custody (parts ++ [part ++ [a]]) := by
  rw [custody_concat, custody_concat, List.map_append, List.map_map, List.map_singleton]
  congr 1
  refine List.map_congr_left ?_
  intro ids _
  exact List.append_assoc ids part [a]

theorem custody_map (f : α → β) (parts : List (List α)) :
    custody (parts.map (List.map f)) = (custody parts).map (List.map f) := by
  induction parts with
  | nil => rfl
  | cons part parts ih =>
      rw [List.map_cons, custody, ih, custody, List.map_cons, List.map_append, List.map_flatten]

theorem mem_flatten_custody {parts : List (List α)} {a : α} :
    a ∈ (custody parts).flatten ↔ a ∈ parts.flatten := by
  induction parts with
  | nil => rfl
  | cons part parts ih =>
      rw [custody, List.flatten_cons, List.flatten_cons, List.mem_append, List.mem_append, ih,
        or_assoc, or_self]

/-- Taken once, what the holders lead to is what was written. -/
theorem perm_dedup_custody [DecidableEq α] {parts : List (List α)} (h : parts.flatten.Nodup) :
    ((custody parts).flatten.dedup).Perm parts.flatten := by
  rw [List.perm_ext_iff_of_nodup (List.nodup_dedup _) h]
  intro a
  rw [List.mem_dedup, mem_flatten_custody]

/-- Taken once for every holder, it is the last part exactly when there is no other
    holder or nothing was written at all. -/
theorem length_custody_concat_iff {parts : List (List α)} {part : List α}
    (h : part = [] → ∀ p ∈ parts, p = []) :
    (custody (parts ++ [part])).flatten.length = part.length ↔ parts = [] ∨ part = [] := by
  rw [custody_concat, List.flatten_concat, List.length_append]
  constructor
  · intro hlen
    cases parts with
    | nil => exact Or.inl rfl
    | cons first parts =>
        -- The first holder leads to the last part as well.
        right
        rw [custody, List.map_cons, List.flatten_cons, List.length_append, List.length_append]
          at hlen
        exact List.eq_nil_of_length_eq_zero (by omega)
  · intro hor
    rcases hor with hparts | hpart
    · rw [hparts, custody, List.map_nil, List.flatten_nil, List.length_nil, Nat.zero_add]
    · have hnil : ∀ a, a ∉ (custody parts).flatten := by
        intro a ha
        rw [mem_flatten_custody, List.mem_flatten] at ha
        rcases ha with ⟨p, hp, ha⟩
        rw [h hpart p hp] at ha
        exact List.not_mem_nil ha
      have happ : (· ++ part : List α → List α) = id := by
        funext ids
        rw [hpart, List.append_nil, id]
      rw [happ, List.map_id, List.eq_nil_iff_forall_not_mem.mpr hnil, List.length_nil,
        Nat.zero_add]

end Custody

/-- The graph holds these parts of a chain at the nodes of an id: the holders lead
    to relay nodes, all different, whose rows are those of the hops. -/
structure Held (g : Store) (v : PropertyValue) (parts : List (List Nat))
    (hops : List (List ProvenanceHop)) : Prop where
  wellFormed : g.WellFormed
  reads : (holders g v).map (g.outOf "FORWARDED_TO") = custody parts
  stored : ∀ i ∈ parts.flatten, i < g.nodes.length
  nodup : parts.flatten.Nodup
  rows : parts.map (List.map (rowAt g)) = hops.map (List.map hopRow)

namespace Held

variable {g : Store} {v : PropertyValue} {parts : List (List Nat)}
  {hops : List (List ProvenanceHop)}

theorem fresh (hg : g.WellFormed) (hv : holders g v = []) : Held g v [] [] :=
  ⟨hg, by rw [hv]; rfl, fun _ h => absurd h List.not_mem_nil, List.nodup_nil, rfl⟩

/-- Rows of nodes that are there stay. -/
theorem map_rowAt_congr {g g' : Store} (hrow : ∀ i < g.nodes.length, rowAt g' i = rowAt g i)
    (hstored : ∀ i ∈ parts.flatten, i < g.nodes.length) :
    parts.map (List.map (rowAt g')) = parts.map (List.map (rowAt g)) := by
  refine List.map_congr_left fun part hpart => List.map_congr_left fun i hi => ?_
  exact hrow i (hstored i (List.mem_flatten_of_mem hpart hi))

theorem rowAt_addNode {x : Node PropertyValue} {i : Nat} (hi : i < g.nodes.length) :
    rowAt (g.addNode x) i = rowAt g i := by
  unfold rowAt
  simp only [Graph.prop_addNode g x hi]

/-- Writing an evidence of the id begins a part. -/
theorem writeEvidence (h : Held g v parts hops) (distinct : Bool) {e : Evidence}
    (hv : idValue e.evidenceId = v) :
    Held (exec distinct g (writeEvidence e)).1 v (parts ++ [[]]) (hops ++ [[]]) := by
  have hlen : ((g.addNode (sourceNode e)).addNode (evidenceNode e)).nodes.length =
      g.nodes.length + 2 := by
    rw [Graph.length_nodes_addNode, Graph.length_nodes_addNode]
  -- The one new edge is not of the chain.
  have hout : (exec distinct g (Helix.writeEvidence e)).1.outOf "FORWARDED_TO" =
      g.outOf "FORWARDED_TO" := by
    funext i
    rw [exec_writeEvidence, Graph.outOf_addEdges_of_ne, Graph.outOf_addNode, Graph.outOf_addNode]
    intro edge hedge
    rw [List.mem_singleton.mp hedge]
    change "PRODUCED" ≠ "FORWARDED_TO"
    decide
  have hflatten : (parts ++ [[]]).flatten = parts.flatten := by
    rw [List.flatten_concat, List.append_nil]
  refine ⟨?_, ?_, ?_, ?_, ?_⟩
  · rw [exec_writeEvidence]
    refine ((h.wellFormed.addNode _).addNode _).addEdges ?_
    intro edge hedge
    rw [List.mem_singleton.mp hedge, hlen]
    change g.nodes.length < g.nodes.length + 2 ∧ g.nodes.length + 1 < g.nodes.length + 2
    omega
  · have hnew : g.outOf "FORWARDED_TO" (g.nodes.length + 1) = [] :=
      Graph.outOf_of_length_le h.wellFormed _ (by omega)
    have hnil : (· ++ [] : List Nat → List Nat) = id := by
      funext ids
      rw [List.append_nil, id]
    rw [holders_writeEvidence, if_pos hv, custody_concat, hnil, List.map_id, List.map_append,
      List.map_singleton, hout, hnew, ← h.reads]
  · intro i hi
    rw [hflatten] at hi
    rw [exec_writeEvidence, Graph.nodes_addEdges, hlen]
    have hlt := h.stored i hi
    omega
  · rw [hflatten]
    exact h.nodup
  · rw [List.map_append, List.map_append, ← h.rows]
    refine congrArg (· ++ [[]]) (map_rowAt_congr ?_ h.stored)
    intro i hi
    rw [exec_writeEvidence]
    exact (rowAt_addNode (by rw [Graph.length_nodes_addNode]; omega)).trans (rowAt_addNode hi)

/-- An id beyond all others is a new one. -/
theorem nodup_concat_of_lt {ids : List Nat} {n : Nat} (hnodup : ids.Nodup)
    (hlt : ∀ i ∈ ids, i < n) : (ids ++ [n]).Nodup := by
  rw [List.nodup_append]
  refine ⟨hnodup, List.nodup_singleton n, ?_⟩
  intro i hi j hj hij
  have hin := hlt i hi
  rw [hij, List.mem_singleton.mp hj] at hin
  exact Nat.lt_irrefl n hin

/-- Writing a hop adds it to the last part, at every holder. -/
theorem writeHop {part : List Nat} {hs : List ProvenanceHop} {evHex : String}
    (h : Held g (.string evHex) (parts ++ [part]) (hops ++ [hs])) (distinct : Bool)
    (hop : ProvenanceHop) :
    Held (exec distinct g (writeHop evHex hop)).1 (.string evHex)
      (parts ++ [part ++ [g.nodes.length]]) (hops ++ [hs ++ [hop]]) := by
  have hflatten : (parts ++ [part ++ [g.nodes.length]]).flatten =
      (parts ++ [part]).flatten ++ [g.nodes.length] := by
    rw [List.flatten_concat, List.flatten_concat, List.append_assoc]
  refine ⟨?_, ?_, ?_, ?_, ?_⟩
  -- The new edges lead from the holders to the new node, which is the last one.
  · rw [exec_writeHop]
    refine (h.wellFormed.addNode _).addEdges ?_
    intro edge hedge
    rcases List.mem_map.mp hedge with ⟨i, hi, rfl⟩
    have hlt := Graph.lt_of_mem_select hi
    rw [Graph.length_nodes_addNode]
    change i < g.nodes.length + 1 ∧ g.nodes.length < g.nodes.length + 1
    omega
  -- A holder is listed once, so it gets one edge, after those it had.
  · rw [holders_writeHop, ← map_custody_concat, ← h.reads, List.map_map]
    refine List.map_congr_left ?_
    intro i hi
    have hnodup : (holders g (.string evHex)).Nodup := Graph.nodup_select g _ _ _
    rw [exec_writeHop, Graph.outOf_addEdges_drawn _ hnodup, if_pos hi, Graph.outOf_addNode,
      Function.comp_apply]
  · intro i hi
    rw [hflatten, List.mem_append, List.mem_singleton] at hi
    rw [exec_writeHop, Graph.nodes_addEdges, Graph.length_nodes_addNode]
    rcases hi with hi | hi
    · have hlt := h.stored i hi
      omega
    · omega
  · rw [hflatten]
    exact nodup_concat_of_lt h.nodup h.stored
  · have hnew : rowAt (exec distinct g (Helix.writeHop evHex hop)).1 g.nodes.length =
        hopRow hop := by
      rw [exec_writeHop]
      unfold rowAt hopRow
      simp only [Graph.prop_addEdges, Graph.prop_length_addNode]
      rfl
    have hold : ∀ i < g.nodes.length,
        rowAt (exec distinct g (Helix.writeHop evHex hop)).1 i = rowAt g i := by
      intro i hi
      rw [exec_writeHop]
      exact rowAt_addNode hi
    have hrows := (map_rowAt_congr hold h.stored).trans h.rows
    simp only [List.map_append, List.map_singleton, List.append_singleton_inj] at hrows ⊢
    exact ⟨hrows.1, hrows.2, hnew⟩

/-- Writing a chain adds its hops to the last part. -/
theorem writeHops (distinct : Bool) {evHex : String} (chain : List ProvenanceHop) {part : List Nat}
    {hs : List ProvenanceHop} (h : Held g (.string evHex) (parts ++ [part]) (hops ++ [hs])) :
    ∃ part', Held (execAll distinct g (chain.map (Helix.writeHop evHex))) (.string evHex)
      (parts ++ [part']) (hops ++ [hs ++ chain]) := by
  induction chain generalizing g part hs with
  | nil => exact ⟨part, by rwa [List.append_nil]⟩
  | cons hop chain ih =>
      rcases ih (h.writeHop distinct hop) with ⟨part', h'⟩
      rw [List.append_assoc, List.singleton_append] at h'
      exact ⟨part', h'⟩

/-- Persisting an evidence of the id adds its chain as a part. -/
theorem persist (h : Held g v parts hops) (distinct : Bool) {e : Evidence}
    (hv : idValue e.evidenceId = v) :
    ∃ part, Held (execAll distinct g (persist e)) v (parts ++ [part])
      (hops ++ [e.provenance.hops]) := by
  subst hv
  exact writeHops distinct e.provenance.hops (h.writeEvidence distinct rfl)

/-- Persisting copies one after the other adds their chains. -/
theorem persistAll (distinct : Bool) (es : List Evidence)
    (hes : ∀ e ∈ es, idValue e.evidenceId = v) (h : Held g v parts hops) :
    ∃ parts', Held (execAll distinct g (es.flatMap Helix.persist)) v parts'
      (hops ++ es.map fun e => e.provenance.hops) := by
  induction es generalizing g parts hops with
  | nil => exact ⟨parts, by rwa [List.map_nil, List.append_nil]⟩
  | cons e es ih =>
      rcases h.persist distinct (hes e List.mem_cons_self) with ⟨part, h⟩
      rcases ih (fun e he => hes e (List.mem_cons_of_mem _ he)) h with ⟨parts', h⟩
      rw [List.append_assoc, List.singleton_append] at h
      rw [List.flatMap_cons, execAll_append]
      exact ⟨parts', h⟩

theorem flatMap_outOf (h : Held g v parts hops) :
    (holders g v).flatMap (g.outOf "FORWARDED_TO") = (custody parts).flatten := by
  rw [← h.reads, List.flatMap]

/-- What is read, when a node is returned once. -/
theorem perm_relayRows_distinct (h : Held g v parts hops) :
    (relayRows true g v).Perm (hops.flatten.map hopRow) := by
  have hrows : parts.flatten.map (rowAt g) = hops.flatten.map hopRow := by
    rw [List.map_flatten, List.map_flatten, h.rows]
  rw [relayRows, h.flatMap_outOf, reached, if_pos rfl, ← hrows]
  exact (perm_dedup_custody h.nodup).map _

/-- What is read, when it is returned once for every edge. -/
theorem relayRows_edges (h : Held g v parts hops) :
    relayRows false g v = (custody hops).flatten.map hopRow := by
  rw [relayRows, h.flatMap_outOf, reached, if_neg Bool.false_ne_true, List.map_flatten,
    ← custody_map, h.rows, custody_map, ← List.map_flatten]

end Held

/-- Beside the last chain no hop was written, or no holder was there before where a
    node is returned once for every edge. -/
def WrittenOnce : Bool → List (List ProvenanceHop) → List ProvenanceHop → Prop
  | true, earlier, _ => ∀ hs ∈ earlier, hs = []
  | false, earlier, chain => earlier = [] ∨ chain = []

/-- What is read is the last chain exactly when it was written once. -/
theorem Held.perm_relayRows_iff {g : Store} {v : PropertyValue} {parts : List (List Nat)}
    {earlier : List (List ProvenanceHop)} {chain : List ProvenanceHop}
    (h : Held g v parts (earlier ++ [chain])) (hpart : chain = [] → ∀ hs ∈ earlier, hs = [])
    (distinct : Bool) :
    (relayRows distinct g v).Perm (chain.map hopRow) ↔ WrittenOnce distinct earlier chain := by
  cases distinct with
  | true =>
      have hperm := h.perm_relayRows_distinct
      rw [List.flatten_concat, List.map_append] at hperm
      constructor
      · intro hread
        have hlen := (hperm.symm.trans hread).length_eq
        rw [List.length_append, List.length_map, List.length_map] at hlen
        exact List.flatten_eq_nil_iff.mp (List.eq_nil_of_length_eq_zero (by omega))
      · intro hnil
        rw [List.flatten_eq_nil_iff.mpr hnil, List.map_nil, List.nil_append] at hperm
        exact hperm
  | false =>
      rw [h.relayRows_edges, WrittenOnce, ← length_custody_concat_iff hpart]
      constructor
      · intro hread
        have hlen := hread.length_eq
        rwa [List.length_map, List.length_map] at hlen
      · intro hlen
        -- The last chain is read, so with that length nothing else is.
        rw [custody_concat, List.flatten_concat] at hlen ⊢
        rw [List.length_append] at hlen
        have hnil : ((custody earlier).map (· ++ chain)).flatten = [] :=
          List.eq_nil_of_length_eq_zero (by omega)
        rw [hnil, List.nil_append]

theorem readsBack_iff_perm (distinct : Bool) (g : Store) (e : Evidence) :
    ReadsBack distinct g e ↔
      (relayRows distinct g (idValue e.evidenceId)).Perm (e.provenance.hops.map hopRow) := by
  unfold ReadsBack readProvenanceOf
  rw [readProvenance_relays]
  simp only [Option.some.injEq, Binding.rows.injEq, exists_eq_left']
  rfl

/-- The copies of an evidence after so many hops, the last one with all of them. -/
def copies (e : Evidence) (hops : List ProvenanceHop) (earlier : List Nat) : List Evidence :=
  (earlier.map fun k => e.forwards (hops.take k)) ++ [e.forwards hops]

/-- Copies of origin evidence carry its id and the hops they made. -/
theorem forwards_origin {e : Evidence} (he : e.provenance.hops = []) (hops : List ProvenanceHop) :
    (e.forwards hops).provenance.hops = hops ∧ (e.forwards hops).evidenceId = e.evidenceId := by
  rw [Evidence.forwards_eq, he]
  exact ⟨rfl, rfl⟩

theorem evidenceId_copies {e : Evidence} (he : e.provenance.hops = []) {hops : List ProvenanceHop}
    {earlier : List Nat} {e' : Evidence} (h : e' ∈ copies e hops earlier) :
    e'.evidenceId = e.evidenceId := by
  rw [copies, List.mem_append, List.mem_map, List.mem_singleton] at h
  rcases h with ⟨k, _, rfl⟩ | rfl
  · exact (forwards_origin he _).2
  · exact (forwards_origin he _).2

theorem hops_copies {e : Evidence} (he : e.provenance.hops = []) (hops : List ProvenanceHop)
    (earlier : List Nat) :
    ((copies e hops earlier).map fun e => e.provenance.hops) =
      earlier.map (hops.take ·) ++ [hops] := by
  rw [copies, List.map_append, List.map_map, List.map_singleton, (forwards_origin he hops).1]
  congr 1
  refine List.map_congr_left ?_
  intro k _
  exact (forwards_origin he _).1

theorem readsBack_copies_iff (distinct : Bool) {g : Store} (hg : g.WellFormed) {e : Evidence}
    (he : e.provenance.hops = []) (hnew : holders g (idValue e.evidenceId) = [])
    (hops : List ProvenanceHop) (earlier : List Nat) :
    ReadsBack distinct (execAll distinct g ((copies e hops earlier).flatMap persist))
        (e.forwards hops) ↔ WrittenOnce distinct (earlier.map (hops.take ·)) hops := by
  have hid : ∀ e' ∈ copies e hops earlier, idValue e'.evidenceId = idValue e.evidenceId :=
    fun e' he' => congrArg idValue (evidenceId_copies he he')
  rcases Held.persistAll distinct _ hid (Held.fresh hg hnew) with ⟨parts, h⟩
  rw [List.nil_append, hops_copies he] at h
  rw [readsBack_iff_perm, (forwards_origin he hops).1, (forwards_origin he hops).2]
  refine h.perm_relayRows_iff ?_ distinct
  intro hnil hs hmem
  rcases List.mem_map.mp hmem with ⟨k, _, rfl⟩
  rw [hnil, List.take_nil]

/-- Whichever way HelixDB returns nodes, the chain of the last persisted copy of
    origin evidence reads back exactly when no earlier copy with hops was persisted,
    and, where a node is returned once for every edge, none at all before hops were
    written. The graph may hold anything else. -/
theorem readsBack_iff (distinct : Bool) (g : Store) (hg : g.WellFormed) (c : Crypto) (e : Evidence)
    (he : e.Originated c) (hnew : holders g (idValue e.evidenceId) = [])
    (hops : List ProvenanceHop) (earlier : List Nat) :
    ReadsBack distinct (execAll distinct g ((copies e hops earlier).flatMap persist))
        (e.forwards hops) ↔ WrittenOnce distinct (earlier.map (hops.take ·)) hops :=
  readsBack_copies_iff distinct hg he.hops hnew hops earlier

theorem originated_minted (source : SigningKey) (subject : SubjectId) (state : CanonicalState) :
    (Evidence.minted source subject state).Originated (Crypto.ledger []) :=
  ⟨source, subject, state, 0, 0, Evidence.originate_ledger [] source subject state⟩

/-- The origin and a copy after one hop: it depends on how nodes are returned. -/
theorem readsBack_iff_relayed :
    let e := Evidence.minted (Vector.replicate 32 7) ⟨"ac"⟩ (.atRest 5)
    let hops : List ProvenanceHop := [⟨⟨"relay"⟩, 6⟩]
    ReadsBack true (execAll true .empty ((copies e hops [0]).flatMap persist)) (e.forwards hops) ∧
      ¬ ReadsBack false (execAll false .empty ((copies e hops [0]).flatMap persist))
        (e.forwards hops) := by
  intro e hops
  have he : e.Originated (Crypto.ledger []) := originated_minted _ _ _
  refine ⟨(readsBack_iff true .empty Graph.wellFormed_empty _ e he rfl hops [0]).mpr ?_, ?_⟩
  · intro hs hmem
    rw [List.mem_singleton.mp hmem]
    rfl
  · intro h
    rcases (readsBack_iff false .empty Graph.wellFormed_empty _ e he rfl hops [0]).mp h with h | h
    · exact absurd h (List.cons_ne_nil _ _)
    · exact absurd h (List.cons_ne_nil _ _)

/-- A copy persisted after each of two hops: its first hop is read twice, however
    nodes are returned. -/
theorem not_readsBack :
    ¬ ∃ distinct : Bool, ∀ (c : Crypto) (e : Evidence), e.Originated c →
      ∀ (hops : List ProvenanceHop) (earlier : List Nat),
        earlier.Pairwise (· < ·) → (∀ k ∈ earlier, k < hops.length) →
          ReadsBack distinct (execAll distinct .empty ((copies e hops earlier).flatMap persist))
            (e.forwards hops) := by
  intro h
  rcases h with ⟨distinct, h⟩
  let e := Evidence.minted (Vector.replicate 32 7) ⟨"ac"⟩ (.atRest 5)
  let hops : List ProvenanceHop := [⟨⟨"relay"⟩, 6⟩, ⟨⟨"ground"⟩, 7⟩]
  have he : e.Originated (Crypto.ledger []) := originated_minted _ _ _
  have hread := h _ e he hops [1] (List.pairwise_singleton _ _) (by decide)
  rw [readsBack_copies_iff distinct Graph.wellFormed_empty he.hops rfl] at hread
  cases distinct with
  | true => exact absurd (hread _ List.mem_cons_self) (List.cons_ne_nil _ _)
  | false =>
      rcases hread with h | h
      · exact absurd h (List.cons_ne_nil _ _)
      · exact absurd h (List.cons_ne_nil _ _)

end Helix

end Seven
