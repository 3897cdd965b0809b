import Mathlib.Logic.Relation
import Seven.Evidence.Tamper
import Seven.Helix.Queries

/-!
# Lineage in the Graph

Each evidence is written once, and then every child is linked to its parents.
Reconstructing follows these links one step up, so it returns the parents of an
evidence and not what they were derived from.

`linked_persisted_iff` says which values are linked to a stored evidence: those of
its parents. The ancestors are the transitive closure of that, and the two agree
exactly when the parents of parents are parents (`returnsAncestors_iff`).

## Main definitions

* `persistLineage`: Writing a set of evidence and its lineage.
* `Parent`: One evidence id is given as a parent of another.
* `ReturnsAncestors`: Reconstructing returns all ancestors and nothing else.
* `Linked`: A value is linked to the holders of an id.

## Theorems

* `linked_writeParents`: What linking children to parents adds.
* `linked_persisted_iff`: What is linked after a set was persisted.
* `returnsAncestors_iff`: When reconstructing is complete.
-/

namespace Seven

namespace Helix

open PropertyGraph

/-- Write every evidence, and then the lineage of every one. -/
def persistLineage (es : List Evidence) : List QueryRequest :=
  es.map writeEvidence ++ es.flatMap writeParentage

/-- An evidence of the set with one id gives the other as a parent. -/
def Parent (es : List Evidence) (p id : EvidenceId) : Prop :=
  ∃ e ∈ es, e.evidenceId = id ∧ p ∈ e.parentEvidenceIds

/-- The request that reconstructs the provenance of an evidence id. -/
def reconstructProvenanceOf (id : EvidenceId) : QueryRequest :=
  reconstructProvenance.withParameterValue "evidence_id" (.string (hex32 id.bytes))

/-- Reconstructing an evidence id returns nodes that hold the ids of its ancestors,
    every one of them and nothing else. -/
def ReturnsAncestors (distinct : Bool) (g : Store) (es : List Evidence) (id : EvidenceId) :
    Prop :=
  ∃ ids, (exec distinct g (reconstructProvenanceOf id)).2.lookup "ancestors" = some (.nodes ids) ∧
    ∀ v, (∃ i ∈ ids, g.prop i "evidence_id" = v) ↔
      ∃ a, Relation.TransGen (Parent es) a id ∧ v = some (idValue a)

/-- A value stands at a node with a parent edge to a holder of an id. -/
def Linked (g : Store) (v : Option PropertyValue) (x : PropertyValue) : Prop :=
  ∃ i ∈ holders g x, ∃ s ∈ g.intoOf "PARENT_OF" i, g.prop s "evidence_id" = v

/-- When the next step back from a step is a step, all paths are. -/
theorem transGen_iff_of_closed {α : Type} {r : α → α → Prop} {x : α} :
    (∀ a, r a x ↔ Relation.TransGen r a x) ↔ ∀ p q, r p x → r q p → r q x := by
  constructor
  · intro h p q hp hq
    exact (h q).mpr (.head hq (.single hp))
  · intro h a
    refine ⟨.single, ?_⟩
    intro hpath
    induction hpath using Relation.TransGen.head_induction_on with
    | single hstep => exact hstep
    | head hstep _ ih => exact h _ _ ih hstep

section WriteEvidence

variable (distinct : Bool)

theorem intoOf_writeEvidence (g : Store) (e : Evidence) :
    (exec distinct g (writeEvidence e)).1.intoOf "PARENT_OF" = g.intoOf "PARENT_OF" := by
  funext i
  rw [exec_writeEvidence, Graph.intoOf_addEdges_of_ne, Graph.intoOf_addNode, Graph.intoOf_addNode]
  intro edge hedge
  rw [List.mem_singleton.mp hedge]
  change "PRODUCED" ≠ "PARENT_OF"
  decide

theorem length_nodes_writeEvidence (g : Store) (e : Evidence) :
    (exec distinct g (writeEvidence e)).1.nodes.length = g.nodes.length + 2 := by
  rw [exec_writeEvidence, Graph.nodes_addEdges, Graph.length_nodes_addNode,
    Graph.length_nodes_addNode]

/-- What writing a set of evidence leaves alone and what it adds. -/
theorem written (es : List Evidence) (g : Store) :
    (execAll distinct g (es.map writeEvidence)).intoOf "PARENT_OF" = g.intoOf "PARENT_OF" ∧
      (∀ x, ∀ i ∈ holders (execAll distinct g (es.map writeEvidence)) x,
        i ∈ holders g x ∨ g.nodes.length ≤ i) ∧
      (∀ x, ∀ i ∈ holders g x, i ∈ holders (execAll distinct g (es.map writeEvidence)) x) ∧
      ∀ e ∈ es, ∃ i, i ∈ holders (execAll distinct g (es.map writeEvidence))
        (idValue e.evidenceId) := by
  induction es generalizing g with
  | nil =>
      exact ⟨rfl, fun _ _ h => Or.inl h, fun _ _ h => h, fun _ h => absurd h List.not_mem_nil⟩
  | cons e es ih =>
      rcases ih (exec distinct g (writeEvidence e)).1 with ⟨hinto, hnew, hkept, hall⟩
      rw [List.map_cons, execAll_cons]
      refine ⟨hinto.trans (intoOf_writeEvidence distinct g e), ?_, ?_, ?_⟩
      -- A holder that was not there before is a node that was added.
      · intro x i hi
        rcases hnew x i hi with hi | hi
        · rw [holders_writeEvidence, List.mem_append] at hi
          refine hi.imp_right fun hi => ?_
          by_cases hv : idValue e.evidenceId = x
          · rw [if_pos hv, List.mem_singleton] at hi
            omega
          · rw [if_neg hv] at hi
            exact absurd hi List.not_mem_nil
        · right
          rw [length_nodes_writeEvidence] at hi
          omega
      · intro x i hi
        refine hkept x i ?_
        rw [holders_writeEvidence]
        exact List.mem_append_left _ hi
      -- What was written first is kept by what is written later.
      · intro e' he'
        rcases List.mem_cons.mp he' with rfl | he'
        · refine ⟨g.nodes.length + 1, hkept _ _ ?_⟩
          rw [holders_writeEvidence, if_pos rfl]
          exact List.mem_append_right _ (List.mem_singleton_self _)
        · exact hall e' he'

end WriteEvidence

section WriteParent

variable (distinct : Bool)

/-- Linking adds edges only. -/
theorem holders_writeParent (g : Store) (c p : EvidenceId) (x : PropertyValue) :
    holders (exec distinct g (writeParent (hex32 c.bytes) (hex32 p.bytes))).1 x =
      holders g x := by
  rw [exec_writeParent]
  rfl

/-- What linking a child to a parent adds, when both are stored. -/
theorem linked_writeParent {g : Store} {c p : EvidenceId} (hc : ∃ i, i ∈ holders g (idValue c))
    (hp : ∃ i, i ∈ holders g (idValue p)) (v : Option PropertyValue) (x : PropertyValue) :
    Linked (exec distinct g (writeParent (hex32 c.bytes) (hex32 p.bytes))).1 v x ↔
      Linked g v x ∨ (v = some (idValue p) ∧ x = idValue c) := by
  have hprop (s : Nat) : (exec distinct g (writeParent (hex32 c.bytes) (hex32 p.bytes))).1.prop s
      "evidence_id" = g.prop s "evidence_id" := by
    rw [exec_writeParent]
    rfl
  have hinto (i s : Nat) :
      s ∈ (exec distinct g (writeParent (hex32 c.bytes) (hex32 p.bytes))).1.intoOf "PARENT_OF" i ↔
        s ∈ g.intoOf "PARENT_OF" i ∨ (s ∈ holders g (idValue p) ∧ i ∈ holders g (idValue c)) := by
    rw [exec_writeParent, Graph.intoOf_addEdges_of_ne]
    · exact Graph.mem_intoOf_addEdges_drawn
    · intro edge hedge
      rcases List.mem_flatMap.mp hedge with ⟨i, _, hedge⟩
      rcases List.mem_map.mp hedge with ⟨j, _, rfl⟩
      change "DERIVED_FROM" ≠ "PARENT_OF"
      decide
  unfold Linked
  simp only [holders_writeParent, hprop, hinto]
  constructor
  · intro h
    rcases h with ⟨i, hi, s, hs | ⟨hs, hic⟩, rfl⟩
    · exact Or.inl ⟨i, hi, s, hs, rfl⟩
    · -- The node holds both ids, which are then one.
      rw [holders, Graph.mem_select_iff] at hi hs hic
      rw [hi.2, Option.some.injEq] at hic
      exact Or.inr ⟨hs.2, hic.2⟩
  · intro h
    rcases h with ⟨i, hi, s, hs, rfl⟩ | ⟨rfl, rfl⟩
    · exact ⟨i, hi, s, Or.inl hs, rfl⟩
    -- Some node holds the child and some the parent, and these are linked now.
    · rcases hc with ⟨i, hi⟩
      rcases hp with ⟨s, hs⟩
      refine ⟨i, hi, s, Or.inr ⟨hs, hi⟩, ?_⟩
      rw [holders, Graph.mem_select_iff] at hs
      exact hs.2

/-- What linking children to parents adds, when all are stored. -/
theorem linked_writeParents (pairs : List (EvidenceId × EvidenceId)) {g : Store}
    (h : ∀ cp ∈ pairs, (∃ i, i ∈ holders g (idValue cp.1)) ∧ ∃ i, i ∈ holders g (idValue cp.2))
    (v : Option PropertyValue) (x : PropertyValue) :
    Linked (execAll distinct g (pairs.map fun cp =>
        writeParent (hex32 cp.1.bytes) (hex32 cp.2.bytes))) v x ↔
      Linked g v x ∨ ∃ cp ∈ pairs, v = some (idValue cp.2) ∧ x = idValue cp.1 := by
  induction pairs generalizing g with
  | nil =>
      simp only [List.map_nil, execAll_nil, List.not_mem_nil, false_and, exists_false, or_false]
  | cons cp pairs ih =>
      rcases h cp List.mem_cons_self with ⟨hc, hp⟩
      rw [List.map_cons, execAll_cons, ih, linked_writeParent distinct hc hp, or_assoc]
      · simp only [List.mem_cons, or_and_right, exists_or, exists_eq_left]
      · intro cp' hcp'
        simp only [holders_writeParent]
        exact h cp' (List.mem_cons_of_mem _ hcp')

end WriteParent

/-- The links that are written for a set: each child with each of its parents. -/
def links (es : List Evidence) : List (EvidenceId × EvidenceId) :=
  es.flatMap fun e => e.parentEvidenceIds.map fun p => (e.evidenceId, p)

theorem mem_links_iff {es : List Evidence} {id p : EvidenceId} :
    (id, p) ∈ links es ↔ Parent es p id := by
  unfold links Parent
  simp only [List.mem_flatMap, List.mem_map, Prod.mk.injEq]
  constructor
  · intro h
    rcases h with ⟨e, he, q, hq, hid, rfl⟩
    exact ⟨e, he, hid, hq⟩
  · intro h
    rcases h with ⟨e, he, hid, hp⟩
    exact ⟨e, he, p, hp, hid, rfl⟩

theorem flatMap_writeParentage (es : List Evidence) :
    es.flatMap writeParentage =
      (links es).map fun cp => writeParent (hex32 cp.1.bytes) (hex32 cp.2.bytes) := by
  rw [links, List.map_flatMap]
  simp only [List.map_map]
  rfl

section Persisted

variable (distinct : Bool) {g : Store} (hg : g.WellFormed) {es : List Evidence}
  (hnew : ∀ e ∈ es, holders g (idValue e.evidenceId) = [])
  (hparents : ∀ id p, Parent es p id → ∃ e ∈ es, e.evidenceId = p)

include hg hnew in
/-- Written alone, an evidence of the set is not linked to anything. -/
theorem not_linked_written {e : Evidence} (he : e ∈ es) (v : Option PropertyValue) :
    ¬ Linked (execAll distinct g (es.map writeEvidence)) v (idValue e.evidenceId) := by
  rcases written distinct es g with ⟨hinto, hlate, _, _⟩
  intro h
  rcases h with ⟨i, hi, s, hs, _⟩
  rw [hinto] at hs
  rcases hlate _ i hi with hi | hi
  · rw [hnew e he] at hi
    exact List.not_mem_nil hi
  · -- The holder is new, and has no edges in the graph before.
    rw [Graph.intoOf_of_length_le hg _ hi] at hs
    exact List.not_mem_nil hs

include hg hnew hparents in
/-- What is linked to an evidence of the set are its parents. -/
theorem linked_persisted_iff {e : Evidence} (he : e ∈ es) (v : Option PropertyValue) :
    Linked (execAll distinct g (persistLineage es)) v (idValue e.evidenceId) ↔
      ∃ p, Parent es p e.evidenceId ∧ v = some (idValue p) := by
  rcases written distinct es g with ⟨_, _, _, hall⟩
  have hstored : ∀ cp ∈ links es,
      (∃ i, i ∈ holders (execAll distinct g (es.map writeEvidence)) (idValue cp.1)) ∧
        ∃ i, i ∈ holders (execAll distinct g (es.map writeEvidence)) (idValue cp.2) := by
    intro cp hcp
    have hparent := mem_links_iff.mp hcp
    rcases hparents _ _ hparent with ⟨e', he', hid'⟩
    rcases hparent with ⟨e, he, hid, _⟩
    rw [← hid, ← hid']
    exact ⟨hall e he, hall e' he'⟩
  rw [persistLineage, execAll_append, flatMap_writeParentage,
    linked_writeParents distinct (links es) hstored]
  constructor
  · intro h
    rcases h with h | ⟨⟨id, p⟩, hmem, hv, hid⟩
    -- Writing the evidence alone links nothing to it.
    · exact absurd h (not_linked_written distinct hg hnew he v)
    · rw [idValue_inj hid]
      exact ⟨p, mem_links_iff.mp hmem, hv⟩
  · intro h
    rcases h with ⟨p, hp, hv⟩
    exact Or.inr ⟨(e.evidenceId, p), mem_links_iff.mpr hp, hv, rfl⟩

end Persisted

/-- What reconstructing returns are the nodes that are linked. -/
theorem returnsAncestors_iff_linked (distinct : Bool) (g : Store) (es : List Evidence)
    (id : EvidenceId) :
    ReturnsAncestors distinct g es id ↔
      ∀ v, Linked g v (idValue id) ↔
        ∃ a, Relation.TransGen (Parent es) a id ∧ v = some (idValue a) := by
  -- Reaching a node twice or once makes no difference to what is reached.
  have hmem (ids : List Nat) (s : Nat) : s ∈ reached distinct ids ↔ s ∈ ids := by
    unfold reached
    cases distinct with
    | false => exact Iff.rfl
    | true => exact List.mem_dedup
  unfold ReturnsAncestors reconstructProvenanceOf
  rw [reconstruct_ancestors]
  simp only [Option.some.injEq, Binding.nodes.injEq, exists_eq_left', hmem, List.mem_flatMap]
  unfold Linked
  refine forall_congr' fun v => iff_congr ?_ Iff.rfl
  constructor
  · intro h
    rcases h with ⟨s, ⟨i, hi, hs⟩, hv⟩
    exact ⟨i, hi, s, hs, hv⟩
  · intro h
    rcases h with ⟨i, hi, s, hs, hv⟩
    exact ⟨s, ⟨i, hi, hs⟩, hv⟩

/-- The values of some ids are those of others exactly when the ids are the same. -/
theorem values_iff {r r' : EvidenceId → Prop} :
    (∀ v, (∃ a, r a ∧ v = some (idValue a)) ↔ ∃ a, r' a ∧ v = some (idValue a)) ↔
      ∀ a, r a ↔ r' a := by
  have hvalue (r : EvidenceId → Prop) (a : EvidenceId) :
      (∃ b, r b ∧ some (idValue a) = some (idValue b)) ↔ r a := by
    constructor
    · intro h
      rcases h with ⟨b, hb, hab⟩
      rwa [idValue_inj (Option.some.inj hab)]
    · intro h
      exact ⟨a, h, rfl⟩
  constructor
  · intro h a
    rw [← hvalue r, ← hvalue r']
    exact h _
  · intro h v
    simp only [h]

theorem returnsAncestors_persisted_iff (distinct : Bool) {g : Store} (hg : g.WellFormed)
    {es : List Evidence} (hnew : ∀ e ∈ es, holders g (idValue e.evidenceId) = [])
    (hparents : ∀ id p, Parent es p id → ∃ e ∈ es, e.evidenceId = p) {e : Evidence} (he : e ∈ es) :
    ReturnsAncestors distinct (execAll distinct g (persistLineage es)) es e.evidenceId ↔
      ∀ p q, Parent es p e.evidenceId → Parent es q p → Parent es q e.evidenceId := by
  rw [returnsAncestors_iff_linked, ← transGen_iff_of_closed, ← values_iff]
  simp only [linked_persisted_iff distinct hg hnew hparents he]

/-- Whichever way HelixDB returns nodes, reconstructing an evidence of a persisted
    set returns its ancestors exactly when every parent of a parent of it is a parent
    of it. The graph may hold anything else. -/
theorem returnsAncestors_iff (distinct : Bool) (g : Store) (hg : g.WellFormed)
    (es : List Evidence) (hnew : ∀ e ∈ es, holders g (idValue e.evidenceId) = [])
    (hparents : ∀ id p, Parent es p id → ∃ e ∈ es, e.evidenceId = p) (e : Evidence)
    (he : e ∈ es) :
    ReturnsAncestors distinct (execAll distinct g (persistLineage es)) es e.evidenceId ↔
      ∀ p q, Parent es p e.evidenceId → Parent es q p → Parent es q e.evidenceId :=
  returnsAncestors_persisted_iff distinct hg hnew hparents he

/-- Evidence observed at a time and derived from others. -/
def derived (t : Int64) (parents : List EvidenceId) : Evidence :=
  { Evidence.minted (Vector.replicate 32 7) ⟨"ac"⟩ (.atRest t) with parentEvidenceIds := parents }

/-- Evidence derived from evidence that was derived from evidence. -/
def chain : List Evidence :=
  [derived 1 [], derived 2 [(derived 1 []).evidenceId], derived 3 [(derived 2 []).evidenceId]]

theorem parent_chain_iff (p id : EvidenceId) :
    Parent chain p id ↔
      (p = (derived 1 []).evidenceId ∧ id = (derived 2 []).evidenceId) ∨
        (p = (derived 2 []).evidenceId ∧ id = (derived 3 []).evidenceId) := by
  unfold Parent chain
  simp only [List.mem_cons, List.not_mem_nil, or_false, exists_eq_or_imp, exists_eq_left, derived,
    and_false, false_or, eq_comm (b := id)]
  rw [and_comm, and_comm (b := p = _)]

/-- In the chain ids get larger in the byte of the time. -/
theorem lt_of_parent_chain {p id : EvidenceId} (h : Parent chain p id) :
    p.bytes.get 12 < id.bytes.get 12 := by
  rcases (parent_chain_iff p id).mp h with ⟨rfl, rfl⟩ | ⟨rfl, rfl⟩
  · decide
  · decide

theorem parents_chain (id p : EvidenceId) (h : Parent chain p id) :
    ∃ e ∈ chain, e.evidenceId = p := by
  rcases (parent_chain_iff p id).mp h with ⟨rfl, _⟩ | ⟨rfl, _⟩
  · exact ⟨_, List.mem_cons_self, rfl⟩
  · exact ⟨_, List.mem_cons_of_mem _ List.mem_cons_self, rfl⟩

/-- The evidence in the middle has all its ancestors as parents. -/
theorem returnsAncestors_iff_chain :
    ReturnsAncestors true (execAll true .empty (persistLineage chain)) chain
      (derived 2 [(derived 1 []).evidenceId]).evidenceId := by
  refine (returnsAncestors_iff true .empty Graph.wellFormed_empty chain (fun _ _ => rfl)
    parents_chain _ (List.mem_cons_of_mem _ List.mem_cons_self)).mpr ?_
  intro p q hp hq
  -- Its one parent is derived from nothing.
  have hlt := lt_of_parent_chain hp
  rcases (parent_chain_iff q p).mp hq with ⟨_, rfl⟩ | ⟨_, rfl⟩
  · exact absurd hlt (by decide)
  · exact absurd hlt (by decide)

/-- A chain of two derivations: the first evidence is not returned as an ancestor
    of the last, however nodes are returned. -/
theorem not_returnsAncestors :
    ¬ ∃ distinct : Bool, ∀ es : List Evidence,
      es.Pairwise (fun e e' => e.evidenceId ≠ e'.evidenceId) →
      (∀ id p, Parent es p id → ∃ e ∈ es, e.evidenceId = p) →
      (∀ id, ¬ Relation.TransGen (Parent es) id id) →
      ∀ e ∈ es, ReturnsAncestors distinct (execAll distinct .empty (persistLineage es)) es
        e.evidenceId := by
  intro h
  rcases h with ⟨distinct, h⟩
  have hpairwise : chain.Pairwise fun e e' => e.evidenceId ≠ e'.evidenceId := by decide
  have hacyclic : ∀ id, ¬ Relation.TransGen (Parent chain) id id := by
    intro id hcycle
    have hlt : ∀ a b, Relation.TransGen (Parent chain) a b → a.bytes.get 12 < b.bytes.get 12 := by
      intro a b hab
      induction hab with
      | single hstep => exact lt_of_parent_chain hstep
      | tail _ hstep ih => exact UInt8.lt_trans ih (lt_of_parent_chain hstep)
    exact UInt8.lt_irrefl _ (hlt id id hcycle)
  have hlast := h chain hpairwise parents_chain hacyclic
    (derived 3 [(derived 2 []).evidenceId])
    (List.mem_cons_of_mem _ (List.mem_cons_of_mem _ List.mem_cons_self))
  rw [returnsAncestors_persisted_iff distinct Graph.wellFormed_empty (fun _ _ => rfl) parents_chain
    (List.mem_cons_of_mem _ (List.mem_cons_of_mem _ List.mem_cons_self))] at hlast
  -- The first evidence would be a parent of the last.
  have hmiss := hlast (derived 2 []).evidenceId (derived 1 []).evidenceId
    ((parent_chain_iff _ _).mpr (Or.inr ⟨rfl, rfl⟩))
    ((parent_chain_iff _ _).mpr (Or.inl ⟨rfl, rfl⟩))
  rcases (parent_chain_iff _ _).mp hmiss with ⟨_, hid⟩ | ⟨hid, _⟩
  · exact absurd hid (by decide)
  · exact absurd hid (by decide)

end Helix

end Seven
