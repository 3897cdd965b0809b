import Seven.Helix.Suite

/-!
# Edges over a History

What is drawn between the nodes of a database, over any history of writes. An edge
is drawn by one write, between the holders that were stored when it came
(`mem_edges_after_iff`); a link or a hop that comes before its evidence draws
nothing, and nobody is told.

So what the reads return is known exactly, for any order of the writes: the lineage
is made of the links that came when both ends were stored
(`readDerived_after`), the custody chain has every hop as often as its evidence was
stored before it (`readProvenance_after`). Every edge leads between the labels the
schema has for it (`conforms_after`).

## Main definitions

* `schema`, `Conforms`: Which labels an edge leads from and to.
* `LinkedStored`: A link was written when both ends were stored.
* `relayed`: The hops that a history leaves for an evidence id.

## Theorems

* `mem_edges_after_iff`: Which write drew an edge.
* `conforms_after`: Edges are those of the schema.
* `readDerived_reconstruct`: The two directions of lineage read the same nodes.
* `readDerived_after`, `readProvenance_after`: What is read by id.
-/

namespace Seven

namespace Helix

open PropertyGraph

variable {F : Type} [DecidableEq F] (distinct : Bool)

section Edges

/-- An edge was drawn by a write, from what was stored before it. -/
theorem mem_edges_after_iff {ws : List (Write F)} {edge : Edge (StoredValue F)} :
    edge ∈ (after distinct ws).edges ↔
      ∃ pre w post, ws = pre ++ w :: post ∧ edge ∈ w.drawn (after distinct pre) := by
  induction ws using List.reverseRecOn with
  | nil =>
      constructor
      · intro h
        exact absurd h List.not_mem_nil
      · intro h
        rcases h with ⟨pre, w, post, hws, _⟩
        exact absurd hws.symm (List.append_ne_nil_of_right_ne_nil pre (List.cons_ne_nil w post))
  | append_singleton ws w ih =>
      rw [edges_after_concat, List.mem_append, ih]
      constructor
      · intro h
        rcases h with ⟨pre, w', post, rfl, h⟩ | h
        · exact ⟨pre, w', post ++ [w], by rw [List.append_assoc, List.cons_append], h⟩
        · exact ⟨ws, w, [], rfl, h⟩
      · intro h
        rcases h with ⟨pre, w', post, hws, h⟩
        -- The write is the last one or comes before it.
        rcases List.eq_nil_or_concat post with rfl | ⟨post, w'', rfl⟩
        · rcases List.append_inj' hws rfl with ⟨rfl, hw⟩
          rw [List.singleton_inj.mp hw]
          exact Or.inr h
        · rw [List.concat_eq_append, ← List.cons_append, ← List.append_assoc] at hws
          rcases List.append_inj' hws rfl with ⟨rfl, _⟩
          exact Or.inl ⟨pre, w', post, rfl, h⟩

theorem nodes_after_append (pre post : List (Write F)) :
    (after distinct (pre ++ post)).nodes =
      (after distinct pre).nodes ++ post.flatMap Write.created := by
  rw [nodes_after, nodes_after, List.flatMap_append]

/-- A node stays as it was stored. -/
theorem getElem?_after_append {pre : List (Write F)} (post : List (Write F)) {i : Nat}
    (hi : i < (after distinct pre).nodes.length) :
    (after distinct (pre ++ post)).nodes[i]? = (after distinct pre).nodes[i]? := by
  rw [nodes_after_append, List.getElem?_append_left hi]

theorem row_after_append {pre : List (Write F)} (post : List (Write F)) {i : Nat}
    (hi : i < (after distinct pre).nodes.length) (keys : List String) :
    (after distinct (pre ++ post)).row i keys = (after distinct pre).row i keys := by
  unfold Graph.row Graph.prop
  rw [getElem?_after_append distinct post hi]

/-- What holds an id still holds it, and what is stored already does not become a
    holder. -/
theorem mem_holdersOf_append {pre : List (Write F)} (post : List (Write F)) {i : Nat}
    (hi : i < (after distinct pre).nodes.length) {id : EvidenceId} :
    i ∈ holdersOf (after distinct (pre ++ post)) id ↔ i ∈ holdersOf (after distinct pre) id := by
  unfold holdersOf
  rw [Graph.mem_select_iff_getElem?, Graph.mem_select_iff_getElem?,
    getElem?_after_append distinct post hi]

omit [DecidableEq F] in
theorem scalar_idValue_inj {id id' : EvidenceId}
    (h : (StoredValue.scalar (idValue id) : StoredValue F) = .scalar (idValue id')) : id = id' :=
  idValue_inj (StoredValue.scalar.inj h)

/-- A node holds one id. -/
theorem eq_of_mem_holdersOf {g : Database F} {i : Nat} {id id' : EvidenceId}
    (h : i ∈ holdersOf g id) (h' : i ∈ holdersOf g id') : id = id' := by
  unfold holdersOf at h h'
  rw [Graph.mem_select_iff] at h h'
  exact scalar_idValue_inj (Option.some.inj (h.2.symm.trans h'.2))

/-- The rows of the holders are those of the evidence with the id. -/
theorem rows_holdersOf (ws : List (Write F)) (id : EvidenceId) (keys : List String) :
    ((holdersOf (after distinct ws) id).map fun i => (after distinct ws).row i keys) =
      ((evidences ws).filter fun e => e.evidenceId = id).map fun e =>
        (storedNode F e).row keys := by
  have hid (e : Evidence) : (storedNode F e).props.lookup "evidence_id" =
      some (.scalar (idValue id)) ↔ e.evidenceId = id := by
    have hlookup : (storedNode F e).props.lookup "evidence_id" =
        some (.scalar (idValue e.evidenceId)) := rfl
    rw [hlookup, Option.some.injEq]
    exact ⟨scalar_idValue_inj, fun h => congrArg _ (congrArg _ h)⟩
  have hrows := Graph.rows_select_of_nodes (filter_nodes_evidence distinct ws) "evidence_id"
    (.scalar (idValue id)) keys
  simp only [hid] at hrows
  exact hrows

theorem length_holdersOf (ws : List (Write F)) (id : EvidenceId) :
    (holdersOf (after distinct ws) id).length =
      ((evidences ws).filter fun e => e.evidenceId = id).length := by
  have hrows := congrArg List.length (rows_holdersOf distinct ws id [])
  rwa [List.length_map, List.length_map] at hrows

/-- The labels of the edges that a write draws. -/
def Write.labels : Write F → List String
  | .evidence _ => ["PRODUCED"]
  | .hop _ _ => ["FORWARDED_TO"]
  | .link _ _ => ["PARENT_OF", "DERIVED_FROM"]
  | .belief _ _ _ => ["SUPPORTS"]

theorem label_of_mem_drawn {g : Database F} {w : Write F} {edge : Edge (StoredValue F)}
    (h : edge ∈ w.drawn g) : edge.label ∈ w.labels := by
  cases w with
  | evidence e =>
      rw [List.mem_singleton.mp h]
      exact List.mem_cons_self
  | hop id hop =>
      rcases List.mem_map.mp h with ⟨i, _, rfl⟩
      exact List.mem_cons_self
  | link child parent =>
      rcases List.mem_append.mp h with h | h
      · rcases List.mem_flatMap.mp h with ⟨p, _, h⟩
        rcases List.mem_map.mp h with ⟨c, _, rfl⟩
        exact List.mem_cons_self
      · rcases List.mem_flatMap.mp h with ⟨c, _, h⟩
        rcases List.mem_map.mp h with ⟨p, _, rfl⟩
        exact List.mem_cons_of_mem _ List.mem_cons_self
  | belief subject b supporting =>
      rcases List.mem_map.mp h with ⟨i, _, rfl⟩
      exact List.mem_cons_self

/-- A write does not draw edges of other labels. -/
theorem ne_of_mem_drawn {g : Database F} {w : Write F} {label : String} (h : label ∉ w.labels) :
    ∀ edge ∈ w.drawn g, edge.label ≠ label := by
  intro edge hedge hlabel
  rw [← hlabel] at h
  exact h (label_of_mem_drawn hedge)

end Edges

section Conformance

/-- The labels that an edge leads from and to. -/
def schema : List (String × String × String) :=
  [("Source", "PRODUCED", "Evidence"), ("Evidence", "FORWARDED_TO", "Node"),
    ("Evidence", "DERIVED_FROM", "Evidence"), ("Evidence", "PARENT_OF", "Evidence"),
    ("Evidence", "SUPPORTS", "Belief")]

/-- An edge leads between nodes, and its labels are in the schema. -/
def Conforms {V : Type} (g : Graph V) (edge : Edge V) : Prop :=
  ∃ x y, g.nodes[edge.source]? = some x ∧ g.nodes[edge.target]? = some y ∧
    (x.label, edge.label, y.label) ∈ schema

theorem getElem?_append_of_eq_some {α : Type} {l : List α} {i : Nat} {a : α}
    (h : l[i]? = some a) (l' : List α) : (l ++ l')[i]? = some a := by
  rw [List.getElem?_append_left (List.getElem?_eq_some_iff.mp h).1, h]

theorem Conforms.append {V : Type} {g : Graph V} {edge : Edge V} (h : Conforms g edge)
    (xs : List (Node V)) (es : List (Edge V)) :
    Conforms ⟨g.nodes ++ xs, g.edges ++ es⟩ edge := by
  rcases h with ⟨x, y, hx, hy, hschema⟩
  exact ⟨x, y, getElem?_append_of_eq_some hx xs, getElem?_append_of_eq_some hy xs, hschema⟩

/-- A holder stays one node, and that is an evidence. -/
theorem exists_of_mem_holdersOf {g : Database F} {i : Nat} {id : EvidenceId}
    (h : i ∈ holdersOf g id) (xs : List (Node (StoredValue F))) :
    ∃ x, (g.nodes ++ xs)[i]? = some x ∧ x.label = "Evidence" := by
  unfold holdersOf at h
  rw [Graph.mem_select_iff_getElem?] at h
  rcases h with ⟨x, hx, hm⟩
  exact ⟨x, getElem?_append_of_eq_some hx xs, hm.1⟩

/-- An edge between two holders conforms to what the schema has between evidence. -/
theorem conforms_between {g : Database F} {i j : Nat} {a b : EvidenceId}
    (hi : i ∈ holdersOf g a) (hj : j ∈ holdersOf g b) {label : String}
    (hschema : ("Evidence", label, "Evidence") ∈ schema) (props : List (String × StoredValue F))
    (xs : List (Node (StoredValue F))) (es : List (Edge (StoredValue F))) :
    Conforms ⟨g.nodes ++ xs, es⟩ ⟨label, i, j, props⟩ := by
  rcases exists_of_mem_holdersOf hi xs with ⟨x, hx, hxlabel⟩
  rcases exists_of_mem_holdersOf hj xs with ⟨y, hy, hylabel⟩
  refine ⟨x, y, hx, hy, ?_⟩
  rw [hxlabel, hylabel]
  exact hschema

/-- An edge from a holder to a new node conforms to what the schema has for that node. -/
theorem conforms_to_new {g : Database F} {i : Nat} {id : EvidenceId} (hi : i ∈ holdersOf g id)
    {label : String} {y : Node (StoredValue F)} (hschema : ("Evidence", label, y.label) ∈ schema)
    (props : List (String × StoredValue F)) (es : List (Edge (StoredValue F))) :
    Conforms ⟨g.nodes ++ [y], es⟩ ⟨label, i, g.nodes.length, props⟩ := by
  rcases exists_of_mem_holdersOf hi [y] with ⟨x, hx, hlabel⟩
  refine ⟨x, y, hx, List.getElem?_concat_length, ?_⟩
  rw [hlabel]
  exact hschema

/-- What a write draws conforms to the schema. -/
theorem conforms_drawn (g : Database F) (w : Write F) {edge : Edge (StoredValue F)}
    (h : edge ∈ w.drawn g) : Conforms ⟨g.nodes ++ w.created, g.edges ++ w.drawn g⟩ edge := by
  cases w with
  | evidence e =>
      rw [List.mem_singleton.mp h]
      have hnew (k : Nat) : (g.nodes ++ (Write.evidence e).created)[g.nodes.length + k]? =
          (Write.evidence e : Write F).created[k]? := by
        rw [List.getElem?_append_right (Nat.le_add_right _ k), Nat.add_sub_cancel_left]
      refine ⟨(sourceNode e).mapValues .scalar, storedNode F e, hnew 0, hnew 1, ?_⟩
      exact (by decide : ("Source", "PRODUCED", "Evidence") ∈ schema)
  | hop id hop =>
      rcases List.mem_map.mp h with ⟨i, hi, rfl⟩
      exact conforms_to_new hi (by decide : ("Evidence", "FORWARDED_TO", "Node") ∈ schema) _ _
  | link child parent =>
      rcases List.mem_append.mp h with h | h
      · rcases List.mem_flatMap.mp h with ⟨p, hp, h⟩
        rcases List.mem_map.mp h with ⟨c, hc, rfl⟩
        exact conforms_between hp hc
          (by decide : ("Evidence", "PARENT_OF", "Evidence") ∈ schema) _ _ _
      · rcases List.mem_flatMap.mp h with ⟨c, hc, h⟩
        rcases List.mem_map.mp h with ⟨p, hp, rfl⟩
        exact conforms_between hc hp
          (by decide : ("Evidence", "DERIVED_FROM", "Evidence") ∈ schema) _ _ _
  | belief subject b supporting =>
      rcases List.mem_map.mp h with ⟨i, hi, rfl⟩
      exact conforms_to_new hi (by decide : ("Evidence", "SUPPORTS", "Belief") ∈ schema) _ _

/-- Over any history, edges lead between nodes that the schema has them between. -/
theorem conforms_after (ws : List (Write F)) :
    ∀ edge ∈ (after distinct ws).edges, Conforms (after distinct ws) edge := by
  induction ws using List.reverseRecOn with
  | nil =>
      intro edge h
      exact absurd h List.not_mem_nil
  | append_singleton ws w ih =>
      intro edge h
      rw [after_concat] at h ⊢
      rcases List.mem_append.mp h with h | h
      · exact (ih edge h).append _ _
      · exact conforms_drawn _ w h

/-- The edge from the source of an evidence that is stored behind another one. -/
theorem conforms_after_second :
    let e := Evidence.minted (Vector.replicate 32 7) ⟨"ac"⟩ (.atRest 5)
    let other := Evidence.minted (Vector.replicate 32 7) ⟨"ac"⟩ (.atRest 9)
    Conforms (after true [.evidence e, .evidence other] : Database Rat)
      ⟨"PRODUCED", 2, 3, []⟩ := by
  intro e other
  exact conforms_after true [.evidence e, .evidence other] ⟨"PRODUCED", 2, 3, []⟩
    (List.mem_cons_of_mem _ List.mem_cons_self)

theorem wellFormed_after (ws : List (Write F)) : (after distinct ws).WellFormed := by
  induction ws using List.reverseRecOn with
  | nil =>
      intro edge h
      exact absurd h List.not_mem_nil
  | append_singleton ws w ih =>
      intro edge h
      rw [after_concat] at h ⊢
      rcases List.mem_append.mp h with h | h
      · have hle : (after distinct ws).nodes.length ≤
            ((after distinct ws).nodes ++ w.created).length := by
          rw [List.length_append]
          exact Nat.le_add_right _ _
        rcases ih edge h with ⟨hsource, htarget⟩
        exact ⟨Nat.lt_of_lt_of_le hsource hle, Nat.lt_of_lt_of_le htarget hle⟩
      · rcases conforms_drawn _ w h with ⟨x, y, hx, hy, _⟩
        exact ⟨(List.getElem?_eq_some_iff.mp hx).1, (List.getElem?_eq_some_iff.mp hy).1⟩

end Conformance

section Lineage

theorem nodup_holdersOf (g : Database F) (id : EvidenceId) : (holdersOf g id).Nodup :=
  Graph.nodup_select g _ _ _

/-- Over any history, the edges that lead from a node to what it was derived from
    are those that lead to it from its parents, in reverse. -/
theorem outOf_derived_eq_intoOf_parent (ws : List (Write F)) (i : Nat) :
    (after distinct ws).outOf "DERIVED_FROM" i = (after distinct ws).intoOf "PARENT_OF" i := by
  induction ws using List.reverseRecOn with
  | nil => rfl
  | append_singleton ws w ih =>
      have hout : (after distinct (ws ++ [w])).outOf "DERIVED_FROM" i =
          ((after distinct ws).addEdges (w.drawn (after distinct ws))).outOf "DERIVED_FROM" i := by
        rw [after_concat]
        rfl
      have hinto : (after distinct (ws ++ [w])).intoOf "PARENT_OF" i =
          ((after distinct ws).addEdges (w.drawn (after distinct ws))).intoOf "PARENT_OF" i := by
        rw [after_concat]
        rfl
      rw [hout, hinto]
      have hkept (hderived : "DERIVED_FROM" ∉ w.labels) (hparent : "PARENT_OF" ∉ w.labels) :
          ((after distinct ws).addEdges (w.drawn (after distinct ws))).outOf "DERIVED_FROM" i =
            ((after distinct ws).addEdges (w.drawn (after distinct ws))).intoOf "PARENT_OF" i := by
        rw [Graph.outOf_addEdges_of_ne _ (ne_of_mem_drawn hderived),
          Graph.intoOf_addEdges_of_ne _ (ne_of_mem_drawn hparent), ih]
      cases w with
      | evidence e =>
          exact hkept (show _ ∉ ["PRODUCED"] by decide) (show _ ∉ ["PRODUCED"] by decide)
      | hop id h =>
          exact hkept (show _ ∉ ["FORWARDED_TO"] by decide) (show _ ∉ ["FORWARDED_TO"] by decide)
      | belief subject b supporting =>
          exact hkept (show _ ∉ ["SUPPORTS"] by decide) (show _ ∉ ["SUPPORTS"] by decide)
      | link child parent =>
          exact Graph.outOf_eq_intoOf_addEdges_both _ (nodup_holdersOf _ _) (by decide) [] ih

/-- The request that reads what an evidence was derived from. -/
def readDerivedOf (F : Type) (id : EvidenceId) : Request (StoredValue F) :=
  readDerived.withParameterValue "evidence_id" (.scalar (idValue id))

theorem lookup_readDerivedOf (g : Database F) (id : EvidenceId) :
    (exec distinct g (readDerivedOf F id)).2.lookup "parents" =
      some (.rows ((reached distinct ((holdersOf g id).flatMap (g.outOf "DERIVED_FROM"))).map
        fun i => g.row i ["evidence_id", "subject"])) :=
  lookup_exec_follow distinct g _ _ _ _ _ _ _ rfl

/-- The request that reconstructs the provenance of an evidence. -/
def reconstructOf (F : Type) (id : EvidenceId) : Request (StoredValue F) :=
  (reconstructProvenance.withParameterValue "evidence_id" (idValue id)).mapValues .scalar

theorem lookup_reconstructOf (g : Database F) (id : EvidenceId) :
    (exec distinct g (reconstructOf F id)).2.lookup "ancestors" =
      some (.nodes (reached distinct ((holdersOf g id).flatMap (g.intoOf "PARENT_OF")))) := by
  unfold exec reconstructOf reconstructProvenance Request.withParameterValue Request.mapValues
  simp only [List.map_cons, List.map_nil, mapProps, Traversal.mapValues, bindAll]
  rw [eval_holders distinct _ _ g "evidence_id" id rfl]
  rfl

/-- Over any history, the two directions of lineage read the same: what an evidence
    was derived from are the rows of the nodes that its provenance is reconstructed
    to, each as often, in whatever order they come. -/
theorem readDerived_reconstruct (ws : List (Write F)) (id : EvidenceId) :
    ∃ ids rows, (exec distinct (after distinct ws) (reconstructOf F id)).2.lookup "ancestors" =
        some (.nodes ids) ∧
      (exec distinct (after distinct ws) (readDerivedOf F id)).2.lookup "parents" =
        some (.rows rows) ∧
      rows.Perm (ids.map fun i => (after distinct ws).row i ["evidence_id", "subject"]) := by
  refine ⟨_, _, lookup_reconstructOf distinct _ id, lookup_readDerivedOf distinct _ id, ?_⟩
  have hsame : (after distinct ws).outOf "DERIVED_FROM" = (after distinct ws).intoOf "PARENT_OF" :=
    funext (outOf_derived_eq_intoOf_parent distinct ws)
  rw [hsame]

/-- A link from a child to an evidence was written when both were stored. -/
def LinkedStored (ws : List (Write F)) (child : EvidenceId) (parent : Evidence) : Prop :=
  ∃ pre post, ws = pre ++ .link child parent.evidenceId :: post ∧
    (∃ e ∈ evidences pre, e.evidenceId = child) ∧ parent ∈ evidences pre

/-- The row that a parent reads back as. -/
def parentRow (F : Type) (e : Evidence) : List (String × Option (StoredValue F)) :=
  [("evidence_id", some (.scalar (.string (hex32 e.evidenceId.bytes)))),
    ("subject", some (.scalar (.string e.subject.name)))]

theorem mem_reached {ids : List Nat} {i : Nat} : i ∈ reached distinct ids ↔ i ∈ ids := by
  unfold reached
  cases distinct with
  | false => exact Iff.rfl
  | true => exact List.mem_dedup

/-- The rows of the holders, one by one. -/
theorem exists_mem_holdersOf_iff (ws : List (Write F)) (id : EvidenceId) (keys : List String)
    (row : List (String × Option (StoredValue F))) :
    (∃ i ∈ holdersOf (after distinct ws) id, (after distinct ws).row i keys = row) ↔
      ∃ e ∈ evidences ws, e.evidenceId = id ∧ (storedNode F e).row keys = row := by
  have hmem : row ∈ (holdersOf (after distinct ws) id).map (fun i =>
      (after distinct ws).row i keys) ↔ row ∈ ((evidences ws).filter fun e =>
        e.evidenceId = id).map fun e => (storedNode F e).row keys := by
    rw [rows_holdersOf]
  simpa only [List.mem_map, List.mem_filter, decide_eq_true_eq, and_assoc] using hmem

/-- Which edges of derivation a write draws. -/
theorem mem_drawn_derived_iff {g : Database F} {w : Write F} {edge : Edge (StoredValue F)} :
    edge ∈ w.drawn g ∧ edge.label = "DERIVED_FROM" ↔
      ∃ child parent c p, w = .link child parent ∧ c ∈ holdersOf g child ∧
        p ∈ holdersOf g parent ∧ edge = ⟨"DERIVED_FROM", c, p, []⟩ := by
  constructor
  · intro h
    rcases h with ⟨h, hlabel⟩
    have hmem := label_of_mem_drawn h
    rw [hlabel] at hmem
    cases w with
    | evidence e => exact absurd hmem (show _ ∉ ["PRODUCED"] by decide)
    | hop id hop => exact absurd hmem (show _ ∉ ["FORWARDED_TO"] by decide)
    | belief subject b supporting => exact absurd hmem (show _ ∉ ["SUPPORTS"] by decide)
    | link child parent =>
        rcases List.mem_append.mp h with h | h
        · rcases List.mem_flatMap.mp h with ⟨p, _, h⟩
          rcases List.mem_map.mp h with ⟨c, _, rfl⟩
          exact absurd hlabel (show "PARENT_OF" ≠ "DERIVED_FROM" by decide)
        · rcases List.mem_flatMap.mp h with ⟨c, hc, h⟩
          rcases List.mem_map.mp h with ⟨p, hp, rfl⟩
          exact ⟨child, parent, c, p, rfl, hc, hp, rfl⟩
  · intro h
    rcases h with ⟨child, parent, c, p, rfl, hc, hp, rfl⟩
    exact ⟨List.mem_append_right _
      (List.mem_flatMap_of_mem hc (List.mem_map_of_mem hp)), rfl⟩

/-- Over any history, what an evidence reads as derived from are the parents whose
    link was written when both ends were stored. A link that came too early is lost. -/
theorem readDerived_after (ws : List (Write F)) (id : EvidenceId) :
    ∃ rows, (exec distinct (after distinct ws) (readDerivedOf F id)).2.lookup "parents" =
        some (.rows rows) ∧
      ∀ row, row ∈ rows ↔ ∃ e, LinkedStored ws id e ∧ row = parentRow F e := by
  refine ⟨_, lookup_readDerivedOf distinct _ id, ?_⟩
  intro row
  simp only [List.mem_map, mem_reached, List.mem_flatMap, Graph.mem_outOf_iff,
    mem_edges_after_iff]
  constructor
  · intro h
    rcases h with ⟨t, ⟨c, hc, edge, ⟨pre, w, post, rfl, hdrawn⟩, hlabel, rfl, rfl⟩, rfl⟩
    rcases mem_drawn_derived_iff.mp ⟨hdrawn, hlabel⟩ with
      ⟨child, parent, c, p, rfl, hchild, hp, rfl⟩
    have hclt := Graph.lt_of_mem_select hchild
    have hplt := Graph.lt_of_mem_select hp
    -- The holder that the edge starts at held the id when it was drawn.
    have hid : child = id :=
      eq_of_mem_holdersOf hchild ((mem_holdersOf_append distinct _ hclt).mp hc)
    rcases (exists_mem_holdersOf_iff distinct pre child [] _).mp ⟨c, hchild, rfl⟩ with
      ⟨e, he, hechild, _⟩
    rcases (exists_mem_holdersOf_iff distinct pre parent ["evidence_id", "subject"] _).mp
      ⟨p, hp, rfl⟩ with ⟨e', he', hparent, hrow⟩
    refine ⟨e', ⟨pre, post, ?_, ⟨e, he, hechild.trans hid⟩, he'⟩, ?_⟩
    · rw [hid, hparent]
    · exact (row_after_append distinct _ hplt _).trans hrow.symm
  · intro h
    rcases h with ⟨e, ⟨pre, post, rfl, ⟨e', he', hchild⟩, he⟩, rfl⟩
    rcases (exists_mem_holdersOf_iff distinct pre id [] _).mpr ⟨e', he', hchild, rfl⟩ with
      ⟨c, hc, _⟩
    rcases (exists_mem_holdersOf_iff distinct pre e.evidenceId ["evidence_id", "subject"] _).mpr
      ⟨e, he, rfl, rfl⟩ with ⟨p, hp, hrow⟩
    have hdrawn := mem_drawn_derived_iff.mpr ⟨id, e.evidenceId, c, p, rfl, hc, hp, rfl⟩
    refine ⟨p, ⟨c, ?_, _, ⟨pre, _, post, rfl, hdrawn.1⟩, rfl, rfl, rfl⟩, ?_⟩
    · exact (mem_holdersOf_append distinct _ (Graph.lt_of_mem_select hc)).mpr hc
    · exact (row_after_append distinct _ (Graph.lt_of_mem_select hp) _).trans hrow

end Lineage

section Custody

/-- The hops that a history leaves for an evidence id, of which some nodes are stored
    already: each as often as there are nodes when it is written, or once where a
    traversal returns a node once. A hop before its evidence is lost. -/
def relayed (id : EvidenceId) : Nat → List (Write F) → List ProvenanceHop
  | _, [] => []
  | stored, .evidence e :: ws =>
      relayed id (if e.evidenceId = id then stored + 1 else stored) ws
  | stored, .hop id' h :: ws =>
      (if id' = id then List.replicate (if distinct then min 1 stored else stored) h else []) ++
        relayed id stored ws
  | stored, .link _ _ :: ws => relayed id stored ws
  | stored, .belief _ _ _ :: ws => relayed id stored ws

/-- How many nodes of a history hold an id. -/
def timesWritten (id : EvidenceId) (ws : List (Write F)) : Nat :=
  ((evidences ws).filter fun e => e.evidenceId = id).length

omit [DecidableEq F] in
theorem relayed_append (id : EvidenceId) (stored : Nat) (ws ws' : List (Write F)) :
    relayed distinct id stored (ws ++ ws') =
      relayed distinct id stored ws ++ relayed distinct id (stored + timesWritten id ws) ws' := by
  induction ws generalizing stored with
  | nil => rfl
  | cons w ws ih =>
      cases w with
      | evidence e =>
          have htimes : timesWritten id (.evidence e :: ws) =
              (if e.evidenceId = id then 1 else 0) + timesWritten id ws := by
            have hcons : evidences (.evidence e :: ws) = e :: evidences ws := rfl
            unfold timesWritten
            rw [hcons, List.filter_cons]
            by_cases hid : e.evidenceId = id
            · simp only [hid, decide_true, if_true, List.length_cons, Nat.add_comm 1]
            · simp only [hid, decide_false, if_false, Nat.zero_add, Bool.false_eq_true]
          rw [List.cons_append, relayed, relayed, ih, htimes]
          by_cases hid : e.evidenceId = id
          · rw [if_pos hid, if_pos hid, Nat.add_assoc]
          · rw [if_neg hid, if_neg hid, Nat.zero_add]
      | hop id' h =>
          rw [List.cons_append, relayed, relayed, ih, List.append_assoc]
          rfl
      | link child parent => exact ih stored
      | belief subject b supporting => exact ih stored

/-- Where the hop edges from the holders of an id lead, one for each edge. -/
def forwarded (g : Database F) (id : EvidenceId) (edges : List (Edge (StoredValue F))) : List Nat :=
  (edges.filter fun e => e.label = "FORWARDED_TO" ∧ e.source ∈ holdersOf g id).map Edge.target

/-- Hop edges are drawn from the holders of the id of the hop. -/
theorem exists_of_mem_drawn_forwarded {g : Database F} {w : Write F} {edge : Edge (StoredValue F)}
    (h : edge ∈ w.drawn g) (hlabel : edge.label = "FORWARDED_TO") :
    ∃ id, edge.source ∈ holdersOf g id := by
  have hmem := label_of_mem_drawn h
  rw [hlabel] at hmem
  cases w with
  | evidence e => exact absurd hmem (show _ ∉ ["PRODUCED"] by decide)
  | link child parent => exact absurd hmem (show _ ∉ ["PARENT_OF", "DERIVED_FROM"] by decide)
  | belief subject b supporting => exact absurd hmem (show _ ∉ ["SUPPORTS"] by decide)
  | hop id hop =>
      rcases List.mem_map.mp h with ⟨i, hi, rfl⟩
      exact ⟨id, hi⟩

/-- What the last write adds to them. -/
theorem forwarded_concat (ws : List (Write F)) (w : Write F) (id : EvidenceId) :
    forwarded (after distinct (ws ++ [w])) id (after distinct (ws ++ [w])).edges =
      forwarded (after distinct ws) id (after distinct ws).edges ++
        forwarded (after distinct ws) id (w.drawn (after distinct ws)) := by
  have hold (es : List (Edge (StoredValue F)))
      (hes : ∀ e ∈ es, e.label = "FORWARDED_TO" → e.source < (after distinct ws).nodes.length) :
      forwarded (after distinct (ws ++ [w])) id es = forwarded (after distinct ws) id es := by
    unfold forwarded
    congr 1
    refine List.filter_congr fun e he => decide_eq_decide.mpr (and_congr_right fun hlabel => ?_)
    exact mem_holdersOf_append distinct [w] (hes e he hlabel)
  rw [edges_after_concat, forwarded, List.filter_append, List.map_append, ← forwarded, ← forwarded,
    hold, hold]
  · -- Hop edges are drawn from what was stored already.
    intro e he hlabel
    rcases exists_of_mem_drawn_forwarded he hlabel with ⟨_, hi⟩
    exact Graph.lt_of_mem_select hi
  · intro e he _
    exact (wellFormed_after distinct ws e he).1

/-- A hop adds its node for every holder of its id. -/
theorem forwarded_drawn_hop (g : Database F) (id id' : EvidenceId) (h : ProvenanceHop) :
    forwarded g id ((Write.hop id' h).drawn g) =
      if id' = id then List.replicate (holdersOf g id).length g.nodes.length else [] := by
  unfold forwarded Write.drawn
  rw [List.filter_map, List.map_map]
  by_cases hid : id' = id
  · rw [if_pos hid, hid, List.filter_eq_self.mpr]
    · exact List.map_const'
    · intro i hi
      simp only [Function.comp_apply, hi, and_self, decide_true]
  · rw [if_neg hid, List.filter_eq_nil_iff.mpr, List.map_nil]
    intro i hi
    simp only [Function.comp_apply, true_and, decide_eq_true_eq]
    exact fun hi' => hid (eq_of_mem_holdersOf hi hi')

/-- Other writes add nothing. -/
theorem forwarded_drawn_of_not_mem (g : Database F) (id : EvidenceId) {w : Write F}
    (h : "FORWARDED_TO" ∉ w.labels) : forwarded g id (w.drawn g) = [] := by
  rw [forwarded, Graph.filter_label_of_ne (ne_of_mem_drawn h), List.map_nil]

/-- A node that is reached anew comes after those that were reached. -/
theorem reached_append_replicate {ids : List Nat} {i : Nat} (h : i ∉ ids) (n : Nat) :
    reached distinct (ids ++ List.replicate n i) =
      reached distinct ids ++ List.replicate (if distinct then min 1 n else n) i := by
  cases distinct with
  | false => rfl
  | true =>
      have hdisjoint : List.Disjoint ids (List.replicate n i) := by
        intro j hj hj'
        rw [List.eq_of_mem_replicate hj'] at hj
        exact h hj
      simp only [reached, if_true]
      rw [hdisjoint.dedup_append]
      cases n with
      | zero => rfl
      | succ n =>
          rw [List.replicate_dedup n.succ_ne_zero, Nat.min_eq_left n.succ_pos]
          rfl

/-- The row of a hop, as it is stored. -/
def relayRow (F : Type) (h : ProvenanceHop) : List (String × Option (StoredValue F)) :=
  [("node_id", some (.scalar (.string h.node.name))),
    ("received_at_nanos", some (.scalar (.i64 h.receivedAtNanos)))]

/-- The request that reads the custody chain of an evidence. -/
def readProvenanceFor (F : Type) (id : EvidenceId) : Request (StoredValue F) :=
  (readProvenance.withParameterValue "evidence_id" (idValue id)).mapValues .scalar

theorem lookup_readProvenanceFor (g : Database F) (id : EvidenceId) :
    (exec distinct g (readProvenanceFor F id)).2.lookup "relays" =
      some (.rows ((reached distinct ((holdersOf g id).flatMap (g.outOf "FORWARDED_TO"))).map
        fun i => g.row i ["node_id", "received_at_nanos"])) :=
  lookup_exec_follow distinct g _ _ _ _ _ _ _ rfl

/-- The nodes that hops lead to read as the hops of the history. -/
theorem rows_forwarded (ws : List (Write F)) (id : EvidenceId) :
    ((reached distinct (forwarded (after distinct ws) id (after distinct ws).edges)).map fun i =>
        (after distinct ws).row i ["node_id", "received_at_nanos"]) =
      (relayed distinct id 0 ws).map (relayRow F) := by
  induction ws using List.reverseRecOn with
  | nil =>
      cases distinct with
      | false => rfl
      | true => rfl
  | append_singleton ws w ih =>
      have hlt : ∀ i ∈ forwarded (after distinct ws) id (after distinct ws).edges,
          i < (after distinct ws).nodes.length := by
        intro i hi
        rcases List.mem_map.mp hi with ⟨e, he, rfl⟩
        exact (wellFormed_after distinct ws e (List.mem_of_mem_filter he)).2
      -- The rows of what was there before stay.
      have hrows : ((reached distinct
          (forwarded (after distinct ws) id (after distinct ws).edges)).map fun i =>
            (after distinct (ws ++ [w])).row i ["node_id", "received_at_nanos"]) =
          (relayed distinct id 0 ws).map (relayRow F) := by
        rw [← ih]
        refine List.map_congr_left fun i hi => ?_
        exact row_after_append distinct [w] (hlt i ((mem_reached distinct).mp hi)) _
      have htimes : timesWritten id ws = (holdersOf (after distinct ws) id).length :=
        (length_holdersOf distinct ws id).symm
      have hkept (hw : "FORWARDED_TO" ∉ w.labels)
          (hnone : relayed distinct id (timesWritten id ws) [w] = []) :
          ((reached distinct (forwarded (after distinct (ws ++ [w])) id
              (after distinct (ws ++ [w])).edges)).map fun i =>
            (after distinct (ws ++ [w])).row i ["node_id", "received_at_nanos"]) =
          (relayed distinct id 0 (ws ++ [w])).map (relayRow F) := by
        rw [forwarded_concat, forwarded_drawn_of_not_mem _ _ hw, List.append_nil, hrows,
          relayed_append, Nat.zero_add, hnone, List.append_nil]
      cases w with
      | evidence e => exact hkept (show _ ∉ ["PRODUCED"] by decide) rfl
      | link child parent =>
          exact hkept (show _ ∉ ["PARENT_OF", "DERIVED_FROM"] by decide) rfl
      | belief subject b supporting => exact hkept (show _ ∉ ["SUPPORTS"] by decide) rfl
      | hop id' h =>
          rw [forwarded_concat, forwarded_drawn_hop, relayed_append, Nat.zero_add, relayed, relayed,
            List.append_nil, htimes]
          by_cases hid : id' = id
          · have hnew : (after distinct (ws ++ [.hop id' h])).row (after distinct ws).nodes.length
                ["node_id", "received_at_nanos"] = relayRow F h := by
              have hnode : (after distinct (ws ++ [.hop id' h])).nodes[
                  (after distinct ws).nodes.length]? = some ((hopNode h).mapValues .scalar) := by
                rw [after_concat]
                exact List.getElem?_concat_length
              exact Graph.row_of_getElem? hnode _
            rw [if_pos hid, if_pos hid, reached_append_replicate distinct
              (fun hi => Nat.lt_irrefl _ (hlt _ hi)), List.map_append, hrows, List.map_append,
              List.map_replicate, List.map_replicate, hnew]
          · rw [if_neg hid, if_neg hid, List.append_nil, List.append_nil, hrows]

/-- The nodes that the traversal reaches read as the hops of the history. -/
theorem perm_relays (ws : List (Write F)) (id : EvidenceId) :
    ((reached distinct ((holdersOf (after distinct ws) id).flatMap
        ((after distinct ws).outOf "FORWARDED_TO"))).map fun i =>
          (after distinct ws).row i ["node_id", "received_at_nanos"]).Perm
      ((relayed distinct id 0 ws).map (relayRow F)) := by
  rw [← rows_forwarded]
  refine List.Perm.map _ ?_
  have hperm := Graph.perm_flatMap_outOf (after distinct ws) "FORWARDED_TO"
    (nodup_holdersOf (after distinct ws) id)
  unfold reached
  cases distinct with
  | false => exact hperm
  | true => exact hperm.dedup

/-- Over any history, the custody chain that is read has every hop as often as its
    evidence was stored before it, or once where a traversal returns a node once. -/
theorem readProvenance_after (ws : List (Write F)) (id : EvidenceId) :
    ∃ rows, (exec distinct (after distinct ws) (readProvenanceFor F id)).2.lookup "relays" =
        some (.rows rows) ∧
      rows.Perm ((relayed distinct id 0 ws).map (relayRow F)) :=
  ⟨_, lookup_readProvenanceFor distinct _ id, perm_relays distinct ws id⟩

end Custody

end Helix

end Seven
