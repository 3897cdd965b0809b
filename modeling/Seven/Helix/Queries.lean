import Seven.Evidence.Identity
import Seven.Library.Graph
import Seven.Mql.Hex

/-!
# The Query Suite

The checked-in queries over the evidence graph: batches that write an evidence, its
custody chain and its lineage, and batches that read them back. Evidence is created
without looking whether it is there, and found again by its id in hex.

HelixDB itself is another system. Its reading here is the one of the property graph
library, whose one open point, whether a traversal returns a node once or once for
each edge, stays a parameter.

What each batch does to the graph is said once (`exec_writeEvidence`,
`exec_writeHop`, `exec_writeParent`), and what each read returns
(`readProvenance_relays`, `reconstruct_ancestors`).

## Main definitions

* `PropertyValue`: The values that are stored.
* `writeEvidence`, `writeProvenance`, `writeParentage`: The writes.
* `readProvenance`, `reconstructProvenance`: The reads.
* `holders`: The nodes that hold an evidence id.

## Theorems

* `exec_writeEvidence`, `exec_writeHop`, `exec_writeParent`: What a write does.
* `readProvenance_relays`, `reconstruct_ancestors`: What a read returns.
* `hex32_inj`: Different ids have different texts.
-/

namespace Seven

namespace Helix

open PropertyGraph

/-- A stored value. -/
inductive PropertyValue where
  | string (s : String)
  | i64 (x : Int64)
  deriving DecidableEq

abbrev Store := PropertyGraph.Graph PropertyValue

abbrev QueryRequest := Request PropertyValue

def hex32 (b : Bytes32) : String :=
  Mql.hexSlice b.toList

def idOr (s : String) : PropertyValue :=
  .string s

/-- The value that an evidence id is stored as. -/
def idValue (id : EvidenceId) : PropertyValue :=
  .string (hex32 id.bytes)

/-- Write an origin evidence node with its source and the edge between them. -/
def writeEvidence (e : Evidence) : QueryRequest :=
  let idHex := hex32 e.evidenceId.bytes
  let obsHex := hex32 e.observationId.bytes
  let srcHex := hex32 e.sourceId.bytes
  { vars := [
      ("src", .addN "Source" [("source_id", idOr srcHex)]),
      ("ev", .addN "Evidence" [
        ("evidence_id", idOr idHex),
        ("observation_id", idOr obsHex),
        ("subject", idOr e.subject.name),
        ("observed_at_nanos", .i64 e.observedAtNanos),
        ("received_at_nanos", .i64 e.receivedAtNanos),
        ("expires_at_nanos", .i64 e.expiresAtNanos)]),
      ("rel", .addE (.n "src") "PRODUCED" "ev" [])]
    returning := ["ev"]
    params := [] }

/-- The request that links a child to one parent, in both directions. -/
def writeParent (childHex parentHex : String) : QueryRequest :=
  ({ vars := [
      ("child", .whereEqParam (.nWithLabel "Evidence") "evidence_id" "child_id"),
      ("parent", .whereEqParam (.nWithLabel "Evidence") "evidence_id" "parent_id"),
      ("edge", .addE (.n "parent") "PARENT_OF" "child" []),
      ("derived", .addE (.n "child") "DERIVED_FROM" "parent" [])]
     returning := ["edge", "derived"]
     params := [] } : QueryRequest)
  |>.withParameterValue "child_id" (.string childHex)
  |>.withParameterValue "parent_id" (.string parentHex)

/-- Write the lineage of a child, one request for each parent. -/
def writeParentage (child : Evidence) : List QueryRequest :=
  let childHex := hex32 child.evidenceId.bytes
  child.parentEvidenceIds.map fun parent => writeParent childHex (hex32 parent.bytes)

/-- The request that writes one hop. -/
def writeHop (evHex : String) (hop : ProvenanceHop) : QueryRequest :=
  ({ vars := [
      ("leaf", .whereEqParam (.nWithLabel "Evidence") "evidence_id" "evidence_id"),
      ("relay", .addN "Node" [
        ("node_id", idOr hop.node.name),
        ("received_at_nanos", .i64 hop.receivedAtNanos)]),
      ("fwd", .addE (.n "leaf") "FORWARDED_TO" "relay"
        [("received_at_nanos", .i64 hop.receivedAtNanos)])]
     returning := ["fwd"]
     params := [] } : QueryRequest)
  |>.withParameterValue "evidence_id" (.string evHex)

/-- Write the custody chain, one request for each hop. -/
def writeProvenance (e : Evidence) : List QueryRequest :=
  let evHex := hex32 e.evidenceId.bytes
  e.provenance.hops.map (writeHop evHex)

/-- Read the custody chain of the evidence id given as a parameter. -/
def readProvenance : QueryRequest :=
  { vars := [
      ("leaf", .whereEqParam (.nWithLabel "Evidence") "evidence_id" "evidence_id"),
      ("relays", .project (.out (.n "leaf") "FORWARDED_TO") ["node_id", "received_at_nanos"])]
    returning := ["relays"]
    params := [] }

/-- Traverse the parents of the evidence id given as a parameter. -/
def reconstructProvenance : QueryRequest :=
  { vars := [
      ("leaf", .whereEqParam (.nWithLabel "Evidence") "evidence_id" "evidence_id"),
      ("ancestors", .into (.n "leaf") "PARENT_OF")]
    returning := ["leaf", "ancestors"]
    params := [] }

/-- The evidence nodes that hold an id. -/
def holders (g : Store) (v : PropertyValue) : List Nat :=
  g.select "Evidence" "evidence_id" v

/-- The node of a hop. -/
def hopNode (hop : ProvenanceHop) : Node PropertyValue :=
  ⟨"Node", [("node_id", idOr hop.node.name), ("received_at_nanos", .i64 hop.receivedAtNanos)]⟩

/-- The row that a hop reads back as. -/
def hopRow (hop : ProvenanceHop) : List (String × Option PropertyValue) :=
  [("node_id", some (.string hop.node.name)),
    ("received_at_nanos", some (.i64 hop.receivedAtNanos))]

/-- The row of a node. -/
def rowAt (g : Store) (i : Nat) : List (String × Option PropertyValue) :=
  ["node_id", "received_at_nanos"].map fun key => (key, g.prop i key)

/-- The rows of the relay nodes that the holders of an id lead to. -/
def relayRows (distinct : Bool) (g : Store) (v : PropertyValue) :
    List (List (String × Option PropertyValue)) :=
  (reached distinct ((holders g v).flatMap (g.outOf "FORWARDED_TO"))).map (rowAt g)

/-- The node of an evidence. -/
def evidenceNode (e : Evidence) : Node PropertyValue :=
  ⟨"Evidence", [
    ("evidence_id", idOr (hex32 e.evidenceId.bytes)),
    ("observation_id", idOr (hex32 e.observationId.bytes)),
    ("subject", idOr e.subject.name),
    ("observed_at_nanos", .i64 e.observedAtNanos),
    ("received_at_nanos", .i64 e.receivedAtNanos),
    ("expires_at_nanos", .i64 e.expiresAtNanos)]⟩

/-- The node of its source. -/
def sourceNode (e : Evidence) : Node PropertyValue :=
  ⟨"Source", [("source_id", idOr (hex32 e.sourceId.bytes))]⟩

section Exec

variable (distinct : Bool) (g : Store)

/-- What writing an evidence does: two nodes and the edge between them. -/
theorem exec_writeEvidence (e : Evidence) :
    (exec distinct g (writeEvidence e)).1 =
      ((g.addNode (sourceNode e)).addNode (evidenceNode e)).addEdges
        [⟨"PRODUCED", g.nodes.length, g.nodes.length + 1, []⟩] := by
  have hlen : (g.addNode (sourceNode e)).nodes.length = g.nodes.length + 1 :=
    Graph.length_nodes_addNode g _
  rw [← hlen]
  rfl

/-- The variable that all reads and writes of one evidence start from. -/
theorem eval_leaf (evHex : String) :
    eval distinct [("evidence_id", PropertyValue.string evHex)] [] g
        (.whereEqParam (.nWithLabel "Evidence") "evidence_id" "evidence_id") =
      (g, .nodes (holders g (.string evHex))) :=
  eval_select distinct _ _ g _ _ _ rfl

/-- What writing a hop does: its node, and an edge from every holder. -/
theorem exec_writeHop (evHex : String) (hop : ProvenanceHop) :
    (exec distinct g (writeHop evHex hop)).1 =
      (g.addNode (hopNode hop)).addEdges ((holders g (.string evHex)).map fun i =>
        ⟨"FORWARDED_TO", i, g.nodes.length,
          [("received_at_nanos", .i64 hop.receivedAtNanos)]⟩) := by
  unfold exec writeHop Request.withParameterValue
  simp only [bindAll, eval_leaf]
  simp only [eval]
  rw [List.map_eq_flatMap]
  rfl

/-- What linking a child to a parent does: edges both ways between all holders. -/
theorem exec_writeParent (childHex parentHex : String) :
    (exec distinct g (writeParent childHex parentHex)).1 =
      (g.addEdges ((holders g (.string parentHex)).flatMap fun p =>
          (holders g (.string childHex)).map fun c => ⟨"PARENT_OF", p, c, []⟩)).addEdges
        ((holders g (.string childHex)).flatMap fun c =>
          (holders g (.string parentHex)).map fun p => ⟨"DERIVED_FROM", c, p, []⟩) := by
  have hchild (env) : eval distinct
      [("parent_id", PropertyValue.string parentHex), ("child_id", .string childHex)] env g
        (.whereEqParam (.nWithLabel "Evidence") "evidence_id" "child_id") =
          (g, .nodes (holders g (.string childHex))) := eval_select distinct _ env g _ _ _ rfl
  have hparent (env) : eval distinct
      [("parent_id", PropertyValue.string parentHex), ("child_id", .string childHex)] env g
        (.whereEqParam (.nWithLabel "Evidence") "evidence_id" "parent_id") =
          (g, .nodes (holders g (.string parentHex))) := eval_select distinct _ env g _ _ _ rfl
  unfold exec writeParent Request.withParameterValue
  simp only [bindAll, hchild, hparent]
  rfl

/-- What reading a custody chain returns: a row for every node that edges from the
    holders lead to. -/
theorem readProvenance_relays (evHex : String) :
    (exec distinct g (readProvenance.withParameterValue "evidence_id" (.string evHex))).2.lookup
        "relays" = some (.rows (relayRows distinct g (.string evHex))) := by
  unfold exec readProvenance Request.withParameterValue
  simp only [bindAll, eval_leaf]
  rfl

/-- What reconstructing returns as ancestors: the nodes that parent edges to the
    holders come from. -/
theorem reconstruct_ancestors (evHex : String) :
    (exec distinct g
        (reconstructProvenance.withParameterValue "evidence_id" (.string evHex))).2.lookup
        "ancestors" =
      some (.nodes (reached distinct ((holders g (.string evHex)).flatMap
        fun i => g.intoOf "PARENT_OF" i))) := by
  unfold exec reconstructProvenance Request.withParameterValue
  simp only [bindAll, eval_leaf]
  rfl

/-- Writing an evidence adds one holder of its id. -/
theorem holders_writeEvidence (e : Evidence) (v : PropertyValue) :
    holders (exec distinct g (writeEvidence e)).1 v =
      holders g v ++ if idValue e.evidenceId = v then [g.nodes.length + 1] else [] := by
  rw [exec_writeEvidence, holders, Graph.select_addEdges, Graph.select_addNode,
    Graph.select_addNode, Graph.length_nodes_addNode, ← holders]
  have hsource : ¬ ((sourceNode e).label = "Evidence" ∧
      (sourceNode e).props.lookup "evidence_id" = some v) := by
    intro h
    have hlabel : "Source" = "Evidence" := h.1
    exact absurd hlabel (by decide)
  have hevidence : ((evidenceNode e).label = "Evidence" ∧
      (evidenceNode e).props.lookup "evidence_id" = some v) ↔ idValue e.evidenceId = v := by
    rw [← Option.some.injEq (idValue e.evidenceId)]
    exact and_iff_right rfl
  rw [if_neg hsource, List.append_nil]
  simp only [hevidence]

/-- Writing a hop adds none. -/
theorem holders_writeHop (evHex : String) (hop : ProvenanceHop) (v : PropertyValue) :
    holders (exec distinct g (writeHop evHex hop)).1 v = holders g v := by
  have hhop : ¬ ((hopNode hop).label = "Evidence" ∧
      (hopNode hop).props.lookup "evidence_id" = some v) := by
    intro h
    have hlabel : "Node" = "Evidence" := h.1
    exact absurd hlabel (by decide)
  rw [exec_writeHop, holders, Graph.select_addEdges, Graph.select_addNode, if_neg hhop,
    List.append_nil, ← holders]

end Exec

/-- Different ids have different texts. -/
theorem hex32_inj {b b' : Bytes32} (h : hex32 b = hex32 b') : b = b' := by
  have hpairs := congrArg Mql.hexPairs h
  rw [hex32, hex32, Mql.hexPairs_hexSlice, Mql.hexPairs_hexSlice] at hpairs
  exact Vector.toList_inj.mp hpairs

theorem idValue_inj {id id' : EvidenceId} (h : idValue id = idValue id') : id = id' := by
  rcases id with ⟨b⟩
  rcases id' with ⟨b'⟩
  have hb : b = b' := hex32_inj (PropertyValue.string.inj h)
  rw [hb]

end Helix

end Seven
