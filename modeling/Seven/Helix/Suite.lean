import Seven.Belief.Engine
import Seven.Helix.Queries
import Seven.Library.Rows

/-!
# The Whole Suite

All queries of the suite on one database. Evidence, custody hops, lineage links and
belief snapshots are written by requests of their own, and what one node persists
may come between the requests of another. A history is any sequence of them.

Every request adds nodes and edges and changes none (`exec_request`). Which nodes it
adds depends on the request alone, so the nodes of a database are known from its
history (`nodes_after`). The edges depend on what was stored when the request came:
they are drawn to the evidence nodes that hold an id at that moment.

## Main definitions

* `StoredValue`, `Database`: Stored values with arrays, and graphs of them.
* `writeBeliefState`, `readBelief`, `readSubjectHistory`, `readDerived`: The queries
  beside those of evidence and custody.
* `Write`, `Write.request`: The writes of the suite.
* `after`: The database after a history.
* `holdersOf`: The nodes that hold an evidence id.

## Theorems

* `exec_request`: What a write does.
* `nodes_after`, `edges_after_concat`: The database after a history.
* `readSubjectHistory_after`, `readBelief_after`: What is read by subject.
-/

namespace Seven

namespace Helix

open PropertyGraph

/-- A stored value, arrays of floats included. -/
inductive StoredValue (F : Type) where
  | scalar (v : PropertyValue)
  | f64Array (xs : List F)
  deriving DecidableEq

abbrev Database (F : Type) := PropertyGraph.Graph (StoredValue F)

/-- `i64::try_from(n).unwrap_or(i64::MAX)`. -/
def toI64Saturating (n : UInt64) : Int64 :=
  if n.toNat < 2 ^ 63 then Int64.ofNat n.toNat else Int64.maxValue

/-- Write a belief snapshot for a subject, and the edge from its evidence. -/
def writeBeliefState {F : Type} (subject : SubjectId) (belief : GaussianBelief F)
    (supporting : EvidenceId) : Request (StoredValue F) :=
  ({ vars := [
      ("ev", .whereEqParam (.nWithLabel "Evidence") "evidence_id" "evidence_id"),
      ("belief", .addN "Belief" [
        ("subject", .scalar (idOr subject.name)),
        ("mean", .f64Array belief.mean.toList),
        ("var", .f64Array belief.var.toList),
        ("independent_updates", .scalar (.i64 (toI64Saturating belief.independentUpdates)))]),
      ("sup", .addE (.n "ev") "SUPPORTS" "belief" [])]
     returning := ["belief"]
     params := [] } : Request (StoredValue F))
  |>.withParameterValue "evidence_id" (.scalar (.string (hex32 supporting.bytes)))

/-- Read the belief snapshots of the subject given as a parameter. -/
def readBelief {V : Type} : Request V :=
  { vars := [
      ("belief", .project (.whereEqParam (.nWithLabel "Belief") "subject" "subject")
        ["subject", "mean", "var", "independent_updates"])]
    returning := ["belief"]
    params := [] }

/-- Read all evidence of the subject given as a parameter. -/
def readSubjectHistory {V : Type} : Request V :=
  { vars := [
      ("history", .project (.whereEqParam (.nWithLabel "Evidence") "subject" "subject")
        ["evidence_id", "observation_id", "observed_at_nanos"])]
    returning := ["history"]
    params := [] }

/-- Read what the evidence given as a parameter was derived from. -/
def readDerived {V : Type} : Request V :=
  { vars := [
      ("child", .whereEqParam (.nWithLabel "Evidence") "evidence_id" "evidence_id"),
      ("parents", .project (.out (.n "child") "DERIVED_FROM") ["evidence_id", "subject"])]
    returning := ["parents"]
    params := [] }

/-- The node of a belief snapshot. -/
def beliefNode {F : Type} (subject : SubjectId) (belief : GaussianBelief F) :
    Node (StoredValue F) :=
  ⟨"Belief", [
    ("subject", .scalar (idOr subject.name)),
    ("mean", .f64Array belief.mean.toList),
    ("var", .f64Array belief.var.toList),
    ("independent_updates", .scalar (.i64 (toI64Saturating belief.independentUpdates)))]⟩

/-- One write of the suite. -/
inductive Write (F : Type) where
  | evidence (e : Evidence)
  | hop (id : EvidenceId) (hop : ProvenanceHop)
  | link (child parent : EvidenceId)
  | belief (subject : SubjectId) (belief : GaussianBelief F) (supporting : EvidenceId)

namespace Write

variable {F : Type}

/-- The request of a write. -/
def request : Write F → Request (StoredValue F)
  | evidence e => (writeEvidence e).mapValues .scalar
  | hop id h => (writeHop (hex32 id.bytes) h).mapValues .scalar
  | link child parent => (writeParent (hex32 child.bytes) (hex32 parent.bytes)).mapValues .scalar
  | belief subject b supporting => writeBeliefState subject b supporting

/-- The writes of a custody chain are what the suite writes for it. -/
theorem map_request_hops (e : Evidence) :
    (e.provenance.hops.map fun h => (hop e.evidenceId h : Write F).request) =
      (writeProvenance e).map (Request.mapValues .scalar) := by
  rw [writeProvenance, List.map_map]
  rfl

/-- And those of a lineage. -/
theorem map_request_links (e : Evidence) :
    (e.parentEvidenceIds.map fun p => (link e.evidenceId p : Write F).request) =
      (writeParentage e).map (Request.mapValues .scalar) := by
  rw [writeParentage, List.map_map]
  rfl

/-- The nodes that a write creates. -/
def created : Write F → List (Node (StoredValue F))
  | evidence e => [(sourceNode e).mapValues .scalar, (evidenceNode e).mapValues .scalar]
  | hop _ h => [(hopNode h).mapValues .scalar]
  | link _ _ => []
  | belief subject b _ => [beliefNode subject b]

end Write

section Exec

variable {F : Type} [DecidableEq F]

/-- The evidence nodes that hold an id. -/
def holdersOf (g : Database F) (id : EvidenceId) : List Nat :=
  g.select "Evidence" "evidence_id" (.scalar (idValue id))

/-- The edges that a write draws. -/
def Write.drawn (g : Database F) : Write F → List (Edge (StoredValue F))
  | .evidence _ => [⟨"PRODUCED", g.nodes.length, g.nodes.length + 1, []⟩]
  | .hop id h => (holdersOf g id).map fun i =>
      ⟨"FORWARDED_TO", i, g.nodes.length,
        [("received_at_nanos", .scalar (.i64 h.receivedAtNanos))]⟩
  | .link child parent =>
      ((holdersOf g parent).flatMap fun p => (holdersOf g child).map fun c =>
          ⟨"PARENT_OF", p, c, []⟩) ++
        (holdersOf g child).flatMap fun c => (holdersOf g parent).map fun p =>
          ⟨"DERIVED_FROM", c, p, []⟩
  | .belief _ _ supporting => (holdersOf g supporting).map fun i =>
      ⟨"SUPPORTS", i, g.nodes.length, []⟩

variable (distinct : Bool)

/-- A selection of holders by a parameter. -/
theorem eval_holders (params : List (String × StoredValue F))
    (env : List (String × Binding (StoredValue F))) (g : Database F) (param : String)
    (id : EvidenceId) (h : params.lookup param = some (.scalar (idValue id))) :
    eval distinct params env g (.whereEqParam (.nWithLabel "Evidence") "evidence_id" param) =
      (g, .nodes (holdersOf g id)) :=
  eval_select distinct params env g _ _ _ h

/-- What a write does: it adds nodes, and edges between nodes. -/
theorem exec_request (g : Database F) (w : Write F) :
    (exec distinct g w.request).1 =
      ⟨g.nodes ++ w.created, g.edges ++ w.drawn g⟩ := by
  cases w with
  | evidence e =>
      have hlen : (g.addNode ((sourceNode e).mapValues .scalar)).nodes.length =
          g.nodes.length + 1 := Graph.length_nodes_addNode g _
      have hexec : (exec distinct g (Write.evidence e).request).1 =
          ((g.addNode ((sourceNode e).mapValues .scalar)).addNode
            ((evidenceNode e).mapValues .scalar)).addEdges
              [⟨"PRODUCED", g.nodes.length,
                (g.addNode ((sourceNode e).mapValues .scalar)).nodes.length, []⟩] := rfl
      rw [hexec, hlen, Graph.addNode, Graph.addNode, Graph.addEdges, List.append_assoc]
      rfl
  | hop id h =>
      unfold exec Write.request writeHop Request.withParameterValue Request.mapValues
      simp only [List.map_cons, List.map_nil, mapProps, Traversal.mapValues, bindAll]
      rw [eval_holders distinct _ _ g "evidence_id" id rfl]
      simp only [eval]
      rw [Write.drawn, List.map_eq_flatMap]
      rfl
  | link child parent =>
      unfold exec Write.request writeParent Request.withParameterValue Request.mapValues
      simp only [List.map_cons, List.map_nil, mapProps, Traversal.mapValues, bindAll]
      rw [eval_holders distinct _ _ g "child_id" child rfl]
      rw [eval_holders distinct _ _ g "parent_id" parent rfl]
      rw [Write.created, Write.drawn, List.append_nil, ← List.append_assoc]
      rfl
  | belief subject b supporting =>
      unfold exec Write.request writeBeliefState Request.withParameterValue
      simp only [bindAll]
      rw [eval_holders distinct _ _ g "evidence_id" supporting rfl]
      simp only [eval]
      rw [Write.drawn, List.map_eq_flatMap]
      rfl

/-- The database after a history of writes. -/
def after (ws : List (Write F)) : Database F :=
  execAll distinct .empty (ws.map Write.request)

theorem after_concat (ws : List (Write F)) (w : Write F) :
    after distinct (ws ++ [w]) =
      ⟨(after distinct ws).nodes ++ w.created,
        (after distinct ws).edges ++ w.drawn (after distinct ws)⟩ := by
  rw [after, List.map_append, execAll_append, ← after, List.map_singleton, execAll_cons,
    execAll_nil, exec_request]

theorem nodes_after (ws : List (Write F)) :
    (after distinct ws).nodes = ws.flatMap Write.created := by
  induction ws using List.reverseRecOn with
  | nil => rfl
  | append_singleton ws w ih =>
      rw [after_concat, ih, List.flatMap_append, List.flatMap_singleton]

theorem edges_after_concat (ws : List (Write F)) (w : Write F) :
    (after distinct (ws ++ [w])).edges =
      (after distinct ws).edges ++ w.drawn (after distinct ws) := by
  rw [after_concat]

end Exec

section Subjects

variable {F : Type}

/-- The evidence of a history, as it was written. -/
def evidences (ws : List (Write F)) : List Evidence :=
  ws.filterMap fun
    | .evidence e => some e
    | _ => none

/-- And its belief snapshots, with their subjects. -/
def snapshots (ws : List (Write F)) : List (SubjectId × GaussianBelief F) :=
  ws.filterMap fun
    | .belief subject b _ => some (subject, b)
    | _ => none

/-- The node of an evidence, as it is stored. -/
def storedNode (F : Type) (e : Evidence) : Node (StoredValue F) :=
  (evidenceNode e).mapValues .scalar

variable [DecidableEq F] (distinct : Bool)

/-- The evidence nodes of a history are those of its evidence. -/
theorem filter_nodes_evidence (ws : List (Write F)) :
    ((after distinct ws).nodes.filter fun x => x.label = "Evidence") =
      (evidences ws).map (storedNode F) := by
  rw [nodes_after]
  induction ws with
  | nil => rfl
  | cons w ws ih =>
      rw [List.flatMap_cons, List.filter_append, ih]
      cases w with
      | evidence e => rfl
      | hop id h => rfl
      | link child parent => rfl
      | belief subject b supporting => rfl

/-- And the belief nodes those of its snapshots. -/
theorem filter_nodes_belief (ws : List (Write F)) :
    ((after distinct ws).nodes.filter fun x => x.label = "Belief") =
      (snapshots ws).map fun sb => beliefNode sb.1 sb.2 := by
  rw [nodes_after]
  induction ws with
  | nil => rfl
  | cons w ws ih =>
      rw [List.flatMap_cons, List.filter_append, ih]
      cases w with
      | evidence e => rfl
      | hop id h => rfl
      | link child parent => rfl
      | belief subject b supporting => rfl

/-- The value that a subject is stored as. -/
def subjectValue (F : Type) (subject : SubjectId) : StoredValue F :=
  .scalar (idOr subject.name)

omit [DecidableEq F] in
theorem subjectValue_inj {s s' : SubjectId} (h : subjectValue F s = subjectValue F s') :
    s = s' := by
  rcases s with ⟨name⟩
  rcases s' with ⟨name'⟩
  have hname : name = name' := PropertyValue.string.inj (StoredValue.scalar.inj h)
  rw [hname]

/-- The row that an evidence reads back as in the history of its subject. -/
def historyRow (F : Type) (e : Evidence) : List (String × Option (StoredValue F)) :=
  [("evidence_id", some (.scalar (.string (hex32 e.evidenceId.bytes)))),
    ("observation_id", some (.scalar (.string (hex32 e.observationId.bytes)))),
    ("observed_at_nanos", some (.scalar (.i64 e.observedAtNanos)))]

/-- The row that a snapshot reads back as. -/
def beliefRow (subject : SubjectId) (b : GaussianBelief F) :
    List (String × Option (StoredValue F)) :=
  [("subject", some (.scalar (.string subject.name))),
    ("mean", some (.f64Array b.mean.toList)),
    ("var", some (.f64Array b.var.toList)),
    ("independent_updates", some (.scalar (.i64 (toI64Saturating b.independentUpdates))))]

/-- Whatever else was written before, between and after, reading the history of a
    subject returns a row for every evidence of the subject, as often as it was
    written, and no other. -/
theorem readSubjectHistory_after (ws : List (Write F)) (subject : SubjectId) :
    ∃ rows, (exec distinct (after distinct ws)
        (readSubjectHistory.withParameterValue "subject" (subjectValue F subject))).2.lookup
          "history" = some (.rows rows) ∧
      rows.Perm (((evidences ws).filter fun e => e.subject = subject).map (historyRow F)) := by
  have hsubject (e : Evidence) : (storedNode F e).props.lookup "subject" =
      some (subjectValue F subject) ↔ e.subject = subject := by
    have hlookup : (storedNode F e).props.lookup "subject" = some (subjectValue F e.subject) := rfl
    rw [hlookup, Option.some.injEq]
    exact ⟨subjectValue_inj, congrArg _⟩
  have hrows := Graph.rows_select_of_nodes (filter_nodes_evidence distinct ws) "subject"
    (subjectValue F subject) ["evidence_id", "observation_id", "observed_at_nanos"]
  simp only [hsubject] at hrows
  exact ⟨_, lookup_exec_select distinct _ _ _ _ _ _ rfl, List.Perm.of_eq hrows⟩

/-- Reading the belief of a subject returns every snapshot that was written for it,
    not the latest one alone. -/
theorem readBelief_after (ws : List (Write F)) (subject : SubjectId) :
    ∃ rows, (exec distinct (after distinct ws)
        (readBelief.withParameterValue "subject" (subjectValue F subject))).2.lookup
          "belief" = some (.rows rows) ∧
      rows.Perm (((snapshots ws).filter fun sb => sb.1 = subject).map fun sb =>
        beliefRow sb.1 sb.2) := by
  have hsubject (sb : SubjectId × GaussianBelief F) : (beliefNode sb.1 sb.2).props.lookup
      "subject" = some (subjectValue F subject) ↔ sb.1 = subject := by
    have hlookup : (beliefNode sb.1 sb.2).props.lookup "subject" = some (subjectValue F sb.1) := rfl
    rw [hlookup, Option.some.injEq]
    exact ⟨subjectValue_inj, congrArg _⟩
  have hrows := Graph.rows_select_of_nodes (filter_nodes_belief distinct ws) "subject"
    (subjectValue F subject) ["subject", "mean", "var", "independent_updates"]
  simp only [hsubject] at hrows
  exact ⟨_, lookup_exec_select distinct _ _ _ _ _ _ rfl, List.Perm.of_eq hrows⟩

end Subjects

end Helix

end Seven
