import Mathlib.Data.List.Dedup

/-!
# Property Graphs and Their Queries

A graph whose nodes and edges carry a label and named values, and a small language
of batches over it: nodes are created or selected by a value, edges are drawn
between selected nodes, and traversals follow edges of a label.

Creating is unconditional and selecting is by value, so two nodes may be selected
by the same value, and an edge drawn to a selection is drawn to all of it. The
lemmas here say what one creation does to every selection (`select_addNode`) and to
every traversal (`outOf_addEdges`,
`mem_intoOf_addEdges_drawn`).

Whether a traversal returns a node once, or once for every edge that leads to it,
is a parameter. The order in which nodes are returned is that of their creation
here; it is no part of what a query promises, so what is proved of a result should
be up to order.

## Main definitions

* `Graph`, `addNode`, `addEdges`: Graphs and what is added to them.
* `select`, `outOf`, `intoOf`: Nodes by value and along edges.
* `WellFormed`: Edges lead between nodes.
* `Traversal`, `Request`, `eval`, `exec`: Batches and what they do.

## Theorems

* `select_addNode`: What a new node adds to a selection.
* `outOf_addEdges_drawn`: Where edges drawn to one node lead.
* `outOf_of_length_le`: A new node has no edges yet.
* `eval_select`: Selecting by label and value.
-/

namespace PropertyGraph

structure Node (V : Type) where
  label : String
  props : List (String × V)

structure Edge (V : Type) where
  label : String
  source : Nat
  target : Nat
  props : List (String × V)

/-- A graph; a node is named by its place. -/
structure Graph (V : Type) where
  nodes : List (Node V)
  edges : List (Edge V)

namespace Graph

variable {V : Type}

def empty : Graph V := ⟨[], []⟩

def addNode (g : Graph V) (x : Node V) : Graph V :=
  { g with nodes := g.nodes ++ [x] }

def addEdges (g : Graph V) (es : List (Edge V)) : Graph V :=
  { g with edges := g.edges ++ es }

/-- A value of a node. -/
def prop (g : Graph V) (i : Nat) (key : String) : Option V :=
  g.nodes[i]?.bind fun x => x.props.lookup key

def withLabel (g : Graph V) (label : String) : List Nat :=
  (List.range g.nodes.length).filter fun i => g.nodes[i]?.any fun x => x.label = label

/-- Edges lead between nodes. -/
def WellFormed (g : Graph V) : Prop :=
  ∀ e ∈ g.edges, e.source < g.nodes.length ∧ e.target < g.nodes.length

/-- The targets of the edges of a label from a node, one for each edge. -/
def outOf (g : Graph V) (label : String) (i : Nat) : List Nat :=
  (g.edges.filter fun e => e.label = label ∧ e.source = i).map Edge.target

/-- The sources of the edges of a label to a node, one for each edge. -/
def intoOf (g : Graph V) (label : String) (i : Nat) : List Nat :=
  (g.edges.filter fun e => e.label = label ∧ e.target = i).map Edge.source

/-- The nodes of a label with a value under a key. -/
def select [DecidableEq V] (g : Graph V) (label key : String) (v : V) : List Nat :=
  (g.withLabel label).filter fun i => g.prop i key = some v

theorem prop_addNode (g : Graph V) (x : Node V) {i : Nat} (h : i < g.nodes.length) (key : String) :
    (g.addNode x).prop i key = g.prop i key := by
  rw [prop, prop, addNode, List.getElem?_append_left h]

theorem prop_length_addNode (g : Graph V) (x : Node V) (key : String) :
    (g.addNode x).prop g.nodes.length key = x.props.lookup key := by
  rw [prop, addNode, List.getElem?_concat_length, Option.bind_some]

@[simp] theorem prop_addEdges (g : Graph V) (es : List (Edge V)) (i : Nat) (key : String) :
    (g.addEdges es).prop i key = g.prop i key := rfl

@[simp] theorem length_nodes_addNode (g : Graph V) (x : Node V) :
    (g.addNode x).nodes.length = g.nodes.length + 1 := by
  rw [addNode, List.length_append, List.length_singleton]

@[simp] theorem nodes_addEdges (g : Graph V) (es : List (Edge V)) :
    (g.addEdges es).nodes = g.nodes := rfl

theorem withLabel_addNode (g : Graph V) (x : Node V) (label : String) :
    (g.addNode x).withLabel label =
      g.withLabel label ++ if x.label = label then [g.nodes.length] else [] := by
  have hold : ∀ i ∈ List.range g.nodes.length,
      ((g.addNode x).nodes[i]?.any fun y => decide (y.label = label)) =
        g.nodes[i]?.any fun y => decide (y.label = label) := by
    intro i hi
    rw [addNode, List.getElem?_append_left (List.mem_range.mp hi)]
  rw [withLabel, length_nodes_addNode, List.range_succ, List.filter_append,
    List.filter_congr hold, ← withLabel]
  congr 1
  rw [List.filter_singleton, addNode, List.getElem?_concat_length, Option.any_some]
  by_cases h : x.label = label
  · simp only [h, decide_true, if_true, cond_true]
  · simp only [h, decide_false, if_false, cond_false]

theorem lt_of_mem_withLabel {g : Graph V} {label : String} {i : Nat}
    (h : i ∈ g.withLabel label) : i < g.nodes.length :=
  List.mem_range.mp (List.mem_of_mem_filter h)

theorem wellFormed_empty : (empty : Graph V).WellFormed :=
  fun _ h => absurd h List.not_mem_nil

theorem WellFormed.addNode {g : Graph V} (h : g.WellFormed) (x : Node V) :
    (g.addNode x).WellFormed := by
  intro e he
  rw [length_nodes_addNode]
  have hlt := h e he
  omega

theorem WellFormed.addEdges {g : Graph V} (h : g.WellFormed) {es : List (Edge V)}
    (hes : ∀ e ∈ es, e.source < g.nodes.length ∧ e.target < g.nodes.length) :
    (g.addEdges es).WellFormed := by
  intro e he
  rcases List.mem_append.mp he with he | he
  · exact h e he
  · exact hes e he

@[simp] theorem outOf_addNode (g : Graph V) (x : Node V) (label : String) (i : Nat) :
    (g.addNode x).outOf label i = g.outOf label i := rfl

@[simp] theorem intoOf_addNode (g : Graph V) (x : Node V) (label : String) (i : Nat) :
    (g.addNode x).intoOf label i = g.intoOf label i := rfl

theorem outOf_addEdges (g : Graph V) (es : List (Edge V)) (label : String) (i : Nat) :
    (g.addEdges es).outOf label i =
      g.outOf label i ++ (es.filter fun e => e.label = label ∧ e.source = i).map Edge.target := by
  rw [outOf, addEdges, List.filter_append, List.map_append, outOf]

theorem filter_label_of_ne {es : List (Edge V)} {label : String} (h : ∀ e ∈ es, e.label ≠ label)
    (p : Edge V → Prop) [DecidablePred p] : (es.filter fun e => e.label = label ∧ p e) = [] := by
  rw [List.filter_eq_nil_iff]
  intro e he
  simp only [decide_eq_true_eq, not_and]
  exact fun hlabel => absurd hlabel (h e he)

/-- Edges of another label do not count. -/
theorem outOf_addEdges_of_ne (g : Graph V) {es : List (Edge V)} {label : String}
    (h : ∀ e ∈ es, e.label ≠ label) (i : Nat) :
    (g.addEdges es).outOf label i = g.outOf label i := by
  rw [outOf_addEdges, filter_label_of_ne h, List.map_nil, List.append_nil]

theorem intoOf_addEdges_of_ne (g : Graph V) {es : List (Edge V)} {label : String}
    (h : ∀ e ∈ es, e.label ≠ label) (i : Nat) :
    (g.addEdges es).intoOf label i = g.intoOf label i := by
  rw [intoOf, addEdges, List.filter_append, filter_label_of_ne h, List.append_nil, intoOf]

/-- Edges drawn from nodes to one lead there from each of them. -/
theorem outOf_addEdges_drawn (g : Graph V) {ids : List Nat} (h : ids.Nodup) (label : String)
    (d : Nat) (props : List (String × V)) (i : Nat) :
    (g.addEdges (ids.map fun s => ⟨label, s, d, props⟩)).outOf label i =
      g.outOf label i ++ if i ∈ ids then [d] else [] := by
  rw [outOf_addEdges]
  congr 1
  induction ids with
  | nil => simp only [List.map_nil, List.filter_nil, List.not_mem_nil, if_false]
  | cons s ids ih =>
      rw [List.nodup_cons] at h
      have hrest := ih h.2
      simp only [List.map_cons, List.filter_cons, true_and, List.mem_cons, decide_eq_true_eq] at *
      by_cases hs : s = i
      · -- No later node is this one.
        rw [hs] at h
        rw [if_pos hs, List.map_cons, hrest, if_neg h.1, if_pos (Or.inl hs.symm)]
      · rw [if_neg hs, hrest]
        simp only [eq_comm (a := i), hs, false_or]

/-- A node that is not there yet has no edges. -/
theorem outOf_of_length_le {g : Graph V} (h : g.WellFormed) (label : String) {i : Nat}
    (hi : g.nodes.length ≤ i) : g.outOf label i = [] := by
  rw [outOf, List.map_eq_nil_iff, List.filter_eq_nil_iff]
  intro e he
  have hlt := (h e he).1
  simp only [decide_eq_true_eq]
  omega

theorem intoOf_of_length_le {g : Graph V} (h : g.WellFormed) (label : String) {i : Nat}
    (hi : g.nodes.length ≤ i) : g.intoOf label i = [] := by
  rw [intoOf, List.map_eq_nil_iff, List.filter_eq_nil_iff]
  intro e he
  have hlt := (h e he).2
  simp only [decide_eq_true_eq]
  omega

theorem mem_intoOf_iff {g : Graph V} {label : String} {i s : Nat} :
    s ∈ g.intoOf label i ↔ ∃ e ∈ g.edges, e.label = label ∧ e.target = i ∧ e.source = s := by
  simp only [intoOf, List.mem_map, List.mem_filter, decide_eq_true_eq, and_assoc]

/-- Edges drawn from every node of one list to every node of another. -/
theorem mem_intoOf_addEdges_drawn {g : Graph V} {ss ts : List Nat} {label : String}
    {props : List (String × V)} {i s : Nat} :
    s ∈ (g.addEdges (ss.flatMap fun s => ts.map fun d => ⟨label, s, d, props⟩)).intoOf label i ↔
      s ∈ g.intoOf label i ∨ (s ∈ ss ∧ i ∈ ts) := by
  simp only [mem_intoOf_iff, addEdges, List.mem_append, or_and_right, exists_or, List.mem_flatMap,
    List.mem_map]
  refine or_congr_right ?_
  constructor
  · intro h
    rcases h with ⟨_, ⟨s', hs', d, hd, rfl⟩, _, rfl, rfl⟩
    exact ⟨hs', hd⟩
  · intro h
    exact ⟨⟨label, s, i, props⟩, ⟨s, h.1, i, h.2, rfl⟩, rfl, rfl, rfl⟩

variable [DecidableEq V]

theorem lt_of_mem_select {g : Graph V} {label key : String} {v : V} {i : Nat}
    (h : i ∈ g.select label key v) : i < g.nodes.length :=
  lt_of_mem_withLabel (List.mem_of_mem_filter h)

theorem mem_select_iff {g : Graph V} {label key : String} {v : V} {i : Nat} :
    i ∈ g.select label key v ↔ i ∈ g.withLabel label ∧ g.prop i key = some v := by
  rw [select, List.mem_filter, decide_eq_true_eq]

theorem nodup_select (g : Graph V) (label key : String) (v : V) :
    (g.select label key v).Nodup :=
  (List.nodup_range.filter _).filter _

@[simp] theorem select_addEdges (g : Graph V) (es : List (Edge V)) (label key : String) (v : V) :
    (g.addEdges es).select label key v = g.select label key v := rfl

/-- A new node is selected behind the others, when it is. -/
theorem select_addNode (g : Graph V) (x : Node V) (label key : String) (v : V) :
    (g.addNode x).select label key v =
      g.select label key v ++
        if x.label = label ∧ x.props.lookup key = some v then [g.nodes.length] else [] := by
  have hold : ∀ i ∈ g.withLabel label,
      decide ((g.addNode x).prop i key = some v) = decide (g.prop i key = some v) := by
    intro i hi
    rw [prop_addNode g x (lt_of_mem_withLabel hi)]
  rw [select, withLabel_addNode, List.filter_append, List.filter_congr hold, ← select]
  congr 1
  by_cases hlabel : x.label = label
  · rw [if_pos hlabel, List.filter_singleton, prop_length_addNode]
    by_cases hv : x.props.lookup key = some v
    · simp only [hv, decide_true, cond_true, hlabel, and_self, if_true]
    · simp only [hv, decide_false, cond_false, and_false, if_false]
  · simp only [hlabel, if_false, List.filter_nil, false_and]

end Graph

/-- The steps of a query. -/
inductive Traversal (V : Type) where
  /-- The nodes of a variable. -/
  | n (var : String)
  | nWithLabel (label : String)
  /-- Keep the nodes whose value under a key is that of a parameter. -/
  | whereEqParam (t : Traversal V) (key param : String)
  | addN (label : String) (props : List (String × V))
  /-- Draw an edge from each node to each node of a variable. -/
  | addE (t : Traversal V) (label var : String) (props : List (String × V))
  | out (t : Traversal V) (label : String)
  | into (t : Traversal V) (label : String)
  | project (t : Traversal V) (keys : List String)

/-- What a query gives. -/
inductive Binding (V : Type) where
  | nodes (ids : List Nat)
  | edges (es : List (Edge V))
  | rows (rs : List (List (String × Option V)))

namespace Binding

variable {V : Type}

def ids : Binding V → List Nat
  | nodes ids => ids
  | _ => []

@[simp] theorem ids_nodes (is : List Nat) : (nodes is : Binding V).ids = is := rfl

end Binding

/-- A batch: queries with the variables they are bound to, the variables that are
    returned, and parameters. -/
structure Request (V : Type) where
  vars : List (String × Traversal V)
  returning : List String
  params : List (String × V)

def Request.withParameterValue {V : Type} (req : Request V) (name : String) (v : V) : Request V :=
  { req with params := (name, v) :: req.params }

section Semantics

variable {V : Type} [DecidableEq V] (distinct : Bool)

/-- A traversal returns a node once, or once for every edge. -/
def reached (ids : List Nat) : List Nat :=
  if distinct then ids.dedup else ids

def eval (params : List (String × V)) (env : List (String × Binding V)) (g : Graph V) :
    Traversal V → Graph V × Binding V
  | .n var => (g, .nodes ((env.lookup var).elim [] Binding.ids))
  | .nWithLabel label => (g, .nodes (g.withLabel label))
  | .whereEqParam t key param =>
      let (g, b) := eval params env g t
      (g, .nodes (b.ids.filter fun i => (params.lookup param).any fun v => g.prop i key = some v))
  | .addN label props => (g.addNode ⟨label, props⟩, .nodes [g.nodes.length])
  | .addE t label var props =>
      let (g, b) := eval params env g t
      let targets := (env.lookup var).elim [] Binding.ids
      let es := b.ids.flatMap fun s => targets.map fun d => ⟨label, s, d, props⟩
      (g.addEdges es, .edges es)
  | .out t label =>
      let (g, b) := eval params env g t
      (g, .nodes (reached distinct (b.ids.flatMap fun i => g.outOf label i)))
  | .into t label =>
      let (g, b) := eval params env g t
      (g, .nodes (reached distinct (b.ids.flatMap fun i => g.intoOf label i)))
  | .project t keys =>
      let (g, b) := eval params env g t
      (g, .rows (b.ids.map fun i => keys.map fun key => (key, g.prop i key)))

/-- Bind the variables of a batch one after the other. -/
def bindAll (params : List (String × V)) :
    Graph V → List (String × Binding V) → List (String × Traversal V) →
      Graph V × List (String × Binding V)
  | g, env, [] => (g, env)
  | g, env, (x, t) :: vars =>
      let (g, b) := eval distinct params env g t
      bindAll params g ((x, b) :: env) vars

/-- Execute a batch: the graph it leaves and what it returns. -/
def exec (g : Graph V) (req : Request V) : Graph V × List (String × Binding V) :=
  let (g, env) := bindAll distinct req.params g [] req.vars
  (g, env.filter fun p => p.1 ∈ req.returning)

/-- Execute batches one after the other. -/
def execAll (g : Graph V) (reqs : List (Request V)) : Graph V :=
  reqs.foldl (fun g req => (exec distinct g req).1) g

@[simp] theorem execAll_nil (g : Graph V) : execAll distinct g [] = g := rfl

@[simp] theorem execAll_cons (g : Graph V) (req : Request V) (reqs : List (Request V)) :
    execAll distinct g (req :: reqs) = execAll distinct (exec distinct g req).1 reqs := rfl

theorem execAll_append (g : Graph V) (reqs reqs' : List (Request V)) :
    execAll distinct g (reqs ++ reqs') = execAll distinct (execAll distinct g reqs) reqs' := by
  rw [execAll, execAll, execAll, List.foldl_append]

/-- Selecting by label and value. -/
theorem eval_select (params : List (String × V)) (env : List (String × Binding V)) (g : Graph V)
    (label key param : String) {v : V} (hv : params.lookup param = some v) :
    eval distinct params env g (.whereEqParam (.nWithLabel label) key param) =
      (g, .nodes (g.select label key v)) := by
  rw [eval, eval, hv]
  rfl

end Semantics

end PropertyGraph
