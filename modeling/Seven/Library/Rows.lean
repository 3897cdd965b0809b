import Mathlib.Data.List.Induction
import Mathlib.Data.List.Perm.Basic
import Seven.Library.Graph

/-!
# Rows of a Property Graph

What a query returns by value. The nodes of a selection, projected to some keys,
are rows, and they depend on the nodes of the graph alone: they are the rows of the
matching nodes in the order in which these were created (`rows_select`). So a row
does not change when nodes and edges are added.

Following edges from a selection reaches the targets of the edges that start in it
(`perm_flatMap_outOf`).

Values may be put into a larger type, and requests with them.

## Main definitions

* `Request.mapValues`: A request with its values in another type.
* `Node.row`, `Graph.row`: The values of a node under some keys.
* `Node.Matches`: What a selection asks of a node.

## Theorems

* `mem_select_iff_getElem?`: What is selected, by node.
* `rows_select`, `rows_select_of_nodes`: The rows of a selection.
* `perm_flatMap_outOf`: Following edges from a selection.
-/

namespace PropertyGraph

section MapValues

variable {V W : Type} (f : V → W)

/-- Named values in another type. -/
def mapProps (props : List (String × V)) : List (String × W) :=
  props.map fun p => (p.1, f p.2)

def Node.mapValues (x : Node V) : Node W :=
  ⟨x.label, mapProps f x.props⟩

def Traversal.mapValues : Traversal V → Traversal W
  | .n var => .n var
  | .nWithLabel label => .nWithLabel label
  | .whereEqParam t key param => .whereEqParam t.mapValues key param
  | .addN label props => .addN label (mapProps f props)
  | .addE t label var props => .addE t.mapValues label var (mapProps f props)
  | .out t label => .out t.mapValues label
  | .into t label => .into t.mapValues label
  | .project t keys => .project t.mapValues keys

/-- A request with its values in another type. -/
def Request.mapValues (req : Request V) : Request W :=
  { vars := req.vars.map fun p => (p.1, p.2.mapValues f)
    returning := req.returning
    params := mapProps f req.params }

end MapValues

variable {V : Type}

/-- The values of a node under some keys. -/
def Node.row (x : Node V) (keys : List String) : List (String × Option V) :=
  keys.map fun key => (key, x.props.lookup key)

/-- What a selection asks of a node. -/
def Node.Matches (x : Node V) (label key : String) (v : V) : Prop :=
  x.label = label ∧ x.props.lookup key = some v

instance [DecidableEq V] (x : Node V) (label key : String) (v : V) :
    Decidable (x.Matches label key v) :=
  inferInstanceAs (Decidable (_ ∧ _))

namespace Graph

/-- The values under some keys at a place. -/
def row (g : Graph V) (i : Nat) (keys : List String) : List (String × Option V) :=
  keys.map fun key => (key, g.prop i key)

theorem row_of_getElem? {g : Graph V} {i : Nat} {x : Node V} (h : g.nodes[i]? = some x)
    (keys : List String) : g.row i keys = x.row keys := by
  unfold row Node.row prop
  simp only [h, Option.bind_some]

theorem mem_outOf_iff {g : Graph V} {label : String} {i t : Nat} :
    t ∈ g.outOf label i ↔ ∃ e ∈ g.edges, e.label = label ∧ e.source = i ∧ e.target = t := by
  simp only [outOf, List.mem_map, List.mem_filter, decide_eq_true_eq, and_assoc]

/-- What satisfies one of two predicates that exclude each other. -/
theorem perm_filter_or {α : Type} (l : List α) {p q : α → Bool}
    (h : ∀ x, p x = true → q x = true → False) :
    (l.filter p ++ l.filter q).Perm (l.filter fun x => p x || q x) := by
  have hsplit := List.filter_append_perm p (l.filter fun x => p x || q x)
  rw [List.filter_filter, List.filter_filter] at hsplit
  have hp (x : α) : (p x && (p x || q x)) = p x := by
    cases p x with
    | true => rfl
    | false => rfl
  have hq (x : α) : (!p x && (p x || q x)) = q x := by
    cases hpx : p x with
    | false => rfl
    | true =>
        cases hqx : q x with
        | false => rfl
        | true => exact (h x hpx hqx).elim
  simp only [hp, hq] at hsplit
  exact hsplit

/-- Following the edges of a label from different nodes, in any order, reaches the
    targets of the edges that start there. -/
theorem perm_flatMap_outOf (g : Graph V) (label : String) {ids : List Nat} (h : ids.Nodup) :
    (ids.flatMap (g.outOf label)).Perm
      ((g.edges.filter fun e => e.label = label ∧ e.source ∈ ids).map Edge.target) := by
  induction ids with
  | nil =>
      have hnone : (g.edges.filter fun e => e.label = label ∧ e.source ∈ ([] : List Nat)) = [] := by
        rw [List.filter_eq_nil_iff]
        intro e _
        simp only [List.not_mem_nil, and_false, decide_false, Bool.false_eq_true,
          not_false_eq_true]
      rw [hnone, List.flatMap_nil, List.map_nil]
  | cons i ids ih =>
      rw [List.nodup_cons] at h
      -- An edge starts at the first node or at one of the others, not at both.
      have hsplit := perm_filter_or g.edges
        (p := fun e => decide (e.label = label ∧ e.source = i))
        (q := fun e => decide (e.label = label ∧ e.source ∈ ids)) (by
          intro e hp hq
          rw [decide_eq_true_eq] at hp hq
          rw [hp.2] at hq
          exact h.1 hq.2)
      have hor (e : Edge V) : (decide (e.label = label ∧ e.source = i) ||
          decide (e.label = label ∧ e.source ∈ ids)) =
            decide (e.label = label ∧ e.source ∈ i :: ids) := by
        rw [← Bool.decide_or]
        refine decide_eq_decide.mpr ?_
        rw [← and_or_left, List.mem_cons]
      simp only [hor] at hsplit
      rw [List.flatMap_cons]
      refine ((List.Perm.refl _).append (ih h.2)).trans ?_
      rw [outOf, ← List.map_append]
      exact hsplit.map _

/-- Edges drawn from every node of one list to every node of another lead from each
    of the former to all of the latter. -/
theorem outOf_addEdges_product (g : Graph V) {ss : List Nat} (h : ss.Nodup) (ts : List Nat)
    (label : String) (props : List (String × V)) (i : Nat) :
    (g.addEdges (ss.flatMap fun s => ts.map fun t => ⟨label, s, t, props⟩)).outOf label i =
      g.outOf label i ++ if i ∈ ss then ts else [] := by
  rw [outOf_addEdges]
  congr 1
  induction ss with
  | nil => simp only [List.flatMap_nil, List.filter_nil, List.map_nil, List.not_mem_nil, if_false]
  | cons s ss ih =>
      rw [List.nodup_cons] at h
      rw [List.flatMap_cons, List.filter_append, List.map_append, ih h.2]
      by_cases hs : s = i
      · rw [hs] at h
        simp only [List.filter_map, Function.comp_def, hs, and_self, decide_true, List.filter_true,
          List.map_map, List.map_id', h.1, if_false, List.append_nil, List.mem_cons, true_or,
          if_true]
      · simp only [List.filter_map, Function.comp_def, hs, and_false, decide_false,
          List.filter_false, List.map_nil, List.nil_append, List.mem_cons, Ne.symm hs, false_or]

theorem intoOf_addEdges (g : Graph V) (es : List (Edge V)) (label : String) (i : Nat) :
    (g.addEdges es).intoOf label i =
      g.intoOf label i ++ (es.filter fun e => e.label = label ∧ e.target = i).map Edge.source := by
  rw [intoOf, addEdges, List.filter_append, List.map_append, intoOf]

/-- Of the edges from one node to different ones, at most one leads to a node. -/
theorem filter_target_eq (label : String) (s : Nat) (props : List (String × V)) (i : Nat)
    {ts : List Nat} (h : ts.Nodup) :
    (((ts.map fun t => (⟨label, s, t, props⟩ : Edge V)).filter fun e =>
      e.label = label ∧ e.target = i).map Edge.source) = if i ∈ ts then [s] else [] := by
  induction ts with
  | nil => simp only [List.map_nil, List.filter_nil, List.not_mem_nil, if_false]
  | cons t ts ih =>
      rw [List.nodup_cons] at h
      have hrest := ih h.2
      simp only [List.map_cons, List.filter_cons, true_and, List.mem_cons, decide_eq_true_eq] at *
      by_cases ht : t = i
      · -- No later node is this one.
        rw [ht] at h
        rw [if_pos ht, List.map_cons, hrest, if_neg h.1, if_pos (Or.inl ht.symm)]
      · rw [if_neg ht, hrest]
        simp only [eq_comm (a := i), ht, false_or]

/-- And to each of the latter from all of the former. -/
theorem intoOf_addEdges_product (g : Graph V) (ss : List Nat) {ts : List Nat} (h : ts.Nodup)
    (label : String) (props : List (String × V)) (i : Nat) :
    (g.addEdges (ss.flatMap fun s => ts.map fun t => ⟨label, s, t, props⟩)).intoOf label i =
      g.intoOf label i ++ if i ∈ ts then ss else [] := by
  rw [intoOf_addEdges]
  congr 1
  induction ss with
  | nil => simp only [List.flatMap_nil, List.filter_nil, List.map_nil, ite_self]
  | cons s ss ih =>
      rw [List.flatMap_cons, List.filter_append, List.map_append, ih,
        filter_target_eq label s props i h]
      by_cases hi : i ∈ ts
      · rw [if_pos hi, if_pos hi, if_pos hi, List.singleton_append]
      · rw [if_neg hi, if_neg hi, if_neg hi, List.nil_append]

/-- Drawing edges of one label from some nodes to others, and edges of another label
    back, keeps it that the edges of the latter are those of the former in reverse. -/
theorem outOf_eq_intoOf_addEdges_both {g : Graph V} (ss : List Nat) {ts : List Nat}
    (ht : ts.Nodup) {label back : String} (hne : label ≠ back) (props : List (String × V))
    {i : Nat} (h : g.outOf back i = g.intoOf label i) :
    (g.addEdges ((ss.flatMap fun s => ts.map fun t => ⟨label, s, t, props⟩) ++
        ts.flatMap fun t => ss.map fun s => ⟨back, t, s, props⟩)).outOf back i =
      (g.addEdges ((ss.flatMap fun s => ts.map fun t => ⟨label, s, t, props⟩) ++
        ts.flatMap fun t => ss.map fun s => ⟨back, t, s, props⟩)).intoOf label i := by
  have hlabel {label' : String} {ss' ts' : List Nat} : ∀ e ∈ ss'.flatMap (fun s =>
      ts'.map fun t => (⟨label', s, t, props⟩ : Edge V)), e.label = label' := by
    intro e he
    rcases List.mem_flatMap.mp he with ⟨s, _, he⟩
    rcases List.mem_map.mp he with ⟨t, _, rfl⟩
    rfl
  have hsplit (es es' : List (Edge V)) : g.addEdges (es ++ es') = (g.addEdges es).addEdges es' := by
    rw [addEdges, addEdges, addEdges, List.append_assoc]
  -- Each way adds only to what is read of its own label.
  rw [hsplit, outOf_addEdges_product _ ht, intoOf_addEdges_of_ne, intoOf_addEdges_product _ _ ht,
    outOf_addEdges_of_ne, h]
  · intro e he hback
    exact hne ((hlabel e he).symm.trans hback)
  · intro e he hback
    exact hne (hback.symm.trans (hlabel e he))

variable [DecidableEq V]

/-- What is selected, by node. -/
theorem mem_select_iff_getElem? {g : Graph V} {label key : String} {v : V} {i : Nat} :
    i ∈ g.select label key v ↔ ∃ x, g.nodes[i]? = some x ∧ x.Matches label key v := by
  rw [mem_select_iff, withLabel, List.mem_filter, List.mem_range, prop]
  cases hx : g.nodes[i]? with
  | none =>
      simp only [Option.any_none, Bool.false_eq_true, and_false, false_and, reduceCtorEq,
        exists_false]
  | some x =>
      have hlt : i < g.nodes.length := (List.getElem?_eq_some_iff.mp hx).1
      simp only [hlt, Option.any_some, decide_eq_true_eq, true_and, Option.bind_some,
        Option.some.injEq, exists_eq_left', Node.Matches]

/-- The rows of a selection are those of the matching nodes, as these were created. -/
theorem rows_select (g : Graph V) (label key : String) (v : V) (keys : List String) :
    (g.select label key v).map (fun i => g.row i keys) =
      (g.nodes.filter fun x => x.Matches label key v).map fun x => x.row keys := by
  rcases g with ⟨nodes, edges⟩
  induction nodes using List.reverseRecOn with
  | nil => rfl
  | append_singleton nodes x ih =>
      have hadd : (⟨nodes ++ [x], edges⟩ : Graph V) = (⟨nodes, edges⟩ : Graph V).addNode x := rfl
      have hold : ∀ i ∈ (⟨nodes, edges⟩ : Graph V).select label key v,
          ((⟨nodes, edges⟩ : Graph V).addNode x).row i keys =
            (⟨nodes, edges⟩ : Graph V).row i keys := by
        intro i hi
        unfold row
        simp only [prop_addNode _ x (lt_of_mem_select hi)]
      have hnodes : ((⟨nodes, edges⟩ : Graph V).addNode x).nodes = nodes ++ [x] := rfl
      rw [hadd, select_addNode, List.map_append, List.map_congr_left hold, ih, hnodes,
        List.filter_append, List.map_append]
      congr 1
      rw [List.filter_cons, List.filter_nil]
      by_cases hm : x.Matches label key v
      · have hmatch : x.label = label ∧ x.props.lookup key = some v := hm
        have hlast : ((⟨nodes, edges⟩ : Graph V).addNode x).nodes[nodes.length]? = some x :=
          List.getElem?_concat_length
        simp only [hmatch, hm, and_self, if_true, decide_true, List.map_cons, List.map_nil]
        rw [row_of_getElem? hlast]
      · have hmatch : ¬ (x.label = label ∧ x.props.lookup key = some v) := hm
        simp only [hmatch, hm, if_false, decide_false, Bool.false_eq_true, List.map_nil]

/-- The rows of a selection, where the nodes of the label are known. -/
theorem rows_select_of_nodes {g : Graph V} {label : String} {α : Type} {xs : List α}
    {node : α → Node V} (h : (g.nodes.filter fun x => x.label = label) = xs.map node)
    (key : String) (v : V) (keys : List String) :
    (g.select label key v).map (fun i => g.row i keys) =
      (xs.filter fun a => (node a).props.lookup key = some v).map fun a => (node a).row keys := by
  have hmatch : (g.nodes.filter fun x => x.Matches label key v) =
      (g.nodes.filter fun x => x.label = label).filter fun x => x.props.lookup key = some v := by
    rw [List.filter_filter]
    refine List.filter_congr fun x _ => ?_
    rw [← Bool.decide_and]
    exact decide_eq_decide.mpr and_comm
  rw [rows_select, hmatch, h, List.filter_map, List.map_map]
  rfl

end Graph

variable [DecidableEq V]

/-- A batch of one query returns what it gives. -/
theorem lookup_exec_single (distinct : Bool) (g : Graph V) (name : String) (t : Traversal V)
    (params : List (String × V)) :
    (exec distinct g ⟨[(name, t)], [name], params⟩).2.lookup name =
      some (eval distinct params [] g t).2 := by
  unfold exec
  simp only [bindAll, List.filter_cons, List.mem_singleton, decide_true, if_true, List.filter_nil,
    List.lookup_cons_self]

/-- What a query returns that selects by a parameter and projects. -/
theorem lookup_exec_select (distinct : Bool) (g : Graph V) (name label key param : String)
    (keys : List String) {params : List (String × V)} {v : V}
    (hv : params.lookup param = some v) :
    (exec distinct g
        ⟨[(name, .project (.whereEqParam (.nWithLabel label) key param) keys)], [name],
          params⟩).2.lookup name =
      some (.rows ((g.select label key v).map fun i => g.row i keys)) := by
  rw [lookup_exec_single, eval, eval_select distinct params [] g label key param hv]
  rfl

/-- What a query returns that selects by a parameter, follows edges and projects. -/
theorem lookup_exec_follow (distinct : Bool) (g : Graph V) (start name label key param : String)
    (edge : String) (keys : List String) {params : List (String × V)} {v : V}
    (hv : params.lookup param = some v) :
    (exec distinct g
        ⟨[(start, .whereEqParam (.nWithLabel label) key param),
          (name, .project (.out (.n start) edge) keys)], [name], params⟩).2.lookup name =
      some (.rows ((reached distinct ((g.select label key v).flatMap (g.outOf edge))).map
        fun i => g.row i keys)) := by
  unfold exec
  simp only [bindAll, eval_select distinct params [] g label key param hv]
  simp only [eval, List.lookup_cons_self, Option.elim_some, Binding.ids_nodes, List.filter_cons,
    List.mem_singleton, decide_true, if_true]
  rfl

end PropertyGraph
