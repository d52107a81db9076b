import Diagram.Number.Binary
import Diagram.Proofs.Merging

/-!
# Documents as graphs

Every document that is read from a text is a graph: a node is stated once, wherever in the
groups it stands, and an edge joins two nodes that are stated.  What is drawn, shown or
linted relies on this without a check.
-/

namespace Diagram

open Syntax (nodeRefs NodeRef)

variable {α : Type}

namespace Document

/-- The names of the nodes, in document order. -/
def nodeIds (d : Document α) : List String := d.nodes.map Node.id

theorem nodeIds_eq (d : Document α) : d.nodeIds = Statement.nodeIds d.statements := rfl

theorem mem_edges {d : Document α} {e : Edge α} : e ∈ d.edges ↔ .edge e ∈ d.flatten := by
  constructor
  · intro h
    obtain ⟨s, hs, hedge⟩ := List.mem_filterMap.mp h
    cases s <;> cases hedge
    exact hs
  · exact fun h => List.mem_filterMap.mpr ⟨_, h, rfl⟩

/-- A document of some nodes and, behind them, some edges. -/
def ofGraph (ns : List (Node α)) (es : List (Edge α)) : Document α :=
  ⟨ns.map .node ++ es.map .edge, []⟩

section OfGraph

variable (ns : List (Node α)) (es : List (Edge α))

theorem flatten_ofGraph : (ofGraph ns es).flatten = ns.map .node ++ es.map .edge := by
  have hnodes := Statement.flattenAll_map (f := .node) (fun _ => by simp [Statement.flatten]) ns
  have hedges := Statement.flattenAll_map (f := .edge) (fun _ => by simp [Statement.flatten]) es
  rw [flatten, ofGraph, Statement.flattenAll_append, hnodes, hedges]

@[simp] theorem nodes_ofGraph : (ofGraph ns es).nodes = ns := by
  simp [nodes, flatten_ofGraph, List.filterMap_map, Function.comp_def, Statement.node?]

@[simp] theorem edges_ofGraph : (ofGraph ns es).edges = es := by
  simp [edges, flatten_ofGraph, List.filterMap_map, Function.comp_def, Statement.edge?]

end OfGraph

/-- No two nodes have the same name, and both ends of every edge are nodes. -/
structure IsGraph (d : Document α) : Prop where
  nodup : d.nodeIds.Nodup
  ends : ∀ e ∈ d.edges, e.source ∈ d.nodeIds ∧ e.target ∈ d.nodeIds

/-- A document without statements is a graph. -/
theorem isGraph_of_nil {d : Document α} (h : d.statements = []) : d.IsGraph := by
  have hflatten : d.flatten = [] := by
    rw [flatten, h]
    rfl
  have hedges : d.edges = [] := by
    rw [edges, hflatten]
    rfl
  constructor
  · rw [nodeIds_eq, h]
    exact List.nodup_nil
  · simp [hedges]

end Document

variable [Scalar α]

/-- The statements of a tree make up a graph, whatever the messages. -/
theorem isGraph_statementsOf (tree : List Syntax.Statement) (errors : List ParseError) :
    (⟨statementsOf tree, errors⟩ : Document α).IsGraph where
  nodup := nodup_nodeIds_statementsOf tree
  ends _ he := ends_mem_nodeIds (Document.mem_edges.mp he)

/-- **Every text is read as a graph.**  When there are no messages about the text, the nodes
of the graph are exactly those that the text refers to. -/
theorem isGraph_ofText (text : String) :
    (Document.ofText text : Document α).IsGraph ∧
      ((Document.ofText text : Document α).errors = [] →
        ∀ id, id ∈ (Document.ofText text : Document α).nodeIds ↔
          id ∈ (nodeRefs (Syntax.parse text).1).map NodeRef.id) := by
  constructor
  · rw [Document.ofText]
    simp only
    split
    · exact isGraph_statementsOf _ _
    · exact Document.isGraph_of_nil rfl
  · intro h id
    rw [Document.nodeIds_eq, (ofText_of_ok h).2, mem_nodeIds_statementsOf, List.mem_map]

/-- Nodes and edges inside and outside a group, and a name that only edges mention. -/
theorem isGraph_ofText_group :
    let text := "group g \x7b\n  a(rect)\n  a -> b\n  b\n\x7d\nb -> c.d -> a\na"
    let d : Document Float := Document.ofText text
    d.errors = [] ∧ d.nodeIds = ["c.d", "a", "b"] ∧
      d.edges.map (fun e => (e.source, e.target)) = [("a", "b"), ("b", "c.d"), ("c.d", "a")] ∧
      d.IsGraph ∧ ∀ id, id ∈ d.nodeIds ↔ id ∈ (nodeRefs (Syntax.parse text).1).map NodeRef.id := by
  intro text d
  have hgraph := isGraph_ofText (α := Float) text
  have herrors : d.errors = [] := by decide +kernel
  exact ⟨herrors, by decide +kernel, by decide +kernel, hgraph.1, hgraph.2 herrors⟩

end Diagram
