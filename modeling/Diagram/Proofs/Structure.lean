import Diagram.Proofs.Graph

/-!
# Documents apart from their nodes

The walk over a tree moves nodes: they are stated once, wherever they first stand alone or else in
front.  Nothing else moves.  Without its nodes, a document has its groups, edges, layout directives
and free arrows where the tree has them, each inside the same groups and in the same order.
-/

namespace Diagram

open Syntax (Located Chain chains)

variable {α : Type}

/-! ## Nodes left out -/

namespace Statement

mutual

/-- What is left of a statement without the nodes in it. -/
def withoutNodes : Statement α → List (Statement α)
  | node _ => []
  | group id style children => [group id style (withoutNodesAll children)]
  | s => [s]

/-- What is left of some statements without the nodes among them. -/
def withoutNodesAll : List (Statement α) → List (Statement α)
  | [] => []
  | s :: ss => withoutNodes s ++ withoutNodesAll ss

end

@[simp] theorem withoutNodesAll_append (ss ts : List (Statement α)) :
    withoutNodesAll (ss ++ ts) = withoutNodesAll ss ++ withoutNodesAll ts := by
  induction ss with
  | nil => rfl
  | cons s ss ih => simp [withoutNodesAll, ih]

@[simp] theorem withoutNodesAll_map_node (ns : List (Node α)) :
    withoutNodesAll (ns.map .node) = [] := by
  induction ns with
  | nil => rfl
  | cons n ns ih => simp [withoutNodesAll, withoutNodes, ih]

@[simp] theorem withoutNodesAll_map_edge (es : List (Edge α)) :
    withoutNodesAll (es.map .edge) = es.map .edge := by
  induction es with
  | nil => rfl
  | cons e es ih => simp [withoutNodesAll, withoutNodes, ih]

mutual

theorem withoutNodes_fill (r : Registry α) : ∀ (s : Statement α),
    withoutNodes (fill r s) = withoutNodes s
  | .group id style children => by
    have hchildren := withoutNodesAll_fillAll r children
    simp [fill, withoutNodes, hchildren]
  | .node _ | .edge _ | .layout _ | .freeArrow _ => by simp [fill, withoutNodes]

/-- The records of the nodes do not matter without the nodes. -/
theorem withoutNodesAll_fillAll (r : Registry α) : ∀ (ss : List (Statement α)),
    withoutNodesAll (fillAll r ss) = withoutNodesAll ss
  | [] => rfl
  | s :: ss => by
    rw [fillAll, withoutNodesAll, withoutNodesAll, withoutNodes_fill, withoutNodesAll_fillAll r ss]

end

section Observations

variable {β : Type} {f : Statement α → Option β}

mutual

theorem filterMap_flatten_withoutNodes (hnode : ∀ n, f (.node n) = none)
    (hgroup : ∀ id style children, f (.group id style children) = none) : ∀ (s : Statement α),
    (flattenAll (withoutNodes s)).filterMap f = s.flatten.filterMap f
  | .group id style children => by
    have hchildren := filterMap_flattenAll_withoutNodesAll hnode hgroup children
    simp [withoutNodes, flattenAll, flatten, hgroup, hchildren]
  | .node n => by simp [withoutNodes, flattenAll, flatten, hnode]
  | .edge _ | .layout _ | .freeArrow _ => by simp [withoutNodes, flattenAll, flatten]

/-- What is seen of neither nodes nor groups is seen without the nodes. -/
theorem filterMap_flattenAll_withoutNodesAll (hnode : ∀ n, f (.node n) = none)
    (hgroup : ∀ id style children, f (.group id style children) = none) :
    ∀ (ss : List (Statement α)),
      (flattenAll (withoutNodesAll ss)).filterMap f = (flattenAll ss).filterMap f
  | [] => rfl
  | s :: ss => by
    rw [withoutNodesAll, flattenAll_append, List.filterMap_append,
      filterMap_flatten_withoutNodes hnode hgroup s,
      filterMap_flattenAll_withoutNodesAll hnode hgroup ss, ← List.filterMap_append, flattenAll]

end

end Observations

end Statement

/-! ## Parts of a tree -/

variable [Scalar α]

mutual

/-- What a part of a tree states, nodes apart. -/
def Statement.ofPart : Syntax.Statement → List (Statement α)
  | .group _ id style body _ => [.group id.value (Style.ofList? style) (ofParts body)]
  | .layout _ name => [.layout name.value]
  | .freeArrow _ ps => [.freeArrow (Style.ofProperties ps.items)]
  | .chain c => (edgesOf c.head.id c.links).map .edge

/-- What the parts of a tree state, nodes apart. -/
def Statement.ofParts : List Syntax.Statement → List (Statement α)
  | [] => []
  | st :: tree => Statement.ofPart st ++ ofParts tree

end

mutual

theorem withoutNodesAll_collectOne (w : Walk α) : ∀ (st : Syntax.Statement),
    Statement.withoutNodesAll (collectOne w st).1 = Statement.ofPart st
  | .group _ id style body _ => by
    have hbody := withoutNodesAll_collect w body
    simp [collectOne, Statement.withoutNodesAll, Statement.withoutNodes, Statement.ofPart, hbody]
  | .layout .. => rfl
  | .freeArrow .. => rfl
  | .chain c => by
    rw [collectOne, Walk.chain, Statement.ofPart]
    split
    · next hlinks =>
      have hedges : (edgesOf c.head.id c.links : List (Edge α)) = [] := by
        rw [List.isEmpty_iff.mp hlinks, edgesOf]
      rw [hedges]
      split <;> rfl
    · exact Statement.withoutNodesAll_map_edge _

theorem withoutNodesAll_collect (w : Walk α) : ∀ (tree : List Syntax.Statement),
    Statement.withoutNodesAll (collect w tree).1 = Statement.ofParts tree
  | [] => rfl
  | st :: tree => by
    rw [collect_cons, Statement.withoutNodesAll_append, withoutNodesAll_collectOne w st,
      withoutNodesAll_collect _ tree, Statement.ofParts]

end

/-- **Without its nodes, a document is its tree**: groups, edges, layout directives and free arrows
stand where the tree has them. -/
theorem withoutNodesAll_statementsOf (tree : List Syntax.Statement) :
    Statement.withoutNodesAll (statementsOf tree : List (Statement α)) =
      Statement.ofParts tree := by
  rw [statementsOf_eq, Statement.withoutNodesAll_append, Statement.withoutNodesAll_map_node,
    Statement.withoutNodesAll_fillAll]
  exact withoutNodesAll_collect {} tree

/-! ## Flattened -/

section Observations

variable {β : Type} {f : Statement α → Option β}

mutual

theorem filterMap_flattenAll_ofPart
    (hgroup : ∀ id style children, f (.group id style children) = none) :
    ∀ (st : Syntax.Statement), (Statement.flattenAll (Statement.ofPart st)).filterMap f =
      st.flatten.flatMap fun s => (Statement.ofPart s).filterMap f
  | .group _ _ _ body _ => by
    have hbody := filterMap_flattenAll_ofParts hgroup body
    simp [Statement.ofPart, Statement.flattenAll, Statement.flatten, Syntax.Statement.flatten,
      hgroup, hbody]
  | .layout .. => by
    simp [Statement.ofPart, Statement.flattenAll, Statement.flatten, Syntax.Statement.flatten]
  | .freeArrow .. => by
    simp [Statement.ofPart, Statement.flattenAll, Statement.flatten, Syntax.Statement.flatten]
  | .chain c => by
    rw [Statement.ofPart, Statement.flattenAll_map fun _ => by simp [Statement.flatten]]
    simp [Statement.ofPart, Syntax.Statement.flatten]

theorem filterMap_flattenAll_ofParts
    (hgroup : ∀ id style children, f (.group id style children) = none) :
    ∀ (tree : List Syntax.Statement), (Statement.flattenAll (Statement.ofParts tree)).filterMap f =
      (Syntax.Statement.flattenAll tree).flatMap fun s => (Statement.ofPart s).filterMap f
  | [] => rfl
  | st :: tree => by
    rw [Statement.ofParts, Statement.flattenAll_append, List.filterMap_append,
      filterMap_flattenAll_ofPart hgroup st, filterMap_flattenAll_ofParts hgroup tree,
      Syntax.Statement.flattenAll, List.flatMap_append]

end

/-- What is seen of neither nodes nor groups is seen of the parts of the tree, in order. -/
theorem filterMap_flattenAll_statementsOf (hnode : ∀ n, f (.node n) = none)
    (hgroup : ∀ id style children, f (.group id style children) = none)
    (tree : List Syntax.Statement) :
    (Statement.flattenAll (statementsOf tree)).filterMap f =
      (Syntax.Statement.flattenAll tree).flatMap fun s => (Statement.ofPart s).filterMap f := by
  rw [← Statement.filterMap_flattenAll_withoutNodesAll hnode hgroup, withoutNodesAll_statementsOf,
    filterMap_flattenAll_ofParts hgroup]

end Observations

/-- The name in a layout directive. -/
def Syntax.Statement.layouts : Syntax.Statement → List (Located String)
  | .layout _ name => [name]
  | _ => []

/-- The names in the layout directives of a tree, in order. -/
def Syntax.layouts (tree : List Syntax.Statement) : List (Located String) :=
  (Syntax.Statement.flattenAll tree).flatMap Syntax.Statement.layouts

/-- The edges of a document are those of the chains of its tree, in order. -/
theorem edges_statementsOf (tree : List Syntax.Statement) :
    (Statement.flattenAll (statementsOf tree : List (Statement α))).filterMap Statement.edge? =
      (chains tree).flatMap fun c => edgesOf c.head.id c.links := by
  rw [filterMap_flattenAll_statementsOf (fun _ => rfl) fun _ _ _ => rfl, chains]
  induction Syntax.Statement.flattenAll tree with
  | nil => rfl
  | cons st sts ih =>
    rw [List.flatMap_cons, ih, List.filterMap_cons]
    cases st <;> simp [Statement.ofPart, Statement.edge?, Syntax.Statement.chain?,
      List.filterMap_map, Function.comp_def]

/-- The layout directives of a document are those of its tree, in order. -/
theorem layouts_statementsOf (tree : List Syntax.Statement) :
    (Statement.flattenAll (statementsOf tree : List (Statement α))).filterMap Statement.layout? =
      (Syntax.layouts tree).map Located.value := by
  rw [filterMap_flattenAll_statementsOf (fun _ => rfl) fun _ _ _ => rfl, Syntax.layouts,
    List.map_flatMap]
  congr 1
  funext st
  cases st <;> simp [Statement.ofPart, Statement.layout?, Syntax.Statement.layouts,
    List.filterMap_map, Function.comp_def]

end Diagram
