import Diagram.Proofs.Records
import Diagram.Proofs.Structure
import Diagram.Proofs.Succession

/-!
# What a tree has, in source order

The properties in all style lists of a tree, and the steps of all its chains: a step is a link with
the reference in front of it, and makes one edge.  Each is listed in the order in which its leaves
stand in the text, groups in front of what is inside them.
-/

namespace Diagram

open Syntax

variable {α : Type} [Scalar α]

/-! ## Properties and steps -/

namespace Syntax

/-- The properties of a link: those of its target, and those of its edge. -/
def Link.properties (l : Link) : List Property :=
  l.target.properties ++ l.anchor.elim [] PropertyList.items

/-- The properties of the edges of a chain. -/
def Chain.anchorProperties (c : Chain) : List Property :=
  c.links.flatMap fun l => l.anchor.elim [] PropertyList.items

/-- The properties in the style lists of a statement, up to the statements inside it. -/
def Statement.properties : Statement → List Property
  | .group _ _ style _ _ => style.elim [] PropertyList.items
  | .layout .. => []
  | .freeArrow _ ps => ps.items
  | .chain c => c.head.properties ++ c.links.flatMap Link.properties

/-- The properties in the style lists of a tree, in source order. -/
def styleProperties (tree : List Statement) : List Property :=
  (Statement.flattenAll tree).flatMap Statement.properties

/-- The links of a chain, each with the reference in front of it. -/
def stepsFrom (source : NodeRef) : List Link → List (NodeRef × Link)
  | [] => []
  | l :: ls => (source, l) :: stepsFrom l.target ls

/-- The links of a statement, each with the reference in front of it. -/
def Statement.steps : Statement → List (NodeRef × Link)
  | .chain c => stepsFrom c.head c.links
  | _ => []

/-- The links of a tree, each with the reference in front of it. -/
def steps (tree : List Statement) : List (NodeRef × Link) :=
  (Statement.flattenAll tree).flatMap Statement.steps

/-- The shape that a reference gives to a name, if it gives one. -/
def NodeRef.shapeOf? (id : String) (r : NodeRef) : Option NodeShape :=
  if r.id = id then r.shape.map ShapeSpec.shape else none

/-- The properties of the references of a chain, and then those of its edges. -/
theorem properties_chain_perm (c : Chain) :
    (c.refs.flatMap NodeRef.properties ++ c.anchorProperties).Perm
      (Statement.chain c).properties := by
  have hrefs : c.refs.flatMap NodeRef.properties ++ c.anchorProperties =
      c.head.properties ++ (c.links.flatMap (·.target.properties) ++ c.anchorProperties) := by
    simp [Chain.refs, List.flatMap_map]
  rw [hrefs]
  exact (List.flatMap_append_perm _ _ _).append_left _

theorem edgesOf_eq_map_stepsFrom (source : NodeRef) (ls : List Link) :
    (edgesOf source.id ls : List (Edge α)) =
      (stepsFrom source ls).map fun s => Edge.ofLink s.1.id s.2 := by
  induction ls generalizing source with
  | nil => rfl
  | cons l ls ih => rw [edgesOf, ih, stepsFrom, List.map_cons]

end Syntax

/-- **The edges of a document are the steps of its tree**, in order. -/
theorem edges_eq_map_steps (tree : List Syntax.Statement) :
    (Statement.flattenAll (statementsOf tree : List (Statement α))).filterMap Statement.edge? =
      (steps tree).map fun s => Edge.ofLink s.1.id s.2 := by
  rw [edges_statementsOf, chains, steps]
  induction Syntax.Statement.flattenAll tree with
  | nil => rfl
  | cons st sts ih =>
    rw [List.flatMap_cons, List.map_append, ← ih, List.filterMap_cons]
    cases st <;> simp [Syntax.Statement.chain?, Syntax.Statement.steps, edgesOf_eq_map_stepsFrom]

/-! ## Their leaves -/

namespace Syntax

/-- What takes its leaves in order from each statement takes them in order from a tree. -/
theorem sublist_leavesAll {g : Statement → List Span} (hg : ∀ st, (g st).Sublist st.ownLeaves)
    (tree : List Statement) : ((Statement.flattenAll tree).flatMap g).Sublist (leavesAll tree) :=
  (List.Sublist.flatMap_right _ fun st _ => hg st).trans (ownLeaves_sublist tree)

theorem leaves_properties_nodeRef (r : NodeRef) :
    (r.properties.flatMap Property.leaves).Sublist r.leaves := by
  rw [NodeRef.properties, NodeRef.leaves]
  cases r.shape with
  | none => exact List.nil_sublist _
  | some spec =>
    refine .trans ?_ (List.sublist_append_right _ _)
    refine .trans ?_ (List.sublist_append_left _ _)
    exact .cons _ (List.sublist_append_left _ _)

theorem leaves_properties_list (ps : Option PropertyList) :
    ((ps.elim [] PropertyList.items).flatMap Property.leaves).Sublist
      (ps.elim [] PropertyList.leaves) := by
  cases ps with
  | none => exact .slnil
  | some ps => exact List.sublist_append_left _ _

theorem leaves_properties_link (l : Link) :
    (l.properties.flatMap Property.leaves).Sublist l.leaves := by
  rw [Link.properties, Link.leaves, List.flatMap_append]
  refine .cons _ ((leaves_properties_nodeRef _).append ?_)
  exact (leaves_properties_list _).trans (List.sublist_append_left _ _)

/-- The properties of a statement have their leaves in order. -/
theorem leaves_properties (st : Statement) :
    (st.properties.flatMap Property.leaves).Sublist st.ownLeaves := by
  cases st with
  | group keyword id style body close => exact .cons _ (.cons _ (leaves_properties_list style))
  | layout keyword name => exact List.nil_sublist _
  | freeArrow keyword ps => exact .cons _ (List.sublist_append_left _ _)
  | chain c =>
    rw [Statement.properties, List.flatMap_append, List.flatMap_assoc]
    exact (leaves_properties_nodeRef c.head).append
      (List.Sublist.flatMap_right _ fun l _ => leaves_properties_link l)

theorem target_leaves_sublist (source : NodeRef) (l : Link) (ls : List Link) :
    (l.target.leaves ++ ls.flatMap Link.leaves).Sublist
      (source.leaves ++ (l :: ls).flatMap Link.leaves) := by
  rw [List.flatMap_cons]
  refine .trans (.append_right ?_ _) (List.sublist_append_right _ _)
  exact .cons _ (List.sublist_append_left _ _)

/-- The steps of a chain begin one behind the other. -/
theorem heads_stepsFrom (source : NodeRef) (ls : List Link) :
    ((stepsFrom source ls).map fun s => s.1.name.head.span).Sublist
      (source.leaves ++ ls.flatMap Link.leaves) := by
  induction ls generalizing source with
  | nil => exact List.nil_sublist _
  | cons l ls ih =>
    have hhead : [source.name.head.span].Sublist source.leaves :=
      List.singleton_sublist.mpr (by simp [NodeRef.leaves, NodeName.leaves])
    rw [stepsFrom, List.map_cons, List.flatMap_cons]
    refine hhead.append ((ih l.target).trans (.append_right ?_ _))
    exact .cons _ (List.sublist_append_left _ _)

/-- The two names of a step follow each other. -/
theorem names_stepsFrom {source : NodeRef} {ls : List Link} {s : NodeRef × Link}
    (hs : s ∈ stepsFrom source ls) : (s.1.name.leaves ++ s.2.target.name.leaves).Sublist
      (source.leaves ++ ls.flatMap Link.leaves) := by
  induction ls generalizing source with
  | nil => cases hs
  | cons l ls ih =>
    rcases List.mem_cons.mp hs with rfl | hs
    · rw [List.flatMap_cons, NodeRef.leaves]
      refine (List.sublist_append_left _ _).append ?_
      refine .trans (.cons _ ?_) (List.sublist_append_left _ _)
      exact (List.sublist_append_left _ _).trans (List.sublist_append_left _ _)
    · exact (ih hs).trans (target_leaves_sublist source l ls)

/-- The steps of a statement begin at leaves of its own. -/
theorem heads_steps (st : Statement) :
    (st.steps.map fun s => s.1.name.head.span).Sublist st.ownLeaves := by
  cases st with
  | chain c => exact heads_stepsFrom c.head c.links
  | group _ _ _ _ _ | layout _ _ | freeArrow _ _ => exact List.nil_sublist _

theorem names_steps {tree : List Statement} {s : NodeRef × Link} (hs : s ∈ steps tree) :
    (s.1.name.leaves ++ s.2.target.name.leaves).Sublist (leavesAll tree) := by
  obtain ⟨st, hst, hs⟩ := List.mem_flatMap.mp hs
  have hown : st.ownLeaves.Sublist (leavesAll tree) :=
    (List.sublist_flatten_of_mem (List.mem_map_of_mem hst)).trans (ownLeaves_sublist tree)
  cases st with
  | chain c => exact (names_stepsFrom hs).trans hown
  | group _ _ _ _ _ | layout _ _ | freeArrow _ _ => cases hs

/-- The names in layout directives are leaves. -/
theorem leaves_layouts (st : Statement) :
    (st.layouts.map Located.span).Sublist st.ownLeaves := by
  cases st with
  | layout keyword name => exact .cons _ (.refl _)
  | group _ _ _ _ _ | freeArrow _ _ | chain _ => exact List.nil_sublist _

end Syntax

end Diagram
