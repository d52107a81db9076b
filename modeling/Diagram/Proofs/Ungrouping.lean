import Diagram.Number.Binary
import Diagram.Proofs.Engines

/-!
# Documents without groups

A group says what belongs together and nothing of where it is drawn.  Every part of a document that
is drawn, or that has a say in how, is found by the walk that goes through all groups, and taking
the statements out of their groups leaves that walk the same but for the groups themselves.  So a
document and the one without groups are the same question to an engine and the same drawing.
-/

namespace Diagram

variable {α : Type}

/-! ## Groups that are opened -/

namespace Statement

/-- Whether a statement is a group. -/
def isGroup : Statement α → Bool
  | group .. => true
  | _ => false

mutual

/-- A statement, or in place of a group what is inside it, taken out of all groups. -/
def ungroup : Statement α → List (Statement α)
  | group _ _ children => ungroupAll children
  | s => [s]

/-- Some statements, with what is inside a group in place of the group. -/
def ungroupAll : List (Statement α) → List (Statement α)
  | [] => []
  | s :: ss => ungroup s ++ ungroupAll ss

end

mutual

theorem ungroup_eq : ∀ (s : Statement α), s.ungroup = s.flatten.filter (!·.isGroup)
  | group id style children => by
    have hchildren := ungroupAll_eq children
    simp [ungroup, flatten, isGroup, hchildren]
  | node _ | edge _ | layout _ | freeArrow _ => by simp [ungroup, flatten, isGroup]

/-- Opening all groups is walking through them and leaving them out. -/
theorem ungroupAll_eq : ∀ (ss : List (Statement α)),
    ungroupAll ss = (flattenAll ss).filter (!·.isGroup)
  | [] => rfl
  | s :: ss => by
    rw [ungroupAll, flattenAll, List.filter_append, ungroup_eq s, ungroupAll_eq ss]

end

/-- Statements without groups among them are walked through one by one. -/
theorem flattenAll_of_not_isGroup {ss : List (Statement α)} (h : ∀ s ∈ ss, ¬ s.isGroup) :
    flattenAll ss = ss := by
  induction ss with
  | nil => rfl
  | cons s ss ih =>
    obtain ⟨hs, hss⟩ := List.forall_mem_cons.mp h
    have hone : s.flatten = [s] := by
      cases s with
      | group _ _ _ => exact absurd rfl hs
      | node _ | edge _ | layout _ | freeArrow _ => simp only [flatten]
    rw [flattenAll, ih hss, hone, List.singleton_append]

end Statement

namespace Document

/-- A document with its groups opened: in place of each stands what is inside it. -/
def ungrouped (d : Document α) : Document α :=
  { d with statements := Statement.ungroupAll d.statements }

theorem not_isGroup_of_mem_ungrouped (d : Document α) :
    ∀ s ∈ d.ungrouped.statements, ¬ s.isGroup := by
  intro s hs
  rw [ungrouped, Statement.ungroupAll_eq] at hs
  simpa using (List.mem_filter.mp hs).2

/-- **Opening the groups changes nothing in the walk but that they are not met.** -/
theorem flatten_ungrouped (d : Document α) :
    d.ungrouped.flatten = d.flatten.filter (!·.isGroup) := by
  rw [flatten, Statement.flattenAll_of_not_isGroup d.not_isGroup_of_mem_ungrouped, ungrouped,
    Statement.ungroupAll_eq, flatten]

/-- What is seen of no group is seen without the groups. -/
theorem filterMap_flatten_ungrouped {β : Type} {f : Statement α → Option β}
    (hgroup : ∀ id style children, f (.group id style children) = none) (d : Document α) :
    d.ungrouped.flatten.filterMap f = d.flatten.filterMap f := by
  rw [flatten_ungrouped, List.filterMap_filter]
  refine List.filterMap_congr fun s _ => ?_
  cases s with
  | group id style children => exact (hgroup id style children).symm
  | node _ | edge _ | layout _ | freeArrow _ => rfl

@[simp] theorem nodes_ungrouped (d : Document α) : d.ungrouped.nodes = d.nodes :=
  filterMap_flatten_ungrouped (fun _ _ _ => rfl) d

@[simp] theorem edges_ungrouped (d : Document α) : d.ungrouped.edges = d.edges :=
  filterMap_flatten_ungrouped (fun _ _ _ => rfl) d

@[simp] theorem freeArrows_ungrouped (d : Document α) : d.ungrouped.freeArrows = d.freeArrows :=
  filterMap_flatten_ungrouped (fun _ _ _ => rfl) d

@[simp] theorem layoutDirective_ungrouped (d : Document α) :
    d.ungrouped.layoutDirective = d.layoutDirective :=
  congrArg List.getLast? (filterMap_flatten_ungrouped (fun _ _ _ => rfl) d)

/-! ## Drawing -/

@[simp] theorem isPlaced_ungrouped (d : Document α) : d.ungrouped.isPlaced = d.isPlaced := by
  rw [isPlaced, nodes_ungrouped, isPlaced]

@[simp] theorem effectiveOptions_ungrouped (d : Document α) (o : Options α) :
    d.ungrouped.effectiveOptions o = d.effectiveOptions o := by
  rw [effectiveOptions, layoutDirective_ungrouped, effectiveOptions]

variable [Scalar α]

@[simp] theorem layoutGraph_ungrouped (d : Document α) :
    d.ungrouped.layoutGraph = d.layoutGraph := by
  rw [layoutGraph, nodes_ungrouped, edges_ungrouped, layoutGraph]

/-- An engine is asked the same in both cases, or not at all. -/
@[simp] theorem request?_ungrouped (d : Document α) (o : Options α) :
    d.ungrouped.request? o = d.request? o := by
  rw [request?, isPlaced_ungrouped, layoutGraph_ungrouped, effectiveOptions_ungrouped, request?]

theorem drawPlaced_ungrouped (ids : Nat → ShapeId) (d : Document α) :
    d.ungrouped.drawPlaced ids = d.drawPlaced ids := by
  simp only [drawPlaced, nodes_ungrouped, edges_ungrouped, freeArrows_ungrouped]

theorem drawResult_ungrouped (ids : Nat → ShapeId) (d : Document α) (r : LayoutResult α) :
    d.ungrouped.drawResult ids r = d.drawResult ids r := by
  simp only [drawResult, nodes_ungrouped, edges_ungrouped, freeArrows_ungrouped]

/-- **A document and the one without its groups are drawn alike.** -/
theorem compileIn_ungrouped_eq {m : Type → Type} [Monad m] (engine : Engine m α)
    (ids : Nat → ShapeId) (d : Document α) (o : Options α) :
    d.ungrouped.compileIn engine ids o = d.compileIn engine ids o := by
  simp only [compileIn, request?_ungrouped, drawPlaced_ungrouped, drawResult_ungrouped]

section Renaming

variable {ids ids' : Nat → ShapeId} {f : ShapeId → ShapeId}

/-- An answer is drawn or refused alike with other identities. -/
theorem judge_renamed (h : ∀ i, f (ids i) = ids' i) (d : Document α)
    (answer : Except LayoutError (LayoutResult α)) :
    d.judge ids' answer = (d.judge ids answer).map (List.map (Shape.renamed f)) := by
  cases answer with
  | error e => rfl
  | ok r =>
    rw [judge, judge, drawResult, drawResult]
    cases hboxes : d.nodes.mapM fun n => (r.boxOf n.id).map (n, ·) with
    | error e => rfl
    | ok boxes =>
      obtain ⟨-, rfl⟩ := LayoutResult.boxes_eq_ok_iff.mp hboxes
      exact congrArg Except.ok (draw_renamed (p := r.plan) fun i _ => h i)

/-- **A document that is drawn twice**, each time with identities of its own, is drawn the same up
to what takes the identities of one drawing to those of the other. -/
theorem compileIn_renamed {m : Type → Type} [Monad m] [LawfulMonad m]
    (h : ∀ i, f (ids i) = ids' i) (engine : Engine m α) (d : Document α) (o : Options α) :
    d.compileIn engine ids' o =
      Except.map (List.map (Shape.renamed f)) <$> d.compileIn engine ids o := by
  by_cases hplaced : d.isPlaced
  · rw [compileIn_of_isPlaced engine ids hplaced, compileIn_of_isPlaced engine ids' hplaced,
      draw_renamed fun i _ => h i, map_pure]
    rfl
  · rw [compileIn_of_not_isPlaced engine ids hplaced, compileIn_of_not_isPlaced engine ids' hplaced,
      Functor.map_map]
    exact congrArg (· <$> _) (funext (judge_renamed h d))

end Renaming

end Document

/-- **Groups have no influence on the drawing.**  Let what is inside a group stand in place
of the group.  Then the document asks an engine the same question as before, or none, and whatever
effects the engine has it is drawn, or refused, as before: as the same shapes when these are given
the same identities, and otherwise as shapes that differ in their identities alone. -/
theorem compileIn_ungrouped [Scalar α] (d : Document α) (o : Options α) :
    (∀ s ∈ d.ungrouped.statements, ¬ s.isGroup) ∧
      d.ungrouped.request? o = d.request? o ∧
      ∀ (m : Type → Type) [Monad m] [LawfulMonad m] (engine : Engine m α) (ids : Nat → ShapeId),
        d.ungrouped.compileIn engine ids o = d.compileIn engine ids o ∧
        ∀ (ids' : Nat → ShapeId) (f : ShapeId → ShapeId), (∀ i, f (ids i) = ids' i) →
          d.ungrouped.compileIn engine ids' o =
            Except.map (List.map (Shape.renamed f)) <$> d.compileIn engine ids o := by
  refine ⟨d.not_isGroup_of_mem_ungrouped, d.request?_ungrouped o, fun m _ _ engine ids => ?_⟩
  refine ⟨d.compileIn_ungrouped_eq engine ids o, fun ids' f h => ?_⟩
  rw [d.compileIn_ungrouped_eq engine ids' o, Document.compileIn_renamed h]

/-- A group inside a group, with the layout directive that counts: the engine is asked once, and for
the same, also when the document without groups gets other identities. -/
theorem compileIn_ungrouped_nested :
    let a : Node Float := { id := "a" }
    let b : Node Float := { id := "b", shape := some .circle }
    let ab : Edge Float := { source := "a", target := "b", arrow := .thick }
    let d : Document Float :=
      ⟨[.layout "radial", .group "g" {} [.node a, .group "h" {} [.layout "box", .edge ab]],
        .node b], []⟩
    let engine : Engine (StateM Nat) Float := fun _ _ => do
      modify (· + 1)
      return .ok ⟨[⟨"b", ⟨(0 : Int), (90 : Int), (80 : Int), (80 : Int)⟩⟩,
        ⟨"a", ⟨(0 : Int), (0 : Int), (120 : Int), (60 : Int)⟩⟩], []⟩
    let ids := ShapeId.random 7
    let f : ShapeId → ShapeId := fun id => ⟨id.value + 1⟩
    d.ungrouped.statements = [.layout "radial", .node a, .layout "box", .edge ab, .node b] ∧
      (d.effectiveOptions .default).algorithm = .box ∧
      (∀ i, f (ids i) = (f ∘ ids) i) ∧
      ∃ shapes, shapes.map Shape.id = [ids 0, ids 1, ids 2] ∧
        ((d.compileIn (recorded engine) ids .default).run []).run 0 =
          ((.ok shapes, [(d.layoutGraph, d.effectiveOptions .default)]), 1) ∧
        ((d.ungrouped.compileIn (recorded engine) (f ∘ ids) .default).run []).run 0 =
          ((.ok (shapes.map (Shape.renamed f)), [(d.layoutGraph, d.effectiveOptions .default)]),
            1) := by
  intro a b ab d engine ids f
  obtain ⟨-, -, hdrawn⟩ := compileIn_ungrouped d .default
  have hrenamed := (hdrawn (StateT (List (LayoutGraph Float × Options Float)) (StateM Nat))
    (recorded engine) ids).2 (f ∘ ids) f fun _ => rfl
  have hids : (((d.compileIn (recorded engine) ids .default).run []).run 0).1.1.toOption.map
      (List.map Shape.id) = some [ids 0, ids 1, ids 2] := by decide +kernel
  have hrun : (((d.compileIn (recorded engine) ids .default).run []).run 0) =
      (((((d.compileIn (recorded engine) ids .default).run []).run 0).1.1,
        [(d.layoutGraph, d.effectiveOptions .default)]), 1) := rfl
  have hbox : (d.effectiveOptions .default).algorithm = .box := by
    rw [effectiveOptions_eq]
    decide +kernel
  refine ⟨rfl, hbox, fun _ => rfl, ?_⟩
  cases h : (((d.compileIn (recorded engine) ids .default).run []).run 0).1.1 with
  | error e =>
    rw [h] at hids
    cases hids
  | ok shapes =>
    rw [h] at hids hrun
    refine ⟨shapes, Option.some.inj hids, hrun, ?_⟩
    rw [hrenamed, StateT.run_map, StateT.run_map, hrun]
    rfl

end Diagram
