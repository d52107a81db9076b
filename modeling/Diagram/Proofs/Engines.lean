import Diagram.Number.Binary
import Diagram.Proofs.Plans

/-!
# What is asked of a layout engine

A document whose nodes are all placed is drawn without an engine.  For any other document
the engine is asked once, for the whole graph, and its answer is drawn or refused: nothing is
drawn when the engine fails or when its answer leaves a node without a finite box.

Engines may have effects, so that they can be counted on to notice each time they are asked.
-/

namespace Diagram

variable {α : Type}

/-! ## Renaming -/

section Renaming

variable (f : ShapeId → ShapeId)

/-- A figure that joins other shapes. -/
def Figure.reconnected : Figure α → Figure α
  | .line ps a b l => .line ps (a.map f) (b.map f) l
  | .arrow ps s e a b l => .arrow ps s e (a.map f) (b.map f) l
  | g => g

/-- A shape that joins other shapes. -/
def Shape.reconnected (s : Shape α) : Shape α := { s with figure := s.figure.reconnected f }

/-- A shape, with other identities for itself and the shapes it joins. -/
def Shape.renamed (s : Shape α) : Shape α := (s.reconnected f).withId (f s.id)

/-- A drawn node, with another identity for its shape. -/
def Drawn.renamed (d : Drawn α) : Drawn α := { d with shape := f d.shape }

theorem findDrawn?_renamed (ds : List (Drawn α)) (name : String) :
    findDrawn? (ds.map (Drawn.renamed f)) name = (findDrawn? ds name).map (Drawn.renamed f) := by
  rw [findDrawn?, ← List.map_reverse, List.find?_map]
  rfl

variable [Scalar α]

@[simp] theorem reconnected_nodeShape (id : ShapeId) (n : Node α) (b : Box α) :
    (nodeShape id n b).reconnected f = nodeShape id n b := by
  simp only [nodeShape, nodeFigure, Shape.reconnected]
  cases n.shapeOrDefault <;> rfl

@[simp] theorem reconnected_edgeShape (id : ShapeId) (e : Edge α) (points : List (Point α))
    (source target : ShapeId) :
    (edgeShape id e points source target).reconnected f =
      edgeShape id e points (f source) (f target) := by
  simp only [edgeShape, Shape.connector]
  cases headsOf e.arrow <;> rfl

theorem drawEdge?_renamed (ds : List (Drawn α)) (path : Box α → Box α → List (Point α))
    (e : Edge α) :
    (drawEdge? (ds.map (Drawn.renamed f)) path e).map (· default) =
      (drawEdge? ds path e).map fun shape => (shape default).reconnected f := by
  rw [drawEdge?, drawEdge?, findDrawn?_renamed, findDrawn?_renamed]
  cases findDrawn? ds e.source with
  | none => rfl
  | some source =>
    cases findDrawn? ds e.target with
    | none => rfl
    | some target => exact congrArg some (reconnected_edgeShape ..).symm

theorem freeArrowShape?_reconnected (s : Style α) :
    (freeArrowShape? s).map (· default) =
      (freeArrowShape? s).map fun shape => (shape default).reconnected f := by
  rw [freeArrowShape?_eq, Option.map_map, Option.map_map]
  rfl

variable {f}

/-- Renaming the shapes of the nodes renames what the edges join. -/
theorem bodies_renamed {ids ids' : Nat → ShapeId} (boxes : List (Node α × Box α))
    (h : ∀ i < boxes.length, f (ids i) = ids' i)
    (edges : List (Edge α × (Box α → Box α → List (Point α)))) (free : List (Style α)) :
    bodies ids' boxes edges free = (bodies ids boxes edges free).map (Shape.reconnected f) := by
  have hdrawn : (drawNodes ids' boxes).1 = (drawNodes ids boxes).1.map (Drawn.renamed f) := by
    refine List.ext_getElem (by simp [drawNodes]) fun i hi _ => ?_
    have hlt : i < boxes.length := by simpa [drawNodes] using hi
    simp [drawNodes, Drawn.renamed, h i hlt]
  simp only [bodies, hdrawn, List.map_append, List.map_map, List.map_filterMap, Option.map_map,
    Function.comp_def, drawEdge?_renamed, reconnected_nodeShape, ← freeArrowShape?_reconnected]

/-- **A drawing does not depend on the identities of its shapes**: what takes the identities of
one drawing to those of another takes the shapes to the shapes. -/
theorem draw_renamed {ids ids' : Nat → ShapeId} {d : Document α} {p : Plan α}
    (h : ∀ i < (d.draw ids p).length, f (ids i) = ids' i) :
    d.draw ids' p = (d.draw ids p).map (Shape.renamed f) := by
  have hlength : d.nodes.length ≤ (d.draw ids p).length := by
    simp [Document.draw, drawAll_eq, bodies]
  have hbodies := bodies_renamed (d.nodes.map fun n => (n, p.box n))
    (fun i hi => h i (by rw [List.length_map] at hi; omega))
    (d.edges.mapIdx fun i e => (e, p.way i)) d.freeArrows
  rw [Document.draw, drawAll_eq] at h ⊢
  rw [Document.draw, drawAll_eq, hbodies]
  refine List.ext_getElem (by simp) fun i hi _ => ?_
  have hlt : i < (bodies ids (d.nodes.map fun n => (n, p.box n))
      (d.edges.mapIdx fun i e => (e, p.way i)) d.freeArrows).length := by simpa using hi
  simp only [List.getElem_mapIdx, List.getElem_map]
  rw [← h i (by simpa using hlt)]
  rfl

end Renaming

/-! ## Recording -/

/-- An engine that keeps a record of what it is asked. -/
def recorded {m : Type → Type} [Monad m] (engine : Engine m α) :
    Engine (StateT (List (LayoutGraph α × Options α)) m) α := fun graph options => do
  modify (· ++ [(graph, options)])
  engine graph options

theorem run_recorded {m : Type → Type} [Monad m] [LawfulMonad m] (engine : Engine m α)
    (graph : LayoutGraph α) (options : Options α) (log : List (LayoutGraph α × Options α)) :
    (recorded engine graph options).run log =
      (fun answer => (answer, log ++ [(graph, options)])) <$> engine graph options := by
  simp [recorded]

variable [Scalar α]

/-- A graph that holds what a document says of its nodes and its edges, in order. -/
structure LayoutGraph.Describes (g : LayoutGraph α) (d : Document α) : Prop where
  nodes : g.nodes.map (fun n => (n.id, n.width, n.height, n.label)) =
    d.nodes.map fun n => (n.id, n.size.1, n.size.2, n.label)
  edges : g.edges.map (fun e => (e.source, e.target, e.label)) =
    d.edges.map fun e => (e.source, e.target, e.label)

theorem describes_layoutGraph (d : Document α) : d.layoutGraph.Describes d where
  nodes := by
    rw [Document.layoutGraph, List.map_map]
    rfl
  edges := by
    exact map_mapIdx (f := GraphEdge.ofEdge) (fun _ _ => rfl) d.edges

omit [Scalar α] in
/-- The options that the engine is asked with: those given, but with the algorithm of the last
directive that names one. -/
theorem effectiveOptions_eq (d : Document α) (o : Options α) :
    d.effectiveOptions o =
      { o with algorithm := (d.layoutDirective.bind Algorithm.ofName?).getD o.algorithm } := by
  rw [Document.effectiveOptions]
  cases d.layoutDirective.bind Algorithm.ofName? <;> rfl

/-- What the engine is asked is recorded once. -/
theorem run_compileIn_recorded {m : Type → Type} [Monad m] [LawfulMonad m] (engine : Engine m α)
    (ids : Nat → ShapeId) {d : Document α} (h : ¬ d.isPlaced) (o : Options α)
    (log : List (LayoutGraph α × Options α)) :
    (d.compileIn (recorded engine) ids o).run log =
      (fun answer => (d.judge ids answer, log ++ [(d.layoutGraph, d.effectiveOptions o)])) <$>
        engine d.layoutGraph (d.effectiveOptions o) := by
  rw [compileIn_of_not_isPlaced (recorded engine) ids h, StateT.run_map, run_recorded,
    Functor.map_map]

/-- Nothing is drawn when the engine fails, or when its answer has no entry for a node, or none
that is finite. -/
theorem judge_eq_error_iff {ids : Nat → ShapeId} {d : Document α}
    {answer : Except LayoutError (LayoutResult α)} :
    (∃ e, d.judge ids answer = .error e) ↔
      (∃ e, answer = .error e) ∨ ∃ r, answer = .ok r ∧ ∃ n ∈ d.nodes,
        r.placed? n.id = none ∨ ∃ p, r.placed? n.id = some p ∧ ¬ p.box.IsFinite := by
  cases answer with
  | error e => simp [Document.judge]
  | ok r =>
    simp only [Document.judge, drawResult_eq_error_iff, LayoutResult.Covers, not_forall,
      reduceCtorEq, exists_false, false_or, Except.ok.injEq, exists_eq_left', exists_prop]
    refine exists_congr fun n => and_congr_right fun _ => ?_
    cases r.placed? n.id with
    | none => simp
    | some p => simp

/-- **When an engine is asked, for what, and when nothing is drawn.**  A document whose nodes
state both coordinates is drawn without asking any engine; up to the identities of the shapes
there is one drawing of it, whatever the options.  Otherwise the engine is asked exactly once,
for all nodes and edges in order, with the algorithm of the last directive if that names one;
and nothing is drawn exactly when the engine fails or when the entry of some node in its answer,
the last if there are several, is missing or not finite. -/
theorem compileIn_modes (d : Document α) (ids : Nat → ShapeId) (o : Options α) :
    ((∀ n ∈ d.nodes, n.style.x.isSome ∧ n.style.y.isSome) →
      (∀ (m : Type → Type) [Monad m] (engine : Engine m α),
        d.compileIn engine ids o = pure (.ok (d.drawPlaced ids))) ∧
      ∀ ids' f, (∀ i < (d.drawPlaced ids).length, f (ids i) = ids' i) →
        d.drawPlaced ids' = (d.drawPlaced ids).map (Shape.renamed f)) ∧
    (¬ (∀ n ∈ d.nodes, n.style.x.isSome ∧ n.style.y.isSome) →
      d.layoutGraph.Describes d ∧
      d.effectiveOptions o =
        { o with algorithm := (d.layoutDirective.bind Algorithm.ofName?).getD o.algorithm } ∧
      (∀ (m : Type → Type) [Monad m] [LawfulMonad m] (engine : Engine m α),
        d.compileIn engine ids o =
          d.judge ids <$> engine d.layoutGraph (d.effectiveOptions o) ∧
        ∀ log, (d.compileIn (recorded engine) ids o).run log =
          (fun answer => (d.judge ids answer, log ++ [(d.layoutGraph, d.effectiveOptions o)])) <$>
            engine d.layoutGraph (d.effectiveOptions o)) ∧
      ∀ answer, (∃ e, d.judge ids answer = .error e) ↔
        (∃ e, answer = .error e) ∨ ∃ r, answer = .ok r ∧ ∃ n ∈ d.nodes,
          r.placed? n.id = none ∨ ∃ p, r.placed? n.id = some p ∧ ¬ p.box.IsFinite) := by
  rw [← isPlaced_iff]
  constructor
  · intro hplaced
    refine ⟨fun m _ engine => ?_, fun ids' f h => ?_⟩
    · rw [compileIn_of_isPlaced engine ids hplaced, drawPlaced_eq]
    · rw [drawPlaced_eq] at h ⊢
      rw [drawPlaced_eq, draw_renamed h]
  · intro hplaced
    exact ⟨describes_layoutGraph d, effectiveOptions_eq d o, fun m _ _ engine =>
      ⟨compileIn_of_not_isPlaced engine ids hplaced o, run_compileIn_recorded engine ids hplaced o⟩,
      fun _ => judge_eq_error_iff⟩

/-- One node is not placed, the last of two directives names an algorithm, and the second entry
for a node is infinite: the engine is asked once, and nothing is drawn. -/
theorem compileIn_modes_corrupt :
    let d : Document Float :=
      ⟨[.layout "radial",
        .node { id := "a", style := { x := some (0 : Int), y := some (0 : Int) } },
        .group "g" {} [.layout "Box", .node { id := "b" }],
        .edge { source := "a", target := "b", arrow := .thick }], []⟩
    let b : Box Float := ⟨(0 : Int), (0 : Int), (120 : Int), (60 : Int)⟩
    let lost : Box Float := { b with x := ((1 : Int) : Float) / ((0 : Int) : Float) }
    let answer : LayoutResult Float := ⟨[⟨"a", b⟩, ⟨"b", b⟩, ⟨"b", lost⟩], []⟩
    let engine : Engine (StateM Nat) Float := fun _ _ => do
      modify (· + 1)
      return .ok answer
    (¬ ∀ n ∈ d.nodes, n.style.x.isSome ∧ n.style.y.isSome) ∧
      (d.effectiveOptions .default).algorithm = .box ∧
      ∃ e, ((d.compileIn (recorded engine) (ShapeId.random 7) .default).run []).run 0 =
        ((.error e, [(d.layoutGraph, d.effectiveOptions .default)]), 1) := by
  intro d b lost answer engine
  have hnot : ¬ ∀ n ∈ d.nodes, n.style.x.isSome ∧ n.style.y.isSome := by decide
  obtain ⟨-, hoptions, hrun, herror⟩ := (compileIn_modes d (ShapeId.random 7) .default).2 hnot
  have hlost : ¬ lost.IsFinite := fun h => by
    have hx : Scalar.isFinite lost.x = false := by decide +kernel
    rw [h.x] at hx
    cases hx
  obtain ⟨e, he⟩ := (herror (.ok answer)).mpr
    (.inr ⟨answer, rfl, { id := "b" }, .tail _ (.head _), .inr ⟨⟨"b", lost⟩, rfl, hlost⟩⟩)
  refine ⟨hnot, ?_, e, ?_⟩
  · rw [hoptions]
    decide +kernel
  · rw [(hrun (StateM Nat) engine).2 [], ← he]
    rfl

end Diagram
