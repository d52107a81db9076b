import Diagram.Number.Binary
import Diagram.Proofs.Plans

/-!
# Finite drawings

The boxes that an engine answers with are checked: a box that is not finite is never drawn.
The courses of edges are not checked.  A connector keeps its points relative to the first of
them, so a drawing is finite exactly when on each course every point, its offset from the
first point, and the sum of the two are finite.  Far apart ends already fail this, and so
does a box whose centre is beyond the greatest number.
-/

namespace Diagram

/-! ## Arithmetic -/

namespace Binary

open Float.Model Float.Model.UnpackedFloat

/-- What is not finite stays so when it is packed. -/
theorem isFinite_pack {x : UnpackedFloat} (h : x.isFinite = false) :
    (Float.Model.pack x).isFinite = false := by
  cases x with
  | notANumber => decide +kernel
  | infinity s => cases s <;> decide +kernel
  | zero s => cases h
  | finite s m e hpos => cases h

theorem isFinite_ite (c : Prop) [Decidable c] (s : Sign) :
    (if c then infinity s else notANumber).isFinite = false := by
  split <;> rfl

/-- Neither the sum nor the difference of two values is finite when one of them is not. -/
theorem isFinite_unpacked {x y : UnpackedFloat} (h : x.isFinite = false ∨ y.isFinite = false) :
    (UnpackedFloat.add .binary64 x y).isFinite = false ∧
      (UnpackedFloat.sub .binary64 x y).isFinite = false := by
  cases x with
  | notANumber => exact ⟨rfl, rfl⟩
  | infinity s =>
    cases y with
    | infinity t => exact ⟨isFinite_ite .., isFinite_ite ..⟩
    | _ => exact ⟨rfl, rfl⟩
  | zero s =>
    cases y with
    | notANumber | infinity t => exact ⟨rfl, rfl⟩
    | zero t | finite t m e hpos => simp [UnpackedFloat.isFinite] at h
  | finite s m e hpos =>
    cases y with
    | notANumber | infinity t => exact ⟨rfl, rfl⟩
    | zero t | finite t m' e' hpos' => simp [UnpackedFloat.isFinite] at h

theorem isFinite_add_sub {a b : Float} (h : ¬ (a.isFinite ∧ b.isFinite)) :
    (a + b).isFinite = false ∧ (a - b).isFinite = false := by
  have hlost : a.toModel.unpack.isFinite = false ∨ b.toModel.unpack.isFinite = false := by
    rwa [not_and_or, Bool.not_eq_true, Bool.not_eq_true] at h
  obtain ⟨hadd, hsub⟩ := isFinite_unpacked hlost
  exact ⟨isFinite_pack hadd, isFinite_pack hsub⟩

/-- Both parts of a finite sum are finite. -/
theorem isFinite_of_add {a b : Float} (h : (a + b).isFinite) : a.isFinite ∧ b.isFinite := by
  by_contra hnot
  exact Bool.false_ne_true ((isFinite_add_sub hnot).1.symm.trans h)

/-- Both parts of a finite difference are finite. -/
theorem isFinite_of_sub {a b : Float} (h : (a - b).isFinite) : a.isFinite ∧ b.isFinite := by
  by_contra hnot
  exact Bool.false_ne_true ((isFinite_add_sub hnot).2.symm.trans h)

end Binary

variable {α : Type} [Scalar α]

/-! ## Finite shapes -/

/-- Both coordinates of a point are finite. -/
structure Point.IsFinite (p : Point α) : Prop where
  x : Scalar.isFinite p.x
  y : Scalar.isFinite p.y

/-- All coordinates of a shape are finite: of its box, and of its points. -/
structure Shape.IsFinite (s : Shape α) : Prop where
  box : ∀ b, s.bounds = some b → b.IsFinite
  points : ∀ p ∈ s.absolutePoints, p.IsFinite

/-- A point that stays finite when it is kept relative to another. -/
structure Point.IsFiniteFrom (p o : Point α) : Prop where
  point : p.IsFinite
  offset : (p.sub o).IsFinite
  sum : (o.add (p.sub o)).IsFinite

/-- For floating-point numbers it is enough that the sum is finite. -/
theorem isFiniteFrom_iff (p o : Point Float) : p.IsFiniteFrom o ↔ (o.add (p.sub o)).IsFinite := by
  refine ⟨Point.IsFiniteFrom.sum, fun hsum => ?_⟩
  have hx := (Binary.isFinite_of_add hsum.x).2
  have hy := (Binary.isFinite_of_add hsum.y).2
  exact ⟨⟨(Binary.isFinite_of_sub hx).1, (Binary.isFinite_of_sub hy).1⟩, ⟨hx, hy⟩, hsum⟩

/-! ## Courses -/

/-- Where a course starts. -/
def start (c : List (Point α)) : Point α := c.head?.getD .origin

/-- The points of a course, kept relative to its start. -/
def kept (c : List (Point α)) : List (Point α) := c.map fun p => (start c).add (p.sub (start c))

/-- The course of an edge along some points, with the ends that it states for itself. -/
def Edge.anchored (e : Edge α) (points : List (Point α)) : List (Point α) :=
  anchorEnd e.style (anchorStart e.style points)

/-- The course that an answer gives to the `i`th edge. -/
def LayoutResult.course? (r : LayoutResult α) (i : Nat) (e : Edge α) :
    Option (List (Point α)) := do
  let source ← r.placed? e.source
  let target ← r.placed? e.target
  return e.anchored (r.pathOf i source.box target.box)

/-- The courses of the edges between nodes and of the free arrows. -/
def Document.courses (d : Document α) (r : LayoutResult α) : List (List (Point α)) :=
  d.edges.zipIdx.filterMap (fun e => if d.joins e.1 then r.course? e.2 e.1 else none) ++
    d.freeArrows.filterMap Style.course?

/-- A connector keeps its course relative to the start. -/
theorem absolutePoints_connector (id : ShapeId) (c : List (Point α))
    (heads : Option (Bool × Bool)) : (Shape.connector id c heads).absolutePoints = kept c := by
  simp only [Shape.connector, Shape.absolutePoints, kept]
  cases heads <;> simp only [Shape.new, Figure.points, List.map_map] <;> rfl

@[simp] theorem absolutePoints_edgeShape (id : ShapeId) (e : Edge α) (points : List (Point α))
    (source target : ShapeId) :
    (edgeShape id e points source target).absolutePoints = kept (e.anchored points) := by
  rw [← absolutePoints_connector id (e.anchored points) (headsOf e.arrow)]
  simp only [edgeShape, Shape.connector, Edge.anchored]
  cases headsOf e.arrow <;> rfl

@[simp] theorem absolutePoints_nodeShape (id : ShapeId) (n : Node α) (b : Box α) :
    (nodeShape id n b).absolutePoints = [] := by
  simp only [nodeShape, nodeFigure, Shape.new, Shape.absolutePoints]
  cases n.shapeOrDefault <;> rfl

theorem absolutePoints_freeArrowShape? (s : Style α) :
    (freeArrowShape? s).map (fun shape => (shape default).absolutePoints) =
      s.course?.map kept := by
  rw [freeArrowShape?_eq, Option.map_map]
  exact congrArg (s.course?.map ·)
    (funext fun c => absolutePoints_connector default c (some (false, true)))

theorem absolutePoints_drawEdge? {d : Document α} {r : LayoutResult α} (h : r.Covers d.nodes)
    (ids : Nat → ShapeId) (e : Edge α) (i : Nat) :
    (drawEdge? (drawNodes ids (d.nodes.map fun n => (n, r.plan.box n))).1 (r.plan.way i) e).map
        (fun shape => (shape default).absolutePoints) =
      (if d.joins e then r.course? i e else none).map kept := by
  -- A node that is found is in the box that the answer has for its name.
  have hfound : ∀ {name x}, findDrawn?
      (drawNodes ids (d.nodes.map fun n => (n, r.plan.box n))).1 name = some x →
      name ∈ d.nodeIds ∧ (r.placed? name).map PlacedNode.box = some x.box := by
    intro name x hx
    obtain ⟨n, hn, rfl, hbox⟩ := findDrawn?_eq_some hx
    obtain ⟨m, hm, -⟩ := h n hn
    refine ⟨List.mem_map_of_mem hn, ?_⟩
    rw [← hbox, LayoutResult.box_plan hm, hm]
    rfl
  rw [drawEdge?]
  cases hsource :
      findDrawn? (drawNodes ids (d.nodes.map fun n => (n, r.plan.box n))).1 e.source with
  | none =>
    have hnot := findDrawn?_eq_none_iff.mp hsource
    rw [if_neg fun hjoins => hnot (joins_iff.mp hjoins).1]
    rfl
  | some source =>
    obtain ⟨hmem, hbox⟩ := hfound hsource
    cases htarget :
        findDrawn? (drawNodes ids (d.nodes.map fun n => (n, r.plan.box n))).1 e.target with
    | none =>
      have hnot := findDrawn?_eq_none_iff.mp htarget
      rw [if_neg fun hjoins => hnot (joins_iff.mp hjoins).2]
      rfl
    | some target =>
      obtain ⟨hmem', hbox'⟩ := hfound htarget
      obtain ⟨m, hm, hmbox⟩ := Option.map_eq_some_iff.mp hbox
      obtain ⟨n, hn, hnbox⟩ := Option.map_eq_some_iff.mp hbox'
      rw [if_pos (joins_iff.mpr ⟨hmem, hmem'⟩), LayoutResult.course?, hm, hn]
      refine congrArg some ?_
      rw [hmbox, hnbox]
      exact absolutePoints_edgeShape ..

/-- **The points of the connectors are those of the courses, kept relative to their starts.** -/
theorem absolutePoints_draw {d : Document α} {r : LayoutResult α} (h : r.Covers d.nodes)
    (ids : Nat → ShapeId) :
    (d.draw ids r.plan).map Shape.absolutePoints =
      d.nodes.map (fun _ => []) ++ (d.courses r).map kept := by
  rw [map_draw fun _ _ => rfl, Document.courses, List.mapIdx_eq_zipIdx_map, List.filterMap_map]
  simp only [Function.comp_def, absolutePoints_nodeShape, absolutePoints_drawEdge? h,
    absolutePoints_freeArrowShape?, List.map_append, List.map_filterMap]

/-! ## Finite drawings -/

omit [Scalar α] in
theorem bounds_eq (s : Shape α) : s.bounds = s.frame?.map Frame.box := by
  rw [frame?_eq, Option.map_map]
  cases s.bounds <;> rfl

/-- The boxes that are drawn are those of the nodes. -/
theorem exists_box_of_mem_draw {d : Document α} {p : Plan α} {ids : Nat → ShapeId} {s : Shape α}
    (hs : s ∈ d.draw ids p) {b : Box α} (hb : s.bounds = some b) : ∃ n ∈ d.nodes, p.box n = b := by
  rw [bounds_eq] at hb
  obtain ⟨f, hf, rfl⟩ := Option.map_eq_some_iff.mp hb
  have hmem : f ∈ frames (d.draw ids p) := List.mem_filterMap.mpr ⟨s, hs, hf⟩
  rw [Document.draw, frames_drawAll, List.map_map] at hmem
  obtain ⟨n, hn, rfl⟩ := List.mem_map.mp hmem
  exact ⟨n, hn, rfl⟩

/-- The boxes of an answer that is drawn are finite. -/
theorem isFinite_box {d : Document α} {r : LayoutResult α} (h : r.Covers d.nodes)
    {ids : Nat → ShapeId} {s : Shape α} (hs : s ∈ d.draw ids r.plan) {b : Box α}
    (hb : s.bounds = some b) : b.IsFinite := by
  obtain ⟨n, hn, rfl⟩ := exists_box_of_mem_draw hs hb
  obtain ⟨m, hm, hfinite⟩ := h n hn
  rw [LayoutResult.box_plan hm]
  exact hfinite

/-- A drawing is finite when its courses are, kept relative to their starts. -/
theorem isFinite_draw_iff {d : Document α} {r : LayoutResult α} (h : r.Covers d.nodes)
    (ids : Nat → ShapeId) :
    (∀ s ∈ d.draw ids r.plan, s.IsFinite) ↔ ∀ c ∈ d.courses r, ∀ p ∈ kept c, p.IsFinite := by
  have hpoints : (∀ ps ∈ (d.draw ids r.plan).map Shape.absolutePoints, ∀ p ∈ ps, p.IsFinite) ↔
      ∀ c ∈ d.courses r, ∀ p ∈ kept c, p.IsFinite := by
    rw [absolutePoints_draw h, List.forall_mem_append, List.forall_mem_map, List.forall_mem_map]
    simp
  rw [← hpoints, List.forall_mem_map]
  exact ⟨fun hall s hs => (hall s hs).points,
    fun hall s hs => ⟨fun _ => isFinite_box h hs, hall s hs⟩⟩

/-- **A drawing by the answer of an engine is finite exactly when its courses are.**  Its boxes
always are.  On the courses of the edges and the free arrows every point has to be finite, and
so has its offset from the start of the course, and the two put together again. -/
theorem isFinite_compileIn_iff {σ : Type} (engine : Engine (StateM σ) Float) (ids : Nat → ShapeId)
    {d : Document Float} (hplaced : ¬ ∀ n ∈ d.nodes, n.style.x.isSome ∧ n.style.y.isSome)
    (o : Options Float) (s : σ) {shapes : List (Shape Float)}
    (h : ((d.compileIn engine ids o).run s).1 = .ok shapes) :
    ∃ r, ((engine d.layoutGraph (d.effectiveOptions o)).run s).1 = .ok r ∧
      (∀ t ∈ shapes, ∀ b, t.bounds = some b → b.IsFinite) ∧
      ((∀ t ∈ shapes, t.IsFinite) ↔ ∀ c ∈ d.courses r, ∀ p ∈ c, p.IsFiniteFrom (start c)) := by
  obtain ⟨p, hplan, rfl⟩ := exists_plan h
  cases hplan with
  | stated hall => exact absurd (isPlaced_iff.mp hall) hplaced
  | @answered _ r hr hcovers =>
    refine ⟨r, hr, fun t ht b => isFinite_box hcovers ht, ?_⟩
    rw [isFinite_draw_iff hcovers]
    simp only [kept, List.forall_mem_map, isFiniteFrom_iff]

/-- A finite box whose centre is beyond the greatest number: it is drawn, and the edge from it
starts nowhere. -/
theorem isFinite_compileIn_iff_overflow :
    let d : Document Float := Document.ofText "a -> b"
    let answer : LayoutResult Float :=
      ⟨[⟨"a", ⟨1.7e308, 0, 1.7e308, 60⟩⟩, ⟨"b", ⟨0, 200, 120, 60⟩⟩], []⟩
    let engine : Engine (StateM Nat) Float := fun _ _ => do
      modify (· + 1)
      return .ok answer
    (¬ ∀ n ∈ d.nodes, n.style.x.isSome ∧ n.style.y.isSome) ∧
      ∃ shapes, ((d.compileIn engine (ShapeId.random 7) .default).run 0).1 = .ok shapes ∧
        (∀ t ∈ shapes, ∀ b, t.bounds = some b → b.IsFinite) ∧ ¬ ∀ t ∈ shapes, t.IsFinite := by
  intro d answer engine
  have hplaced : ¬ ∀ n ∈ d.nodes, n.style.x.isSome ∧ n.style.y.isSome := by decide +kernel
  have hok : ((d.compileIn engine (ShapeId.random 7) .default).run 0).1.isOk := by decide +kernel
  refine ⟨hplaced, ?_⟩
  cases h : ((d.compileIn engine (ShapeId.random 7) .default).run 0).1 with
  | error e =>
    rw [h] at hok
    cases hok
  | ok shapes =>
    obtain ⟨r, hr, hboxes, hiff⟩ :=
      isFinite_compileIn_iff engine (ShapeId.random 7) hplaced .default 0 h
    obtain rfl : answer = r := Except.ok.inj hr
    refine ⟨shapes, rfl, hboxes, fun hall => ?_⟩
    have hcourses : d.courses answer =
        [[answer.nodes[0].box.center, answer.nodes[1].box.center]] := by
      decide +kernel
    rw [hcourses] at hiff
    have hx := (hiff.mp hall _ List.mem_cons_self _ List.mem_cons_self).point.x
    have hlost : Scalar.isFinite answer.nodes[0].box.center.x = false := by decide +kernel
    rw [hlost] at hx
    cases hx

end Diagram
