import Diagram.Proofs.Recompiling

/-!
# Plans of a drawing

A document is drawn from a plan: a box for each of its nodes, and for each of its edges a
way between two boxes.  When every node is placed the plan is what the document states, and
otherwise it is read off the answer of the layout engine.  All that is drawn depends on the
document and the plan alone; the identities are handed out to the shapes at the end, in
their order.
-/

namespace Diagram

variable {α : Type}

/-- Whether both ends of an edge are nodes. -/
def Document.joins (d : Document α) (e : Edge α) : Bool :=
  d.nodeIds.contains e.source && d.nodeIds.contains e.target

theorem joins_iff {d : Document α} {e : Edge α} :
    d.joins e ↔ e.source ∈ d.nodeIds ∧ e.target ∈ d.nodeIds := by
  rw [Document.joins, Bool.and_eq_true, List.contains_iff_mem, List.contains_iff_mem]

/-- The course of a free arrow that states both ends. -/
def Style.course? (s : Style α) : Option (List (Point α)) := do
  let x1 ← s.x1
  let y1 ← s.y1
  let x2 ← s.x2
  let y2 ← s.y2
  return [⟨x1, y1⟩, ⟨x2, y2⟩]

/-! ## Identities -/

/-- A shape under another identity. -/
def Shape.withId (s : Shape α) (id : ShapeId) : Shape α := { s with id := id }

@[simp] theorem id_withId (s : Shape α) (id : ShapeId) : (s.withId id).id = id := rfl

/-- Numbered values are selected alike where their numbers do not matter. -/
theorem filterMap_mapIdx {β γ δ : Type} {f : Nat → β → γ} {g : γ → Option δ} {h : β → Option δ}
    (hg : ∀ i x, g (f i x) = h x) (xs : List β) : (xs.mapIdx f).filterMap g = xs.filterMap h :=
  calc (xs.mapIdx f).filterMap g
    _ = ((xs.mapIdx f).map g).filterMap id := by rw [List.filterMap_map, Function.id_comp]
    _ = (xs.map h).filterMap id := by rw [map_mapIdx hg]
    _ = xs.filterMap h := by rw [List.filterMap_map, Function.id_comp]

section Drawing

variable [Scalar α]

theorem edgeShape_eq_withId (id : ShapeId) (e : Edge α) (points : List (Point α))
    (source target : ShapeId) :
    edgeShape id e points source target = (edgeShape default e points source target).withId id := by
  simp only [edgeShape, Shape.connector]
  cases headsOf e.arrow <;> rfl

theorem eq_withId_of_drawEdge? {ds : List (Drawn α)} {path : Box α → Box α → List (Point α)}
    {e : Edge α} {shape : ShapeId → Shape α} (h : drawEdge? ds path e = some shape) (id : ShapeId) :
    shape id = (shape default).withId id := by
  simp only [drawEdge?, Option.bind_eq_bind, Option.bind_eq_some_iff] at h
  obtain ⟨source, -, target, -, hshape⟩ := h
  cases hshape
  exact edgeShape_eq_withId ..

/-- A free arrow is drawn along its course, if it has one. -/
theorem freeArrowShape?_eq (s : Style α) : freeArrowShape? s = s.course?.map fun points id =>
    { Shape.connector id points (some (false, true)) with paint := Paint.default.apply s } := by
  rw [freeArrowShape?, Style.course?]
  cases s.x1 <;> cases s.y1 <;> cases s.x2 <;> cases s.y2 <;> rfl

theorem eq_withId_of_freeArrowShape? {s : Style α} {shape : ShapeId → Shape α}
    (h : freeArrowShape? s = some shape) (id : ShapeId) :
    shape id = (shape default).withId id := by
  rw [freeArrowShape?_eq] at h
  obtain ⟨points, -, rfl⟩ := Option.map_eq_some_iff.mp h
  rfl

/-! ## Drawn nodes -/

/-- A drawn node that is found by a name is the node of that name in its box. -/
theorem findDrawn?_eq_some {ns : List (Node α)} {ids : Nat → ShapeId} {box : Node α → Box α}
    {name : String} {x : Drawn α}
    (h : findDrawn? (drawNodes ids (ns.map fun n => (n, box n))).1 name = some x) :
    ∃ n ∈ ns, n.id = name ∧ box n = x.box := by
  obtain ⟨i, hi, rfl⟩ := List.mem_mapIdx.mp (List.mem_reverse.mp (List.mem_of_find?_eq_some h))
  have hi' : i < ns.length := by simpa using hi
  have hname := List.find?_some (p := fun d : Drawn α => d.name == name) h
  simp only [List.getElem_map, beq_iff_eq] at hname ⊢
  exact ⟨ns[i], List.getElem_mem hi', hname, rfl⟩

/-- A name that no node has finds nothing. -/
theorem findDrawn?_eq_none_iff {ns : List (Node α)} {ids : Nat → ShapeId} {box : Node α → Box α}
    {name : String} :
    findDrawn? (drawNodes ids (ns.map fun n => (n, box n))).1 name = none ↔
      name ∉ ns.map Node.id := by
  constructor
  · intro h hname
    obtain ⟨n, hn, rfl⟩ := List.mem_map.mp hname
    obtain ⟨i, hi, rfl⟩ := List.getElem_of_mem hn
    have hmem : (⟨ns[i].id, ids i, box ns[i]⟩ : Drawn α) ∈
        (drawNodes ids (ns.map fun n => (n, box n))).1 :=
      List.mem_mapIdx.mpr ⟨i, by simpa using hi, by simp⟩
    exact List.find?_eq_none.mp h _ (List.mem_reverse.mpr hmem) (beq_self_eq_true _)
  · intro h
    cases hfind : findDrawn? (drawNodes ids (ns.map fun n => (n, box n))).1 name with
    | none => rfl
    | some x =>
      obtain ⟨n, hn, rfl, -⟩ := findDrawn?_eq_some hfind
      exact absurd (List.mem_map_of_mem hn) h

/-! ## Bodies -/

/-- The shapes of a document, before they get identities of their own. -/
def bodies (ids : Nat → ShapeId) (boxes : List (Node α × Box α))
    (edges : List (Edge α × (Box α → Box α → List (Point α)))) (free : List (Style α)) :
    List (Shape α) :=
  boxes.map (fun b => nodeShape default b.1 b.2) ++
    (edges.filterMap (fun e => (drawEdge? (drawNodes ids boxes).1 e.2 e.1).map (· default)) ++
      free.filterMap (fun s => (freeArrowShape? s).map (· default)))

/-- **Shapes are drawn first and numbered afterwards.**  The shape at each place gets the
identity of that number. -/
theorem drawAll_eq (ids : Nat → ShapeId) (boxes : List (Node α × Box α))
    (edges : List (Edge α × (Box α → Box α → List (Point α)))) (free : List (Style α)) :
    drawAll ids boxes edges free =
      (bodies ids boxes edges free).mapIdx (fun i s => s.withId (ids i)) := by
  have hlength : (drawNodes ids boxes).2.length = boxes.length := List.length_mapIdx
  -- connectors are drawn before their numbers are known, and depend on these in the identity only
  have hconnectors : ∀ shape ∈
      edges.filterMap (fun e => drawEdge? (drawNodes ids boxes).1 e.2 e.1) ++
        free.filterMap freeArrowShape?, ∀ id, shape id = (shape default).withId id := by
    intro shape hshape
    rcases List.mem_append.mp hshape with hedge | hfree
    · obtain ⟨e, -, h⟩ := List.mem_filterMap.mp hedge
      exact eq_withId_of_drawEdge? h
    · obtain ⟨style, -, h⟩ := List.mem_filterMap.mp hfree
      exact eq_withId_of_freeArrowShape? h
  rw [drawAll, bodies, List.mapIdx_append, ← List.map_filterMap, ← List.map_filterMap,
    ← List.map_append]
  simp only [hlength, List.length_map]
  congr 1
  · refine List.ext_getElem (by simp [drawNodes]) fun i hi hi' => ?_
    simp only [drawNodes, List.getElem_mapIdx, List.getElem_map]
    rfl
  · refine List.ext_getElem (by simp) fun i hi hi' => ?_
    simp only [List.getElem_mapIdx, List.getElem_map]
    rw [hconnectors _ (List.getElem_mem _), Nat.add_comm]

/-- What shapes have in common with their bodies does not depend on the identities. -/
theorem map_drawAll {γ : Type} {g : Shape α → γ} (hg : ∀ s id, g (s.withId id) = g s)
    (ids : Nat → ShapeId) (boxes : List (Node α × Box α))
    (edges : List (Edge α × (Box α → Box α → List (Point α)))) (free : List (Style α)) :
    (drawAll ids boxes edges free).map g = (bodies ids boxes edges free).map g := by
  rw [drawAll_eq, map_mapIdx fun i s => hg s (ids i)]

/-- What is selected among shapes does not depend on the identities. -/
theorem filterMap_drawAll {γ : Type} {g : Shape α → Option γ} (hg : ∀ s id, g (s.withId id) = g s)
    (ids : Nat → ShapeId) (boxes : List (Node α × Box α))
    (edges : List (Edge α × (Box α → Box α → List (Point α)))) (free : List (Style α)) :
    (drawAll ids boxes edges free).filterMap g = (bodies ids boxes edges free).filterMap g := by
  rw [drawAll_eq, filterMap_mapIdx fun i s => hg s (ids i)]

/-- Every shape has the identity of its place. -/
theorem ids_drawAll (ids : Nat → ShapeId) (boxes : List (Node α × Box α))
    (edges : List (Edge α × (Box α → Box α → List (Point α)))) (free : List (Style α)) :
    (drawAll ids boxes edges free).map Shape.id =
      (List.range (drawAll ids boxes edges free).length).map ids := by
  rw [drawAll_eq]
  refine List.ext_getElem (by simp) fun i hi hi' => ?_
  simp

/-! ## Plans -/

/-- Where things are drawn: the boxes of nodes, and the way of each edge, by its number, from
one box to another. -/
structure Plan (α : Type) where
  box : Node α → Box α
  way : Nat → Box α → Box α → List (Point α)

/-- The shapes of a document by a plan. -/
def Document.draw (ids : Nat → ShapeId) (d : Document α) (p : Plan α) : List (Shape α) :=
  drawAll ids (d.nodes.map fun n => (n, p.box n)) (d.edges.mapIdx fun i e => (e, p.way i))
    d.freeArrows

/-- What the shapes of a document have in common, part by part. -/
theorem map_draw {γ : Type} {g : Shape α → γ} (hg : ∀ s id, g (s.withId id) = g s)
    (ids : Nat → ShapeId) (d : Document α) (p : Plan α) :
    (d.draw ids p).map g =
      d.nodes.map (fun n => g (nodeShape default n (p.box n))) ++
        ((d.edges.mapIdx fun i e => (e, p.way i)).filterMap (fun e =>
            (drawEdge? (drawNodes ids (d.nodes.map fun n => (n, p.box n))).1 e.2 e.1).map
              fun shape => g (shape default)) ++
          d.freeArrows.filterMap fun s =>
            (freeArrowShape? s).map fun shape => g (shape default)) := by
  rw [Document.draw, map_drawAll hg, bodies]
  simp only [List.map_append, List.map_filterMap, List.map_map, Option.map_map, Function.comp_def]

/-- Nodes stand where they say, and edges run from centre to centre. -/
def Plan.stated : Plan α := ⟨Node.statedBox, fun _ => centerLine⟩

theorem drawPlaced_eq (ids : Nat → ShapeId) (d : Document α) :
    d.drawPlaced ids = d.draw ids .stated := by
  have hedges : d.edges.mapIdx (fun i e => (e, Plan.stated.way i)) =
      d.edges.map fun e => (e, (centerLine : Box α → Box α → List (Point α))) := by
    refine List.ext_getElem (by simp) fun i _ _ => ?_
    rw [List.getElem_mapIdx, List.getElem_map]
    rfl
  rw [Document.drawPlaced, Document.draw, hedges]
  rfl

/-! ## Answers of an engine -/

/-- The four numbers of a box are finite. -/
structure Box.IsFinite (b : Box α) : Prop where
  x : Scalar.isFinite b.x
  y : Scalar.isFinite b.y
  width : Scalar.isFinite b.width
  height : Scalar.isFinite b.height

theorem isFinite_iff (b : Box α) :
    b.IsFinite ↔ [b.x, b.y, b.width, b.height].all Scalar.isFinite := by
  simp only [List.all_cons, List.all_nil, Bool.and_true, Bool.and_eq_true]
  exact ⟨fun h => ⟨h.x, h.y, h.width, h.height⟩, fun ⟨hx, hy, hw, hh⟩ => ⟨hx, hy, hw, hh⟩⟩

namespace LayoutResult

/-- The entry that an answer has for a node: of several the last. -/
def placed? (r : LayoutResult α) (id : String) : Option (PlacedNode α) :=
  (r.nodes.filter fun n => n.id == id).getLast?

omit [Scalar α] in
theorem find?_reverse_eq (r : LayoutResult α) (id : String) :
    r.nodes.reverse.find? (fun n => n.id == id) = r.placed? id := by
  rw [placed?, ← List.head?_filter, List.filter_reverse, List.head?_reverse]

/-- A node can be drawn when the answer has an entry for it that is finite. -/
theorem boxOf_eq_ok_iff {r : LayoutResult α} {id : String} {b : Box α} :
    r.boxOf id = .ok b ↔ ∃ n, r.placed? id = some n ∧ n.box = b ∧ b.IsFinite := by
  rw [boxOf, find?_reverse_eq]
  cases hentry : r.placed? id with
  | none => simp
  | some n =>
    simp only [Option.some.injEq]
    split
    · next h =>
      rw [← isFinite_iff] at h
      simp only [Except.ok.injEq]
      exact ⟨fun hb => ⟨n, rfl, hb, hb ▸ h⟩, fun ⟨m, hm, hb, _⟩ => hm ▸ hb⟩
    · next h =>
      rw [← isFinite_iff] at h
      simp only [reduceCtorEq, false_iff]
      rintro ⟨m, rfl, rfl, hfinite⟩
      exact h hfinite

/-- The plan that an answer stands for.  Nodes without a finite entry are not drawn. -/
def plan (r : LayoutResult α) : Plan α where
  box n := ((r.placed? n.id).map PlacedNode.box).getD n.statedBox
  way := r.pathOf

theorem box_plan {r : LayoutResult α} {n : Node α} {p : PlacedNode α}
    (h : r.placed? n.id = some p) : r.plan.box n = p.box := by
  simp only [plan, h]
  rfl

theorem boxOf_eq_plan {r : LayoutResult α} {n : Node α} {b : Box α} (h : r.boxOf n.id = .ok b) :
    r.plan.box n = b := by
  obtain ⟨m, hm, hb, -⟩ := boxOf_eq_ok_iff.mp h
  rw [box_plan hm, hb]

/-- An answer has a finite entry for each of some nodes. -/
def Covers (r : LayoutResult α) (ns : List (Node α)) : Prop :=
  ∀ n ∈ ns, ∃ p, r.placed? n.id = some p ∧ p.box.IsFinite

@[simp] theorem covers_cons {r : LayoutResult α} {n : Node α} {ns : List (Node α)} :
    r.Covers (n :: ns) ↔ (∃ b, r.boxOf n.id = .ok b) ∧ r.Covers ns := by
  simp only [Covers, List.forall_mem_cons, boxOf_eq_ok_iff]
  refine and_congr_left fun _ => ?_
  constructor
  · rintro ⟨p, hp, hfinite⟩
    exact ⟨p.box, p, hp, rfl, hfinite⟩
  · rintro ⟨_, p, hp, rfl, hfinite⟩
    exact ⟨p, hp, hfinite⟩

/-- The boxes that an answer gives to some nodes. -/
theorem boxes_eq_ok_iff {r : LayoutResult α} {ns : List (Node α)} {boxes : List (Node α × Box α)} :
    ns.mapM (fun n => (r.boxOf n.id).map (n, ·)) = .ok boxes ↔
      r.Covers ns ∧ boxes = ns.map fun n => (n, r.plan.box n) := by
  induction ns generalizing boxes with
  | nil => simp [Covers, pure, Except.pure, eq_comm]
  | cons n ns ih =>
    rw [List.mapM_cons, covers_cons]
    cases hbox : r.boxOf n.id with
    | error e => simp [Except.map, bind, Except.bind]
    | ok b =>
      cases hrest : ns.mapM fun n => (r.boxOf n.id).map (n, ·) with
      | error e =>
        have hnot : ¬ r.Covers ns := fun h => by
          have hok := ih.mpr ⟨h, rfl⟩
          rw [hrest] at hok
          cases hok
        simp [Except.map, bind, Except.bind, hnot]
      | ok rest =>
        obtain ⟨hcovers, rfl⟩ := ih.mp hrest
        simp [Except.map, bind, Except.bind, pure, Except.pure, hcovers, boxOf_eq_plan hbox,
          eq_comm]

end LayoutResult

/-- **An answer is drawn by the plan it stands for, when it covers the nodes.** -/
theorem drawResult_eq_ok_iff {ids : Nat → ShapeId} {d : Document α} {r : LayoutResult α}
    {shapes : List (Shape α)} :
    d.drawResult ids r = .ok shapes ↔ r.Covers d.nodes ∧ d.draw ids r.plan = shapes := by
  rw [Document.drawResult]
  cases hboxes : d.nodes.mapM fun n => (r.boxOf n.id).map (n, ·) with
  | error e =>
    have hnot : ¬ r.Covers d.nodes := fun h => by
      have hok := LayoutResult.boxes_eq_ok_iff.mpr ⟨h, rfl⟩
      rw [hboxes] at hok
      cases hok
    simp [bind, Except.bind, hnot]
  | ok boxes =>
    obtain ⟨hcovers, rfl⟩ := LayoutResult.boxes_eq_ok_iff.mp hboxes
    simp only [hcovers, true_and]
    change Except.ok (d.draw ids r.plan) = Except.ok shapes ↔ _
    rw [Except.ok.injEq]

/-- An answer cannot be drawn when a node has no entry, or none that is finite. -/
theorem drawResult_eq_error_iff {ids : Nat → ShapeId} {d : Document α} {r : LayoutResult α} :
    (∃ e, d.drawResult ids r = .error e) ↔ ¬ r.Covers d.nodes := by
  constructor
  · rintro ⟨e, he⟩ hcovers
    rw [drawResult_eq_ok_iff.mpr ⟨hcovers, rfl⟩] at he
    cases he
  · intro hnot
    cases hdraw : d.drawResult ids r with
    | error e => exact ⟨e, rfl⟩
    | ok shapes => exact absurd (drawResult_eq_ok_iff.mp hdraw).1 hnot

/-! ## Drawing with an engine -/

omit [Scalar α] in
/-- A document is placed when all its nodes state both coordinates. -/
theorem isPlaced_iff {d : Document α} :
    d.isPlaced ↔ ∀ n ∈ d.nodes, n.style.x.isSome ∧ n.style.y.isSome := by
  rw [Document.isPlaced, List.all_eq_true]
  refine forall₂_congr fun n _ => ?_
  rw [Style.position]
  cases n.style.x <;> cases n.style.y <;> simp

/-- What becomes of the answer of an engine. -/
def Document.judge (ids : Nat → ShapeId) (d : Document α) :
    Except LayoutError (LayoutResult α) → Except CompileError (List (Shape α))
  | .ok r => d.drawResult ids r
  | .error e => .error (.layout e)

/-- A placed document is drawn as it says, and no engine is asked. -/
theorem compileIn_of_isPlaced {m : Type → Type} [Monad m] (engine : Engine m α)
    (ids : Nat → ShapeId) {d : Document α} (h : d.isPlaced) (o : Options α) :
    d.compileIn engine ids o = pure (.ok (d.draw ids .stated)) := by
  rw [Document.compileIn, Document.request?, if_pos h, drawPlaced_eq]

/-- Any other document is drawn by the answer of the engine, which is asked once. -/
theorem compileIn_of_not_isPlaced {m : Type → Type} [Monad m] [LawfulMonad m]
    (engine : Engine m α) (ids : Nat → ShapeId) {d : Document α} (h : ¬ d.isPlaced)
    (o : Options α) :
    d.compileIn engine ids o = d.judge ids <$> engine d.layoutGraph (d.effectiveOptions o) := by
  rw [Document.compileIn, Document.request?, if_neg h, map_eq_pure_bind]
  refine congrArg (_ >>= ·) (funext fun answer => ?_)
  cases answer <;> rfl

/-- The plan of a document, given the answer that the engine has for it. -/
inductive Document.IsPlan (d : Document α) (answer : Except LayoutError (LayoutResult α)) :
    Plan α → Prop
  | stated (h : d.isPlaced) : d.IsPlan answer .stated
  | answered (h : ¬ d.isPlaced) {r : LayoutResult α} (hr : answer = .ok r)
      (hcovers : r.Covers d.nodes) : d.IsPlan answer r.plan

/-- **What is drawn is drawn by a plan**, whatever state the engine keeps. -/
theorem exists_plan {σ : Type} {engine : Engine (StateM σ) α} {ids : Nat → ShapeId}
    {d : Document α} {o : Options α} {s : σ} {shapes : List (Shape α)}
    (h : ((d.compileIn engine ids o).run s).1 = .ok shapes) :
    ∃ p, d.IsPlan ((engine d.layoutGraph (d.effectiveOptions o)).run s).1 p ∧
      d.draw ids p = shapes := by
  by_cases hplaced : d.isPlaced
  · rw [compileIn_of_isPlaced engine ids hplaced] at h
    exact ⟨.stated, .stated hplaced, Except.ok.inj h⟩
  · rw [compileIn_of_not_isPlaced engine ids hplaced] at h
    change d.judge ids ((engine d.layoutGraph (d.effectiveOptions o)).run s).1 = _ at h
    cases hanswer : ((engine d.layoutGraph (d.effectiveOptions o)).run s).1 with
    | error e =>
      rw [hanswer] at h
      cases h
    | ok r =>
      rw [hanswer] at h
      obtain ⟨hcovers, hdraw⟩ := drawResult_eq_ok_iff.mp h
      exact ⟨r.plan, .answered hplaced rfl hcovers, hdraw⟩

end Drawing

end Diagram
