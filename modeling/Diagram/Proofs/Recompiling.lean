import Diagram.Drawing.Compile
import Diagram.Proofs.Decompiling
import Diagram.Proofs.RoundTrip

/-!
# Shapes behind their own text

A text that says where its nodes are is drawn without a layout engine.  When it was written
for shapes on whole coordinates, the nodes are drawn as the same rectangles and ellipses at
the same places, also where a size was left out of the text.
-/

namespace Diagram

variable {α : Type}

/-! ## Frames -/

/-- A rectangle or an ellipse, apart from its paint. -/
structure Frame (α : Type) where
  isEllipse : Bool
  box : Box α
  label : Option String
  deriving DecidableEq

/-- The frame of a rectangle or an ellipse. -/
def Shape.frame? (s : Shape α) : Option (Frame α) :=
  match s.figure with
  | .rectangle w h _ label => some ⟨false, ⟨s.x, s.y, w, h⟩, label⟩
  | .ellipse w h label => some ⟨true, ⟨s.x, s.y, w, h⟩, label⟩
  | _ => none

/-- The rectangles and the ellipses among some shapes. -/
def frames (shapes : List (Shape α)) : List (Frame α) := shapes.filterMap Shape.frame?

theorem frame?_of_isConnector {s : Shape α} (h : s.figure.isConnector) : s.frame? = none := by
  rw [Shape.frame?]
  cases hs : s.figure <;> rw [hs] at h <;> first | rfl | cases h

/-- What numbered values have in common does not depend on their numbers. -/
theorem map_mapIdx {β γ δ : Type} {f : Nat → β → γ} {g : γ → δ} {h : β → δ}
    (hg : ∀ i x, g (f i x) = h x) (xs : List β) : (xs.mapIdx f).map g = xs.map h := by
  refine List.ext_getElem (by simp) fun i _ _ => ?_
  simp [hg]

/-! ## What is drawn -/

section Drawing

variable [Scalar α]

/-- The frame of a node in a box. -/
def Node.frame (n : Node α) (b : Box α) : Frame α :=
  ⟨n.shapeOrDefault == .circle, b, n.label⟩

@[simp] theorem frame?_nodeShape (id : ShapeId) (n : Node α) (b : Box α) :
    (nodeShape id n b).frame? = some (n.frame b) := by
  rw [Node.frame]
  cases hs : n.shapeOrDefault <;>
    simp only [nodeShape, nodeFigure, hs, Shape.new, Shape.frame?] <;> rfl

theorem isConnector_edgeShape (id : ShapeId) (e : Edge α) (points : List (Point α))
    (source target : ShapeId) : (edgeShape id e points source target).figure.isConnector := by
  simp only [edgeShape, Shape.connector]
  cases headsOf e.arrow <;> rfl

theorem isConnector_of_drawEdge? {ds : List (Drawn α)} {path : Box α → Box α → List (Point α)}
    {e : Edge α} {shape : ShapeId → Shape α} (h : drawEdge? ds path e = some shape) (id : ShapeId) :
    (shape id).figure.isConnector := by
  simp only [drawEdge?, Option.bind_eq_bind, Option.bind_eq_some_iff] at h
  obtain ⟨source, -, target, -, hshape⟩ := h
  cases hshape
  exact isConnector_edgeShape ..

theorem isConnector_of_freeArrowShape? {s : Style α} {shape : ShapeId → Shape α}
    (h : freeArrowShape? s = some shape) (id : ShapeId) : (shape id).figure.isConnector := by
  simp only [freeArrowShape?, Option.bind_eq_bind, Option.bind_eq_some_iff] at h
  obtain ⟨x1, -, y1, -, x2, -, y2, -, hshape⟩ := h
  cases hshape
  rfl

theorem frames_drawNodes (ids : Nat → ShapeId) (boxes : List (Node α × Box α)) :
    frames (drawNodes ids boxes).2 = boxes.map fun b => b.1.frame b.2 :=
  calc frames (drawNodes ids boxes).2
    _ = ((drawNodes ids boxes).2.map Shape.frame?).filterMap id := by
      rw [frames, List.filterMap_map, Function.id_comp]
    _ = (boxes.map fun b => some (b.1.frame b.2)).filterMap id := by
      rw [drawNodes, map_mapIdx fun i b => frame?_nodeShape (ids i) b.1 b.2]
    _ = boxes.map fun b => b.1.frame b.2 := by
      rw [List.filterMap_map]
      exact congrFun List.filterMap_eq_map boxes

/-- **The rectangles and the ellipses that are drawn are the nodes in their boxes.**  Edges and
free arrows are drawn as neither. -/
theorem frames_drawAll (ids : Nat → ShapeId) (boxes : List (Node α × Box α))
    (edges : List (Edge α × (Box α → Box α → List (Point α)))) (free : List (Style α)) :
    frames (drawAll ids boxes edges free) = boxes.map fun b => b.1.frame b.2 := by
  have hnodes := frames_drawNodes ids boxes
  rw [frames] at hnodes ⊢
  rw [drawAll, List.filterMap_append, hnodes]
  refine List.append_right_eq_self.mpr (List.filterMap_eq_nil_iff.mpr fun s hs => ?_)
  obtain ⟨i, hi, rfl⟩ := List.mem_mapIdx.mp hs
  apply frame?_of_isConnector
  rcases List.mem_append.mp (List.getElem_mem hi) with hedge | hfree
  · obtain ⟨e, -, h⟩ := List.mem_filterMap.mp hedge
    exact isConnector_of_drawEdge? h _
  · obtain ⟨style, -, h⟩ := List.mem_filterMap.mp hfree
    exact isConnector_of_freeArrowShape? h _

end Drawing

/-! ## Nodes behind frames -/

section Inference

/-- The frame of the shape behind a node. -/
def Candidate.frame (c : Candidate α) : Frame α :=
  ⟨c.shape.figure.nodeShape == .circle, c.box, c.shape.label⟩

theorem frame?_eq (s : Shape α) : s.frame? = s.bounds.map fun b =>
    ⟨s.figure.nodeShape == .circle, b, s.label⟩ := by
  rw [Shape.frame?, Shape.bounds, Shape.label]
  cases s.figure <;> rfl

/-- The nodes behind some shapes stand for all rectangles and ellipses among them. -/
theorem frames_eq (shapes : List (Shape α)) :
    frames shapes = (candidates shapes).map Candidate.frame := by
  have hcandidates := map_mapIdx (g := Candidate.frame)
    (f := fun i (p : Shape α × Box α) => ⟨generatedId i, p.2, p.1⟩)
    (h := fun p => ⟨p.1.figure.nodeShape == .circle, p.2, p.1.label⟩) (fun _ _ => rfl)
    (shapes.filterMap fun s => s.bounds.map (s, ·))
  rw [candidates, hcandidates, List.map_filterMap, frames]
  simp only [frame?_eq, Option.map_map, Function.comp_def]

end Inference

/-! ## Whole coordinates -/

/-- A whole number is its own nearest whole number. -/
theorem IsWhole.unsigned_round {v : Float} (h : IsWhole v) :
    Scalar.unsigned (Scalar.round v) = Scalar.unsigned v := by
  obtain ⟨n, hn, hv⟩ := h
  rw [Scalar.round]
  split
  · rw [nearest_of_whole hn hv, unsigned_intCast, hv]
  · rfl

/-- A whole number is read back from the text that is written behind a shape. -/
theorem IsWhole.reread_round {v : Float} (h : IsWhole v) :
    Scalar.reread (Scalar.round v) = Scalar.unsigned v := by
  have hround := h.unsigned_round
  obtain ⟨n, hn, hv⟩ := h
  rw [reread_of_whole hn (hround.trans hv), hround]

/-- A box on whole coordinates of at most `2 ^ 53`. -/
structure Box.IsWhole (b : Box Float) : Prop where
  x : Diagram.IsWhole b.x
  y : Diagram.IsWhole b.y
  width : Diagram.IsWhole b.width
  height : Diagram.IsWhole b.height

/-- A box, with the sign of every zero forgotten. -/
def Box.unsigned [Scalar α] (b : Box α) : Box α :=
  ⟨Scalar.unsigned b.x, Scalar.unsigned b.y, Scalar.unsigned b.width, Scalar.unsigned b.height⟩

/-- A frame, as a text says it: without the sign of a zero, and with apostrophes for the
quotes in its label. -/
def Frame.written [Scalar α] (o : Frame α) : Frame α :=
  { o with box := o.box.unsigned, label := o.label.map labelText }

theorem defaultSize_bounds (s : NodeShape) : (0 < s.defaultSize.1 ∧ s.defaultSize.1 < 2 ^ 53) ∧
    0 < s.defaultSize.2 ∧ s.defaultSize.2 < 2 ^ 53 := by
  cases s <;> decide

/-- A size that is left out of the text is the one that is drawn without it. -/
theorem unsigned_of_same_round {v : Float} {n : Nat} (hv : IsWhole v) (h0 : 0 < n)
    (hn : n < 2 ^ 53) (h : Scalar.same (Scalar.round v) (Scalar.ofNat n)) :
    Scalar.unsigned v = Scalar.ofNat n := by
  rw [← hv.unsigned_round, eq_of_same_ofNat h0 hn h, unsigned_intCast]

/-- The size that the text behind a shape says or leaves out. -/
theorem size_reread {c : Candidate Float} (h : c.box.IsWhole) (positions : Bool) :
    (c.node positions).reread.size =
      (Scalar.unsigned c.box.width, Scalar.unsigned c.box.height) := by
  have hwidth : (c.node positions).reread.style.width =
      (c.style positions).width.map Scalar.reread := Style.number_reread _ .width
  have hheight : (c.node positions).reread.style.height =
      (c.style positions).height.map Scalar.reread := Style.number_reread _ .height
  have hshape : (c.node positions).reread.shapeOrDefault = c.shape.figure.nodeShape := rfl
  rw [Node.size, hshape, hwidth, hheight, Candidate.style]
  obtain ⟨⟨hw0, hw⟩, hh0, hh⟩ := defaultSize_bounds c.shape.figure.nodeShape
  simp only [Bool.not_eq_true', Bool.and_eq_false_iff]
  -- Both sizes are said or both are left out, the latter only when both are the default.
  split
  · simp [h.width.reread_round, h.height.reread_round]
  · next hsame =>
    rw [not_or, Bool.not_eq_false, Bool.not_eq_false] at hsame
    rw [unsigned_of_same_round h.width hw0 hw hsame.1,
      unsigned_of_same_round h.height hh0 hh hsame.2]
    rfl

theorem x_reread [Scalar α] (c : Candidate α) :
    (c.node true).reread.style.x = some (Scalar.reread (Scalar.round c.box.x)) :=
  Style.number_reread (c.style true) .x

theorem y_reread [Scalar α] (c : Candidate α) :
    (c.node true).reread.style.y = some (Scalar.reread (Scalar.round c.box.y)) :=
  Style.number_reread (c.style true) .y

/-- The box that the text behind a shape states is the shape's own. -/
theorem statedBox_reread {c : Candidate Float} (h : c.box.IsWhole) :
    (c.node true).reread.statedBox = c.box.unsigned := by
  rw [Node.statedBox, size_reread h, x_reread, y_reread, Option.getD_some, Option.getD_some,
    h.x.reread_round, h.y.reread_round]
  rfl

theorem frame_reread {c : Candidate Float} (h : c.box.IsWhole) :
    (c.node true).reread.frame (c.node true).reread.statedBox = c.frame.written := by
  rw [statedBox_reread h]
  rfl

/-! ## Drawing in place -/

theorem isPlaced_decompile [Metric α] (shapes : List (Shape α)) :
    (Document.ofText (decompile true shapes) : Document α).isPlaced := by
  rw [Document.isPlaced, ofText_decompile_eq, Document.nodes_ofGraph, List.all_eq_true,
    List.forall_mem_map]
  intro c _
  rw [Style.position, x_reread, y_reread]
  rfl

/-- **Shapes on whole coordinates are drawn in place.**  The text that is written for them with
their places is drawn with the same rectangles and ellipses in the same order, by whichever
engine, and the engine is not asked. -/
theorem compileIn_decompile (ids : Nat → ShapeId) (o : Options Float) {shapes : List (Shape Float)}
    (h : ∀ f ∈ frames shapes, f.box.IsWhole) :
    ∃ drawn, frames drawn = (frames shapes).map Frame.written ∧
      ∀ (m : Type → Type) [Monad m] (engine : Engine m Float),
        (Document.ofText (decompile true shapes)).compileIn engine ids o = pure (.ok drawn) := by
  refine ⟨(Document.ofText (decompile true shapes)).drawPlaced ids, ?_, fun m _ engine => ?_⟩
  · rw [Document.drawPlaced, frames_drawAll, ofText_decompile_eq, Document.nodes_ofGraph]
    rw [frames_eq, List.forall_mem_map] at h
    simp only [frames_eq, List.map_map]
    exact List.map_congr_left fun c hc => frame_reread (h c hc)
  · rw [Document.compileIn, Document.request?, if_pos (isPlaced_decompile shapes)]

/-- A rectangle of default size with quotes in its label, an arrow, and an ellipse. -/
theorem compileIn_decompile_quoted :
    let shapes : List (Shape Float) :=
      [.new ⟨1⟩ (40 : Int) (-10 : Int)
          (.rectangle (120 : Int) (60 : Int) (4 : Int) (some "say \"hi\"")),
        .connector ⟨2⟩ [⟨(100 : Int), (50 : Int)⟩, ⟨(100 : Int), (150 : Int)⟩] (some (false, true)),
        .new ⟨3⟩ (60 : Int) (150 : Int) (.ellipse (80 : Int) (200 : Int) none)]
    let engine : Engine (StateM Nat) Float := fun _ _ => do
      modify (· + 1)
      return .error (.engine "out of order")
    (∀ f ∈ frames shapes, f.box.IsWhole) ∧
      ∃ drawn : List (Shape Float), frames drawn =
          [⟨false, ⟨(40 : Int), (-10 : Int), (120 : Int), (60 : Int)⟩, some "say 'hi'"⟩,
            ⟨true, ⟨(60 : Int), (150 : Int), (80 : Int), (200 : Int)⟩, none⟩] ∧
        (Document.ofText (decompile true shapes)).compileIn engine (ShapeId.random 7) .default =
          pure (.ok drawn) := by
  intro shapes engine
  have hshapes : frames shapes =
      [⟨false, ⟨(40 : Int), (-10 : Int), (120 : Int), (60 : Int)⟩, some "say \"hi\""⟩,
        ⟨true, ⟨(60 : Int), (150 : Int), (80 : Int), (200 : Int)⟩, none⟩] := rfl
  have hwhole : ∀ f ∈ frames shapes, f.box.IsWhole := by
    rw [hshapes]
    simp only [List.forall_mem_cons, List.not_mem_nil, false_implies, implies_true, and_true]
    constructor <;> constructor <;> exact isWhole_intCast (by decide)
  obtain ⟨drawn, hframes, hdrawn⟩ := compileIn_decompile (ShapeId.random 7) .default hwhole
  refine ⟨hwhole, drawn, ?_, hdrawn _ engine⟩
  have hlabel : labelText "say \"hi\"" = "say 'hi'" := by decide
  rw [hframes, hshapes]
  simp only [List.map_cons, List.map_nil, Frame.written, Box.unsigned, unsigned_intCast,
    Option.map_some, Option.map_none, hlabel]

end Diagram
