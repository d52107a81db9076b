import Diagram.Layout.Arrange
import Diagram.Proofs.Engines
import Diagram.Proofs.Graph

/-!
# What the arrangements leave out: nothing

An arrangement gives a centre to every node and bends to every edge, by whichever algorithm it
is made.  So no list is cut short when centres are paired with nodes and bends with edges: the
engine that comes with the library answers with an entry for every node and every edge of a graph,
in order, unless an edge ends at a name that no node has or the centre of a node is not a point
of the plane.

The edges of a document that was read from a text end at its nodes, so only the second can happen
to it.
-/

namespace Diagram

variable {α : Type}

/-! ## Steps that can fail -/

/-- Steps that are taken one after the other all succeed, or one of them fails and its failure is
that of the whole. -/
theorem mapM_except_cases {β γ ε : Type} (f : β → Except ε γ) (xs : List β) :
    (∃ ys, xs.mapM f = .ok ys ∧ List.Forall₂ (fun x y => f x = .ok y) xs ys) ∨
      ∃ x ∈ xs, ∃ e, f x = .error e ∧ xs.mapM f = .error e := by
  induction xs with
  | nil => exact .inl ⟨[], rfl, .nil⟩
  | cons x xs ih =>
    rw [List.mapM_cons]
    cases hx : f x with
    | error e => exact .inr ⟨x, List.mem_cons_self, e, hx, rfl⟩
    | ok y =>
      obtain ⟨ys, hys, hall⟩ | ⟨z, hz, e, he, herror⟩ := ih
      · rw [hys]
        exact .inl ⟨y :: ys, rfl, .cons hx hall⟩
      · rw [herror]
        exact .inr ⟨z, List.mem_cons_of_mem x hz, e, he, rfl⟩

/-! ## Links -/

theorem indexOf?_eq_some {nodes : List (SizedNode α)} {id : String} {i : Nat}
    (h : indexOf? nodes id = some i) : (nodes.map SizedNode.id)[i]? = some id := by
  obtain ⟨⟨n, j⟩, hfind, rfl⟩ := Option.map_eq_some_iff.mp h
  have hmem := List.mem_reverse.mp (List.mem_of_find?_eq_some hfind)
  have hid := List.find?_some hfind
  rw [List.mem_zipIdx_iff_getElem?] at hmem
  simp only [beq_iff_eq] at hid
  rw [List.getElem?_map, hmem, Option.map_some, hid]

theorem exists_of_indexOf? {nodes : List (SizedNode α)} {id : String} {i : Nat}
    (h : indexOf? nodes id = some i) : ∃ n, nodes[i]? = some n ∧ n.id = id :=
  Option.map_eq_some_iff.mp (List.getElem?_map.symm.trans (indexOf?_eq_some h))

theorem exists_indexOf? {nodes : List (SizedNode α)} {id : String}
    (h : id ∈ nodes.map SizedNode.id) : ∃ i, indexOf? nodes id = some i := by
  obtain ⟨n, hn, rfl⟩ := List.mem_map.mp h
  obtain ⟨i, hi⟩ := List.getElem?_of_mem hn
  cases hfind : nodes.zipIdx.reverse.find? fun m => m.1.id == n.id with
  | some m => exact ⟨m.2, by rw [indexOf?, hfind, Option.map_some]⟩
  | none =>
    have hmem : (n, i) ∈ nodes.zipIdx.reverse :=
      List.mem_reverse.mpr (List.mem_zipIdx_iff_getElem?.mpr hi)
    exact absurd (beq_self_eq_true n.id) (List.find?_eq_none.mp hfind _ hmem)

/-- Every edge of a graph ends at names of nodes. -/
def LayoutGraph.IsClosed (g : LayoutGraph α) : Prop :=
  ∀ e ∈ g.edges, e.source ∈ g.nodes.map SizedNode.id ∧ e.target ∈ g.nodes.map SizedNode.id

/-- The sizes of a graph's nodes, and its edges as positions of the nodes they name. -/
structure Topology.IsOf (t : Topology α) (g : LayoutGraph α) : Prop where
  sizes : t.sizes = g.nodes.map fun n => (n.width, n.height)
  links : List.Forall₂ (fun e link => indexOf? g.nodes e.source = some link.1 ∧
    indexOf? g.nodes e.target = some link.2) g.edges t.links

namespace Topology.IsOf

variable {t : Topology α} {g : LayoutGraph α}

theorem size_eq (h : t.IsOf g) : t.size = g.nodes.length := by
  rw [size, h.sizes, List.length_map]

/-- The links join positions of nodes. -/
theorem lt_size (h : t.IsOf g) {link : Nat × Nat} (hlink : link ∈ t.links) :
    link.1 < t.size ∧ link.2 < t.size := by
  obtain ⟨i, hi, rfl⟩ := List.getElem_of_mem hlink
  have hlt : i < g.edges.length := by rwa [h.links.length_eq]
  obtain ⟨hs, ht⟩ := (List.forall₂_iff_get.mp h.links).2 i hlt hi
  have hs := (List.getElem?_eq_some_iff.mp (indexOf?_eq_some hs)).1
  have ht := (List.getElem?_eq_some_iff.mp (indexOf?_eq_some ht)).1
  rw [List.length_map, ← h.size_eq] at hs ht
  exact ⟨hs, ht⟩

theorem getElem?_sizes (h : t.IsOf g) {i : Nat} {n : SizedNode α} (hn : g.nodes[i]? = some n) :
    t.sizes[i]? = some (n.width, n.height) := by
  rw [h.sizes, List.getElem?_map, hn, Option.map_some]

/-- The link of an edge. -/
theorem exists_link (h : t.IsOf g) {k : Nat} {e : GraphEdge} (he : g.edges[k]? = some e) :
    ∃ i j, t.links[k]? = some (i, j) ∧
      indexOf? g.nodes e.source = some i ∧ indexOf? g.nodes e.target = some j := by
  obtain ⟨hk, rfl⟩ := List.getElem?_eq_some_iff.mp he
  have hk' : k < t.links.length := h.links.length_eq ▸ hk
  obtain ⟨hs, ht⟩ := (List.forall₂_iff_get.mp h.links).2 k hk hk'
  exact ⟨_, _, List.getElem?_eq_getElem hk', hs, ht⟩

end Topology.IsOf

/-- What is found of an edge is the pair of positions of its ends. -/
theorem link_eq_ok {g : LayoutGraph α} {e : GraphEdge} {link : Nat × Nat}
    (h : (do
      let source ← endOf g.nodes e.id e.source
      let target ← endOf g.nodes e.id e.target
      return (source, target) : Except LayoutError (Nat × Nat)) = .ok link) :
    indexOf? g.nodes e.source = some link.1 ∧ indexOf? g.nodes e.target = some link.2 := by
  simp only [endOf] at h
  cases hs : indexOf? g.nodes e.source with
  | none => simp [hs, bind, Except.bind] at h
  | some i =>
    cases ht : indexOf? g.nodes e.target with
    | none => simp [hs, ht, bind, Except.bind] at h
    | some j =>
      simp only [hs, ht] at h
      cases h
      exact ⟨rfl, rfl⟩

/-- A closed graph has a topology. -/
theorem exists_topology {g : LayoutGraph α} (h : g.IsClosed) :
    ∃ t, g.topology = .ok t ∧ t.IsOf g := by
  rw [LayoutGraph.topology]
  obtain ⟨links, hlinks, hall⟩ | ⟨e, he, failure, hfailure, -⟩ := mapM_except_cases
    (fun e : GraphEdge => (do
      let source ← endOf g.nodes e.id e.source
      let target ← endOf g.nodes e.id e.target
      return (source, target) : Except LayoutError (Nat × Nat))) g.edges
  · rw [hlinks]
    exact ⟨_, rfl, rfl, hall.imp fun _ _ => link_eq_ok⟩
  · obtain ⟨i, hi⟩ := exists_indexOf? (h e he).1
    obtain ⟨j, hj⟩ := exists_indexOf? (h e he).2
    simp [endOf, hi, hj, bind, Except.bind, pure, Except.pure] at hfailure

/-! ## Centres and bends -/

/-- An arrangement with a centre for every node and bends for every edge. -/
structure Placement.Covers (p : Placement α) (t : Topology α) : Prop where
  centers : p.centers.length = t.size
  bends : p.bends.length = t.links.length

@[simp] theorem length_noBends (t : Topology α) : t.noBends.length = t.links.length :=
  List.length_map _

/-- What every step keeps is kept by all of them. -/
theorem foldl_keeps {β γ δ : Type} {f : β → γ → β} (measure : β → δ)
    (h : ∀ b c, measure (f b c) = measure b) (cs : List γ) (b : β) :
    measure (cs.foldl f b) = measure b := by
  induction cs generalizing b with
  | nil => rfl
  | cons c cs ih => rw [List.foldl_cons, ih, h]

section Arranging

variable [Scalar α]

@[simp] theorem size_separatePair (sizes : Array (α × α)) (gap : α) (st : Array (Point α) × Bool)
    (pair : Nat × Nat) : (separatePair sizes gap st pair).1.size = st.1.size := by
  simp only [separatePair]
  split
  · split <;> simp
  · rfl

@[simp] theorem size_separatePasses (sizes : Array (α × α)) (gap : α) (pairs : List (Nat × Nat))
    (fuel : Nat) (centers : Array (Point α)) :
    (separatePasses sizes gap pairs fuel centers).size = centers.size := by
  induction fuel generalizing centers with
  | zero => rfl
  | succ fuel ih =>
    have hpass := foldl_keeps (Array.size ∘ Prod.fst) (size_separatePair sizes gap) pairs
      (centers, false)
    simp only [separatePasses]
    split
    · rw [ih]
      exact hpass
    · exact hpass

/-- Boxes are moved, none is added or lost. -/
@[simp] theorem length_separate (sizes : List (α × α)) (gap : α) (centers : List (Point α)) :
    (separate sizes gap centers).length = centers.length := by
  simp [separate]

theorem length_virtualChains (layers : List Nat) (next : Nat) (arcs : List Arc) :
    (virtualChains layers next arcs).length = arcs.length := by
  induction arcs generalizing next with
  | nil => rfl
  | cons arc arcs ih => simp [virtualChains, ih]

theorem covers_layered (t : Topology α) (o : Options α) : (layered t o).Covers t where
  centers := by simp [layered]
  bends := by simp [layered, length_virtualChains, reoriented]

theorem covers_grid (t : Topology α) (o : Options α) : (grid t o).Covers t where
  centers := by simp [grid]
  bends := length_noBends t

end Arranging

section Measuring

variable [Metric α]

@[simp] theorem size_repel (k : α) (pos forces : Array (Point α)) (pair : Nat × Nat) :
    (repel k pos forces pair).size = forces.size := by
  simp [repel, addForces]

@[simp] theorem size_attract (k : α) (pos forces : Array (Point α)) (link : Nat × Nat) :
    (attract k pos forces link).size = forces.size := by
  simp only [attract]
  split
  · rfl
  · simp [addForces]

theorem size_relaxForces (k cooling : α) (pairs links : List (Nat × Nat)) (fuel : Nat)
    (temperature : α) (pos : Array (Point α)) :
    (relaxForces k cooling pairs links fuel temperature pos).size = pos.size := by
  induction fuel generalizing temperature pos with
  | zero => rfl
  | succ fuel ih =>
    simp only [relaxForces]
    rw [ih, Array.size_zipWith, foldl_keeps Array.size (size_attract k pos),
      foldl_keeps Array.size (size_repel k pos),
      Array.size_replicate, Nat.min_self]

@[simp] theorem size_settle (ideal : Array (Array α)) (pos : Array (Point α)) (i : Nat) :
    (settle ideal pos i).size = pos.size := by
  simp only [settle]
  split
  · rw [Array.size_setIfInBounds]
  · rfl

@[simp] theorem size_settleAll (ideal : Array (Array α)) (fuel : Nat) (pos : Array (Point α)) :
    (settleAll ideal fuel pos).size = pos.size := by
  induction fuel generalizing pos with
  | zero => rfl
  | succ fuel ih => rw [settleAll, ih, foldl_keeps Array.size (size_settle ideal)]

theorem covers_springs (t : Topology α) (o : Options α) : (springs t o).Covers t where
  centers := by simp [springs, size_relaxForces]
  bends := length_noBends t

theorem covers_stress (t : Topology α) (o : Options α) : (stress t o).Covers t where
  centers := by simp [stress]
  bends := length_noBends t

theorem covers_radial (t : Topology α) (o : Options α) : (radial t o).Covers t where
  centers := by simp [radial]
  bends := length_noBends t

/-- **Every algorithm gives a centre to every node and bends to every edge.** -/
theorem covers_arrange (t : Topology α) (o : Options α) : (arrange t o).Covers t := by
  rw [arrange]
  cases o.algorithm with
  | layered => exact covers_layered t o
  | force => exact covers_springs t o
  | stress => exact covers_stress t o
  | radial => exact covers_radial t o
  | box => exact covers_grid t o

end Measuring

/-! ## Answers -/

section Answering

variable [Scalar α]

theorem covers_normalize {p : Placement α} {t : Topology α} (h : p.Covers t)
    (sizes : List (α × α)) : (p.normalize sizes).Covers t := by
  rw [Placement.normalize]
  split
  · split
    · exact ⟨by rw [List.length_map, h.centers], by rw [List.length_map, h.bends]⟩
    · exact h
  · exact h

/-- The answer for a graph: a box of the asked size for every node, in order, and a route for
every edge, in order, between the boxes of the nodes that it names. -/
structure LayoutResult.Answers (r : LayoutResult α) (g : LayoutGraph α) : Prop where
  nodes : r.nodes.map (fun n => (n.id, n.box.width, n.box.height)) =
    g.nodes.map fun n => (n.id, n.width, n.height)
  edges : List.Forall₂ (fun e routed => ∃ i j a b bends,
    indexOf? g.nodes e.source = some i ∧ indexOf? g.nodes e.target = some j ∧
      r.nodes[i]? = some a ∧ r.nodes[j]? = some b ∧
        routed = ⟨e.id, [if i = j then a.box.loop else routeBetween a.box b.box bends]⟩)
    g.edges r.edges

theorem place_eq_ok {n : SizedNode α} {c : Point α} {m : PlacedNode α} (h : n.place c = .ok m) :
    m = ⟨n.id, n.boxAt c⟩ := by
  rw [SizedNode.place] at h
  split at h
  · exact (Except.ok.inj h).symm
  · cases h

theorem place_eq_error {n : SizedNode α} {c : Point α} {e : LayoutError}
    (h : n.place c = .error e) : e = .nonFinite n.id := by
  rw [SizedNode.place] at h
  split at h
  · cases h
  · exact (Except.error.inj h).symm

/-- Placed nodes are the nodes, each with the size that it has. -/
theorem map_placed {nodes : List (SizedNode α)} {centers : List (Point α)}
    {placed : List (PlacedNode α)} (hlength : centers.length = nodes.length)
    (h : List.Forall₂ (fun nc m => nc.1.place nc.2 = .ok m) (nodes.zip centers) placed) :
    placed.map (fun n => (n.id, n.box.width, n.box.height)) =
      nodes.map fun n => (n.id, n.width, n.height) := by
  have hsize : placed.length = nodes.length := by
    rw [← h.length_eq, List.length_zip, hlength, Nat.min_self]
  refine List.ext_getElem (by simp [hsize]) fun i hi hi' => ?_
  have hplaced := (List.forall₂_iff_get.mp h).2 i (by simp at hi'; simp; omega)
    (by simpa using hi)
  simp only [List.get_eq_getElem, List.getElem_zip] at hplaced
  simp only [List.getElem_map]
  rw [place_eq_ok hplaced]
  rfl

/-- A route runs between the boxes of the placed nodes that the edge names. -/
theorem routeEdge_eq {placed : List (PlacedNode α)} {a b : PlacedNode α} {link : Nat × Nat}
    (ha : placed[link.1]? = some a) (hb : placed[link.2]? = some b) (e : GraphEdge)
    (bends : List (Point α)) :
    routeEdge (placed.map PlacedNode.box).toArray e link bends =
      ⟨e.id, [if link.1 = link.2 then a.box.loop else routeBetween a.box b.box bends]⟩ := by
  simp [routeEdge, Array.getD_eq_getD_getElem?, ha, hb]

/-- **An arrangement that leaves nothing out becomes an answer**, when every centre is a point of
the plane. -/
theorem realize_cases {p : Placement α} {g : LayoutGraph α} {t : Topology α} (ht : t.IsOf g)
    (hp : p.Covers t) : (∃ r, p.realize g t = .ok r ∧ r.Answers g) ∨
      ∃ n ∈ g.nodes, p.realize g t = .error (.nonFinite n.id) := by
  have hcovers := covers_normalize hp t.sizes
  simp only [Placement.realize]
  generalize p.normalize t.sizes = q at hcovers
  obtain ⟨placed, hplaced, hall⟩ | ⟨⟨n, c⟩, hmem, e, he, herror⟩ := mapM_except_cases
    (fun nc : SizedNode α × Point α => nc.1.place nc.2) (g.nodes.zip q.centers)
  · have hnodes := map_placed (by rw [hcovers.centers, ht.size_eq]) hall
    rw [hplaced]
    refine .inl ⟨_, rfl, hnodes, List.forall₂_iff_get.mpr ⟨?_, fun i hi hi' => ?_⟩⟩
    · simp [hcovers.bends, ht.links.length_eq]
    · have hlink : i < t.links.length := ht.links.length_eq ▸ hi
      obtain ⟨hs, htarget⟩ := (List.forall₂_iff_get.mp ht.links).2 i hi hlink
      have hlength : placed.length = t.size := by
        simpa [ht.size_eq] using congrArg List.length hnodes
      have hbends : i < q.bends.length := hcovers.bends ▸ hlink
      have hlt := ht.lt_size (List.getElem_mem hlink)
      rw [← hlength] at hlt
      have ha := List.getElem?_eq_getElem hlt.1
      have hb := List.getElem?_eq_getElem hlt.2
      refine ⟨_, _, _, _, q.bends[i], hs, htarget, ha, hb, ?_⟩
      simp only [List.get_eq_getElem, List.getElem_map, List.getElem_zip]
      exact routeEdge_eq ha hb ..
  · rw [herror, place_eq_error he]
    exact .inr ⟨n, (List.of_mem_zip hmem).1, rfl⟩

end Answering

/-! ## Layouts -/

section LayingOut

variable [Metric α]

/-- A graph that has a topology is laid out by its arrangement. -/
theorem layOut_eq_realize {g : LayoutGraph α} {t : Topology α} (ht : g.topology = .ok t)
    (o : Options α) : layOut g o = (arrange t o).realize g t := by
  rw [layOut, ht]
  rfl

/-- **A closed graph is laid out, whatever the algorithm, or the centre of a node is not a point
of the plane.** -/
theorem layOut_cases {g : LayoutGraph α} (h : g.IsClosed) (o : Options α) :
    (∃ r, layOut g o = .ok r ∧ r.Answers g) ∨
      ∃ n ∈ g.nodes, layOut g o = .error (.nonFinite n.id) := by
  obtain ⟨t, ht, hof⟩ := exists_topology h
  rw [layOut_eq_realize ht]
  exact realize_cases hof (covers_arrange t o)

/-- A document that is a graph hands a closed graph to the engine. -/
theorem Document.IsGraph.isClosed {d : Document α} (h : d.IsGraph) : d.layoutGraph.IsClosed := by
  have hids : d.layoutGraph.nodes.map SizedNode.id = d.nodeIds := by
    simp [Document.layoutGraph, Document.nodeIds, SizedNode.ofNode, Function.comp_def]
  intro e he
  rw [hids]
  obtain ⟨i, hi, rfl⟩ := List.mem_mapIdx.mp he
  exact h.ends _ (List.getElem_mem hi)

/-- An answer for the graph of a document has an entry for each of its nodes. -/
theorem LayoutResult.Answers.exists_placed? {d : Document α} {r : LayoutResult α}
    (h : r.Answers d.layoutGraph) {n : Node α} (hn : n ∈ d.nodes) :
    ∃ p, r.placed? n.id = some p := by
  have hids : r.nodes.map PlacedNode.id = d.nodes.map Node.id := by
    simpa [Document.layoutGraph, SizedNode.ofNode, Function.comp_def] using
      congrArg (List.map Prod.fst) h.nodes
  have hid : n.id ∈ r.nodes.map PlacedNode.id := hids ▸ List.mem_map_of_mem hn
  obtain ⟨p, hp, hname⟩ := List.mem_map.mp hid
  have hne : (r.nodes.filter fun m => m.id == n.id) ≠ [] :=
    List.ne_nil_of_mem (List.mem_filter.mpr ⟨hp, beq_iff_eq.mpr hname⟩)
  exact ⟨_, List.getLast?_eq_some_getLast hne⟩

/-- An answer that has an entry for each node is drawn, or the entry of one is not finite. -/
theorem drawResult_cases {ids : Nat → ShapeId} {d : Document α} {r : LayoutResult α}
    (h : ∀ n ∈ d.nodes, ∃ p, r.placed? n.id = some p) :
    (∃ shapes, d.drawResult ids r = .ok shapes) ∨
      ∃ n ∈ d.nodes, d.drawResult ids r = .error (.layout (.nonFinite n.id)) := by
  rw [Document.drawResult]
  obtain ⟨boxes, hboxes, -⟩ | ⟨n, hn, e, he, herror⟩ := mapM_except_cases
    (fun n : Node α => (r.boxOf n.id).map (n, ·)) d.nodes
  · rw [hboxes]
    exact .inl ⟨_, rfl⟩
  · obtain ⟨p, hp⟩ := h n hn
    have hbox : e = .layout (.nonFinite n.id) := by
      rw [LayoutResult.boxOf, LayoutResult.find?_reverse_eq, hp] at he
      simp only at he
      split at he
      · cases he
      · cases he
        rfl
    rw [herror, hbox]
    exact .inr ⟨n, hn, rfl⟩

/-- **The drawing of a text.**  Whatever the text and the options, the engine that comes with the
library answers for each node and each edge, unless a node has no finite place; no edge ends
nowhere.  Then the text is drawn, or a node without a finite place is the reason why not. -/
theorem compile_ofText (text : String) (ids : Nat → ShapeId) (o : Options α) :
    let d : Document α := Document.ofText text
    let answer := layOut d.layoutGraph (d.effectiveOptions o)
    ((∃ r, answer = .ok r ∧ r.Answers d.layoutGraph) ∨
      ∃ n ∈ d.nodes, answer = .error (.nonFinite n.id)) ∧
    ((∃ shapes, d.compile builtinEngine ids o = .ok shapes) ∨
      ∃ n ∈ d.nodes, d.compile builtinEngine ids o = .error (.layout (.nonFinite n.id))) := by
  intro d answer
  have hanswer : (∃ r, answer = .ok r ∧ r.Answers d.layoutGraph) ∨
      ∃ n ∈ d.nodes, answer = .error (.nonFinite n.id) := by
    refine (layOut_cases (isGraph_ofText text).1.isClosed _).imp_right ?_
    rintro ⟨_, hsized, herror⟩
    obtain ⟨n, hn, rfl⟩ := List.mem_map.mp hsized
    exact ⟨n, hn, herror⟩
  refine ⟨hanswer, ?_⟩
  by_cases hplaced : d.isPlaced
  · rw [Document.compile, compileIn_of_isPlaced builtinEngine ids hplaced]
    exact .inl ⟨_, rfl⟩
  · have hcompile : d.compile builtinEngine ids o = d.judge ids answer := by
      rw [Document.compile, compileIn_of_not_isPlaced builtinEngine ids hplaced]
      rfl
    rw [hcompile]
    obtain ⟨r, hr, hr'⟩ | ⟨n, hn, herror⟩ := hanswer
    · rw [hr]
      exact drawResult_cases fun n hn => hr'.exists_placed? hn
    · rw [herror]
      exact .inr ⟨n, hn, rfl⟩

end LayingOut

end Diagram
