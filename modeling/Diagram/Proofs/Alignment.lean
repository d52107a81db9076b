import Diagram.Proofs.Arrangements

/-!
# Layouts and their graphs

The lists of a layout are made by pairing what the graph has with what an arrangement yields, and
the edges of the graph are read as pairs of positions first.  Nothing gets lost or mixed up on the
way: an edge that ends at no node is refused, the first such end is the one that is named, and in
every other case the entries of the layout are those of the graph, each route being that of its own
edge between the boxes of the two nodes that the edge names.

Nothing is asked of the graph.  Where several nodes have one name it denotes the last of them, so
that an edge between two names that are equal is always a loop.
-/

namespace Diagram

variable {α : Type}

/-! ## Names -/

/-- The last of the nodes with a name stands at position `i`. -/
structure Denotes (nodes : List (SizedNode α)) (id : String) (i : Nat) : Prop where
  named : (nodes.map SizedNode.id)[i]? = some id
  last : ∀ j, i < j → (nodes.map SizedNode.id)[j]? ≠ some id

theorem Denotes.unique {nodes : List (SizedNode α)} {id : String} {i j : Nat}
    (hi : Denotes nodes id i) (hj : Denotes nodes id j) : i = j := by
  rcases lt_trichotomy i j with hlt | heq | hlt
  · exact absurd hj.named (hi.last j hlt)
  · exact heq
  · exact absurd hi.named (hj.last i hlt)

theorem indexOf?_concat (nodes : List (SizedNode α)) (n : SizedNode α) (id : String) :
    indexOf? (nodes ++ [n]) id = if n.id = id then some nodes.length else indexOf? nodes id := by
  have hlast : (nodes ++ [n]).zipIdx.reverse = (n, nodes.length) :: nodes.zipIdx.reverse := by
    rw [List.zipIdx_append, List.reverse_append, List.zipIdx_singleton, List.reverse_singleton,
      List.singleton_append, Nat.zero_add]
  rw [indexOf?, hlast]
  by_cases h : n.id = id
  · rw [List.find?_cons_of_pos (by simpa using h), if_pos h, Option.map_some]
  · rw [List.find?_cons_of_neg (by simpa using h), if_neg h, indexOf?]

/-- No node behind the one that is found has its name. -/
theorem ne_of_indexOf? {nodes : List (SizedNode α)} {id : String} {i j : Nat}
    (h : indexOf? nodes id = some i) (hij : i < j) : (nodes.map SizedNode.id)[j]? ≠ some id := by
  induction nodes using List.reverseRecOn with
  | nil => simp
  | append_singleton nodes n ih =>
    rw [indexOf?_concat] at h
    rw [List.map_append, List.map_singleton]
    split at h
    · obtain rfl := Option.some.inj h
      rw [List.getElem?_eq_none (by simp; omega)]
      exact nofun
    · next hne =>
      rcases lt_trichotomy j nodes.length with hj | rfl | hj
      · rw [List.getElem?_append_left (by simpa using hj)]
        exact ih h
      · simpa using hne
      · rw [List.getElem?_eq_none (by simp; omega)]
        exact nofun

/-- **The position that is found is the one that the name denotes.** -/
theorem indexOf?_eq_some_iff {nodes : List (SizedNode α)} {id : String} {i : Nat} :
    indexOf? nodes id = some i ↔ Denotes nodes id i := by
  have hdenotes : ∀ {k}, indexOf? nodes id = some k → Denotes nodes id k := fun hk =>
    ⟨indexOf?_eq_some hk, fun _ => ne_of_indexOf? hk⟩
  refine ⟨hdenotes, fun h => ?_⟩
  obtain ⟨k, hk⟩ := exists_indexOf? (List.mem_of_getElem? h.named)
  rwa [h.unique (hdenotes hk)]

theorem indexOf?_eq_none_iff {nodes : List (SizedNode α)} {id : String} :
    indexOf? nodes id = none ↔ id ∉ nodes.map SizedNode.id := by
  rw [← not_iff_not, not_not]
  constructor
  · intro h
    obtain ⟨i, hi⟩ := Option.ne_none_iff_exists'.mp h
    exact List.mem_of_getElem? (indexOf?_eq_some hi)
  · intro h
    obtain ⟨i, hi⟩ := exists_indexOf? h
    simp [hi]

/-! ## Ends that are refused -/

/-- The names at which an edge ends, its source before its target, each beside that of the edge. -/
def GraphEdge.ends (e : GraphEdge) : List (String × String) := [(e.id, e.source), (e.id, e.target)]

/-- The first end of an edge, in the order of the edges, that is not the name of a node. -/
def LayoutGraph.stray? (g : LayoutGraph α) : Option (String × String) :=
  (g.edges.flatMap GraphEdge.ends).find? fun x => x.2 ∉ g.nodes.map SizedNode.id

theorem stray?_eq_none_iff {g : LayoutGraph α} : g.stray? = none ↔ g.IsClosed := by
  simp only [LayoutGraph.stray?, List.find?_eq_none, List.mem_flatMap, GraphEdge.ends,
    List.mem_cons, List.not_mem_nil, or_false, decide_not, Bool.not_eq_eq_eq_not, Bool.not_true,
    Bool.not_eq_false, decide_eq_true_eq]
  constructor
  · exact fun h e he => ⟨h _ ⟨e, he, .inl rfl⟩, h _ ⟨e, he, .inr rfl⟩⟩
  · rintro h x ⟨e, he, rfl | rfl⟩
    · exact (h e he).1
    · exact (h e he).2

theorem not_isClosed_iff {g : LayoutGraph α} :
    ¬ g.IsClosed ↔ ∃ edge id, g.stray? = some (edge, id) := by
  rw [← stray?_eq_none_iff, ← ne_eq, Option.ne_none_iff_exists', Prod.exists]

/-- An edge as the positions of its ends. -/
def GraphEdge.link (nodes : List (SizedNode α)) (e : GraphEdge) :
    Except LayoutError (Nat × Nat) := do
  let source ← endOf nodes e.id e.source
  let target ← endOf nodes e.id e.target
  return (source, target)

theorem unknownNode_eq_error_iff {β : Type} {edge id : String} {failure : LayoutError} :
    (.error (.unknownNode edge id) : Except LayoutError β) = .error failure ↔
      ∃ edge' id', some (edge, id) = some (edge', id') ∧ failure = .unknownNode edge' id' := by
  constructor
  · rintro ⟨⟩
    exact ⟨_, _, rfl, rfl⟩
  · rintro ⟨_, _, ⟨⟩, rfl⟩
    rfl

/-- An edge is refused for the first of its ends that is not the name of a node. -/
theorem link_eq_error_iff (nodes : List (SizedNode α)) (e : GraphEdge) {failure : LayoutError} :
    e.link nodes = .error failure ↔
      ∃ edge id, e.ends.find? (fun x => x.2 ∉ nodes.map SizedNode.id) = some (edge, id) ∧
        failure = .unknownNode edge id := by
  rw [GraphEdge.link, GraphEdge.ends]
  simp only [endOf]
  cases hs : indexOf? nodes e.source with
  | none =>
    rw [List.find?_cons_of_pos (by simpa using indexOf?_eq_none_iff.mp hs)]
    exact unknownNode_eq_error_iff
  | some i =>
    rw [List.find?_cons_of_neg (by simpa using List.mem_of_getElem? (indexOf?_eq_some hs))]
    cases ht : indexOf? nodes e.target with
    | none =>
      rw [List.find?_cons_of_pos (by simpa using indexOf?_eq_none_iff.mp ht)]
      exact unknownNode_eq_error_iff
    | some j =>
      rw [List.find?_cons_of_neg (by simpa using List.mem_of_getElem? (indexOf?_eq_some ht))]
      refine iff_of_false ?_ ?_
      · rintro ⟨⟩
      · rintro ⟨_, _, ⟨⟩, -⟩

/-- Edges are refused for the first of all their ends that is not the name of a node. -/
theorem mapM_link_eq_error_iff (nodes : List (SizedNode α)) (edges : List GraphEdge)
    {failure : LayoutError} : edges.mapM (GraphEdge.link nodes) = .error failure ↔
      ∃ edge id, (edges.flatMap GraphEdge.ends).find? (fun x => x.2 ∉ nodes.map SizedNode.id) =
        some (edge, id) ∧ failure = .unknownNode edge id := by
  induction edges with
  | nil => exact ⟨nofun, nofun⟩
  | cons e edges ih =>
    have hlink := @link_eq_error_iff _ nodes e
    rw [List.mapM_cons, List.flatMap_cons, List.find?_append]
    cases hfind : e.ends.find? (fun x => x.2 ∉ nodes.map SizedNode.id) with
    | some x =>
      rw [hlink.mpr ⟨x.1, x.2, hfind, rfl⟩]
      exact unknownNode_eq_error_iff
    | none =>
      cases hok : e.link nodes with
      | error failure =>
        obtain ⟨_, _, hsome, -⟩ := hlink.mp hok
        cases hfind.symm.trans hsome
      | ok link =>
        rw [Option.none_or, ← ih]
        cases edges.mapM (GraphEdge.link nodes) with
        | error failure => exact Iff.rfl
        | ok links => exact ⟨nofun, nofun⟩

/-- **What is refused** is a graph with an end that is not the name of a node, and the first such
end is named. -/
theorem topology_eq_error_iff {g : LayoutGraph α} {failure : LayoutError} :
    g.topology = .error failure ↔
      ∃ edge id, g.stray? = some (edge, id) ∧ failure = .unknownNode edge id := by
  have htopology : g.topology = (do
      let links ← g.edges.mapM (GraphEdge.link g.nodes)
      return ⟨g.nodes.map fun n => (n.width, n.height), links⟩) := rfl
  rw [LayoutGraph.stray?, ← mapM_link_eq_error_iff, htopology]
  cases g.edges.mapM (GraphEdge.link g.nodes) with
  | error failure => exact ⟨fun h => by cases h; rfl, fun h => by cases h; rfl⟩
  | ok links => exact ⟨nofun, nofun⟩

/-! ## Routes -/

section Routing

variable [Scalar α]

/-- What an arrangement becomes: its nodes, each placed around its centre, and its routes. -/
theorem realize_eq_ok {p : Placement α} {g : LayoutGraph α} {t : Topology α} {r : LayoutResult α}
    (h : p.realize g t = .ok r) :
    List.Forall₂ (fun nc m => nc.1.place nc.2 = .ok m)
      (g.nodes.zip (p.normalize t.sizes).centers) r.nodes ∧
    r.edges = ((g.edges.zip t.links).zip (p.normalize t.sizes).bends).map fun x =>
      routeEdge (r.nodes.map PlacedNode.box).toArray x.1.1 x.1.2 x.2 := by
  simp only [Placement.realize] at h
  obtain ⟨placed, hplaced, hall⟩ | ⟨_, _, _, _, herror⟩ := mapM_except_cases
    (fun nc : SizedNode α × Point α => nc.1.place nc.2)
    (g.nodes.zip (p.normalize t.sizes).centers)
  · rw [hplaced] at h
    cases h
    exact ⟨hall, rfl⟩
  · rw [herror] at h
    cases h

/-- A layout whose entries are those of a graph, in order: every node under its name and with its
size, and every edge with one section, which passes the edge's own bends between the boxes of the
nodes that the edge names. -/
structure LayoutResult.IsAligned (r : LayoutResult α) (g : LayoutGraph α)
    (bends : List (List (Point α))) : Prop where
  nodes : r.nodes.map (fun n => (n.id, n.box.width, n.box.height)) =
    g.nodes.map fun n => (n.id, n.width, n.height)
  length : r.edges.length = g.edges.length
  edges : ∀ (k : Nat) (e : GraphEdge), g.edges[k]? = some e → ∃ i j a b own,
    Denotes g.nodes e.source i ∧ Denotes g.nodes e.target j ∧
      r.nodes[i]? = some a ∧ r.nodes[j]? = some b ∧ bends[k]? = some own ∧
        r.edges[k]? = some ⟨e.id, [if i = j then a.box.loop else routeBetween a.box b.box own]⟩

/-- **An arrangement that leaves nothing out becomes an aligned layout.** -/
theorem isAligned_realize {p : Placement α} {g : LayoutGraph α} {t : Topology α}
    {r : LayoutResult α} (ht : t.IsOf g) (hp : p.Covers t) (h : p.realize g t = .ok r) :
    r.IsAligned g (p.normalize t.sizes).bends := by
  have hcovers := covers_normalize hp t.sizes
  obtain ⟨hplaced, hedges⟩ := realize_eq_ok h
  have hnodes := map_placed (by rw [hcovers.centers, ht.size_eq]) hplaced
  have hlength : r.nodes.length = t.size := by
    simpa [ht.size_eq] using congrArg List.length hnodes
  refine ⟨hnodes, ?_, fun k e he => ?_⟩
  · rw [hedges]
    simp [hcovers.bends, ht.links.length_eq]
  · obtain ⟨i, j, hlink, hi, hj⟩ := ht.exists_link he
    obtain ⟨hlti, hltj⟩ := ht.lt_size (List.mem_of_getElem? hlink)
    have hk : k < (p.normalize t.sizes).bends.length :=
      hcovers.bends ▸ (List.getElem?_eq_some_iff.mp hlink).1
    have ha := List.getElem?_eq_getElem (hlength ▸ hlti)
    have hb := List.getElem?_eq_getElem (hlength ▸ hltj)
    refine ⟨i, j, _, _, _, indexOf?_eq_some_iff.mp hi, indexOf?_eq_some_iff.mp hj, ha, hb,
      List.getElem?_eq_getElem hk, ?_⟩
    -- edges, links and bends are listed in one order, so they meet at one index
    have hzip : ((g.edges.zip t.links).zip (p.normalize t.sizes).bends)[k]? =
        some ((e, (i, j)), (p.normalize t.sizes).bends[k]) :=
      List.getElem?_zip_eq_some.mpr ⟨List.getElem?_zip_eq_some.mpr ⟨he, hlink⟩,
        List.getElem?_eq_getElem hk⟩
    rw [hedges, List.getElem?_map, hzip, Option.map_some, routeEdge_eq ha hb]

end Routing

/-! ## Layouts -/

section LayingOut

variable [Metric α]

/-- A graph is refused for an unknown node when it has an end that is not the name of a node, and
for the first such end. -/
theorem layOut_eq_unknownNode_iff {g : LayoutGraph α} {o : Options α} {edge id : String} :
    layOut g o = .error (.unknownNode edge id) ↔ g.stray? = some (edge, id) := by
  constructor
  · intro h
    by_cases hclosed : g.IsClosed
    · obtain ⟨r, hr, -⟩ | ⟨n, -, hn⟩ := layOut_cases hclosed o
      · cases hr.symm.trans h
      · cases hn.symm.trans h
    · obtain ⟨edge', id', hstray⟩ := not_isClosed_iff.mp hclosed
      rw [layOut, topology_eq_error_iff.mpr ⟨edge', id', hstray, rfl⟩] at h
      cases h
      exact hstray
  · intro h
    rw [layOut, topology_eq_error_iff.mpr ⟨edge, id, h, rfl⟩]
    rfl

/-- **The layout of a graph, by whichever algorithm.**  A graph is refused for an unknown node
exactly when an edge of it ends at a name that no node has, and then it is the first such end that
is named, where the source of an edge comes before its target.  Every other graph is laid out,
unless the centre of one of its nodes is not a point of the plane.  What is laid out has the nodes
and edges of the graph, in order, and each edge has one section, between the boxes of the nodes that
its ends denote and through the bends that the arrangement has for it. -/
theorem layOut_isAligned (g : LayoutGraph α) (o : Options α) :
    ((∃ edge id, layOut g o = .error (.unknownNode edge id)) ↔ ¬ g.IsClosed) ∧
    (∀ edge id, layOut g o = .error (.unknownNode edge id) ↔ g.stray? = some (edge, id)) ∧
    (g.IsClosed → (∃ r, layOut g o = .ok r) ∨
      ∃ n ∈ g.nodes, layOut g o = .error (.nonFinite n.id)) ∧
    ∀ r, layOut g o = .ok r → ∃ t, g.topology = .ok t ∧
      r.IsAligned g ((arrange t o).normalize t.sizes).bends := by
  refine ⟨?_, fun edge id => layOut_eq_unknownNode_iff, fun h => ?_, fun r hr => ?_⟩
  · simp only [layOut_eq_unknownNode_iff, not_isClosed_iff]
  · exact (layOut_cases h o).imp_left fun ⟨r, hr, _⟩ => ⟨r, hr⟩
  · have hclosed : g.IsClosed := by
      by_contra hopen
      obtain ⟨edge, id, hstray⟩ := not_isClosed_iff.mp hopen
      cases hr.symm.trans (layOut_eq_unknownNode_iff.mpr hstray)
    obtain ⟨t, ht, hof⟩ := exists_topology hclosed
    have hlayout : layOut g o = (arrange t o).realize g t := by
      rw [layOut, ht]
      rfl
    exact ⟨t, ht, isAligned_realize hof (covers_arrange t o) (hlayout.symm.trans hr)⟩

end LayingOut

end Diagram
