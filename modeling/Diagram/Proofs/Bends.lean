import Diagram.Proofs.Depths
import Diagram.Proofs.Layered

/-!
# The bends of layered edges

An edge that crosses layers has a virtual vertex in each of them and bends there.  Virtual vertices
are numbered behind the nodes, those of one edge behind those of the edges before it, so no two
edges share one.  They are numbered from the lower layer to the higher; an edge that was turned
around passes them the other way, from its own source to its own target.

None of this depends on arithmetic, so it is said of every kind of coordinates.
-/

namespace Diagram

/-! ## Virtual vertices -/

section

variable (layers : List Nat)

theorem length_virtualChain (next : Nat) (arc : Arc) :
    (virtualChain layers next arc).length = (virtualLayers layers arc).length := by
  rw [virtualChain, virtualLayers]
  split <;> simp

theorem virtualChain_eq (next : Nat) (arc : Arc) :
    virtualChain layers next arc = List.range' next (virtualLayers layers arc).length := by
  rw [virtualChain, virtualLayers]
  split <;> simp

/-- **Virtual vertices are numbered one after the other**, those of each edge behind those of the
edges before it. -/
theorem flatten_virtualChains (next : Nat) (arcs : List Arc) :
    (virtualChains layers next arcs).flatten =
      List.range' next (arcs.flatMap (virtualLayers layers)).length := by
  induction arcs generalizing next with
  | nil => rfl
  | cons arc arcs ih =>
    rw [virtualChains, List.flatten_cons, ih, length_virtualChain, virtualChain_eq,
      List.flatMap_cons, List.length_append, List.range'_append_1]

/-- **The virtual vertices of an edge stand in the layers that it crosses**, where the layers of the
vertices are listed from the number `next` on. -/
theorem layers_virtualChains {next : Nat} {arcs : List Arc} {layerOf : List Nat}
    (hlayers : layerOf.drop next = arcs.flatMap (virtualLayers layers)) :
    List.Forall₂ (fun chain arc => chain.map (layerOf[·]?) = (virtualLayers layers arc).map some)
      (virtualChains layers next arcs) arcs := by
  induction arcs generalizing next with
  | nil => exact .nil
  | cons arc arcs ih =>
    rw [List.flatMap_cons] at hlayers
    refine .cons ?_ (ih ?_)
    · rw [virtualChain_eq]
      refine List.ext_getElem? fun i => ?_
      rw [List.getElem?_map, List.getElem?_map]
      by_cases hi : i < (virtualLayers layers arc).length
      · rw [List.getElem?_range' hi, Option.map_some, one_mul, ← List.getElem?_drop, hlayers,
          List.getElem?_append_left hi, List.getElem?_eq_getElem hi, Option.map_some]
      · rw [List.getElem?_eq_none (by simpa using hi), List.getElem?_eq_none (not_lt.mp hi)]
        rfl
    · rw [length_virtualChain, ← List.drop_drop, hlayers, List.drop_left]

end

/-! ## Layers met on the way -/

/-- The layers between two layers, as they are met on the way from the first to the second. -/
def layersBetween (p q : Nat) : List Nat :=
  if p < q then List.range' (p + 1) (q - p - 1) else (List.range' (q + 1) (p - q - 1)).reverse

theorem length_layersBetween (p q : Nat) :
    (layersBetween p q).length = max p q - min p q - 1 := by
  rw [layersBetween]
  split <;> simp <;> omega

theorem getElem?_layersBetween {p q i : Nat} (hi : i < (layersBetween p q).length) :
    (layersBetween p q)[i]? = some (if p < q then p + (i + 1) else p - (i + 1)) := by
  rw [length_layersBetween] at hi
  rw [layersBetween]
  split
  · next hpq =>
    rw [List.getElem?_range' (by omega)]
    congr 1
    omega
  · next hpq =>
    rw [List.getElem?_reverse (by simp; omega), List.length_range', List.getElem?_range' (by omega)]
    congr 1
    omega

/-! ## Courses -/

section

variable {α : Type} (t : Topology α)

/-- The virtual vertices of every edge, from its source to its target. -/
def coursesOf : List (List Nat) :=
  (virtualChains (nodeLayers t) t.size (onwardArcs t)).zipIdx.map fun (vs, e) =>
    if (assignLayers t.size t.links).2.contains e then vs.reverse else vs

/-- The courses hold the virtual vertices, each once. -/
theorem perm_flatten_coursesOf : (coursesOf t).flatten.Perm
    (virtualChains (nodeLayers t) t.size (onwardArcs t)).flatten := by
  have hall : ∀ (chains : List (List Nat)) (first : Nat), ((chains.zipIdx first).map fun (vs, e) =>
      if (assignLayers t.size t.links).2.contains e then vs.reverse else vs).flatten.Perm
        chains.flatten := by
    intro chains
    induction chains with
    | nil => exact fun _ => .nil
    | cons vs chains ih =>
      intro first
      rw [List.zipIdx_cons, List.map_cons, List.flatten_cons, List.flatten_cons]
      refine .append ?_ (ih _)
      dsimp only
      split
      · exact List.reverse_perm vs
      · exact .refl vs
  exact hall _ 0

variable {t}

/-- The course of an edge. -/
theorem getElem?_coursesOf {k : Nat} {chain : List Nat}
    (h : (virtualChains (nodeLayers t) t.size (onwardArcs t))[k]? = some chain) :
    (coursesOf t)[k]? =
      some (if k ∈ (assignLayers t.size t.links).2 then chain.reverse else chain) := by
  rw [coursesOf, List.getElem?_map, List.getElem?_zipIdx, h]
  simp

/-- An edge as it leads through the layers. -/
theorem getElem?_onwardArcs {k i j : Nat} (hk : t.links[k]? = some (i, j)) :
    (onwardArcs t)[k]? = some (if k ∈ (assignLayers t.size t.links).2 then (j, i) else (i, j)) := by
  rw [onwardArcs, reoriented, List.getElem?_map, List.getElem?_zipIdx, hk]
  simp

/-- The ends of an edge between two nodes are in different layers, in the order in which the edge
leads through them. -/
theorem nodeLayers_lt (ht : ∀ arc ∈ t.links, arc.1 < t.size ∧ arc.2 < t.size) {k i j : Nat}
    (hk : t.links[k]? = some (i, j)) (hne : i ≠ j) :
    if k ∈ (assignLayers t.size t.links).2 then
      (nodeLayers t).getD j 0 < (nodeLayers t).getD i 0
    else (nodeLayers t).getD i 0 < (nodeLayers t).getD j 0 := by
  have harc := List.mem_of_getElem? (getElem?_onwardArcs hk)
  split at harc
  · next hrev =>
    rw [if_pos hrev]
    exact (assignLayers_lt ht).2 j i harc hne.symm
  · next hrev =>
    rw [if_neg hrev]
    exact (assignLayers_lt ht).2 i j harc hne

end

/-! ## Centre lines -/

section

variable {α : Type}

/-- The coordinate of a point in the direction of the layers. -/
def Point.along (d : Direction) (p : Point α) : α := if d.isHorizontal then p.x else p.y

variable [Scalar α] (t : Topology α) (o : Options α)

/-- The middle of a layer in the direction of the layers, from the other end when they follow each
other upwards or to the left. -/
def centreLine (l : Nat) : α :=
  let thick := thicknesses (vertexList t o).toArray (rowsOf t o)
  let middle := (layerStarts o Scalar.zero thick).1.getD l Scalar.zero +
    thick.getD l Scalar.zero / Scalar.ofNat 2
  if o.direction = .up ∨ o.direction = .left then depthOf t o - middle else middle

/-- The layers of all vertices. -/
def layerOf : List Nat := (vertexList t o).map Vertex.layer

/-- **A vertex stands on the centre line of its layer.** -/
theorem along_centreOf {v l : Nat} (h : (layerOf t o)[v]? = some l) :
    (centreOf t o v).along o.direction = centreLine t o l := by
  rw [layerOf, List.getElem?_map] at h
  have hmiddle : middleOf t o v =
      (layerStarts o Scalar.zero (thicknesses (vertexList t o).toArray (rowsOf t o))).1.getD l
        Scalar.zero + (thicknesses (vertexList t o).toArray (rowsOf t o)).getD l Scalar.zero /
          Scalar.ofNat 2 := by
    simp only [middleOf, List.getElem?_toArray, h, Option.getD_some]
  rw [centreOf, centreLine, Point.along, hmiddle]
  split <;> rfl

theorem bends_layered :
    (layered t o).bends = (coursesOf t).map (List.map (centreOf t o)) := by
  rw [coursesOf, List.map_map]
  simp only [layered]
  refine List.map_congr_left fun e _ => List.map_congr_left fun v _ => ?_
  simp only [centreOf, middleOf, acrossOf, depthOf, rowsOf, vertexList, nodeLayers, onwardArcs]

/-! ## The layers of the vertices -/

section

variable {t} (ht : ∀ arc ∈ t.links, arc.1 < t.size ∧ arc.2 < t.size)

include ht

theorem layerOf_eq : layerOf t o =
    nodeLayers t ++ (onwardArcs t).flatMap (virtualLayers (nodeLayers t)) := by
  have hlength : (nodeLayers t).length = t.sizes.length := (assignLayers_lt ht).1
  rw [layerOf, vertexList, vertices, List.map_append, List.map_map, List.map_map]
  congr 1
  · -- a node is turned by the direction, and its layer stays
    refine Eq.trans (List.map_congr_left (g := Prod.snd) fun x _ => ?_)
      (List.map_snd_zip hlength.le)
    dsimp only [Function.comp_apply]
    split <;> rfl
  · exact List.map_id _

/-- The layer of a node. -/
theorem getElem?_layerOf {v : Nat} (hv : v < t.size) :
    (layerOf t o)[v]? = some ((nodeLayers t).getD v 0) := by
  have hlength : (nodeLayers t).length = t.size := (assignLayers_lt ht).1
  rw [layerOf_eq o ht, List.getElem?_append_left (hlength ▸ hv),
    List.getElem?_eq_getElem (hlength ▸ hv), List.getD_eq_getElem _ _ (hlength ▸ hv)]

/-- The virtual vertices of an edge, from the lower layer to the higher. -/
theorem exists_chain {k : Nat} {arc : Arc} (hk : (onwardArcs t)[k]? = some arc) :
    ∃ chain, (virtualChains (nodeLayers t) t.size (onwardArcs t))[k]? = some chain ∧
      chain.map ((layerOf t o)[·]?) = (virtualLayers (nodeLayers t) arc).map some := by
  have hlength : (nodeLayers t).length = t.size := (assignLayers_lt ht).1
  have hdrop : (layerOf t o).drop t.size =
      (onwardArcs t).flatMap (virtualLayers (nodeLayers t)) := by
    rw [layerOf_eq o ht, ← hlength, List.drop_left]
  have hall := layers_virtualChains (nodeLayers t) hdrop
  obtain ⟨hlt, rfl⟩ := List.getElem?_eq_some_iff.mp hk
  have hlt' : k < (virtualChains (nodeLayers t) t.size (onwardArcs t)).length :=
    hall.length_eq ▸ hlt
  exact ⟨_, List.getElem?_eq_getElem hlt', (List.forall₂_iff_get.mp hall).2 k hlt' hlt⟩

/-- **The virtual vertices of an edge stand in the layers between its ends**, in the order in which
they are met on the way from its source to its target.  A loop has none. -/
theorem exists_course {k i j : Nat} (hk : t.links[k]? = some (i, j)) :
    ∃ course, (coursesOf t)[k]? = some course ∧ course.map ((layerOf t o)[·]?) =
      (layersBetween ((nodeLayers t).getD i 0) ((nodeLayers t).getD j 0)).map some := by
  obtain ⟨chain, hchain, hlayers⟩ := exists_chain o ht (getElem?_onwardArcs hk)
  refine ⟨_, getElem?_coursesOf hchain, ?_⟩
  by_cases hij : i = j
  · subst hij
    rw [ite_self, virtualLayers, if_pos rfl, List.map_nil, List.map_eq_nil_iff] at hlayers
    simp [hlayers, layersBetween]
  · have hlt := nodeLayers_lt ht hk hij
    split at hlt
    · next hrev =>
      rw [if_pos hrev] at hlayers ⊢
      rw [List.map_reverse, hlayers, layersBetween, if_neg hlt.not_gt, virtualLayers,
        if_neg (Ne.symm hij), List.map_reverse]
    · next hrev =>
      rw [if_neg hrev] at hlayers ⊢
      rw [hlayers, layersBetween, if_pos hlt, virtualLayers, if_neg hij]

end

/-! ## Bends -/

/-- One bend for each layer between two layers, on its centre line, in the order in which the layers
are met on the way from the first to the second. -/
structure BendsBetween (p q : Nat) (bends : List (Point α)) : Prop where
  length : bends.length = max p q - min p q - 1
  along : ∀ m b, bends[m]? = some b →
    b.along o.direction = centreLine t o (if p < q then p + (m + 1) else p - (m + 1))

theorem bendsBetween_of_course {p q : Nat} {course : List Nat}
    (h : course.map ((layerOf t o)[·]?) = (layersBetween p q).map some) :
    BendsBetween t o p q (course.map (centreOf t o)) := by
  have hlength : course.length = (layersBetween p q).length := by
    have hlength := congrArg List.length h
    rwa [List.length_map, List.length_map] at hlength
  refine ⟨?_, fun m b hb => ?_⟩
  · rw [List.length_map, hlength, length_layersBetween]
  · rw [List.getElem?_map] at hb
    obtain ⟨v, hv, rfl⟩ := Option.map_eq_some_iff.mp hb
    have hm : m < (layersBetween p q).length := hlength ▸ (List.getElem?_eq_some_iff.mp hv).1
    have hlayer := congrArg (·[m]?) h
    rw [List.getElem?_map, List.getElem?_map, hv, getElem?_layersBetween hm, Option.map_some,
      Option.map_some] at hlayer
    exact along_centreOf t o (Option.some.inj hlayer)

/-- **The bends of layered edges.**  The middle of every node is on the centre line of its layer.
Every edge bends at virtual vertices of its own, which are no nodes and which no other edge shares.
It has one bend for each layer between those of its ends, on the centre line of that layer, in the
order in which the layers are met on the way from its source to its target, also when it was turned
around.  Its ends are in different layers unless it is a loop, which has no bends. -/
theorem layered_bends (ht : ∀ arc ∈ t.links, arc.1 < t.size ∧ arc.2 < t.size) :
    (∀ v < t.size, ∃ c, (layered t o).centers[v]? = some c ∧
      c.along o.direction = centreLine t o ((nodeLayers t).getD v 0)) ∧
    (∃ courses : List (List Nat), (layered t o).bends = courses.map (List.map (centreOf t o)) ∧
      courses.flatten.Nodup ∧ ∀ v ∈ courses.flatten, t.size ≤ v) ∧
    ∀ k i j : Nat, t.links[k]? = some (i, j) → ∃ bends, (layered t o).bends[k]? = some bends ∧
      BendsBetween t o ((nodeLayers t).getD i 0) ((nodeLayers t).getD j 0) bends ∧
      (i = j → bends = []) ∧ (i ≠ j → (nodeLayers t).getD i 0 ≠ (nodeLayers t).getD j 0) := by
  refine ⟨fun v hv => ?_, ⟨coursesOf t, bends_layered t o, ?_, fun v hv => ?_⟩,
    fun k i j hk => ?_⟩
  · refine ⟨centreOf t o v, ?_, along_centreOf t o (getElem?_layerOf o ht hv)⟩
    rw [centers_layered, List.getElem?_map, List.getElem?_range hv, Option.map_some]
  · rw [(perm_flatten_coursesOf t).nodup_iff, flatten_virtualChains]
    exact List.nodup_range'
  · rw [(perm_flatten_coursesOf t).mem_iff, flatten_virtualChains] at hv
    exact (List.mem_range'_1.mp hv).1
  · -- the virtual vertices of the edge, one in each layer that it passes
    obtain ⟨course, hcourse, hlayers⟩ := exists_course o ht hk
    have hbends := bendsBetween_of_course t o hlayers
    refine ⟨course.map (centreOf t o), ?_, hbends, fun hij => ?_, fun hij => ?_⟩
    · rw [bends_layered, List.getElem?_map, hcourse, Option.map_some]
    · subst hij
      exact List.length_eq_zero_iff.mp (hbends.length.trans (by omega))
    · have hlt := nodeLayers_lt ht hk hij
      split at hlt
      · exact hlt.ne'
      · exact hlt.ne

end

/-- Four nodes in a ring: the edge that closes it is turned around, and bends first in the layer
that is nearer to its source. -/
theorem layered_bends_ring :
    let t : Topology Float :=
      ⟨[(1, 1), (2, 1), (1, 3), (1, 1)], [(0, 1), (1, 2), (2, 3), (3, 0), (2, 2)]⟩
    let o : Options Float := .default
    (∀ arc ∈ t.links, arc.1 < t.size ∧ arc.2 < t.size) ∧ nodeLayers t = [0, 1, 2, 3] ∧
      (∃ b c, (layered t o).bends[3]? = some [b, c] ∧ b.along .down = centreLine t o 2 ∧
        c.along .down = centreLine t o 1) ∧ (layered t o).bends[4]? = some [] := by
  intro t o
  have ht : ∀ arc ∈ t.links, arc.1 < t.size ∧ arc.2 < t.size := by decide
  have hlayers : nodeLayers t = [0, 1, 2, 3] := by decide
  obtain ⟨-, -, hedges⟩ := layered_bends t o ht
  obtain ⟨bends, hbends, ⟨hlength, halong⟩, -, -⟩ := hedges 3 3 0 rfl
  obtain ⟨loop, hloop, -, hnone, -⟩ := hedges 4 2 2 rfl
  rw [hlayers] at hlength halong
  obtain ⟨b, c, rfl⟩ := List.length_eq_two.mp hlength
  exact ⟨ht, hlayers, ⟨b, c, hbends, halong 0 b rfl, halong 1 c rfl⟩, hnone rfl ▸ hloop⟩

end Diagram
