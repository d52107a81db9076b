import Diagram.Proofs.Nearness
import Diagram.Proofs.Recompiling

/-!
# Joining nodes

A connector joins the box that is nearest to its start with the one that is nearest to its end.
When that is one and the same box, the end moves on to the nearest of the others, or the start if
there is no other box within reach of the end.  So a connector becomes an edge unless one of its
ends is out of reach of every box, or both are within reach of a single box only; and an edge
never joins a node to itself.

Boxes are told apart by their places in the list, as nodes are by the names that they are given for
them.
-/

namespace Diagram

/-! ## Candidates -/

section Candidates

variable {α : Type}

/-- Nodes with different names are told apart by their places. -/
theorem id_eq_iff {cs : List (Candidate α)} (hids : (cs.map Candidate.id).Nodup) {a b : Candidate α}
    {i j : Nat}
    (ha : cs[i]? = some a) (hb : cs[j]? = some b) : a.id = b.id ↔ i = j := by
  have ha' : (cs.map Candidate.id)[i]? = some a.id := by rw [List.getElem?_map, ha, Option.map_some]
  have hb' : (cs.map Candidate.id)[j]? = some b.id := by rw [List.getElem?_map, hb, Option.map_some]
  constructor
  · intro hid
    refine (List.getElem?_inj (List.getElem?_eq_some_iff.mp ha').1 hids).mp ?_
    rw [ha', hb', hid]
  · rintro rfl
    rw [Option.some.inj (ha.symm.trans hb)]

/-- Rectangles and ellipses have boxes, whatever their sizes. -/
theorem isSome_bounds (s : Shape α) : s.bounds.isSome = s.figure.isNodeCapable := by
  rw [Shape.bounds, Option.isSome_map]
  cases s.figure <;> rfl

/-- The boxes of the candidates are those of the shapes that have one. -/
theorem boxes_candidates (shapes : List (Shape α)) :
    (candidates shapes).map Candidate.box = shapes.filterMap Shape.bounds := by
  have hcandidates := map_mapIdx (g := Candidate.box)
    (f := fun i (p : Shape α × Box α) => ⟨generatedId i, p.2, p.1⟩) (h := Prod.snd)
    (fun _ _ => rfl) (shapes.filterMap fun s => s.bounds.map (s, ·))
  rw [candidates, hcandidates, List.map_filterMap]
  simp only [Option.map_map, Function.comp_def, Option.map_id_fun', id_eq]

/-- The name of a candidate is the one that is given for its place. -/
theorem id_of_getElem? {shapes : List (Shape α)} {i : Nat} {a : Candidate α}
    (ha : (candidates shapes)[i]? = some a) : a.id = generatedId i := by
  have hid : ((candidates shapes).map Candidate.id)[i]? = some a.id := by
    rw [List.getElem?_map, ha, Option.map_some]
  have hi := (List.getElem?_eq_some_iff.mp ha).1
  rw [ids_candidates, List.getElem?_map, List.getElem?_range hi] at hid
  exact (Option.some.inj hid).symm

end Candidates

variable {α : Type} [Metric α]

/-! ## Which boxes are joined -/

section Joining

/-- Which two of some boxes are joined by a connector from one point to another. -/
inductive JoinsNearest (boxes : List (Box α)) (start stop : Point α) : Nat → Nat → Prop
  /-- The nearest boxes, when they are different. -/
  | apart {i j : Nat} (hstart : IsNearest boxes start ∅ i) (hstop : IsNearest boxes stop ∅ j)
      (hne : i ≠ j) : JoinsNearest boxes start stop i j
  /-- The end moves on to another box. -/
  | stopMoves {i j : Nat} (hstart : IsNearest boxes start ∅ i) (hstop : IsNearest boxes stop ∅ i)
      (hother : IsNearest boxes stop {i} j) : JoinsNearest boxes start stop i j
  /-- The start moves on to another box, for want of one near the end. -/
  | startMoves {i j : Nat} (hstart : IsNearest boxes start ∅ j) (hstop : IsNearest boxes stop ∅ j)
      (honly : ∀ k, InReach boxes stop k → k = j) (hother : IsNearest boxes start {j} i) :
      JoinsNearest boxes start stop i j

/-- Some box is within reach of either point, and when one box is the nearest to both, another is
within reach of one of them. -/
structure CanJoin (boxes : List (Box α)) (start stop : Point α) : Prop where
  nearStart : ∃ i, InReach boxes start i
  nearStop : ∃ j, InReach boxes stop j
  other : ∀ i, IsNearest boxes start ∅ i → IsNearest boxes stop ∅ i →
    ∃ j, j ≠ i ∧ (InReach boxes start j ∨ InReach boxes stop j)

variable {boxes : List (Box α)} {start stop : Point α} {i j : Nat}

namespace JoinsNearest

/-- No box is joined to itself. -/
theorem ne (h : JoinsNearest boxes start stop i j) : i ≠ j := by
  cases h with
  | apart _ _ hne => exact hne
  | stopMoves _ _ hother => exact hother.ne.symm
  | startMoves _ _ _ hother => exact hother.ne

/-- Both boxes are within reach. -/
theorem inReach (h : JoinsNearest boxes start stop i j) :
    InReach boxes start i ∧ InReach boxes stop j := by
  cases h with
  | apart hstart hstop _ => exact ⟨hstart.inReach, hstop.inReach⟩
  | stopMoves hstart _ hother => exact ⟨hstart.inReach, hother.inReach⟩
  | startMoves _ hstop _ hother => exact ⟨hother.inReach, hstop.inReach⟩

theorem canJoin (h : JoinsNearest boxes start stop i j) : CanJoin boxes start stop := by
  refine ⟨⟨i, h.inReach.1⟩, ⟨j, h.inReach.2⟩, fun k hk hk' => ?_⟩
  cases h with
  | apart hstart hstop hne => exact absurd ((hstart.unique hk).trans (hk'.unique hstop)) hne
  | stopMoves hstart _ hother =>
    obtain rfl := hstart.unique hk
    exact ⟨j, hother.ne, .inr hother.inReach⟩
  | startMoves hstart _ _ hother =>
    obtain rfl := hstart.unique hk
    exact ⟨i, hother.ne, .inl hother.inReach⟩

/-- Which boxes are joined is determined. -/
theorem unique (h : JoinsNearest boxes start stop i j) {i' j' : Nat}
    (h' : JoinsNearest boxes start stop i' j') : i = i' ∧ j = j' := by
  -- The nearest boxes are determined, so only cases of one constructor can meet.
  cases h with
  | apart hstart hstop hne =>
    cases h' with
    | apart hstart' hstop' _ => exact ⟨hstart.unique hstart', hstop.unique hstop'⟩
    | stopMoves hstart' hstop' _ =>
      exact absurd ((hstart.unique hstart').trans (hstop'.unique hstop)) hne
    | startMoves hstart' hstop' _ _ =>
      exact absurd ((hstart.unique hstart').trans (hstop'.unique hstop)) hne
  | stopMoves hstart hstop hother =>
    cases h' with
    | apart hstart' hstop' hne' =>
      exact absurd ((hstart'.unique hstart).trans (hstop.unique hstop')) hne'
    | stopMoves hstart' _ hother' =>
      obtain rfl := hstart.unique hstart'
      exact ⟨rfl, hother.unique hother'⟩
    | startMoves hstart' _ honly' _ =>
      obtain rfl := hstart.unique hstart'
      exact absurd (honly' j hother.inReach) hother.ne
  | startMoves hstart hstop honly hother =>
    cases h' with
    | apart hstart' hstop' hne' =>
      exact absurd ((hstart'.unique hstart).trans (hstop.unique hstop')) hne'
    | stopMoves hstart' _ hother' =>
      obtain rfl := hstart.unique hstart'
      exact absurd (honly j' hother'.inReach) hother'.ne
    | startMoves hstart' _ _ hother' =>
      obtain rfl := hstart.unique hstart'
      exact ⟨hother.unique hother', rfl⟩

end JoinsNearest

/-- **The nodes that are joined**, or why none are. -/
theorem joined?_cases (h : ComparesDistances α) {cs : List (Candidate α)}
    (hids : (cs.map Candidate.id).Nodup) (start stop : Point α) :
    (∃ i j a b, JoinsNearest (cs.map Candidate.box) start stop i j ∧
      cs[i]? = some a ∧ cs[j]? = some b ∧ joined? cs start stop = some (a.id, b.id)) ∨
    (¬ CanJoin (cs.map Candidate.box) start stop ∧ joined? cs start stop = none) := by
  obtain ⟨order, hranks, hnear⟩ := exists_ranks h cs start
  obtain ⟨order', hranks', hnear'⟩ := exists_ranks h cs stop
  rw [joined?]
  generalize nearest cs start = as at hnear ⊢
  generalize nearest cs stop = bs at hnear' ⊢
  -- Nothing is joined when one of the two rankings is empty, or when both consist of the same node.
  cases hnear with
  | nil =>
    refine .inr ⟨fun hcan => ?_, rfl⟩
    obtain ⟨i, hi⟩ := hcan.nearStart
    exact hranks.nil_iff i hi
  | @cons i x order as ha has =>
    cases hnear' with
    | nil =>
      refine .inr ⟨fun hcan => ?_, rfl⟩
      obtain ⟨j, hj⟩ := hcan.nearStop
      exact hranks'.nil_iff j hj
    | @cons j y order' bs hb hbs =>
      dsimp only
      by_cases hij : i = j
      · rw [if_neg (not_not.mpr ((id_eq_iff hids ha hb).mpr hij))]
        subst hij
        -- One node comes first for both ends: the end is moved if it can be, and else the start.
        cases hbs with
        | @cons k z _ _ hk _ =>
          exact .inl ⟨i, k, x.1, z.1,
            .stopMoves hranks.isNearest_head hranks'.isNearest_head hranks'.isNearest_second,
            ha, hk, rfl⟩
        | nil =>
          cases has with
          | @cons k z _ _ hk _ =>
            exact .inl ⟨k, i, z.1, y.1,
              .startMoves hranks.isNearest_head hranks'.isNearest_head
                (fun _ => hranks'.eq_of_singleton) hranks.isNearest_second, hk, hb, rfl⟩
          | nil =>
            refine .inr ⟨fun hcan => ?_, rfl⟩
            obtain ⟨k, hne, hk | hk⟩ := hcan.other i hranks.isNearest_head hranks'.isNearest_head
            · exact hne (hranks.eq_of_singleton hk)
            · exact hne (hranks'.eq_of_singleton hk)
      · rw [if_pos fun hid => hij ((id_eq_iff hids ha hb).mp hid)]
        exact .inl ⟨i, j, x.1, y.1, .apart hranks.isNearest_head hranks'.isNearest_head hij, ha, hb,
          rfl⟩

end Joining

/-! ## Connectors -/

section Connecting

/-- A connector with at least two points, the first and the last of which lie at `start` and at
`stop` on the canvas. -/
def Shape.RunsBetween (s : Shape α) (start stop : Point α) : Prop :=
  ∃ points first last, s.figure.connectorPoints? = some points ∧ 2 ≤ points.length ∧
    points.head? = some first ∧ points.getLast? = some last ∧
      s.absolute first = start ∧ s.absolute last = stop

theorem endpoints_eq_some_iff {s : Shape α} {start stop : Point α} :
    s.endpoints = some (start, stop) ↔ s.RunsBetween start stop := by
  rw [Shape.endpoints, Shape.RunsBetween]
  rcases s.figure.connectorPoints? with _ | _ | ⟨p, _ | ⟨q, rest⟩⟩
  · simp
  · simp
  · simp
  · rw [Option.some_inj, Prod.mk.injEq]
    constructor
    · rintro ⟨rfl, rfl⟩
      have hne : q :: rest ≠ [] := List.cons_ne_nil q rest
      refine ⟨_, p, _, rfl, ?_, rfl, ?_, rfl, rfl⟩
      · simp
      · rw [List.getLast?_cons_cons]
        exact List.getLast?_eq_some_getLast hne
    · rintro ⟨points, first, last, hpoints, -, hfirst, hlast, rfl, rfl⟩
      obtain rfl := Option.some.inj hpoints
      obtain rfl := Option.some.inj hfirst
      rw [List.getLast?_cons_cons, List.getLast?_eq_some_getLast (List.cons_ne_nil q rest)] at hlast
      rw [Option.some.inj hlast]
      exact ⟨rfl, rfl⟩

/-- The edge that a connector becomes when it joins two nodes. -/
def Shape.edgeBetween (s : Shape α) (i j : Nat) : Edge α where
  source := generatedId i
  target := generatedId j
  arrow := s.arrowKind
  label := s.label

/-- What a shape becomes: an edge if it is a connector whose ends can be joined, and then between
the nodes that are joined, under the names that they are given.  These are different nodes, each
within reach of its end. -/
structure IsInferred (boxes : List (Box α)) (s : Shape α) (edge? : Option (Edge α)) : Prop where
  isSome_iff : edge?.isSome ↔ ∃ start stop, s.RunsBetween start stop ∧ CanJoin boxes start stop
  eq_some_iff : ∀ e, edge? = some e ↔ ∃ start stop i j, s.RunsBetween start stop ∧
    JoinsNearest boxes start stop i j ∧ e = s.edgeBetween i j
  ends : ∀ e, edge? = some e → e.source ≠ e.target ∧ ∃ start stop i j, s.RunsBetween start stop ∧
    e.source = generatedId i ∧ InReach boxes start i ∧
      e.target = generatedId j ∧ InReach boxes stop j

theorem Shape.RunsBetween.unique {s : Shape α} {start stop start' stop' : Point α}
    (h : s.RunsBetween start stop) (h' : s.RunsBetween start' stop') :
    start = start' ∧ stop = stop' := by
  rw [← endpoints_eq_some_iff] at h h'
  exact Prod.mk.inj (Option.some.inj (h.symm.trans h'))

/-- A shape becomes the edge between the nodes that it joins, or it cannot join any. -/
theorem inferEdge?_cases (h : ComparesDistances α) (shapes : List (Shape α)) (s : Shape α) :
    (∃ start stop i j, s.RunsBetween start stop ∧
      JoinsNearest (shapes.filterMap Shape.bounds) start stop i j ∧
        inferEdge? (candidates shapes) s = some (s.edgeBetween i j)) ∨
    (inferEdge? (candidates shapes) s = none ∧ ∀ start stop, s.RunsBetween start stop →
      ¬ CanJoin (shapes.filterMap Shape.bounds) start stop) := by
  rw [inferEdge?, ← boxes_candidates]
  cases hends : s.endpoints with
  | none =>
    refine .inr ⟨rfl, fun start stop hruns => ?_⟩
    cases hends.symm.trans (endpoints_eq_some_iff.mpr hruns)
  | some ends =>
    obtain ⟨start, stop⟩ := ends
    have hruns := endpoints_eq_some_iff.mp hends
    dsimp only [Option.bind_eq_bind, Option.bind_some]
    obtain ⟨i, j, a, b, hjoins, ha, hb, hjoined⟩ | ⟨hcannot, hjoined⟩ :=
      joined?_cases h (nodup_ids_candidates shapes) start stop
    · rw [hjoined, id_of_getElem? ha, id_of_getElem? hb]
      exact .inl ⟨start, stop, i, j, hruns, hjoins, rfl⟩
    · rw [hjoined]
      refine .inr ⟨rfl, fun start' stop' hruns' => ?_⟩
      obtain ⟨rfl, rfl⟩ := hruns.unique hruns'
      exact hcannot

/-- **What becomes of a shape.** -/
theorem isInferred_inferEdge? (h : ComparesDistances α) (shapes : List (Shape α)) (s : Shape α) :
    IsInferred (shapes.filterMap Shape.bounds) s (inferEdge? (candidates shapes) s) := by
  obtain ⟨start, stop, i, j, hruns, hjoins, hedge⟩ | ⟨hnone, hcannot⟩ := inferEdge?_cases h shapes s
  · rw [hedge]
    refine ⟨?_, fun e => ?_, fun e he => ?_⟩
    · exact iff_of_true rfl ⟨start, stop, hruns, hjoins.canJoin⟩
    · constructor
      · rintro ⟨⟩
        exact ⟨start, stop, i, j, hruns, hjoins, rfl⟩
      · rintro ⟨start', stop', i', j', hruns', hjoins', rfl⟩
        obtain ⟨rfl, rfl⟩ := hruns.unique hruns'
        obtain ⟨rfl, rfl⟩ := hjoins.unique hjoins'
        rfl
    · cases he
      refine ⟨fun hid => hjoins.ne (generatedId_injective hid), start, stop, i, j, hruns, rfl, ?_⟩
      exact ⟨hjoins.inReach.1, rfl, hjoins.inReach.2⟩
  · rw [hnone]
    refine ⟨iff_of_false Bool.false_ne_true ?_,
      fun e => iff_of_false (Option.some_ne_none e).symm ?_, fun e he => ?_⟩
    · rintro ⟨start, stop, hruns, hcan⟩
      exact hcannot start stop hruns hcan
    · rintro ⟨start, stop, i, j, hruns, hjoins, -⟩
      exact hcannot start stop hruns hjoins.canJoin
    · cases he

/-- Only connectors become edges. -/
theorem inferEdge?_of_not_isConnector {cs : List (Candidate α)} {s : Shape α}
    (h : ¬ s.figure.isConnector) : inferEdge? cs s = none := by
  rw [inferEdge?, Shape.endpoints]
  cases hs : s.figure with
  | line | arrow => exact absurd (hs ▸ rfl) h
  | rectangle | ellipse | freehand | text => rfl

/-- **The edges behind any shapes**, when distances are compared as a total order.  The shapes that
can stand for nodes are given different names, in the order in which they are drawn.  Each connector
in turn becomes at most one edge. -/
theorem edges_inferDocument (h : ComparesDistances α) (positions : Bool) (shapes : List (Shape α)) :
    (∀ s : Shape α, s.bounds.isSome = s.figure.isNodeCapable) ∧
    (inferDocument positions shapes).nodes.map Node.id =
      (List.range (shapes.filterMap Shape.bounds).length).map generatedId ∧
    Function.Injective generatedId ∧
    ∃ edge? : Shape α → Option (Edge α),
      (inferDocument positions shapes).edges =
        (shapes.filter fun s => s.figure.isConnector).filterMap edge? ∧
      ∀ s, IsInferred (shapes.filterMap Shape.bounds) s (edge? s) := by
  refine ⟨isSome_bounds, ?_, generatedId_injective, inferEdge? (candidates shapes), ?_,
    isInferred_inferEdge? h shapes⟩
  · have hids := ids_candidates shapes
    rw [← boxes_candidates, List.length_map, ← hids, inferDocument_eq, Document.nodes_ofGraph,
      List.map_map]
    rfl
  · rw [inferDocument_eq, Document.edges_ofGraph, List.filterMap_filter]
    refine List.filterMap_congr fun s _ => ?_
    by_cases hs : s.figure.isConnector
    · rw [if_pos hs]
    · rw [if_neg hs, inferEdge?_of_not_isConnector hs]

end Connecting

/-- A connector both ends of which are nearest to the first of two rectangles, of which only its end
has the second within reach, and one whose end is too far from both. -/
theorem edges_inferDocument_collision :
    let rectangle (y : Float) : Shape Float := .new ⟨0⟩ 0 y (.rectangle 120 60 4 none)
    let arrow (p q : Point Float) : Shape Float := .connector ⟨0⟩ [p, q] (some (false, true))
    let shapes : List (Shape Float) :=
      [rectangle 0, rectangle 80, arrow ⟨10, 10⟩ ⟨60, 59⟩, arrow ⟨60, 30⟩ ⟨60, 300⟩]
    ComparesDistances Float ∧
      (inferDocument false shapes).edges.map (fun e => (e.source, e.target)) = [("a", "b")] := by
  intro rectangle arrow shapes
  obtain ⟨-, -, -, edge?, hedges, hinferred⟩ :=
    edges_inferDocument comparesDistances_float false shapes
  have hboxes : shapes.filterMap Shape.bounds = [⟨0, 0, 120, 60⟩, ⟨0, 80, 120, 60⟩] := rfl
  have hconnectors : (shapes.filter fun s => s.figure.isConnector) =
      [arrow ⟨10, 10⟩ ⟨60, 59⟩, arrow ⟨60, 30⟩ ⟨60, 300⟩] := rfl
  rw [hboxes] at hinferred
  have hjoined : edge? (arrow ⟨10, 10⟩ ⟨60, 59⟩) =
      some ((arrow ⟨10, 10⟩ ⟨60, 59⟩).edgeBetween 0 1) := by
    refine ((hinferred _).eq_some_iff _).mpr
      ⟨_, _, 0, 1, endpoints_eq_some_iff.mp rfl, .stopMoves ?_ ?_ ?_, rfl⟩
    · decide +kernel
    · decide +kernel
    · decide +kernel
  have hnone : edge? (arrow ⟨60, 30⟩ ⟨60, 300⟩) = none := by
    refine Option.not_isSome_iff_eq_none.mp fun hsome => ?_
    obtain ⟨start, stop, hruns, hcan⟩ := (hinferred _).isSome_iff.mp hsome
    obtain ⟨j, hj⟩ := hcan.nearStop
    have hfar : ∀ j < 2, ¬ InReach [⟨0, 0, 120, 60⟩, ⟨0, 80, 120, 60⟩]
        ((arrow ⟨60, 30⟩ ⟨60, 300⟩).absolute ⟨60 - 60, 300 - 30⟩) j := by decide +kernel
    cases endpoints_eq_some_iff.mpr hruns
    exact hfar j hj.lt_length hj
  refine ⟨comparesDistances_float, ?_⟩
  rw [hedges, hconnectors]
  simp only [List.filterMap_cons, hjoined, hnone, List.filterMap_nil, List.map_cons, List.map_nil]
  decide

end Diagram
