import Mathlib.Data.List.Chain
import Mathlib.Data.List.GetD
import Mathlib.Order.Bounds.Basic
import Mathlib.Order.MinMax
import Diagram.Proofs.Cycles

/-!
# Layers as depths

The layer of a vertex is the length of the longest path that ends in it.  A layer is only ever
raised to one more than that of a vertex an edge comes from, so there is always a path of its
length.  And along an order in which every edge leads onwards the layers end up rising along every
edge, so no path is longer.

Which of these orders is taken makes no difference.  The order in which the search leaves the
vertices is one of them; so is what any sorting of an acyclic graph yields.
-/

namespace Diagram

variable {arcs : List Arc} {n : Nat}

/-! ## Paths -/

/-- The numbers of edges, loops apart, of the paths that end in a vertex. -/
def pathLengths (arcs : List Arc) (v : Nat) : Set Nat :=
  { k | ∃ before : List Nat, (before ++ [v]).IsChain (Leads arcs) ∧ before.length = k }

theorem zero_mem_pathLengths (arcs : List Arc) (v : Nat) : 0 ∈ pathLengths arcs v :=
  ⟨[], .singleton v, rfl⟩

/-- A path of some edges is a path to a vertex and an edge from there. -/
theorem succ_mem_pathLengths {v k : Nat} :
    k + 1 ∈ pathLengths arcs v ↔ ∃ u, k ∈ pathLengths arcs u ∧ Leads arcs u v := by
  constructor
  · rintro ⟨before, hchain, hlength⟩
    obtain rfl | ⟨before, u, rfl⟩ := List.eq_nil_or_concat' before
    · cases hlength
    · obtain ⟨hchain, -, hlast⟩ := List.isChain_append.mp hchain
      exact ⟨u, ⟨before, hchain, by simpa using hlength⟩, by simpa using hlast⟩
  · rintro ⟨u, ⟨before, hchain, rfl⟩, huv⟩
    refine ⟨before ++ [u], List.isChain_append.mpr ⟨hchain, .singleton v, ?_⟩, by simp⟩
    simpa using huv

/-! ## The longest paths -/

/-- Layers all of which are the lengths of paths. -/
structure AreLengths (n : Nat) (arcs : List Arc) (layers : List Nat) : Prop where
  length : layers.length = n
  mem : ∀ v < n, layers.getD v 0 ∈ pathLengths arcs v

/-- **Passing a vertex keeps layers the lengths of paths**: where one is raised, an edge is put at
the end of a path. -/
theorem areLengths_raiseTargets (harcs : ∀ arc ∈ arcs, arc.1 < n) {layers : List Nat}
    (h : AreLengths n arcs layers) (x : Nat) : AreLengths n arcs (raiseTargets arcs layers x) := by
  refine ⟨(length_raiseTargets arcs layers x).trans h.length, fun v hv => ?_⟩
  rw [getD_raiseTargets (h.length ▸ hv)]
  split
  · next harc =>
    rcases max_choice (layers.getD v 0) (layers.getD x 0 + 1) with hmax | hmax <;> rw [hmax]
    · exact h.mem v hv
    · exact succ_mem_pathLengths.mpr ⟨x, h.mem x (harcs _ harc.1), harc.1, harc.2.symm⟩
  · exact h.mem v hv

/-- There is a path as long as a layer says, whatever the order. -/
theorem areLengths_longestPaths (harcs : ∀ arc ∈ arcs, arc.1 < n) (order : List Nat) :
    AreLengths n arcs (longestPaths n arcs order) := by
  refine List.foldlRecOn order (raiseTargets arcs) ⟨List.length_replicate, fun v hv => ?_⟩
    fun layers h x _ => areLengths_raiseTargets harcs h x
  simpa [List.getD_eq_getElem?_getD, hv] using zero_mem_pathLengths arcs v

/-- Where layers rise along every edge, no path is longer than the layer says in which it ends. -/
theorem le_of_mem_pathLengths {layers : List Nat}
    (hrises : ∀ u v, Leads arcs u v → layers.getD u 0 < layers.getD v 0) {k v : Nat}
    (hk : k ∈ pathLengths arcs v) : k ≤ layers.getD v 0 := by
  induction k generalizing v with
  | zero => exact Nat.zero_le _
  | succ k ih =>
    obtain ⟨u, hu, huv⟩ := succ_mem_pathLengths.mp hk
    exact Nat.succ_le_of_lt (lt_of_le_of_lt (ih hu) (hrises u v huv))

/-- All vertices, each once, in an order in which every edge leads onwards. -/
structure IsTopological (n : Nat) (arcs : List Arc) (order : List Nat) : Prop where
  nodup : order.Nodup
  mem : ∀ v, v ∈ order ↔ v < n
  onward : ∀ u v, (u, v) ∈ arcs → u ≠ v → [u, v].Sublist order

/-- Every layer is the length of the longest path that ends in its vertex, and layers rise along
every edge. -/
structure AreDepths (n : Nat) (arcs : List Arc) (layers : List Nat) : Prop where
  length : layers.length = n
  greatest : ∀ v < n, IsGreatest (pathLengths arcs v) (layers.getD v 0)
  lt : ∀ u v, Leads arcs u v → layers.getD u 0 < layers.getD v 0

/-- **The layers are the lengths of the longest paths**, in whatever order every edge leads
onwards. -/
theorem areDepths_longestPaths (harcs : ∀ arc ∈ arcs, arc.1 < n) {order : List Nat}
    (horder : IsTopological n arcs order) : AreDepths n arcs (longestPaths n arcs order) := by
  have hlengths := areLengths_longestPaths harcs order
  have hrises := rises_longestPaths horder.nodup horder.mem horder.onward
  have hlt : ∀ u v, Leads arcs u v →
      (longestPaths n arcs order).getD u 0 < (longestPaths n arcs order).getD v 0 :=
    fun u v huv => hrises.lt u v huv.1 huv.2 ((horder.mem u).mpr (harcs _ huv.1))
  exact ⟨hlengths.length, fun v hv => ⟨hlengths.mem v hv, fun k hk => le_of_mem_pathLengths hlt hk⟩,
    hlt⟩

namespace AreDepths

variable {layers layers' : List Nat}

/-- The depths of a graph are determined by it. -/
theorem unique (h : AreDepths n arcs layers) (h' : AreDepths n arcs layers') :
    layers = layers' := by
  refine List.ext_getElem (h.length.trans h'.length.symm) fun v hv hv' => ?_
  have heq := (h.greatest v (h.length ▸ hv)).unique (h'.greatest v (h.length ▸ hv))
  rwa [List.getD_eq_getElem _ _ hv, List.getD_eq_getElem _ _ hv'] at heq

/-- **Below a layer in which there is a vertex, there is none without.** -/
theorem exists_eq (harcs : ∀ arc ∈ arcs, arc.1 < n) (h : AreDepths n arcs layers) {v l : Nat}
    (hv : v < n) (hl : l ≤ layers.getD v 0) : ∃ u < n, layers.getD u 0 = l := by
  obtain ⟨d, hd⟩ := Nat.exists_eq_add_of_le hl
  induction d generalizing v with
  | zero => exact ⟨v, hv, hd⟩
  | succ d ih =>
    -- The last but one vertex of a longest path is in the layer below.
    obtain ⟨u, hu, huv⟩ := succ_mem_pathLengths.mp (hd ▸ (h.greatest v hv).1 : l + d + 1 ∈ _)
    have hun : u < n := harcs _ huv.1
    have hle := (h.greatest u hun).2 hu
    have hlt := h.lt u v huv
    exact ih hun (by omega) (by omega)

end AreDepths

/-! ## Orders -/

/-- The order in which the search leaves the vertices. -/
theorem isTopological_search (harcs : ∀ arc ∈ arcs, arc.1 < n ∧ arc.2 < n) :
    IsTopological n (reoriented arcs (search n arcs).reversed) (search n arcs).finished := by
  obtain ⟨hnodup, hmem⟩ := Search.mem_finished_search fun arc harc => (harcs arc harc).2
  exact ⟨hnodup, hmem, fun u v harc hne => sublist_of_mem_reoriented harcs harc hne⟩

/-- The edges of a graph, loops left out. -/
def withoutLoops (arcs : List Arc) : List Arc := arcs.filter fun arc => arc.1 ≠ arc.2

theorem mem_withoutLoops {u v : Nat} : (u, v) ∈ withoutLoops arcs ↔ Leads arcs u v := by
  simp [withoutLoops, Leads]

theorem leads_withoutLoops (arcs : List Arc) : Leads (withoutLoops arcs) = Leads arcs := by
  funext u v
  rw [Leads, mem_withoutLoops, Leads]
  exact propext (and_iff_left_of_imp And.right)

/-- Loops make no layer deeper. -/
theorem areDepths_withoutLoops {layers : List Nat} :
    AreDepths n (withoutLoops arcs) layers ↔ AreDepths n arcs layers := by
  have hlengths : pathLengths (withoutLoops arcs) = pathLengths arcs := by
    funext v
    rw [pathLengths, leads_withoutLoops, pathLengths]
  constructor
  · rintro ⟨hlength, hgreatest, hlt⟩
    rw [hlengths] at hgreatest
    rw [leads_withoutLoops] at hlt
    exact ⟨hlength, hgreatest, hlt⟩
  · rintro ⟨hlength, hgreatest, hlt⟩
    rw [← hlengths] at hgreatest
    rw [← leads_withoutLoops] at hlt
    exact ⟨hlength, hgreatest, hlt⟩

/-- What is asked of a function that sorts graphs: a graph without cycles or loops is put into an
order in which every edge leads onwards. -/
def Sorts (sort : Nat → List Arc → Option (List Nat)) : Prop :=
  ∀ n arcs, (∀ arc ∈ arcs, arc.1 < n ∧ arc.2 < n) → (∀ arc ∈ arcs, arc.1 ≠ arc.2) →
    IsAcyclic arcs → ∃ order, sort n arcs = some order ∧ IsTopological n arcs order

/-- The layers by a sorting of the graph without its loops, with those edges turned around that are
given; by the order of the numbers if it cannot be sorted. -/
def layersBy (sort : Nat → List Arc → Option (List Nat)) (n : Nat) (arcs : List Arc)
    (reversed : List Nat) : List Nat :=
  let onward := withoutLoops (reoriented arcs reversed)
  longestPaths n onward ((sort n onward).getD (List.range n))

theorem mem_reoriented_lt (harcs : ∀ arc ∈ arcs, arc.1 < n ∧ arc.2 < n) {reversed : List Nat} :
    ∀ arc ∈ reoriented arcs reversed, arc.1 < n ∧ arc.2 < n := by
  intro arc harc
  obtain ⟨e, s, t, he, rfl⟩ := mem_reoriented.mp harc
  have hst := harcs _ (List.mem_of_getElem? he)
  split
  · exact hst.symm
  · exact hst

/-- Whatever sorts a graph whose edges that lead back are turned around succeeds. -/
theorem Sorts.exists_order {sort : Nat → List Arc → Option (List Nat)} (hsort : Sorts sort)
    (harcs : ∀ arc ∈ arcs, arc.1 < n ∧ arc.2 < n) :
    ∃ order, sort n (withoutLoops (reoriented arcs (search n arcs).reversed)) = some order ∧
      IsTopological n (withoutLoops (reoriented arcs (search n arcs).reversed)) order := by
  have hacyclic : IsAcyclic (withoutLoops (reoriented arcs (search n arcs).reversed)) := by
    rw [IsAcyclic, leads_withoutLoops]
    exact isAcyclic_reoriented harcs
  refine hsort n _ (fun arc harc => mem_reoriented_lt harcs arc (List.mem_of_mem_filter harc))
    (fun arc harc => ?_) hacyclic
  exact (mem_withoutLoops.mp harc).2

/-- Sorting by the order in which the search leaves the vertices, if it finds no edge that leads
back. -/
def sortBySearch (n : Nat) (arcs : List Arc) : Option (List Nat) :=
  if (search n arcs).reversed = [] then some (search n arcs).finished else none

@[simp] theorem reoriented_nil (arcs : List Arc) : reoriented arcs [] = arcs := by
  simp [reoriented]

theorem sorts_sortBySearch : Sorts sortBySearch := by
  intro n arcs harcs _ hacyclic
  have hreversed := reversed_eq_nil (fun arc harc => (harcs arc harc).2) hacyclic
  have horder := isTopological_search harcs
  rw [hreversed, reoriented_nil] at horder
  exact ⟨_, if_pos hreversed, horder⟩

/-! ## The layers of a graph -/

/-- **Layers are the lengths of longest paths.**  A graph whose edges that lead back are turned
around can be sorted, and by whatever sorting they are found, the layers are the same: that of a
vertex is the number of edges of the longest path that ends in it.  Every edge leads to a higher
layer, and up to the highest no layer is empty. -/
theorem isGreatest_assignLayers (harcs : ∀ arc ∈ arcs, arc.1 < n ∧ arc.2 < n)
    {sort : Nat → List Arc → Option (List Nat)} (hsort : Sorts sort) :
    let reversed := (search n arcs).reversed
    let onward := reoriented arcs reversed
    let layers := layersBy sort n arcs reversed
    assignLayers n arcs = (layers, reversed) ∧ (sort n (withoutLoops onward)).isSome ∧
      (∀ v < n, IsGreatest (pathLengths onward v) (layers.getD v 0)) ∧
      (∀ u v, Leads onward u v → layers.getD u 0 < layers.getD v 0) ∧
      ∀ v < n, ∀ l ≤ layers.getD v 0, ∃ u < n, layers.getD u 0 = l := by
  intro reversed onward layers
  have honward : ∀ arc ∈ onward, arc.1 < n := fun arc harc => (mem_reoriented_lt harcs arc harc).1
  obtain ⟨order, hsome, horder⟩ := hsort.exists_order harcs
  have hlayers : layers = longestPaths n (withoutLoops onward) order := by
    simp only [layers, layersBy, hsome, Option.getD_some, onward, reversed]
  have hdepths : AreDepths n onward layers := by
    rw [← areDepths_withoutLoops, hlayers]
    exact areDepths_longestPaths (fun arc harc => honward arc (List.mem_of_mem_filter harc)) horder
  have hsame : (assignLayers n arcs).1 = layers :=
    (areDepths_longestPaths honward (isTopological_search harcs)).unique hdepths
  refine ⟨Prod.ext hsame rfl, ?_, hdepths.greatest, hdepths.lt,
    fun v hv l hl => hdepths.exists_eq honward hv hl⟩
  rw [hsome]
  rfl

/-- A triangle with a loop: its last edge is turned around, and of the two paths to the last vertex
the longer one counts. -/
theorem isGreatest_assignLayers_triangle :
    let triangle : List Arc := [(0, 1), (1, 1), (1, 2), (2, 0)]
    let onward : List Arc := [(0, 1), (1, 1), (1, 2), (0, 2)]
    (∀ arc ∈ triangle, arc.1 < 3 ∧ arc.2 < 3) ∧ Sorts sortBySearch ∧
      assignLayers 3 triangle = ([0, 1, 2], [3]) ∧ IsGreatest (pathLengths onward 2) 2 ∧
      ∃ u < 3, [0, 1, 2].getD u 0 = 1 := by
  intro triangle onward
  have htriangle : ∀ arc ∈ triangle, arc.1 < 3 ∧ arc.2 < 3 := by decide
  have hlayers : layersBy sortBySearch 3 triangle (search 3 triangle).reversed = [0, 1, 2] := by
    decide
  obtain ⟨hassign, -, hgreatest, -, hfull⟩ := isGreatest_assignLayers htriangle sorts_sortBySearch
  rw [hlayers] at hassign hgreatest hfull
  exact ⟨htriangle, sorts_sortBySearch, hassign, hgreatest 2 (by decide),
    hfull 2 (by decide) 1 (by decide)⟩

end Diagram
