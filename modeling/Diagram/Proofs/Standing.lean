import Diagram.Proofs.Sweeps

/-!
# Where vertices stand

A sweep writes the layers anew while it reads the places that are recorded, those of the layer next
to the one that is sorted and, for a vertex without neighbours, its own.  Still no vertex is lost
and none is doubled: a layer is only sorted, and then the places of its vertices, and of no others,
are recorded.  So after each sweep, the first of which goes down and the next one up, every vertex
of a layer stands in it once, at the place that is recorded.  How the means are compared, and
whether they are rounded, makes no difference to this.
-/

namespace Diagram

/-- The vertices of every layer stand in it, each of them once, and at its recorded place. -/
structure LayerOrder.Arranges (o : LayerOrder) (layerOf : List Nat) : Prop where
  length_eq : o.layers.length = layerCount layerOf
  mem_iff : ∀ l v : Nat, v ∈ o.layers.getD l [] ↔ layerOf[v]? = some l
  nodup : ∀ l : Nat, (o.layers.getD l []).Nodup
  places_eq : ∀ l v : Nat, layerOf[v]? = some l →
    o.places[v]? = some ((o.layers.getD l []).idxOf v)

/-! ## Single sweeps -/

section

variable (α : Type) [Scalar α] (a : Adjacency)

/-- The order after a number of sweeps, of which the first goes down, the next one up, and so on. -/
def afterSweeps (o : LayerOrder) : Nat → LayerOrder
  | 0 => o
  | k + 1 =>
    if k % 2 = 0 then sweepDown α a (afterSweeps o k) else sweepUp α a (afterSweeps o k)

theorem sweeps_succ (k : Nat) (o : LayerOrder) :
    sweeps α a (k + 1) o = sweepUp α a (sweepDown α a (sweeps α a k o)) := by
  induction k generalizing o with
  | zero => rfl
  | succ k ih => exact ih (sweepUp α a (sweepDown α a o))

/-- Sweeps come in pairs. -/
theorem afterSweeps_two_mul (o : LayerOrder) (k : Nat) :
    afterSweeps α a o (2 * k) = sweeps α a k o := by
  induction k with
  | zero => rfl
  | succ k ih =>
    rw [sweeps_succ, ← ih, Nat.mul_succ, afterSweeps, if_neg (by omega), afterSweeps,
      if_pos (by omega)]

theorem rearranges_afterSweeps (o : LayerOrder) (k : Nat) :
    Rearranges o.layers (afterSweeps α a o k).layers := by
  induction k with
  | zero => exact .refl o.layers
  | succ k ih =>
    rw [afterSweeps]
    split
    · exact ih.trans (rearranges_sweepDown α a _)
    · exact ih.trans (rearranges_sweepUp α a _)

theorem isRecorded_afterSweeps {o : LayerOrder} {n : Nat} (h : o.IsRecorded n) (k : Nat) :
    (afterSweeps α a o k).IsRecorded n := by
  induction k with
  | zero => exact h
  | succ k ih =>
    rw [afterSweeps]
    split
    · exact isRecorded_sweepDown α a ih
    · exact isRecorded_sweepUp α a ih

end

/-! ## Places -/

namespace LayerOrder

variable {o : LayerOrder} {n : Nat}

/-- The place that is recorded of a vertex. -/
theorem IsRecorded.getElem?_places (h : o.IsRecorded n) {row : List Nat} (hrow : row ∈ o.layers)
    {v : Nat} (hv : v ∈ row) : o.places[v]? = some (row.idxOf v) := by
  have hlt := (h.lt_of_mem hrow hv).trans_eq h.size_eq.symm
  rw [← h.records row hrow v hv, Array.getElem?_eq_getElem hlt, Array.getD_eq_getD_getElem?,
    Array.getElem?_eq_getElem hlt, Option.getD_some]

/-- **An order whose places are recorded, and whose layers have kept their vertices,** has every
vertex in its layer and at its place. -/
theorem IsRecorded.arranges (h : o.IsRecorded n) {layerOf : List Nat}
    (hrows : Rearranges (initialOrder layerOf).layers o.layers) : o.Arranges layerOf where
  length_eq := length_of_rearranges hrows
  mem_iff _ _ := mem_of_rearranges hrows
  nodup := nodup_getD_of_rearranges hrows
  places_eq l v hv := by
    have hmem : v ∈ o.layers.getD l [] := (mem_of_rearranges hrows).mpr hv
    have hl : l < o.layers.length := by
      by_contra hl
      rw [List.getD_eq_default _ _ (not_lt.mp hl)] at hmem
      exact List.not_mem_nil hmem
    rw [List.getD_eq_getElem _ _ hl] at hmem ⊢
    exact h.getElem?_places (List.getElem_mem hl) hmem

end LayerOrder

/-- **No sweep loses a vertex.**  After any number of them, each layer holds exactly the vertices
that were put into it, each once, and the recorded place of a vertex is where it stands in its
layer; the order that is returned is the one after eight sweeps. -/
theorem arranges_orderLayers (α : Type) [Scalar α] (layerOf : List Nat)
    (segments : List (Nat × Nat)) :
    let swept := afterSweeps α (adjacency layerOf.length segments) (initialOrder layerOf)
    (∀ k, (swept k).Arranges layerOf) ∧ orderLayers α layerOf segments = swept 8 := by
  intro swept
  have hrecorded := isRecorded_initialOrder layerOf
  refine ⟨fun k => ?_, (afterSweeps_two_mul α _ _ 4).symm⟩
  exact (isRecorded_afterSweeps α _ hrecorded k).arranges (rearranges_afterSweeps α _ _ k)

end Diagram
