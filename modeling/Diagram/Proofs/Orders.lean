import Mathlib.Data.List.GetD
import Mathlib.Data.List.Perm.Basic
import Mathlib.Data.List.Sigma
import Mathlib.Order.MinMax
import Diagram.Layout.Order

/-!
# The vertices of a layer

Sorting changes the order within a layer and nothing else: however many sweeps are made, and however
the means compare, a layer holds the vertices that were put into it, each once.
-/

namespace Diagram

/-- Layers with the same vertices, each in an order of its own. -/
abbrev Rearranges (layers layers' : List (List Nat)) : Prop := List.Forall₂ List.Perm layers layers'

theorem Rearranges.refl (layers : List (List Nat)) : Rearranges layers layers :=
  List.forall₂_same.mpr fun l _ => .refl l

theorem Rearranges.trans {l₁ l₂ l₃ : List (List Nat)} (h : Rearranges l₁ l₂)
    (h' : Rearranges l₂ l₃) : Rearranges l₁ l₃ := by
  induction h generalizing l₃ with
  | nil => exact h'
  | cons hfirst _ ih =>
    cases h' with
    | cons hfirst' hrest' => exact .cons (hfirst.trans hfirst') (ih hrest')

theorem Rearranges.reverse {layers layers' : List (List Nat)} (h : Rearranges layers layers') :
    Rearranges layers.reverse layers'.reverse :=
  List.rel_reverse h

theorem Rearranges.perm_getD {layers layers' : List (List Nat)} (h : Rearranges layers layers')
    (l : Nat) : (layers.getD l []).Perm (layers'.getD l []) := by
  by_cases hl : l < layers.length
  · have hl' := h.length_eq ▸ hl
    rw [List.getD_eq_getElem _ _ hl, List.getD_eq_getElem _ _ hl']
    exact (List.forall₂_iff_get.mp h).2 l hl hl'
  · rw [List.getD_eq_default _ _ (not_lt.mp hl),
      List.getD_eq_default _ _ (h.length_eq ▸ not_lt.mp hl)]

/-! ## Sweeps -/

section

variable (α : Type) [Scalar α]

theorem perm_reorder (adjacent : Array (List Nat)) (places : Array Nat) (layer : List Nat) :
    layer.Perm (reorder α adjacent places layer).1 := by
  rw [reorder]
  refine List.Perm.trans ?_ ((List.mergeSort_perm _ _).map Prod.snd).symm
  rw [List.map_map]
  exact .of_eq (List.map_id layer).symm

theorem rearranges_reorderAll (adjacent : Array (List Nat)) (places : Array Nat)
    (layers : List (List Nat)) : Rearranges layers (reorderAll α adjacent places layers).1 := by
  induction layers generalizing places with
  | nil => exact .nil
  | cons l ls ih => exact .cons (perm_reorder α adjacent places l) (ih _)

theorem rearranges_reorderTail (adjacent : Array (List Nat)) (o : LayerOrder) :
    Rearranges o.layers (reorderTail α adjacent o).layers := by
  obtain ⟨layers, places⟩ := o
  cases layers with
  | nil => exact .nil
  | cons l ls => exact .cons (.refl l) (rearranges_reorderAll α adjacent places ls)

theorem rearranges_sweepDown (a : Adjacency) (o : LayerOrder) :
    Rearranges o.layers (sweepDown α a o).layers :=
  rearranges_reorderTail α a.before o

theorem rearranges_sweepUp (a : Adjacency) (o : LayerOrder) :
    Rearranges o.layers (sweepUp α a o).layers := by
  have h := (rearranges_reorderTail α a.behind { o with layers := o.layers.reverse }).reverse
  rwa [List.reverse_reverse] at h

/-- **However many sweeps are made, each layer keeps its vertices.** -/
theorem rearranges_sweeps (a : Adjacency) (k : Nat) (o : LayerOrder) :
    Rearranges o.layers (sweeps α a k o).layers := by
  induction k generalizing o with
  | zero => exact .refl o.layers
  | succ k ih =>
    have hboth := (rearranges_sweepDown α a o).trans (rearranges_sweepUp α a (sweepDown α a o))
    exact hboth.trans (ih _)

end

/-! ## The first order -/

/-- Where no step makes less of what there is, and each makes something of its member, the whole is
no less than the beginning and than what is made of each member. -/
theorem le_foldl {β γ : Type} [Preorder β] {f : β → γ → β} (g : γ → β) (hgrow : ∀ b c, b ≤ f b c)
    (hmem : ∀ b c, g c ≤ f b c) (cs : List γ) (b : β) :
    b ≤ cs.foldl f b ∧ ∀ c ∈ cs, g c ≤ cs.foldl f b := by
  induction cs generalizing b with
  | nil => exact ⟨le_rfl, nofun⟩
  | cons c cs ih =>
    obtain ⟨hle, hall⟩ := ih (f b c)
    exact ⟨(hgrow b c).trans hle, List.forall_mem_cons.mpr ⟨(hmem b c).trans hle, hall⟩⟩

section

variable (layerOf : List Nat)

/-- The number of layers. -/
def layerCount : Nat := layerOf.foldl (fun m l => max m (l + 1)) 0

/-- Every layer is counted. -/
theorem lt_layerCount {l : Nat} (h : l ∈ layerOf) : l < layerCount layerOf := by
  have hall := le_foldl (fun l => l + 1) (fun m l => le_max_left m (l + 1))
    (fun m l => le_max_right m (l + 1)) layerOf 0
  exact Nat.lt_of_succ_le (hall.2 l h)

/-- The vertices of one layer, by number. -/
def initialLayer (l : Nat) : List Nat := (layerOf.zipIdx.filter fun v => v.1 = l).map Prod.snd

theorem layers_initialOrder : (initialOrder layerOf).layers =
    (List.range (layerCount layerOf)).map (initialLayer layerOf) := rfl

theorem mem_initialLayer {l v : Nat} : v ∈ initialLayer layerOf l ↔ layerOf[v]? = some l := by
  simp [initialLayer, List.mem_zipIdx_iff_getElem?]

theorem nodup_initialLayer (l : Nat) : (initialLayer layerOf l).Nodup :=
  (List.nodup_zipIdx_map_snd layerOf).sublist (List.filter_sublist.map Prod.snd)

theorem nodup_initialOrder : (initialOrder layerOf).layers.flatten.Nodup := by
  rw [layers_initialOrder, List.nodup_flatten, List.pairwise_map]
  constructor
  · intro row hrow
    obtain ⟨l, -, rfl⟩ := List.mem_map.mp hrow
    exact nodup_initialLayer layerOf l
  · refine List.nodup_range.imp fun {k l} hne v hk hl => ?_
    rw [mem_initialLayer] at hk hl
    exact hne (Option.some.inj (hk.symm.trans hl))

theorem mem_initialOrder {l v : Nat} :
    v ∈ (initialOrder layerOf).layers.getD l [] ↔ layerOf[v]? = some l := by
  rw [layers_initialOrder, List.getD_eq_getElem?_getD, List.getElem?_map]
  by_cases hl : l < layerCount layerOf
  · rw [List.getElem?_range hl]
    exact mem_initialLayer layerOf
  · rw [List.getElem?_eq_none (by simpa using hl)]
    have hnot : layerOf[v]? ≠ some l := fun h =>
      hl (lt_layerCount layerOf (List.mem_of_getElem? h))
    simp [hnot]

section

variable {layerOf} {layers : List (List Nat)} (h : Rearranges (initialOrder layerOf).layers layers)

include h

theorem length_of_rearranges : layers.length = layerCount layerOf := by
  rw [← h.length_eq, layers_initialOrder, List.length_map, List.length_range]

theorem mem_of_rearranges {l v : Nat} : v ∈ layers.getD l [] ↔ layerOf[v]? = some l :=
  (h.perm_getD l).mem_iff.symm.trans (mem_initialOrder layerOf)

theorem lt_length_of_rearranges {l v : Nat} (hv : v ∈ layers.getD l []) : v < layerOf.length :=
  (List.getElem?_eq_some_iff.mp ((mem_of_rearranges h).mp hv)).1

theorem nodup_of_rearranges : layers.flatten.Nodup :=
  (List.Perm.flatten_congr h).nodup_iff.mp (nodup_initialOrder layerOf)

theorem nodup_getD_of_rearranges (l : Nat) : (layers.getD l []).Nodup := by
  by_cases hl : l < layers.length
  · rw [List.getD_eq_getElem _ _ hl]
    exact (List.nodup_flatten.mp (nodup_of_rearranges h)).1 _ (List.getElem_mem hl)
  · rw [List.getD_eq_default _ _ (not_lt.mp hl)]
    exact .nil

end

end

/-! ## The final order -/

section

variable (α : Type) [Scalar α] (layerOf : List Nat) (segments : List (Nat × Nat))

theorem rearranges_orderLayers :
    Rearranges (initialOrder layerOf).layers (orderLayers α layerOf segments).layers :=
  rearranges_sweeps α _ 4 _

/-- **The vertices of a layer in the final order** are those that were put into it. -/
theorem mem_orderLayers {l v : Nat} :
    v ∈ (orderLayers α layerOf segments).layers.getD l [] ↔ layerOf[v]? = some l :=
  mem_of_rearranges (rearranges_orderLayers α layerOf segments)

/-- **No vertex stands in two layers**, or twice in one. -/
theorem nodup_orderLayers : (orderLayers α layerOf segments).layers.flatten.Nodup :=
  nodup_of_rearranges (rearranges_orderLayers α layerOf segments)

end

end Diagram
