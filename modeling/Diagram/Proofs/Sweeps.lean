import Mathlib
import Diagram.Proofs.Means
import Diagram.Proofs.Orders

/-!
# What a sweep leaves behind

The recorded places are those of the vertices in their rows, before every sweep and after it.  So
where the means of places compare as they are, a row is sorted by the mean places that its
neighbours have in the row before it, as that one stands in the end; and rows that are sorted
already, without a vertex that has no neighbours, stay as they are.
-/

namespace Diagram

/-! ## Recorded places -/

/-- The place of every vertex of a row is the recorded one. -/
def Records (places : Array Nat) (row : List Nat) : Prop :=
  ∀ v ∈ row, places.getD v 0 = row.idxOf v

theorem size_foldl_setIfInBounds (placed : List (Nat × Nat)) (places : Array Nat) :
    (placed.foldl (fun places (v, i) => places.setIfInBounds v i) places).size = places.size := by
  induction placed generalizing places with
  | nil => rfl
  | cons a placed ih => exact (ih _).trans Array.size_setIfInBounds

@[simp] theorem size_recordPlaces (places : Array Nat) (row : List Nat) :
    (recordPlaces places row).size = places.size :=
  size_foldl_setIfInBounds _ _

theorem getD_setIfInBounds_self {places : Array Nat} {v i : Nat} (h : v < places.size) :
    (places.setIfInBounds v i).getD v 0 = i := by
  rw [Array.getD_eq_getD_getElem?, Array.getElem?_setIfInBounds, if_pos rfl, if_pos h,
    Option.getD_some]

theorem getD_setIfInBounds_ne {places : Array Nat} {u v i : Nat} (h : u ≠ v) :
    (places.setIfInBounds u i).getD v 0 = places.getD v 0 := by
  rw [Array.getD_eq_getD_getElem?, Array.getElem?_setIfInBounds, if_neg h,
    ← Array.getD_eq_getD_getElem?]

/-- The places of a row, counted from `k` on. -/
def recordFrom (k : Nat) (places : Array Nat) (row : List Nat) : Array Nat :=
  (row.zipIdx k).foldl (fun places (v, i) => places.setIfInBounds v i) places

theorem recordFrom_cons (k : Nat) (places : Array Nat) (v : Nat) (row : List Nat) :
    recordFrom k places (v :: row) = recordFrom (k + 1) (places.setIfInBounds v k) row := rfl

theorem getD_recordFrom_of_notMem {row : List Nat} {v : Nat} (h : v ∉ row) (k : Nat)
    (places : Array Nat) : (recordFrom k places row).getD v 0 = places.getD v 0 := by
  induction row generalizing k places with
  | nil => rfl
  | cons u row ih =>
    rw [List.mem_cons, not_or] at h
    rw [recordFrom_cons, ih h.2, getD_setIfInBounds_ne (Ne.symm h.1)]

theorem getD_recordFrom {row : List Nat} (hnodup : row.Nodup) {places : Array Nat}
    (hsize : ∀ v ∈ row, v < places.size) {v : Nat} (hv : v ∈ row) (k : Nat) :
    (recordFrom k places row).getD v 0 = k + row.idxOf v := by
  induction row generalizing k places with
  | nil => cases hv
  | cons u row ih =>
    obtain ⟨hu, hrow⟩ := List.nodup_cons.mp hnodup
    obtain ⟨hlt, hsize⟩ := List.forall_mem_cons.mp hsize
    rw [recordFrom_cons]
    by_cases hne : u = v
    · subst hne
      rw [getD_recordFrom_of_notMem hu, getD_setIfInBounds_self hlt, List.idxOf_cons_self,
        Nat.add_zero]
    · rw [ih hrow (by simpa using hsize) ((List.mem_cons.mp hv).resolve_left (Ne.symm hne)),
        List.idxOf_cons_ne _ hne]
      omega

theorem getD_recordFrom_le {n k : Nat} {row : List Nat} {places : Array Nat}
    (hplaces : ∀ v, places.getD v 0 ≤ n) (hrow : k + row.length ≤ n) (v : Nat) :
    (recordFrom k places row).getD v 0 ≤ n := by
  induction row generalizing k places with
  | nil => exact hplaces v
  | cons u row ih =>
    rw [List.length_cons] at hrow
    rw [recordFrom_cons]
    refine ih (fun w => ?_) (by omega)
    by_cases hw : u = w
    · by_cases hlt : u < places.size
      · rw [← hw, getD_setIfInBounds_self hlt]
        omega
      · rw [Array.setIfInBounds, dif_neg hlt]
        exact hplaces w
    · rw [getD_setIfInBounds_ne hw]
      exact hplaces w

/-- No place is recorded that a row does not have. -/
theorem getD_recordPlaces_le {n : Nat} {row : List Nat} {places : Array Nat}
    (hplaces : ∀ v, places.getD v 0 ≤ n) (hrow : row.length ≤ n) (v : Nat) :
    (recordPlaces places row).getD v 0 ≤ n :=
  getD_recordFrom_le hplaces ((Nat.zero_add _).trans_le hrow) v

theorem getD_recordPlaces_of_notMem {row : List Nat} {v : Nat} (h : v ∉ row) (places : Array Nat) :
    (recordPlaces places row).getD v 0 = places.getD v 0 :=
  getD_recordFrom_of_notMem h 0 places

theorem records_recordPlaces {row : List Nat} (hnodup : row.Nodup) {places : Array Nat}
    (hsize : ∀ v ∈ row, v < places.size) : Records (recordPlaces places row) row := fun _ hv =>
  (getD_recordFrom hnodup hsize hv 0).trans (Nat.zero_add _)

/-- What is recorded of some rows leaves the places of all other vertices alone. -/
theorem getD_foldl_recordPlaces_of_notMem {rows : List (List Nat)} {v : Nat}
    (h : v ∉ rows.flatten) (places : Array Nat) :
    (rows.foldl recordPlaces places).getD v 0 = places.getD v 0 := by
  induction rows generalizing places with
  | nil => rfl
  | cons row rows ih =>
    rw [List.flatten_cons, List.mem_append, not_or] at h
    exact (ih h.2 _).trans (getD_recordPlaces_of_notMem h.1 places)

/-- Rows that share no vertex do not spoil each other's records. -/
theorem records_foldl_recordPlaces {rows : List (List Nat)} (hnodup : rows.flatten.Nodup)
    {places : Array Nat} (hsize : ∀ v ∈ rows.flatten, v < places.size) :
    ∀ row ∈ rows, Records (rows.foldl recordPlaces places) row := by
  induction rows generalizing places with
  | nil => exact nofun
  | cons row rows ih =>
    rw [List.flatten_cons] at hnodup hsize
    obtain ⟨hrow, hrows, hdisjoint⟩ := List.nodup_append'.mp hnodup
    rw [List.forall_mem_append] at hsize
    refine List.forall_mem_cons.mpr ⟨fun v hv => ?_, ih hrows ?_⟩
    · exact (getD_foldl_recordPlaces_of_notMem (hdisjoint hv) _).trans
        (records_recordPlaces hrow hsize.1 v hv)
    · rw [size_recordPlaces]
      exact hsize.2

theorem getD_foldl_recordPlaces_le {n : Nat} {rows : List (List Nat)} {places : Array Nat}
    (hplaces : ∀ v, places.getD v 0 ≤ n) (hrows : ∀ row ∈ rows, row.length ≤ n) :
    ∀ v, (rows.foldl recordPlaces places).getD v 0 ≤ n := by
  induction rows generalizing places with
  | nil => exact hplaces
  | cons row rows ih =>
    obtain ⟨hrow, hrows⟩ := List.forall_mem_cons.mp hrows
    exact ih (getD_recordPlaces_le hplaces hrow) hrows

/-- Different vertices below `n` are no more than `n`. -/
theorem length_le_of_nodup {n : Nat} {row : List Nat} (hnodup : row.Nodup)
    (hlt : ∀ v ∈ row, v < n) : row.length ≤ n := by
  have hsub : row ⊆ List.range n := fun v hv => List.mem_range.mpr (hlt v hv)
  simpa using (hnodup.subperm hsub).length_le

/-- An order of vertices below `n` whose recorded places are those of its vertices. -/
structure LayerOrder.IsRecorded (o : LayerOrder) (n : Nat) : Prop where
  nodup : o.layers.flatten.Nodup
  size_eq : o.places.size = n
  lt : ∀ v ∈ o.layers.flatten, v < n
  le : ∀ v, o.places.getD v 0 ≤ n
  records : ∀ row ∈ o.layers, Records o.places row

/-- No vertex of a row stands in it twice. -/
theorem LayerOrder.IsRecorded.nodup_row {o : LayerOrder} {n : Nat} (h : o.IsRecorded n)
    {row : List Nat} (hrow : row ∈ o.layers) : row.Nodup :=
  (List.nodup_flatten.mp h.nodup).1 row hrow

theorem LayerOrder.IsRecorded.lt_of_mem {o : LayerOrder} {n : Nat} (h : o.IsRecorded n)
    {row : List Nat} (hrow : row ∈ o.layers) {v : Nat} (hv : v ∈ row) : v < n :=
  h.lt v (List.mem_flatten_of_mem hrow hv)

@[simp] theorem size_foldl_recordPlaces (rows : List (List Nat)) (places : Array Nat) :
    (rows.foldl recordPlaces places).size = places.size := by
  induction rows generalizing places with
  | nil => rfl
  | cons row rows ih => exact (ih _).trans (size_recordPlaces places row)

theorem isRecorded_initialOrder (layerOf : List Nat) :
    (initialOrder layerOf).IsRecorded layerOf.length := by
  have hnodup := nodup_initialOrder layerOf
  have hrow : ∀ row ∈ (initialOrder layerOf).layers, ∀ v ∈ row, v < layerOf.length := by
    intro row hrow v hv
    obtain ⟨l, -, rfl⟩ := List.mem_map.mp hrow
    exact (List.getElem?_eq_some_iff.mp ((mem_initialLayer layerOf).mp hv)).1
  have hlt : ∀ v ∈ (initialOrder layerOf).layers.flatten, v < layerOf.length := by
    intro v hv
    obtain ⟨row, hmem, hv⟩ := List.mem_flatten.mp hv
    exact hrow row hmem v hv
  refine ⟨hnodup, ?_, hlt, ?_, records_foldl_recordPlaces hnodup ?_⟩
  · exact (size_foldl_recordPlaces _ _).trans Array.size_replicate
  · refine getD_foldl_recordPlaces_le (fun v => ?_) fun row hmem => ?_
    · rw [Array.getD_eq_getD_getElem?, Array.getElem?_replicate]
      split <;> exact Nat.zero_le _
    · exact length_le_of_nodup ((List.nodup_flatten.mp hnodup).1 row hmem) (hrow row hmem)
  · rwa [Array.size_replicate]

theorem LayerOrder.IsRecorded.reverse {o : LayerOrder} {n : Nat} (h : o.IsRecorded n) :
    LayerOrder.IsRecorded { o with layers := o.layers.reverse } n where
  nodup := (List.reverse_perm o.layers).flatten.nodup_iff.mpr h.nodup
  size_eq := h.size_eq
  lt v hv := h.lt v ((List.reverse_perm o.layers).flatten.mem_iff.mp hv)
  le := h.le
  records row hrow := h.records row (List.mem_reverse.mp hrow)

section

variable (α : Type) [Scalar α]

/-- What is recorded in the course of sorting is what could be recorded afterwards. -/
theorem places_reorderAll (adjacent : Array (List Nat)) (places : Array Nat)
    (rows : List (List Nat)) : (reorderAll α adjacent places rows).2 =
      (reorderAll α adjacent places rows).1.foldl recordPlaces places := by
  induction rows generalizing places with
  | nil => rfl
  | cons row rows ih => exact ih _

/-- **The records are right after a sweep.** -/
theorem isRecorded_reorderTail (adjacent : Array (List Nat)) {o : LayerOrder} {n : Nat}
    (h : o.IsRecorded n) : (reorderTail α adjacent o).IsRecorded n := by
  have hperm := List.Perm.flatten_congr (rearranges_reorderTail α adjacent o)
  have hnodup := hperm.nodup_iff.mp h.nodup
  have hlt : ∀ v ∈ (reorderTail α adjacent o).layers.flatten, v < n := fun v hv =>
    h.lt v (hperm.mem_iff.mpr hv)
  obtain ⟨rows, places⟩ := o
  cases rows with
  | nil => exact h
  | cons row rows =>
    have hplaces : (reorderTail α adjacent ⟨row :: rows, places⟩).places =
        (reorderAll α adjacent places rows).1.foldl recordPlaces places := places_reorderAll ..
    obtain ⟨-, hrest, hdisjoint⟩ := List.nodup_append'.mp hnodup
    refine ⟨hnodup, ?_, hlt, ?_, ?_⟩ <;> rw [hplaces]
    · exact (size_foldl_recordPlaces _ _).trans h.size_eq
    · refine getD_foldl_recordPlaces_le h.le fun row hrow => ?_
      refine length_le_of_nodup ((List.nodup_flatten.mp hrest).1 row hrow) fun v hv => ?_
      exact hlt v (List.mem_append_right _ (List.mem_flatten_of_mem hrow hv))
    · refine List.forall_mem_cons.mpr ⟨fun v hv => ?_, ?_⟩
      · exact (getD_foldl_recordPlaces_of_notMem (hdisjoint hv) _).trans
          (h.records row List.mem_cons_self v hv)
      · exact records_foldl_recordPlaces hrest fun v hv =>
          (hlt v (List.mem_append_right _ hv)).trans_eq h.size_eq.symm

theorem isRecorded_sweepDown (a : Adjacency) {o : LayerOrder} {n : Nat} (h : o.IsRecorded n) :
    (sweepDown α a o).IsRecorded n :=
  isRecorded_reorderTail α a.before h

theorem isRecorded_sweepUp (a : Adjacency) {o : LayerOrder} {n : Nat} (h : o.IsRecorded n) :
    (sweepUp α a o).IsRecorded n :=
  (isRecorded_reorderTail α a.behind h.reverse).reverse

end

/-! ## Sorted rows -/

/-- The mean of some places is at most that of others, multiplied out. -/
def meanLe (ks ls : List Nat) : Bool := ks.sum * ls.length ≤ ls.sum * ks.length

theorem meanLe_iff {ks ls : List Nat} :
    meanLe ks ls = true ↔ ks.sum * ls.length ≤ ls.sum * ks.length := by
  rw [meanLe, decide_eq_true_iff]

theorem meanLe_total (ks ls : List Nat) : (meanLe ks ls || meanLe ls ks) = true := by
  rw [Bool.or_eq_true, meanLe_iff, meanLe_iff]
  exact Nat.le_total _ _

theorem meanLe_trans {ks ls ms : List Nat} (hne : ls ≠ []) (hkl : meanLe ks ls = true)
    (hlm : meanLe ls ms = true) : meanLe ks ms = true := by
  rw [meanLe_iff] at hkl hlm ⊢
  refine Nat.le_of_mul_le_mul_right ?_ (List.length_pos_iff.mpr hne)
  calc ks.sum * ms.length * ls.length = ks.sum * ls.length * ms.length := by
        rw [Nat.mul_right_comm]
    _ ≤ ls.sum * ks.length * ms.length := Nat.mul_le_mul_right _ hkl
    _ = ls.sum * ms.length * ks.length := by rw [Nat.mul_right_comm]
    _ ≤ ms.sum * ls.length * ks.length := Nat.mul_le_mul_right _ hlm
    _ = ms.sum * ks.length * ls.length := by rw [Nat.mul_right_comm]

/-- The places whose mean a vertex is sorted by. -/
def sortPlaces (adjacent : Array (List Nat)) (places : Array Nat) (v : Nat) : List Nat :=
  if adjacent.getD v [] = [] then [places.getD v 0]
  else (adjacent.getD v []).map fun u => places.getD u 0

/-- A row in the order of the mean places that its vertices' neighbours have in another.  Nothing is
said of vertices without neighbours. -/
def IsSortedBy (adjacent : Array (List Nat)) (before row : List Nat) : Prop :=
  row.Pairwise fun v w =>
    ((adjacent.getD v []).map before.idxOf).sum * (adjacent.getD w []).length ≤
      ((adjacent.getD w []).map before.idxOf).sum * (adjacent.getD v []).length

/-- The neighbours of a row's vertices stand in another row. -/
def IsNear (adjacent : Array (List Nat)) (before row : List Nat) : Prop :=
  ∀ v ∈ row, ∀ u ∈ adjacent.getD v [], u ∈ before

theorem sortPlaces_eq {adjacent : Array (List Nat)} {places : Array Nat} {before : List Nat}
    (hbefore : Records places before) {v : Nat} (hnear : ∀ u ∈ adjacent.getD v [], u ∈ before)
    (hne : adjacent.getD v [] ≠ []) :
    sortPlaces adjacent places v = (adjacent.getD v []).map before.idxOf := by
  rw [sortPlaces, if_neg hne]
  exact List.map_congr_left fun u hu => hbefore u (hnear u hu)

section

variable {α : Type} [Scalar α] {n d : Nat} (hmeans : ComparesMeans α n d)
  {adjacent : Array (List Nat)} (hdegree : ∀ v, (adjacent.getD v []).length ≤ d)

section

variable {places : Array Nat} (hplaces : ∀ v, places.getD v 0 ≤ n)

include hmeans hplaces in
theorem meanPlace_eq (v : Nat) :
    meanPlace α places (adjacent.getD v []) v = mean α (sortPlaces adjacent places v) := by
  rw [meanPlace, sortPlaces]
  by_cases hempty : adjacent.getD v [] = []
  · rw [if_pos hempty, if_pos (by rw [hempty]; rfl), hmeans.mean_singleton _ (hplaces v)]
  · rw [if_neg hempty, if_neg (by simpa using hempty)]

include hdegree hplaces

theorem arePlaces_sortPlaces (v : Nat) : ArePlaces n d (sortPlaces adjacent places v) := by
  rw [sortPlaces]
  split
  case isTrue =>
    exact ⟨List.cons_ne_nil _ _, Nat.le_max_left 1 d, by simpa using hplaces v⟩
  case isFalse hne =>
    refine ⟨by simpa using hne, ?_, fun k hk => ?_⟩
    · rw [List.length_map]
      exact (hdegree v).trans (Nat.le_max_right 1 d)
    · obtain ⟨u, -, rfl⟩ := List.mem_map.mp hk
      exact hplaces u

include hmeans

/-- **A row is sorted by means that are not rounded.** -/
theorem reorder_eq (row : List Nat) : (reorder α adjacent places row).1 =
    row.mergeSort fun v w =>
      meanLe (sortPlaces adjacent places v) (sortPlaces adjacent places w) := by
  have hcompare (v w : Nat) :
      meanLe (sortPlaces adjacent places v) (sortPlaces adjacent places w) =
        decide (meanPlace α places (adjacent.getD v []) v ≤
          meanPlace α places (adjacent.getD w []) w) := by
    rw [meanPlace_eq hmeans hplaces v, meanPlace_eq hmeans hplaces w,
      Bool.eq_iff_iff, meanLe_iff, decide_eq_true_iff]
    exact (hmeans.mean_le_mean_iff _ _ (arePlaces_sortPlaces hdegree hplaces v)
      (arePlaces_sortPlaces hdegree hplaces w)).symm
  have hsort := List.map_mergeSort (l := row)
    (f := fun v => (meanPlace α places (adjacent.getD v []) v, v))
    (r := fun v w => meanLe (sortPlaces adjacent places v) (sortPlaces adjacent places w))
    (s := fun a b => a.1 ≤ b.1) fun v _ w _ => hcompare v w
  exact (congrArg (List.map Prod.snd) hsort).symm.trans ((List.map_map ..).trans (List.map_id _))

theorem pairwise_reorder (row : List Nat) : (reorder α adjacent places row).1.Pairwise
    fun v w => meanLe (sortPlaces adjacent places v) (sortPlaces adjacent places w) = true := by
  rw [reorder_eq hmeans hdegree hplaces]
  refine List.pairwise_mergeSort (fun u v w huv hvw => ?_) (fun v w => meanLe_total _ _) row
  exact meanLe_trans (arePlaces_sortPlaces hdegree hplaces v).ne_nil huv hvw

/-- **A row is sorted by the places of its neighbours.** -/
theorem isSortedBy_reorder {before row : List Nat} (hbefore : Records places before)
    (hnear : IsNear adjacent before row) :
    IsSortedBy adjacent before (reorder α adjacent places row).1 := by
  refine (pairwise_reorder hmeans hdegree hplaces row).imp_of_mem fun {v w} hv hw h => ?_
  have hperm := perm_reorder α adjacent places row
  by_cases hnv : adjacent.getD v [] = []
  · simp [hnv]
  by_cases hnw : adjacent.getD w [] = []
  · simp [hnw]
  rwa [sortPlaces_eq hbefore (hnear v (hperm.mem_iff.mpr hv)) hnv,
    sortPlaces_eq hbefore (hnear w (hperm.mem_iff.mpr hw)) hnw, meanLe_iff, List.length_map,
    List.length_map] at h

theorem reorder_eq_self_of_isSortedBy {before row : List Nat} (hbefore : Records places before)
    (hnear : IsNear adjacent before row) (hne : ∀ v ∈ row, adjacent.getD v [] ≠ [])
    (hsorted : IsSortedBy adjacent before row) : (reorder α adjacent places row).1 = row := by
  rw [reorder_eq hmeans hdegree hplaces]
  refine List.mergeSort_of_pairwise (hsorted.imp_of_mem fun {v w} hv hw h => ?_)
  rw [sortPlaces_eq hbefore (hnear v hv) (hne v hv), sortPlaces_eq hbefore (hnear w hw) (hne w hw),
    meanLe_iff, List.length_map, List.length_map]
  exact h

end

/-! ## Sorted layers -/

/-- In which row a neighbour stands does not depend on the orders of the rows. -/
theorem isChain_isNear_of_rearranges {rows rows' : List (List Nat)}
    (h : rows.IsChain (IsNear adjacent)) (hrows : Rearranges rows rows') :
    rows'.IsChain (IsNear adjacent) := by
  induction hrows with
  | nil => exact .nil
  | cons hrow hrows ih =>
    rw [List.isChain_cons] at h ⊢
    refine ⟨?_, ih h.2⟩
    cases hrows with
    | nil => exact nofun
    | cons hnext _ =>
      intro next hmem v hv u hu
      obtain rfl := Option.some.inj hmem
      exact hrow.mem_iff.mp (h.1 _ rfl v (hnext.mem_iff.mpr hv) u hu)

include hmeans hdegree

theorem isChain_reorderAll {places : Array Nat} (hplaces : ∀ v, places.getD v 0 ≤ n)
    (hsize : places.size = n) {before : List Nat} {rows : List (List Nat)}
    (hbefore : Records places before) (hnodup : ∀ row ∈ rows, row.Nodup)
    (hlt : ∀ row ∈ rows, ∀ v ∈ row, v < n) (hnear : (before :: rows).IsChain (IsNear adjacent)) :
    (before :: (reorderAll α adjacent places rows).1).IsChain (IsSortedBy adjacent) := by
  induction rows generalizing before places with
  | nil => exact .singleton before
  | cons row rows ih =>
    have hperm := perm_reorder α adjacent places row
    obtain ⟨hnodup, hnodups⟩ := List.forall_mem_cons.mp hnodup
    obtain ⟨hlt, hlts⟩ := List.forall_mem_cons.mp hlt
    obtain ⟨hnear, hnears⟩ := List.isChain_cons_cons.mp hnear
    have hlength := hperm.length_eq.symm.trans_le (length_le_of_nodup hnodup hlt)
    refine .cons_cons (isSortedBy_reorder hmeans hdegree hplaces hbefore hnear)
      (ih (getD_recordPlaces_le hplaces hlength) ((size_recordPlaces ..).trans hsize) ?_ hnodups
        hlts ?_)
    · exact records_recordPlaces (hperm.nodup_iff.mp hnodup) fun v hv =>
        (hlt v (hperm.mem_iff.mpr hv)).trans_eq hsize.symm
    · exact isChain_isNear_of_rearranges hnears (.cons hperm (Rearranges.refl rows))

theorem reorderAll_eq_self {places : Array Nat} (hplaces : ∀ v, places.getD v 0 ≤ n)
    (hsize : places.size = n) {before : List Nat} {rows : List (List Nat)}
    (hbefore : Records places before) (hnodup : ∀ row ∈ rows, row.Nodup)
    (hlt : ∀ row ∈ rows, ∀ v ∈ row, v < n) (hnear : (before :: rows).IsChain (IsNear adjacent))
    (hne : ∀ row ∈ rows, ∀ v ∈ row, adjacent.getD v [] ≠ [])
    (hsorted : (before :: rows).IsChain (IsSortedBy adjacent)) :
    (reorderAll α adjacent places rows).1 = rows := by
  induction rows generalizing before places with
  | nil => rfl
  | cons row rows ih =>
    obtain ⟨hnodup, hnodups⟩ := List.forall_mem_cons.mp hnodup
    obtain ⟨hlt, hlts⟩ := List.forall_mem_cons.mp hlt
    obtain ⟨hnear, hnears⟩ := List.isChain_cons_cons.mp hnear
    obtain ⟨hne, hnes⟩ := List.forall_mem_cons.mp hne
    obtain ⟨hsorted, hsorteds⟩ := List.isChain_cons_cons.mp hsorted
    have hrow := reorder_eq_self_of_isSortedBy hmeans hdegree hplaces hbefore hnear hne hsorted
    -- the row stays, so its places are recorded as they were and the next row is sorted by them
    have hrecorded : (reorder α adjacent places row).2 = recordPlaces places row :=
      congrArg (recordPlaces places) hrow
    have hrecords : Records (recordPlaces places row) row :=
      records_recordPlaces hnodup fun v hv => (hlt v hv).trans_eq hsize.symm
    have hrows := ih (getD_recordPlaces_le hplaces (length_le_of_nodup hnodup hlt))
      ((size_recordPlaces ..).trans hsize) hrecords hnodups hlts hnears hnes hsorteds
    rw [← hrecorded] at hrows
    exact congrArg₂ List.cons hrow hrows

variable {o : LayerOrder} (h : o.IsRecorded n)

include h

/-- **Every row but the first is sorted by the one before it**, as that stands in the end. -/
theorem isChain_reorderTail (hnear : o.layers.IsChain (IsNear adjacent)) :
    (reorderTail α adjacent o).layers.IsChain (IsSortedBy adjacent) := by
  obtain ⟨rows, places⟩ := o
  cases rows with
  | nil => exact .nil
  | cons row rows =>
    exact isChain_reorderAll hmeans hdegree h.le h.size_eq (h.records row List.mem_cons_self)
      (fun row hrow => h.nodup_row (List.mem_cons_of_mem _ hrow))
      (fun row hrow v hv => h.lt_of_mem (List.mem_cons_of_mem _ hrow) hv) hnear

/-- **Rows that are sorted already stay as they are**, if no vertex goes by its own place. -/
theorem layers_reorderTail_eq_self (hnear : o.layers.IsChain (IsNear adjacent))
    (hne : ∀ row ∈ o.layers.tail, ∀ v ∈ row, adjacent.getD v [] ≠ [])
    (hsorted : o.layers.IsChain (IsSortedBy adjacent)) :
    (reorderTail α adjacent o).layers = o.layers := by
  obtain ⟨rows, places⟩ := o
  cases rows with
  | nil => rfl
  | cons row rows =>
    exact congrArg (row :: ·) (reorderAll_eq_self hmeans hdegree h.le h.size_eq
      (h.records row List.mem_cons_self)
      (fun row hrow => h.nodup_row (List.mem_cons_of_mem _ hrow))
      (fun row hrow v hv => h.lt_of_mem (List.mem_cons_of_mem _ hrow) hv) hnear hne hsorted)

end

section

variable {α : Type} [Scalar α] {n d : Nat} (hmeans : ComparesMeans α n d) {a : Adjacency}
  (hdegree : ∀ v, (a.behind.getD v []).length ≤ d) {o : LayerOrder} (h : o.IsRecorded n)

include hmeans hdegree h

/-- **On the way back, every row is sorted by the one behind it.** -/
theorem isChain_sweepUp (hnear : o.layers.IsChain fun row next => IsNear a.behind next row) :
    (sweepUp α a o).layers.IsChain fun row next => IsSortedBy a.behind next row :=
  List.isChain_reverse.mpr
    (isChain_reorderTail hmeans hdegree h.reverse (List.isChain_reverse.mpr hnear))

theorem layers_sweepUp_eq_self (hnear : o.layers.IsChain fun row next => IsNear a.behind next row)
    (hne : ∀ row ∈ o.layers.dropLast, ∀ v ∈ row, a.behind.getD v [] ≠ [])
    (hsorted : o.layers.IsChain fun row next => IsSortedBy a.behind next row) :
    (sweepUp α a o).layers = o.layers := by
  have htail := layers_reorderTail_eq_self hmeans hdegree h.reverse
    (List.isChain_reverse.mpr hnear)
    (fun row hrow => hne row (by simpa [List.tail_reverse] using hrow))
    (List.isChain_reverse.mpr hsorted)
  exact (congrArg List.reverse htail).trans (List.reverse_reverse _)

end

/-! ## Other numbers -/

section

variable {α β : Type} [Scalar α] [Scalar β] {n d : Nat} (hα : ComparesMeans α n d)
  (hβ : ComparesMeans β n d) {adjacent : Array (List Nat)}
  (hdegree : ∀ v, (adjacent.getD v []).length ≤ d)

include hα hβ hdegree

theorem reorderAll_congr {places : Array Nat} (hplaces : ∀ v, places.getD v 0 ≤ n)
    {rows : List (List Nat)} (hrows : ∀ row ∈ rows, row.length ≤ n) :
    reorderAll α adjacent places rows = reorderAll β adjacent places rows := by
  induction rows generalizing places with
  | nil => rfl
  | cons row rows ih =>
    obtain ⟨hrow, hrows⟩ := List.forall_mem_cons.mp hrows
    have hfst : (reorder α adjacent places row).1 = (reorder β adjacent places row).1 :=
      (reorder_eq hα hdegree hplaces row).trans (reorder_eq hβ hdegree hplaces row).symm
    have hreorder : reorder α adjacent places row = reorder β adjacent places row :=
      Prod.ext hfst (congrArg (recordPlaces places) hfst)
    have hlength := (perm_reorder β adjacent places row).length_eq.symm.trans_le hrow
    have hmore := ih (getD_recordPlaces_le hplaces hlength) hrows
    rw [reorderAll, reorderAll, hreorder]
    exact congrArg (fun more => ((reorder β adjacent places row).1 :: more.1, more.2)) hmore

variable {o : LayerOrder} (h : o.IsRecorded n)

include h

theorem reorderTail_congr : reorderTail α adjacent o = reorderTail β adjacent o := by
  obtain ⟨rows, places⟩ := o
  cases rows with
  | nil => rfl
  | cons row rows =>
    have hall := reorderAll_congr hα hβ hdegree h.le fun row hrow =>
      length_le_of_nodup (h.nodup_row (List.mem_cons_of_mem _ hrow))
        fun v hv => h.lt_of_mem (List.mem_cons_of_mem _ hrow) hv
    exact congrArg (fun more => (⟨row :: more.1, more.2⟩ : LayerOrder)) hall

end

/-- **Sweeps do not depend on the numbers that means are computed in**, in so far as these compare
means as they are. -/
theorem sweeps_congr {α β : Type} [Scalar α] [Scalar β] {n d : Nat} (hα : ComparesMeans α n d)
    (hβ : ComparesMeans β n d) {a : Adjacency} (hbefore : ∀ v, (a.before.getD v []).length ≤ d)
    (hbehind : ∀ v, (a.behind.getD v []).length ≤ d) (k : Nat) {o : LayerOrder}
    (h : o.IsRecorded n) : sweeps α a k o = sweeps β a k o := by
  induction k generalizing o with
  | zero => rfl
  | succ k ih =>
    have hdown : sweepDown α a o = sweepDown β a o := reorderTail_congr hα hβ hbefore h
    have hswept := isRecorded_sweepDown α a h
    have hup : sweepUp α a (sweepDown α a o) = sweepUp β a (sweepDown α a o) :=
      congrArg (fun o : LayerOrder => { o with layers := o.layers.reverse })
        (reorderTail_congr hα hβ hbehind hswept.reverse)
    rw [sweeps, sweeps, ih (isRecorded_sweepUp α a hswept), hup, hdown]

end Diagram
