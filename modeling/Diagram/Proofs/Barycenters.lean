import Diagram.Proofs.Crossings

/-!
# How often segments cross in the end

The order of the last sweep is returned, whether or not more segments cross in it than in the first
one.  What is certain is that every layer but the last is sorted by the layer behind it, as that one
stands in the end, if the means of places compare as they are.  For that layer, no order of its
vertices has much fewer crossings.  So with two layers a sweep makes the crossings at most `d - 1`
times as many, where no vertex has more than `d` segments on a side, and with `d ≤ 2` no more.  With
any number of layers, an order without crossings is kept if every vertex has neighbours in the
layers next to its own.

Without such neighbours it need not be kept: a vertex that has none behind it is sorted by its own
place on the way up, among the mean places of others, and may so come to stand between vertices
whose segments from the layer before it crossed nothing.
-/

namespace Diagram

/-- Every segment leads from a vertex of a layer to one of the next. -/
def JoinsLayers (layerOf : List Nat) (segments : List (Nat × Nat)) : Prop :=
  ∀ s ∈ segments, ∃ l, layerOf[s.1]? = some l ∧ layerOf[s.2]? = some (l + 1)

/-- Every vertex has neighbours before it unless it stands in the first layer, and behind it unless
it stands in the last. -/
structure IsTied (layerOf : List Nat) (segments : List (Nat × Nat)) : Prop where
  before : ∀ l v, layerOf[v]? = some (l + 1) → ∃ s ∈ segments, s.2 = v
  behind : ∀ l v, layerOf[v]? = some l → l + 1 < layerCount layerOf → ∃ s ∈ segments, s.1 = v

/-! ## Rows next to each other -/

section

variable {rows : List (List Nat)}

theorem isChain_iff_getD {R : List Nat → List Nat → Prop} :
    rows.IsChain R ↔ ∀ l, l + 1 < rows.length → R (rows.getD l []) (rows.getD (l + 1) []) := by
  rw [List.isChain_iff_getElem]
  refine forall_congr' fun l => forall_congr' fun hl => ?_
  rw [List.getD_eq_getElem _ _ (Nat.lt_of_succ_lt hl), List.getD_eq_getElem _ _ hl]

theorem exists_of_mem_tail {row : List Nat} (h : row ∈ rows.tail) :
    ∃ l, l + 1 < rows.length ∧ row = rows.getD (l + 1) [] := by
  obtain ⟨l, hl, rfl⟩ := List.getElem_of_mem h
  rw [List.length_tail] at hl
  exact ⟨l, by omega, by rw [List.getElem_tail, List.getD_eq_getElem]⟩

theorem exists_of_mem_dropLast {row : List Nat} (h : row ∈ rows.dropLast) :
    ∃ l, l + 1 < rows.length ∧ row = rows.getD l [] := by
  obtain ⟨l, hl, rfl⟩ := List.getElem_of_mem h
  rw [List.length_dropLast] at hl
  exact ⟨l, by omega, by rw [List.getElem_dropLast, List.getD_eq_getElem]⟩

variable {segments : List (Nat × Nat)}

theorem crossings_eq_zero_iff : crossings segments rows = 0 ↔
    rows.IsChain fun upper lower => crossingsBetween upper lower segments = 0 := by
  induction rows with
  | nil => simp [crossings]
  | cons upper rows ih =>
    cases rows with
    | nil => simp [crossings]
    | cons lower rows => rw [crossings, Nat.add_eq_zero_iff, ih, List.isChain_cons_cons]

theorem crossings_of_length_le_two (h : rows.length ≤ 2) : crossings segments rows =
    crossingsBetween (rows.getD 0 []) (rows.getD 1 []) segments :=
  match rows with
  | [] => (crossingsBetween_nil_right [] segments).symm
  | [upper] => (crossingsBetween_nil_right upper segments).symm
  | [_, _] => Nat.add_zero _
  | _ :: _ :: _ :: _ => absurd h (by simp)

end

/-! ## Layers -/

section

variable {layerOf : List Nat} {segments : List (Nat × Nat)} (h : JoinsLayers layerOf segments)
  {rows : List (List Nat)} (hrows : Rearranges (initialOrder layerOf).layers rows)

include h hrows

theorem joins_getD (l : Nat) : Joins segments (rows.getD l []) (rows.getD (l + 1) []) := by
  intro s hs
  obtain ⟨k, hfst, hsnd⟩ := h s hs
  rw [mem_of_rearranges hrows, mem_of_rearranges hrows, hfst, hsnd, Option.some_inj,
    Option.some_inj, Nat.add_right_cancel_iff]

theorem isChain_isNear_before :
    rows.IsChain (IsNear (adjacency layerOf.length segments).before) :=
  isChain_iff_getD.mpr fun l _ => isNear_before (joins_getD h hrows l)
    fun _ => lt_length_of_rearranges hrows

theorem isChain_isNear_behind :
    rows.IsChain fun row next => IsNear (adjacency layerOf.length segments).behind next row :=
  isChain_iff_getD.mpr fun l _ => isNear_behind (joins_getD h hrows l)
    fun _ => lt_length_of_rearranges hrows

variable (hzero : crossings segments rows = 0)

include hzero

theorem isChain_isSortedBy_before :
    rows.IsChain (IsSortedBy (adjacency layerOf.length segments).before) :=
  isChain_iff_getD.mpr fun l hl => isSortedBy_before (joins_getD h hrows l)
    (fun _ => lt_length_of_rearranges hrows) (nodup_getD_of_rearranges hrows (l + 1))
    (isChain_iff_getD.mp (crossings_eq_zero_iff.mp hzero) l hl)

theorem isChain_isSortedBy_behind :
    rows.IsChain fun row next => IsSortedBy (adjacency layerOf.length segments).behind next row :=
  isChain_iff_getD.mpr fun l hl => isSortedBy_behind (joins_getD h hrows l)
    (fun _ => lt_length_of_rearranges hrows) (nodup_getD_of_rearranges hrows l)
    (isChain_iff_getD.mp (crossings_eq_zero_iff.mp hzero) l hl)

end

/-! ## The last sweep -/

theorem exists_sweeps_succ (α : Type) [Scalar α] (a : Adjacency) (k : Nat) {o : LayerOrder}
    {n : Nat} (ho : o.IsRecorded n) : ∃ o' : LayerOrder, o'.IsRecorded n ∧
      Rearranges o.layers o'.layers ∧ sweeps α a (k + 1) o = sweepUp α a o' := by
  induction k generalizing o with
  | zero => exact ⟨sweepDown α a o, isRecorded_sweepDown α a ho, rearranges_sweepDown α a o, rfl⟩
  | succ k ih =>
    obtain ⟨o', ho', hrows, heq⟩ := ih (isRecorded_sweepUp α a (isRecorded_sweepDown α a ho))
    have hswept := (rearranges_sweepDown α a o).trans (rearranges_sweepUp α a (sweepDown α a o))
    exact ⟨o', ho', hswept.trans hrows, heq⟩

section

variable {α : Type} [Scalar α] {layerOf : List Nat} {segments : List (Nat × Nat)}
  (h : JoinsLayers layerOf segments)
  (hmeans : ComparesMeans α layerOf.length segments.length)

include h hmeans

/-- **In the end, every layer is sorted by the one behind it.** -/
theorem isSortedBy_orderLayers {l : Nat}
    (hl : l + 1 < (orderLayers α layerOf segments).layers.length) :
    IsSortedBy (adjacency layerOf.length segments).behind
      ((orderLayers α layerOf segments).layers.getD (l + 1) [])
      ((orderLayers α layerOf segments).layers.getD l []) := by
  obtain ⟨o, ho, hrows, heq⟩ := exists_sweeps_succ α (adjacency layerOf.length segments) 3
    (isRecorded_initialOrder layerOf)
  rw [orderLayers, heq] at hl ⊢
  exact isChain_iff_getD.mp (isChain_sweepUp hmeans (length_behind_adjacency_le segments _) ho
    (isChain_isNear_behind h hrows)) l hl

theorem crossingsBetween_orderLayers_le {d l : Nat}
    (hd : ∀ v ∈ (orderLayers α layerOf segments).layers.getD l [],
      (segments.filter fun s => s.1 = v).length ≤ d)
    {other : List Nat} (hother : other.Perm ((orderLayers α layerOf segments).layers.getD l [])) :
    crossingsBetween ((orderLayers α layerOf segments).layers.getD l [])
        ((orderLayers α layerOf segments).layers.getD (l + 1) []) segments ≤
      max 1 (d - 1) * crossingsBetween other
        ((orderLayers α layerOf segments).layers.getD (l + 1) []) segments := by
  have hrows := rearranges_orderLayers α layerOf segments
  by_cases hl : l + 1 < (orderLayers α layerOf segments).layers.length
  · exact crossingsBetween_le_of_behind (joins_getD h hrows l)
      (fun _ => lt_length_of_rearranges hrows) (nodup_getD_of_rearranges hrows l)
      (isSortedBy_orderLayers h hmeans hl) hd hother
  · rw [List.getD_eq_default _ _ (not_lt.mp hl), crossingsBetween_nil_right]
    exact Nat.zero_le _

end

/-! ## Two layers -/

theorem getD_zero_sweepDown (α : Type) [Scalar α] (a : Adjacency) (o : LayerOrder) :
    (sweepDown α a o).layers.getD 0 [] = o.layers.getD 0 [] := by
  obtain ⟨rows, places⟩ := o
  cases rows <;> rfl

theorem getD_one_sweepUp (α : Type) [Scalar α] (a : Adjacency) {o : LayerOrder}
    (h : o.layers.length ≤ 2) : (sweepUp α a o).layers.getD 1 [] = o.layers.getD 1 [] := by
  obtain ⟨rows, places⟩ := o
  match rows with
  | [] => rfl
  | [_] => rfl
  | [_, _] => rfl
  | _ :: _ :: _ :: _ => exact absurd h (by simp)

section

variable {α : Type} [Scalar α] {layerOf : List Nat} {segments : List (Nat × Nat)}
  (h : JoinsLayers layerOf segments) (hmeans : ComparesMeans α layerOf.length segments.length)
  {o : LayerOrder} (ho : o.IsRecorded layerOf.length)
  (hrows : Rearranges (initialOrder layerOf).layers o.layers) (hlength : o.layers.length ≤ 2)
  {d : Nat}

include h hmeans ho hrows hlength

theorem crossings_sweepDown_le (hd : ∀ v, (segments.filter fun s => s.2 = v).length ≤ d) :
    crossings segments (sweepDown α (adjacency layerOf.length segments) o).layers ≤
      max 1 (d - 1) * crossings segments o.layers := by
  have hswept := rearranges_sweepDown α (adjacency layerOf.length segments) o
  have hrows' := hrows.trans hswept
  rw [crossings_of_length_le_two (hswept.length_eq ▸ hlength), crossings_of_length_le_two hlength,
    ← getD_zero_sweepDown α (adjacency layerOf.length segments) o]
  by_cases hl : 1 < (sweepDown α (adjacency layerOf.length segments) o).layers.length
  · exact crossingsBetween_le_of_before (joins_getD h hrows' 0)
      (fun _ => lt_length_of_rearranges hrows') (nodup_getD_of_rearranges hrows' 1)
      (isChain_iff_getD.mp (isChain_reorderTail hmeans (length_before_adjacency_le segments _) ho
        (isChain_isNear_before h hrows)) 0 hl)
      (fun v _ => hd v) (hswept.perm_getD 1)
  · rw [List.getD_eq_default _ _ (not_lt.mp hl), crossingsBetween_nil_right]
    exact Nat.zero_le _

theorem crossings_sweepUp_le (hd : ∀ v, (segments.filter fun s => s.1 = v).length ≤ d) :
    crossings segments (sweepUp α (adjacency layerOf.length segments) o).layers ≤
      max 1 (d - 1) * crossings segments o.layers := by
  have hswept := rearranges_sweepUp α (adjacency layerOf.length segments) o
  have hrows' := hrows.trans hswept
  rw [crossings_of_length_le_two (hswept.length_eq ▸ hlength), crossings_of_length_le_two hlength,
    ← getD_one_sweepUp α (adjacency layerOf.length segments) hlength]
  by_cases hl : 1 < (sweepUp α (adjacency layerOf.length segments) o).layers.length
  · exact crossingsBetween_le_of_behind (joins_getD h hrows' 0)
      (fun _ => lt_length_of_rearranges hrows') (nodup_getD_of_rearranges hrows' 0)
      (isChain_iff_getD.mp (isChain_sweepUp hmeans (length_behind_adjacency_le segments _) ho
        (isChain_isNear_behind h hrows)) 0 hl)
      (fun v _ => hd v) (hswept.perm_getD 0)
  · rw [List.getD_eq_default _ _ (not_lt.mp hl), crossingsBetween_nil_right]
    exact Nat.zero_le _

theorem crossings_sweeps_le (hfst : ∀ v, (segments.filter fun s => s.1 = v).length ≤ d)
    (hsnd : ∀ v, (segments.filter fun s => s.2 = v).length ≤ d) (k : Nat) :
    crossings segments (sweeps α (adjacency layerOf.length segments) k o).layers ≤
      max 1 (d - 1) ^ (2 * k) * crossings segments o.layers := by
  induction k generalizing o with
  | zero => rw [Nat.mul_zero, pow_zero, one_mul, sweeps]
  | succ k ih =>
    have hdown := rearranges_sweepDown α (adjacency layerOf.length segments) o
    have hup := rearranges_sweepUp α (adjacency layerOf.length segments)
      (sweepDown α (adjacency layerOf.length segments) o)
    have ho' := isRecorded_sweepDown α (adjacency layerOf.length segments) ho
    have hlength' := hdown.length_eq ▸ hlength
    refine (ih (isRecorded_sweepUp α _ ho') ((hrows.trans hdown).trans hup)
      (hup.length_eq ▸ hlength')).trans ?_
    rw [Nat.mul_succ, pow_add, pow_two, mul_assoc, mul_assoc]
    refine Nat.mul_le_mul_left _ ?_
    exact (crossings_sweepUp_le h hmeans ho' (hrows.trans hdown) hlength' hfst).trans
      (Nat.mul_le_mul_left _ (crossings_sweepDown_le h hmeans ho hrows hlength hsnd))

end

/-! ## Orders without crossings -/

section

variable {α : Type} [Scalar α] {layerOf : List Nat} {segments : List (Nat × Nat)}
  (h : JoinsLayers layerOf segments) (hmeans : ComparesMeans α layerOf.length segments.length)
  (htied : IsTied layerOf segments)

include h hmeans htied

/-- **An order without crossings is kept**, where no vertex is sorted by its own place. -/
theorem layers_sweeps_eq_self (k : Nat) {o : LayerOrder} (ho : o.IsRecorded layerOf.length)
    (hrows : Rearranges (initialOrder layerOf).layers o.layers)
    (hzero : crossings segments o.layers = 0) :
    (sweeps α (adjacency layerOf.length segments) k o).layers = o.layers := by
  induction k generalizing o with
  | zero => rfl
  | succ k ih =>
    -- Downwards each layer is sorted by the one before it, and upwards by the one behind it.
    have hdown : (sweepDown α (adjacency layerOf.length segments) o).layers = o.layers := by
      refine layers_reorderTail_eq_self hmeans (length_before_adjacency_le segments _) ho
        (isChain_isNear_before h hrows) (fun row hrow v hv => ?_)
        (isChain_isSortedBy_before h hrows hzero)
      obtain ⟨l, -, rfl⟩ := exists_of_mem_tail hrow
      rw [getD_before_adjacency segments (lt_length_of_rearranges hrows hv)]
      exact endsAt_ne_nil (htied.before l v ((mem_of_rearranges hrows).mp hv))
    have ho' := isRecorded_sweepDown α (adjacency layerOf.length segments) ho
    have hup : (sweepUp α (adjacency layerOf.length segments)
        (sweepDown α (adjacency layerOf.length segments) o)).layers = o.layers := by
      refine (layers_sweepUp_eq_self hmeans (length_behind_adjacency_le segments _) ho' ?_ ?_
        ?_).trans hdown <;> rw [hdown]
      · exact isChain_isNear_behind h hrows
      · intro row hrow v hv
        obtain ⟨l, hl, rfl⟩ := exists_of_mem_dropLast hrow
        rw [length_of_rearranges hrows] at hl
        rw [getD_behind_adjacency segments (lt_length_of_rearranges hrows hv)]
        exact endsAt_ne_nil (htied.behind l v ((mem_of_rearranges hrows).mp hv) hl)
      · exact isChain_isSortedBy_behind h hrows hzero
    exact (ih (isRecorded_sweepUp α _ ho') (hup ▸ hrows) (hup ▸ hzero)).trans hup

end

/-! ## The order that is returned -/

/-- **Rounded means lead to the order that exact ones lead to**, where the vertices and the segments
are not too many. -/
theorem orderLayers_float_eq {layerOf : List Nat} {segments : List (Nat × Nat)}
    (h : (layerOf.length + 1) * max 1 segments.length ^ 2 ≤ 2 ^ 51) :
    orderLayers Float layerOf segments = @orderLayers ℚ (Scalar.exact ℚ) layerOf segments :=
  @sweeps_congr Float ℚ _ (Scalar.exact ℚ) _ _ (comparesMeans_float h) (comparesMeans_exact _ _) _
    (length_before_adjacency_le segments _) (length_behind_adjacency_le segments _) 4 _
    (isRecorded_initialOrder layerOf)

/-- **How often segments cross in the order that is returned**, where the means of places compare as
they are.  A layer has at most `d - 1` times the crossings with the layer behind it that any other
order of its vertices has, where no vertex of it has more than `d` segments to that layer.  With at
most two layers, there are at most `(d - 1) ^ 8` times the crossings of the first order, so with
`d ≤ 2` never more.  And a first order without crossings is returned as it is if every vertex has
neighbours in the layers next to its own. -/
theorem crossings_orderLayers {α : Type} [Scalar α] {layerOf : List Nat}
    {segments : List (Nat × Nat)} (h : JoinsLayers layerOf segments)
    (hmeans : ComparesMeans α layerOf.length segments.length) :
    (∀ d l other, other.Perm ((orderLayers α layerOf segments).layers.getD l []) →
      (∀ v ∈ other, (segments.filter fun s => s.1 = v).length ≤ d) →
      crossingsBetween ((orderLayers α layerOf segments).layers.getD l [])
          ((orderLayers α layerOf segments).layers.getD (l + 1) []) segments ≤
        max 1 (d - 1) * crossingsBetween other
          ((orderLayers α layerOf segments).layers.getD (l + 1) []) segments) ∧
    (∀ d, layerCount layerOf ≤ 2 → (∀ v, (segments.filter fun s => s.1 = v).length ≤ d) →
      (∀ v, (segments.filter fun s => s.2 = v).length ≤ d) →
      crossings segments (orderLayers α layerOf segments).layers ≤
        max 1 (d - 1) ^ 8 * crossings segments (initialOrder layerOf).layers) ∧
    (IsTied layerOf segments → crossings segments (initialOrder layerOf).layers = 0 →
      (orderLayers α layerOf segments).layers = (initialOrder layerOf).layers) := by
  have ho := isRecorded_initialOrder layerOf
  have hrows := Rearranges.refl (initialOrder layerOf).layers
  refine ⟨fun d l other hother hd => ?_, fun d hcount hfst hsnd => ?_, fun htied hzero => ?_⟩
  · exact crossingsBetween_orderLayers_le h hmeans (fun v hv => hd v (hother.mem_iff.mpr hv)) hother
  · exact crossings_sweeps_le h hmeans ho hrows ((length_of_rearranges hrows).trans_le hcount)
      hfst hsnd 4
  · exact layers_sweeps_eq_self h hmeans htied 4 ho hrows hzero

/-- Two layers of two vertices, with a segment from each vertex to the one under it. -/
theorem isTied_ladder : IsTied [0, 0, 1, 1] [(0, 2), (1, 3)] where
  before l v hv := by
    match v with
    | 0 | 1 => simp at hv
    | 2 => exact ⟨(0, 2), by simp, rfl⟩
    | 3 => exact ⟨(1, 3), by simp, rfl⟩
    | _ + 4 => simp at hv
  behind l v hv hl := by
    match v with
    | 0 => exact ⟨(0, 2), by simp, rfl⟩
    | 1 => exact ⟨(1, 3), by simp, rfl⟩
    | 2 | 3 =>
      obtain rfl : 1 = l := by simpa using hv
      exact absurd hl (by decide)
    | _ + 4 => simp at hv

theorem crossings_orderLayers_ladder : JoinsLayers [0, 0, 1, 1] [(0, 2), (1, 3)] ∧
    ComparesMeans Float 4 2 ∧
    crossingsBetween ((orderLayers Float [0, 0, 1, 1] [(0, 2), (1, 3)]).layers.getD 0 [])
        ((orderLayers Float [0, 0, 1, 1] [(0, 2), (1, 3)]).layers.getD 1 []) [(0, 2), (1, 3)] ≤
      max 1 (2 - 1) * crossingsBetween [1, 0]
        ((orderLayers Float [0, 0, 1, 1] [(0, 2), (1, 3)]).layers.getD 1 []) [(0, 2), (1, 3)] ∧
    crossings [(0, 2), (1, 3)] (orderLayers Float [0, 0, 1, 1] [(0, 2), (1, 3)]).layers ≤
      max 1 (2 - 1) ^ 8 * crossings [(0, 2), (1, 3)] (initialOrder [0, 0, 1, 1]).layers ∧
    (orderLayers Float [0, 0, 1, 1] [(0, 2), (1, 3)]).layers =
      (initialOrder [0, 0, 1, 1]).layers := by
  have hjoins : JoinsLayers [0, 0, 1, 1] [(0, 2), (1, 3)] := by simp [JoinsLayers]
  have hmeans : ComparesMeans Float 4 2 := comparesMeans_float (by decide)
  obtain ⟨hlayer, htwo, hkept⟩ := crossings_orderLayers hjoins hmeans
  refine ⟨hjoins, hmeans, hlayer 2 0 [1, 0] ?_ fun v _ => List.length_filter_le ..,
    htwo 2 (by decide) (fun v => List.length_filter_le ..) (fun v => List.length_filter_le ..),
    hkept isTied_ladder (by decide)⟩
  rw [hkept isTied_ladder (by decide)]
  exact List.Perm.swap 0 1 []

/-- **More segments may cross than in the first order.** -/
theorem not_crossings_orderLayers_le : ¬ ∀ layerOf segments, JoinsLayers layerOf segments →
    crossings segments (orderLayers Float layerOf segments).layers ≤
      crossings segments (initialOrder layerOf).layers := by
  intro h
  have hjoins : JoinsLayers [0, 0, 1, 1, 1, 2] [(0, 3), (4, 5), (0, 2), (1, 4)] := by
    simp [JoinsLayers]
  have hrows : (@orderLayers ℚ (Scalar.exact ℚ) [0, 0, 1, 1, 1, 2]
      [(0, 3), (4, 5), (0, 2), (1, 4)]).layers = [[0, 1], [2, 4, 3], [5]] := by cbv
  have hle := h _ _ hjoins
  rw [orderLayers_float_eq (by decide), hrows] at hle
  revert hle
  decide

end Diagram
