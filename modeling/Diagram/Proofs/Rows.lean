import Diagram.Proofs.Fields
import Diagram.Proofs.Orders

/-!
# Rows of vertices

The vertices of a layer stand next to each other, whatever their order, and the layers behind each
other.  Within a layer a vertex begins where the one before it ends or later, so that also two nodes
with bends between them do not touch; and a layer begins with the node spacing behind the thickest
vertex of the layer before it.
-/

namespace Diagram

/-- A vertex is found by its number. -/
theorem lookup_of_mem {β : Type} {l : List (Nat × β)} (h : (l.map Prod.fst).Nodup) {v : Nat} {x : β}
    (hmem : (v, x) ∈ l) : l.lookup v = some x := by
  induction l with
  | nil => cases hmem
  | cons a l ih =>
    obtain ⟨ha, hl⟩ := List.nodup_cons.mp h
    rcases List.mem_cons.mp hmem with rfl | hmem
    · exact List.lookup_cons_self
    · have hne : (v == a.1) = false := by
        refine beq_eq_false_iff_ne.mpr fun hv => ha ?_
        exact hv ▸ List.mem_map_of_mem hmem
      rw [List.lookup_cons, hne]
      exact ih hl hmem

section

variable {K : Type} [Field K] [LinearOrder K] [IsStrictOrderedRing K] [FloorRing K]

attribute [local instance] Scalar.exact

/-! ## Rows -/

/-- The extent of a vertex within its layer. -/
def acrossAt (verts : Array (Vertex K)) (v : Nat) : K :=
  (verts[v]?.map Vertex.across).getD Scalar.zero

/-- The extent of a vertex in the direction of the layers. -/
def alongAt (verts : Array (Vertex K)) (v : Nat) : K :=
  (verts[v]?.map Vertex.along).getD Scalar.zero

/-- A vertex and its centre, and another that begins where it ends or later. -/
def Beside (verts : Array (Vertex K)) (a b : Nat × K) : Prop :=
  a.2 + acrossAt verts a.1 / Scalar.ofNat 2 ≤ b.2 - acrossAt verts b.1 / Scalar.ofNat 2

theorem beside_iff {verts : Array (Vertex K)} {a b : Nat × K} : Beside verts a b ↔
    a.2 + acrossAt verts a.1 / 2 ≤ b.2 - acrossAt verts b.1 / 2 := by
  rw [Beside, ofNat_two_eq]

variable (o : Options K) (verts : Array (Vertex K))

@[simp] theorem map_fst_rowPositions (cursor : K) (previous : Option Bool) (vs : List Nat) :
    (rowPositions o verts cursor previous vs).1.map Prod.fst = vs := by
  induction vs generalizing cursor previous with
  | nil => rfl
  | cons v vs ih => exact congrArg (v :: ·) (ih _ _)

/-- The first vertex of a row begins at the cursor or later, and the others behind it. -/
theorem exists_rowPositions_cons (hnode : 0 ≤ o.nodeSpacing) (hedge : 0 ≤ o.edgeSpacing)
    (cursor : K) (previous : Option Bool) (v : Nat) (vs : List Nat) :
    ∃ start kind, cursor ≤ start ∧ (rowPositions o verts cursor previous (v :: vs)).1 =
      (v, start + acrossAt verts v / 2) ::
        (rowPositions o verts (start + acrossAt verts v) (some kind) vs).1 := by
  have htwo : (Scalar.ofNat 2 : K) = 2 := ofNat_two_eq
  cases previous with
  | none =>
    refine ⟨cursor, (verts[v]?.map Vertex.isReal).getD false, le_rfl, ?_⟩
    simp only [rowPositions, htwo, acrossAt]
  | some p =>
    refine ⟨cursor + (if p && (verts[v]?.map Vertex.isReal).getD false then o.nodeSpacing
      else o.edgeSpacing), (verts[v]?.map Vertex.isReal).getD false, ?_, ?_⟩
    · split <;> linarith
    · simp only [rowPositions, htwo, acrossAt]

/-- **The vertices of a row follow each other.** -/
theorem pairwise_rowPositions (hnode : 0 ≤ o.nodeSpacing) (hedge : 0 ≤ o.edgeSpacing)
    {vs : List Nat} (hvs : ∀ v ∈ vs, 0 ≤ acrossAt verts v) (cursor : K) (previous : Option Bool) :
    (∀ a ∈ (rowPositions o verts cursor previous vs).1, cursor ≤ a.2 - acrossAt verts a.1 / 2) ∧
      (rowPositions o verts cursor previous vs).1.Pairwise (Beside verts) := by
  induction vs generalizing cursor previous with
  | nil => exact ⟨nofun, .nil⟩
  | cons v vs ih =>
    obtain ⟨hv, hvs⟩ := List.forall_mem_cons.mp hvs
    obtain ⟨start, kind, hle, hrow⟩ := exists_rowPositions_cons o verts hnode hedge cursor previous
      v vs
    obtain ⟨hbehind, hpairwise⟩ := ih hvs (start + acrossAt verts v) (some kind)
    rw [hrow]
    refine ⟨List.forall_mem_cons.mpr ⟨?_, fun a ha => ?_⟩, .cons (fun a ha => ?_) hpairwise⟩
    · simpa using hle
    · exact le_trans (by linarith) (hbehind a ha)
    · have := hbehind a ha
      rw [beside_iff]
      dsimp only
      linarith

/-! ## Layers side by side -/

/-- The vertices of a row, moved to the middle of the widest row. -/
def centredRow (layers : List (List Nat)) (row : List Nat) : List (Nat × K) :=
  let rows := layers.map (rowPositions o verts Scalar.zero none)
  let (placed, width) := rowPositions o verts Scalar.zero none row
  placed.map fun (v, x) => (v, x + (largest (rows.map Prod.snd) - width) / Scalar.ofNat 2)

theorem acrossPositions_eq (layers : List (List Nat)) :
    acrossPositions o verts layers = layers.flatMap (centredRow o verts layers) := by
  rw [acrossPositions, List.flatMap_map]
  rfl

@[simp] theorem map_fst_centredRow (layers : List (List Nat)) (row : List Nat) :
    (centredRow o verts layers row).map Prod.fst = row := by
  rw [centredRow, List.map_map]
  exact map_fst_rowPositions o verts Scalar.zero none row

@[simp] theorem map_fst_acrossPositions (layers : List (List Nat)) :
    (acrossPositions o verts layers).map Prod.fst = layers.flatten := by
  rw [acrossPositions_eq, List.map_flatMap]
  simp only [map_fst_centredRow, List.flatMap_id']

theorem pairwise_centredRow (hnode : 0 ≤ o.nodeSpacing) (hedge : 0 ≤ o.edgeSpacing)
    (layers : List (List Nat)) {row : List Nat} (hrow : ∀ v ∈ row, 0 ≤ acrossAt verts v) :
    (centredRow o verts layers row).Pairwise (Beside verts) := by
  refine List.pairwise_map.mpr
    ((pairwise_rowPositions o verts hnode hedge hrow Scalar.zero none).2.imp fun {a b} hab => ?_)
  rw [beside_iff] at hab ⊢
  dsimp only
  linarith

/-- **Two vertices of a layer do not touch**, in whatever order they stand. -/
theorem beside_acrossPositions (hnode : 0 ≤ o.nodeSpacing) (hedge : 0 ≤ o.edgeSpacing)
    {layers : List (List Nat)} (hnodup : layers.flatten.Nodup) {row : List Nat}
    (hrow : row ∈ layers) (hextent : ∀ v ∈ row, 0 ≤ acrossAt verts v) {u v : Nat} (hu : u ∈ row)
    (hv : v ∈ row) (hne : u ≠ v) :
    ∃ x y, (acrossPositions o verts layers).lookup u = some x ∧
      (acrossPositions o verts layers).lookup v = some y ∧
        (Beside verts (u, x) (v, y) ∨ Beside verts (v, y) (u, x)) := by
  rw [← map_fst_acrossPositions o verts] at hnodup
  rw [← map_fst_centredRow o verts layers row] at hu hv
  obtain ⟨⟨u, x⟩, hx, rfl⟩ := List.mem_map.mp hu
  obtain ⟨⟨v, y⟩, hy, rfl⟩ := List.mem_map.mp hv
  have hmem : ∀ a ∈ centredRow o verts layers row, a ∈ acrossPositions o verts layers := by
    intro a ha
    rw [acrossPositions_eq]
    exact List.mem_flatMap.mpr ⟨row, hrow, ha⟩
  refine ⟨x, y, lookup_of_mem hnodup (hmem _ hx), lookup_of_mem hnodup (hmem _ hy), ?_⟩
  have : Std.Symm fun a b : Nat × K => Beside verts a b ∨ Beside verts b a := ⟨fun _ _ h => h.symm⟩
  have hapart : (centredRow o verts layers row).Pairwise fun a b =>
      Beside verts a b ∨ Beside verts b a :=
    (pairwise_centredRow o verts hnode hedge layers hextent).imp .inl
  exact hapart.forall hx hy fun heq => hne (congrArg Prod.fst heq)

/-! ## Layers behind each other -/

/-- The largest of some extents is no smaller than any of them, nor than nothing. -/
theorem le_largest (xs : List K) : 0 ≤ largest xs ∧ ∀ x ∈ xs, x ≤ largest xs := by
  rw [largest, zero_eq]
  refine le_foldl id (fun m x => ?_) (fun m x => ?_) xs 0
  · exact (le_max_left m x).trans_eq (max_exact_eq m x).symm
  · exact (le_max_right m x).trans_eq (max_exact_eq m x).symm

theorem thicknesses_nonneg (layers : List (List Nat)) : ∀ t ∈ thicknesses verts layers, 0 ≤ t := by
  intro t ht
  obtain ⟨l, -, rfl⟩ := List.mem_map.mp ht
  exact (le_largest _).1

/-- **No vertex is thicker than its layer.** -/
theorem alongAt_le_thicknesses {layers : List (List Nat)} {l v : Nat}
    (hv : v ∈ layers.getD l []) : l < (thicknesses verts layers).length ∧
      alongAt verts v ≤ (thicknesses verts layers).getD l 0 := by
  have hl : l < layers.length := by
    by_contra hl
    rw [List.getD_eq_default _ _ (not_lt.mp hl)] at hv
    cases hv
  have hl' : l < (thicknesses verts layers).length := by rwa [thicknesses, List.length_map]
  refine ⟨hl', ?_⟩
  rw [List.getD_eq_getElem _ _ hl] at hv
  rw [List.getD_eq_getElem _ _ hl']
  simp only [thicknesses, List.getElem_map]
  exact (le_largest _).2 _ (List.mem_map_of_mem hv)

/-- What is left over of a list of layers begins behind the cursor, each layer behind the one
before it. -/
theorem pairwise_layerStarts (hnode : 0 ≤ o.nodeSpacing) {ts : List K} (hts : ∀ t ∈ ts, 0 ≤ t)
    (cursor : K) : (layerStarts o cursor ts).1.length = ts.length ∧
      (∀ x ∈ (layerStarts o cursor ts).1, cursor ≤ x) ∧
      ((layerStarts o cursor ts).1.zip ts).Pairwise
        fun a b => a.1 + (a.2 + o.nodeSpacing) ≤ b.1 := by
  induction ts generalizing cursor with
  | nil => exact ⟨rfl, nofun, .nil⟩
  | cons t ts ih =>
    obtain ⟨ht, hts⟩ := List.forall_mem_cons.mp hts
    obtain ⟨hlength, hle, hpairwise⟩ := ih hts (cursor + (t + o.nodeSpacing))
    refine ⟨congrArg (· + 1) hlength, List.forall_mem_cons.mpr ⟨le_rfl, fun x hx => ?_⟩,
      .cons (fun b hb => hle _ (List.of_mem_zip hb).1) hpairwise⟩
    exact le_trans (by linarith) (hle x hx)

/-- **Layers follow each other**, with the node spacing between them. -/
theorem layerStarts_le (hnode : 0 ≤ o.nodeSpacing) {ts : List K} (hts : ∀ t ∈ ts, 0 ≤ t)
    (cursor : K) {i j : Nat} (hij : i < j) (hj : j < ts.length) :
    (layerStarts o cursor ts).1.getD i 0 + (ts.getD i 0 + o.nodeSpacing) ≤
      (layerStarts o cursor ts).1.getD j 0 := by
  obtain ⟨hlength, -, hpairwise⟩ := pairwise_layerStarts o hnode hts cursor
  have h := List.pairwise_iff_getElem.mp hpairwise i j (by simp; omega) (by simp; omega) hij
  simp only [List.getElem_zip] at h
  rw [List.getD_eq_getElem _ _ (by omega), List.getD_eq_getElem _ _ (by omega),
    List.getD_eq_getElem _ _ (by omega)]
  exact h

end

end Diagram
