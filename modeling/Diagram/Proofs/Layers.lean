import Diagram.Proofs.Search

/-!
# Layers

In the order in which the search leaves the vertices, every edge leads onwards.  A vertex is passed
when all that lead to it have been passed, so its layer is final when it raises those behind it, and
no edge stays within a layer or leads back.
-/

namespace Diagram

variable {arcs : List Arc}

theorem length_raiseTargets (arcs : List Arc) (layers : List Nat) (v : Nat) :
    (raiseTargets arcs layers v).length = layers.length := by
  induction arcs generalizing layers with
  | nil => rfl
  | cons arc arcs ih =>
    rw [raiseTargets, List.foldl_cons]
    refine (ih _).trans ?_
    dsimp only
    split
    · rw [List.length_modify]
    · rfl

/-- **What passing a vertex does**: the targets of its edges are raised above it, and no other
layer changes. -/
theorem getD_raiseTargets {layers : List Nat} {v w : Nat} (hw : w < layers.length) :
    (raiseTargets arcs layers v).getD w 0 =
      if (v, w) ∈ arcs ∧ w ≠ v then max (layers.getD w 0) (layers.getD v 0 + 1)
      else layers.getD w 0 := by
  induction arcs generalizing layers with
  | nil => simp [raiseTargets]
  | cons arc arcs ih =>
    obtain ⟨s, t⟩ := arc
    have hfold : raiseTargets ((s, t) :: arcs) layers v = raiseTargets arcs
        (if s = v ∧ t ≠ v then layers.modify t (fun l => max l (layers.getD v 0 + 1)) else layers)
        v := rfl
    rw [hfold]
    by_cases hst : s = v ∧ t ≠ v
    · obtain ⟨rfl, hne⟩ := hst
      -- raising `t` leaves the layer of `s` as it was, from which the other edges are raised
      have hself : (layers.modify t fun l => max l (layers.getD s 0 + 1)).getD s 0 =
          layers.getD s 0 := by
        simp [List.getD_eq_getElem?_getD, hne]
      rw [if_pos ⟨rfl, hne⟩, ih (by simpa using hw), hself]
      by_cases hwt : w = t
      · subst hwt
        simp [List.getD_eq_getElem?_getD, hw, hne]
      · simp [List.getD_eq_getElem?_getD, hwt, Ne.symm hwt]
    · have hnot : w ≠ v → (v, w) ≠ (s, t) := by
        rintro hne heq
        obtain ⟨rfl, rfl⟩ := Prod.mk.inj heq
        exact hst ⟨rfl, hne⟩
      have hiff : ((v, w) ∈ (s, t) :: arcs ∧ w ≠ v) ↔ ((v, w) ∈ arcs ∧ w ≠ v) :=
        and_congr_left fun hne => List.mem_cons.trans (or_iff_right (hnot hne))
      rw [if_neg hst, ih hw]
      simp only [hiff]

/-- In a list without repetitions no two members stand each in front of the other. -/
theorem not_sublist_swap {l : List Nat} (h : l.Nodup) {u v : Nat} (huv : [u, v].Sublist l)
    (hvu : [v, u].Sublist l) : False := by
  induction l with
  | nil => cases huv
  | cons x l ih =>
    obtain ⟨hx, hl⟩ := List.nodup_cons.mp h
    cases huv with
    | cons _ huv =>
      cases hvu with
      | cons _ hvu => exact ih hl huv hvu
      | cons_cons _ hu => exact hx (huv.subset (by simp))
    | cons_cons _ hv =>
      cases hvu with
      | cons _ hvu => exact hx (hvu.subset (by simp))
      | cons_cons _ hu => exact hx (hu.subset (by simp))

/-- Layers that rise along every edge out of some vertices. -/
structure Rises (n : Nat) (arcs : List Arc) (passed : List Nat) (layers : List Nat) : Prop where
  length : layers.length = n
  lt : ∀ u v, (u, v) ∈ arcs → u ≠ v → u ∈ passed → layers.getD u 0 < layers.getD v 0

/-- **Layers rise along edges**, when they are raised in an order in which every edge leads
onwards. -/
theorem rises_longestPaths {n : Nat} {order : List Nat} (hnodup : order.Nodup)
    (hmem : ∀ v, v ∈ order ↔ v < n)
    (honward : ∀ u v, (u, v) ∈ arcs → u ≠ v → [u, v].Sublist order) :
    Rises n arcs order (longestPaths n arcs order) := by
  refine foldl_done (P := Rises n arcs) order ?_
    ⟨List.length_replicate, fun _ _ _ _ h => absurd h List.not_mem_nil⟩
  intro passed x todo layers horder hrises
  refine ⟨by rw [length_raiseTargets, hrises.length], fun u v harc hne hu => ?_⟩
  have hsub := honward u v harc hne
  have hun : u < layers.length := hrises.length ▸ (hmem u).mp (hsub.subset (by simp))
  have hvn : v < layers.length := hrises.length ▸ (hmem v).mp (hsub.subset (by simp))
  -- A vertex that is passed already is no target of the one that is passed now.
  have hkeep : u ∈ passed → ¬ ((x, u) ∈ arcs ∧ u ≠ x) := by
    rintro hu ⟨harc', hne'⟩
    refine not_sublist_swap hnodup (honward x u harc' (Ne.symm hne')) ?_
    rw [horder]
    exact (List.singleton_sublist.mpr hu).append (List.singleton_sublist.mpr List.mem_cons_self)
  rw [getD_raiseTargets hun, getD_raiseTargets hvn]
  rcases List.mem_append.mp hu with hu | hu
  · have hlt := hrises.lt u v harc hne hu
    rw [if_neg (hkeep hu)]
    split
    · exact lt_of_lt_of_le hlt (le_max_left _ _)
    · exact hlt
  · obtain rfl := List.mem_singleton.mp hu
    rw [if_neg (fun h => h.2 rfl), if_pos ⟨harc, Ne.symm hne⟩]
    exact lt_of_lt_of_le (Nat.lt_succ_self _) (le_max_right _ _)

/-- **Every edge leads to a higher layer**, as it is or turned around. -/
theorem assignLayers_lt {n : Nat} (harcs : ∀ arc ∈ arcs, arc.1 < n ∧ arc.2 < n) :
    (assignLayers n arcs).1.length = n ∧
      ∀ u v, (u, v) ∈ reoriented arcs (assignLayers n arcs).2 → u ≠ v →
        (assignLayers n arcs).1.getD u 0 < (assignLayers n arcs).1.getD v 0 := by
  obtain ⟨hnodup, hmem⟩ := Search.mem_finished_search fun arc harc => (harcs arc harc).2
  have honward : ∀ u v, (u, v) ∈ reoriented arcs (search n arcs).reversed → u ≠ v →
      [u, v].Sublist (search n arcs).finished := fun u v harc hne =>
    sublist_of_mem_reoriented harcs harc hne
  have hrises := rises_longestPaths hnodup hmem honward
  refine ⟨hrises.length, fun u v harc hne => hrises.lt u v harc hne ?_⟩
  exact (honward u v harc hne).subset (by simp)

end Diagram
