import Mathlib.Algebra.BigOperators.Fin
import Mathlib.Data.List.ProdSigma
import Diagram.Proofs.Inversions
import Diagram.Proofs.Sweeps

/-!
# Segments that cross

Between two rows, two segments cross where one begins to the left of the other and ends to its
right.  Seen from either row, the vertices are groups of segments, whose places are those of their
other ends; the segments that cross are the inverted pairs of these groups.  So the bound for groups
in the order of their means is one for a row that is sorted by the other: it has at most `d - 1`
times the crossings that it has in any other order, where no vertex has more than `d` segments.  And
where nothing crosses, both rows are sorted by each other.
-/

namespace Diagram

/-- The segments between two rows. -/
def joining (upper lower : List Nat) (segments : List (Nat × Nat)) : List (Nat × Nat) :=
  segments.filter fun s => s.1 ∈ upper ∧ s.2 ∈ lower

/-- Whether a segment begins to the left of another and ends to its right. -/
def crosses (upper lower : List Nat) (s t : Nat × Nat) : Bool :=
  upper.idxOf s.1 < upper.idxOf t.1 ∧ lower.idxOf t.2 < lower.idxOf s.2

/-- The number of pairs of segments between two rows that cross. -/
def crossingsBetween (upper lower : List Nat) (segments : List (Nat × Nat)) : Nat :=
  let joined := joining upper lower segments
  (joined ×ˢ joined).countP fun (s, t) => crosses upper lower s t

/-- The number of pairs of segments that cross, between any row and the next. -/
def crossings (segments : List (Nat × Nat)) : List (List Nat) → Nat
  | upper :: lower :: rows =>
    crossingsBetween upper lower segments + crossings segments (lower :: rows)
  | _ => 0

@[simp] theorem crossingsBetween_nil_right (upper : List Nat) (segments : List (Nat × Nat)) :
    crossingsBetween upper [] segments = 0 := by
  simp [crossingsBetween, joining]

/-! ## Neighbours

The two ends of a segment are `p` and `q` below, since either row may be the one that is sorted. -/

/-- The other ends of the segments at a vertex. -/
def endsAt (p q : Nat × Nat → Nat) (segments : List (Nat × Nat)) (v : Nat) : List Nat :=
  (segments.filter fun s => p s = v).map q

section

variable {p q : Nat × Nat → Nat} {segments : List (Nat × Nat)} {v : Nat}

theorem endsAt_ne_nil (h : ∃ s ∈ segments, p s = v) : endsAt p q segments v ≠ [] := by
  obtain ⟨s, hs, hv⟩ := h
  exact List.ne_nil_of_mem (List.mem_map_of_mem (List.mem_filter.mpr ⟨hs, decide_eq_true hv⟩))

theorem endsAt_filter {P : Nat × Nat → Bool} (h : ∀ s ∈ segments, p s = v → P s = true) :
    endsAt p q (segments.filter P) v = endsAt p q segments v := by
  rw [endsAt, endsAt, List.filter_filter]
  refine congrArg (List.map q) (List.filter_congr fun s hs => ?_)
  by_cases hv : p s = v
  · rw [h s hs hv, Bool.and_true]
  · rw [decide_eq_false hv, Bool.false_and]

theorem getD_modify {a : Array (List Nat)} {u : Nat} (h : v < a.size) (f : List Nat → List Nat) :
    (a.modify u f).getD v [] = if u = v then f (a.getD v []) else a.getD v [] := by
  rw [Array.getD_eq_getD_getElem?, Array.getD_eq_getD_getElem?, Array.getElem?_modify,
    Array.getElem?_eq_getElem h]
  split <;> rfl

variable (p q segments) in
theorem size_foldl_modify (a : Array (List Nat)) :
    (segments.foldl (fun a s => a.modify (p s) (· ++ [q s])) a).size = a.size := by
  induction segments generalizing a with
  | nil => rfl
  | cons s segments ih => exact (ih _).trans Array.size_modify

variable (p q segments) in
theorem getD_foldl_modify {a : Array (List Nat)} (h : v < a.size) :
    (segments.foldl (fun a s => a.modify (p s) (· ++ [q s])) a).getD v [] =
      a.getD v [] ++ endsAt p q segments v := by
  induction segments generalizing a with
  | nil => exact (List.append_nil _).symm
  | cons s segments ih =>
    rw [List.foldl_cons, ih (by rwa [Array.size_modify]), getD_modify h, endsAt, endsAt,
      List.filter_cons]
    by_cases hv : p s = v
    · simp [hv]
    · simp [hv]

end

section

variable (segments : List (Nat × Nat))

/-- The two sides of the neighbours do not depend on each other. -/
theorem foldl_adjacency (a : Adjacency) :
    segments.foldl (fun a (u, v) =>
      (⟨a.before.modify v (· ++ [u]), a.behind.modify u (· ++ [v])⟩ : Adjacency)) a =
    ⟨segments.foldl (fun a s => a.modify s.2 (· ++ [s.1])) a.before,
      segments.foldl (fun a s => a.modify s.1 (· ++ [s.2])) a.behind⟩ := by
  induction segments generalizing a with
  | nil => rfl
  | cons s segments ih => exact ih _

theorem adjacency_eq (n : Nat) : adjacency n segments =
    ⟨segments.foldl (fun a s => a.modify s.2 (· ++ [s.1])) (Array.replicate n []),
      segments.foldl (fun a s => a.modify s.1 (· ++ [s.2])) (Array.replicate n [])⟩ :=
  foldl_adjacency segments _

/-- No vertex has more neighbours than there are segments, whether there is such a vertex or not. -/
theorem length_getD_foldl_modify_le (p q : Nat × Nat → Nat) (n v : Nat) :
    ((segments.foldl (fun a s => a.modify (p s) (· ++ [q s])) (Array.replicate n [])).getD v
      []).length ≤ segments.length := by
  by_cases h : v < n
  · rw [getD_foldl_modify p q segments (by rwa [Array.size_replicate]), endsAt]
    simpa [h] using List.length_filter_le ..
  · rw [Array.getD_eq_getD_getElem?, Array.getElem?_eq_none]
    · exact Nat.zero_le _
    · rw [size_foldl_modify, Array.size_replicate]
      exact not_lt.mp h

theorem length_before_adjacency_le (n v : Nat) :
    ((adjacency n segments).before.getD v []).length ≤ segments.length := by
  rw [adjacency_eq]
  exact length_getD_foldl_modify_le segments Prod.snd Prod.fst n v

theorem length_behind_adjacency_le (n v : Nat) :
    ((adjacency n segments).behind.getD v []).length ≤ segments.length := by
  rw [adjacency_eq]
  exact length_getD_foldl_modify_le segments Prod.fst Prod.snd n v

variable {n v : Nat} (h : v < n)

include h

/-- **The neighbours before a vertex** are where the segments that end at it begin. -/
theorem getD_before_adjacency :
    (adjacency n segments).before.getD v [] = endsAt Prod.snd Prod.fst segments v := by
  rw [adjacency_eq]
  refine (getD_foldl_modify Prod.snd Prod.fst segments (by rwa [Array.size_replicate])).trans ?_
  simp [h]

/-- **The neighbours behind a vertex** are where the segments that begin at it end. -/
theorem getD_behind_adjacency :
    (adjacency n segments).behind.getD v [] = endsAt Prod.fst Prod.snd segments v := by
  rw [adjacency_eq]
  refine (getD_foldl_modify Prod.fst Prod.snd segments (by rwa [Array.size_replicate])).trans ?_
  simp [h]

end

/-! ## Crossings as inverted pairs -/

theorem countP_eq_sum {β : Type} (l : List β) (P : β → Bool) :
    l.countP P = ∑ i : Fin l.length, if P l[i] then 1 else 0 := by
  refine Eq.trans ?_ (Fin.sum_univ_fun_getElem l fun b => if P b then 1 else 0).symm
  induction l with
  | nil => rfl
  | cons b l ih => rw [List.countP_cons, ih, List.map_cons, List.sum_cons, add_comm]

theorem countP_product {β : Type} (l : List β) (P : β × β → Bool) : (l ×ˢ l).countP P =
    ((Finset.univ ×ˢ Finset.univ : Finset (Fin l.length × Fin l.length)).filter
      fun c => P (l[c.1], l[c.2])).card := by
  have hrows : (l ×ˢ l).countP P = (l.map fun b => l.countP fun c => P (b, c)).sum := by
    refine List.countP_flatMap.trans (congrArg List.sum (List.map_congr_left fun b _ => ?_))
    exact List.countP_map
  rw [hrows, Finset.card_filter, Finset.sum_product, ← Fin.sum_univ_fun_getElem]
  exact Finset.sum_congr rfl fun i _ => countP_eq_sum l fun c => P (l[i], c)

section

variable (p q : Nat × Nat → Nat) (segments : List (Nat × Nat))

/-- The inverted pairs of segments, for a row whose vertices are groups of segments and a row of
their other ends. -/
def crossedAt (facing row : List Nat) : Nat :=
  crossed (Finset.univ : Finset (Fin segments.length)) (fun i => p segments[i])
    (fun i => facing.idxOf (q segments[i])) row.idxOf

theorem sum_members (g : Nat → Nat) (v : Nat) :
    ∑ i ∈ members (Finset.univ : Finset (Fin segments.length)) (fun i => p segments[i]) v,
      g (q segments[i]) = ((endsAt p q segments v).map g).sum := by
  rw [members, Finset.sum_filter]
  refine (Fin.sum_univ_fun_getElem segments fun s => if p s = v then g (q s) else 0).trans ?_
  induction segments with
  | nil => rfl
  | cons s segments ih =>
    rw [List.map_cons, List.sum_cons, ih, endsAt, endsAt, List.filter_cons]
    by_cases hv : p s = v
    · simp [hv]
    · simp [hv]

theorem card_members (v : Nat) :
    (members (Finset.univ : Finset (Fin segments.length)) (fun i => p segments[i]) v).card =
      (endsAt p q segments v).length := by
  simpa using sum_members p q segments (fun _ => 1) v

end

section

variable (upper lower : List Nat) (segments : List (Nat × Nat))

/-- Crossings, with the segments grouped by where they begin. -/
theorem crossingsBetween_eq_fst : crossingsBetween upper lower segments =
    crossedAt Prod.fst Prod.snd (joining upper lower segments) lower upper := by
  rw [crossingsBetween, countP_product, crossedAt, crossed]
  simp only [crosses, decide_eq_true_eq]

/-- Crossings, with the segments grouped by where they end. -/
theorem crossingsBetween_eq_snd : crossingsBetween upper lower segments =
    crossedAt Prod.snd Prod.fst (joining upper lower segments) upper lower :=
  (crossingsBetween_eq_fst upper lower segments).trans
    (crossed_comm (fun i : Fin (joining upper lower segments).length =>
      (joining upper lower segments)[i].1) (fun i => (joining upper lower segments)[i].2)
      upper.idxOf lower.idxOf)

end

/-! ## A sorted row -/

theorem pairwise_iff_idxOf {row : List Nat} (hnodup : row.Nodup) {R : Nat → Nat → Prop} :
    row.Pairwise R ↔ ∀ v ∈ row, ∀ w ∈ row, row.idxOf v < row.idxOf w → R v w := by
  rw [List.pairwise_iff_getElem]
  constructor
  · intro h v hv w hw hlt
    have hrel := h _ _ (List.idxOf_lt_length_of_mem hv) (List.idxOf_lt_length_of_mem hw) hlt
    rwa [List.getElem_idxOf, List.getElem_idxOf] at hrel
  · intro h i j hi hj hlt
    refine h _ (List.getElem_mem hi) _ (List.getElem_mem hj) ?_
    rwa [hnodup.idxOf_getElem, hnodup.idxOf_getElem]

section

variable {p q : Nat × Nat → Nat} {joined : List (Nat × Nat)} {adjacent : Array (List Nat)}
  {facing row : List Nat} (hnodup : row.Nodup)
  (hadjacent : ∀ v ∈ row, adjacent.getD v [] = endsAt p q joined v)

include hadjacent

theorem meanLe_members_iff {v w : Nat} (hv : v ∈ row) (hw : w ∈ row) :
    MeanLe (fun i => facing.idxOf (q joined[i]))
      (members (Finset.univ : Finset (Fin joined.length)) (fun i => p joined[i]) v)
      (members Finset.univ (fun i => p joined[i]) w) ↔
    ((adjacent.getD v []).map facing.idxOf).sum * (adjacent.getD w []).length ≤
      ((adjacent.getD w []).map facing.idxOf).sum * (adjacent.getD v []).length := by
  rw [MeanLe, sum_members p q joined facing.idxOf v, sum_members p q joined facing.idxOf w,
    card_members p q joined v, card_members p q joined w, hadjacent v hv, hadjacent w hw]

include hnodup

theorem isSortedBy_of_crossedAt_eq_zero (h : crossedAt p q joined facing row = 0) :
    IsSortedBy adjacent facing row := by
  refine (pairwise_iff_idxOf hnodup).mpr fun v hv w hw hlt => ?_
  rw [← meanLe_members_iff hadjacent hv hw]
  exact meanLe_of_inversions_eq_zero (inversions_eq_zero_of_crossed h hlt)

theorem crossedAt_le_mul (hsorted : IsSortedBy adjacent facing row)
    (hjoined : ∀ s ∈ joined, p s ∈ row) {d : Nat}
    (hd : ∀ v ∈ row, (adjacent.getD v []).length ≤ d) {other : List Nat} (hother : other.Perm row) :
    crossedAt p q joined facing row ≤ max 1 (d - 1) * crossedAt p q joined facing other := by
  have hmem : ∀ v ∈ Finset.univ.image fun i : Fin joined.length => p joined[i], v ∈ row := by
    intro v hv
    obtain ⟨i, -, rfl⟩ := Finset.mem_image.mp hv
    exact hjoined _ (List.getElem_mem i.2)
  refine crossed_le_mul (fun v hv => ?_) (fun v hv w hw hlt => ?_) fun v hv w _ heq => ?_
  · rw [card_members p q joined v, ← hadjacent v (hmem v hv)]
    exact hd v (hmem v hv)
  · rw [meanLe_members_iff hadjacent (hmem v hv) (hmem w hw)]
    exact (pairwise_iff_idxOf hnodup).mp hsorted v (hmem v hv) w (hmem w hw) hlt
  · exact (List.idxOf_inj (hother.mem_iff.mpr (hmem v hv))).mp heq

end

/-! ## Two rows -/

/-- A segment leads on from the one row if it leads to the other. -/
def Joins (segments : List (Nat × Nat)) (upper lower : List Nat) : Prop :=
  ∀ s ∈ segments, s.1 ∈ upper ↔ s.2 ∈ lower

theorem joining_perm {upper upper' lower lower' : List Nat} (segments : List (Nat × Nat))
    (hupper : upper'.Perm upper) (hlower : lower'.Perm lower) :
    joining upper' lower' segments = joining upper lower segments := by
  refine List.filter_congr fun s _ => ?_
  simp only [hupper.mem_iff, hlower.mem_iff]

theorem mem_joining {upper lower : List Nat} {segments : List (Nat × Nat)} {s : Nat × Nat} :
    s ∈ joining upper lower segments ↔ s ∈ segments ∧ s.1 ∈ upper ∧ s.2 ∈ lower := by
  rw [joining, List.mem_filter, decide_eq_true_iff]

section

variable {segments : List (Nat × Nat)} {upper lower : List Nat} {n : Nat}
  (h : Joins segments upper lower)

section

variable (hlt : ∀ v ∈ upper, v < n)

include h hlt

theorem behind_eq_endsAt_joining : ∀ v ∈ upper, (adjacency n segments).behind.getD v [] =
    endsAt Prod.fst Prod.snd (joining upper lower segments) v := by
  intro v hv
  rw [getD_behind_adjacency segments (hlt v hv), joining, endsAt_filter]
  rintro s hs rfl
  exact decide_eq_true ⟨hv, (h s hs).mp hv⟩

theorem isNear_behind : IsNear (adjacency n segments).behind lower upper := by
  intro v hv u hu
  rw [behind_eq_endsAt_joining h hlt v hv] at hu
  obtain ⟨s, hs, rfl⟩ := List.mem_map.mp hu
  exact (mem_joining.mp (List.mem_filter.mp hs).1).2.2

variable (hnodup : upper.Nodup)

include hnodup

theorem isSortedBy_behind (hzero : crossingsBetween upper lower segments = 0) :
    IsSortedBy (adjacency n segments).behind lower upper :=
  isSortedBy_of_crossedAt_eq_zero hnodup (behind_eq_endsAt_joining h hlt)
    (crossingsBetween_eq_fst upper lower segments ▸ hzero)

/-- **A row that is sorted by the row behind it** has at most `d - 1` times the crossings that it
has in any other order. -/
theorem crossingsBetween_le_of_behind
    (hsorted : IsSortedBy (adjacency n segments).behind lower upper) {d : Nat}
    (hd : ∀ v ∈ upper, (segments.filter fun s => s.1 = v).length ≤ d) {other : List Nat}
    (hother : other.Perm upper) : crossingsBetween upper lower segments ≤
      max 1 (d - 1) * crossingsBetween other lower segments := by
  rw [crossingsBetween_eq_fst, crossingsBetween_eq_fst,
    joining_perm segments hother (.refl lower)]
  refine crossedAt_le_mul hnodup (behind_eq_endsAt_joining h hlt) hsorted
    (fun s hs => (mem_joining.mp hs).2.1) (fun v hv => ?_) hother
  rw [getD_behind_adjacency segments (hlt v hv), endsAt, List.length_map]
  exact hd v hv

end

section

variable (hlt : ∀ v ∈ lower, v < n)

include h hlt

theorem before_eq_endsAt_joining : ∀ v ∈ lower, (adjacency n segments).before.getD v [] =
    endsAt Prod.snd Prod.fst (joining upper lower segments) v := by
  intro v hv
  rw [getD_before_adjacency segments (hlt v hv), joining, endsAt_filter]
  rintro s hs rfl
  exact decide_eq_true ⟨(h s hs).mpr hv, hv⟩

theorem isNear_before : IsNear (adjacency n segments).before upper lower := by
  intro v hv u hu
  rw [before_eq_endsAt_joining h hlt v hv] at hu
  obtain ⟨s, hs, rfl⟩ := List.mem_map.mp hu
  exact (mem_joining.mp (List.mem_filter.mp hs).1).2.1

variable (hnodup : lower.Nodup)

include hnodup

theorem isSortedBy_before (hzero : crossingsBetween upper lower segments = 0) :
    IsSortedBy (adjacency n segments).before upper lower :=
  isSortedBy_of_crossedAt_eq_zero hnodup (before_eq_endsAt_joining h hlt)
    (crossingsBetween_eq_snd upper lower segments ▸ hzero)

/-- **A row that is sorted by the row before it** has at most `d - 1` times the crossings that it
has in any other order. -/
theorem crossingsBetween_le_of_before
    (hsorted : IsSortedBy (adjacency n segments).before upper lower) {d : Nat}
    (hd : ∀ v ∈ lower, (segments.filter fun s => s.2 = v).length ≤ d) {other : List Nat}
    (hother : other.Perm lower) : crossingsBetween upper lower segments ≤
      max 1 (d - 1) * crossingsBetween upper other segments := by
  rw [crossingsBetween_eq_snd, crossingsBetween_eq_snd,
    joining_perm segments (.refl upper) hother]
  refine crossedAt_le_mul hnodup (before_eq_endsAt_joining h hlt) hsorted
    (fun s hs => (mem_joining.mp hs).2.2) (fun v hv => ?_) hother
  rw [getD_before_adjacency segments (hlt v hv), endsAt, List.length_map]
  exact hd v hv

end

end

end Diagram
