import Diagram.Proofs.Decompiling
import Diagram.Proofs.Fields
import Diagram.Proofs.Rounding

/-!
# Nearness

The boxes within reach of a point are sorted by their distances from it, and boxes that are equally
near keep the order in which they were drawn.  So the first of them is the nearest, the earliest one
if several are, and the second is the nearest of the others.

All that this asks of the comparison of distances is that it is transitive and that of two distances
within reach one is at most the other.  It is true of floating-point numbers, which are in the order
of their signs, exponents and mantissas: only what is not a number is out of this order, and that is
not within reach of anything.
-/

namespace Diagram

/-! ## Sorting -/

section Sorting

variable {β : Type} {le : β → β → Bool} {before : β → β → Prop} {xs : List β}

/-- A list that is sorted with numbers at its members, by which equals are told apart. -/
theorem pairwise_mergeSort_of_total (htrans : ∀ a b c, le a b → le b c → le a c)
    (htotal : ∀ a b, le a b || le b a) (hbefore : xs.Pairwise before) :
    (xs.mergeSort le).Pairwise fun a b => le a b ∧ (le b a → before a b) := by
  have hsorted := List.pairwise_mergeSort (List.zipIdxLE_trans htrans)
    (List.zipIdxLE_total htotal) xs.zipIdx
  have hperm := List.mergeSort_perm xs.zipIdx (List.zipIdxLE le)
  have hnumbers : ((xs.zipIdx.mergeSort (List.zipIdxLE le)).map Prod.snd).Nodup := by
    rw [(hperm.map Prod.snd).nodup_iff, List.zipIdx_map_snd]
    exact List.nodup_range'
  rw [← List.mergeSort_zipIdx, List.pairwise_map]
  refine (hsorted.and (List.pairwise_map.mp hnumbers)).imp_of_mem ?_
  rintro ⟨a, i⟩ ⟨b, j⟩ ha hb ⟨hle, hne⟩
  have ha : xs[i]? = some a := List.mem_zipIdx_iff_getElem?.mp (hperm.mem_iff.mp ha)
  have hb : xs[j]? = some b := List.mem_zipIdx_iff_getElem?.mp (hperm.mem_iff.mp hb)
  obtain ⟨hi, rfl⟩ := List.getElem?_eq_some_iff.mp ha
  obtain ⟨hj, rfl⟩ := List.getElem?_eq_some_iff.mp hb
  rw [List.zipIdxLE] at hle
  split at hle
  · next hab =>
    refine ⟨hab, fun hba => ?_⟩
    rw [if_pos hba, decide_eq_true_eq] at hle
    exact List.pairwise_iff_getElem.mp hbefore i j hi hj (lt_of_le_of_ne hle hne)
  · cases hle

/-- **In a sorted list equals keep their order.**  The comparison has to be total among the members
of the list only. -/
theorem pairwise_mergeSort_stable (htrans : ∀ a b c, le a b → le b c → le a c)
    (htotal : ∀ a ∈ xs, ∀ b ∈ xs, le a b || le b a) (hbefore : xs.Pairwise before) :
    (xs.mergeSort le).Pairwise fun a b => le a b ∧ (le b a → before a b) := by
  have hmap : (xs.attach.mergeSort fun a b => le a.1 b.1).map Subtype.val = xs.mergeSort le := by
    rw [List.map_mergeSort (s := le) fun a _ b _ => rfl, List.attach_map_subtype_val]
  rw [← hmap, List.pairwise_map]
  refine pairwise_mergeSort_of_total (fun a b c => htrans a b c) (fun a b => ?_) ?_
  · exact htotal a a.2 b b.2
  · rw [← List.attach_map_subtype_val xs, List.pairwise_map] at hbefore
    exact hbefore

end Sorting

/-! ## Nearest boxes -/

section Nearest

variable {α : Type} [Metric α]

variable (α) in
/-- Distances are compared as a total order, in so far as they are within reach. -/
structure ComparesDistances : Prop where
  trans : ∀ a b c : α, a ≤ b → b ≤ c → a ≤ c
  total : ∀ a b : α, a ≤ reach → b ≤ reach → a ≤ b ∨ b ≤ a

variable (boxes : List (Box α)) (p : Point α)

/-- The `i`th box is within reach of a point. -/
def InReach (i : Nat) : Prop := ∃ b, boxes[i]? = some b ∧ b.distanceTo p ≤ reach

/-- The `i`th box is chosen before the `j`th: it is nearer, or it is as near and earlier. -/
def Precedes (i j : Nat) : Prop :=
  ∃ a b, boxes[i]? = some a ∧ boxes[j]? = some b ∧ a.distanceTo p ≤ b.distanceTo p ∧
    (b.distanceTo p ≤ a.distanceTo p → i < j)

/-- The `i`th box is the nearest one within reach, apart from those that are passed over. -/
structure IsNearest (passed : Finset Nat) (i : Nat) : Prop where
  inReach : InReach boxes p i
  notMem : i ∉ passed
  precedes : ∀ j, InReach boxes p j → j ∉ passed → j ≠ i → Precedes boxes p i j

/-- All boxes within reach, each before those that it precedes. -/
structure Ranks (order : List Nat) : Prop where
  mem_iff : ∀ i, i ∈ order ↔ InReach boxes p i
  pairwise : order.Pairwise (Precedes boxes p)

variable {boxes p}

instance (i : Nat) : Decidable (InReach boxes p i) :=
  match hi : boxes[i]? with
  | some b => decidable_of_iff (b.distanceTo p ≤ reach) (by simp [InReach, hi])
  | none => isFalse (by simp [InReach, hi])

instance (i j : Nat) : Decidable (Precedes boxes p i j) :=
  match hi : boxes[i]?, hj : boxes[j]? with
  | some a, some b => decidable_of_iff (a.distanceTo p ≤ b.distanceTo p ∧
      (b.distanceTo p ≤ a.distanceTo p → i < j)) (by simp [Precedes, hi, hj])
  | none, _ => isFalse (by simp [Precedes, hi])
  | some _, none => isFalse (by simp [Precedes, hi, hj])

theorem InReach.lt_length {i : Nat} (h : InReach boxes p i) : i < boxes.length := by
  obtain ⟨b, hb, -⟩ := h
  exact (List.getElem?_eq_some_iff.mp hb).1

theorem isNearest_iff {passed : Finset Nat} {i : Nat} : IsNearest boxes p passed i ↔
    InReach boxes p i ∧ i ∉ passed ∧ ∀ j < boxes.length, InReach boxes p j → j ∉ passed → j ≠ i →
      Precedes boxes p i j := by
  constructor
  · intro h
    exact ⟨h.inReach, h.notMem, fun j _ => h.precedes j⟩
  · rintro ⟨hreach, hmem, hall⟩
    exact ⟨hreach, hmem, fun j hj => hall j hj.lt_length hj⟩

instance (passed : Finset Nat) (i : Nat) : Decidable (IsNearest boxes p passed i) :=
  decidable_of_iff _ isNearest_iff.symm

theorem Precedes.asymm {i j : Nat} (h : Precedes boxes p i j) : ¬ Precedes boxes p j i := by
  rintro ⟨b', a', hb', ha', hba, hlt'⟩
  obtain ⟨a, b, ha, hb, hab, hlt⟩ := h
  obtain rfl := Option.some.inj (ha.symm.trans ha')
  obtain rfl := Option.some.inj (hb.symm.trans hb')
  have := hlt hba
  have := hlt' hab
  omega

/-- No two boxes are the nearest. -/
theorem IsNearest.unique {passed : Finset Nat} {i j : Nat} (hi : IsNearest boxes p passed i)
    (hj : IsNearest boxes p passed j) : i = j := by
  by_contra hne
  exact (hi.precedes j hj.inReach hj.notMem (Ne.symm hne)).asymm
    (hj.precedes i hi.inReach hi.notMem hne)

theorem IsNearest.ne {i j : Nat} (h : IsNearest boxes p {i} j) : j ≠ i :=
  Finset.notMem_singleton.mp h.notMem

namespace Ranks

variable {i j : Nat} {order : List Nat}

theorem nil_iff (h : Ranks boxes p []) (i : Nat) : ¬ InReach boxes p i := fun hi =>
  List.not_mem_nil ((h.mem_iff i).mpr hi)

/-- **The first box is the nearest.** -/
theorem isNearest_head (h : Ranks boxes p (i :: order)) : IsNearest boxes p ∅ i where
  inReach := (h.mem_iff i).mp List.mem_cons_self
  notMem := Finset.notMem_empty i
  precedes := by
    intro k hk _ hne
    have hmem := ((h.mem_iff k).mpr hk)
    exact List.rel_of_pairwise_cons h.pairwise ((List.mem_cons.mp hmem).resolve_left hne)

/-- **The second box is the nearest of the others.** -/
theorem isNearest_second (h : Ranks boxes p (i :: j :: order)) : IsNearest boxes p {i} j where
  inReach := (h.mem_iff j).mp (List.mem_cons_of_mem i List.mem_cons_self)
  notMem := by
    have hij := List.rel_of_pairwise_cons h.pairwise List.mem_cons_self
    rw [Finset.mem_singleton]
    rintro rfl
    exact hij.asymm hij
  precedes := by
    intro k hk hki hne
    rw [Finset.mem_singleton] at hki
    have hmem := ((h.mem_iff k).mpr hk)
    have hrest := (List.mem_cons.mp hmem).resolve_left hki
    have htail := (List.pairwise_cons.mp h.pairwise).2
    exact List.rel_of_pairwise_cons htail ((List.mem_cons.mp hrest).resolve_left hne)

/-- A single box is the only one within reach. -/
theorem eq_of_singleton (h : Ranks boxes p [i]) (hj : InReach boxes p j) : j = i :=
  List.mem_singleton.mp ((h.mem_iff j).mpr hj)

end Ranks

/-! ## Candidates -/

variable (cs : List (Candidate α)) (p)

/-- A numbered candidate is no farther from a point than another. -/
def noFarther (x y : Candidate α × Nat) : Bool := x.1.box.distanceTo p ≤ y.1.box.distanceTo p

theorem noFarther_iff {x y : Candidate α × Nat} :
    noFarther p x y ↔ x.1.box.distanceTo p ≤ y.1.box.distanceTo p := decide_eq_true_iff

/-- The numbered candidates within reach of a point, in the order in which they stand. -/
def reached : List (Candidate α × Nat) :=
  cs.zipIdx.filter fun x => x.1.box.distanceTo p ≤ reach

/-- The numbered candidates within reach of a point, in the order of their distances. -/
def ranked : List (Candidate α × Nat) := (reached p cs).mergeSort (noFarther p)

theorem nearest_eq_map :
    nearest cs p = (ranked p cs).map fun x => (x.1, x.1.box.distanceTo p) := by
  have hzip : cs.map (fun c => (c, c.box.distanceTo p)) =
      cs.zipIdx.map fun x => (x.1, x.1.box.distanceTo p) := by
    conv_lhs => rw [← List.zipIdx_map_fst 0 cs, List.map_map]
    rfl
  rw [nearest, hzip, List.filter_map, ranked]
  symm
  exact List.map_mergeSort (f := fun x : Candidate α × Nat => (x.1, x.1.box.distanceTo p))
    fun _ _ _ _ => rfl

variable {cs}

theorem mem_reached {x : Candidate α × Nat} :
    x ∈ reached p cs ↔ cs[x.2]? = some x.1 ∧ x.1.box.distanceTo p ≤ reach := by
  rw [reached, List.mem_filter, List.mem_zipIdx_iff_getElem?, decide_eq_true_eq]

theorem mem_ranked {x : Candidate α × Nat} :
    x ∈ ranked p cs ↔ cs[x.2]? = some x.1 ∧ x.1.box.distanceTo p ≤ reach := by
  rw [ranked, List.mem_mergeSort, mem_reached]

theorem pairwise_ranked (h : ComparesDistances α) :
    (ranked p cs).Pairwise fun x y => noFarther p x y ∧ (noFarther p y x → x.2 < y.2) := by
  have hnumbers : cs.zipIdx.Pairwise fun x y => x.2 < y.2 := by
    rw [← List.pairwise_map, List.zipIdx_map_snd]
    exact List.pairwise_lt_range' 1
  refine pairwise_mergeSort_stable (fun x y z => ?_) (fun x hx y hy => ?_) (hnumbers.filter _)
  · simp only [noFarther_iff]
    exact h.trans _ _ _
  · rw [Bool.or_eq_true, noFarther_iff, noFarther_iff]
    exact h.total _ _ ((mem_reached p).mp hx).2 ((mem_reached p).mp hy).2

/-- **What is within reach of a point**, in the order in which it is chosen. -/
theorem exists_ranks (h : ComparesDistances α) (cs : List (Candidate α)) (p : Point α) :
    ∃ order, Ranks (cs.map Candidate.box) p order ∧
      List.Forall₂ (fun i x => cs[i]? = some x.1) order (nearest cs p) := by
  have hbox : ∀ x ∈ ranked p cs, (cs.map Candidate.box)[x.2]? = some x.1.box := by
    intro x hx
    rw [List.getElem?_map, ((mem_ranked p).mp hx).1, Option.map_some]
  refine ⟨(ranked p cs).map Prod.snd, ⟨fun i => ?_, ?_⟩, ?_⟩
  · rw [List.mem_map]
    constructor
    · rintro ⟨x, hx, rfl⟩
      exact ⟨x.1.box, hbox x hx, ((mem_ranked p).mp hx).2⟩
    · rintro ⟨b, hb, hle⟩
      rw [List.getElem?_map] at hb
      obtain ⟨c, hc, rfl⟩ := Option.map_eq_some_iff.mp hb
      exact ⟨(c, i), (mem_ranked p).mpr ⟨hc, hle⟩, rfl⟩
  · rw [List.pairwise_map]
    refine (pairwise_ranked p h).imp_of_mem ?_
    intro x y hx hy hxy
    rw [noFarther_iff, noFarther_iff] at hxy
    exact ⟨x.1.box, y.1.box, hbox x hx, hbox y hy, hxy.1, hxy.2⟩
  · rw [nearest_eq_map, List.forall₂_map_left_iff, List.forall₂_map_right_iff, List.forall₂_same]
    intro x hx
    exact ((mem_ranked p).mp hx).1

end Nearest

/-! ## Numbers that compare distances -/

/-- The elements of an ordered field compare as a total order. -/
theorem comparesDistances_exact {K : Type} [Field K] [LinearOrder K] [IsStrictOrderedRing K]
    [FloorRing K] (hypot : K → K → K) (sin cos : K → K) (pi : K) :
    @ComparesDistances K (Metric.exact hypot sin cos pi) :=
  @ComparesDistances.mk K (Metric.exact hypot sin cos pi) (fun _ _ _ => le_trans)
    fun a b _ _ => le_total a b

open Binary in
/-- **Floating-point numbers compare distances as a total order.** -/
theorem comparesDistances_float : ComparesDistances Float where
  trans := by
    intro a b c hab hbc
    rw [le_iff_rank?_toModel] at hab hbc ⊢
    obtain ⟨i, j, hi, hj, hij⟩ := hab
    obtain ⟨j', k, hj', hk, hjk⟩ := hbc
    obtain rfl := Option.some.inj (hj.symm.trans hj')
    exact ⟨i, k, hi, hk, hij.trans hjk⟩
  total := by
    intro a b ha hb
    simp only [le_iff_rank?_toModel] at ha hb ⊢
    obtain ⟨i, -, hi, -⟩ := ha
    obtain ⟨j, -, hj, -⟩ := hb
    rcases le_total i j with hij | hji
    · exact .inl ⟨i, j, hi, hj, hij⟩
    · exact .inr ⟨j, i, hj, hi, hji⟩

end Diagram
