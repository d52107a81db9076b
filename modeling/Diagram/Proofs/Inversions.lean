import Mathlib.Algebra.BigOperators.Ring.Finset
import Mathlib.Algebra.Module.NatInt
import Mathlib.Algebra.Order.BigOperators.Group.Finset

/-!
# Groups in the order of their means

Members of two groups have places.  A pair of one member of each is inverted where the member of
the first group lies behind that of the second.  If the mean place of the first group is no later
than that of the second, this way round may still have inverted pairs, but not many more than the
other way round: of groups of at most `d` members, at most `d - 1` times as many.  So groups that
stand in a row in the order of their means have at most `d - 1` times the inverted pairs that they
have in any other order.

The bound rests on the first place of the first group and the last place of the second.  If many
members lie strictly before the one or behind the other, there are many pairs the other way round.
If few do, most pairs of the rest are as far apart as possible in the wrong direction, and the means
would have to be the other way round.
-/

namespace Diagram

section

variable {ι : Type} (f : ι → ℕ)

/-- The number of pairs of a member of each group of which the first lies behind the second. -/
def inversions (s t : Finset ι) : ℕ := ((s ×ˢ t).filter fun p => f p.2 < f p.1).card

/-- The mean place of the first group is at most that of the second. -/
def MeanLe (s t : Finset ι) : Prop := (∑ i ∈ s, f i) * t.card ≤ (∑ j ∈ t, f j) * s.card

variable {f} {s t : Finset ι}

theorem inversions_comm : inversions f t s = ((s ×ˢ t).filter fun p => f p.1 < f p.2).card := by
  refine Finset.card_equiv (Equiv.prodComm ι ι) fun p => ?_
  simp only [Finset.mem_filter, Finset.mem_product, Equiv.prodComm_apply, Prod.fst_swap,
    Prod.snd_swap, and_comm]

theorem inversions_eq_zero_iff : inversions f s t = 0 ↔ ∀ i ∈ s, ∀ j ∈ t, f i ≤ f j := by
  rw [inversions, Finset.card_eq_zero, Finset.filter_eq_empty_iff]
  simp only [Finset.mem_product, not_lt, and_imp, Prod.forall]
  exact ⟨fun h i hi j hj => h i j hi hj, fun h i j hi hj => h i hi j hj⟩

/-- No pair is inverted both ways. -/
theorem inversions_add_le : inversions f s t + inversions f t s ≤ s.card * t.card := by
  classical
  have hdisjoint : Disjoint ((s ×ˢ t).filter fun p => f p.2 < f p.1)
      ((s ×ˢ t).filter fun p => f p.1 < f p.2) :=
    Finset.disjoint_filter.mpr fun p _ h => h.not_gt
  rw [inversions_comm (s := s), inversions, ← Finset.card_product,
    ← Finset.card_union_of_disjoint hdisjoint]
  exact Finset.card_le_card
    (Finset.union_subset (Finset.filter_subset _ _) (Finset.filter_subset _ _))

/-! ## Means -/

theorem sum_fst_product : ∑ p ∈ s ×ˢ t, f p.1 = (∑ i ∈ s, f i) * t.card := by
  rw [Finset.sum_product, Finset.sum_mul]
  simp only [Finset.sum_const, smul_eq_mul, mul_comm]

theorem sum_snd_product : ∑ p ∈ s ×ˢ t, f p.2 = (∑ j ∈ t, f j) * s.card := by
  rw [Finset.sum_product_right, Finset.sum_mul]
  simp only [Finset.sum_const, smul_eq_mul, mul_comm]

/-- What a pair is worth is paid for by how far its members are apart.  Over all pairs the means
decide. -/
theorem MeanLe.sum_le_sum (h : MeanLe f s t) {w c : ι × ι → ℕ}
    (hpair : ∀ p ∈ s ×ˢ t, w p + f p.2 ≤ c p + f p.1) :
    ∑ p ∈ s ×ˢ t, w p ≤ ∑ p ∈ s ×ˢ t, c p := by
  have hsum := Finset.sum_le_sum hpair
  rw [Finset.sum_add_distrib, Finset.sum_add_distrib, sum_fst_product, sum_snd_product] at hsum
  rw [MeanLe] at h
  omega

theorem meanLe_of_inversions_eq_zero (h : inversions f s t = 0) : MeanLe f s t := by
  rw [inversions_eq_zero_iff] at h
  rw [MeanLe, ← sum_fst_product, ← sum_snd_product]
  refine Finset.sum_le_sum fun p hp => ?_
  obtain ⟨hi, hj⟩ := Finset.mem_product.mp hp
  exact h _ hi _ hj

/-- Where the first group lies behind the second as a whole, the means leave no room. -/
theorem MeanLe.inversions_eq_zero {m : ℕ} (h : MeanLe f s t) (hs : ∀ i ∈ s, m ≤ f i)
    (ht : ∀ j ∈ t, f j ≤ m) : inversions f s t = 0 := by
  have hsum := h.sum_le_sum (w := fun p => if f p.2 < f p.1 then 1 else 0)
    (c := fun _ => 0) fun p hp => by
      obtain ⟨hi, hj⟩ := Finset.mem_product.mp hp
      have := hs _ hi
      have := ht _ hj
      split <;> omega
  rwa [← Finset.card_filter, Finset.sum_const_zero, Nat.le_zero] at hsum

/-! ## Two groups -/

/-- A member of the first group that lies before some place is in a pair with a member of the second
at that place, and the same the other way round. -/
theorem before_add_behind_le {i j : ι} (hi : i ∈ s) (hj : j ∈ t) :
    (s.filter (f · < f j)).card + (t.filter (f i < f ·)).card ≤ inversions f t s + 1 := by
  classical
  have hunion : (s.filter (f · < f j)) ×ˢ {j} ∪ {i} ×ˢ (t.filter (f i < f ·)) ⊆
      (s ×ˢ t).filter fun p => f p.1 < f p.2 := by
    intro p hp
    simp only [Finset.mem_union, Finset.mem_product, Finset.mem_filter,
      Finset.mem_singleton] at hp ⊢
    rcases hp with ⟨⟨hs, hlt⟩, rfl⟩ | ⟨rfl, ht, hlt⟩
    · exact ⟨⟨hs, hj⟩, hlt⟩
    · exact ⟨⟨hi, ht⟩, hlt⟩
  have hinter : (s.filter (f · < f j)) ×ˢ {j} ∩ {i} ×ˢ (t.filter (f i < f ·)) ⊆ {(i, j)} := by
    intro p hp
    simp only [Finset.mem_inter, Finset.mem_product, Finset.mem_singleton] at hp ⊢
    exact Prod.ext hp.2.1 hp.1.2
  have hcard := Finset.card_union_add_card_inter ((s.filter (f · < f j)) ×ˢ {j})
    ({i} ×ˢ (t.filter (f i < f ·)))
  simp only [Finset.card_product, Finset.card_singleton, mul_one, one_mul] at hcard
  have hunion_card := Finset.card_le_card hunion
  have hinter_card := Finset.card_le_card hinter
  rw [Finset.card_singleton] at hinter_card
  rw [inversions_comm]
  omega

section

variable {low high : ℕ} (hlow : ∀ i ∈ s, low ≤ f i) (hhigh : ∀ j ∈ t, f j ≤ high)

include hlow hhigh

theorem inversions_le_before_mul_behind : inversions f t s ≤
    (s.filter fun i => f i < high).card * (t.filter fun j => low < f j).card := by
  rw [inversions_comm, ← Finset.card_product]
  refine Finset.card_le_card fun p hp => ?_
  simp only [Finset.mem_filter, Finset.mem_product] at hp ⊢
  exact ⟨⟨hp.1.1, hp.2.trans_le (hhigh _ hp.1.2)⟩, hp.1.2, (hlow _ hp.1.1).trans_lt hp.2⟩

/-- Pairs that are as far apart as the first place of the one group and the last of the other, but
the wrong way round, are worth as much as that distance. -/
theorem MeanLe.mul_apart_add_inversions_le (h : MeanLe f s t) {n : ℕ} (hn : low + (n + 1) = high) :
    n * ((s.filter fun i => high ≤ f i).card * (t.filter fun j => f j ≤ low).card) +
      inversions f s t ≤ (n + 1) * inversions f t s := by
  have hsum := h.sum_le_sum
    (w := fun p => n * (if high ≤ f p.1 ∧ f p.2 ≤ low then 1 else 0) +
      (if f p.2 < f p.1 then 1 else 0))
    (c := fun p => (n + 1) * (if f p.1 < f p.2 then 1 else 0)) fun p hp => by
      obtain ⟨hi, hj⟩ := Finset.mem_product.mp hp
      have := hlow _ hi
      have := hhigh _ hj
      split_ifs <;> omega
  rwa [Finset.sum_add_distrib, ← Finset.mul_sum, ← Finset.mul_sum, ← Finset.card_filter,
    ← Finset.card_filter, ← Finset.card_filter, ← inversions_comm,
    Finset.filter_product (fun i => high ≤ f i) (fun j => f j ≤ low), Finset.card_product] at hsum

end

/-- Either there are many pairs the other way round, or no fewer than this way round. -/
theorem MeanLe.min_card_le_or_inversions_le (h : MeanLe f s t) {i j : ι} (hi : i ∈ s) (hj : j ∈ t)
    (hlow : ∀ k ∈ s, f i ≤ f k) (hhigh : ∀ k ∈ t, f k ≤ f j) (hlt : f i < f j) :
    min s.card t.card ≤ inversions f t s ∨ inversions f s t ≤ inversions f t s := by
  have hs := Finset.card_filter_add_card_filter_not (s := s) (f · < f j)
  have ht := Finset.card_filter_add_card_filter_not (s := t) (f i < f ·)
  simp only [not_lt] at hs ht
  have hsum := before_add_behind_le (f := f) hi hj
  refine or_iff_not_imp_left.mpr fun hfew => ?_
  have hapart : inversions f t s ≤
      (s.filter fun k => f j ≤ f k).card * (t.filter fun k => f k ≤ f i).card := by
    refine (inversions_le_before_mul_behind hlow hhigh).trans ?_
    rw [mul_comm]
    exact Nat.mul_le_mul (by omega) (by omega)
  obtain ⟨n, hn⟩ : ∃ n, f i + (n + 1) = f j := ⟨f j - f i - 1, by omega⟩
  have hworth := h.mul_apart_add_inversions_le hlow hhigh hn
  have := Nat.mul_le_mul_left n hapart
  rw [Nat.succ_mul] at hworth
  omega

theorem le_max_one_mul (n d : ℕ) : n ≤ max 1 (d - 1) * n :=
  Nat.le_mul_of_pos_left n (Nat.one_pos.trans_le (le_max_left 1 (d - 1)))

/-- **Two groups in the order of their means** have at most `d - 1` times the inverted pairs that
they have the other way round. -/
theorem MeanLe.inversions_le_mul (h : MeanLe f s t) {d : ℕ} (hs : s.card ≤ d) (ht : t.card ≤ d) :
    inversions f s t ≤ max 1 (d - 1) * inversions f t s := by
  rcases s.eq_empty_or_nonempty with rfl | hs'
  · simp [inversions]
  rcases t.eq_empty_or_nonempty with rfl | ht'
  · simp [inversions]
  obtain ⟨i, hi, hlow⟩ := s.exists_min_image f hs'
  obtain ⟨j, hj, hhigh⟩ := t.exists_max_image f ht'
  rcases le_or_gt (f j) (f i) with hle | hlt
  · rw [h.inversions_eq_zero hlow fun k hk => (hhigh k hk).trans hle]
    exact Nat.zero_le _
  rcases h.min_card_le_or_inversions_le hi hj hlow hhigh hlt with hmany | hle
  · have hall : inversions f s t + inversions f t s ≤ d * inversions f t s := by
      refine inversions_add_le.trans ?_
      rcases le_total s.card t.card with hcard | hcard
      · rw [mul_comm]
        exact Nat.mul_le_mul ht (min_eq_left hcard ▸ hmany)
      · exact Nat.mul_le_mul hs (min_eq_right hcard ▸ hmany)
    calc inversions f s t ≤ (d - 1) * inversions f t s := by
          rw [Nat.sub_mul, one_mul]
          omega
      _ ≤ max 1 (d - 1) * inversions f t s := Nat.mul_le_mul_right _ (le_max_right 1 (d - 1))
  · calc inversions f s t ≤ inversions f t s := hle
      _ ≤ max 1 (d - 1) * inversions f t s := le_max_one_mul ..

end

/-! ## Groups in a row -/

section

variable {ι : Type} (all : Finset ι) (group f : ι → ℕ)

/-- The members of one group. -/
def members (v : ℕ) : Finset ι := all.filter fun i => group i = v

/-- The number of pairs of members whose groups stand in one order and whose own places lie in the
other, for a row in which every group stands somewhere. -/
def crossed (stand : ℕ → ℕ) : ℕ :=
  ((all ×ˢ all).filter fun p => stand (group p.1) < stand (group p.2) ∧ f p.2 < f p.1).card

/-- What two groups add to it. -/
def crossedOf (stand : ℕ → ℕ) (v w : ℕ) : ℕ :=
  if stand v < stand w then inversions f (members all group v) (members all group w) else 0

variable {all group f} {stand stand' : ℕ → ℕ}

theorem crossed_eq_sum : crossed all group f stand =
    ∑ v ∈ all.image group, ∑ w ∈ all.image group, crossedOf all group f stand v w := by
  rw [← Finset.sum_product', crossed,
    Finset.card_eq_sum_card_fiberwise (f := fun p => (group p.1, group p.2))
      (t := all.image group ×ˢ all.image group)]
  · refine Finset.sum_congr rfl fun q _ => ?_
    rw [crossedOf, Finset.filter_filter]
    split
    case isTrue hlt =>
      refine congrArg Finset.card (Finset.ext fun p => ?_)
      simp only [members, Finset.mem_filter, Finset.mem_product, Prod.ext_iff]
      constructor
      · rintro ⟨⟨hi, hj⟩, ⟨-, hf⟩, hv, hw⟩
        exact ⟨⟨⟨hi, hv⟩, hj, hw⟩, hf⟩
      · rintro ⟨⟨⟨hi, hv⟩, hj, hw⟩, hf⟩
        exact ⟨⟨hi, hj⟩, ⟨hv ▸ hw ▸ hlt, hf⟩, hv, hw⟩
    case isFalse hlt =>
      refine Finset.card_eq_zero.mpr (Finset.filter_eq_empty_iff.mpr ?_)
      rintro p - ⟨⟨h, -⟩, rfl⟩
      exact hlt h
  · intro p hp
    obtain ⟨hi, hj⟩ := Finset.mem_product.mp (Finset.mem_filter.mp hp).1
    exact Finset.mem_product.mpr ⟨Finset.mem_image_of_mem _ hi, Finset.mem_image_of_mem _ hj⟩

/-- Taken twice, every two groups count in both orders. -/
theorem two_mul_crossed : 2 * crossed all group f stand =
    ∑ v ∈ all.image group, ∑ w ∈ all.image group,
      (crossedOf all group f stand v w + crossedOf all group f stand w v) := by
  simp only [Finset.sum_add_distrib]
  rw [Finset.sum_comm (f := fun v w => crossedOf all group f stand w v), ← crossed_eq_sum, two_mul]

theorem inversions_eq_zero_of_crossed (h : crossed all group f stand = 0) {v w : ℕ}
    (hlt : stand v < stand w) :
    inversions f (members all group v) (members all group w) = 0 := by
  rw [inversions_eq_zero_iff]
  intro i hi j hj
  obtain ⟨hi', rfl⟩ := Finset.mem_filter.mp hi
  obtain ⟨hj', rfl⟩ := Finset.mem_filter.mp hj
  rw [crossed, Finset.card_eq_zero, Finset.filter_eq_empty_iff] at h
  exact not_lt.mp fun hf => h (Finset.mk_mem_product hi' hj') ⟨hlt, hf⟩

/-- Exchanging what the groups are and what the places are exchanges the two ends of every pair. -/
theorem crossed_comm (ends other : ι → ℕ) (stand place : ℕ → ℕ) :
    crossed all ends (fun i => place (other i)) stand =
      crossed all other (fun i => stand (ends i)) place := by
  refine Finset.card_equiv (Equiv.prodComm ι ι) fun p => ?_
  simp only [Finset.mem_filter, Finset.mem_product, Equiv.prodComm_apply, Prod.fst_swap,
    Prod.snd_swap, and_comm]

/-- Two groups add what is inverted of the one that stands first against the other. -/
theorem crossedOf_add_of_lt {v w : ℕ} (hlt : stand v < stand w) :
    crossedOf all group f stand v w + crossedOf all group f stand w v =
      inversions f (members all group v) (members all group w) := by
  rw [crossedOf, if_pos hlt, crossedOf, if_neg hlt.not_gt, add_zero]

/-- Two groups in the order of their means, whichever of them stands first in another order. -/
theorem crossedOf_add_le {v w d : ℕ} (hv : (members all group v).card ≤ d)
    (hw : (members all group w).card ≤ d)
    (hmean : MeanLe f (members all group v) (members all group w)) (hlt : stand v < stand w)
    (hne : stand' v ≠ stand' w) :
    crossedOf all group f stand v w + crossedOf all group f stand w v ≤ max 1 (d - 1) *
      (crossedOf all group f stand' v w + crossedOf all group f stand' w v) := by
  rw [crossedOf_add_of_lt hlt]
  rcases lt_or_gt_of_ne hne with hlt' | hlt'
  · rw [crossedOf_add_of_lt hlt']
    exact le_max_one_mul ..
  · rw [add_comm, crossedOf_add_of_lt hlt']
    exact hmean.inversions_le_mul hv hw

/-- **A row of groups in the order of their means** has at most `d - 1` times the inverted pairs
that it has in any other order. -/
theorem crossed_le_mul {d : ℕ} (hd : ∀ v ∈ all.image group, (members all group v).card ≤ d)
    (hmean : ∀ v ∈ all.image group, ∀ w ∈ all.image group, stand v < stand w →
      MeanLe f (members all group v) (members all group w))
    (hinj : Set.InjOn stand' (all.image group)) :
    crossed all group f stand ≤ max 1 (d - 1) * crossed all group f stand' := by
  have hpair : ∀ v ∈ all.image group, ∀ w ∈ all.image group, stand v < stand w →
      crossedOf all group f stand v w + crossedOf all group f stand w v ≤ max 1 (d - 1) *
        (crossedOf all group f stand' v w + crossedOf all group f stand' w v) := by
    intro v hv w hw hlt
    refine crossedOf_add_le (hd v hv) (hd w hw) (hmean v hv w hw hlt) hlt fun heq => ?_
    rw [hinj hv hw heq] at hlt
    exact lt_irrefl _ hlt
  -- every pair of groups is counted twice, once in each order
  have htwice : 2 * crossed all group f stand ≤
      max 1 (d - 1) * (2 * crossed all group f stand') := by
    rw [two_mul_crossed, two_mul_crossed, Finset.mul_sum]
    refine Finset.sum_le_sum fun v hv => ?_
    rw [Finset.mul_sum]
    refine Finset.sum_le_sum fun w hw => ?_
    rcases lt_trichotomy (stand v) (stand w) with hlt | heq | hlt
    · exact hpair v hv w hw hlt
    · rw [crossedOf, if_neg heq.not_lt, crossedOf, if_neg heq.not_gt]
      exact Nat.zero_le _
    · rw [add_comm, add_comm (crossedOf all group f stand' v w)]
      exact hpair w hw v hv hlt
  rw [mul_left_comm] at htwice
  exact Nat.le_of_mul_le_mul_left htwice Nat.two_pos

end

end Diagram
