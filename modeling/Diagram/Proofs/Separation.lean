import Mathlib.Algebra.Order.BigOperators.Group.List
import Mathlib.Logic.Function.Iterate
import Mathlib.Tactic.Linarith
import Mathlib.Tactic.NormNum
import Mathlib.Tactic.Positivity
import Mathlib.Tactic.Ring
import Diagram.Proofs.Fields

/-!
# Boxes pushed apart

A push leaves the two boxes that it moves a gap apart, but it may move them onto others, so that the
pairs are gone through again.  Every push spreads the boxes: the squares of their distances from the
origin, summed, grow by twice the square of the length of the push at least.  So a pass leaves all
boxes where they are only when all of them are apart, and then they stay so.

In exact arithmetic the boxes need not come to rest.  Of three boxes in a row, two of which overlap,
each pass makes the overlap a quarter of what it was.
-/

namespace Diagram

section

variable {K : Type} [Field K] [LinearOrder K] [IsStrictOrderedRing K] [FloorRing K]

attribute [local instance] Scalar.exact

/-! ## One push -/

/-- Two boxes, given by their centres and sizes, with at least `gap` between them on one of the
axes. -/
def IsSpaced (gap : K) (p q : Point K) (s t : K × K) : Prop :=
  (s.1 + t.1) / Scalar.ofNat 2 + gap ≤ |q.x - p.x| ∨
    (s.2 + t.2) / Scalar.ofNat 2 + gap ≤ |q.y - p.y|

theorem isSpaced_iff {gap : K} {p q : Point K} {s t : K × K} : IsSpaced gap p q s t ↔
    (s.1 + t.1) / 2 + gap ≤ |q.x - p.x| ∨ (s.2 + t.2) / 2 + gap ≤ |q.y - p.y| := by
  rw [IsSpaced, ofNat_two_eq]

/-- A push goes away from the neighbour and is as long as it should be. -/
theorem directed_eq (d push : K) : directed d push = if d < 0 then -push else push := by
  rw [directed, zero_eq, one_eq]
  split
  · rw [mul_neg, mul_one]
  · rw [mul_one]

/-- What is pushed from both sides by half of what is missing is as far apart as it should be. -/
theorem abs_add_directed {need d : K} (h : |d| < need) :
    |d + 2 * directed d ((need - |d|) / 2)| = need := by
  have hneed : 0 ≤ need := (abs_nonneg d).trans h.le
  rw [directed_eq]
  split
  · next hd =>
    rw [abs_of_neg hd, show d + 2 * -((need - -d) / 2) = -need by ring, abs_neg,
      abs_of_nonneg hneed]
  · next hd =>
    rw [abs_of_nonneg (not_lt.mp hd), show d + 2 * ((need - d) / 2) = need by ring,
      abs_of_nonneg hneed]

variable {gap : K} {p q p' q' : Point K} {s t : K × K}

/-- **Boxes are left alone when they are apart.** -/
theorem pushApart?_eq_none_iff : pushApart? gap p q s t = none ↔ IsSpaced gap p q s t := by
  rw [isSpaced_iff]
  simp only [pushApart?, abs_exact_eq, ofNat_two_eq, zero_eq, Point.sub, sub_nonpos]
  split
  · next h => exact iff_of_true rfl h
  · next h =>
    split
    · exact iff_of_false (Option.some_ne_none _) h
    · exact iff_of_false (Option.some_ne_none _) h

/-- Boxes are pushed along the axis where less is missing to the gap, each by half of that. -/
theorem pushApart?_cases (h : pushApart? gap p q s t = some (p', q')) :
    let missing (d size : K) : K := size / 2 + gap - |d|
    let missingX := missing (q.x - p.x) (s.1 + t.1)
    let missingY := missing (q.y - p.y) (s.2 + t.2)
    0 < missingX ∧ 0 < missingY ∧
    ((∃ r, r = directed (q.x - p.x) (missingX / 2) ∧ missingX ≤ missingY ∧
        p' = ⟨p.x - r, p.y⟩ ∧ q' = ⟨q.x + r, q.y⟩) ∨
      ∃ r, r = directed (q.y - p.y) (missingY / 2) ∧ missingY ≤ missingX ∧
        p' = ⟨p.x, p.y - r⟩ ∧ q' = ⟨q.x, q.y + r⟩) := by
  intro missing missingX missingY
  simp only [pushApart?, abs_exact_eq, ofNat_two_eq, zero_eq, Point.sub] at h
  split at h
  · cases h
  · next hover =>
    obtain ⟨hx, hy⟩ := not_or.mp hover
    refine ⟨not_le.mp hx, not_le.mp hy, ?_⟩
    split at h
    · next hless =>
      cases h
      exact .inl ⟨_, rfl, hless.le, rfl, rfl⟩
    · next hless =>
      cases h
      exact .inr ⟨_, rfl, not_lt.mp hless, rfl, rfl⟩

/-- **Boxes that are pushed are apart then.** -/
theorem isSpaced_of_pushApart? (h : pushApart? gap p q s t = some (p', q')) :
    IsSpaced gap p' q' s t := by
  have hboth : ∀ a b r : K, b + r - (a - r) = b - a + 2 * r := fun a b r => by ring
  rw [isSpaced_iff]
  obtain ⟨hx, hy, ⟨r, rfl, -, rfl, rfl⟩ | ⟨r, rfl, -, rfl, rfl⟩⟩ := pushApart?_cases h
  · left
    rw [hboth, abs_add_directed (sub_pos.mp hx)]
  · right
    rw [hboth, abs_add_directed (sub_pos.mp hy)]

/-- Boxes with a gap between them have any smaller gap between them. -/
theorem IsSpaced.mono {gap' : K} (h : IsSpaced gap p q s t) (hle : gap' ≤ gap) :
    IsSpaced gap' p q s t :=
  h.imp (fun hx => (add_le_add_right hle _).trans hx) fun hy => (add_le_add_right hle _).trans hy

theorem IsSpaced.symm (h : IsSpaced gap p q s t) : IsSpaced gap q p t s := by
  rw [IsSpaced, add_comm t.1, add_comm t.2, abs_sub_comm p.x, abs_sub_comm p.y]
  exact h

/-- Points that are not more than `r` apart on either axis. -/
def IsWithin (r : K) (p p' : Point K) : Prop := |p'.x - p.x| ≤ r ∧ |p'.y - p.y| ≤ r

/-- Boxes that are moved keep what is left of the gap. -/
theorem IsSpaced.of_isWithin {r : K} (h : IsSpaced gap p q s t) (hp : IsWithin r p p')
    (hq : IsWithin r q q') : IsSpaced (gap - 2 * r) p' q' s t := by
  have haxis : ∀ {need a b a' b' : K}, need + gap ≤ |b - a| → |a' - a| ≤ r → |b' - b| ≤ r →
      need + (gap - 2 * r) ≤ |b' - a'| := by
    intro need a b a' b' hneed ha hb
    have htriangle : |b - a| ≤ |b' - a'| + (|a' - a| + |b' - b|) := by
      calc |b - a| = |(b' - a') + ((a' - a) - (b' - b))| := by rw [show (b' - a') + ((a' - a) -
            (b' - b)) = b - a by ring]
        _ ≤ |b' - a'| + |(a' - a) - (b' - b)| := abs_add_le _ _
        _ ≤ |b' - a'| + (|a' - a| + |b' - b|) := add_le_add_right (abs_sub _ _) _
    linarith
  exact h.imp (fun hx => haxis hx hp.1 hq.1) fun hy => haxis hy hp.2 hq.2

/-- The square of the distance from the origin. -/
def normSq (p : Point K) : K := p.x * p.x + p.y * p.y

theorem directed_mul_self (d push : K) : directed d push * directed d push = push * push := by
  rw [directed_eq]
  split
  · exact neg_mul_neg push push
  · rfl

theorem directed_mul_nonneg {d push : K} (h : 0 ≤ push) : 0 ≤ directed d push * d := by
  rw [directed_eq]
  split
  · next hd => nlinarith
  · next hd => exact mul_nonneg h (not_lt.mp hd)

/-- What is pushed along a line gets away from its origin. -/
theorem mul_self_add_le_of_directed {a b push : K} (h : 0 ≤ push) :
    a * a + b * b + 2 * (push * push) ≤
      (a - directed (b - a) push) * (a - directed (b - a) push) +
        (b + directed (b - a) push) * (b + directed (b - a) push) := by
  have hself := directed_mul_self (b - a) push
  have haway := directed_mul_nonneg (d := b - a) h
  nlinarith

theorem abs_directed {d push : K} (h : 0 ≤ push) : |directed d push| = push := by
  rw [directed_eq]
  split
  · rw [abs_neg, abs_of_nonneg h]
  · exact abs_of_nonneg h

theorem isWithin_mk_x {r x : K} (hr : 0 ≤ r) (h : |x - p.x| ≤ r) : IsWithin r p ⟨x, p.y⟩ :=
  ⟨h, by rwa [sub_self, abs_zero]⟩

theorem isWithin_mk_y {r y : K} (hr : 0 ≤ r) (h : |y - p.y| ≤ r) : IsWithin r p ⟨p.x, y⟩ :=
  ⟨by rwa [sub_self, abs_zero], h⟩

/-- **A push moves each of the boxes by some length, and spreads them.**  It is no longer than half
of what is missing. -/
theorem exists_move_of_pushApart? (h : pushApart? gap p q s t = some (p', q')) :
    ∃ r, 0 < r ∧ IsWithin r p p' ∧ IsWithin r q q' ∧
      normSq p + normSq q + 2 * (r * r) ≤ normSq p' + normSq q' ∧
      ∀ slack, IsSpaced (gap - slack) p q s t → 2 * r ≤ slack := by
  obtain ⟨hx, hy, ⟨r, rfl, hless, rfl, rfl⟩ | ⟨r, rfl, hless, rfl, rfl⟩⟩ := pushApart?_cases h
  · have hhalf := half_pos hx
    have hmove := (abs_directed (d := q.x - p.x) hhalf.le).le
    have hspread := mul_self_add_le_of_directed (a := p.x) (b := q.x) hhalf.le
    refine ⟨_, hhalf, isWithin_mk_x hhalf.le ?_, isWithin_mk_x hhalf.le ?_, ?_,
      fun slack hslack => ?_⟩
    · rwa [sub_sub_cancel_left, abs_neg]
    · rwa [add_sub_cancel_left]
    · simp only [normSq]
      linarith
    · rw [mul_div_cancel₀ _ two_ne_zero]
      rcases isSpaced_iff.mp hslack with hslack | hslack <;> linarith
  · have hhalf := half_pos hy
    have hmove := (abs_directed (d := q.y - p.y) hhalf.le).le
    have hspread := mul_self_add_le_of_directed (a := p.y) (b := q.y) hhalf.le
    refine ⟨_, hhalf, isWithin_mk_y hhalf.le ?_, isWithin_mk_y hhalf.le ?_, ?_,
      fun slack hslack => ?_⟩
    · rwa [sub_sub_cancel_left, abs_neg]
    · rwa [add_sub_cancel_left]
    · simp only [normSq]
      linarith
    · rw [mul_div_cancel₀ _ two_ne_zero]
      rcases isSpaced_iff.mp hslack with hslack | hslack <;> linarith

/-- The box of a size around a centre. -/
def boxAround (c : Point K) (s : K × K) : Box K :=
  ⟨c.x - s.1 / Scalar.ofNat 2, c.y - s.2 / Scalar.ofNat 2, s.1, s.2⟩

theorem boxAround_eq (c : Point K) (s : K × K) :
    boxAround c s = ⟨c.x - s.1 / 2, c.y - s.2 / 2, s.1, s.2⟩ := by
  rw [boxAround, ofNat_two_eq]

/-- **Boxes that are apart do not overlap.** -/
theorem IsSpaced.disjoint (hgap : 0 ≤ gap) (h : IsSpaced gap p q s t) :
    Disjoint (boxAround p s).interior (boxAround q t).interior := by
  refine disjoint_interior ?_
  rw [isSpaced_iff] at h
  simp only [boxAround_eq]
  rcases h with h | h
  · rcases le_abs'.mp h with h | h
    · exact .inl (.inr (by linarith))
    · exact .inl (.inl (by linarith))
  · rcases le_abs'.mp h with h | h
    · exact .inr (.inr (by linarith))
    · exact .inr (.inl (by linarith))

/-! ## Passes -/

variable (sizes : List (K × K)) (gap)

/-- Any two of some boxes are apart. -/
def AreSpaced (centers : List (Point K)) : Prop :=
  (centers.zip sizes).Pairwise fun a b => IsSpaced gap a.1 b.1 a.2 b.2

/-- All pairs of boxes in turn, each pushed apart. -/
def pass (centers : Array (Point K)) : Array (Point K) :=
  ((pairsBelow (min centers.size sizes.length)).foldl (separatePair sizes.toArray gap)
    (centers, false)).1

variable {sizes gap} {centers : Array (Point K)}

theorem mem_pairsBelow {n i j : Nat} : (i, j) ∈ pairsBelow n ↔ i < j ∧ j < n := by
  simp only [pairsBelow, List.mem_flatMap, List.mem_range, List.mem_map, List.mem_range'_1,
    Prod.mk.injEq]
  constructor
  · rintro ⟨k, hk, l, hl, rfl, rfl⟩
    omega
  · rintro ⟨hij, hj⟩
    exact ⟨i, by omega, j, by omega, rfl, rfl⟩

/-- A pair of boxes that are apart, where they are there at all. -/
def IsPairSpaced (gap : K) (sizes : List (K × K)) (centers : Array (Point K)) (pair : Nat × Nat) :
    Prop :=
  ∀ p q s t, centers[pair.1]? = some p → centers[pair.2]? = some q → sizes[pair.1]? = some s →
    sizes[pair.2]? = some t → IsSpaced gap p q s t

theorem areSpaced_iff : AreSpaced gap sizes centers.toList ↔
    ∀ pair ∈ pairsBelow (min centers.size sizes.length), IsPairSpaced gap sizes centers pair := by
  have hzip : ∀ (i : Nat) p s, (centers.toList.zip sizes)[i]? = some (p, s) ↔
      centers[i]? = some p ∧ sizes[i]? = some s := fun i p s => by
    rw [List.getElem?_zip_eq_some, Array.getElem?_toList]
  rw [AreSpaced, List.pairwise_iff_getElem]
  constructor
  · rintro h ⟨i, j⟩ hij p q s t hp hq hs ht
    obtain ⟨hi, hps⟩ := List.getElem?_eq_some_iff.mp ((hzip i p s).mpr ⟨hp, hs⟩)
    obtain ⟨hj, hqt⟩ := List.getElem?_eq_some_iff.mp ((hzip j q t).mpr ⟨hq, ht⟩)
    have := h i j hi hj (mem_pairsBelow.mp hij).1
    rwa [hps, hqt] at this
  · intro h i j hi hj hij
    obtain ⟨hp, hs⟩ := (hzip i _ _).mp (List.getElem?_eq_getElem hi)
    obtain ⟨hq, ht⟩ := (hzip j _ _).mp (List.getElem?_eq_getElem hj)
    refine h (i, j) (mem_pairsBelow.mpr ⟨hij, ?_⟩) _ _ _ _ hp hq hs ht
    simpa using hj

/-- A pair is left alone when its boxes are apart. -/
theorem separatePair_of_isPairSpaced {pair : Nat × Nat} (h : IsPairSpaced gap sizes centers pair)
    (moved : Bool) :
    separatePair sizes.toArray gap (centers, moved) pair = (centers, moved) := by
  obtain ⟨i, j⟩ := pair
  simp only [separatePair, List.getElem?_toArray]
  split
  · next p q s t hp hq hs ht => rw [pushApart?_eq_none_iff.mpr (h p q s t hp hq hs ht)]
  · rfl

/-- A pair whose boxes are not apart is pushed. -/
theorem exists_pushApart?_of_not_isPairSpaced {i j : Nat}
    (h : ¬ IsPairSpaced gap sizes centers (i, j)) (moved : Bool) :
    ∃ p q s t p' q', centers[i]? = some p ∧ centers[j]? = some q ∧ sizes[i]? = some s ∧
      sizes[j]? = some t ∧ pushApart? gap p q s t = some (p', q') ∧
      separatePair sizes.toArray gap (centers, moved) (i, j) =
        ((centers.setIfInBounds i p').setIfInBounds j q', true) := by
  simp only [IsPairSpaced, not_forall] at h
  obtain ⟨p, q, s, t, hp, hq, hs, ht, hnot⟩ := h
  cases hpush : pushApart? gap p q s t with
  | none => exact absurd (pushApart?_eq_none_iff.mp hpush) hnot
  | some pushed =>
    refine ⟨p, q, s, t, pushed.1, pushed.2, hp, hq, hs, ht, hpush, ?_⟩
    simp only [separatePair, List.getElem?_toArray, hp, hq, hs, ht, hpush]

/-- Two members of an array that are set to something else. -/
theorem exists_perm_setIfInBounds {β : Type} {xs : Array β} {i j : Nat} {a b : β} (hij : i < j)
    (ha : xs[i]? = some a) (hb : xs[j]? = some b) : ∃ rest, xs.toList.Perm (a :: b :: rest) ∧
      ∀ a' b', ((xs.setIfInBounds i a').setIfInBounds j b').toList.Perm (a' :: b' :: rest) := by
  obtain ⟨hi, rfl⟩ := Array.getElem?_eq_some_iff.mp ha
  obtain ⟨hj, rfl⟩ := Array.getElem?_eq_some_iff.mp hb
  have hset : ∀ a' b', ((xs.setIfInBounds i a').setIfInBounds j b').toList.Perm
      (a' :: b' :: (xs.toList.eraseIdx j).eraseIdx i) := by
    intro a' b'
    rw [Array.toList_setIfInBounds, Array.toList_setIfInBounds]
    refine (List.set_perm_cons_eraseIdx (by simpa using hj) b').trans ?_
    rw [List.eraseIdx_set_gt hij]
    refine ((List.set_perm_cons_eraseIdx ?_ a').cons b').trans (List.Perm.swap _ _ _)
    rw [List.length_eraseIdx_of_lt (by simpa using hj), Array.length_toList]
    omega
  refine ⟨_, ?_, hset⟩
  have hsame : ∀ k (hk : k < xs.size), xs.setIfInBounds k xs[k] = xs := fun k hk => by
    rw [Array.setIfInBounds_def, dif_pos hk, Array.set_getElem_self]
  have hself := hset xs[i] xs[j]
  rwa [hsame i hi, hsame j hj] at hself

/-- What is found in an array two members of which are set. -/
theorem getElem?_setIfInBounds_cases {β : Type} {xs : Array β} {i j k : Nat} {a b c : β}
    (h : ((xs.setIfInBounds i a).setIfInBounds j b)[k]? = some c) :
    k = j ∧ c = b ∨ k = i ∧ c = a ∨ k ≠ i ∧ k ≠ j ∧ xs[k]? = some c := by
  simp only [Array.getElem?_setIfInBounds, Array.size_setIfInBounds] at h
  grind

/-- A pair whose boxes are not apart is pushed, and the others stay. -/
theorem exists_push_of_not_isPairSpaced {i j : Nat} (hij : i < j)
    (h : ¬ IsPairSpaced gap sizes centers (i, j)) (moved : Bool) :
    ∃ p q s t p' q' rest, pushApart? gap p q s t = some (p', q') ∧ s ∈ sizes ∧ t ∈ sizes ∧
      centers.toList.Perm (p :: q :: rest) ∧
      (separatePair sizes.toArray gap (centers, moved) (i, j)).1.toList.Perm
        (p' :: q' :: rest) := by
  obtain ⟨p, q, s, t, p', q', hp, hq, hs, ht, hpush, hpair⟩ :=
    exists_pushApart?_of_not_isPairSpaced h moved
  obtain ⟨rest, hrest, hset⟩ := exists_perm_setIfInBounds hij hp hq
  refine ⟨p, q, s, t, p', q', rest, hpush, List.mem_of_getElem? hs, List.mem_of_getElem? ht,
    hrest, ?_⟩
  rw [hpair]
  exact hset p' q'

/-- How far the boxes are spread: the squares of their distances from the origin, summed. -/
def spread (centers : Array (Point K)) : K := (centers.toList.map normSq).sum

theorem spread_eq_of_perm {points : List (Point K)} (h : centers.toList.Perm points) :
    spread centers = (points.map normSq).sum :=
  (h.map normSq).sum_eq

variable (gap sizes) in
/-- **The turn of a pair** moves its boxes by some length, and spreads them; and if they are not
apart it moves them and leaves a mark. -/
theorem exists_move_separatePair {i j : Nat} (hij : i < j) (st : Array (Point K) × Bool) :
    ∃ r, 0 ≤ r ∧
      spread st.1 + 2 * (r * r) ≤ spread (separatePair sizes.toArray gap st (i, j)).1 ∧
      (∀ (k : Nat) p', (separatePair sizes.toArray gap st (i, j)).1[k]? = some p' →
        ∃ p, st.1[k]? = some p ∧ IsWithin r p p') ∧
      (¬ IsPairSpaced gap sizes st.1 (i, j) →
        0 < r ∧ (separatePair sizes.toArray gap st (i, j)).2 = true) := by
  obtain ⟨centers, moved⟩ := st
  by_cases h : IsPairSpaced gap sizes centers (i, j)
  · rw [separatePair_of_isPairSpaced h]
    refine ⟨0, le_rfl, by simp, fun k p' hk => ⟨p', hk, ?_⟩, fun hnot => absurd h hnot⟩
    simp [IsWithin]
  · obtain ⟨p, q, s, t, p', q', hp, hq, -, -, hpush, hpair⟩ :=
      exists_pushApart?_of_not_isPairSpaced h moved
    obtain ⟨rest, hbefore, hafter⟩ := exists_perm_setIfInBounds hij hp hq
    obtain ⟨r, hr, hwithin, hwithin', hspread, -⟩ := exists_move_of_pushApart? hpush
    rw [hpair]
    refine ⟨r, hr.le, ?_, fun k c hk => ?_, fun _ => ⟨hr, rfl⟩⟩
    · rw [spread_eq_of_perm hbefore, spread_eq_of_perm (hafter p' q')]
      simp only [List.map_cons, List.sum_cons]
      linarith
    · rcases getElem?_setIfInBounds_cases hk with ⟨rfl, rfl⟩ | ⟨rfl, rfl⟩ | ⟨-, -, hstay⟩
      · exact ⟨q, hq, hwithin'⟩
      · exact ⟨p, hp, hwithin⟩
      · exact ⟨c, hstay, by simp [IsWithin, hr.le]⟩

/-- The turn of a pair that is not apart leaves a mark and spreads the boxes. -/
theorem separatePair_of_not_isPairSpaced {i j : Nat} (hij : i < j)
    (h : ¬ IsPairSpaced gap sizes centers (i, j)) (moved : Bool) :
    (separatePair sizes.toArray gap (centers, moved) (i, j)).2 = true ∧
      spread centers < spread (separatePair sizes.toArray gap (centers, moved) (i, j)).1 := by
  obtain ⟨r, -, hspread, -, hpush⟩ := exists_move_separatePair gap sizes hij (centers, moved)
  obtain ⟨hr, hmark⟩ := hpush h
  have := mul_pos hr hr
  exact ⟨hmark, by linarith⟩

/-- Once a box has been moved the mark stays, and the boxes stay spread. -/
theorem foldl_separatePair_moved {pairs : List (Nat × Nat)}
    (hpairs : ∀ pair ∈ pairs, pair.1 < pair.2) (st : Array (Point K) × Bool) (h : st.2 = true) :
    (pairs.foldl (separatePair sizes.toArray gap) st).2 = true ∧
      spread st.1 ≤ spread (pairs.foldl (separatePair sizes.toArray gap) st).1 := by
  induction pairs generalizing st with
  | nil => exact ⟨h, le_rfl⟩
  | cons pair pairs ih =>
    obtain ⟨centers, moved⟩ := st
    obtain ⟨hpair, hpairs⟩ := List.forall_mem_cons.mp hpairs
    rw [List.foldl_cons]
    by_cases hspaced : IsPairSpaced gap sizes centers pair
    · rw [separatePair_of_isPairSpaced hspaced]
      exact ih hpairs _ h
    · obtain ⟨hmark, hlt⟩ := separatePair_of_not_isPairSpaced hpair hspaced moved
      obtain ⟨hmark', hle⟩ := ih hpairs _ hmark
      exact ⟨hmark', hlt.le.trans hle⟩

/-- No box is moved when all pairs are apart; otherwise a mark is left and the boxes are spread. -/
theorem foldl_separatePair {pairs : List (Nat × Nat)} (hpairs : ∀ pair ∈ pairs, pair.1 < pair.2)
    (centers : Array (Point K)) :
    (∀ pair ∈ pairs, IsPairSpaced gap sizes centers pair) ∧
        pairs.foldl (separatePair sizes.toArray gap) (centers, false) = (centers, false) ∨
      (¬ ∀ pair ∈ pairs, IsPairSpaced gap sizes centers pair) ∧
        (pairs.foldl (separatePair sizes.toArray gap) (centers, false)).2 = true ∧
        spread centers <
          spread (pairs.foldl (separatePair sizes.toArray gap) (centers, false)).1 := by
  induction pairs with
  | nil => exact .inl ⟨nofun, rfl⟩
  | cons pair pairs ih =>
    obtain ⟨hpair, hpairs⟩ := List.forall_mem_cons.mp hpairs
    rw [List.foldl_cons, List.forall_mem_cons]
    by_cases h : IsPairSpaced gap sizes centers pair
    · rw [separatePair_of_isPairSpaced h]
      exact (ih hpairs).imp (fun h' => ⟨⟨h, h'.1⟩, h'.2⟩) fun h' => ⟨fun hall => h'.1 hall.2, h'.2⟩
    · obtain ⟨hmoved, hlt⟩ := separatePair_of_not_isPairSpaced hpair h false
      obtain ⟨hmoved', hle⟩ := foldl_separatePair_moved hpairs _ hmoved
      exact .inr ⟨fun hall => h hall.1, hmoved', hlt.trans_le hle⟩

/-- A pass moves no box, or it spreads the boxes. -/
theorem pass_cases (gap : K) (sizes : List (K × K)) (centers : Array (Point K)) :
    AreSpaced gap sizes centers.toList ∧
        (pairsBelow (min centers.size sizes.length)).foldl (separatePair sizes.toArray gap)
          (centers, false) = (centers, false) ∨
      ¬ AreSpaced gap sizes centers.toList ∧
        ((pairsBelow (min centers.size sizes.length)).foldl (separatePair sizes.toArray gap)
          (centers, false)).2 = true ∧ spread centers < spread (pass gap sizes centers) := by
  rw [areSpaced_iff]
  exact foldl_separatePair (fun _ hpair => (mem_pairsBelow.mp hpair).1) centers

/-- **Boxes stay where they are in a pass exactly when they are apart.** -/
theorem pass_eq_self_iff :
    pass gap sizes centers = centers ↔ AreSpaced gap sizes centers.toList := by
  obtain ⟨hspaced, hstay⟩ | ⟨hnot, -, hlt⟩ := pass_cases gap sizes centers
  · exact ⟨fun _ => hspaced, fun _ => by rw [pass, hstay]⟩
  · exact ⟨fun h => absurd (congrArg spread h) hlt.ne', fun h => absurd h hnot⟩

@[simp] theorem size_pass (centers : Array (Point K)) :
    (pass gap sizes centers).size = centers.size :=
  foldl_keeps (Array.size ∘ Prod.fst) (size_separatePair sizes.toArray gap) _ _

/-- The loop that ends when no box was moved comes to the same as the one that goes on. -/
theorem separatePasses_eq (fuel : Nat) (centers : Array (Point K)) :
    separatePasses sizes.toArray gap (pairsBelow (min centers.size sizes.length)) fuel centers =
      (pass gap sizes)^[fuel] centers := by
  induction fuel generalizing centers with
  | zero => rfl
  | succ fuel ih =>
    rw [Function.iterate_succ_apply, separatePasses]
    dsimp only
    obtain ⟨hspaced, hstay⟩ | ⟨-, hmoved, -⟩ := pass_cases gap sizes centers
    · rw [hstay, if_neg Bool.false_ne_true, pass_eq_self_iff.mpr hspaced,
        Function.iterate_fixed (pass_eq_self_iff.mpr hspaced)]
    · rw [if_pos hmoved, ← ih, size_pass]
      rfl

variable (gap sizes) in
/-- **The boxes after the call are the boxes after a hundred passes.** -/
theorem separate_eq (centers : List (Point K)) :
    separate sizes gap centers = ((pass gap sizes)^[100] centers.toArray).toList := by
  rw [separate, ← separatePasses_eq, List.size_toArray]

/-! ## Boxes that come to rest -/

/-- The boxes of a pair that has just had its turn are apart. -/
theorem isPairSpaced_separatePair {i j : Nat} (hij : i ≠ j) (moved : Bool) :
    IsPairSpaced gap sizes (separatePair sizes.toArray gap (centers, moved) (i, j)).1 (i, j) := by
  by_cases h : IsPairSpaced gap sizes centers (i, j)
  · rwa [separatePair_of_isPairSpaced h]
  · obtain ⟨p, q, s, t, p', q', hp, hq, hs, ht, hpush, hpair⟩ :=
      exists_pushApart?_of_not_isPairSpaced h moved
    have hi := (Array.getElem?_eq_some_iff.mp hp).1
    have hj := (Array.getElem?_eq_some_iff.mp hq).1
    rw [hpair]
    intro u v s' t' hu hv hs' ht'
    simp only [Array.getElem?_setIfInBounds, hij.symm, Array.size_setIfInBounds, hi, hj,
      ↓reduceIte, Option.some.injEq] at hu hv
    obtain rfl := Option.some.inj (hs.symm.trans hs')
    obtain rfl := Option.some.inj (ht.symm.trans ht')
    rw [← hu, ← hv]
    exact isSpaced_of_pushApart? hpush

/-- Boxes that have come to rest stay where they are. -/
theorem iterate_pass_eq {k n : Nat} (hk : k ≤ n)
    (h : pass gap sizes ((pass gap sizes)^[k] centers) = (pass gap sizes)^[k] centers) :
    (pass gap sizes)^[n] centers = (pass gap sizes)^[k] centers := by
  obtain ⟨m, rfl⟩ := Nat.exists_eq_add_of_le' hk
  rw [Function.iterate_add_apply, Function.iterate_fixed h]

variable (gap sizes) in
/-- **Any two boxes are apart after the call exactly when they come to rest**: when one of the
hundred passes, or the one that would follow them, leaves every box where it is. -/
theorem areSpaced_separate_iff (centers : List (Point K)) :
    let after (k : Nat) := (pass gap sizes)^[k] centers.toArray
    AreSpaced gap sizes (separate sizes gap centers) ↔ ∃ k ≤ 100, after (k + 1) = after k := by
  intro after
  have hnext : ∀ k, after (k + 1) = pass gap sizes (after k) := fun k =>
    Function.iterate_succ_apply' ..
  rw [separate_eq, ← pass_eq_self_iff]
  refine ⟨fun h => ⟨100, le_rfl, (hnext 100).trans h⟩, fun ⟨k, hk, h⟩ => ?_⟩
  have hrest : pass gap sizes (after k) = after k := (hnext k).symm.trans h
  rw [iterate_pass_eq hk hrest]
  exact hrest

/-! ## Boxes that do not come to rest -/

/-- Three boxes of width `w` in a row, the second and the third side by side and the first and the
second with an overlap of `e`. -/
def row (w a e : K) : Array (Point K) := #[⟨a, 0⟩, ⟨a + w - e, 0⟩, ⟨a + w + w - e, 0⟩]

section

variable {w h : K}

/-- Two boxes of a row, which are taller than wide. -/
theorem pushApart?_row {x x' : K} (hwh : w < h) (hle : x ≤ x') :
    pushApart? 0 ⟨x, 0⟩ ⟨x', 0⟩ (w, h) (w, h) =
      if x + w ≤ x' then none
      else some (⟨(x + x' - w) / 2, 0⟩, ⟨(x + x' + w) / 2, 0⟩) := by
  have hd : ¬ x' - x < 0 := not_lt.mpr (sub_nonneg.mpr hle)
  have habs : |x' - x| = x' - x := abs_of_nonneg (sub_nonneg.mpr hle)
  simp only [pushApart?, directed_eq, abs_exact_eq, ofNat_two_eq, zero_eq, Point.sub, sub_self,
    abs_zero, habs, hd, if_false, sub_zero, add_zero]
  split
  · next hover =>
    rw [if_pos (by rcases hover with h | h <;> linarith)]
  · next hover =>
    obtain ⟨hx, -⟩ := not_or.mp hover
    have haxis : (w + w) / 2 - (x' - x) < (h + h) / 2 := by linarith
    rw [if_pos haxis, if_neg (by linarith)]
    simp only [Option.some.injEq, Prod.mk.injEq, Point.mk.injEq, and_true]
    constructor <;> ring

/-- **A pass makes the overlap a quarter of what it was.** -/
theorem pass_row {e : K} (a : K) (hpos : 0 < e) (hle : e ≤ w) (hwh : w < h) :
    pass 0 [(w, h), (w, h), (w, h)] (row w a e) = row w (a - e / 2) (e / 4) := by
  have hpairs : pairsBelow 3 = [(0, 1), (0, 2), (1, 2)] := by decide
  -- the first two boxes are pushed apart, and the second onto the third
  have hfirst : pushApart? 0 ⟨a, 0⟩ ⟨a + w - e, 0⟩ (w, h) (w, h) =
      some (⟨a - e / 2, 0⟩, ⟨a + w - e / 2, 0⟩) := by
    rw [pushApart?_row hwh (by linarith), if_neg (by linarith)]
    simp only [Option.some.injEq, Prod.mk.injEq, Point.mk.injEq, and_true]
    constructor <;> ring
  have hsecond : pushApart? 0 ⟨a - e / 2, 0⟩ ⟨a + w + w - e, 0⟩ (w, h) (w, h) = none := by
    rw [pushApart?_row hwh (by linarith), if_pos (by linarith)]
  have hthird : pushApart? 0 ⟨a + w - e / 2, 0⟩ ⟨a + w + w - e, 0⟩ (w, h) (w, h) =
      some (⟨a - e / 2 + w - e / 4, 0⟩, ⟨a - e / 2 + w + w - e / 4, 0⟩) := by
    rw [pushApart?_row hwh (by linarith), if_neg (by linarith)]
    simp only [Option.some.injEq, Prod.mk.injEq, Point.mk.injEq, and_true]
    constructor <;> ring
  simp [pass, row, hpairs, separatePair, hfirst, hsecond, hthird]

/-- **No number of passes brings the boxes of a row to rest.** -/
theorem iterate_pass_row {e : K} (hpos : 0 < e) (hle : e ≤ w) (hwh : w < h) (k : Nat) (a : K) :
    ∃ a', (pass 0 [(w, h), (w, h), (w, h)])^[k] (row w a e) = row w a' (e / 4 ^ k) := by
  induction k generalizing a e with
  | zero => exact ⟨a, by rw [Function.iterate_zero_apply, pow_zero, div_one]⟩
  | succ k ih =>
    rw [Function.iterate_succ_apply, pass_row a hpos hle hwh]
    obtain ⟨a', h⟩ := ih (e := e / 4) (by linarith) (by linarith) (a - e / 2)
    exact ⟨a', by rw [h, div_div, pow_succ']⟩

/-- The first two boxes of a row overlap. -/
theorem not_disjoint_row {a e : K} (hpos : 0 < e) (hle : e ≤ w) (hwh : w < h) :
    ¬ ((row w a e).toList.zip [(w, h), (w, h), (w, h)]).Pairwise fun b c =>
      Disjoint (boxAround b.1 b.2).interior (boxAround c.1 c.2).interior := by
  intro hall
  have hdisjoint := (List.pairwise_cons.mp hall).1 (⟨a + w - e, 0⟩, (w, h)) List.mem_cons_self
  have hfirst : (⟨a + (w - e) / 2, 0⟩ : Point K) ∈ (boxAround ⟨a, 0⟩ (w, h)).interior := by
    rw [boxAround_eq]
    refine ⟨⟨?_, ?_⟩, ?_, ?_⟩ <;> dsimp only <;> linarith
  have hsecond : (⟨a + (w - e) / 2, 0⟩ : Point K) ∈
      (boxAround ⟨a + w - e, 0⟩ (w, h)).interior := by
    rw [boxAround_eq]
    refine ⟨⟨?_, ?_⟩, ?_, ?_⟩ <;> dsimp only <;> linarith
  exact Set.disjoint_left.mp hdisjoint hfirst hsecond

/-- **Boxes of a row overlap after the call.** -/
theorem not_disjoint_separate_row {e : K} (hpos : 0 < e) (hle : e ≤ w) (hwh : w < h) (a : K) :
    ¬ ((separate [(w, h), (w, h), (w, h)] 0 (row w a e).toList).zip
        [(w, h), (w, h), (w, h)]).Pairwise fun b c =>
      Disjoint (boxAround b.1 b.2).interior (boxAround c.1 c.2).interior := by
  have hless : e / 4 ^ 100 ≤ e := div_le_self hpos.le (one_le_pow₀ (by norm_num))
  obtain ⟨a', ha'⟩ := iterate_pass_row hpos hle hwh 100 a
  rw [separate_eq, Array.toArray_toList, ha']
  exact not_disjoint_row (by positivity) (hless.trans hle) hwh

end

end

end Diagram
