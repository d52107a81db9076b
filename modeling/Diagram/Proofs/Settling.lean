import Mathlib.Algebra.Order.CauSeq.BigOperators
import Diagram.Proofs.Separation

/-!
# Boxes that settle

Pushing boxes apart can go on without an end, but it cannot go on by much.  A push goes no further
than the gap asks for, so no number of passes tears the boxes apart: no empty stretch between two of
them becomes wider than it was or than the gap needs, and their centre of mass stays.  So there is a
bound on how far they ever spread, the pushes become short, and the overlap that is left after a
pass vanishes as the passes go on.  With a gap between them the boxes are free of overlap after
finitely many passes.

A hundred passes need not be enough for that.  One pass is enough where the boxes overlap in pairs
that stay out of each other's way.
-/

namespace Diagram

section

variable {K : Type} [Field K] [LinearOrder K] [IsStrictOrderedRing K] [FloorRing K]

attribute [local instance] Scalar.exact

variable {gap : K} {sizes : List (K × K)} {centers : Array (Point K)}

/-! ## Short pushes leave little overlap -/

theorem IsWithin.trans {r r' : K} {p q c : Point K} (h : IsWithin r p q) (h' : IsWithin r' q c) :
    IsWithin (r + r') p c :=
  ⟨(abs_sub_le c.x q.x p.x).trans (by linarith [h.1, h'.1]),
    (abs_sub_le c.y q.y p.y).trans (by linarith [h.2, h'.2])⟩

theorem IsWithin.mono {r r' : K} {p q : Point K} (h : IsWithin r p q) (hle : r ≤ r') :
    IsWithin r' p q :=
  ⟨h.1.trans hle, h.2.trans hle⟩

variable (gap sizes) in
/-- Boxes are spread by whatever turns are taken. -/
theorem spread_le_foldl {pairs : List (Nat × Nat)} (hpairs : ∀ pair ∈ pairs, pair.1 < pair.2)
    (st : Array (Point K) × Bool) :
    spread st.1 ≤ spread (pairs.foldl (separatePair sizes.toArray gap) st).1 := by
  induction pairs generalizing st with
  | nil => exact le_rfl
  | cons pair pairs ih =>
    obtain ⟨hpair, hpairs⟩ := List.forall_mem_cons.mp hpairs
    obtain ⟨r, -, hstep, -⟩ := exists_move_separatePair gap sizes hpair st
    have := mul_self_nonneg r
    exact le_trans (by linarith) (ih hpairs _)

/-- Turns that spread the boxes by little move none of them far. -/
theorem foldl_separatePair_within {pairs : List (Nat × Nat)}
    (hpairs : ∀ pair ∈ pairs, pair.1 < pair.2) {r : K} (hr : 0 ≤ r)
    (st : Array (Point K) × Bool)
    (h : spread (pairs.foldl (separatePair sizes.toArray gap) st).1 ≤ spread st.1 + 2 * (r * r))
    {k : Nat} {p' : Point K}
    (hk : (pairs.foldl (separatePair sizes.toArray gap) st).1[k]? = some p') :
    ∃ p, st.1[k]? = some p ∧ IsWithin (pairs.length * r) p p' := by
  induction pairs generalizing st with
  | nil => exact ⟨p', hk, by simp [IsWithin]⟩
  | cons pair pairs ih =>
    obtain ⟨hpair, hpairs⟩ := List.forall_mem_cons.mp hpairs
    rw [List.foldl_cons] at h hk
    obtain ⟨step, hstep, hspread, hwithin, -⟩ :=
      exists_move_separatePair gap sizes hpair st
    have hrest := spread_le_foldl gap sizes hpairs
      (separatePair sizes.toArray gap st pair)
    -- both the turn of this pair and the turns behind it spread the boxes by no more than all do
    have hshort : step ≤ r := (mul_self_le_mul_self_iff hstep hr).mpr (by linarith)
    obtain ⟨q, hq, hqp⟩ := ih hpairs _ (h.trans (by linarith [mul_self_nonneg step])) hk
    obtain ⟨p, hp, hpq⟩ := hwithin k q hq
    refine ⟨p, hp, ((hpq.mono hshort).trans hqp).mono ?_⟩
    rw [List.length_cons, Nat.cast_succ]
    linarith

/-- **A pass that spreads the boxes by little leaves little overlap.** -/
theorem areSpaced_pass {r : K} (hr : 0 ≤ r)
    (h : spread (pass gap sizes centers) ≤ spread centers + 2 * (r * r)) :
    AreSpaced (gap - 2 * ((pairsBelow (min centers.size sizes.length)).length * r)) sizes
      (pass gap sizes centers).toList := by
  rw [areSpaced_iff, size_pass]
  intro pair hmem p' q' s t hp' hq' hs ht
  have hpairs : ∀ pair ∈ pairsBelow (min centers.size sizes.length), pair.1 < pair.2 :=
    fun _ h => (mem_pairsBelow.mp h).1
  obtain ⟨front, behind, hsplit⟩ := List.append_of_mem hmem
  rw [pass, hsplit, List.foldl_append, List.foldl_cons] at h hp' hq'
  rw [hsplit, List.forall_mem_append, List.forall_mem_cons] at hpairs
  obtain ⟨hfront, hpair, hbehind⟩ := hpairs
  -- the pair is apart after its turn, and the turns behind it move its boxes by little
  set st := front.foldl (separatePair sizes.toArray gap) (centers, false)
  have hspaced : IsPairSpaced gap sizes (separatePair sizes.toArray gap st pair).1 pair :=
    isPairSpaced_separatePair hpair.ne st.2
  have hspread : spread centers ≤ spread (separatePair sizes.toArray gap st pair).1 :=
    (spread_le_foldl gap sizes hfront _).trans
      (spread_le_foldl gap sizes (List.forall_mem_singleton.mpr hpair) st)
  have hlittle := h.trans (add_le_add_left hspread (2 * (r * r)))
  obtain ⟨p, hp, hwithin⟩ := foldl_separatePair_within hbehind hr _ hlittle hp'
  obtain ⟨q, hq, hwithin'⟩ := foldl_separatePair_within hbehind hr _ hlittle hq'
  have hlength : (behind.length : K) ≤ (pairsBelow (min centers.size sizes.length)).length := by
    rw [hsplit, List.length_append, List.length_cons]
    exact Nat.cast_le.mpr (by omega)
  refine ((hspaced p q s t hp hq hs ht).of_isWithin hwithin hwithin').mono ?_
  linarith [mul_le_mul_of_nonneg_right hlength hr]

/-! ## Boxes stay together -/

/-- Behind every number there is a next one within `g`, unless it is the last. -/
def HasNoGap (g : K) (xs : List K) : Prop :=
  ∀ c, (∃ x ∈ xs, x ≤ c) → (∃ x ∈ xs, c < x) → ∃ x ∈ xs, c < x ∧ x ≤ c + g

/-- Two numbers that come to be apart, by at most `g`, with the same sum. -/
def IsWidened (g a b a' b' : K) : Prop :=
  a' + b' = a + b ∧
    (a' = a ∧ b' = b ∨ a' ≤ a ∧ a ≤ b ∧ b ≤ b' ∧ b' ≤ a' + g ∨
      b' ≤ b ∧ b ≤ a ∧ a ≤ a' ∧ a' ≤ b' + g)

theorem HasNoGap.of_perm {g : K} {xs ys : List K} (h : HasNoGap g xs) (hperm : xs.Perm ys) :
    HasNoGap g ys := by
  simpa only [HasNoGap, hperm.mem_iff] using h

theorem HasNoGap.widen_of_le {g a b a' b' : K} {xs : List K} (h : HasNoGap g (a :: b :: xs))
    (ha : a' ≤ a) (hab : a ≤ b) (hb : b ≤ b') (hg : b' ≤ a' + g) :
    HasNoGap g (a' :: b' :: xs) := by
  simp only [HasNoGap, List.mem_cons, exists_eq_or_imp] at h ⊢
  intro c hbelow habove
  rcases lt_or_ge c a' with hc | hc
  · -- what was found behind `c` is still there, or `a'` is closer
    obtain ⟨x, hx, hle⟩ := hbelow.resolve_left hc.not_ge |>.resolve_left
      (hc.trans_le (ha.trans (hab.trans hb))).not_ge
    rcases h c (.inr (.inr ⟨x, hx, hle⟩)) (.inl (hc.trans_le ha)) with hfound | hfound | hfound
    · exact .inl ⟨hc, ha.trans hfound.2⟩
    · exact .inl ⟨hc, ha.trans (hab.trans hfound.2)⟩
    · exact .inr (.inr hfound)
  · rcases lt_or_ge c b' with hc' | hc'
    · exact .inr (.inl ⟨hc', hg.trans (add_le_add_left hc g)⟩)
    · obtain ⟨x, hx, hlt⟩ := habove.resolve_left hc.not_gt |>.resolve_left hc'.not_gt
      rcases h c (.inl (hab.trans (hb.trans hc'))) (.inr (.inr ⟨x, hx, hlt⟩)) with
        hfound | hfound | hfound
      · exact absurd hfound.1 (hab.trans (hb.trans hc')).not_gt
      · exact absurd hfound.1 (hb.trans hc').not_gt
      · exact .inr (.inr hfound)

/-- **No gap is torn open.** -/
theorem HasNoGap.widen {g a b a' b' : K} {xs : List K} (h : HasNoGap g (a :: b :: xs))
    (hwiden : IsWidened g a b a' b') : HasNoGap g (a' :: b' :: xs) := by
  obtain ⟨-, ⟨rfl, rfl⟩ | ⟨ha, hab, hb, hg⟩ | ⟨hb, hba, ha, hg⟩⟩ := hwiden
  · exact h
  · exact h.widen_of_le ha hab hb hg
  · exact ((h.of_perm (List.Perm.swap ..)).widen_of_le hb hba ha hg).of_perm (List.Perm.swap ..)

/-- Numbers without a gap lie together. -/
theorem HasNoGap.le_add {g : K} (hg : 0 ≤ g) {xs : List K} (h : HasNoGap g xs) {x y : K}
    (hx : x ∈ xs) (hy : y ∈ xs) : y ≤ x + xs.length * g := by
  -- from one number to the next, of which there are fewer each time
  have hcount : ∀ n c, xs.countP (c < ·) = n → (∃ x ∈ xs, x ≤ c) → y ≤ c + n * g := by
    intro n
    induction n using Nat.strong_induction_on with
    | h n ih =>
      intro c hn hbelow
      rcases le_or_gt y c with hle | hlt
      · exact hle.trans (le_add_of_nonneg_right (mul_nonneg n.cast_nonneg hg))
      · obtain ⟨z, hz, hcz, hzg⟩ := h c hbelow ⟨y, hy, hlt⟩
        have hfewer : xs.countP (z < ·) < n := by
          have hperm := List.perm_cons_erase hz
          have hmono : (xs.erase z).countP (z < ·) ≤ (xs.erase z).countP (c < ·) :=
            List.countP_mono_left fun w _ hw => decide_eq_true (hcz.trans (of_decide_eq_true hw))
          rw [← hn, hperm.countP_eq, hperm.countP_eq, List.countP_cons_of_neg (by simp),
            List.countP_cons_of_pos (by simpa using hcz)]
          exact Nat.lt_succ_of_le hmono
        have hrest := ih _ hfewer z rfl ⟨z, hz, le_rfl⟩
        have hstep : ((xs.countP (z < ·) : Nat) + 1 : K) ≤ n := by exact_mod_cast hfewer
        have := mul_le_mul_of_nonneg_right hstep hg
        linarith
  have hle : (xs.countP (x < ·) : K) ≤ xs.length := Nat.cast_le.mpr List.countP_le_length
  have := mul_le_mul_of_nonneg_right hle hg
  linarith [hcount _ x rfl ⟨x, hx, le_rfl⟩]

/-- Numbers without a gap are not far from their mean. -/
theorem HasNoGap.abs_le_of_mem {g : K} (hg : 0 ≤ g) {xs : List K} (h : HasNoGap g xs) {x : K}
    (hx : x ∈ xs) : |x| ≤ xs.length * (xs.length * g) + |xs.sum| := by
  have habove := List.sum_le_card_nsmul xs (x + xs.length * g) fun y hy => h.le_add hg hx hy
  have hbelow := List.card_nsmul_le_sum xs (x - xs.length * g) fun y hy =>
    sub_le_iff_le_add.mpr (h.le_add hg hy hx)
  rw [nsmul_eq_mul] at habove hbelow
  have hone : (1 : K) ≤ xs.length := by exact_mod_cast List.length_pos_of_mem hx
  calc |x| ≤ xs.length * |x| := le_mul_of_one_le_left (abs_nonneg x) hone
    _ = |xs.length * x| := by rw [abs_mul, Nat.abs_cast]
    _ ≤ xs.length * (xs.length * g) + |xs.sum| := by
      have hsum := abs_le.mp (le_refl |xs.sum|)
      exact abs_le.mpr ⟨by linarith, by linarith⟩

theorem abs_le_sum_abs {xs : List K} {x : K} (hx : x ∈ xs) : |x| ≤ (xs.map abs).sum :=
  List.single_le_sum (List.forall_mem_map.mpr fun y _ => abs_nonneg y) _ (List.mem_map_of_mem hx)

/-- Some gap is not there. -/
theorem exists_hasNoGap (least : K) (xs : List K) : ∃ g ≥ least, HasNoGap g xs := by
  refine ⟨max least (2 * (xs.map abs).sum), le_max_left .., fun c => ?_⟩
  rintro ⟨x, hx, hxc⟩ ⟨y, hy, hcy⟩
  have hx' := neg_le_of_abs_le (abs_le_sum_abs hx)
  have hy' := le_of_abs_le (abs_le_sum_abs hy)
  exact ⟨y, hy, hcy, by linarith [le_max_right least (2 * (xs.map abs).sum)]⟩

/-- A push along a line. -/
theorem isWidened_directed {g a b need : K} (h : 0 < need - |b - a|) (hneed : need ≤ g) :
    IsWidened g a b (a - directed (b - a) ((need - |b - a|) / 2))
      (b + directed (b - a) ((need - |b - a|) / 2)) := by
  have hhalf := half_pos h
  refine ⟨by ring, .inr ?_⟩
  rw [directed_eq]
  split
  · next hd =>
    rw [abs_of_neg hd] at hhalf ⊢
    exact .inr ⟨by linarith, by linarith, by linarith, by linarith⟩
  · next hd =>
    have hd := not_lt.mp hd
    rw [abs_of_nonneg hd] at hhalf ⊢
    exact .inl ⟨by linarith, by linarith, by linarith, by linarith⟩

/-- **A push widens what is between two boxes**, by no more than is needed for the gap. -/
theorem isWidened_of_pushApart? {p q p' q' : Point K} {s t : K × K}
    (h : pushApart? gap p q s t = some (p', q')) :
    (∀ g, (s.1 + t.1) / 2 + gap ≤ g → IsWidened g p.x q.x p'.x q'.x) ∧
      ∀ g, (s.2 + t.2) / 2 + gap ≤ g → IsWidened g p.y q.y p'.y q'.y := by
  have hstay : ∀ g a b : K, IsWidened g a b a b := fun g a b => ⟨rfl, .inl ⟨rfl, rfl⟩⟩
  obtain ⟨hx, hy, ⟨r, rfl, -, rfl, rfl⟩ | ⟨r, rfl, -, rfl, rfl⟩⟩ := pushApart?_cases h
  · exact ⟨fun g hg => isWidened_directed hx hg, fun g _ => hstay g _ _⟩
  · exact ⟨fun g _ => hstay g _ _, fun g hg => isWidened_directed hy hg⟩

/-- The boxes have no gap along an axis that is wider than `g`, and their centres have a sum. -/
structure IsHeld (f : Point K → K) (g total : K) (centers : Array (Point K)) : Prop where
  hasNoGap : HasNoGap g (centers.toList.map f)
  sum_eq : (centers.toList.map f).sum = total

section

variable {f : Point K → K} {g total : K}
  (hf : ∀ {p q s t p' q'}, s ∈ sizes → t ∈ sizes → pushApart? gap p q s t = some (p', q') →
    IsWidened g (f p) (f q) (f p') (f q'))

include hf

theorem IsHeld.separatePair {i j : Nat} (hij : i < j) {st : Array (Point K) × Bool}
    (h : IsHeld f g total st.1) :
    IsHeld f g total (separatePair sizes.toArray gap st (i, j)).1 := by
  obtain ⟨centers, moved⟩ := st
  by_cases hspaced : IsPairSpaced gap sizes centers (i, j)
  · rwa [separatePair_of_isPairSpaced hspaced]
  · obtain ⟨p, q, s, t, p', q', rest, hpush, hs, ht, hbefore, hafter⟩ :=
      exists_push_of_not_isPairSpaced hij hspaced moved
    have hwiden := hf hs ht hpush
    constructor
    · exact ((h.hasNoGap.of_perm (hbefore.map f)).widen hwiden).of_perm (hafter.map f).symm
    · rw [← h.sum_eq, (hbefore.map f).sum_eq, (hafter.map f).sum_eq]
      simp only [List.map_cons, List.sum_cons, ← add_assoc, hwiden.1]

/-- **A pass holds the boxes together.** -/
theorem IsHeld.pass (h : IsHeld f g total centers) :
    IsHeld f g total (pass gap sizes centers) := by
  have hturns : ∀ pairs : List (Nat × Nat), (∀ pair ∈ pairs, pair.1 < pair.2) →
      ∀ st : Array (Point K) × Bool, IsHeld f g total st.1 →
        IsHeld f g total (pairs.foldl (Diagram.separatePair sizes.toArray gap) st).1 := by
    intro pairs hpairs
    induction pairs with
    | nil => exact fun st hst => hst
    | cons pair pairs ih =>
      obtain ⟨hpair, hpairs⟩ := List.forall_mem_cons.mp hpairs
      exact fun st hst => ih hpairs _ (hst.separatePair hf hpair)
  exact hturns _ (fun _ hmem => (mem_pairsBelow.mp hmem).1) _ h

theorem IsHeld.iterate_pass (h : IsHeld f g total centers) (k : Nat) :
    IsHeld f g total ((Diagram.pass gap sizes)^[k] centers) := by
  induction k with
  | zero => exact h
  | succ k ih =>
    rw [Function.iterate_succ_apply']
    exact ih.pass hf

end

@[simp] theorem size_iterate_pass (k : Nat) :
    ((pass gap sizes)^[k] centers).size = centers.size := by
  induction k with
  | zero => rfl
  | succ k ih => rw [Function.iterate_succ_apply', size_pass, ih]

/-- Along an axis no number of passes brings a box farther than to some place. -/
theorem exists_mul_self_le (f : Point K → K) {least : K}
    (hf : ∀ {p q s t p' q'}, s ∈ sizes → t ∈ sizes → pushApart? gap p q s t = some (p', q') →
      ∀ g ≥ least, IsWidened g (f p) (f q) (f p') (f q')) (centers : Array (Point K)) :
    ∃ bound, ∀ k, ∀ p ∈ ((pass gap sizes)^[k] centers).toList, f p * f p ≤ bound := by
  obtain ⟨g, hg, hgap⟩ := exists_hasNoGap (max 0 least) (centers.toList.map f)
  have hheld : IsHeld f g _ centers := ⟨hgap, rfl⟩
  set far : K := centers.size * (centers.size * g) + |(centers.toList.map f).sum|
  refine ⟨far * far, fun k p hp => ?_⟩
  have hafter := hheld.iterate_pass (fun hs ht hpush =>
    hf hs ht hpush g ((le_max_right 0 least).trans hg)) k
  have habs := hafter.hasNoGap.abs_le_of_mem ((le_max_left 0 least).trans hg)
    (List.mem_map_of_mem hp)
  rw [hafter.sum_eq, List.length_map, Array.length_toList, size_iterate_pass] at habs
  exact abs_le_iff_mul_self_le.mp (habs.trans (le_abs_self _))

/-- **There is a bound on how far the boxes ever spread.** -/
theorem exists_spread_le (gap : K) (sizes : List (K × K)) (centers : Array (Point K)) :
    ∃ bound, ∀ k, spread ((pass gap sizes)^[k] centers) ≤ bound := by
  have hneed : ∀ (f : K × K → K) {s t}, s ∈ sizes → t ∈ sizes →
      (f s + f t) / 2 + gap ≤ ((sizes.map f).map abs).sum + gap := by
    intro f s t hs ht
    have hs := le_of_abs_le (abs_le_sum_abs (List.mem_map_of_mem (f := f) hs))
    have ht := le_of_abs_le (abs_le_sum_abs (List.mem_map_of_mem (f := f) ht))
    linarith
  obtain ⟨boundX, hx⟩ := exists_mul_self_le Point.x
    (fun hs ht hpush g hg =>
      (isWidened_of_pushApart? hpush).1 g ((hneed Prod.fst hs ht).trans hg)) centers
  obtain ⟨boundY, hy⟩ := exists_mul_self_le Point.y
    (fun hs ht hpush g hg =>
      (isWidened_of_pushApart? hpush).2 g ((hneed Prod.snd hs ht).trans hg)) centers
  refine ⟨centers.size • (boundX + boundY), fun k => ?_⟩
  have hsum := List.sum_le_card_nsmul (((pass gap sizes)^[k] centers).toList.map normSq) _
    (List.forall_mem_map.mpr fun p hp => add_le_add (hx k p hp) (hy k p hp))
  rwa [List.length_map, Array.length_toList, size_iterate_pass] at hsum

/-! ## The overlap vanishes -/

/-- **The overlap vanishes**: as the passes go on, any two boxes come as close to being apart as one
likes, and stay so. -/
theorem exists_forall_areSpaced (gap : K) (sizes : List (K × K)) (centers : Array (Point K))
    {slack : K} (hslack : 0 < slack) :
    ∃ n, ∀ k ≥ n, AreSpaced (gap - slack) sizes ((pass gap sizes)^[k] centers).toList := by
  obtain ⟨bound, hbound⟩ := exists_spread_le gap sizes centers
  have hgrow : ∀ k, spread ((pass gap sizes)^[k] centers) ≤
      spread ((pass gap sizes)^[k + 1] centers) := fun k => by
    rw [Function.iterate_succ_apply']
    exact spread_le_foldl gap sizes (fun _ hmem => (mem_pairsBelow.mp hmem).1) (_, false)
  have hfrom : ∀ k, spread centers ≤ spread ((pass gap sizes)^[k] centers) := fun k =>
    monotone_nat_of_le_succ hgrow k.zero_le
  -- so short a push that all pairs together cannot make up for what is allowed to be missing
  set turns := (pairsBelow (min centers.size sizes.length)).length
  set r := slack / (2 * (turns + 1))
  have hr : 0 < r := by positivity
  have hlittle : 2 * (turns * r) ≤ slack := by
    have hall : slack = 2 * (turns * r) + 2 * r := by
      simp only [r]
      field_simp
    linarith
  have hcauchy : IsCauSeq abs fun k => spread ((pass gap sizes)^[k] centers) :=
    IsCauSeq.of_mono_bounded (a := max |bound| |spread centers|) (m := 0) _
      (fun k _ => abs_le_max_abs_abs (hfrom k) (hbound k) |>.trans (max_comm _ _).le)
      fun k _ => hgrow k
  obtain ⟨n, hn⟩ := hcauchy (2 * (r * r)) (by positivity)
  refine ⟨n + 1, fun k hk => ?_⟩
  obtain ⟨m, rfl⟩ := Nat.exists_eq_add_of_le' hk
  have hstep := abs_lt.mp (hn (m + n + 1) (by omega))
  have hstart := monotone_nat_of_le_succ hgrow (show n ≤ m + n by omega)
  have hsmall : spread (pass gap sizes ((pass gap sizes)^[m + n] centers)) ≤
      spread ((pass gap sizes)^[m + n] centers) + 2 * (r * r) := by
    rw [← Function.iterate_succ_apply' (pass gap sizes)]
    linarith [hstep.2]
  have hspaced := areSpaced_pass hr.le hsmall
  rw [size_iterate_pass] at hspaced
  rw [← add_assoc, Function.iterate_succ_apply']
  exact hspaced.imp fun h => h.mono (by linarith)

/-! ## Boxes that overlap in pairs -/

theorem IsPairSpaced.symm {i j : Nat} (h : IsPairSpaced gap sizes centers (i, j)) :
    IsPairSpaced gap sizes centers (j, i) :=
  fun p q s t hp hq hs ht => (h q p t s hq hp ht hs).symm

/-- Boxes of which no two overlap by more than `reach`, and each is closer than `gap + reach` to one
other at most. -/
structure AreInPairs (gap reach : K) (sizes : List (K × K)) (centers : Array (Point K)) :
    Prop where
  reach_nonneg : 0 ≤ reach
  areSpaced : AreSpaced (gap - reach) sizes centers.toList
  isPairSpaced : ∀ i j k, i ≠ j → i ≠ k → j ≠ k →
    IsPairSpaced (gap + reach) sizes centers (i, j) ∨
      IsPairSpaced (gap + reach) sizes centers (i, k)

variable {reach : K}

/-- Two pairs that are close have no box in common. -/
theorem AreInPairs.disjoint (h : AreInPairs gap reach sizes centers) {i j k l : Nat} (hij : i < j)
    (hkl : k < l) (hne : (i, j) ≠ (k, l))
    (hclose : ¬ IsPairSpaced (gap + reach) sizes centers (i, j))
    (hclose' : ¬ IsPairSpaced (gap + reach) sizes centers (k, l)) :
    i ≠ k ∧ i ≠ l ∧ j ≠ k ∧ j ≠ l := by
  refine ⟨?_, ?_, ?_, ?_⟩
  · rintro rfl
    have hjl : j ≠ l := fun hjl => hne (by rw [hjl])
    exact (h.isPairSpaced i j l hij.ne hkl.ne hjl).elim hclose hclose'
  · rintro rfl
    exact (h.isPairSpaced i j k hij.ne hkl.ne' (by omega)).elim hclose fun hs => hclose' hs.symm
  · rintro rfl
    exact (h.isPairSpaced j i l hij.ne' hkl.ne (by omega)).elim (fun hs => hclose hs.symm) hclose'
  · rintro rfl
    have hik : i ≠ k := fun hik => hne (by rw [hik])
    exact (h.isPairSpaced j i k hij.ne' hkl.ne' hik).elim (fun hs => hclose hs.symm)
      fun hs => hclose' hs.symm

/-- What some turns have come to, when the boxes were in pairs `before`. -/
structure TookTurns (gap reach : K) (sizes : List (K × K)) (before : Array (Point K))
    (pairs : List (Nat × Nat)) (after : Array (Point K)) : Prop where
  isWithin : ∀ (k : Nat) p', after[k]? = some p' →
    ∃ p, before[k]? = some p ∧ IsWithin (reach / 2) p p'
  spaced : ∀ pair ∈ pairs, ¬ IsPairSpaced (gap + reach) sizes before pair →
    IsPairSpaced gap sizes after pair
  waiting : ∀ pair ∉ pairs, pair.1 < pair.2 → ¬ IsPairSpaced (gap + reach) sizes before pair →
    after[pair.1]? = before[pair.1]? ∧ after[pair.2]? = before[pair.2]?

/-- Pairs that were not close stay apart. -/
theorem TookTurns.isPairSpaced {before after : Array (Point K)} {pairs : List (Nat × Nat)}
    {pair : Nat × Nat} (h : TookTurns gap reach sizes before pairs after)
    (hspaced : IsPairSpaced (gap + reach) sizes before pair) :
    IsPairSpaced gap sizes after pair := by
  intro p' q' s t hp' hq' hs ht
  obtain ⟨p, hp, hwithin⟩ := h.isWithin _ _ hp'
  obtain ⟨q, hq, hwithin'⟩ := h.isWithin _ _ hq'
  exact ((hspaced p q s t hp hq hs ht).of_isWithin hwithin hwithin').mono (by linarith)

/-- The turn of one more pair, which is apart. -/
theorem TookTurns.concat_of_isPairSpaced {before after : Array (Point K)}
    {pairs : List (Nat × Nat)} {pair : Nat × Nat} (h : TookTurns gap reach sizes before pairs after)
    (hspaced : IsPairSpaced gap sizes after pair) :
    TookTurns gap reach sizes before (pairs ++ [pair]) after where
  isWithin := h.isWithin
  spaced other hother hclose := by
    rcases List.mem_append.mp hother with hold | hlast
    · exact h.spaced other hold hclose
    · rwa [List.mem_singleton.mp hlast]
  waiting other hother := h.waiting other fun hold => hother (List.mem_append_left _ hold)

/-- The turn of one more pair, which is pushed: neither of its boxes has been moved before, nor is
either in any other pair that is close. -/
theorem TookTurns.concat_of_push {before after : Array (Point K)} {pairs : List (Nat × Nat)}
    {i j : Nat} (hpairs : AreInPairs gap reach sizes before)
    (h : TookTurns gap reach sizes before pairs after) (hall : ∀ pair ∈ pairs, pair.1 < pair.2)
    (hnew : (i, j) ∉ pairs) (hij : i < j)
    (hclose : ¬ IsPairSpaced (gap + reach) sizes before (i, j)) {p q p' q' : Point K}
    (hp : before[i]? = some p) (hq : before[j]? = some q)
    (hwithin : IsWithin (reach / 2) p p') (hwithin' : IsWithin (reach / 2) q q')
    (hturn : IsPairSpaced gap sizes ((after.setIfInBounds i p').setIfInBounds j q') (i, j)) :
    TookTurns gap reach sizes before (pairs ++ [(i, j)])
      ((after.setIfInBounds i p').setIfInBounds j q') := by
  have hother : ∀ {k l : Nat}, k < l → (k, l) ≠ (i, j) →
      ¬ IsPairSpaced (gap + reach) sizes before (k, l) →
      ((after.setIfInBounds i p').setIfInBounds j q')[k]? = after[k]? ∧
        ((after.setIfInBounds i p').setIfInBounds j q')[l]? = after[l]? := by
    intro k l hkl hne hclose'
    obtain ⟨hki, hkj, hli, hlj⟩ := hpairs.disjoint hkl hij hne hclose' hclose
    constructor
    · rw [Array.getElem?_setIfInBounds_ne hkj.symm, Array.getElem?_setIfInBounds_ne hki.symm]
    · rw [Array.getElem?_setIfInBounds_ne hlj.symm, Array.getElem?_setIfInBounds_ne hli.symm]
  refine ⟨fun k c hk => ?_, fun pair hmem hclose' => ?_, fun pair hmem hlt hclose' => ?_⟩
  · rcases getElem?_setIfInBounds_cases hk with ⟨rfl, rfl⟩ | ⟨rfl, rfl⟩ | ⟨-, -, hstay⟩
    · exact ⟨q, hq, hwithin'⟩
    · exact ⟨p, hp, hwithin⟩
    · exact h.isWithin k c hstay
  · rcases List.mem_append.mp hmem with hold | hlast
    · have hne : pair ≠ (i, j) := fun heq => hnew (heq ▸ hold)
      obtain ⟨hfst, hsnd⟩ := hother (hall pair hold) hne hclose'
      simpa only [IsPairSpaced, hfst, hsnd] using h.spaced pair hold hclose'
    · rwa [List.mem_singleton.mp hlast]
  · rw [List.mem_append, List.mem_singleton, not_or] at hmem
    obtain ⟨hfst, hsnd⟩ := hother hlt hmem.2 hclose'
    rw [hfst, hsnd]
    exact h.waiting pair hmem.1 hlt hclose'

/-- **The turn of one more pair.** -/
theorem TookTurns.concat {before after : Array (Point K)} {pairs : List (Nat × Nat)} {i j : Nat}
    (hpairs : AreInPairs gap reach sizes before) (h : TookTurns gap reach sizes before pairs after)
    (hall : ∀ pair ∈ pairs, pair.1 < pair.2) (hnew : (i, j) ∉ pairs)
    (hmem : (i, j) ∈ pairsBelow (min before.size sizes.length)) (moved : Bool) :
    TookTurns gap reach sizes before (pairs ++ [(i, j)])
      (separatePair sizes.toArray gap (after, moved) (i, j)).1 := by
  have hij := (mem_pairsBelow.mp hmem).1
  by_cases hspaced : IsPairSpaced gap sizes after (i, j)
  · rw [separatePair_of_isPairSpaced hspaced]
    exact h.concat_of_isPairSpaced hspaced
  · -- a pair that is pushed was close, so neither of its boxes has been moved
    have hclose : ¬ IsPairSpaced (gap + reach) sizes before (i, j) :=
      fun hfar => hspaced (h.isPairSpaced hfar)
    obtain ⟨p, q, s, t, p', q', hp, hq, hs, ht, hpush, hpair⟩ :=
      exists_pushApart?_of_not_isPairSpaced hspaced moved
    obtain ⟨hpi, hqj⟩ := h.waiting (i, j) hnew hij hclose
    rw [hpi] at hp
    rw [hqj] at hq
    obtain ⟨r, -, hwithin, hwithin', -, hshort⟩ := exists_move_of_pushApart? hpush
    have hreach : r ≤ reach / 2 := by
      have hoverlap := areSpaced_iff.mp hpairs.areSpaced (i, j) hmem p q s t hp hq hs ht
      linarith [hshort reach hoverlap]
    have hturn : IsPairSpaced gap sizes (separatePair sizes.toArray gap (after, moved) (i, j)).1
        (i, j) := isPairSpaced_separatePair hij.ne moved
    rw [hpair] at hturn ⊢
    exact h.concat_of_push hpairs hall hnew hij hclose hp hq (hwithin.mono hreach)
      (hwithin'.mono hreach) hturn

theorem nodup_pairsBelow (n : Nat) : (pairsBelow n).Nodup := by
  rw [pairsBelow, List.nodup_flatMap]
  refine ⟨fun i _ => List.Nodup.map (Prod.mk_right_injective i) List.nodup_range', ?_⟩
  refine List.nodup_range.imp fun hne => List.disjoint_left.mpr fun pair hpair hpair' => ?_
  obtain ⟨_, -, rfl⟩ := List.mem_map.mp hpair
  obtain ⟨_, -, heq⟩ := List.mem_map.mp hpair'
  exact hne (congrArg Prod.fst heq).symm

/-- **Boxes that overlap in pairs are apart after one pass.** -/
theorem AreInPairs.areSpaced_pass (h : AreInPairs gap reach sizes centers) :
    AreSpaced gap sizes (pass gap sizes centers).toList := by
  have hturns : ∀ pairs : List (Nat × Nat), pairs.Nodup →
      (∀ pair ∈ pairs, pair ∈ pairsBelow (min centers.size sizes.length)) →
      TookTurns gap reach sizes centers pairs
        (pairs.foldl (separatePair sizes.toArray gap) (centers, false)).1 := by
    intro pairs hnodup hmem
    induction pairs using List.reverseRecOn with
    | nil =>
      have hhalf : 0 ≤ reach / 2 := div_nonneg h.reach_nonneg zero_le_two
      exact ⟨fun k p hp => ⟨p, hp, by simp [IsWithin, hhalf]⟩, nofun, fun _ _ _ _ => ⟨rfl, rfl⟩⟩
    | append_singleton pairs pair ih =>
      rw [List.nodup_append_comm, List.singleton_append, List.nodup_cons] at hnodup
      rw [List.forall_mem_append, List.forall_mem_singleton] at hmem
      rw [List.foldl_append, List.foldl_cons, List.foldl_nil]
      exact (ih hnodup.2 hmem.1).concat h (fun _ hold => (mem_pairsBelow.mp (hmem.1 _ hold)).1)
        hnodup.1 hmem.2 _
  have hall := hturns _ (nodup_pairsBelow _) fun _ hmem => hmem
  rw [areSpaced_iff, size_pass]
  intro pair hmem
  by_cases hclose : IsPairSpaced (gap + reach) sizes centers pair
  · exact hall.isPairSpaced hclose
  · exact hall.spaced pair hmem hclose

/-! ## The boxes after the call -/

/-- **What pushing boxes apart achieves.**  The boxes are moved by passes, a hundred of them unless
one moves no box.  As the passes go on, the overlap that is left vanishes; with a gap between them
the boxes are free of overlap from some pass on.  After the hundred, any two boxes are apart exactly
when they have come to rest, and they are when they overlapped in pairs.  Boxes that are apart do
not overlap. -/
theorem separate_settles (sizes : List (K × K)) {gap : K} (hgap : 0 ≤ gap)
    (centers : List (Point K)) :
    let after (k : Nat) := (pass gap sizes)^[k] centers.toArray
    separate sizes gap centers = (after 100).toList ∧
    (∀ slack > 0, ∃ n, ∀ k ≥ n, AreSpaced (gap - slack) sizes (after k).toList) ∧
    (0 < gap → ∃ n, ∀ k ≥ n, ((after k).toList.zip sizes).Pairwise fun a b =>
      Disjoint (boxAround a.1 a.2).interior (boxAround b.1 b.2).interior) ∧
    (AreSpaced gap sizes (separate sizes gap centers) ↔ ∃ k ≤ 100, after (k + 1) = after k) ∧
    (∀ reach, AreInPairs gap reach sizes centers.toArray →
      AreSpaced gap sizes (separate sizes gap centers)) ∧
    (AreSpaced gap sizes (separate sizes gap centers) →
      ((separate sizes gap centers).zip sizes).Pairwise fun a b =>
        Disjoint (boxAround a.1 a.2).interior (boxAround b.1 b.2).interior) := by
  intro after
  refine ⟨separate_eq gap sizes centers, fun slack hslack => exists_forall_areSpaced gap sizes _
    hslack, fun hpos => ?_, areSpaced_separate_iff gap sizes centers, fun reach hpairs => ?_,
    fun h => h.imp fun hab => hab.disjoint hgap⟩
  · obtain ⟨n, hn⟩ := exists_forall_areSpaced gap sizes centers.toArray hpos
    refine ⟨n, fun k hk => (hn k hk).imp fun hab => hab.disjoint ?_⟩
    rw [sub_self]
  · exact (areSpaced_separate_iff gap sizes centers).mpr
      ⟨1, by decide, pass_eq_self_iff.mpr hpairs.areSpaced_pass⟩

end

/-- Two boxes in the same place, and a third one that is out of their way. -/
theorem separate_settles_three :
    let sizes : List (ℚ × ℚ) := [(2, 8), (3, 1), (2, 2)]
    let centers : List (Point ℚ) := [⟨0, 0⟩, ⟨0, 0⟩, ⟨20, 0⟩]
    (0 : ℚ) ≤ 1 ∧ AreInPairs 1 5 sizes centers.toArray ∧
      ((@separate ℚ (Scalar.exact ℚ) sizes 1 centers).zip sizes).Pairwise fun a b =>
        Disjoint (boxAround a.1 a.2).interior (boxAround b.1 b.2).interior := by
  intro sizes centers
  have hnone : ∀ i j, 3 ≤ i → IsPairSpaced (1 + 5) sizes centers.toArray (i, j) := by
    intro i j hi p q s t hp
    rw [Array.getElem?_eq_none (by simpa [centers] using hi)] at hp
    cases hp
  have hthird : ∀ i < 2, IsPairSpaced (1 + 5) sizes centers.toArray (i, 2) := by
    intro i hi p q s t hp hq hs ht
    obtain rfl := Option.some.inj hq
    obtain rfl := Option.some.inj ht
    interval_cases i <;> obtain rfl := Option.some.inj hp <;> obtain rfl := Option.some.inj hs <;>
      norm_num [isSpaced_iff, centers]
  have hpairs : AreInPairs 1 5 sizes centers.toArray := by
    refine ⟨by norm_num, by norm_num [AreSpaced, isSpaced_iff, sizes, centers], ?_⟩
    intro i j k hij hik hjk
    obtain hi | hj | hk | rfl | rfl | rfl :
        3 ≤ i ∨ 3 ≤ j ∨ 3 ≤ k ∨ i = 2 ∨ j = 2 ∨ k = 2 := by omega
    · exact .inl (hnone i j hi)
    · exact .inl (hnone j i hj).symm
    · exact .inr (hnone k i hk).symm
    · rcases lt_or_ge j 2 with hj | hj
      · exact .inl (hthird j hj).symm
      · exact .inl (hnone j 2 (by omega)).symm
    · rcases lt_or_ge i 2 with hi | hi
      · exact .inl (hthird i hi)
      · exact .inl (hnone i 2 (by omega))
    · rcases lt_or_ge i 2 with hi | hi
      · exact .inr (hthird i hi)
      · exact .inr (hnone i 2 (by omega))
  obtain ⟨-, -, -, -, hsettled, hdisjoint⟩ := separate_settles sizes (zero_le_one (α := ℚ)) centers
  exact ⟨zero_le_one, hpairs, hdisjoint (hsettled 5 hpairs)⟩

end Diagram
