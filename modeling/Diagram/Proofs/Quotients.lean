import Mathlib.Algebra.Order.Field.Rat
import Mathlib.Data.Prod.Lex
import Mathlib.Tactic.FieldSimp
import Mathlib.Tactic.Linarith
import Mathlib.Tactic.Positivity
import Diagram.Proofs.Rounding

/-!
# Quotients of whole numbers

A quotient of two whole numbers is rounded in two steps.  The division stops at a mantissa of full
width, or with one bit to spare, and two more bits say what is left of the quotient.  The mantissa
is then shifted to full width and rounded to the nearest even one.  The two bits say on which side
of the midpoint the quotient lies, before the shift and after it, so what comes out depends on the
quotient alone, and a greater quotient is never rounded to less.  Quotients that are not too near to
each other are not rounded to the same.  Sums of whole numbers are not rounded at all.
-/

namespace Diagram.Binary

open Float.Model Float.Model.UnpackedFloat

/-! ## What is remembered of a quotient -/

/-- A mantissa stands for a number with this whole part, and its two bits say where the rest is:
whether it reaches a half, and whether there is more than the one bit tells. -/
def Represents (em : ExtendedMantissa) (x : ℚ) : Prop :=
  match em.roundBit, em.stickyBit with
  | false, false => x = em.mantissa
  | false, true => em.mantissa < x ∧ x < em.mantissa + 1 / 2
  | true, false => x = em.mantissa + 1 / 2
  | true, true => em.mantissa + 1 / 2 < x ∧ x < em.mantissa + 1

namespace Represents

variable {em em' : ExtendedMantissa} {x x' : ℚ}

theorem le (h : Represents em x) : em.mantissa ≤ x := by
  obtain ⟨m, r, s⟩ := em
  cases r <;> cases s <;> simp only [Represents] at h ⊢ <;> linarith

theorem lt (h : Represents em x) : x < em.mantissa + 1 := by
  obtain ⟨m, r, s⟩ := em
  cases r <;> cases s <;> simp only [Represents] at h ⊢ <;> linarith

/-- **A shift by one place halves the number.** -/
theorem shiftRightOne (h : Represents em x) : Represents em.shiftRightOne (x / 2) := by
  obtain ⟨m, r, s⟩ := em
  -- the bit that is shifted out becomes the bit for the half
  obtain ⟨k, hk | hk⟩ := Nat.even_or_odd' m <;> subst hk <;> cases r <;> cases s <;>
    simp [Represents, ExtendedMantissa.shiftRightOne, Nat.add_mod,
      show (2 * k + 1) / 2 = k by omega] at h ⊢ <;>
    first | linarith | (constructor <;> linarith)

theorem shiftRight (h : Represents em x) (k : Nat) : Represents (em >>> k) (x / 2 ^ k) := by
  change Represents (Nat.repeat ExtendedMantissa.shiftRightOne k em) _
  induction k with
  | zero => simpa [Nat.repeat] using h
  | succ k ih =>
    rw [pow_succ, ← div_div]
    exact ih.shiftRightOne

/-- **A greater number is not rounded to less.** -/
theorem roundedMantissa_le (h : Represents em x) (h' : Represents em' x') (hle : x ≤ x') :
    em.roundedMantissa ≤ em'.roundedMantissa := by
  have hmantissa : em.mantissa ≤ em'.mantissa := by
    have hlt : (em.mantissa : ℚ) < em'.mantissa + 1 := (h.le.trans hle).trans_lt h'.lt
    exact Nat.lt_add_one_iff.mp (by exact_mod_cast hlt)
  rcases hmantissa.lt_or_eq with hlt | heq
  · have hround := roundedMantissa_bounds em
    have hround' := roundedMantissa_bounds em'
    omega
  · obtain ⟨m, r, s⟩ := em
    obtain ⟨m', r', s'⟩ := em'
    obtain rfl : m = m' := heq
    cases r <;> cases s <;> cases r' <;> cases s' <;>
      simp only [Represents, ExtendedMantissa.roundedMantissa, ExtendedMantissa.accuracy,
        Accuracy.roundToNearestEven] at h h' ⊢ <;>
      first | omega | (exfalso; linarith)

end Represents

/-- **A quotient is represented by its whole part and what is said of the rest.** -/
theorem represents_div (num : Nat) {den : Nat} (hden : 0 < den) :
    Represents (.ofMantissaAndAccuracy (num / den) (accuracyOfFraction (num % den) den))
      (num / den) := by
  have hpos : (0 : ℚ) < den := by exact_mod_cast hden
  have hlt : ((num % den : Nat) : ℚ) < den := by exact_mod_cast Nat.mod_lt num hden
  have hsum : (num : ℚ) / den = (num / den : Nat) + ((num % den : Nat) : ℚ) / den := by
    rw [div_eq_iff hpos.ne', add_mul, div_mul_cancel₀ _ hpos.ne']
    exact_mod_cast (Nat.div_add_mod' num den).symm
  rw [hsum, accuracyOfFraction]
  split
  case isTrue hzero => simp [Represents, ExtendedMantissa.ofMantissaAndAccuracy, hzero]
  case isFalse hne =>
    have hrest : 0 < ((num % den : Nat) : ℚ) / den := by
      have : 0 < num % den := Nat.pos_of_ne_zero hne
      positivity
    have hone : ((num % den : Nat) : ℚ) / den < 1 := (div_lt_one hpos).mpr hlt
    rcases hcompare : compare (2 * (num % den)) den with _ | _ | _ <;>
      simp only [Represents, ExtendedMantissa.ofMantissaAndAccuracy]
    · have hhalf : ((num % den : Nat) : ℚ) / den < 1 / 2 := by
        rw [div_lt_div_iff₀ hpos two_pos, one_mul, mul_comm]
        exact_mod_cast Nat.compare_eq_lt.mp hcompare
      constructor <;> linarith
    · have hhalf : ((num % den : Nat) : ℚ) / den = 1 / 2 := by
        rw [div_eq_div_iff hpos.ne' two_ne_zero, one_mul, mul_comm]
        exact_mod_cast Nat.compare_eq_eq.mp hcompare
      rw [hhalf]
    · have hhalf : 1 / 2 < ((num % den : Nat) : ℚ) / den := by
        rw [div_lt_div_iff₀ two_pos hpos, one_mul, mul_comm _ (2 : ℚ)]
        exact_mod_cast Nat.compare_eq_gt.mp hcompare
      constructor <;> linarith

/-! ## Values -/

/-- A floating-point number of full width has a positive value. -/
def HasValue (x : Float) (v : ℚ) : Prop :=
  ∃ (m : Nat) (e : Int) (hpos : 0 < m), IsFull m ∧ x.toModel.unpack = .finite .positive m e hpos ∧
    v = m * 2 ^ e

/-- Full mantissas are compared after their exponents. -/
theorem mul_zpow_lt {m n : Nat} (hm : IsFull m) (hn : IsFull n) {e f : Int} (h : e < f) :
    (m : ℚ) * 2 ^ e < n * 2 ^ f := by
  have hmlt : (m : ℚ) < 2 ^ 53 := by exact_mod_cast hm.2
  have hnle : (2 : ℚ) ^ 52 ≤ n := by exact_mod_cast hn.1
  calc (m : ℚ) * 2 ^ e < 2 ^ 53 * 2 ^ e := by gcongr
    _ = 2 ^ 52 * 2 ^ (e + 1) := by rw [zpow_add_one₀ two_ne_zero]; ring
    _ ≤ n * 2 ^ f := by
      gcongr
      · norm_num
      · exact h

theorem mul_zpow_le_iff {m n : Nat} (hm : IsFull m) (hn : IsFull n) (e f : Int) :
    (m : ℚ) * 2 ^ e ≤ n * 2 ^ f ↔ e < f ∨ e = f ∧ m ≤ n := by
  rcases lt_trichotomy e f with hlt | rfl | hlt
  · exact iff_of_true (mul_zpow_lt hm hn hlt).le (.inl hlt)
  · rw [mul_le_mul_iff_left₀ (by positivity)]
    simp
  · refine iff_of_false (not_le.mpr (mul_zpow_lt hn hm hlt)) ?_
    omega

namespace HasValue

variable {x y : Float} {v w : ℚ}

/-- **Floating-point numbers compare as their values do.** -/
theorem le_iff (hx : HasValue x v) (hy : HasValue y w) : x ≤ y ↔ v ≤ w := by
  obtain ⟨m, e, hpos, hm, hunpack, rfl⟩ := hx
  obtain ⟨n, f, hpos', hn, hunpack', rfl⟩ := hy
  rw [mul_zpow_le_iff hm hn, le_iff_rank?_toModel, hunpack, hunpack']
  simp [rank?, Prod.Lex.le_iff]

/-- Zero is less than every positive value. -/
theorem zero_lt (hx : HasValue x v) (hy : y.toModel.unpack = .zero .positive) :
    y ≤ x ∧ ¬ x ≤ y := by
  obtain ⟨m, e, hpos, hm, hunpack, -⟩ := hx
  rw [le_iff_rank?_toModel, le_iff_rank?_toModel, hunpack, hy]
  simp [rank?, Prod.Lex.le_iff]

/-- No two numbers have the same value. -/
theorem unique (hx : HasValue x v) (hy : HasValue y v) : x = y := by
  obtain ⟨m, e, hpos, hm, hunpack, hv⟩ := hx
  obtain ⟨n, f, hpos', hn, hunpack', hv'⟩ := hy
  have hle := (mul_zpow_le_iff hm hn e f).mp (hv.symm.trans hv').le
  have hge := (mul_zpow_le_iff hn hm f e).mp (hv'.symm.trans hv).le
  obtain rfl : e = f := by omega
  obtain rfl : m = n := by omega
  exact eq_of_toModel_unpack (hunpack.trans hunpack'.symm)

end HasValue

/-! ## Rounding -/

/-- A floating-point number is the one that a positive number is rounded to. -/
def RoundsTo (q : ℚ) (x : Float) : Prop :=
  ∃ (em : ExtendedMantissa) (k : Nat), IsFull em.mantissa ∧ Represents em (q * 2 ^ k) ∧
    HasValue x (em.roundedMantissa / 2 ^ k)

/-- A mantissa of full width says how far it is shifted. -/
theorem lt_of_represents {em em' : ExtendedMantissa} {q q' : ℚ} {k k' : Nat}
    (hm : IsFull em.mantissa) (hm' : IsFull em'.mantissa) (h : Represents em (q * 2 ^ k))
    (h' : Represents em' (q' * 2 ^ k')) (hlt : k < k') : q' < q := by
  have hlow : (2 : ℚ) ^ 52 ≤ q * 2 ^ k := le_trans (by exact_mod_cast hm.1) h.le
  have hhigh : q' * 2 ^ k' < 2 ^ 53 := h'.lt.trans_le (by exact_mod_cast hm'.2)
  have hpow : (2 : ℚ) ^ (k + 1) ≤ 2 ^ k' := pow_le_pow_right₀ one_le_two hlt
  by_contra hle
  rw [not_lt] at hle
  have hpos : 0 < q * 2 ^ k := lt_of_lt_of_le (by positivity) hlow
  have hq : 0 < q := (mul_pos_iff_of_pos_right (by positivity)).mp hpos
  have hmul : q * 2 ^ (k + 1) ≤ q' * 2 ^ k' :=
    mul_le_mul hle hpow (by positivity) (hq.trans_le hle).le
  rw [pow_succ, ← mul_assoc] at hmul
  linarith

namespace RoundsTo

variable {x y : Float} {q r : ℚ}

/-- **What is not greater is not rounded to more.** -/
theorem le_of_le (hx : RoundsTo q x) (hy : RoundsTo r y) (hle : q ≤ r) : x ≤ y := by
  obtain ⟨em, k, hm, hq, hx⟩ := hx
  obtain ⟨em', k', hm', hr, hy⟩ := hy
  rw [hx.le_iff hy]
  rcases lt_trichotomy k k' with hlt | rfl | hlt
  · exact absurd (lt_of_represents hm hm' hq hr hlt) (not_lt.mpr hle)
  · have hround := hq.roundedMantissa_le hr (by gcongr)
    gcongr
  · -- the one is at most a power of two, which the other reaches
    have hround : (em.roundedMantissa : ℚ) ≤ 2 ^ 53 := by
      have := roundedMantissa_bounds em
      have := hm.2
      exact_mod_cast (by omega : em.roundedMantissa ≤ 2 ^ 53)
    have hround' : (2 : ℚ) ^ 52 ≤ em'.roundedMantissa := by
      have := roundedMantissa_bounds em'
      have := hm'.1
      exact_mod_cast (by omega : 2 ^ 52 ≤ em'.roundedMantissa)
    have hpow : (2 : ℚ) ^ (k' + 1) ≤ 2 ^ k := pow_le_pow_right₀ one_le_two hlt
    calc (em.roundedMantissa : ℚ) / 2 ^ k ≤ 2 ^ 53 / 2 ^ (k' + 1) := by gcongr
      _ = 2 ^ 52 / 2 ^ k' := by
        rw [pow_succ (2 : ℚ) k', ← mul_div_mul_right (2 ^ 52) (2 ^ k') (two_ne_zero' ℚ)]
        norm_num
      _ ≤ em'.roundedMantissa / 2 ^ k' := by gcongr

theorem unique (hx : RoundsTo q x) (hy : RoundsTo q y) : x = y := by
  have hle := hx.le_of_le hy le_rfl
  have hge := hy.le_of_le hx le_rfl
  obtain ⟨_, _, _, _, hx⟩ := hx
  obtain ⟨_, _, _, _, hy⟩ := hy
  rw [hx.le_iff hy] at hle
  rw [hy.le_iff hx] at hge
  exact hx.unique (le_antisymm hle hge ▸ hy)

/-- A number is rounded by less than `2 ^ -52` of it. -/
theorem exists_value (hx : RoundsTo q x) :
    ∃ v, HasValue x v ∧ q * 2 ^ 52 - q ≤ v * 2 ^ 52 ∧ v * 2 ^ 52 ≤ q * 2 ^ 52 + q := by
  obtain ⟨em, k, hm, hq, hx⟩ := hx
  refine ⟨_, hx, ?_⟩
  have hle := hq.le
  have hlt := hq.lt
  have hfull : (2 : ℚ) ^ 52 ≤ em.mantissa := by exact_mod_cast hm.1
  obtain ⟨hlow, hhigh⟩ := roundedMantissa_bounds em
  have hlow : (em.mantissa : ℚ) ≤ em.roundedMantissa := by exact_mod_cast hlow
  have hhigh : (em.roundedMantissa : ℚ) ≤ em.mantissa + 1 := by exact_mod_cast hhigh
  have hpos : (0 : ℚ) < 2 ^ k := by positivity
  rw [div_mul_eq_mul_div, le_div_iff₀ hpos, div_le_iff₀ hpos]
  constructor <;> nlinarith

/-- **Numbers that are not too near to each other** are not rounded to the same. -/
theorem lt_of_lt (hx : RoundsTo q x) (hy : RoundsTo r y) (hlt : q + r < (r - q) * 2 ^ 52) :
    ¬ y ≤ x := by
  obtain ⟨v, hx, -, hhigh⟩ := hx.exists_value
  obtain ⟨w, hy, hlow, -⟩ := hy.exists_value
  rw [hy.le_iff hx, not_le]
  linarith

end RoundsTo

/-! ## Whole numbers -/

theorem unpack_ofNat {n : Nat} (h0 : 0 < n) (hn : n < 2 ^ 53) :
    ∃ (m j : Nat) (hpos : 0 < m), IsFull m ∧ m = n * 2 ^ j ∧ j ≤ 52 ∧
      (Float.ofNat n).toModel.unpack = .finite .positive m (-j) hpos := by
  obtain ⟨m, j, hpos, hm, hmn, hj, hmodel⟩ := toModel_ofNat_small h0 hn
  refine ⟨m, j, hpos, hm, hmn, hj, ?_⟩
  rw [hmodel, unpack_pack hm hpos .positive (by omega) (by omega)]

/-- A whole number is a number that nothing is left of. -/
theorem roundsTo_ofNat {n : Nat} (h0 : 0 < n) (hn : n < 2 ^ 53) : RoundsTo n (Float.ofNat n) := by
  obtain ⟨m, j, hpos, hm, hmn, -, hunpack⟩ := unpack_ofNat h0 hn
  refine ⟨⟨m, false, false⟩, j, hm, ?_, m, -j, hpos, hm, hunpack, ?_⟩
  · simp [Represents, hmn]
  · rw [zpow_neg, zpow_natCast, ← div_eq_mul_inv]
    rfl

/-! ## Sums -/

/-- A full mantissa times a power of two is normalized without a loss. -/
theorem normalize_exact {m : Nat} (hm : IsFull m) (hpos : 0 < m) (k : Nat) {e : Int}
    (he : -1074 ≤ e + k) (s : Sign) :
    UnpackedFloat.normalize .binary64 (m * 2 ^ k : Nat) e s = .finite .positive m (e + k) hpos := by
  have htarget : Format.targetExponent .binary64 (totalExponent (m * 2 ^ k) e) = e + k :=
    targetExponent_eq (by rw [log2_mul_pow hm]; omega) he
  have hcompare : compare ((m * 2 ^ k : Nat) : Int) 0 = .gt := by
    rw [compare_gt_iff_gt]
    exact_mod_cast (by positivity : 0 < m * 2 ^ k)
  have hshift : (e - (e + k)).toNat = 0 := by omega
  rw [UnpackedFloat.normalize, hcompare]
  simp only [UnpackedFloat.round, Int.toNat_natCast, htarget, decreaseExponent, hshift,
    Nat.shiftLeft_zero]
  rw [Nat.cast_zero, sub_zero, roundWithAccuracy_exact hm hpos k .positive e he]

theorem zero_add_ofNat {n : Nat} (hn : n < 2 ^ 53) :
    Float.ofNat 0 + Float.ofNat n = Float.ofNat n ∧
      Float.ofNat n + Float.ofNat 0 = Float.ofNat n := by
  rcases Nat.eq_zero_or_pos n with rfl | h0
  · exact ⟨by rfl, by rfl⟩
  obtain ⟨m, j, hpos, hm, -, hj, hunpack⟩ := unpack_ofNat h0 hn
  have hzero : (Float.ofNat 0).toModel.unpack = .zero .positive := by rfl
  have hpack := unpack_pack hm hpos .positive (e := -j) (by omega) (by omega)
  constructor <;> refine eq_of_toModel_unpack (Eq.trans ?_ (hpack.trans hunpack.symm))
  · change (Float.Model.pack (UnpackedFloat.add .binary64 (Float.ofNat 0).toModel.unpack
      (Float.ofNat n).toModel.unpack)).unpack = _
    rw [hzero, hunpack]
    rfl
  · change (Float.Model.pack (UnpackedFloat.add .binary64 (Float.ofNat n).toModel.unpack
      (Float.ofNat 0).toModel.unpack)).unpack = _
    rw [hzero, hunpack]
    rfl

/-- **A sum of whole numbers is not rounded** in the exact range. -/
theorem ofNat_add_ofNat {a b : Nat} (h : a + b < 2 ^ 53) :
    Float.ofNat a + Float.ofNat b = Float.ofNat (a + b) := by
  rcases Nat.eq_zero_or_pos a with rfl | ha
  · rw [(zero_add_ofNat (by omega)).1, Nat.zero_add]
  rcases Nat.eq_zero_or_pos b with rfl | hb
  · rw [(zero_add_ofNat (by omega)).2, Nat.add_zero]
  obtain ⟨m, i, hpos, hm, hma, hi, hunpack⟩ := unpack_ofNat ha (by omega)
  obtain ⟨n, j, hpos', hn, hnb, hj, hunpack'⟩ := unpack_ofNat hb (by omega)
  obtain ⟨r, l, hposr, hr, hrab, hl, hunpackr⟩ := unpack_ofNat (by omega : 0 < a + b) h
  -- the sum is not less than its parts, so it is shifted no farther than they are
  have hli : l ≤ i := by
    by_contra hlt
    have hpow : 2 ^ (i + 1) ≤ 2 ^ l := Nat.pow_le_pow_right two_pos (by omega)
    have hmul : a * 2 ^ (i + 1) ≤ (a + b) * 2 ^ l := Nat.mul_le_mul (by omega) hpow
    have hlow := hm.1
    have hhigh := hr.2
    rw [Nat.pow_succ, ← Nat.mul_assoc] at hmul
    omega
  obtain ⟨k, hk⟩ : ∃ k, max i j = l + k := ⟨max i j - l, by omega⟩
  have hmantissa : m <<< (max i j - i) + n <<< (max i j - j) = r * 2 ^ k := by
    rw [Nat.shiftLeft_eq, Nat.shiftLeft_eq, hma, hnb, hrab, Nat.mul_assoc, Nat.mul_assoc,
      Nat.mul_assoc, ← Nat.pow_add, ← Nat.pow_add, ← Nat.pow_add, Nat.add_sub_cancel' (by omega),
      Nat.add_sub_cancel' (by omega), hk, Nat.add_mul]
  have hexponent : min (-i : Int) (-j) = -(max i j : Nat) := by omega
  have hadd : (Float.ofNat a + Float.ofNat b).toModel =
      Float.Model.pack (.finite .positive r (-l) hposr) := by
    change Float.Model.pack (UnpackedFloat.add .binary64 (Float.ofNat a).toModel.unpack
      (Float.ofNat b).toModel.unpack) = _
    rw [hunpack, hunpack', UnpackedFloat.add]
    simp only [decreaseExponent, Sign.apply]
    rw [hexponent, show (-(i : Int) - -(max i j : Nat)).toNat = max i j - i by omega,
      show (-(j : Int) - -(max i j : Nat)).toNat = max i j - j by omega, ← Nat.cast_add, hmantissa,
      normalize_exact hr hposr k (by omega)]
    congr 2
    omega
  refine eq_of_toModel_unpack ?_
  rw [hadd, unpack_pack hr hposr .positive (by omega) (by omega), hunpackr]

theorem foldl_add_ofNat {ks : List Nat} {a : Nat} (h : a + ks.sum < 2 ^ 53) :
    ks.foldl (fun sum k => sum + Float.ofNat k) (Float.ofNat a) = Float.ofNat (a + ks.sum) := by
  induction ks generalizing a with
  | nil => rfl
  | cons k ks ih =>
    rw [List.sum_cons, ← Nat.add_assoc] at h ⊢
    rw [List.foldl_cons, ofNat_add_ofNat (by omega), ih h]

/-! ## Quotients -/

/-- A quotient of full mantissas, before it is rounded. -/
theorem toModel_div {x y : Float} {m n : Nat} {e f : Int} {hpos : 0 < m} {hpos' : 0 < n}
    (hm : IsFull m) (hn : IsFull n) (he : -1000 ≤ e - f)
    (hx : x.toModel.unpack = .finite .positive m e hpos)
    (hy : y.toModel.unpack = .finite .positive n f hpos') :
    (x / y).toModel = Float.Model.pack (roundWithAccuracy .binary64 .positive (m * 2 ^ 53 / n)
      (e - f - 53) (accuracyOfFraction (m * 2 ^ 53 % n) n)) := by
  have hlog {m : Nat} (hm : IsFull m) : m.log2 = 52 := by simpa using log2_mul_pow hm 0
  have htarget : Format.targetExponent .binary64 (totalExponent m e - totalExponent n f) =
      e - f - 53 := by
    rw [totalExponent, totalExponent, hlog hm, hlog hn]
    simp only [Format.targetExponent, Format.mantissaBits, Format.minExponent]
    norm_num
    omega
  have hshift : (e - f - min (e - f) (e - f - 53)).toNat = 53 := by omega
  change Float.Model.pack (UnpackedFloat.div .binary64 x.toModel.unpack y.toModel.unpack) = _
  rw [hx, hy, UnpackedFloat.div, divCore, htarget, hshift, Nat.shiftLeft_eq,
    min_eq_right (by omega)]
  rfl

/-- One full mantissa is less than twice another, so their quotient has one bit to spare at most. -/
theorem log2_quotient {m n : Nat} (hm : IsFull m) (hn : IsFull n) :
    52 ≤ (m * 2 ^ 53 / n).log2 ∧ (m * 2 ^ 53 / n).log2 ≤ 53 := by
  obtain ⟨hmlow, hmhigh⟩ := hm
  obtain ⟨hnlow, hnhigh⟩ := hn
  have hlow : 2 ^ 52 ≤ m * 2 ^ 53 / n := by
    rw [Nat.le_div_iff_mul_le (by omega)]
    omega
  have hhigh : m * 2 ^ 53 / n < 2 ^ 54 := by
    rw [Nat.div_lt_iff_lt_mul (by omega)]
    omega
  have hne : m * 2 ^ 53 / n ≠ 0 := by omega
  exact ⟨(Nat.le_log2 hne).mpr hlow, Nat.le_of_lt_succ ((Nat.log2_lt hne).mpr hhigh)⟩

/-- **A quotient of whole numbers is rounded as the number that it is.** -/
theorem roundsTo_div {a b : Nat} (ha : 0 < a) (ha' : a < 2 ^ 53) (hb : 0 < b) (hb' : b < 2 ^ 53) :
    RoundsTo (a / b) (Float.ofNat a / Float.ofNat b) := by
  obtain ⟨m, i, hpos, hm, hma, hi, hunpack⟩ := unpack_ofNat ha ha'
  obtain ⟨n, j, hpos', hn, hnb, hj, hunpack'⟩ := unpack_ofNat hb hb'
  obtain ⟨hlow, hhigh⟩ := log2_quotient hm hn
  obtain ⟨t, ht⟩ : ∃ t, (m * 2 ^ 53 / n).log2 - 52 = t := ⟨_, rfl⟩
  obtain ⟨k, hk⟩ : ∃ k, i + 53 = k + t + j := ⟨i + 53 - t - j, by omega⟩
  obtain ⟨r, l, hposr, hr, hl, hrounded, hround⟩ := roundWithAccuracy_full hlow
    (-i - -j - 53 : Int) (accuracyOfFraction (m * 2 ^ 53 % n) n) (by omega)
  have hfull := isFull_div hlow
  have hrepresents := (represents_div (m * 2 ^ 53) hpos').shiftRight t
  have hquotient := toModel_div hm hn (by omega) hunpack hunpack'
  rw [ht] at hrounded hfull
  rw [hround, ht] at hquotient
  rw [← mantissa_ofMantissaAndAccuracy (m * 2 ^ 53 / n)
    (accuracyOfFraction (m * 2 ^ 53 % n) n), ← mantissa_shiftRight] at hfull
  refine ⟨_, k, hfull, ?_, r, l - k, hposr, hr, ?_, ?_⟩
  · convert hrepresents using 1
    have hpow : (2 : ℚ) ^ i * 2 ^ 53 = 2 ^ k * 2 ^ t * 2 ^ j := by
      rw [← pow_add, ← pow_add, ← pow_add, hk]
    have hbne : (b : ℚ) ≠ 0 := by exact_mod_cast hb.ne'
    simp only [hma, hnb, Nat.cast_mul, Nat.cast_pow, Nat.cast_ofNat, mul_assoc (a : ℚ), hpow]
    field_simp
  · rw [hquotient, unpack_pack hr hposr .positive (by omega) (by omega)]
    congr 1
    omega
  · rw [hrounded, zpow_sub₀ two_ne_zero]
    push_cast
    rw [zpow_natCast, zpow_natCast, mul_div_assoc]

theorem unpack_zero_div {b : Nat} (h0 : 0 < b) (hb : b < 2 ^ 53) :
    (Float.ofNat 0 / Float.ofNat b).toModel.unpack = .zero .positive := by
  obtain ⟨m, j, hpos, -, -, -, hunpack⟩ := unpack_ofNat h0 hb
  have hzero : (Float.ofNat 0).toModel.unpack = .zero .positive := by rfl
  change (Float.Model.pack (UnpackedFloat.div .binary64 (Float.ofNat 0).toModel.unpack
    (Float.ofNat b).toModel.unpack)).unpack = _
  rw [hzero, hunpack, UnpackedFloat.div]
  change (Float.Model.pack (.zero .positive)).unpack = _
  rw [← hzero]
  rfl

/-- **Quotients of whole numbers compare as they are**, if a lesser one is not too near to a greater
one. -/
theorem div_le_div_iff {a b c e : Nat} (ha : a < 2 ^ 53) (hb0 : 0 < b) (hb : b < 2 ^ 53)
    (hc : c < 2 ^ 53) (he0 : 0 < e) (he : e < 2 ^ 53)
    (hapart : c * b < a * e → (c / e + a / b : ℚ) < (a / b - c / e) * 2 ^ 52) :
    Float.ofNat a / Float.ofNat b ≤ Float.ofNat c / Float.ofNat e ↔ a * e ≤ c * b := by
  rcases Nat.eq_zero_or_pos a with rfl | ha0
  · refine iff_of_true ?_ (by rw [Nat.zero_mul]; exact Nat.zero_le _)
    rcases Nat.eq_zero_or_pos c with rfl | hc0
    · rw [le_iff_rank?_toModel, unpack_zero_div hb0 hb, unpack_zero_div he0 he]
      exact ⟨_, _, rfl, rfl, le_rfl⟩
    · obtain ⟨v, hv, -⟩ := (roundsTo_div hc0 hc he0 he).exists_value
      exact (hv.zero_lt (unpack_zero_div hb0 hb)).1
  have hleft := roundsTo_div ha0 ha hb0 hb
  rcases Nat.eq_zero_or_pos c with rfl | hc0
  · obtain ⟨v, hv, -⟩ := hleft.exists_value
    refine iff_of_false (hv.zero_lt (unpack_zero_div he0 he)).2 ?_
    rw [Nat.zero_mul, not_le]
    positivity
  have hright := roundsTo_div hc0 hc he0 he
  constructor
  · intro hle
    by_contra hlt
    exact hright.lt_of_lt hleft (hapart (not_le.mp hlt)) hle
  · intro hle
    refine hleft.le_of_le hright ?_
    rw [div_le_div_iff₀ (by exact_mod_cast hb0) (by exact_mod_cast he0)]
    exact_mod_cast hle

end Diagram.Binary
