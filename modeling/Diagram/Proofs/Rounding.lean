import Diagram.Number.Binary
import Mathlib

/-!
# Rounding whole numbers

The floating-point number nearest to a whole number.  Up to `2 ^ 53` it is exact, and
beyond that it is a full mantissa times a positive power of two, so it is again a whole
number and is represented exactly.
-/

namespace Diagram.Binary

open Float.Model Float.Model.UnpackedFloat

/-! ## Shifting -/

/-- A mantissa of full width. -/
def IsFull (m : Nat) : Prop := 2 ^ 52 ≤ m ∧ m < 2 ^ 53

/-- The bits of a full mantissa times a power of two. -/
theorem log2_mul_pow {m : Nat} (h : IsFull m) (k : Nat) : (m * 2 ^ k).log2 = 52 + k := by
  obtain ⟨hlow, hhigh⟩ := h
  have hpos : 0 < 2 ^ k := by positivity
  have hne : m * 2 ^ k ≠ 0 := by
    have : 0 < m := by omega
    positivity
  rw [Nat.log2_eq_iff hne]
  constructor
  · rw [Nat.pow_add]
    exact Nat.mul_le_mul_right _ hlow
  · rw [show 52 + k + 1 = 53 + k by omega, Nat.pow_add]
    exact Nat.mul_lt_mul_of_pos_right hhigh hpos

/-- Shifting out zeros loses nothing. -/
theorem shiftRight_exact (m k : Nat) :
    (ExtendedMantissa.mk (m * 2 ^ k) false false) >>> k = ⟨m, false, false⟩ := by
  change Nat.repeat ExtendedMantissa.shiftRightOne k _ = _
  induction k generalizing m with
  | zero => simp [Nat.repeat]
  | succ k ih =>
    have hm : m * 2 ^ (k + 1) = (m * 2) * 2 ^ k := by ring
    rw [Nat.repeat, hm, ih (m * 2)]
    simp [ExtendedMantissa.shiftRightOne]

/-- Above the least exponent a number is shifted to full width. -/
theorem targetExponent_eq {m : Nat} {e t : Int} (ht : t = e + m.log2 - 52) (hlow : -1074 ≤ t) :
    Format.targetExponent .binary64 (totalExponent m e) = t := by
  rw [totalExponent]
  simp only [Format.targetExponent, Format.mantissaBits, Format.minExponent]
  norm_num
  omega

/-- A full mantissa times a power of two is shifted to the full mantissa. -/
theorem shiftToTargetExponent_exact {m : Nat} (h : IsFull m) (k : Nat) (e : Int)
    (he : -1074 ≤ e + k) :
    shiftToTargetExponent .binary64 (m * 2 ^ k) e .exact = (⟨m, false, false⟩, e + k) := by
  have hlog := log2_mul_pow h k
  have htarget : Format.targetExponent .binary64 (totalExponent (m * 2 ^ k) e) = e + k :=
    targetExponent_eq (by omega) he
  have hshift : (e + k - e).toNat = k := by omega
  rw [shiftToTargetExponent, htarget, shiftToExponent, hshift]
  rw [ExtendedMantissa.ofMantissaAndAccuracy, shiftRight_exact]

/-- A full mantissa times a power of two is not rounded. -/
theorem roundWithAccuracy_exact {m : Nat} (h : IsFull m) (hpos : 0 < m) (k : Nat) (s : Sign)
    (e : Int) (he : -1074 ≤ e + k) :
    roundWithAccuracy .binary64 s (m * 2 ^ k) e .exact = .finite s m (e + k) hpos := by
  have hagain := shiftToTargetExponent_exact h 0 (e + k) (by simpa using he)
  rw [Nat.pow_zero, Nat.mul_one] at hagain
  rw [roundWithAccuracy]
  simp only [shiftToTargetExponent_exact h k e he]
  simp only [ExtendedMantissa.roundedMantissa, ExtendedMantissa.accuracy,
    Accuracy.roundToNearestEven, hagain]
  simp [hpos.ne']

/-- Shifting divides the mantissa. -/
@[simp] theorem mantissa_shiftRight (em : ExtendedMantissa) (k : Nat) :
    (em >>> k).mantissa = em.mantissa / 2 ^ k := by
  change (Nat.repeat ExtendedMantissa.shiftRightOne k em).mantissa = _
  induction k with
  | zero => simp [Nat.repeat]
  | succ k ih =>
    rw [Nat.repeat, ExtendedMantissa.shiftRightOne, ih, Nat.div_div_eq_div_mul, Nat.pow_succ]

@[simp] theorem mantissa_ofMantissaAndAccuracy (m : Nat) (acc : Accuracy) :
    (ExtendedMantissa.ofMantissaAndAccuracy m acc).mantissa = m := by
  rcases acc with _ | (_ | _ | _) <;> rfl

/-- Rounding adds at most one. -/
theorem roundedMantissa_bounds (em : ExtendedMantissa) :
    em.mantissa ≤ em.roundedMantissa ∧ em.roundedMantissa ≤ em.mantissa + 1 := by
  obtain ⟨m, r, s⟩ := em
  cases r <;> cases s <;>
    simp only [ExtendedMantissa.roundedMantissa, ExtendedMantissa.accuracy,
      Accuracy.roundToNearestEven] <;> omega

/-- The leading bits of a number of full width. -/
theorem isFull_div {M : Nat} (hM : 52 ≤ M.log2) : IsFull (M / 2 ^ (M.log2 - 52)) := by
  have hne : M ≠ 0 := by
    rintro rfl
    simp at hM
  constructor
  · rw [Nat.le_div_iff_mul_le (by positivity), ← Nat.pow_add, Nat.add_sub_cancel' hM]
    exact Nat.log2_self_le hne
  · rw [Nat.div_lt_iff_lt_mul (by positivity), ← Nat.pow_add,
      show 53 + (M.log2 - 52) = M.log2 + 1 by omega]
    exact Nat.lt_log2_self

/-- A number of less than full width, shifted to it. -/
theorem isFull_mul {n : Nat} (h0 : 0 < n) (hn : n.log2 ≤ 52) :
    IsFull (n * 2 ^ (52 - n.log2)) := by
  have hlow := Nat.mul_le_mul_right (2 ^ (52 - n.log2)) (Nat.log2_self_le h0.ne')
  have hhigh := Nat.mul_lt_mul_of_pos_right (Nat.lt_log2_self (n := n))
    (show 0 < 2 ^ (52 - n.log2) by positivity)
  rw [← Nat.pow_add] at hlow hhigh
  rw [show n.log2 + (52 - n.log2) = 52 by omega] at hlow
  rw [show n.log2 + 1 + (52 - n.log2) = 53 by omega] at hhigh
  exact ⟨hlow, hhigh⟩

/-- A number of full width is rounded to a full mantissa, at its own place or one place higher,
whatever is known of the digits behind it and whatever its sign. -/
theorem roundWithAccuracy_full {M : Nat} (hM : 52 ≤ M.log2) (e : Int) (acc : Accuracy)
    (he : -1074 ≤ e + (M.log2 - 52 : Nat)) :
    ∃ (m : Nat) (k : Nat) (hpos : 0 < m), IsFull m ∧ k ≤ 1 ∧
      (ExtendedMantissa.ofMantissaAndAccuracy M acc >>> (M.log2 - 52)).roundedMantissa =
        m * 2 ^ k ∧
      ∀ s, roundWithAccuracy .binary64 s M e acc =
        .finite s m (e + (M.log2 - 52 : Nat) + k) hpos := by
  have htarget : Format.targetExponent .binary64 (totalExponent M e) = e + (M.log2 - 52 : Nat) :=
    targetExponent_eq (by omega) he
  have hshift : (e + (M.log2 - 52 : Nat) - e).toNat = M.log2 - 52 := by omega
  obtain ⟨hlow, hhigh⟩ := isFull_div hM
  have hfirst : shiftToTargetExponent .binary64 M e acc =
      (ExtendedMantissa.ofMantissaAndAccuracy M acc >>> (M.log2 - 52),
        e + (M.log2 - 52 : Nat)) := by
    rw [shiftToTargetExponent, htarget, shiftToExponent, hshift]
  have hmantissa : (ExtendedMantissa.ofMantissaAndAccuracy M acc >>> (M.log2 - 52)).mantissa =
      M / 2 ^ (M.log2 - 52) := by
    rw [mantissa_shiftRight, mantissa_ofMantissaAndAccuracy]
  have hround :=
    roundedMantissa_bounds (ExtendedMantissa.ofMantissaAndAccuracy M acc >>> (M.log2 - 52))
  generalize ExtendedMantissa.ofMantissaAndAccuracy M acc >>> (M.log2 - 52) = em
    at hfirst hmantissa hround
  rw [hmantissa] at hround
  -- the rounded mantissa is full, or it is the next power of two
  obtain ⟨m, k, hm, hk, hr⟩ : ∃ m k, IsFull m ∧ k ≤ 1 ∧ em.roundedMantissa = m * 2 ^ k := by
    by_cases hcarry : em.roundedMantissa = 2 ^ 53
    · exact ⟨2 ^ 52, 1, ⟨by omega, by omega⟩, by omega, by omega⟩
    · exact ⟨em.roundedMantissa, 0, ⟨by omega, by omega⟩, by omega, by simp⟩
  have hpos : 0 < m := by
    have := hm.1
    omega
  have hagain := shiftToTargetExponent_exact hm k (e + (M.log2 - 52 : Nat)) (by omega)
  refine ⟨m, k, hpos, hm, hk, hr, fun s => ?_⟩
  rw [roundWithAccuracy]
  simp only [hfirst, hr, hagain]
  simp [hpos.ne']

/-! ## Packing -/

theorem toNat_one_append (m : BitVec 52) : (1#1 ++ m).toNat = 2 ^ 52 + m.toNat := by
  rw [BitVec.toNat_append, ← Nat.shiftLeft_add_eq_or_of_lt m.isLt]
  simp [Nat.shiftLeft_eq]

/-- What a finite number is packed to, by the size of its exponent. -/
theorem pack_finite (s : Sign) (m : Nat) (e : Int) (hpos : 0 < m) :
    UnpackedFloat.pack .binary64 (.finite s m e hpos) =
      if 2 ^ 11 ≤ (e + 1023 + 52).toNat + 1 then packedInfinity .binary64 s
      else if m.log2 + 1 = 53 then
        packComponents .binary64 s (BitVec.ofNat 11 (e + 1023 + 52).toNat) (BitVec.ofNat 52 m)
      else packComponents .binary64 s 0#11 (BitVec.ofNat 52 m) := rfl

/-- A number between the least and the greatest exponent has a leading bit of its own. -/
theorem unpack_packComponents {m b : Nat} (h : IsFull m) (hpos : 0 < m) (s : Sign) (hb : 0 < b)
    (hb' : b < 2047) :
    UnpackedFloat.unpack .binary64
        (packComponents .binary64 s (BitVec.ofNat 11 b) (BitVec.ofNat 52 m)) =
      .finite s m (b - 1075) hpos := by
  obtain ⟨hm, hm'⟩ := h
  have hbits : (BitVec.ofNat 11 b).toNat = b := by
    rw [BitVec.toNat_ofNat, Nat.mod_eq_of_lt (by omega)]
  have hmant : (1#1 ++ BitVec.ofNat 52 m).toNat = m := by
    rw [toNat_one_append, BitVec.toNat_ofNat]
    omega
  have hne : ∀ c : BitVec 11, c.toNat = 0 ∨ c.toNat = 2047 → BitVec.ofNat 11 b ≠ c := by
    rintro c hc rfl
    rw [hbits] at hc
    omega
  rw [UnpackedFloat.unpack]
  simp only [unpackMantissa_packComponents, unpackExponent_packComponents,
    unpackSign_packComponents, Sign.ofBitVec_toBitVec]
  rw [if_neg (hne _ (.inr rfl)), if_neg (hne _ (.inl rfl))]
  simp only [hbits, hmant]
  rfl

/-- **A full mantissa is unpacked as it was packed.** -/
theorem unpack_pack {m : Nat} (h : IsFull m) (hpos : 0 < m) (s : Sign) {e : Int}
    (hlow : -1074 ≤ e) (hhigh : e ≤ 971) :
    (Float.Model.pack (.finite s m e hpos)).unpack = .finite s m e hpos := by
  have hlog : m.log2 + 1 = 53 := by
    rw [(Nat.log2_eq_iff hpos.ne').mpr h]
  obtain ⟨b, hb⟩ : ∃ b : Nat, (b : Int) = e + 1075 := ⟨(e + 1075).toNat, by omega⟩
  have hexp : (e + 1023 + 52).toNat = b := by omega
  change UnpackedFloat.unpack .binary64 (UnpackedFloat.pack .binary64 (.finite s m e hpos)) = _
  rw [pack_finite, hexp, if_neg (by omega), if_pos hlog,
    unpack_packComponents h hpos s (by omega) (by omega)]
  congr 1
  omega

/-- Beyond the greatest exponent lies infinity. -/
theorem unpack_pack_overflow {m : Nat} (hpos : 0 < m) (s : Sign) {e : Int} (h : 972 ≤ e) :
    (Float.Model.pack (.finite s m e hpos)).unpack = .infinity s := by
  change UnpackedFloat.unpack .binary64 (UnpackedFloat.pack .binary64 (.finite s m e hpos)) = _
  rw [pack_finite, if_pos (by omega), UnpackedFloat.unpack, packedInfinity]
  simp only [unpackMantissa_packComponents, unpackExponent_packComponents,
    unpackSign_packComponents, Sign.ofBitVec_toBitVec]
  rfl

/-- The exponent of a finite number is not the greatest one, and its mantissa is full unless
the exponent is the least one. -/
theorem unpack_finite {x : Float.Model} {s : Sign} {m : Nat} {e : Int} {hpos : 0 < m}
    (h : x.unpack = .finite s m e hpos) :
    ∃ (c : BitVec 11) (d : BitVec 52), c.toNat ≤ 2046 ∧
      (c.toNat = 0 ∧ m = d.toNat ∧ e = -1074 ∨
        0 < c.toNat ∧ m = 2 ^ 52 + d.toNat ∧ e = c.toNat - 1075) := by
  have hbias : ((Format.binary64.exponentBias : Nat) : Int) + ((52 : Nat) : Int) = 1075 := rfl
  have hlt := (@unpackExponent .binary64 x.toBits.toBitVec).isLt
  rw [Float.Model.unpack, UnpackedFloat.unpack] at h
  simp only at h hlt
  -- The exponent is all ones for what is not finite, and zero for the subnormal numbers.
  split at h
  · split at h <;> cases h
  · next hones =>
    have hc : (@unpackExponent .binary64 x.toBits.toBitVec).toNat ≤ 2046 := by
      have hne : (@unpackExponent .binary64 x.toBits.toBitVec).toNat ≠ 2047 :=
        fun hc => hones (BitVec.eq_of_toNat_eq (by simpa using hc))
      omega
    split at h
    · next hzero =>
      split at h
      · cases h
      · have hc0 : (@unpackExponent .binary64 x.toBits.toBitVec).toNat = 0 := by rw [hzero]; rfl
        simp only [UnpackedFloat.finite.injEq] at h
        obtain ⟨rfl, rfl, rfl⟩ := h
        exact ⟨_, _, hc, .inl ⟨hc0, rfl, by omega⟩⟩
    · next hzero =>
      have hc0 : (@unpackExponent .binary64 x.toBits.toBitVec).toNat ≠ 0 :=
        fun hc => hzero (BitVec.eq_of_toNat_eq (by simpa using hc))
      simp only [UnpackedFloat.finite.injEq] at h
      obtain ⟨rfl, rfl, rfl⟩ := h
      exact ⟨_, _, hc, .inr ⟨by omega, toNat_one_append _, by omega⟩⟩

/-- Numbers that are unpacked to the same are the same. -/
theorem eq_of_unpack {x y : Float.Model} (h : x.unpack = y.unpack) : x = y := by
  have hbits : x.toBits.toBitVec = y.toBits.toBitVec := (unpack_inj_of_valid x.valid y.valid).mp h
  obtain ⟨⟨_⟩, _⟩ := x
  obtain ⟨⟨_⟩, _⟩ := y
  cases hbits
  rfl

/-- Floating-point numbers that are unpacked to the same are the same. -/
theorem eq_of_toModel_unpack {x y : Float} (h : x.toModel.unpack = y.toModel.unpack) : x = y :=
  congrArg Float.ofModel (eq_of_unpack h)

/-! ## Whole numbers -/

theorem ofScientific_eq {n : Nat} (hn : n ≠ 0) :
    UnpackedFloat.ofScientific .binary64 n 0 =
      roundWithAccuracy .binary64 .positive (n * 2 ^ 53) (-53) .exact := by
  have hbits : (2 ^ Format.binary64.exponentBits : Int) = 2048 := rfl
  have hlow : ¬ ((0 : Int) < -(2048 + (n.log2 : Int))) := by omega
  rw [UnpackedFloat.ofScientific, dif_neg hn, hbits, if_neg (by decide), if_neg hlow,
    if_pos (by decide), UnpackedFloat.mul]
  have hmul : n <<< Format.binary64.mantissaBits * 10 ^ (0 : Int).toNat = n * 2 ^ 53 := by
    rw [Nat.shiftLeft_eq]
    exact Nat.mul_one _
  rw [hmul]
  rfl

theorem ofNat_large {n : Nat} (hn : 2 ^ 53 ≤ n) :
    Float.ofNat n = Float.ofModel (Float.Model.ofScientific n 0) := by
  have hnot : ¬ (n < 2 ^ 53 ∧ 0 ≤ 22) := fun h => by omega
  unfold Float.ofNat
  change Float.ofScientific n false 0 = _
  unfold Float.ofScientific
  rw [dif_neg hnot]
  rfl

theorem toModel_ofNat_large {n : Nat} (hn : 2 ^ 53 ≤ n) : (Float.ofNat n).toModel =
    Float.Model.pack (roundWithAccuracy .binary64 .positive (n * 2 ^ 53) (-53) .exact) := by
  rw [ofNat_large hn]
  change Float.Model.pack (UnpackedFloat.ofScientific .binary64 n 0) = _
  rw [ofScientific_eq (by omega)]

/-- A whole number beyond the exact range becomes a full mantissa with a positive
exponent. -/
theorem exists_toModel_ofNat {n : Nat} (hn : 2 ^ 53 ≤ n) :
    ∃ (m k : Nat) (hpos : 0 < m), IsFull m ∧ 1 ≤ k ∧
      (Float.ofNat n).toModel = Float.Model.pack (.finite .positive m k hpos) := by
  have hne : n * 2 ^ 53 ≠ 0 := by omega
  have hlog : 106 ≤ (n * 2 ^ 53).log2 := by
    rw [Nat.le_log2 hne]
    omega
  obtain ⟨m, k, hpos, hm, -, -, hround⟩ :=
    roundWithAccuracy_full (M := n * 2 ^ 53) (by omega) (-53) .exact (by omega)
  refine ⟨m, (n * 2 ^ 53).log2 - 105 + k, hpos, hm, by omega, ?_⟩
  rw [toModel_ofNat_large hn, hround]
  congr 2
  omega

/-- A full mantissa times a power of two is represented exactly. -/
theorem toModel_ofNat_exact {m k : Nat} (hm : IsFull m) (hk : 1 ≤ k) (hpos : 0 < m) :
    (Float.ofNat (m * 2 ^ k)).toModel = Float.Model.pack (.finite .positive m k hpos) := by
  have hn : 2 ^ 53 ≤ m * 2 ^ k := by
    calc 2 ^ 53 = 2 ^ 52 * 2 ^ 1 := by norm_num
      _ ≤ m * 2 ^ k := Nat.mul_le_mul hm.1 (Nat.pow_le_pow_right (by norm_num) hk)
  rw [toModel_ofNat_large hn, Nat.mul_assoc, ← Nat.pow_add,
    roundWithAccuracy_exact hm hpos (k + 53) .positive (-53) (by push_cast; omega)]
  congr 2
  push_cast
  omega

/-- A whole number of the exact range is converted by widening its bits. -/
theorem toModel_toFloat {n : Nat} (h0 : 0 < n) (hn : n < 2 ^ 53) :
    ∃ (m j : Nat) (hpos : 0 < m), IsFull m ∧ m = n * 2 ^ j ∧ j ≤ 52 ∧
      (n.toUInt64.toFloat).toModel = Float.Model.pack (.finite .positive m (-j) hpos) := by
  -- The bits are shifted until there are 53 of them, which loses nothing.
  have hlog : n.log2 < 53 := (Nat.log2_lt h0.ne').mpr hn
  have hfull : IsFull (n * 2 ^ (52 - n.log2)) := isFull_mul h0 (by omega)
  have hpos : 0 < n * 2 ^ (52 - n.log2) := by positivity
  refine ⟨n * 2 ^ (52 - n.log2), 52 - n.log2, hpos, hfull, rfl, by omega, ?_⟩
  have hword : n.toUInt64.toNat = n := by
    change n % 2 ^ 64 = n
    omega
  have htarget : Format.targetExponent .binary64 (totalExponent n 0) =
      -((52 - n.log2 : Nat) : Int) :=
    targetExponent_eq (by omega) (by omega)
  have hshift : (0 - -((52 - n.log2 : Nat) : Int)).toNat = 52 - n.log2 := by omega
  change Float.Model.pack (UnpackedFloat.ofNat .binary64 n.toUInt64.toNat) = _
  rw [hword]
  congr 1
  have hcompare : compare (n : Int) 0 = .gt := by
    rw [compare_gt_iff_gt]
    exact_mod_cast h0
  rw [UnpackedFloat.ofNat, UnpackedFloat.ofInt, UnpackedFloat.normalize, hcompare]
  simp only [UnpackedFloat.round, Int.toNat_natCast, htarget, decreaseExponent, hshift,
    Nat.shiftLeft_eq]
  have hexact := roundWithAccuracy_exact hfull hpos 0 .positive (-((52 - n.log2 : Nat) : Int))
    (by omega)
  rw [Nat.pow_zero, Nat.mul_one] at hexact
  rw [show (0 : Int) - ((52 - n.log2 : Nat) : Int) = -((52 - n.log2 : Nat) : Int) by omega, hexact]
  congr 1
  omega

theorem unpack_one : (Float.ofBits 0x3FF0000000000000).toModel.unpack =
    .finite .positive (2 ^ 52) (-52) (by decide) := by
  rfl

/-- A whole number of the exact range, on a full mantissa. -/
theorem toModel_ofNat_small {n : Nat} (h0 : 0 < n) (hn : n < 2 ^ 53) :
    ∃ (m j : Nat) (hpos : 0 < m), IsFull m ∧ m = n * 2 ^ j ∧ j ≤ 52 ∧
      (Float.ofNat n).toModel = Float.Model.pack (.finite .positive m (-j) hpos) := by
  obtain ⟨m, j, hpos, hm, hmn, hj, hword⟩ := toModel_toFloat h0 hn
  refine ⟨m, j, hpos, hm, hmn, hj, ?_⟩
  have hfast : Float.ofNat n = n.toUInt64.toFloat * Float.ofBits 0x3FF0000000000000 := by
    unfold Float.ofNat
    change Float.ofScientific n false 0 = _
    unfold Float.ofScientific
    rw [dif_pos ⟨hn, by decide⟩]
    rfl
  rw [hfast]
  change Float.Model.pack (UnpackedFloat.mul .binary64 (n.toUInt64.toFloat).toModel.unpack
    (Float.ofBits 0x3FF0000000000000).toModel.unpack) = _
  rw [hword, unpack_pack hm hpos .positive (by omega) (by omega), unpack_one, UnpackedFloat.mul]
  have hexact := roundWithAccuracy_exact hm hpos 52 (.positive * .positive) (-(j : Int) + -52)
    (by push_cast; omega)
  rw [hexact]
  congr 2
  push_cast
  omega

/-! ## Comparison -/

/-- Where a floating-point number stands among the others: by its sign first, then by its exponent
and its mantissa, both of which count downwards below zero. -/
def rank? : UnpackedFloat → Option (Int ×ₗ Int ×ₗ Int)
  | .notANumber => none
  | .infinity .negative => some (toLex (-2, toLex (0, 0)))
  | .finite .negative m e _ => some (toLex (-1, toLex (-e, -m)))
  | .zero _ => some (toLex (0, toLex (0, 0)))
  | .finite .positive m e _ => some (toLex (1, toLex (e, m)))
  | .infinity .positive => some (toLex (2, toLex (0, 0)))

theorem isLE_compare_sign (s t : Sign) :
    (compare s t).isLE ↔ s = .negative ∨ t = .positive := by
  cases s with
  | negative => exact iff_of_true (by cases t <;> rfl) (.inl rfl)
  | positive =>
    cases t with
    | negative => exact iff_of_false (by decide) nofun
    | positive => exact iff_of_true rfl (.inr rfl)

theorem isLE_then_iff (m n : Nat) (e f : Int) :
    ((compare e f).then (compare m n)).isLE ↔ e < f ∨ e = f ∧ m ≤ n := by
  rw [Ordering.isLE_then_iff_or, Int.compare_eq_lt, Int.compare_eq_eq, Nat.isLE_compare]

theorem isGE_then_iff (m n : Nat) (e f : Int) :
    ((compare e f).then (compare m n)).isGE ↔ f < e ∨ e = f ∧ n ≤ m := by
  rw [← Ordering.isLE_swap, Ordering.swap_then, Int.compare_swap, Nat.compare_swap, isLE_then_iff,
    eq_comm]

/-- Floating-point numbers compare as their ranks do, and what has no rank does not compare. -/
theorem le_iff_rank? (x y : UnpackedFloat) :
    x.le y = true ↔ ∃ a b, rank? x = some a ∧ rank? y = some b ∧ a ≤ b := by
  -- Nothing but kinds and signs matters, unless both are finite and of one sign.
  rcases x with (_ | _) | _ | _ | ⟨_ | _, m, e, -⟩ <;>
    rcases y with (_ | _) | _ | _ | ⟨_ | _, n, f, -⟩ <;>
      simp [UnpackedFloat.le, UnpackedFloat.compare, rank?, Prod.Lex.le_iff, isLE_compare_sign,
        isLE_then_iff, isGE_then_iff]

theorem decide_le (v w : Float) : decide (v ≤ w) = v.toModel.unpack.le w.toModel.unpack := by
  rw [Bool.eq_iff_iff, decide_eq_true_iff]
  change decide (v.toModel ≤ w.toModel) = true ↔ _
  rw [decide_eq_true_iff]
  exact Iff.rfl

theorem le_iff_rank?_toModel (a b : Float) : a ≤ b ↔
    ∃ i j, rank? a.toModel.unpack = some i ∧ rank? b.toModel.unpack = some j ∧ i ≤ j := by
  rw [← le_iff_rank?, ← decide_le, decide_eq_true_iff]

end Diagram.Binary
