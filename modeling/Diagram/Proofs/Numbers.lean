import Diagram.Document.Merge
import Diagram.Proofs.Lexeme
import Diagram.Proofs.Rounding

/-!
# Written numbers

A number is written as the nearest whole number of 64 bits.  Read back, it is the same
number exactly when it is a whole number of at most `2 ^ 63`, and what is read back is
always written the same again.

## Main definitions

* `Scalar.reread` — what a number is read back as.
* `Scalar.unsigned` — a number, with the sign of a zero forgotten.

## Main statements

* `numberText_reread` — a number that was read back is written as before.
* `reread_of_whole` — a whole number of at most `2 ^ 53` is read back.
* `reread_scalar_iff` — the numbers of a text that are read back.
-/

namespace Diagram

open Syntax

/-! ## Signs -/

/-- The numeral of a whole number. -/
def Syntax.Numeral.ofInt (n : Int) : Numeral := ⟨n < 0, n.natAbs⟩

/-- The whole number of a numeral. -/
def Syntax.Numeral.value (n : Numeral) : Int := if n.negative then -n.magnitude else n.magnitude

@[simp] theorem value_ofInt (n : Int) : (Numeral.ofInt n).value = n := by
  simp only [Numeral.value, Numeral.ofInt, decide_eq_true_eq]
  split <;> omega

theorem natAbs_value (n : Numeral) : n.value.natAbs = n.magnitude := by
  rw [Numeral.value]
  split <;> omega

/-- Apart from zeros a whole number has one numeral. -/
theorem ofInt_value {n : Numeral} (h : 0 < n.magnitude) : Numeral.ofInt n.value = n := by
  obtain ⟨negative, m⟩ := n
  cases negative
  · simp [Numeral.ofInt, Numeral.value]
  · simp [Numeral.ofInt, Numeral.value]
    omega

/-- A whole number is written as its numeral. -/
theorem toString_eq_text (n : Int) : toString n = (Numeral.ofInt n).text := by
  apply String.toList_inj.mp
  rw [Int.toString_eq_repr]
  cases n with
  | ofNat m =>
    simp [Int.repr, Numeral.text, Numeral.ofInt, Decimal.digits, Nat.repr]
  | negSucc m =>
    simp [Int.repr, Numeral.text, Numeral.ofInt, Decimal.digits, Nat.repr]

section Reread

variable {α : Type} [Scalar α]

/-- A number, with the sign of a zero forgotten. -/
def Scalar.unsigned (v : α) : α := if same v zero then zero else v

/-- What a number is read back as from the text written for it. -/
def Scalar.reread (v : α) : α := (Numeral.ofInt (Style.clampWord (nearest v))).scalar

theorem numberText_eq (v : α) :
    Style.numberText v = (Numeral.ofInt (Style.clampWord (Scalar.nearest v))).text :=
  toString_eq_text _

end Reread

open Float.Model Float.Model.UnpackedFloat Binary

/-! ## Floating-point values -/

/-- The sign of a numeral. -/
def signOf (negative : Bool) : Sign := if negative then .negative else .positive

/-- The exact value behind a floating-point number. -/
theorem nearest_eq (x : Float) : Scalar.nearest x = (Binary.ofFloat x).nearest := rfl

theorem nearest_of_finite {x : Float} {s : Sign} {m : Nat} {e : Int} {hpos : 0 < m}
    (h : x.toModel.unpack = .finite s m e hpos) : Scalar.nearest x = s.apply (nearestNat m e) := by
  rw [nearest_eq, Binary.ofFloat, h]
  cases s <;> rfl

theorem nearest_of_infinity {x : Float} {s : Sign} (h : x.toModel.unpack = .infinity s) :
    Scalar.nearest x = s.apply overflow := by
  rw [nearest_eq, Binary.ofFloat, h]
  cases s <;> rfl

theorem nearest_of_zero {x : Float} {s : Sign} (h : x.toModel.unpack = .zero s) :
    Scalar.nearest x = 0 := by
  rw [nearest_eq, Binary.ofFloat, h]
  cases s <;> rfl

theorem scalar_eq (n : Numeral) : (n.scalar : Float) =
    if n.negative then -Float.ofNat n.magnitude else Float.ofNat n.magnitude := rfl

/-- A numeral is packed with its own sign. -/
theorem unpack_scalar {n : Numeral} {m : Nat} {e : Int} {hpos : 0 < m} (hm : IsFull m)
    (hlow : -1074 ≤ e)
    (h : (Float.ofNat n.magnitude).toModel = Float.Model.pack (.finite .positive m e hpos)) :
    (n.scalar : Float).toModel.unpack =
      if e ≤ 971 then .finite (signOf n.negative) m e hpos else .infinity (signOf n.negative) := by
  have hplain : (Float.ofNat n.magnitude).toModel.unpack =
      if e ≤ 971 then .finite .positive m e hpos else .infinity .positive := by
    rw [h]
    split
    · next he => exact unpack_pack hm hpos _ hlow he
    · next he => exact unpack_pack_overflow hpos _ (by omega)
  rw [scalar_eq]
  cases n.negative with
  | false => exact hplain
  | true =>
    change (Float.Model.pack (Float.ofNat n.magnitude).toModel.unpack.neg).unpack = _
    rw [hplain]
    split
    · next he => exact unpack_pack hm hpos _ hlow he
    · next he => rfl

/-- What a numeral is unpacked to: zero, an exact number, or a full mantissa times a
positive power of two. -/
theorem unpack_scalar_cases (n : Numeral) :
    (n.magnitude = 0 ∧ (n.scalar : Float).toModel.unpack = .zero (signOf n.negative)) ∨
      (∃ (j : Nat) (hpos : 0 < n.magnitude * 2 ^ j), 0 < n.magnitude ∧ n.magnitude < 2 ^ 53 ∧
        IsFull (n.magnitude * 2 ^ j) ∧ (n.scalar : Float).toModel.unpack =
          .finite (signOf n.negative) (n.magnitude * 2 ^ j) (-j) hpos) ∨
      (∃ (m k : Nat) (hpos : 0 < m), 2 ^ 53 ≤ n.magnitude ∧ IsFull m ∧ 1 ≤ k ∧
        (n.scalar : Float).toModel.unpack = .finite (signOf n.negative) m k hpos) ∨
      (2 ^ 53 ≤ n.magnitude ∧
        (n.scalar : Float).toModel.unpack = .infinity (signOf n.negative)) := by
  rcases Nat.eq_zero_or_pos n.magnitude with h0 | h0
  · left
    refine ⟨h0, ?_⟩
    rw [scalar_eq, h0]
    cases n.negative <;> rfl
  right
  rcases Nat.lt_or_ge n.magnitude (2 ^ 53) with hn | hn
  · left
    obtain ⟨m, j, hpos, hm, rfl, hj, hmodel⟩ := toModel_ofNat_small h0 hn
    refine ⟨j, hpos, h0, hn, hm, ?_⟩
    rw [unpack_scalar hm (by omega) hmodel, if_pos (by omega)]
  right
  obtain ⟨m, k, hpos, hm, hk, hmodel⟩ := exists_toModel_ofNat hn
  have hunpack := unpack_scalar hm (by omega) hmodel
  split at hunpack
  · exact .inl ⟨m, k, hpos, hn, hm, hk, hunpack⟩
  · exact .inr ⟨hn, hunpack⟩

theorem nearestNat_exact (n j : Nat) : nearestNat (n * 2 ^ j) (-(j : Int)) = n := by
  cases j with
  | zero => simp [nearestNat]
  | succ j =>
    change (n * 2 ^ (j + 1) + 1 <<< j) >>> (j + 1) = n
    rw [Nat.shiftLeft_eq, Nat.one_mul, Nat.shiftRight_eq_div_pow,
      Nat.mul_comm n, Nat.mul_add_div (by positivity)]
    have hlt : 2 ^ j < 2 ^ (j + 1) := Nat.pow_lt_pow_right (by decide) (by omega)
    rw [Nat.div_eq_of_lt hlt, Nat.add_zero]

theorem nearestNat_whole (m k : Nat) : nearestNat m k = m * 2 ^ k := Nat.shiftLeft_eq m k

/-- A full mantissa times a positive power of two is beyond the exact range. -/
theorem lt_mul_pow {m k : Nat} (hm : IsFull m) (hk : 1 ≤ k) : 2 ^ 53 ≤ m * 2 ^ k := by
  calc 2 ^ 53 = 2 ^ 52 * 2 ^ 1 := by norm_num
    _ ≤ m * 2 ^ k := Nat.mul_le_mul hm.1 (Nat.pow_le_pow_right (by norm_num) hk)

theorem apply_signOf (b : Bool) (n : Nat) : (signOf b).apply n = (Numeral.mk b n).value := by
  cases b <;> rfl

/-- A full mantissa times a power of two is exact. -/
theorem unpack_scalar_exact {n : Numeral} {m k : Nat} (hm : IsFull m) (hk : 1 ≤ k) (hmax : k ≤ 971)
    (hpos : 0 < m) (h : n.magnitude = m * 2 ^ k) :
    (n.scalar : Float).toModel.unpack = .finite (signOf n.negative) m k hpos := by
  have hmodel := toModel_ofNat_exact hm hk hpos
  rw [← h] at hmodel
  rw [unpack_scalar hm (by omega) hmodel, if_pos (by omega)]

theorem nearest_scalar_of_full {n : Numeral} {m k : Nat} (hm : IsFull m) (hk : 1 ≤ k)
    (hmax : k ≤ 971) (h : n.magnitude = m * 2 ^ k) :
    Scalar.nearest (n.scalar : Float) = n.value := by
  have hpos : 0 < m := Nat.lt_of_lt_of_le (by norm_num) hm.1
  rw [nearest_of_finite (unpack_scalar_exact hm hk hmax hpos h), nearestNat_whole, apply_signOf,
    ← h]

/-- **Up to `2 ^ 53` a numeral is exact.** -/
theorem nearest_scalar {n : Numeral} (h : n.magnitude ≤ 2 ^ 53) :
    Scalar.nearest (n.scalar : Float) = n.value := by
  rcases Nat.lt_or_eq_of_le h with hlt | heq
  · rcases unpack_scalar_cases n with ⟨h0, hu⟩ | ⟨j, hpos, -, -, -, hu⟩ | ⟨_, _, _, hn, -⟩ | ⟨hn, -⟩
    · rw [nearest_of_zero hu, Numeral.value, h0]
      simp
    · rw [nearest_of_finite hu, nearestNat_exact, apply_signOf]
    · omega
    · omega
  · have hm : IsFull (2 ^ 52) := ⟨Nat.le_refl _, by norm_num⟩
    have hexact : n.magnitude = 2 ^ 52 * 2 ^ 1 := by
      rw [heq]
      norm_num
    exact nearest_scalar_of_full hm (Nat.le_refl 1) (by norm_num) hexact

/-! ## Reading back -/

theorem clampWord_of_le {n : Int} (h : n.natAbs ≤ 2 ^ 53) : Style.clampWord n = n := by
  rw [Style.clampWord]
  omega

/-- A number near a whole number of the exact range is read back as that number. -/
theorem nearest_reread {v : Float} (h : (Scalar.nearest v).natAbs ≤ 2 ^ 53) :
    Scalar.nearest (Scalar.reread v) = Scalar.nearest v := by
  rw [Scalar.reread, clampWord_of_le h, nearest_scalar h, value_ofInt]

/-- A full mantissa times a positive power of two is the scalar of its own numeral. -/
theorem scalar_nearest {v : Float} {s : Sign} {m k : Nat} {hpos : 0 < m} (hm : IsFull m)
    (hk : 1 ≤ k) (h : v.toModel.unpack = .finite s m k hpos) :
    ((Numeral.ofInt (Scalar.nearest v)).scalar : Float) = v := by
  obtain ⟨c, d, hmax, hexp⟩ := unpack_finite h
  have hmax : k ≤ 971 := by omega
  have hlarge := lt_mul_pow hm hk
  have hnearest := nearest_of_finite h
  rw [nearestNat_whole] at hnearest
  have hmag : (Numeral.ofInt (Scalar.nearest v)).magnitude = m * 2 ^ k := by
    rw [hnearest]
    cases s <;> simp only [Numeral.ofInt, Sign.apply, Int.natAbs_neg, Int.natAbs_natCast]
  have hsign : signOf (Numeral.ofInt (Scalar.nearest v)).negative = s := by
    rw [hnearest]
    cases s
    · have : -((m * 2 ^ k : Nat) : Int) < 0 := by omega
      simp only [Numeral.ofInt, Sign.apply, this, decide_true]
      rfl
    · have : ¬ ((m * 2 ^ k : Nat) : Int) < 0 := by omega
      simp only [Numeral.ofInt, Sign.apply, this, decide_false]
      rfl
  have hunpack := unpack_scalar_exact hm hk hmax hpos hmag
  rw [hsign] at hunpack
  have hmodel := eq_of_unpack (hunpack.trans h.symm)
  exact congrArg Float.ofModel hmodel

/-- A sign changes no size. -/
theorem natAbs_apply (s : Sign) (n : Int) : (s.apply n).natAbs = n.natAbs := by
  cases s <;> simp [Sign.apply]

/-- Without a scale a mantissa is at most as large as the exact range. -/
theorem nearestNat_le {m : Nat} {e : Int} (hm : m < 2 ^ 53) (he : e ≤ 0) :
    nearestNat m e ≤ 2 ^ 53 := by
  cases e with
  | negSucc j =>
    change (m + 1 <<< j) >>> (j + 1) ≤ 2 ^ 53
    rw [Nat.shiftRight_eq_div_pow, Nat.shiftLeft_eq, Nat.one_mul]
    apply Nat.div_le_of_le_mul
    have hone : 1 ≤ 2 ^ j := Nat.one_le_two_pow
    rw [Nat.pow_succ]
    generalize 2 ^ j = p at hone ⊢
    omega
  | ofNat k =>
    obtain rfl : k = 0 := by
      rw [Int.ofNat_eq_natCast] at he
      omega
    change m <<< 0 ≤ 2 ^ 53
    rw [Nat.shiftLeft_zero]
    omega

/-- Where a number lies: near the exact range, or on a whole number beyond it, or beyond
all numbers. -/
theorem nearest_cases (v : Float) :
    (Scalar.nearest v).natAbs ≤ 2 ^ 53 ∨
      ((Numeral.ofInt (Scalar.nearest v)).scalar : Float) = v ∨
      2 ^ 63 < (Scalar.nearest v).natAbs := by
  cases hu : v.toModel.unpack with
  | notANumber =>
    left
    rw [nearest_eq, Binary.ofFloat, hu]
    decide
  | infinity s =>
    right; right
    rw [nearest_of_infinity hu, natAbs_apply]
    decide
  | zero s =>
    left
    rw [nearest_of_zero hu]
    decide
  | finite s m e hpos =>
    obtain ⟨c, d, hmax, hexp⟩ := unpack_finite hu
    have hd := d.isLt
    -- a number whose exponent is not positive is at most `2 ^ 53`, and any other one is whole
    by_cases he : e ≤ 0
    · left
      rw [nearest_of_finite hu, natAbs_apply, Int.natAbs_natCast]
      exact nearestNat_le (by omega) he
    · right; left
      obtain ⟨k, rfl⟩ : ∃ k : Nat, e = k := ⟨e.toNat, by omega⟩
      have hm : IsFull m := ⟨by omega, by omega⟩
      exact scalar_nearest hm (by omega) hu

theorem clampWord_cases (n : Int) : Style.clampWord n = n ∧ n.natAbs ≤ 2 ^ 63 ∨
    2 ^ 63 ≤ n ∧ Style.clampWord n = 2 ^ 63 - 1 ∨ n < -2 ^ 63 ∧ Style.clampWord n = -2 ^ 63 := by
  rw [Style.clampWord]
  omega

/-- The greatest number of 64 bits is read as the next power of two, and so is what is
written for it. -/
theorem scalar_greatest : ((Numeral.ofInt (2 ^ 63 - 1)).scalar : Float) =
    (Numeral.ofInt (2 ^ 63)).scalar := by
  decide +kernel

/-- The ends of the range are exact. -/
theorem nearest_of_natAbs {n : Int} (h : n.natAbs = 2 ^ 63) :
    Scalar.nearest ((Numeral.ofInt n).scalar : Float) = n := by
  have hexact : (Numeral.ofInt n).magnitude = 2 ^ 52 * 2 ^ 11 := by
    rw [Numeral.ofInt, h]
    norm_num
  rw [nearest_scalar_of_full ⟨Nat.le_refl _, by norm_num⟩ (by norm_num) (by norm_num) hexact,
    value_ofInt]

/-- A number beyond the range is read back as the end of the range. -/
theorem clampWord_reread_of_ne {v : Float}
    (h : Style.clampWord (Scalar.nearest v) ≠ Scalar.nearest v) :
    Style.clampWord (Scalar.nearest (Scalar.reread v)) = Style.clampWord (Scalar.nearest v) := by
  rcases clampWord_cases (Scalar.nearest v) with ⟨hself, -⟩ | ⟨-, hclamp⟩ | ⟨-, hclamp⟩
  · exact absurd hself h
  · rw [Scalar.reread, hclamp, scalar_greatest, nearest_of_natAbs (by decide)]
    rfl
  · rw [Scalar.reread, hclamp, nearest_of_natAbs (by decide)]
    rfl

/-- **A number that was read back is written as before.** -/
theorem numberText_reread (v : Float) :
    Style.numberText (Scalar.reread v) = Style.numberText v := by
  have hclamp : Style.clampWord (Scalar.nearest (Scalar.reread v)) =
      Style.clampWord (Scalar.nearest v) := by
    by_cases hself : Style.clampWord (Scalar.nearest v) = Scalar.nearest v
    · rcases nearest_cases v with hsmall | hwhole | hbig
      · rw [nearest_reread hsmall]
      · rw [Scalar.reread, hself, hwhole, hself]
      · rcases clampWord_cases (Scalar.nearest v) with ⟨-, h⟩ | ⟨-, h⟩ | ⟨-, h⟩ <;> omega
    · exact clampWord_reread_of_ne hself
  rw [numberText_eq, numberText_eq, hclamp]

/-! ## Zeros -/

theorem same_zero {v : Float} : Scalar.same v Scalar.zero ↔ ∃ s, v.toModel.unpack = .zero s := by
  have hzero : (Scalar.zero : Float).toModel.unpack = .zero .positive := rfl
  rw [Scalar.same, decide_le, decide_le, hzero]
  cases v.toModel.unpack with
  | zero s =>
    refine ⟨fun _ => ⟨s, rfl⟩, fun _ => ?_⟩
    cases s <;> rfl
  | notANumber =>
    refine ⟨fun h => ?_, nofun⟩
    cases h
  | infinity s =>
    refine ⟨fun h => ?_, nofun⟩
    cases s <;> cases h
  | finite s m e hpos =>
    refine ⟨fun h => ?_, nofun⟩
    cases s <;> cases h

theorem eq_of_isLE_then {m n : Nat} {e f : Int} (h : ((compare e f).then (compare m n)).isLE)
    (h' : ((compare f e).then (compare n m)).isLE) : e = f ∧ m = n := by
  simp only [Ordering.isLE_then_iff_and, Int.isLE_compare, Nat.isLE_compare,
    Int.compare_eq_lt] at h h'
  omega

/-- Only zeros compare as equal without being the same. -/
theorem unpack_of_same {v w : Float} {m : Nat} {e : Int} {hpos : 0 < m}
    (hw : w.toModel.unpack = .finite .positive m e hpos) (h : Scalar.same v w) :
    v.toModel.unpack = .finite .positive m e hpos := by
  rw [Scalar.same, decide_le, decide_le, hw, Bool.and_eq_true] at h
  obtain ⟨hle, hge⟩ := h
  cases hv : v.toModel.unpack with rw [hv] at hle hge
  | notANumber => cases hle
  | zero s => cases hge
  | infinity s =>
    cases s
    · cases hge
    · cases hle
  | finite s n f hn =>
    cases s
    · cases hge
    · obtain ⟨rfl, rfl⟩ := eq_of_isLE_then hle hge
      rfl

/-- A number that compares as equal to a positive whole number of the exact range is that
number. -/
theorem eq_of_same_ofNat {v : Float} {n : Nat} (h0 : 0 < n) (hn : n < 2 ^ 53)
    (h : Scalar.same v (Scalar.ofNat n)) : v = Scalar.ofNat n := by
  rcases unpack_scalar_cases ⟨false, n⟩ with ⟨h0', -⟩ | ⟨j, hpos, -, -, -, hu⟩ |
    ⟨m, k, hpos, hn', -⟩ | ⟨hn', -⟩
  · exact absurd h0' (Nat.ne_of_gt h0)
  · exact congrArg Float.ofModel (eq_of_unpack ((unpack_of_same hu h).trans hu.symm))
  · exact absurd hn (Nat.not_lt.mpr hn')
  · exact absurd hn (Nat.not_lt.mpr hn')

theorem unsigned_of_zero {v : Float} {s : Sign} (h : v.toModel.unpack = .zero s) :
    Scalar.unsigned v = Scalar.zero := by
  rw [Scalar.unsigned, if_pos (same_zero.mpr ⟨s, h⟩)]

theorem unsigned_of_ne_zero {v : Float} (h : ∀ s, v.toModel.unpack ≠ .zero s) :
    Scalar.unsigned v = v := by
  rw [Scalar.unsigned, if_neg]
  intro hsame
  obtain ⟨s, hs⟩ := same_zero.mp hsame
  exact h s hs

theorem reread_of_zero {v : Float} {s : Sign} (h : v.toModel.unpack = .zero s) :
    Scalar.reread v = Scalar.zero := by
  rw [Scalar.reread, nearest_of_zero h]
  rfl

theorem intCast_eq_scalar (n : Int) : (n : Float) = (Numeral.ofInt n).scalar := by
  cases n with
  | ofNat m => rfl
  | negSucc m =>
    simp [scalar_eq, Numeral.ofInt]
    rfl

/-- Apart from zeros the sign of a numeral is not forgotten. -/
theorem unsigned_scalar {n : Numeral} (h : 0 < n.magnitude) :
    Scalar.unsigned (n.scalar : Float) = n.scalar := by
  apply unsigned_of_ne_zero
  rcases unpack_scalar_cases n with ⟨h0, -⟩ | ⟨j, hpos, -, -, -, hu⟩ |
    ⟨m, k, hpos, -, -, -, hu⟩ | ⟨-, hu⟩
  · omega
  · simp [hu]
  · simp [hu]
  · simp [hu]

theorem unsigned_intCast (n : Int) : Scalar.unsigned (n : Float) = n := by
  by_cases h : n = 0
  · subst h
    exact unsigned_of_zero (s := .positive) rfl
  · rw [intCast_eq_scalar]
    exact unsigned_scalar (Int.natAbs_pos.mpr h)

theorem nearest_unsigned (v : Float) : Scalar.nearest (Scalar.unsigned v) = Scalar.nearest v := by
  by_cases hzero : ∃ s, v.toModel.unpack = .zero s
  · obtain ⟨s, hs⟩ := hzero
    rw [unsigned_of_zero hs, nearest_of_zero hs, nearest_of_zero (s := .positive) rfl]
  · rw [unsigned_of_ne_zero (by simpa using hzero)]

theorem nearest_of_whole {v : Float} {n : Int} (hn : n.natAbs ≤ 2 ^ 53)
    (h : Scalar.unsigned v = (n : Float)) : Scalar.nearest v = n := by
  rw [← nearest_unsigned, h, intCast_eq_scalar, nearest_scalar hn, value_ofInt]

/-- **A whole number of at most `2 ^ 53` is read back.** -/
theorem reread_of_whole {v : Float} {n : Int} (hn : n.natAbs ≤ 2 ^ 53)
    (h : Scalar.unsigned v = (n : Float)) : Scalar.reread v = Scalar.unsigned v := by
  rw [Scalar.reread, nearest_of_whole hn h, clampWord_of_le hn, ← intCast_eq_scalar, h]

/-- Beyond `2 ^ 63` another number is read back. -/
theorem nearest_reread_ne {v : Float} (h : 2 ^ 63 < (Scalar.nearest v).natAbs) :
    Scalar.nearest (Scalar.reread v) ≠ Scalar.nearest v := by
  rcases clampWord_cases (Scalar.nearest v) with ⟨-, hle⟩ | ⟨-, hclamp⟩ | ⟨-, hclamp⟩
  · omega
  · rw [Scalar.reread, hclamp, scalar_greatest, nearest_of_natAbs (by decide)]
    omega
  · rw [Scalar.reread, hclamp, nearest_of_natAbs (by decide)]
    omega

/-- Up to `2 ^ 63` a number on a whole number is read back. -/
theorem reread_eq_self {v : Float}
    (hwhole : ((Numeral.ofInt (Scalar.nearest v)).scalar : Float) = v)
    (h : (Scalar.nearest v).natAbs ≤ 2 ^ 63) : Scalar.reread v = v := by
  rcases clampWord_cases (Scalar.nearest v) with ⟨hclamp, -⟩ | ⟨hn, hclamp⟩ | ⟨hn, -⟩
  · rw [Scalar.reread, hclamp, hwhole]
  · have htop : Scalar.nearest v = 2 ^ 63 := by omega
    rw [Scalar.reread, hclamp, scalar_greatest, ← htop, hwhole]
  · omega

/-- **A number of a text is read back as itself exactly when it is at most `2 ^ 63`.** -/
theorem reread_scalar_iff (n : Numeral) :
    Scalar.reread (n.scalar : Float) = Scalar.unsigned n.scalar ↔
      (Scalar.nearest (n.scalar : Float)).natAbs ≤ 2 ^ 63 := by
  rcases unpack_scalar_cases n with ⟨h0, hu⟩ | ⟨j, hpos, h0, hn, -, hu⟩ | hlarge
  · rw [reread_of_zero hu, unsigned_of_zero hu, nearest_of_zero hu]
    simp
  · have hnearest := nearest_scalar (Nat.le_of_lt hn)
    have hvalue := natAbs_value n
    rw [unsigned_scalar h0, Scalar.reread, hnearest, clampWord_of_le (by omega), ofInt_value h0]
    simp only [true_iff]
    omega
  · have h0 : 0 < n.magnitude := by
      rcases hlarge with ⟨m, k, hpos, hn, -⟩ | ⟨hn, -⟩ <;> omega
    rw [unsigned_scalar h0]
    constructor
    · intro h
      by_contra hbig
      exact nearest_reread_ne (by omega) (congrArg Scalar.nearest h)
    · intro hle
      rcases hlarge with ⟨m, k, hpos, -, hm, hk, hu⟩ | ⟨-, hu⟩
      · exact reread_eq_self (scalar_nearest hm hk hu) hle
      · rw [nearest_of_infinity hu, natAbs_apply] at hle
        exact absurd hle (by decide)

end Diagram
