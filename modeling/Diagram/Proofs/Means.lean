import Mathlib.Algebra.Order.Field.Basic
import Diagram.Layout.Order
import Diagram.Proofs.Fields
import Diagram.Proofs.Quotients

/-!
# Comparing means

Vertices are sorted by the means of places.  Over an ordered field the means compare as they are.
Floating-point means are rounded, so means that differ might be rounded to the same and count as
equal.  But the places are whole numbers, and two means of at most `d` of them differ by at least
one in `d * d`, unless they are the same.  So as long as the places are not too many, the rounded
means compare as the exact ones do.
-/

namespace Diagram

/-- Some places up to `n`: one of them, or several, but not more than `d`. -/
structure ArePlaces (n d : Nat) (ks : List Nat) : Prop where
  ne_nil : ks ≠ []
  length_le : ks.length ≤ max 1 d
  le : ∀ k ∈ ks, k ≤ n

/-- The means of places up to `n`, of at most `d` of them, compare as they are. -/
structure ComparesMeans (α : Type) [Scalar α] (n d : Nat) : Prop where
  mean_singleton : ∀ k ≤ n, mean α [k] = Scalar.ofNat k
  mean_le_mean_iff : ∀ ks ls : List Nat, ArePlaces n d ks → ArePlaces n d ls →
    (mean α ks ≤ mean α ls ↔ ks.sum * ls.length ≤ ls.sum * ks.length)

/-! ## Exact means -/

section

variable {K : Type} [Field K] [LinearOrder K] [IsStrictOrderedRing K] [FloorRing K]

attribute [local instance] Scalar.exact

theorem mean_exact (ks : List Nat) : mean K ks = ks.sum / ks.length := by
  have hsum (a : K) : ks.foldl (fun sum k => sum + Scalar.ofNat k) a = a + ks.sum := by
    induction ks generalizing a with
    | nil => simp
    | cons k ks ih => rw [List.foldl_cons, ih, List.sum_cons]; push_cast; ring
  rw [mean, hsum]
  simp

/-- **Exact means compare as they are**, however many places there are. -/
theorem comparesMeans_exact (n d : Nat) : ComparesMeans K n d where
  mean_singleton k _ := by simp [mean_exact]
  mean_le_mean_iff ks ls hks hls := by
    have hk : (0 : K) < ks.length := by exact_mod_cast List.length_pos_iff.mpr hks.ne_nil
    have hl : (0 : K) < ls.length := by exact_mod_cast List.length_pos_iff.mpr hls.ne_nil
    rw [mean_exact, mean_exact, div_le_div_iff₀ hk hl]
    exact_mod_cast Iff.rfl

end

/-! ## Rounded means -/

section

variable {n d : Nat} {ks ls : List Nat}

theorem ArePlaces.sum_le (h : ArePlaces n d ks) : ks.sum ≤ ks.length * n := by
  simpa using List.sum_le_card_nsmul ks n h.le

theorem mean_float (h : ks.sum < 2 ^ 53) :
    mean Float ks = Float.ofNat ks.sum / Float.ofNat ks.length := by
  have hsum : ks.foldl (fun sum k => sum + Float.ofNat k) (Float.ofNat 0) =
      Float.ofNat (0 + ks.sum) := Binary.foldl_add_ofNat (by omega)
  rw [Nat.zero_add] at hsum
  exact congrArg (· / Float.ofNat ks.length) hsum

/-- What is divided by what, where the places are not too many. -/
theorem ArePlaces.lt (h : ArePlaces n d ks) (hnd : (n + 1) * max 1 d ^ 2 ≤ 2 ^ 51) :
    0 < ks.length ∧ ks.length < 2 ^ 53 ∧ ks.sum < 2 ^ 53 := by
  have hlength := h.length_le
  have hsum := h.sum_le
  have hmul : ks.length * n ≤ max 1 d * n := Nat.mul_le_mul_right n hlength
  have hsquare : max 1 d * 1 ≤ max 1 d ^ 2 := by
    rw [pow_two]
    exact Nat.mul_le_mul_left _ (by omega)
  have hall : (n + 1) * max 1 d ≤ (n + 1) * max 1 d ^ 2 := Nat.mul_le_mul_left _ (by omega)
  rw [Nat.add_mul, Nat.mul_comm n] at hall
  exact ⟨List.length_pos_iff.mpr h.ne_nil, by omega, by omega⟩

/-- Different means of not too many places are not too near to each other. -/
theorem ArePlaces.add_lt (hks : ArePlaces n d ks) (hls : ArePlaces n d ls)
    (hnd : (n + 1) * max 1 d ^ 2 ≤ 2 ^ 51) (hlt : ls.sum * ks.length < ks.sum * ls.length) :
    (ls.sum / ls.length + ks.sum / ks.length : ℚ) <
      (ks.sum / ks.length - ls.sum / ls.length) * 2 ^ 52 := by
  have hk : (0 : ℚ) < ks.length := by exact_mod_cast (hks.lt hnd).1
  have hl : (0 : ℚ) < ls.length := by exact_mod_cast (hls.lt hnd).1
  have hproduct : ks.length * ls.length ≤ max 1 d ^ 2 := by
    rw [pow_two]
    exact Nat.mul_le_mul hks.length_le hls.length_le
  have hsmall : ls.sum * ks.length + ks.sum * ls.length < 2 ^ 52 := by
    have hleft : ls.sum * ks.length ≤ ks.length * ls.length * n := by
      rw [Nat.mul_comm, Nat.mul_assoc]
      exact Nat.mul_le_mul_left _ hls.sum_le
    have hright : ks.sum * ls.length ≤ ks.length * ls.length * n := by
      rw [Nat.mul_right_comm]
      exact Nat.mul_le_mul_right _ hks.sum_le
    have hmul : ks.length * ls.length * n ≤ max 1 d ^ 2 * n := Nat.mul_le_mul_right n hproduct
    have hpos : 0 < max 1 d ^ 2 := Nat.pow_pos (by omega)
    rw [Nat.add_mul, Nat.mul_comm n] at hnd
    omega
  have hsmall : (ls.sum : ℚ) * ks.length + ks.sum * ls.length < 2 ^ 52 := by exact_mod_cast hsmall
  have hdiffer : (ls.sum : ℚ) * ks.length + 1 ≤ ks.sum * ls.length := by exact_mod_cast hlt
  rw [div_add_div _ _ hl.ne' hk.ne', div_sub_div _ _ hk.ne' hl.ne', div_mul_eq_mul_div,
    mul_comm (ls.length : ℚ) ks.length, div_lt_div_iff_of_pos_right (mul_pos hk hl)]
  linarith

/-- **Rounded means compare as the exact ones do**, where the places are not too many. -/
theorem comparesMeans_float (h : (n + 1) * max 1 d ^ 2 ≤ 2 ^ 51) : ComparesMeans Float n d where
  mean_singleton k hk := by
    have hplaces : ArePlaces n d [k] := ⟨List.cons_ne_nil k [], Nat.le_max_left 1 d, by simpa⟩
    obtain ⟨-, -, hlt⟩ := hplaces.lt h
    rw [mean_float hlt]
    rw [List.sum_singleton] at hlt ⊢
    change Float.ofNat k / Float.ofNat 1 = Float.ofNat k
    rcases Nat.eq_zero_or_pos k with rfl | h0
    · rfl
    · have hdiv := Binary.roundsTo_div h0 hlt Nat.one_pos (by norm_num)
      rw [Nat.cast_one, div_one] at hdiv
      exact hdiv.unique (Binary.roundsTo_ofNat h0 hlt)
  mean_le_mean_iff ks ls hks hls := by
    obtain ⟨hkpos, hklt, hksum⟩ := hks.lt h
    obtain ⟨hlpos, hllt, hlsum⟩ := hls.lt h
    rw [mean_float hksum, mean_float hlsum]
    exact Binary.div_le_div_iff hksum hkpos hklt hlsum hlpos hllt (hks.add_lt hls h)

end

end Diagram
