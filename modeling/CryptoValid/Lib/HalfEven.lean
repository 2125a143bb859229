import CryptoValid.Lib.Binary64
import Mathlib.Algebra.Order.Field.Basic
import Mathlib.Algebra.Order.Field.Rat
import Mathlib.Algebra.Ring.Int.Parity
import Mathlib.Tactic.Linarith
import Mathlib.Tactic.NormNum
import Mathlib.Tactic.Ring

/-!
This module contains rounding to the nearest integer where ties go to the even one, and the range in
which a quotient of integers is a finite double.
-/

/--
The integer next to `x`, the even one if there are two.
-/
def IsHalfEven (x : ℚ) (n : ℤ) : Prop := |x - n| ≤ 1 / 2 ∧ (|x - n| = 1 / 2 → Even n)

namespace IsHalfEven

theorem unique {x : ℚ} {m n : ℤ} (hm : IsHalfEven x m) (hn : IsHalfEven x n) : m = n := by
  rcases hm with ⟨hm, hmeven⟩
  rcases hn with ⟨hn, hneven⟩
  rw [abs_le] at hm hn
  have hle : m - n ≤ 1 ∧ n - m ≤ 1 := by
    constructor
    . have : ((m - n : ℤ) : ℚ) ≤ (1 : ℤ) := by
        push_cast
        linarith
      exact Int.cast_le.mp this
    . have : ((n - m : ℤ) : ℚ) ≤ (1 : ℤ) := by
        push_cast
        linarith
      exact Int.cast_le.mp this
  by_contra hne
  -- the integers are neighbours, and `x` is in the middle
  have hcases : m = n + 1 ∨ n = m + 1 := by omega
  have hboth : |x - m| = 1 / 2 ∧ |x - n| = 1 / 2 := by
    rcases hcases with rfl | rfl
    . push_cast at hm ⊢
      have hx : x = n + 1 / 2 := by linarith
      rw [hx]
      constructor <;> norm_num
    . push_cast at hn ⊢
      have hx : x = m + 1 / 2 := by linarith
      rw [hx]
      constructor <;> norm_num
  have heven := hmeven hboth.1
  have heven' := hneven hboth.2
  rcases heven with ⟨i, rfl⟩
  rcases heven' with ⟨j, rfl⟩
  omega

theorem mono {x y : ℚ} {m n : ℤ} (hxy : x ≤ y) (hm : IsHalfEven x m) (hn : IsHalfEven y n)
    : m ≤ n := by
  by_contra hlt
  have hcast : ((n + 1 : ℤ) : ℚ) ≤ m := Int.cast_le.mpr (by omega)
  have hx := (abs_le.mp hm.1).1
  have hy := (abs_le.mp hn.1).2
  push_cast at hcast
  -- both numbers are in the middle
  have heq : x = y := by linarith
  rw [heq] at hm
  rw [hm.unique hn] at hlt
  exact hlt le_rfl

theorem intCast (n : ℤ) : IsHalfEven n n := by
  constructor
  . norm_num
  . norm_num

theorem neg {x : ℚ} {n : ℤ} (h : IsHalfEven x n) : IsHalfEven (-x) (-n) := by
  have habs : |-x - ((-n : ℤ) : ℚ)| = |x - n| := by
    rw [← abs_neg]
    congr 1
    push_cast
    ring
  rw [IsHalfEven, habs]
  exact ⟨h.1, fun htie => (h.2 htie).neg⟩

end IsHalfEven

/--
The quotient is between `q` and the next integer.
-/
theorem isHalfEven_add_div {q r den : Nat} (hr : r < den)
    : IsHalfEven ((q : ℚ) + r / den)
        (if 2 * r < den then q else if 2 * r = den then q + q % 2 else q + 1 : ℕ) := by
  have hpos : (0 : ℚ) < den := Nat.cast_pos.mpr (by omega)
  have hnonneg : (0 : ℚ) ≤ r / den := div_nonneg (Nat.cast_nonneg r) (le_of_lt hpos)
  have hlt : (r : ℚ) / den < 1 := by
    rw [div_lt_iff₀ hpos, one_mul]
    exact Nat.cast_lt.mpr hr
  have hcast : (2 : ℚ) * r = (2 * r : ℕ) := by push_cast; rfl
  have hhalf : (r : ℚ) / den < 1 / 2 ↔ 2 * r < den := by
    rw [div_lt_div_iff₀ hpos (by norm_num), ← Nat.cast_lt (α := ℚ), ← hcast]
    constructor <;> intro h <;> linarith
  have htie : (r : ℚ) / den = 1 / 2 ↔ 2 * r = den := by
    rw [div_eq_div_iff (ne_of_gt hpos) (by norm_num), ← Nat.cast_inj (R := ℚ), ← hcast]
    constructor <;> intro h <;> linarith
  generalize (r : ℚ) / den = x at *
  split
  . next h =>
    rw [← hhalf] at h
    rw [IsHalfEven, Int.cast_natCast, add_sub_cancel_left, abs_of_nonneg hnonneg]
    exact ⟨le_of_lt h, fun heq => absurd heq (ne_of_lt h)⟩
  . next h =>
    rw [← hhalf, not_lt] at h
    split
    . next heq =>
      rw [← htie] at heq
      rw [heq]
      rcases Nat.mod_two_eq_zero_or_one q with heven | hodd
      . rw [heven, Nat.add_zero, IsHalfEven, Int.cast_natCast, add_sub_cancel_left]
        refine ⟨by norm_num, fun _ => ?_⟩
        rw [Int.even_coe_nat, Nat.even_iff]
        exact heven
      . have habs : |(q : ℚ) + 1 / 2 - ((q + 1 : ℕ) : ℤ)| = 1 / 2 := by
          push_cast
          rw [show (q : ℚ) + 1 / 2 - (q + 1) = -(1 / 2) by ring, abs_neg]
          norm_num
        rw [hodd, IsHalfEven, habs]
        refine ⟨le_rfl, fun _ => ?_⟩
        rw [Int.even_coe_nat, Nat.even_iff]
        omega
    . next hne =>
      rw [← htie] at hne
      have hgt := lt_of_le_of_ne h (Ne.symm hne)
      have habs : |(q : ℚ) + x - ((q + 1 : ℕ) : ℤ)| = 1 - x := by
        push_cast
        rw [show (q : ℚ) + x - (q + 1) = -(1 - x) by ring, abs_neg, abs_of_nonneg (by linarith)]
      rw [IsHalfEven, habs]
      exact ⟨by linarith, fun heq => absurd heq (by linarith)⟩

theorem Binary64.isHalfEven_roundDiv (num : Nat) {den : Nat} (hden : 0 < den)
    : IsHalfEven ((num : ℚ) / den) (Binary64.roundDiv num den : ℕ) := by
  have hpos : (0 : ℚ) < den := Nat.cast_pos.mpr hden
  have hquot : (num : ℚ) / den = (num / den : ℕ) + (num % den : ℕ) / den := by
    rw [div_eq_iff (ne_of_gt hpos), add_mul, div_mul_cancel₀ _ (ne_of_gt hpos), ← Nat.cast_mul,
      ← Nat.cast_add, Nat.div_add_mod']
  rw [hquot]
  exact isHalfEven_add_div (Nat.mod_lt _ hden)

namespace Binary64

theorem isInfinite_of_exponent {negative : Bool} {exponent : Fin 2048} {fraction : Fin (2 ^ 52)}
    (h : exponent.val < 2047) : isInfinite ⟨negative, exponent, fraction⟩ = false := by
  have hne : exponent ≠ 2047 := by
    rintro rfl
    exact absurd h (by decide)
  simp [isInfinite, hne]

theorem isInfinite_assemble (negative : Bool) (m : Nat) {e : Int} (he : e ≤ 970)
    : (assemble negative m e).isInfinite = false := by
  have hexp (e : Int) (he : e ≤ 971) : (Fin.ofNat 2048 (e + 1075).toNat).val < 2047 := by
    rw [Fin.val_ofNat]
    omega
  unfold assemble
  by_cases hcarry : m = 2 ^ 53
  . rw [if_pos hcarry]
    dsimp only
    rw [if_neg (by decide), if_neg (by omega)]
    exact isInfinite_of_exponent (hexp _ (by omega))
  . rw [if_neg hcarry]
    dsimp only
    split
    . exact isInfinite_of_exponent (by decide)
    . rw [if_neg (by omega)]
      exact isInfinite_of_exponent (hexp _ (by omega))

/--
A quotient by an integer is finite unless the dividend is close to the largest double.
-/
theorem isInfinite_ofQuotient {a : Int} (ha : a.natAbs.log2 < 1023) (b : Int)
    : (ofQuotient a b).isInfinite = false := by
  unfold ofQuotient ofRatio
  split
  . exact isInfinite_of_exponent (by decide)
  . dsimp only
    split
    . exact isInfinite_assemble _ _ (by omega)
    . exact isInfinite_assemble _ _ (by omega)

end Binary64
