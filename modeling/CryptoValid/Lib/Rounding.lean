import CryptoValid.Lib.HalfEven
import Mathlib.Algebra.Order.Field.Power

/-!
This module contains the rational number that a double stands for, and shows that the arithmetic on
doubles that rounds to the nearest one never changes the order of its results.
-/

namespace Binary64

def signed (negative : Bool) (q : ℚ) : ℚ := if negative then -q else q

/--
Infinity stands for the power of two after the largest double.
-/
def value (x : Binary64) : ℚ := x.quotient.1 / x.quotient.2

theorem zpow_toNat (e : Int) : (2 : ℚ) ^ e.toNat / 2 ^ (-e).toNat = 2 ^ e := by
  rcases le_total 0 e with he | he
  . rw [Int.toNat_of_nonpos (by omega : -e ≤ 0), pow_zero, div_one, ← zpow_natCast,
      Int.toNat_of_nonneg he]
  . rw [Int.toNat_of_nonpos he, pow_zero, one_div, ← zpow_natCast, ← zpow_neg,
      Int.toNat_of_nonneg (by omega : 0 ≤ -e), neg_neg]

theorem value_eq (x : Binary64) : x.value = signed x.negative (x.significand * 2 ^ x.scale) := by
  rw [value, quotient, signed, ← zpow_toNat]
  dsimp only
  split
  . push_cast
    ring
  . push_cast
    ring

theorem value_eq_signed (x : Binary64)
    : x.value = signed x.negative (x.quotient.1.natAbs / x.quotient.2) := by
  rw [value, quotient, signed]
  dsimp only
  split
  . rw [Int.natAbs_neg, Int.natAbs_natCast]
    push_cast
    ring
  . rw [Int.natAbs_natCast]
    rfl

theorem quotient_pos (x : Binary64) : 0 < x.quotient.2 := Nat.two_pow_pos _

theorem le_iff {x y : Binary64} : x.le y = true ↔ x.value ≤ y.value := by
  have hx : (0 : ℚ) < x.quotient.2 := Nat.cast_pos.mpr x.quotient_pos
  have hy : (0 : ℚ) < y.quotient.2 := Nat.cast_pos.mpr y.quotient_pos
  rw [value, value, div_le_div_iff₀ hx hy, le, decide_eq_true_eq]
  exact_mod_cast Iff.rfl

/-!
### The nearest double
-/

theorem zpow_le {i j : Int} (h : i ≤ j) : (2 : ℚ) ^ i ≤ 2 ^ j :=
  zpow_le_zpow_right₀ (by norm_num) h

theorem cast_two_pow (k : Nat) : ((2 ^ k : ℕ) : ℚ) = 2 ^ (k : Int) := by
  rw [Nat.cast_pow, zpow_natCast]
  rfl

theorem two_pow_mul_zpow (k : Nat) (e : Int) : ((2 ^ k : ℕ) : ℚ) * 2 ^ e = 2 ^ (k + e) := by
  rw [cast_two_pow, zpow_add₀ (by norm_num)]

theorem mul_zpow_le {m k : Nat} (hm : m ≤ 2 ^ k) (e : Int) : (m : ℚ) * 2 ^ e ≤ 2 ^ (k + e) := by
  rw [← two_pow_mul_zpow]
  exact mul_le_mul_of_nonneg_right (Nat.cast_le.mpr hm) (zpow_pos (by norm_num) e).le

theorem zpow_le_mul {m k : Nat} (hm : 2 ^ k ≤ m) (e : Int) : (2 : ℚ) ^ (k + e) ≤ m * 2 ^ e := by
  rw [← two_pow_mul_zpow]
  exact mul_le_mul_of_nonneg_right (Nat.cast_le.mpr hm) (zpow_pos (by norm_num) e).le

/--
What is beyond the largest double is infinite.
-/
def capped (q : ℚ) : ℚ := min q (2 ^ (1024 : Int))

theorem capped_mono {q q' : ℚ} (h : q ≤ q') : capped q ≤ capped q' := min_le_min_right _ h

theorem capped_nonneg {q : ℚ} (h : 0 ≤ q) : 0 ≤ capped q :=
  le_min h (zpow_pos (by norm_num) _).le

theorem capped_zero : capped 0 = 0 := min_eq_left (zpow_pos (by norm_num) _).le

/--
The double of a significand that is not carried any more.
-/
theorem value_fields (negative : Bool) {m : Nat} {e : Int} (hm : m < 2 ^ 53) (he : -1074 ≤ e)
    (hnormal : e = -1074 ∨ 2 ^ 52 ≤ m)
    : (if m < 2 ^ 52 then ⟨negative, 0, Fin.ofNat _ m⟩
        else if 971 < e then infinity negative
        else ⟨negative, Fin.ofNat _ (e + 1075).toNat, Fin.ofNat _ (m - 2 ^ 52)⟩ : Binary64).value
      = signed negative (capped (m * 2 ^ e)) := by
  have hupper := mul_zpow_le hm.le e
  split
  . next hsmall =>
    have he' : e = -1074 := hnormal.resolve_right (not_le.mpr hsmall)
    rw [capped, min_eq_left (hupper.trans (zpow_le (by omega))), value_eq, significand, scale, if_pos rfl,
      if_pos rfl, Fin.val_ofNat, Nat.mod_eq_of_lt hsmall, he']
  . next hlarge =>
    split
    . next hover =>
      have hlower := zpow_le_mul (not_lt.mp hlarge) e
      rw [capped, min_eq_right ((zpow_le (by omega)).trans hlower), value_eq]
      have hsignificand : (infinity negative).significand = 2 ^ 52 := by
        cases negative <;> decide +kernel
      have hscale : (infinity negative).scale = 972 := by cases negative <;> decide +kernel
      have hnegative : (infinity negative).negative = negative := rfl
      have hsum : ((52 : Nat) : Int) + 972 = 1024 := by decide
      rw [hsignificand, hscale, two_pow_mul_zpow, hnegative, hsum]
    . next hover =>
      rw [capped, min_eq_left (hupper.trans (zpow_le (by omega))), value_eq, significand, scale]
      have hexponent : (Fin.ofNat 2048 (e + 1075).toNat).val = (e + 1075).toNat := by
        rw [Fin.val_ofNat]
        exact Nat.mod_eq_of_lt (by omega)
      have hne : Fin.ofNat 2048 (e + 1075).toNat ≠ 0 := by
        intro heq
        have := congrArg Fin.val heq
        rw [hexponent] at this
        simp only [Fin.val_zero] at this
        omega
      have hfraction : (Fin.ofNat (2 ^ 52) (m - 2 ^ 52)).val = m - 2 ^ 52 := by
        rw [Fin.val_ofNat]
        exact Nat.mod_eq_of_lt (by omega)
      have hcast : ((e + 1075).toNat : Int) - 1075 = e := by omega
      rw [if_neg hne, if_neg hne, hexponent, hfraction, Nat.add_sub_cancel' (not_lt.mp hlarge), hcast]

theorem value_assemble (negative : Bool) {m : Nat} {e : Int} (hm : m ≤ 2 ^ 53) (he : -1074 ≤ e)
    (hnormal : e = -1074 ∨ 2 ^ 52 ≤ m)
    : (assemble negative m e).value = signed negative (capped (m * 2 ^ e)) := by
  unfold assemble
  by_cases hcarry : m = 2 ^ 53
  . rw [if_pos hcarry]
    dsimp only
    rw [value_fields negative (by decide) (by omega) (Or.inr le_rfl), two_pow_mul_zpow, hcarry,
      two_pow_mul_zpow, show ((52 : Nat) : Int) + (e + 1) = (53 : Nat) + e by omega]
  . rw [if_neg hcarry]
    exact value_fields negative (lt_of_le_of_ne hm hcarry) he hnormal

/--
The quotient with its parts multiplied as the scale asks for.
-/
theorem scaled_eq (n d : Nat) (e : Int)
    : ((n * 2 ^ (-e).toNat : ℕ) : ℚ) / (d * 2 ^ e.toNat : ℕ) = n / d / 2 ^ e := by
  rw [← zpow_toNat]
  push_cast
  rw [div_div_eq_mul_div, div_mul_eq_mul_div, div_div]

/--
A quotient between two powers of two, as close as the binary digits of its parts tell.
-/
theorem log2_bounds {n d : Nat} (hn : n ≠ 0) (hd : 0 < d)
    : (2 : ℚ) ^ ((n.log2 : Int) - d.log2 - 1) ≤ n / d ∧
        (n : ℚ) / d < 2 ^ ((n.log2 : Int) - d.log2 + 1) := by
  have hpos : (0 : ℚ) < d := Nat.cast_pos.mpr hd
  have hnlow : ((2 ^ n.log2 : ℕ) : ℚ) ≤ n := Nat.cast_le.mpr (Nat.log2_self_le hn)
  have hnup : (n : ℚ) < (2 ^ (n.log2 + 1) : ℕ) := Nat.cast_lt.mpr Nat.lt_log2_self
  have hdlow : ((2 ^ d.log2 : ℕ) : ℚ) ≤ d := Nat.cast_le.mpr (Nat.log2_self_le hd.ne')
  have hdup : (d : ℚ) < (2 ^ (d.log2 + 1) : ℕ) := Nat.cast_lt.mpr Nat.lt_log2_self
  rw [cast_two_pow] at hnlow hnup hdlow hdup
  constructor
  . rw [le_div_iff₀ hpos]
    calc (2 : ℚ) ^ ((n.log2 : Int) - d.log2 - 1) * d
        ≤ 2 ^ ((n.log2 : Int) - d.log2 - 1) * 2 ^ ((d.log2 + 1 : ℕ) : Int) :=
          mul_le_mul_of_nonneg_left hdup.le (zpow_pos (by norm_num) _).le
      _ = 2 ^ (n.log2 : Int) := by
          rw [← zpow_add₀ (by norm_num)]
          congr 1
          push_cast
          ring
      _ ≤ n := hnlow
  . rw [div_lt_iff₀ hpos]
    calc (n : ℚ) < 2 ^ ((n.log2 + 1 : ℕ) : Int) := hnup
      _ = 2 ^ ((n.log2 : Int) - d.log2 + 1) * 2 ^ (d.log2 : Int) := by
          rw [← zpow_add₀ (by norm_num)]
          congr 1
          push_cast
          ring
      _ ≤ 2 ^ ((n.log2 : Int) - d.log2 + 1) * d :=
          mul_le_mul_of_nonneg_left hdlow (zpow_pos (by norm_num) _).le

theorem roundDiv_zero {d : Nat} (hd : 0 < d) : roundDiv 0 d = 0 := by
  rw [roundDiv, Nat.zero_div, Nat.zero_mod, Nat.mul_zero, if_pos hd]

/--
The result is a multiple of a power of two that is next to the quotient, where the quotient takes 53
binary digits of it or the power is the smallest one.
-/
theorem exists_scale (negative : Bool) (n : Nat) {d : Nat} (hd : 0 < d)
    : ∃ e : Int, -1074 ≤ e ∧ (n : ℚ) / d < 2 ^ (53 + e) ∧
        (e = -1074 ∨ (2 : ℚ) ^ (52 + e) ≤ n / d) ∧
        (ofRatio negative n d).value
          = (assemble negative (roundDiv (n * 2 ^ (-e).toNat) (d * 2 ^ e.toNat)) e).value := by
  by_cases hn : n = 0
  . subst hn
    refine ⟨-1074, le_rfl, ?_, Or.inl rfl, ?_⟩
    . rw [Nat.cast_zero, zero_div]
      exact zpow_pos (by norm_num) _
    . have hround : roundDiv (0 * 2 ^ (-(-1074 : Int)).toNat) (d * 2 ^ (-1074 : Int).toNat) = 0 := by
        rw [Nat.zero_mul]
        exact roundDiv_zero (Nat.mul_pos hd (Nat.two_pow_pos _))
      rw [hround, ofRatio, if_pos rfl]
      rfl
  . have hbounds := log2_bounds hn hd
    have htest : ∀ e : Int, n * 2 ^ (-e).toNat / (d * 2 ^ e.toNat) < 2 ^ 53
        ↔ (n : ℚ) / d < 2 ^ (53 + e) := by
      intro e
      have hpos : 0 < d * 2 ^ e.toNat := Nat.mul_pos hd (Nat.two_pow_pos _)
      have hiff := div_lt_iff₀ (a := ((2 ^ 53 : ℕ) : ℚ)) (b := ((n * 2 ^ (-e).toNat : ℕ) : ℚ))
        (Nat.cast_pos (α := ℚ).mpr hpos)
      rw [scaled_eq, ← Nat.cast_mul, Nat.cast_lt, div_lt_iff₀ (zpow_pos (by norm_num) e),
        two_pow_mul_zpow] at hiff
      rw [Nat.div_lt_iff_lt_mul hpos, ← hiff]
      rfl
    generalize he : max (-1074) ((n.log2 : Int) - d.log2 - 53) = e
    have hlow : -1074 ≤ e := by omega
    by_cases hfit : (n : ℚ) / d < 2 ^ (53 + e)
    . refine ⟨e, hlow, hfit, ?_, ?_⟩
      . by_cases hsmall : e = -1074
        . exact Or.inl hsmall
        . exact Or.inr ((zpow_le (by omega)).trans hbounds.1)
      . rw [ofRatio, if_neg hn, he]
        dsimp only
        rw [if_pos ((htest e).mpr hfit)]
    . refine ⟨e + 1, by omega, ?_, ?_, ?_⟩
      . by_cases hsmall : e = (n.log2 : Int) - d.log2 - 53
        . exact hbounds.2.trans_le (zpow_le (by omega))
        . exact absurd (hbounds.2.trans_le (zpow_le (by omega))) hfit
      . refine Or.inr ((zpow_le ?_).trans (not_lt.mp hfit))
        omega
      . rw [ofRatio, if_neg hn, he]
        dsimp only
        rw [if_neg (mt (htest e).mp hfit)]

/--
How a quotient is rounded: its scale, and the integer next to it at that scale.
-/
structure RoundsTo (q : ℚ) (e : Int) (m : Nat) : Prop where
  minimal : -1074 ≤ e
  lt : q < 2 ^ (53 + e)
  le : e = -1074 ∨ (2 : ℚ) ^ (52 + e) ≤ q
  halfEven : IsHalfEven (q / 2 ^ e) m

namespace RoundsTo

theorem quotient_le {q : ℚ} {e : Int} {m k : Nat} (h : RoundsTo q e m)
    (hq : q ≤ 2 ^ ((k : Int) + e)) : m ≤ 2 ^ k := by
  have hpos : (0 : ℚ) < 2 ^ e := zpow_pos (by norm_num) e
  have hle : q / 2 ^ e ≤ ((2 ^ k : ℕ) : ℤ) := by
    rw [div_le_iff₀ hpos, Int.cast_natCast, two_pow_mul_zpow]
    exact hq
  exact_mod_cast IsHalfEven.mono hle h.halfEven (IsHalfEven.intCast _)

theorem le_quotient {q : ℚ} {e : Int} {m k : Nat} (h : RoundsTo q e m)
    (hq : (2 : ℚ) ^ ((k : Int) + e) ≤ q) : 2 ^ k ≤ m := by
  have hpos : (0 : ℚ) < 2 ^ e := zpow_pos (by norm_num) e
  have hle : (((2 ^ k : ℕ) : ℤ) : ℚ) ≤ q / 2 ^ e := by
    rw [le_div_iff₀ hpos, Int.cast_natCast, two_pow_mul_zpow]
    exact hq
  exact_mod_cast IsHalfEven.mono hle (IsHalfEven.intCast _) h.halfEven

theorem upper {q : ℚ} {e : Int} {m : Nat} (h : RoundsTo q e m) : m ≤ 2 ^ 53 :=
  h.quotient_le h.lt.le

theorem normal {q : ℚ} {e : Int} {m : Nat} (h : RoundsTo q e m) : e = -1074 ∨ 2 ^ 52 ≤ m :=
  h.le.imp_right h.le_quotient

/--
At one scale the integers are in order; a larger scale is for a larger power of two.
-/
theorem mono {q q' : ℚ} {e e' : Int} {m m' : Nat} (h : RoundsTo q e m) (h' : RoundsTo q' e' m')
    (hle : q ≤ q') : (m : ℚ) * 2 ^ e ≤ m' * 2 ^ e' := by
  rcases lt_trichotomy e e' with hlt | rfl | hgt
  . have hnormal : 2 ^ 52 ≤ m' := h'.normal.resolve_left (by have := h.minimal; omega)
    calc (m : ℚ) * 2 ^ e ≤ 2 ^ ((53 : Nat) + e) := mul_zpow_le h.upper e
      _ ≤ 2 ^ ((52 : Nat) + e') := zpow_le (by omega)
      _ ≤ m' * 2 ^ e' := zpow_le_mul hnormal e'
  . have hpos : (0 : ℚ) < 2 ^ e := zpow_pos (by norm_num) e
    have hm : (m : Int) ≤ m' :=
      IsHalfEven.mono (div_le_div_of_nonneg_right hle hpos.le) h.halfEven h'.halfEven
    exact mul_le_mul_of_nonneg_right (Nat.cast_le.mpr (Int.ofNat_le.mp hm)) hpos.le
  . have hscale := (h.le.resolve_left (by have := h'.minimal; omega)).trans hle
    have hpow := hscale.trans_lt h'.lt
    rw [zpow_lt_zpow_iff_right₀ (by norm_num)] at hpow
    omega

end RoundsTo

theorem exists_roundsTo (negative : Bool) (n : Nat) {d : Nat} (hd : 0 < d)
    : ∃ e m, RoundsTo (n / d) e m ∧
        (ofRatio negative n d).value = signed negative (capped (m * 2 ^ e)) := by
  rcases exists_scale negative n hd with ⟨e, hmin, hlt, hle, hvalue⟩
  have hpos : 0 < d * 2 ^ e.toNat := Nat.mul_pos hd (Nat.two_pow_pos _)
  have hhalf := isHalfEven_roundDiv (n * 2 ^ (-e).toNat) hpos
  rw [scaled_eq] at hhalf
  have hrounds : RoundsTo (n / d) e (roundDiv (n * 2 ^ (-e).toNat) (d * 2 ^ e.toNat)) :=
    ⟨hmin, hlt, hle, hhalf⟩
  exact ⟨e, _, hrounds, by rw [hvalue, value_assemble negative hrounds.upper hmin hrounds.normal]⟩

/-!
### Order
-/

/--
A function of the absolute values that keeps their order, and zero, keeps the order of the numbers.
-/
theorem signed_le_signed {s s' : Bool} {q q' r r' : ℚ} (hq : 0 ≤ q) (hq' : 0 ≤ q') (hr : 0 ≤ r)
    (hr' : 0 ≤ r') (hle : q ≤ q' → r ≤ r') (hge : q' ≤ q → r' ≤ r)
    (h : signed s q ≤ signed s' q') (hzero : q = 0 → q' = 0 → r = 0 ∧ r' = 0)
    : signed s r ≤ signed s' r' := by
  unfold signed at *
  cases s with
  | false =>
    cases s' with
    | false => exact hle h
    | true =>
      simp only [Bool.false_eq_true, if_true, if_false] at h ⊢
      rcases hzero (by linarith) (by linarith) with ⟨rfl, rfl⟩
      norm_num
  | true =>
    cases s' with
    | false =>
      simp only [Bool.false_eq_true, if_true, if_false] at h ⊢
      linarith
    | true => exact neg_le_neg (hge (neg_le_neg_iff.mp h))

/--
Rounding keeps the order.
-/
theorem ofRatio_mono {s s' : Bool} {n n' d d' : Nat} (hd : 0 < d) (hd' : 0 < d')
    (h : signed s (n / d) ≤ signed s' (n' / d'))
    : (ofRatio s n d).value ≤ (ofRatio s' n' d').value := by
  rcases exists_roundsTo s n hd with ⟨e, m, hrounds, hvalue⟩
  rcases exists_roundsTo s' n' hd' with ⟨e', m', hrounds', hvalue'⟩
  have hnonneg : ∀ (e : Int) (m : Nat), 0 ≤ capped (m * 2 ^ e) := fun e m =>
    capped_nonneg (mul_nonneg (Nat.cast_nonneg m) (zpow_pos (by norm_num) e).le)
  rw [hvalue, hvalue']
  refine signed_le_signed (div_nonneg (Nat.cast_nonneg n) (Nat.cast_nonneg d))
    (div_nonneg (Nat.cast_nonneg n') (Nat.cast_nonneg d')) (hnonneg e m) (hnonneg e' m')
    (fun hle => capped_mono (hrounds.mono hrounds' hle))
    (fun hle => capped_mono (hrounds'.mono hrounds hle)) h fun hq hq' => ?_
  have hzero : ∀ {q : ℚ} {e : Int} {m : Nat}, RoundsTo q e m → q = 0 → m = 0 := by
    rintro q e m hrounds rfl
    have hhalf := hrounds.halfEven
    rw [zero_div] at hhalf
    exact_mod_cast hhalf.unique (IsHalfEven.intCast 0)
  rw [hzero hrounds hq, hzero hrounds' hq', Nat.cast_zero, zero_mul, zero_mul]
  exact ⟨capped_zero, capped_zero⟩

theorem ofQuotient_mono {a a' b : Int} (hb : 0 < b) (h : a ≤ a')
    : (ofQuotient a b).value ≤ (ofQuotient a' b).value := by
  have hsigned : ∀ a : Int, signed (decide (a < 0) != decide (b < 0)) (a.natAbs / b.natAbs)
      = (a : ℚ) / b := by
    intro a
    have hbabs : (b.natAbs : ℚ) = b := by
      rw [Nat.cast_natAbs, abs_of_pos hb]
    rw [hbabs, decide_eq_false (not_lt.mpr hb.le), Bool.bne_false, signed, Nat.cast_natAbs]
    split
    . next hneg =>
      rw [abs_of_neg (of_decide_eq_true hneg)]
      push_cast
      ring
    . next hneg =>
      rw [abs_of_nonneg (not_lt.mp fun hlt => hneg (decide_eq_true hlt))]
  have hpos : 0 < b.natAbs := Int.natAbs_pos.mpr hb.ne'
  refine ofRatio_mono hpos hpos ?_
  rw [hsigned, hsigned]
  exact div_le_div_of_nonneg_right (Int.cast_le.mpr h) (Int.cast_nonneg hb.le)

/--
Division by a positive number.
-/
theorem div_mono {x y z : Binary64} (hz : z.negative = false) (hpos : z.quotient.1 ≠ 0)
    (h : x.value ≤ y.value) : (x.div z).value ≤ (y.div z).value := by
  have hden : ∀ x : Binary64, 0 < x.quotient.2 * z.quotient.1.natAbs := fun x =>
    Nat.mul_pos x.quotient_pos (Int.natAbs_pos.mpr hpos)
  have hsigned : ∀ x : Binary64, signed (x.negative != z.negative)
      ((x.quotient.1.natAbs * z.quotient.2 : ℕ) / (x.quotient.2 * z.quotient.1.natAbs : ℕ))
        = x.value / (z.quotient.1.natAbs / z.quotient.2) := by
    intro x
    rw [hz, Bool.bne_false, value_eq_signed, signed, signed, Nat.cast_mul, Nat.cast_mul,
      ← div_div_div_eq]
    split
    . rw [neg_div]
    . rfl
  have hz' : (0 : ℚ) ≤ z.quotient.1.natAbs / z.quotient.2 :=
    div_nonneg (Nat.cast_nonneg _) (Nat.cast_nonneg _)
  have hle := div_le_div_of_nonneg_right h hz'
  rw [← hsigned, ← hsigned] at hle
  exact ofRatio_mono (hden x) (hden y) hle

theorem roundDiv_mono {n n' d d' : Nat} (hd : 0 < d) (hd' : 0 < d') (h : (n : ℚ) / d ≤ n' / d')
    : roundDiv n d ≤ roundDiv n' d' :=
  Int.ofNat_le.mp (IsHalfEven.mono h (isHalfEven_roundDiv n hd) (isHalfEven_roundDiv n' hd'))

theorem roundTo_mono {x y : Binary64} (places : Nat) (h : x.value ≤ y.value)
    : (x.roundTo places).value ≤ (y.roundTo places).value := by
  have hpow : 0 < 10 ^ places := Nat.pow_pos (by decide)
  have hscale : (0 : ℚ) < (10 ^ places : ℕ) := Nat.cast_pos.mpr hpow
  have hcast : ∀ x : Binary64, ((x.quotient.1.natAbs * 10 ^ places : ℕ) : ℚ) / x.quotient.2
      = x.quotient.1.natAbs / x.quotient.2 * (10 ^ places : ℕ) := by
    intro x
    rw [Nat.cast_mul, div_mul_eq_mul_div]
  have hround : ∀ x y : Binary64,
      (x.quotient.1.natAbs : ℚ) / x.quotient.2 ≤ y.quotient.1.natAbs / y.quotient.2 →
      ((roundDiv (x.quotient.1.natAbs * 10 ^ places) x.quotient.2 : ℕ) : ℚ) / (10 ^ places : ℕ)
        ≤ (roundDiv (y.quotient.1.natAbs * 10 ^ places) y.quotient.2 : ℕ) / (10 ^ places : ℕ) := by
    intro x y hle
    refine div_le_div_of_nonneg_right (Nat.cast_le.mpr ?_) hscale.le
    refine roundDiv_mono x.quotient_pos y.quotient_pos ?_
    rw [hcast, hcast]
    exact mul_le_mul_of_nonneg_right hle hscale.le
  have hzero : ∀ x : Binary64, (x.quotient.1.natAbs : ℚ) / x.quotient.2 = 0 →
      ((roundDiv (x.quotient.1.natAbs * 10 ^ places) x.quotient.2 : ℕ) : ℚ) / (10 ^ places : ℕ)
        = 0 := by
    intro x hx
    rw [div_eq_zero_iff, Nat.cast_eq_zero, Nat.cast_eq_zero] at hx
    rw [hx.resolve_right x.quotient_pos.ne', Nat.zero_mul, roundDiv_zero x.quotient_pos,
      Nat.cast_zero, zero_div]
  have hnonneg : ∀ a b : Nat, (0 : ℚ) ≤ a / b := fun a b =>
    div_nonneg (Nat.cast_nonneg a) (Nat.cast_nonneg b)
  rw [value_eq_signed x, value_eq_signed y] at h
  exact ofRatio_mono hpow hpow (signed_le_signed (hnonneg _ _) (hnonneg _ _) (hnonneg _ _)
    (hnonneg _ _) (hround x y) (hround y x) h fun hx hy => ⟨hzero x hx, hzero y hy⟩)

end Binary64
