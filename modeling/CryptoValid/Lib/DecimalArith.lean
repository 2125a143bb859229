import CryptoValid.Lib.DecimalText

/-!
This module contains sums, products and comparisons of decimals, and that nothing is lost when
amounts with few places are compared and subtracted.
-/

namespace Decimal

open Json

/-!
### Operations
-/

def neg : Decimal → Decimal
  | .finite negative coeff exp => .finite (!negative) coeff exp
  | .infinity negative => .infinity (!negative)
  | .nan negative signaling payload => .nan negative signaling payload

/--
`x + y`. A sum of zero is only negative if both sides are.
-/
def add : Decimal → Decimal → Except Error Decimal
  | .nan _ true _, _ => .error .invalidOperation
  | _, .nan _ true _ => .error .invalidOperation
  | .nan negative false payload, _ => .ok (fixNan negative payload)
  | _, .nan negative false payload => .ok (fixNan negative payload)
  | .infinity n, .infinity m => if n = m then .ok (.infinity n) else .error .invalidOperation
  | .infinity n, .finite _ _ _ => .ok (.infinity n)
  | .finite _ _ _, .infinity m => .ok (.infinity m)
  | .finite n a e, .finite m b f =>
    let exp := min e f
    let sum := signed n a * 10 ^ (e - exp).toNat + signed m b * 10 ^ (f - exp).toNat
    fix (.finite (if sum = 0 then n && m else decide (sum < 0)) sum.natAbs exp)

/--
`x - y`
-/
def sub (x y : Decimal) : Except Error Decimal := add x y.neg

/--
`x * y`
-/
def mul : Decimal → Decimal → Except Error Decimal
  | .nan _ true _, _ => .error .invalidOperation
  | _, .nan _ true _ => .error .invalidOperation
  | .nan negative false payload, _ => .ok (fixNan negative payload)
  | _, .nan negative false payload => .ok (fixNan negative payload)
  | .infinity n, .infinity m => .ok (.infinity (n != m))
  | .infinity n, .finite m b _ => if b = 0 then .error .invalidOperation else .ok (.infinity (n != m))
  | .finite n a _, .infinity m => if a = 0 then .error .invalidOperation else .ok (.infinity (n != m))
  | .finite n a e, .finite m b f => fix (.finite (n != m) (a * b) (e + f))

/--
`x < y`
-/
def lt : Decimal → Decimal → Except Error Bool
  | .nan _ _ _, _ => .error .invalidOperation
  | _, .nan _ _ _ => .error .invalidOperation
  | .infinity n, .infinity m => .ok (n && !m)
  | .infinity n, .finite _ _ _ => .ok n
  | .finite _ _ _, .infinity m => .ok (!m)
  | .finite n a e, .finite m b f =>
    .ok (signed n a * 10 ^ (e - f).toNat < signed m b * 10 ^ (f - e).toNat)

def zero : Decimal := .finite false 0 0

/--
`min(x, y)`: the second one only if it is smaller.
-/
def least (x y : Decimal) : Except Error Decimal := do
  return if ← lt y x then y else x

/-!
### Amounts
-/

/--
A number that is not negative: `m` units of the last of some places.
-/
def Amount (places m : Nat) (x : Decimal) : Prop :=
  ∃ (negative : Bool) (coeff k : Nat), x = .finite negative coeff (-(k : Int)) ∧ k ≤ places ∧
    coeff * 10 ^ (places - k) = m ∧ (negative = true → coeff = 0)

theorem signed_of_zero {negative : Bool} {coeff : Nat} (h : negative = true → coeff = 0)
    : signed negative coeff = coeff := by
  cases negative with
  | false => rfl
  | true => simp [signed, h rfl]

theorem amount_zero (places : Nat) : Amount places 0 zero :=
  ⟨false, 0, 0, rfl, Nat.zero_le _, by simp, by simp⟩

/--
Scaled by what is missing to the more precise one of two numbers.
-/
theorem scale_eq {places k j c m : Nat} (hk : k ≤ places) (hj : j ≤ places)
    (hc : c * 10 ^ (places - k) = m) : c * 10 ^ (j - k) * 10 ^ (places - max k j) = m := by
  rw [Nat.mul_assoc, ← Nat.pow_add, show j - k + (places - max k j) = places - k by omega, hc]

section

variable {places a b : Nat} {x y : Decimal}

theorem Amount.lt (hx : Amount places a x) (hy : Amount places b y)
    : Decimal.lt x y = .ok (decide (a < b)) := by
  rcases hx with ⟨n, c, k, rfl, hk, hc, hn⟩
  rcases hy with ⟨m, d, j, rfl, hj, hd, hm⟩
  have hpos : 0 < 10 ^ (places - max k j) := by positivity
  have hca := scale_eq hk hj hc
  have hdb := scale_eq hj hk hd
  rw [max_comm] at hdb
  have hiff : (c : Int) * 10 ^ (-(k : Int) - -(j : Int)).toNat
      < (d : Int) * 10 ^ (-(j : Int) - -(k : Int)).toNat ↔ a < b := by
    rw [show (-(k : Int) - -(j : Int)).toNat = j - k by omega,
      show (-(j : Int) - -(k : Int)).toNat = k - j by omega, ← hca, ← hdb,
      Nat.mul_lt_mul_right hpos]
    exact_mod_cast Iff.rfl
  rw [Decimal.lt, signed_of_zero hn, signed_of_zero hm]
  simp only [hiff]

theorem Amount.least (hx : Amount places a x) (hy : Amount places b y)
    : ∃ z, Decimal.least x y = .ok z ∧ Amount places (min a b) z := by
  rw [Decimal.least, hy.lt hx, Except.ok_bind]
  by_cases hlt : b < a
  . refine ⟨y, by simp [hlt]; rfl, ?_⟩
    rwa [min_eq_right hlt.le]
  . refine ⟨x, by simp [hlt]; rfl, ?_⟩
    rwa [min_eq_left (not_lt.mp hlt)]

theorem Amount.eq_zero (hx : Amount places a x) : Decimal.eq x zero = decide (a = 0) := by
  rcases hx with ⟨n, c, k, rfl, hk, hc, hn⟩
  have hpos : 10 ^ (places - k) ≠ 0 := by positivity
  rw [zero, Decimal.eq, signed_of_zero hn]
  have hiff : (c : Int) * 10 ^ (-(k : Int) - 0).toNat
      = signed false 0 * 10 ^ (0 - -(k : Int)).toNat ↔ a = 0 := by
    rw [show (-(k : Int) - 0).toNat = 0 by omega, ← hc, Nat.mul_eq_zero]
    simp [signed]
  simp only [hiff]

theorem numDigits_le_of_amount {places m c k : Nat} (hc : c * 10 ^ (places - k) = m)
    (hm : numDigits m ≤ prec) : numDigits c ≤ prec := by
  have hle : c ≤ m := by
    rw [← hc]
    exact Nat.le_mul_of_pos_right _ (by positivity)
  exact le_trans (length_natText_mono hle) hm

/--
A difference of amounts is exact.
-/
theorem Amount.sub (hx : Amount places a x) (hy : Amount places b y) (hle : b ≤ a)
    (hplaces : places ≤ prec) (hdigits : numDigits a ≤ prec)
    : ∃ z, Decimal.sub x y = .ok z ∧ Amount places (a - b) z := by
  rcases hx with ⟨n, c, k, rfl, hk, hc, hn⟩
  rcases hy with ⟨m, d, j, rfl, hj, hd, hm⟩
  have hca := scale_eq hk hj hc
  have hdb := scale_eq hj hk hd
  rw [max_comm] at hdb
  have hpos : 0 < 10 ^ (places - max k j) := by positivity
  have hcd : d * 10 ^ (k - j) ≤ c * 10 ^ (j - k) := by
    rw [← hca, ← hdb] at hle
    exact Nat.le_of_mul_le_mul_right hle hpos
  have hexp : min (-(k : Int)) (-(j : Int)) = -((max k j : Nat) : Int) := by omega
  have hsum : signed n c * 10 ^ (-(k : Int) - min (-(k : Int)) (-(j : Int))).toNat +
      signed (!m) d * 10 ^ (-(j : Int) - min (-(k : Int)) (-(j : Int))).toNat
      = ((c * 10 ^ (j - k) - d * 10 ^ (k - j) : Nat) : Int) := by
    have hneg : signed (!m) d = -(d : Int) := by
      cases m with
      | false => rfl
      | true => simp [signed, hm rfl]
    rw [show (-(k : Int) - min (-(k : Int)) (-(j : Int))).toNat = j - k by omega,
      show (-(j : Int) - min (-(k : Int)) (-(j : Int))).toNat = k - j by omega,
      signed_of_zero hn, hneg, Nat.cast_sub hcd]
    push_cast
    ring
  have hmul : (c * 10 ^ (j - k) - d * 10 ^ (k - j)) * 10 ^ (places - max k j) = a - b := by
    rw [Nat.sub_mul, hca, hdb]
  rw [Decimal.sub, Decimal.neg, add]
  rw [hsum, hexp, Int.natAbs_natCast]
  have hfix : ∀ negative, fix (.finite negative (c * 10 ^ (j - k) - d * 10 ^ (k - j))
      (-((max k j : Nat) : Int)))
      = .ok (.finite negative (c * 10 ^ (j - k) - d * 10 ^ (k - j)) (-((max k j : Nat) : Int))) := by
    intro negative
    refine fix_units (by omega) negative (numDigits_le_of_amount hmul ?_)
    exact le_trans (length_natText_mono (Nat.sub_le a b)) hdigits
  rw [hfix]
  refine ⟨_, rfl, _, _, max k j, rfl, by omega, hmul, ?_⟩
  split
  . next hzero => exact fun _ => by exact_mod_cast hzero
  . next hzero =>
    intro hlt
    rw [decide_eq_true_eq] at hlt
    omega

end

/--
An amount is written with a point and no exponent, and read as it was.
-/
theorem signed?_toText {places m : Nat} {x : Decimal} (hplaces : places ≤ 6)
    (hx : Amount places m x)
    (hdigits : numDigits m ≤ prec)
    : signed? x.toText = some x ∧ ∀ c ∈ x.toText, 0x2c < c.val ∧ c.val < 0x7b ∧ c ≠ 0x5f := by
  rcases hx with ⟨n, c, k, rfl, hk, hc, hn⟩
  have hlen : 0 < (natText c).length := List.length_pos_iff.mpr (natText_ne_nil c)
  have htext : toText (.finite n c (-(k : Int))) = toText.sign n ++ pointText c (-(k : Int)) := by
    have hpoint : -(k : Int) ≤ 0 ∧ -6 < -(k : Int) + (natText c).length := by omega
    rw [toText, if_pos hpoint, if_pos rfl, List.append_nil]
    rfl
  rw [htext]
  refine ⟨signed?_signedText n ?_, plain_signedText⟩
  have hcoeff := numDigits_le_of_amount hc hdigits
  unfold prec at hcoeff
  rw [constructible, Bool.and_eq_true, decide_eq_true_eq, decide_eq_true_eq]
  omega

end Decimal
