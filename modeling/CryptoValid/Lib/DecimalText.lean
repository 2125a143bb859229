import CryptoValid.Lib.Decimal
import CryptoValid.Lib.Digits
import CryptoValid.Lib.HalfEven
import Mathlib.Algebra.Field.Basic

/-!
This module contains decimals that are rounded to some places and written without an exponent: which
number of units of the last place the text states, and that it is read back.
-/

namespace Decimal

open Json

/-!
### Operations
-/

/--
`x.to_integral_value()`
-/
def toIntegral : Decimal → Except Error Decimal
  | .nan _ true _ => .error .invalidOperation
  | .nan negative false payload => .ok (fixNan negative payload)
  | .infinity negative => .ok (.infinity negative)
  | .finite negative coeff exp =>
    if 0 ≤ exp then .ok (.finite negative coeff exp)
    else .ok (.finite negative (Binary64.roundDiv coeff (10 ^ (-exp).toNat)) 0)

def signed (negative : Bool) (n : Nat) : Int := if negative then -n else n

/--
`x == y`, where neither of them is a signaling NaN.
-/
def eq : Decimal → Decimal → Bool
  | .finite n a e, .finite m b f =>
    signed n a * 10 ^ (e - f).toNat = signed m b * 10 ^ (f - e).toNat
  | .infinity n, .infinity m => n = m
  | _, _ => false

/--
`x.normalize()`
-/
def normalize : Decimal → Except Error Decimal
  | .nan _ true _ => .error .invalidOperation
  | .nan negative false payload => .ok (fixNan negative payload)
  | .infinity negative => .ok (.infinity negative)
  | .finite negative coeff exp => do
    match ← fix (.finite negative coeff exp) with
    | .finite negative coeff exp =>
      if coeff = 0 then
        return .finite negative 0 0
      else
        let (coeff, exp) := towardsIdeal (emax - exp).toNat coeff exp
        return .finite negative coeff exp
    | x => return x

/--
The digits of `coeff * 10 ^ exp`, with a point where there is one.
-/
def pointText (coeff : Nat) (exp : Int) : Str :=
  let ds := natText coeff
  let point := exp + ds.length
  if point ≤ 0 then txt "0." ++ (List.replicate (-point).toNat 0x30 ++ ds)
  else if ds.length ≤ point then ds ++ List.replicate (point - ds.length).toNat 0x30
  else ds.take point.toNat ++ txt "." ++ ds.drop point.toNat

/--
`format(x, "f")`
-/
def fixedText : Decimal → Str
  | .finite negative coeff exp =>
    toText.sign negative ++ pointText coeff (if coeff = 0 ∧ 0 < exp then 0 else exp)
  | x => x.toText

/-!
### Values
-/

def value (negative : Bool) (coeff : Nat) (exp : Int) : ℚ := signed negative coeff * 10 ^ exp

def Integral (coeff : Nat) (exp : Int) : Prop := 0 ≤ exp ∨ 10 ^ (-exp).toNat ∣ coeff

instance (coeff : Nat) (exp : Int) : Decidable (Integral coeff exp) :=
  inferInstanceAs (Decidable (_ ∨ _))

/--
`coeff * 10 ^ exp` in units of the last of some places, rounded half to even.
-/
def units (places coeff : Nat) (exp : Int) : Nat :=
  if -(places : Int) ≤ exp then coeff * 10 ^ (exp + places).toNat
  else Binary64.roundDiv coeff (10 ^ (-(exp + places)).toNat)

theorem isHalfEven_units (places coeff : Nat) (exp : Int)
    : IsHalfEven ((coeff : ℚ) * 10 ^ exp * 10 ^ places) (units places coeff exp : ℕ) := by
  have hmul : (coeff : ℚ) * 10 ^ exp * 10 ^ places = coeff * 10 ^ (exp + places) := by
    rw [zpow_add₀ (by norm_num), zpow_natCast, mul_assoc]
  rw [hmul, units]
  split
  . next h =>
    have hexp : exp + places = ((exp + places).toNat : ℤ) := by omega
    have hcast : (coeff : ℚ) * 10 ^ (exp + places)
        = ((coeff * 10 ^ (exp + places).toNat : ℕ) : ℤ) := by
      rw [hexp, zpow_natCast]
      push_cast
      rfl
    rw [hcast]
    exact IsHalfEven.intCast _
  . next h =>
    have hexp : exp + places = -((-(exp + places)).toNat : ℤ) := by omega
    have hcast : (coeff : ℚ) * 10 ^ (exp + places)
        = (coeff : ℚ) / (10 ^ (-(exp + places)).toNat : ℕ) := by
      rw [div_eq_mul_inv]
      congr 1
      conv_lhs => rw [hexp]
      rw [zpow_neg, zpow_natCast]
      push_cast
      rfl
    rw [hcast]
    exact Binary64.isHalfEven_roundDiv _ (by positivity)

theorem isHalfEven_value (places : Nat) (negative : Bool) (coeff : Nat) (exp : Int)
    : IsHalfEven (value negative coeff exp * 10 ^ places)
        (signed negative (units places coeff exp)) := by
  have h := isHalfEven_units places coeff exp
  cases negative with
  | false => simpa [value, signed] using h
  | true =>
    have hneg := h.neg
    rw [← neg_mul, ← neg_mul] at hneg
    simpa [value, signed] using hneg

theorem signed_inj {n m : Bool} {a b : Nat}
    : signed n a = signed m b ↔ a = b ∧ (n = m ∨ a = 0) := by
  cases n <;> cases m <;> simp [signed] <;> omega

/-!
### Digits
-/

theorem numDigits_pos (n : Nat) : 0 < numDigits n := List.length_pos_iff.mpr (natText_ne_nil n)

theorem pow_le_of_numDigits {n k : Nat} (hn : n ≠ 0) (h : k < numDigits n) : 10 ^ k ≤ n := by
  rcases Nat.eq_zero_or_pos k with rfl | hk
  . exact Nat.pos_iff_ne_zero.mpr hn
  . by_contra hlt
    rw [not_le, ← length_natText_le_iff hk] at hlt
    exact absurd h (Nat.not_lt.mpr hlt)

theorem numDigits_mul_pow {c : Nat} (hc : c ≠ 0) (n : Nat)
    : numDigits (c * 10 ^ n) = numDigits c + n := by
  rw [numDigits, natText_mul_pow hc, List.length_append, List.length_replicate, numDigits]

theorem le_roundDiv (num den : Nat) : num / den ≤ Binary64.roundDiv num den := by
  unfold Binary64.roundDiv
  dsimp only
  split
  . exact le_rfl
  . split <;> omega

theorem roundDiv_mul {den : Nat} (hden : 0 < den) (q : Nat) : Binary64.roundDiv (q * den) den = q := by
  unfold Binary64.roundDiv
  dsimp only
  rw [Nat.mul_div_cancel _ hden, Nat.mul_mod_left, if_pos (by omega)]

/-!
### Lowest terms
-/

/--
Coefficient and places of `m` units of the last place, without zeros at the end of the places.
-/
def lowest : Nat → Nat → Nat × Nat
  | 0, m => (m, 0)
  | places + 1, m => if m % 10 = 0 then lowest places (m / 10) else (m, places + 1)

theorem lowest_spec (places m : Nat)
    : (lowest places m).1 * 10 ^ (places - (lowest places m).2) = m ∧
        (lowest places m).2 ≤ places ∧ ((lowest places m).2 = 0 ∨ (lowest places m).1 % 10 ≠ 0) := by
  induction places generalizing m with
  | zero => simp [lowest]
  | succ places ih =>
    rw [lowest]
    split
    . next h =>
      rcases ih (m / 10) with ⟨hmul, hle, hlast⟩
      refine ⟨?_, by omega, hlast⟩
      rw [Nat.succ_sub hle, Nat.pow_succ, ← Nat.mul_assoc, hmul]
      omega
    . next h => simp [h]

theorem lowest_eq {places m c k : Nat} (hmul : c * 10 ^ (places - k) = m) (hle : k ≤ places)
    (hlast : k = 0 ∨ c % 10 ≠ 0) : lowest places m = (c, k) := by
  induction places generalizing m with
  | zero =>
    have hk : k = 0 := by omega
    subst hk
    rw [lowest, ← hmul]
    simp
  | succ places ih =>
    rw [lowest]
    rcases Nat.eq_or_lt_of_le hle with rfl | hlt
    . have hm : m = c := by simpa using hmul.symm
      rw [hm, if_neg (by omega)]
    . rw [Nat.succ_sub (by omega), Nat.pow_succ, ← Nat.mul_assoc] at hmul
      rw [if_pos (by omega)]
      exact ih (by omega) (by omega)

/--
The text of `m` units of the last of some places.
-/
def unitsText (places : Nat) (negative : Bool) (m : Nat) : Str :=
  toText.sign negative ++ pointText (lowest places m).1 (-((lowest places m).2 : Int))

theorem pointText_of_nonneg {coeff : Nat} {exp : Int} (hexp : 0 ≤ exp) (hcoeff : coeff = 0 → exp = 0)
    : pointText coeff exp = natText (coeff * 10 ^ exp.toNat) := by
  have hlen := numDigits_pos coeff
  unfold numDigits at hlen
  unfold pointText
  dsimp only
  rw [if_neg (by omega), if_pos (by omega), show exp + (natText coeff).length - (natText coeff).length
    = exp by omega]
  by_cases hzero : coeff = 0
  . rw [hcoeff hzero]
    simp
  . rw [natText_mul_pow hzero]

theorem fixedText_of_nonneg (negative : Bool) (coeff : Nat) {exp : Int} (hexp : 0 ≤ exp)
    : fixedText (.finite negative coeff exp)
        = toText.sign negative ++ natText (coeff * 10 ^ exp.toNat) := by
  rw [fixedText]
  split
  . next h =>
    rw [pointText_of_nonneg le_rfl fun _ => rfl, h.1]
    simp
  . next h => rw [pointText_of_nonneg hexp (by omega)]

theorem fixedText_of_neg (negative : Bool) (coeff : Nat) {exp : Int} (hexp : exp < 0)
    : fixedText (.finite negative coeff exp) = toText.sign negative ++ pointText coeff exp := by
  rw [fixedText, if_neg (by omega)]

theorem unitsText_whole (places : Nat) (negative : Bool) (v : Nat)
    : unitsText places negative (v * 10 ^ places) = toText.sign negative ++ natText v := by
  rw [unitsText, lowest_eq (c := v) (k := 0) (by simp) (Nat.zero_le _) (Or.inl rfl)]
  dsimp only
  rw [Int.natCast_zero, Int.neg_zero, pointText_of_nonneg le_rfl fun _ => rfl]
  simp

/-!
### Rounding
-/

theorem units_of_integral (places : Nat) {coeff : Nat} {exp : Int} (h : Integral coeff exp)
    : ∃ v, units places coeff exp = v * 10 ^ places ∧
        v * 10 ^ (-exp).toNat = coeff * 10 ^ exp.toNat := by
  rcases Int.le_total 0 exp with hexp | hexp
  . refine ⟨coeff * 10 ^ exp.toNat, ?_, ?_⟩
    . rw [units, if_pos (by omega), Nat.mul_assoc, ← Nat.pow_add]
      congr 2
      omega
    . rw [show (-exp).toNat = 0 by omega, Nat.pow_zero, Nat.mul_one]
  . have hdvd : 10 ^ (-exp).toNat ∣ coeff := by
      rcases h with h | h
      . rw [show (-exp).toNat = 0 by omega, Nat.pow_zero]
        exact Nat.one_dvd _
      . exact h
    rcases hdvd with ⟨v, rfl⟩
    refine ⟨v, ?_, ?_⟩
    . rw [units]
      split
      . rw [Nat.mul_comm _ v, Nat.mul_assoc, ← Nat.pow_add]
        congr 2
        omega
      . have hpow : 10 ^ (-exp).toNat = 10 ^ places * 10 ^ (-(exp + places)).toNat := by
          rw [← Nat.pow_add]
          congr 1
          omega
        rw [hpow, Nat.mul_comm _ v, ← Nat.mul_assoc, roundDiv_mul (by positivity)]
    . rw [show exp.toNat = 0 by omega, Nat.pow_zero, Nat.mul_one, Nat.mul_comm]

/--
A number is compared with what it is as an integer, and its text is the one of its units.
-/
theorem toIntegral_finite (negative : Bool) (coeff : Nat) (exp : Int)
    : ∃ x, toIntegral (.finite negative coeff exp) = .ok x ∧
        (eq (.finite negative coeff exp) x = true ↔ Integral coeff exp) ∧
        (Integral coeff exp → ∀ places,
          fixedText x = unitsText places negative (units places coeff exp)) := by
  rcases Int.lt_or_le exp 0 with hexp | hexp
  . refine ⟨_, if_neg (by omega), ?_, ?_⟩
    . have hpow : 0 < 10 ^ (-exp).toNat := by positivity
      rw [eq, decide_eq_true_eq, show (exp - 0).toNat = 0 by omega, pow_zero, mul_one,
        show 0 - exp = -exp by omega, Integral, or_iff_right (by omega)]
      have hcast : ∀ q : Nat, signed negative coeff = signed negative q * 10 ^ (-exp).toNat ↔
          coeff = q * 10 ^ (-exp).toNat := by
        intro q
        rw [← Nat.cast_inj (R := ℤ)]
        cases negative <;> simp [signed]
      rw [hcast]
      constructor
      . exact fun h => ⟨_, h.trans (Nat.mul_comm _ _)⟩
      . rintro ⟨q, rfl⟩
        rw [Nat.mul_comm, roundDiv_mul hpow]
    . intro h places
      rcases units_of_integral places h with ⟨v, hunits, hv⟩
      rw [show exp.toNat = 0 by omega, Nat.pow_zero, Nat.mul_one] at hv
      rw [hunits, unitsText_whole, ← hv, roundDiv_mul (by positivity), fixedText_of_nonneg _ _ le_rfl]
      simp
  . refine ⟨_, if_pos hexp, ?_, ?_⟩
    . simp [eq, Integral, hexp]
    . intro h places
      rcases units_of_integral places h with ⟨v, hunits, hv⟩
      rw [show (-exp).toNat = 0 by omega, Nat.pow_zero, Nat.mul_one] at hv
      rw [hunits, unitsText_whole, hv, fixedText_of_nonneg _ _ hexp]

theorem lt_numDigits_units {places coeff : Nat} {exp : Int} {k : Nat} (hcoeff : coeff ≠ 0)
    (h : (k : Int) < numDigits coeff + exp + places) : k < numDigits (units places coeff exp) := by
  rw [units]
  split
  . next hexp =>
    rw [numDigits_mul_pow hcoeff]
    omega
  . next hexp =>
    have hj : k + (-(exp + places)).toNat < numDigits coeff := by omega
    have hle := pow_le_of_numDigits hcoeff hj
    rw [Nat.pow_add] at hle
    have hdiv := (Nat.le_div_iff_mul_le (by positivity)).mpr hle
    by_contra hnot
    rcases Nat.eq_zero_or_pos k with rfl | hk
    . exact hnot (numDigits_pos _)
    . rw [not_lt, numDigits, length_natText_le_iff hk] at hnot
      exact absurd (hdiv.trans (le_roundDiv _ _)) (Nat.not_le.mpr hnot)

theorem fix_units {places : Nat} (hplaces : places ≤ prec) (negative : Bool) {m : Nat}
    (hm : numDigits m ≤ prec)
    : fix (.finite negative m (-(places : Int))) = .ok (.finite negative m (-(places : Int))) := by
  unfold prec at hplaces hm
  rw [fix]
  split
  . next hzero =>
    rw [hzero]
    congr 2
    unfold etiny emax prec
    omega
  . dsimp only
    unfold etop etiny emax prec
    rw [if_neg (by omega), if_neg (by omega)]

theorem quantize_units {places : Nat} (hplaces : places ≤ prec) (negative : Bool) {coeff : Nat}
    (hcoeff : coeff ≠ 0) (exp : Int)
    : quantize (-(places : Int)) (.finite negative coeff exp)
        = if numDigits (units places coeff exp) ≤ prec then
            .ok (.finite negative (units places coeff exp) (-(places : Int)))
          else
            .error .invalidOperation := by
  have hplaces' : places ≤ 28 := hplaces
  rw [quantize, if_neg hcoeff]
  dsimp only
  have hrescaled : (if -(places : Int) ≤ exp then coeff * 10 ^ (exp - -(places : Int)).toNat
      else Binary64.roundDiv coeff (10 ^ (-(places : Int) - exp).toNat)) = units places coeff exp := by
    rw [units, show exp - -(places : Int) = exp + places by omega,
      show -(places : Int) - exp = -(exp + places) by omega]
  rw [hrescaled]
  split
  . next hlarge =>
    have hdigits : prec < numDigits (units places coeff exp) := by
      refine lt_numDigits_units hcoeff ?_
      unfold emax prec at hlarge
      unfold prec
      omega
    rw [if_neg (Nat.not_le.mpr hdigits)]
  . split
    . next hlarge =>
      rw [if_neg]
      unfold emax prec at hlarge
      unfold prec
      omega
    . next hsmall =>
      have hm : numDigits (units places coeff exp) ≤ prec := by omega
      rw [if_pos hm]
      exact fix_units hplaces negative hm

theorem towardsIdeal_spec (k coeff : Nat) (exp : Int)
    : ∃ (j c : Nat), towardsIdeal k coeff exp = (c, exp + j) ∧ c * 10 ^ j = coeff ∧ j ≤ k ∧
        (j = k ∨ c % 10 ≠ 0) := by
  induction k generalizing coeff exp with
  | zero => exact ⟨0, coeff, by simp [towardsIdeal], by simp, le_rfl, Or.inl rfl⟩
  | succ k ih =>
    rw [towardsIdeal]
    split
    . next h =>
      rcases ih (coeff / 10) (exp + 1) with ⟨j, c, heq, hmul, hle, hlast⟩
      refine ⟨j + 1, c, ?_, ?_, by omega, by omega⟩
      . rw [heq]
        congr 1
        push_cast
        ring
      . rw [Nat.pow_succ, ← Nat.mul_assoc, hmul]
        omega
    . next h => exact ⟨0, coeff, by simp, by simp, Nat.zero_le _, Or.inr h⟩

theorem normalize_units (places : Nat) (hplaces : places ≤ prec) (negative : Bool) {m : Nat}
    (hm : numDigits m ≤ prec)
    : ∃ x, normalize (.finite negative m (-(places : Int))) = .ok x ∧
        fixedText x = unitsText places negative m := by
  have hplaces' : places ≤ 28 := hplaces
  simp only [normalize, fix_units hplaces negative hm, Except.ok_bind]
  split
  . next hzero =>
    refine ⟨_, rfl, ?_⟩
    have hwhole := unitsText_whole places negative 0
    rw [Nat.zero_mul] at hwhole
    rw [fixedText_of_nonneg _ _ le_rfl, hzero, hwhole]
    simp
  . next hzero =>
    rcases towardsIdeal_spec (emax - -(places : Int)).toNat m (-(places : Int)) with
      ⟨j, c, heq, hmul, hle, hlast⟩
    rw [heq]
    refine ⟨_, rfl, ?_⟩
    dsimp only
    rcases Int.lt_or_le (-(places : Int) + j) 0 with hexp | hexp
    . have hj : j ≠ (emax - -(places : Int)).toNat := by
        unfold emax
        omega
      rw [fixedText_of_neg _ _ hexp, unitsText, lowest_eq (c := c) (k := places - j)
        (by rw [Nat.sub_sub_self (by omega)]; exact hmul) (by omega)
        (Or.inr (hlast.resolve_left hj))]
      dsimp only
      rw [show -(places : Int) + j = -((places - j : ℕ) : Int) by omega]
    . have hm' : m = c * 10 ^ (-(places : Int) + j).toNat * 10 ^ places := by
        rw [Nat.mul_assoc, ← Nat.pow_add, ← hmul]
        congr 2
        omega
      rw [fixedText_of_nonneg _ _ hexp, hm', unitsText_whole]

/-!
### Reading
-/

theorem takeWhile_digits {whole : Str} (rest : Str) (hwhole : ∀ c ∈ whole, isDigit c = true)
    (hrest : ∀ c cs, rest = c :: cs → isDigit c = false)
    : (whole ++ rest).takeWhile isDigit = whole ∧ (whole ++ rest).dropWhile isDigit = rest := by
  rw [List.takeWhile_append_of_pos hwhole, List.dropWhile_append_of_pos hwhole]
  cases rest with
  | nil => simp
  | cons c cs => simp [hrest c cs rfl]

theorem number?_digits (negative : Bool) {whole : Str} (hne : whole ≠ [])
    (hwhole : ∀ c ∈ whole, isDigit c = true)
    : number? negative whole
        = if constructible (natOfText whole) 0 then some (.finite negative (natOfText whole) 0)
          else none := by
  have hsplit := takeWhile_digits [] hwhole (by simp)
  rw [List.append_nil] at hsplit
  simp [number?, hsplit, hne]

theorem number?_point (negative : Bool) {whole frac : Str} (hne : whole ≠ [])
    (hwhole : ∀ c ∈ whole, isDigit c = true) (hfrac : ∀ c ∈ frac, isDigit c = true)
    : number? negative (whole ++ 0x2e :: frac)
        = if constructible (natOfText (whole ++ frac)) (-(frac.length : Int)) then
            some (.finite negative (natOfText (whole ++ frac)) (-(frac.length : Int)))
          else
            none := by
  have hsplit := takeWhile_digits (0x2e :: frac) hwhole (by
    rintro c cs ⟨rfl, rfl⟩
    rfl)
  have hsplit' := takeWhile_digits [] hfrac (by simp)
  rw [List.append_nil] at hsplit'
  simp [number?, hsplit, hsplit', hne]

/--
What is written with a point.
-/
theorem pointText_of_neg (c : Nat) {k : Nat} (hk : 0 < k)
    : ∃ whole frac, pointText c (-(k : Int)) = whole ++ 0x2e :: frac ∧ whole ≠ [] ∧
        (∀ x ∈ whole ++ frac, isDigit x = true) ∧ frac.length = k ∧ natOfText (whole ++ frac) = c := by
  have hdigits := natText_isDigit c
  unfold pointText
  dsimp only
  split
  . next h =>
    refine ⟨[0x30], List.replicate (-(-(k : Int) + (natText c).length)).toNat 0x30 ++ natText c, rfl,
      by simp, ?_, ?_, ?_⟩
    . intro x hx
      simp only [List.mem_append, List.mem_singleton, List.mem_replicate] at hx
      rcases hx with rfl | ⟨_, rfl⟩ | hx
      . rfl
      . rfl
      . exact hdigits x hx
    . rw [List.length_append, List.length_replicate]
      omega
    . rw [show ([0x30] : Str) = List.replicate 1 0x30 from rfl, natOfText_zeros_append,
        natOfText_zeros_append, natOfText_natText]
  . next h =>
    rw [if_neg (by omega)]
    refine ⟨(natText c).take (-(k : Int) + (natText c).length).toNat,
      (natText c).drop (-(k : Int) + (natText c).length).toNat, ?_, ?_, ?_, ?_, ?_⟩
    . rw [List.append_assoc]
      rfl
    . intro hnil
      have hlen := congrArg List.length hnil
      rw [List.length_take, List.length_nil] at hlen
      omega
    . rw [List.take_append_drop]
      exact hdigits
    . rw [List.length_drop]
      omega
    . rw [List.take_append_drop, natOfText_natText]

/--
Coefficient and places can be read off.
-/
theorem pointText_read (c k : Nat)
    : let text := pointText c (-(k : Int))
      natOfText (text.takeWhile isDigit ++ (text.dropWhile isDigit).drop 1) = c ∧
        ((text.dropWhile isDigit).drop 1).length = k := by
  dsimp only
  rcases Nat.eq_zero_or_pos k with rfl | hk
  . have hsplit := takeWhile_digits [] (natText_isDigit c) (by simp)
    rw [List.append_nil] at hsplit
    rw [Int.natCast_zero, Int.neg_zero, pointText_of_nonneg le_rfl fun _ => rfl, Int.toNat_zero,
      Nat.pow_zero, Nat.mul_one, hsplit.1, hsplit.2]
    simp [natOfText_natText]
  . rcases pointText_of_neg c hk with ⟨whole, frac, heq, _, hdigits, hlen, hc⟩
    have hsplit := takeWhile_digits (0x2e :: frac)
      (fun x hx => hdigits x (List.mem_append_left frac hx)) (by
        rintro c cs ⟨rfl, rfl⟩
        rfl)
    rw [heq, hsplit.1, hsplit.2]
    exact ⟨hc, hlen⟩

theorem pointText_inj {c k c' k' : Nat}
    (h : pointText c (-(k : Int)) = pointText c' (-(k' : Int))) : c = c' ∧ k = k' := by
  have hread := pointText_read c k
  rw [h] at hread
  have hread' := pointText_read c' k'
  exact ⟨hread.1.symm.trans hread'.1, hread.2.symm.trans hread'.2⟩

theorem number?_pointText (negative : Bool) (c k : Nat)
    : number? negative (pointText c (-(k : Int)))
        = if constructible c (-(k : Int)) then some (.finite negative c (-(k : Int))) else none := by
  rcases Nat.eq_zero_or_pos k with rfl | hk
  . rw [Int.natCast_zero, Int.neg_zero, pointText_of_nonneg le_rfl fun _ => rfl, Int.toNat_zero,
      Nat.pow_zero, Nat.mul_one, number?_digits negative (natText_ne_nil c) (natText_isDigit c),
      natOfText_natText]
  . rcases pointText_of_neg c hk with ⟨whole, frac, heq, hne, hdigits, hlen, hc⟩
    rw [heq, number?_point negative hne (fun x hx => hdigits x (List.mem_append_left _ hx))
      fun x hx => hdigits x (List.mem_append_right _ hx), hc, hlen]

theorem pointText_eq_cons (c k : Nat)
    : ∃ d ds, pointText c (-(k : Int)) = d :: ds ∧ isDigit d = true ∧
        ∀ x ∈ ds, isDigit x = true ∨ x = 0x2e := by
  rcases Nat.eq_zero_or_pos k with rfl | hk
  . rcases natText_eq_cons c with ⟨d, ds, heq, hd, _⟩
    refine ⟨d, ds, ?_, hd, fun x hx => Or.inl (natText_isDigit c x ?_)⟩
    . rw [Int.natCast_zero, Int.neg_zero, pointText_of_nonneg le_rfl fun _ => rfl, Int.toNat_zero,
        Nat.pow_zero, Nat.mul_one, heq]
    . rw [heq]
      exact List.mem_cons_of_mem d hx
  . rcases pointText_of_neg c hk with ⟨whole, frac, heq, hne, hdigits, _, _⟩
    rcases List.exists_cons_of_ne_nil hne with ⟨d, ds, rfl⟩
    refine ⟨d, ds ++ 0x2e :: frac, heq, hdigits d (by simp), ?_⟩
    intro x hx
    rcases List.mem_append.mp hx with hx | hx
    . exact Or.inl (hdigits x (by simp [hx]))
    . rcases List.mem_cons.mp hx with rfl | hx
      . exact Or.inr rfl
      . exact Or.inl (hdigits x (by simp [hx]))

/--
The text has digits, a sign and a point only.
-/
theorem val_of_mem_signedText {negative : Bool} {coeff k : Nat} {c : CodePoint}
    (hc : c ∈ toText.sign negative ++ pointText coeff (-(k : Int)))
    : c.val = 45 ∨ c.val = 46 ∨ (48 ≤ c.val ∧ c.val ≤ 57) := by
  rcases pointText_eq_cons coeff k with ⟨d, ds, heq, hd, hds⟩
  rw [heq] at hc
  have hdigit : ∀ x : CodePoint, isDigit x = true → 48 ≤ x.val ∧ x.val ≤ 57 := by
    intro x hx
    simpa [isDigit] using hx
  rcases List.mem_append.mp hc with hc | hc
  . cases negative with
    | true =>
      have hsign : toText.sign true = [0x2d] := rfl
      rw [hsign, List.mem_singleton] at hc
      rw [hc]
      exact Or.inl rfl
    | false =>
      have hsign : toText.sign false = [] := rfl
      rw [hsign] at hc
      simp at hc
  . rcases List.mem_cons.mp hc with rfl | hc
    . exact Or.inr (Or.inr (hdigit c hd))
    . rcases hds c hc with hc | rfl
      . exact Or.inr (Or.inr (hdigit c hc))
      . exact Or.inr (Or.inl rfl)

theorem plain_signedText {negative : Bool} {coeff k : Nat}
    : ∀ c ∈ toText.sign negative ++ pointText coeff (-(k : Int)),
        0x2c < c.val ∧ c.val < 0x7b ∧ c ≠ 0x5f := by
  intro c hc
  have hval := val_of_mem_signedText hc
  refine ⟨by omega, by omega, ?_⟩
  rintro rfl
  simp at hval

theorem signed?_signedText (negative : Bool) {coeff k : Nat}
    (h : constructible coeff (-(k : Int)) = true)
    : signed? (toText.sign negative ++ pointText coeff (-(k : Int)))
        = some (.finite negative coeff (-(k : Int))) := by
  rcases pointText_eq_cons coeff k with ⟨d, ds, heq, hd, _⟩
  rw [heq, signed?_sign negative hd, ← heq, number?_pointText, if_pos h]

theorem val_of_mem_unitsText {places : Nat} {negative : Bool} {m : Nat} {c : CodePoint}
    (hc : c ∈ unitsText places negative m) : c.val = 45 ∨ c.val = 46 ∨ (48 ≤ c.val ∧ c.val ≤ 57) :=
  val_of_mem_signedText hc

theorem ofText_unitsText {places : Nat} (negative : Bool) {m : Nat}
    (h : constructible (lowest places m).1 (-((lowest places m).2 : Int)) = true)
    : ofText (unitsText places negative m)
        = .ok (.finite negative (lowest places m).1 (-((lowest places m).2 : Int))) := by
  rw [unitsText, ofText_of_plain plain_signedText, signed?_signedText negative h, Option.elim_some]

theorem unitsText_inj {places : Nat} {n n' : Bool} {m m' : Nat}
    : unitsText places n m = unitsText places n' m' ↔ n = n' ∧ m = m' := by
  constructor
  . intro h
    rcases pointText_eq_cons (lowest places m).1 (lowest places m).2 with ⟨d, ds, heq, hd, _⟩
    rcases pointText_eq_cons (lowest places m').1 (lowest places m').2 with ⟨d', ds', heq', hd', _⟩
    have hminus : ∀ x : CodePoint, isDigit x = true → x ≠ 0x2d := by
      rintro x hx rfl
      simp [isDigit] at hx
    have htrue : toText.sign true = [0x2d] := rfl
    have hfalse : toText.sign false = [] := rfl
    have hboth : n = n' ∧ pointText (lowest places m).1 (-((lowest places m).2 : Int))
        = pointText (lowest places m').1 (-((lowest places m').2 : Int)) := by
      rw [unitsText, unitsText, heq, heq'] at h
      rw [heq, heq']
      cases n <;> cases n' <;>
        simp only [htrue, hfalse, List.nil_append, List.singleton_append, List.cons.injEq] at h ⊢
      . simpa using h
      . exact absurd h.1 (hminus d hd)
      . exact absurd h.1.symm (hminus d' hd')
      . simpa using h
    refine ⟨hboth.1, ?_⟩
    rcases pointText_inj hboth.2 with ⟨hc, hk⟩
    have hm := (lowest_spec places m).1
    rw [hc, hk, (lowest_spec places m').1] at hm
    exact hm.symm
  . rintro ⟨rfl, rfl⟩
    rfl

end Decimal
