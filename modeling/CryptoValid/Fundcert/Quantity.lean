import CryptoValid.Lib.DecimalText

/-!
This module contains the canonical text of a quantity in `fundcert_canonical.py`: which quantities
have the same one, and which texts are refused.
-/

namespace CryptoValid
namespace Fundcert

open Json Decimal

/--
Decimals of a quantity that is not whole.
-/
def quantityDp : Nat := 6

/--
`ValueError` quotes the text, errors of the arithmetic are other ones.
-/
inductive QuantityError where
  | value (raw : Str)
  | decimal (e : Decimal.Error)
  deriving DecidableEq, Repr

def comma : CodePoint := 0x2c

/--
What a quantity is read as.
-/
def reading (raw : Str) : Except Decimal.Error Decimal :=
  Decimal.ofText ((Python.stripBlanks raw).filter (· ≠ comma))

def canonDecimal (x : Decimal) : Except Decimal.Error Str := do
  let whole ← x.toIntegral
  if x.eq whole then
    return whole.fixedText
  else do
    let q ← x.quantize (-(quantityDp : Int))
    return (← q.normalize).fixedText

def canonQuantity (raw : Str) : Except QuantityError Str :=
  match reading raw with
  | .error _ => .error (.value raw)
  | .ok x => (canonDecimal x).mapError .decimal

/-!
### Numbers
-/

/--
The number can be written down.
-/
def Representable (coeff : Nat) (exp : Int) : Prop :=
  Integral coeff exp ∨ numDigits (units quantityDp coeff exp) ≤ prec

instance (coeff : Nat) (exp : Int) : Decidable (Representable coeff exp) :=
  inferInstanceAs (Decidable (_ ∨ _))

theorem canonDecimal_finite (negative : Bool) (coeff : Nat) (exp : Int)
    : canonDecimal (.finite negative coeff exp)
        = if Representable coeff exp then
            .ok (unitsText quantityDp negative (units quantityDp coeff exp))
          else
            .error .invalidOperation := by
  rcases toIntegral_finite negative coeff exp with ⟨whole, hwhole, heq, htext⟩
  rw [canonDecimal, hwhole, Except.ok_bind]
  by_cases hintegral : Integral coeff exp
  . have hrep : Representable coeff exp := Or.inl hintegral
    rw [if_pos (heq.mpr hintegral), if_pos hrep, htext hintegral]
    rfl
  . have hcoeff : coeff ≠ 0 := by
      rintro rfl
      exact hintegral (Or.inr (Nat.dvd_zero _))
    rw [if_neg fun h => hintegral (heq.mp h), quantize_units (by decide) negative hcoeff]
    by_cases hdigits : numDigits (units quantityDp coeff exp) ≤ prec
    . rcases normalize_units quantityDp (by decide) negative hdigits with ⟨x, hx, htext⟩
      have hrep : Representable coeff exp := Or.inr hdigits
      rw [if_pos hdigits, if_pos hrep, Except.ok_bind, hx, ← htext]
      rfl
    . have hrep : ¬Representable coeff exp := fun h => h.elim hintegral hdigits
      rw [if_neg hdigits, if_neg hrep]
      rfl

theorem canonQuantity_of_reading {raw : Str} {x : Decimal} (h : reading raw = .ok x)
    : canonQuantity raw = (canonDecimal x).mapError .decimal := by
  rw [canonQuantity, h]

theorem canonQuantity_finite {raw : Str} {negative : Bool} {coeff : Nat} {exp : Int}
    (h : reading raw = .ok (.finite negative coeff exp))
    : canonQuantity raw
        = if Representable coeff exp then
            .ok (unitsText quantityDp negative (units quantityDp coeff exp))
          else
            .error (.decimal .invalidOperation) := by
  rw [canonQuantity_of_reading h, canonDecimal_finite]
  split <;> rfl

/--
A text that is read as it stands.
-/
theorem reading_of_plain {s : Str} (hs : ∀ c ∈ s, 0x2c < c.val ∧ c.val < 0x7b ∧ c ≠ 0x5f)
    : reading s = (signed? s).elim (.error .invalidOperation) .ok := by
  have hstrip : Python.stripBlanks s = s := by
    refine Python.stripBlanks_of_plain fun c hc => ?_
    have := hs c hc
    exact Python.isSpace_of_val (by omega) (by omega)
  have hfilter : s.filter (· ≠ comma) = s := by
    rw [List.filter_eq_self]
    intro c hc
    rw [decide_eq_true_eq]
    rintro rfl
    exact absurd (hs comma hc).1 (by decide)
  rw [reading, hstrip, hfilter, ofText_of_plain hs]

/--
What is written was read from a number in range, and so it is in range.
-/
theorem constructible_lowest {coeff : Nat} {exp : Int} (h : constructible coeff exp = true)
    (hrep : Representable coeff exp)
    : constructible (lowest quantityDp (units quantityDp coeff exp)).1
        (-((lowest quantityDp (units quantityDp coeff exp)).2 : Int)) = true := by
  rw [constructible, Bool.and_eq_true, decide_eq_true_eq, decide_eq_true_eq] at h ⊢
  by_cases hintegral : Integral coeff exp
  . rcases units_of_integral quantityDp hintegral with ⟨v, hunits, hv⟩
    rw [hunits, lowest_eq (c := v) (k := 0) (by simp) (Nat.zero_le _) (Or.inl rfl)]
    refine ⟨?_, by norm_num⟩
    dsimp only
    by_cases hzero : v = 0
    . rw [hzero, numDigits, natText]
      simp
    . have hcoeff : coeff ≠ 0 := by
        rintro rfl
        rw [Nat.zero_mul, Nat.mul_eq_zero] at hv
        rcases hv with hv | hv
        . exact hzero hv
        . exact absurd hv (by positivity)
      have hdigits := congrArg numDigits hv
      rw [numDigits_mul_pow hzero, numDigits_mul_pow hcoeff] at hdigits
      omega
  . have hdigits := hrep.resolve_left hintegral
    have hspec := lowest_spec quantityDp (units quantityDp coeff exp)
    have hle : (lowest quantityDp (units quantityDp coeff exp)).1 ≤ units quantityDp coeff exp := by
      conv_rhs => rw [← hspec.1]
      exact Nat.le_mul_of_pos_right _ (by positivity)
    have hmono : numDigits (lowest quantityDp (units quantityDp coeff exp)).1
        ≤ numDigits (units quantityDp coeff exp) := length_natText_mono hle
    have hk : (lowest quantityDp (units quantityDp coeff exp)).2 ≤ 6 := hspec.2.1
    unfold prec at hdigits
    omega

/--
Numbers are only read from texts in range.
-/
theorem constructible_of_ofText {s : Str} {negative : Bool} {coeff : Nat} {exp : Int}
    (h : Decimal.ofText s = .ok (.finite negative coeff exp)) : constructible coeff exp = true := by
  have hexponent : ∀ {o : Option Int} {n : Bool} {c : Nat} {k : Int},
      (o.bind fun e => if constructible c (e - k) = true then some (Decimal.finite n c (e - k))
        else none) = some (.finite negative coeff exp) → constructible coeff exp = true := by
    intro o n c k ht
    rcases Option.bind_eq_some_iff.mp ht with ⟨e, _, ht⟩
    split at ht
    . next hc =>
      simp only [Option.some.injEq, Decimal.finite.injEq] at ht
      rcases ht with ⟨_, rfl, rfl⟩
      exact hc
    . simp at ht
  have hnumber : ∀ {n : Bool} {t : Str}, number? n t = some (.finite negative coeff exp) →
      constructible coeff exp = true := by
    intro n t ht
    unfold number? at ht
    dsimp only at ht
    split at ht
    . split at ht
      . split at ht
        . exact absurd ht (by simp)
        . exact hexponent ht
      . split at ht
        . exact absurd ht (by simp)
        . exact hexponent ht
    . split at ht
      . exact absurd ht (by simp)
      . exact hexponent ht
  have hpayload : ∀ {n signaling : Bool} {t : Str},
      unsigned?.payload? n signaling t ≠ some (.finite negative coeff exp) := by
    intro n signaling t ht
    unfold unsigned?.payload? at ht
    split at ht <;> simp at ht
  have hunsigned : ∀ {n : Bool} {t : Str}, unsigned? n t = some (.finite negative coeff exp) →
      constructible coeff exp = true := by
    intro n t ht
    unfold unsigned? at ht
    dsimp only at ht
    split at ht
    . simp at ht
    . split at ht
      . exact absurd ht hpayload
      . split at ht
        . exact absurd ht hpayload
        . exact hnumber ht
  have hsigned : ∀ {t : Str}, signed? t = some (.finite negative coeff exp) →
      constructible coeff exp = true := by
    intro t ht
    unfold signed? at ht
    split at ht
    . split at ht
      . exact hunsigned ht
      . split at ht
        . exact hunsigned ht
        . exact hunsigned ht
    . simp at ht
  unfold Decimal.ofText at h
  dsimp only at h
  split at h
  . next x hx =>
    rw [Except.ok.injEq] at h
    exact hsigned (h ▸ hx)
  . simp at h

/-!
### The canonical text
-/

/--
The text stands for a number that is `m` millionths, rounded half to even.
-/
def Rounds (raw : Str) (m : Int) : Prop :=
  ∃ negative coeff exp, reading raw = .ok (.finite negative coeff exp) ∧
    IsHalfEven (value negative coeff exp * 10 ^ quantityDp) m

def Negative (raw : Str) : Prop := ∃ coeff exp, reading raw = .ok (.finite true coeff exp)

theorem rounds_iff {raw : Str} {negative : Bool} {coeff : Nat} {exp : Int}
    (h : reading raw = .ok (.finite negative coeff exp)) {m : Int}
    : Rounds raw m ↔ m = signed negative (units quantityDp coeff exp) := by
  constructor
  . rintro ⟨n, c, e, hread, hm⟩
    rw [h, Except.ok.injEq, Decimal.finite.injEq] at hread
    rcases hread with ⟨rfl, rfl, rfl⟩
    exact hm.unique (isHalfEven_value _ _ _ _)
  . rintro rfl
    exact ⟨negative, coeff, exp, h, isHalfEven_value _ _ _ _⟩

theorem negative_iff {raw : Str} {negative : Bool} {coeff : Nat} {exp : Int}
    (h : reading raw = .ok (.finite negative coeff exp)) : Negative raw ↔ negative = true := by
  constructor
  . rintro ⟨c, e, hread⟩
    rw [h, Except.ok.injEq, Decimal.finite.injEq] at hread
    exact hread.1
  . rintro rfl
    exact ⟨coeff, exp, h⟩

theorem canonQuantity_eq_iff {a b s t : Str} {m n : Int} (ha : canonQuantity a = .ok s)
    (hb : canonQuantity b = .ok t) (hm : Rounds a m) (hn : Rounds b n)
    : s = t ↔ m = n ∧ (Negative a ↔ Negative b) := by
  rcases hm with ⟨_, _, _, hreada, hm⟩
  rcases hn with ⟨_, _, _, hreadb, hn⟩
  have hm' := (rounds_iff hreada).mp ⟨_, _, _, hreada, hm⟩
  have hn' := (rounds_iff hreadb).mp ⟨_, _, _, hreadb, hn⟩
  rw [canonQuantity_finite hreada] at ha
  rw [canonQuantity_finite hreadb] at hb
  split at ha
  . split at hb
    . rw [← Except.ok.inj ha, ← Except.ok.inj hb, unitsText_inj, hm', hn', signed_inj,
        negative_iff hreada, negative_iff hreadb, ← Bool.eq_iff_iff]
      tauto
    . simp at hb
  . simp at ha

theorem units_lowest (m : Nat)
    : units quantityDp (lowest quantityDp m).1 (-((lowest quantityDp m).2 : Int)) = m := by
  have hspec := lowest_spec quantityDp m
  generalize lowest quantityDp m = p at hspec
  rw [units, if_pos (by omega), ← hspec.1]
  congr 2
  omega

theorem reading_unitsText (negative : Bool) {m : Nat}
    (h : constructible (lowest quantityDp m).1 (-((lowest quantityDp m).2 : Int)) = true)
    : reading (unitsText quantityDp negative m)
        = .ok (.finite negative (lowest quantityDp m).1 (-((lowest quantityDp m).2 : Int))) := by
  have hread := ofText_unitsText negative h
  rwa [unitsText, ofText_of_plain plain_signedText, ← reading_of_plain plain_signedText,
    ← unitsText] at hread

/--
What is done to a number again changes nothing.
-/
theorem canonQuantity_unitsText {raw : Str} {negative : Bool} {coeff : Nat} {exp : Int}
    (h : reading raw = .ok (.finite negative coeff exp)) (hrep : Representable coeff exp)
    : canonQuantity (unitsText quantityDp negative (units quantityDp coeff exp))
        = .ok (unitsText quantityDp negative (units quantityDp coeff exp)) := by
  have hread := reading_unitsText negative (constructible_lowest (constructible_of_ofText h) hrep)
  have hrep' : Representable (lowest quantityDp (units quantityDp coeff exp)).1
      (-((lowest quantityDp (units quantityDp coeff exp)).2 : Int)) := by
    rcases hrep with hintegral | hdigits
    . rcases units_of_integral quantityDp hintegral with ⟨v, hv, _⟩
      rw [hv, lowest_eq (c := v) (k := 0) (by simp) (Nat.zero_le _) (Or.inl rfl)]
      exact Or.inl (Or.inl (le_of_eq rfl))
    . rw [Representable, units_lowest]
      exact Or.inr hdigits
  rw [canonQuantity_finite hread, if_pos hrep', units_lowest]

/--
The canonical text stands for the same number.
-/
theorem Rounds.canonQuantity {raw s : Str} {m : Int} (hm : Rounds raw m)
    (h : canonQuantity raw = .ok s) : Rounds s m := by
  rcases hm with ⟨negative, coeff, exp, hread, hm⟩
  have hunits := (rounds_iff hread).mp ⟨negative, coeff, exp, hread, hm⟩
  rw [canonQuantity_finite hread] at h
  split at h
  . next hrep =>
    rw [← Except.ok.inj h, rounds_iff (reading_unitsText negative
      (constructible_lowest (constructible_of_ofText hread) hrep)), units_lowest]
    exact hunits
  . simp at h

/--
No exponent is written.
-/
def Plain (s : Str) : Prop := ∀ c ∈ s, c ≠ 0x65 ∧ c ≠ 0x45

theorem plain_unitsText (places : Nat) (negative : Bool) (m : Nat)
    : Plain (unitsText places negative m) := by
  intro c hc
  have hval := val_of_mem_unitsText hc
  constructor <;>
  . rintro rfl
    simp at hval

/-!
### Special values
-/

def infinityText (negative : Bool) : Str := toText.sign negative ++ txt "Infinity"

def nanText (negative : Bool) (payload : Nat) : Str :=
  toText.sign negative ++ txt "NaN" ++ (if payload = 0 then [] else natText payload)

theorem canonDecimal_infinity (negative : Bool)
    : canonDecimal (.infinity negative) = .ok (infinityText negative) := by
  cases negative <;> rfl

theorem canonDecimal_nan (negative : Bool) (payload : Nat)
    : canonDecimal (.nan negative false payload) = .ok (nanText negative (payload % 10 ^ prec)) := by
  have hmod : payload % 10 ^ prec % 10 ^ prec = payload % 10 ^ prec := Nat.mod_mod _ _
  simp only [canonDecimal, toIntegral, Except.ok_bind, eq, Bool.false_eq_true, ↓reduceIte, quantize,
    fixNan, Decimal.normalize, hmod, fixedText, toText, nanText]
  rfl

theorem canonQuantity_infinityText (negative : Bool)
    : canonQuantity (infinityText negative) = .ok (infinityText negative) := by
  have hread : reading (infinityText negative) = .ok (.infinity negative) := by
    cases negative <;> decide +kernel
  rw [canonQuantity_of_reading hread, canonDecimal_infinity]
  rfl

theorem val_of_mem_sign {negative : Bool} {c : CodePoint} (hc : c ∈ toText.sign negative)
    : c = 0x2d := by
  cases negative with
  | true =>
    have hsign : toText.sign true = [0x2d] := rfl
    rw [hsign] at hc
    exact List.mem_singleton.mp hc
  | false =>
    have hsign : toText.sign false = [] := rfl
    rw [hsign] at hc
    simp at hc

theorem val_of_mem_nanText {negative : Bool} {payload : Nat} {c : CodePoint}
    (hc : c ∈ nanText negative payload)
    : c = 0x2d ∨ (c = 0x4e ∨ c = 0x61) ∨ isDigit c = true := by
  have htext : txt "NaN" = [0x4e, 0x61, 0x4e] := rfl
  rw [nanText, List.mem_append, List.mem_append, htext] at hc
  rcases hc with (hc | hc) | hc
  . exact Or.inl (val_of_mem_sign hc)
  . refine Or.inr (Or.inl ?_)
    simp only [List.mem_cons, List.not_mem_nil, or_false] at hc
    tauto
  . split at hc
    . simp at hc
    . exact Or.inr (Or.inr (natText_isDigit _ c hc))

theorem signed?_nanText (negative : Bool) (payload : Nat)
    : signed? (nanText negative payload) = some (.nan negative false payload) := by
  have hdigits : ∀ ds : Str, (∀ c ∈ ds, isDigit c = true) →
      unsigned? negative (txt "NaN" ++ ds) = some (.nan negative false (natOfText ds)) := by
    intro ds hds
    have htext : txt "NaN" ++ ds = 0x4e :: 0x61 :: 0x4e :: ds := rfl
    have hlow : (txt "NaN" ++ ds).map lower = 0x6e :: 0x61 :: 0x6e :: ds.map lower := rfl
    have hinf : txt "inf" = 0x69 :: txt "nf" := rfl
    have hinfinity : txt "infinity" = 0x69 :: txt "nfinity" := rfl
    have hnan : txt "nan" = [0x6e, 0x61, 0x6e] := rfl
    have hne : ¬((0x6e : CodePoint) = 0x69) := by decide
    have hall : ds.all isDigit = true := List.all_eq_true.mpr hds
    rw [unsigned?, hlow, hinf, hinfinity, hnan, htext]
    simp [hne, unsigned?.payload?, hall]
  have hpayload : unsigned? negative (txt "NaN" ++ (if payload = 0 then [] else natText payload))
      = some (.nan negative false payload) := by
    split
    . next hzero =>
      rw [hdigits [] (by simp), hzero]
      rfl
    . rw [hdigits _ (natText_isDigit payload), natOfText_natText]
  have htext : txt "NaN" = 0x4e :: txt "aN" := rfl
  rw [nanText, List.append_assoc]
  cases negative with
  | true =>
    have hsign : toText.sign true = [0x2d] := rfl
    rw [hsign, List.singleton_append, signed?, if_pos rfl, hpayload]
  | false =>
    have hsign : toText.sign false = [] := rfl
    rw [hsign, List.nil_append, ← hpayload, htext, List.cons_append, signed?, if_neg (by decide),
      if_neg (by decide)]

theorem canonQuantity_nanText (negative : Bool) {payload : Nat} (h : payload < 10 ^ prec)
    : canonQuantity (nanText negative payload) = .ok (nanText negative payload) := by
  have hplain : ∀ c ∈ nanText negative payload, 0x2c < c.val ∧ c.val < 0x7b ∧ c ≠ 0x5f := by
    intro c hc
    rcases val_of_mem_nanText hc with rfl | (rfl | rfl) | hc
    . decide
    . decide
    . decide
    . have hval : 48 ≤ c.val ∧ c.val ≤ 57 := by simpa [isDigit] using hc
      refine ⟨by omega, by omega, ?_⟩
      rintro rfl
      simp at hval
  have hread : reading (nanText negative payload) = .ok (.nan negative false payload) := by
    rw [reading_of_plain hplain, signed?_nanText, Option.elim_some]
  rw [canonQuantity_of_reading hread, canonDecimal_nan, Nat.mod_eq_of_lt h]
  rfl

/--
Whatever is written once is written the same way again, without an exponent.
-/
theorem canonQuantity_fixed {raw s : Str} (h : canonQuantity raw = .ok s)
    : canonQuantity s = .ok s ∧ Plain s := by
  unfold canonQuantity at h
  split at h
  . simp at h
  . next x hread =>
    cases x with
    | finite negative coeff exp =>
      rw [canonDecimal_finite] at h
      split at h
      . next hrep =>
        have hs : unitsText quantityDp negative (units quantityDp coeff exp) = s := Except.ok.inj h
        rw [← hs]
        exact ⟨canonQuantity_unitsText hread hrep, plain_unitsText _ _ _⟩
      . simp [Except.mapError] at h
    | infinity negative =>
      rw [canonDecimal_infinity] at h
      have hs : infinityText negative = s := Except.ok.inj h
      rw [← hs]
      refine ⟨canonQuantity_infinityText negative, ?_⟩
      have hall : (infinityText negative).all (fun c => c ≠ 0x65 ∧ c ≠ 0x45) = true := by
        cases negative <;> rfl
      exact fun c hc => of_decide_eq_true (List.all_eq_true.mp hall c hc)
    | nan negative signaling payload =>
      cases signaling with
      | true => simp [canonDecimal, toIntegral, Except.mapError, bind, Except.bind] at h
      | false =>
        rw [canonDecimal_nan] at h
        have hs : nanText negative (payload % 10 ^ prec) = s := Except.ok.inj h
        rw [← hs]
        refine ⟨canonQuantity_nanText negative (Nat.mod_lt _ (by decide)), ?_⟩
        intro c hc
        rcases val_of_mem_nanText hc with rfl | (rfl | rfl) | hc
        . decide
        . decide
        . decide
        . have hval : 48 ≤ c.val ∧ c.val ≤ 57 := by simpa [isDigit] using hc
          constructor <;>
          . rintro rfl
            simp at hval

/--
Quantities are written in digits, letters, signs and points, and no quantity is empty.
-/
theorem val_of_canonQuantity {raw s : Str} (h : canonQuantity raw = .ok s)
    : s ≠ [] ∧ ∀ c ∈ s, 44 < c.val ∧ c.val < 123 ∧ c.val ≠ 92 := by
  unfold canonQuantity at h
  split at h
  . simp at h
  . next x hread =>
    cases x with
    | finite negative coeff exp =>
      rw [canonDecimal_finite] at h
      split at h
      . have hs : unitsText quantityDp negative (units quantityDp coeff exp) = s := Except.ok.inj h
        rw [← hs]
        refine ⟨?_, fun c hc => ?_⟩
        . rcases pointText_eq_cons (lowest quantityDp (units quantityDp coeff exp)).1
            (lowest quantityDp (units quantityDp coeff exp)).2 with ⟨d, ds, heq, _⟩
          rw [unitsText, heq]
          simp
        . have := val_of_mem_unitsText hc
          omega
      . simp [Except.mapError] at h
    | infinity negative =>
      rw [canonDecimal_infinity] at h
      have hs : infinityText negative = s := Except.ok.inj h
      have hall : (infinityText negative).all (fun c => 44 < c.val ∧ c.val < 123 ∧ c.val ≠ 92)
          = true := by
        cases negative <;> rfl
      have hne : infinityText negative ≠ [] := by
        cases negative <;> decide
      rw [← hs]
      exact ⟨hne, fun c hc => of_decide_eq_true (List.all_eq_true.mp hall c hc)⟩
    | nan negative signaling payload =>
      cases signaling with
      | true => simp [canonDecimal, toIntegral, Except.mapError, bind, Except.bind] at h
      | false =>
        rw [canonDecimal_nan] at h
        have hs : nanText negative (payload % 10 ^ prec) = s := Except.ok.inj h
        rw [← hs]
        refine ⟨?_, fun c hc => ?_⟩
        . have htext : txt "NaN" = 0x4e :: txt "aN" := rfl
          rw [nanText, htext]
          simp
        . rcases val_of_mem_nanText hc with rfl | (rfl | rfl) | hc
          . decide
          . decide
          . decide
          . have hval : 48 ≤ c.val ∧ c.val ≤ 57 := by simpa [isDigit] using hc
            omega

theorem scalar_of_canonQuantity {raw s : Str} (h : canonQuantity raw = .ok s) : Str.Scalar s := by
  intro c hc
  have := (val_of_canonQuantity h).2 c hc
  simp only [CodePoint.isSurrogate, Bool.and_eq_false_iff, decide_eq_false_iff_not]
  omega

/-!
### What is accepted
-/

/--
The text is refused with `ValueError`, or it is a number, rounded.
-/
def Checked (raw : Str) : Prop :=
  (∀ s, canonQuantity raw = .ok s → ∃ m, Rounds raw m) ∧
    ∀ e, canonQuantity raw = .error e → e = .value raw

/--
The text is not read, or it is read as a number that can be written down.
-/
def Clean (raw : Str) : Prop :=
  ∀ x, reading raw = .ok x → ∃ negative coeff exp, x = .finite negative coeff exp ∧
    Representable coeff exp

theorem checked_iff (raw : Str) : Checked raw ↔ Clean raw := by
  cases hread : reading raw with
  | error e =>
    have hquantity : canonQuantity raw = .error (.value raw) := by rw [canonQuantity, hread]
    simp [Checked, Clean, hquantity, hread, eq_comm]
  | ok x =>
    have hclean : Clean raw ↔ ∃ negative coeff exp, x = .finite negative coeff exp ∧
        Representable coeff exp := by
      rw [Clean, hread]
      simp
    rw [hclean]
    cases x with
    | finite negative coeff exp =>
      rw [Checked, canonQuantity_finite hread]
      by_cases hrep : Representable coeff exp
      . rw [if_pos hrep]
        constructor
        . exact fun _ => ⟨negative, coeff, exp, rfl, hrep⟩
        . refine fun _ => ⟨fun s _ => ⟨_, (rounds_iff hread).mpr rfl⟩, fun e he => ?_⟩
          simp at he
      . rw [if_neg hrep]
        constructor
        . intro h
          simpa using h.2 _ rfl
        . rintro ⟨n, c, e, heq, hrep'⟩
          rw [Decimal.finite.injEq] at heq
          rcases heq with ⟨rfl, rfl, rfl⟩
          exact absurd hrep' hrep
    | infinity negative =>
      refine iff_of_false ?_ (by simp)
      rintro ⟨haccepted, _⟩
      have hok := canonQuantity_of_reading hread
      rw [canonDecimal_infinity] at hok
      rcases haccepted _ hok with ⟨m, n, c, e, hread', _⟩
      rw [hread] at hread'
      simp at hread'
    | nan negative signaling payload =>
      refine iff_of_false ?_ (by simp)
      rintro ⟨haccepted, hrefused⟩
      cases signaling with
      | true =>
        have herror : canonQuantity raw = .error (.decimal .invalidOperation) :=
          canonQuantity_of_reading hread
        simpa using hrefused _ herror
      | false =>
        have hok := canonQuantity_of_reading hread
        rw [canonDecimal_nan] at hok
        rcases haccepted _ hok with ⟨m, n, c, e, hread', _⟩
        rw [hread] at hread'
        simp at hread'

/--
Texts are written alike if and only if their numbers are rounded to the same one.
-/
def Agree (a b : Str) : Prop :=
  ∀ s t m n, canonQuantity a = .ok s → canonQuantity b = .ok t → Rounds a m → Rounds b n →
    (s = t ↔ m = n)

/--
Both numbers are rounded to zero, one of them from below or with a minus sign.
-/
def OppositeZeros (a b : Str) : Prop := Rounds a 0 ∧ Rounds b 0 ∧ ¬(Negative a ↔ Negative b)

theorem negative_iff_of_rounds {a b : Str} {m : Int} (ha : Rounds a m) (hb : Rounds b m)
    (hm : m ≠ 0) : Negative a ↔ Negative b := by
  rcases ha with ⟨n, c, e, hreada, ha⟩
  rcases hb with ⟨n', c', e', hreadb, hb⟩
  have ha' := (rounds_iff hreada).mp ⟨n, c, e, hreada, ha⟩
  have hb' := (rounds_iff hreadb).mp ⟨n', c', e', hreadb, hb⟩
  have hsame := (signed_inj.mp (ha'.symm.trans hb')).2
  rw [negative_iff hreada, negative_iff hreadb]
  rcases hsame with rfl | hzero
  . rfl
  . rw [hzero] at ha'
    exact absurd (by simpa [signed] using ha') hm

theorem agree_iff {a b : Str} (ha : Clean a) (hb : Clean b) : Agree a b ↔ ¬OppositeZeros a b := by
  constructor
  . rintro hagree ⟨hza, hzb, hsign⟩
    have haccepted : ∀ {raw : Str}, Clean raw → Rounds raw 0 → ∃ s, canonQuantity raw = .ok s := by
      rintro raw hclean ⟨n, c, e, hread, _⟩
      rcases hclean _ hread with ⟨n', c', e', heq, hrep⟩
      rw [Decimal.finite.injEq] at heq
      rcases heq with ⟨rfl, rfl, rfl⟩
      exact ⟨_, (canonQuantity_finite hread).trans (if_pos hrep)⟩
    rcases haccepted ha hza with ⟨s, hs⟩
    rcases haccepted hb hzb with ⟨t, ht⟩
    have hsame := (hagree s t 0 0 hs ht hza hzb).mpr rfl
    exact hsign ((canonQuantity_eq_iff hs ht hza hzb).mp hsame).2
  . intro hzeros s t m n hs ht hm hn
    rw [canonQuantity_eq_iff hs ht hm hn]
    constructor
    . exact fun h => h.1
    . rintro rfl
      refine ⟨rfl, ?_⟩
      by_cases hzero : m = 0
      . subst hzero
        by_contra hsign
        exact hzeros ⟨hm, hn, hsign⟩
      . exact negative_iff_of_rounds hm hn hzero

/--
Canonical texts are fixed points without an exponent. They tell numbers apart as rounding does, and
whatever is no number is refused, for texts that stand for no special value, for no number with too
many digits, and not for zero with different signs.
-/
theorem canonQuantity_canonical (raw a b : Str)
    : (∀ s, canonQuantity raw = .ok s → canonQuantity s = .ok s ∧ Plain s) ∧
      (Checked a ∧ Checked b ∧ Agree a b ↔ Clean a ∧ Clean b ∧ ¬OppositeZeros a b) := by
  refine ⟨fun s h => canonQuantity_fixed h, ?_⟩
  rw [checked_iff, checked_iff]
  constructor
  . rintro ⟨ha, hb, hagree⟩
    exact ⟨ha, hb, (agree_iff ha hb).mp hagree⟩
  . rintro ⟨ha, hb, hzeros⟩
    exact ⟨ha, hb, (agree_iff ha hb).mpr hzeros⟩

/--
Zero has two texts, a text that is no number has one, and a number with too many digits is refused
with another error.
-/
theorem canonQuantity_zeros
    : canonQuantity (txt "0") = .ok (txt "0") ∧ canonQuantity (txt "-0") = .ok (txt "-0") ∧
        Rounds (txt "0") 0 ∧ Rounds (txt "-0") 0 ∧ canonQuantity (txt "NaN") = .ok (txt "NaN") ∧
        canonQuantity (txt "12345678901234567890123.5") = .error (.decimal .invalidOperation) := by
  have hzero : reading (txt "0") = .ok (.finite false 0 0) := by decide +kernel
  have hminus : reading (txt "-0") = .ok (.finite true 0 0) := by decide +kernel
  refine ⟨by decide +kernel, by decide +kernel, ?_, ?_, by decide +kernel, by decide +kernel⟩
  . exact (rounds_iff hzero).mpr (by decide)
  . exact (rounds_iff hminus).mpr (by decide)

end Fundcert
end CryptoValid
