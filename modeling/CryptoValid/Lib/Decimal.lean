import CryptoValid.Lib.PythonText

/-!
This module contains decimal numbers as Python's `decimal` has them, as far as quotients and texts
need them. The context is the default one: 28 digits, half even, and invalid operations, divisions
by zero and overflows are raised.
-/

/--
`coeff * 10 ^ exp` with a sign, and the special values.
-/
inductive Decimal where
  | finite (negative : Bool) (coeff : Nat) (exp : Int)
  | infinity (negative : Bool)
  | nan (negative signaling : Bool) (payload : Nat)
  deriving DecidableEq, Repr

namespace Decimal

inductive Error where
  | invalidOperation
  | divisionByZero
  | overflow
  | value
  | type
  deriving DecidableEq, Repr

def prec : Nat := 28
def emax : Int := 999999
def etop : Int := emax - prec + 1
def etiny : Int := -emax - prec + 1

def numDigits (n : Nat) : Nat := (Json.natText n).length

/-!
### Arithmetic
-/

/--
The payload of a result has at most 28 digits.
-/
def fixNan (negative : Bool) (payload : Nat) : Decimal := nan negative false (payload % 10 ^ prec)

/--
The number in the range of the context, rounded half to even.
-/
def fix : Decimal → Except Error Decimal
  | .finite negative coeff exp =>
    if coeff = 0 then
      .ok (.finite negative 0 (min (max exp etiny) emax))
    else
      let expMin := (numDigits coeff : Int) + exp - prec
      if etop < expMin then
        .error .overflow
      else
        let expMin := max expMin etiny
        if exp < expMin then
          let rounded := Binary64.roundDiv coeff (10 ^ (expMin - exp).toNat)
          let (rounded, expMin) :=
            if prec < numDigits rounded then (rounded / 10, expMin + 1) else (rounded, expMin)
          if etop < expMin then .error .overflow else .ok (.finite negative rounded expMin)
        else
          .ok (.finite negative coeff exp)
  | x => .ok x

/--
Zeros at the end are dropped as long as the exponent is below the ideal one, `k` places away.
-/
def towardsIdeal (k : Nat) (coeff : Nat) (exp : Int) : Nat × Int :=
  match k with
  | 0 => (coeff, exp)
  | k + 1 => if coeff % 10 = 0 then towardsIdeal k (coeff / 10) (exp + 1) else (coeff, exp)

/--
Coefficient and exponent of a quotient of numbers other than zero. The last digit of one that is not
exact is never a zero or a five, so that it is rounded correctly.
-/
def quotient (a : Nat) (e : Int) (b : Nat) (f : Int) : Nat × Int :=
  let shift : Int := (numDigits b : Int) - numDigits a + prec + 1
  let exp := e - f - shift
  let num := a * 10 ^ shift.toNat
  let den := b * 10 ^ (-shift).toNat
  let coeff := num / den
  if num % den ≠ 0 then
    (if coeff % 5 = 0 then coeff + 1 else coeff, exp)
  else
    towardsIdeal (e - f - exp).toNat coeff exp

/--
`x / y`
-/
def div : Decimal → Decimal → Except Error Decimal
  | .nan _ true _, _ => .error .invalidOperation
  | _, .nan _ true _ => .error .invalidOperation
  | .nan negative false payload, _ => .ok (fixNan negative payload)
  | _, .nan negative false payload => .ok (fixNan negative payload)
  | .infinity _, .infinity _ => .error .invalidOperation
  | .infinity n, .finite m _ _ => .ok (.infinity (n != m))
  | .finite n _ _, .infinity m => .ok (.finite (n != m) 0 etiny)
  | .finite n a e, .finite m b f =>
    if b = 0 then
      if a = 0 then .error .invalidOperation else .error .divisionByZero
    else if a = 0 then
      fix (.finite (n != m) 0 (e - f))
    else
      let (coeff, exp) := quotient a e b f
      fix (.finite (n != m) coeff exp)

/--
`x.quantize(y)`, where `exp` is the exponent of the finite number `y`.
-/
def quantize (exp : Int) : Decimal → Except Error Decimal
  | .nan _ true _ => .error .invalidOperation
  | .nan negative false payload => .ok (fixNan negative payload)
  | .infinity _ => .error .invalidOperation
  | .finite negative coeff e =>
    if coeff = 0 then
      fix (.finite negative 0 exp)
    else
      let adjusted := e + numDigits coeff - 1
      if emax < adjusted ∨ (prec : Int) < adjusted - exp + 1 then
        .error .invalidOperation
      else
        let rescaled :=
          if exp ≤ e then coeff * 10 ^ (e - exp).toNat
          else Binary64.roundDiv coeff (10 ^ (exp - e).toNat)
        if emax < exp + numDigits rescaled - 1 ∨ prec < numDigits rescaled then
          .error .invalidOperation
        else
          fix (.finite negative rescaled exp)

/-!
### Texts
-/

/--
`str(x)`
-/
def toText : Decimal → Str
  | .infinity negative => sign negative ++ txt "Infinity"
  | .nan negative signaling payload =>
    sign negative ++ (if signaling then txt "sNaN" else txt "NaN") ++
      (if payload = 0 then [] else Json.natText payload)
  | .finite negative coeff exp =>
    let ds := Json.natText coeff
    let left := exp + ds.length
    let point := if exp ≤ 0 ∧ -6 < left then left else 1
    let body :=
      if point ≤ 0 then
        txt "0." ++ List.replicate (-point).toNat (CodePoint.ofNat 48) ++ ds
      else if ds.length ≤ point then
        ds ++ List.replicate (point - ds.length).toNat (CodePoint.ofNat 48)
      else
        ds.take point.toNat ++ txt "." ++ ds.drop point.toNat
    let tail :=
      if left = point then []
      else
        txt "E" ++ (if left < point then txt "-" else txt "+") ++ Json.natText (left - point).natAbs
    sign negative ++ body ++ tail
where
  sign (negative : Bool) : Str := if negative then txt "-" else []

def lower (c : CodePoint) : CodePoint :=
  if 0x41 ≤ c.val ∧ c.val ≤ 0x5a then .ofNat (c.val + 32) else c

/--
The exponents of a number that can be constructed.
-/
def constructible (coeff : Nat) (exp : Int) : Bool :=
  exp + numDigits coeff - 1 ≤ 999999999999999999 && -1999999999999999997 ≤ exp

/--
The digits after the sign of an exponent, nothing after them.
-/
def exponent? (s : Str) : Option Int :=
  let (negative, ds) :=
    match s with
    | c :: rest => if c = 0x2d then (true, rest) else if c = 0x2b then (false, rest) else (false, s)
    | [] => (false, [])
  if ds.isEmpty || !ds.all Json.isDigit then none
  else some (if negative then -(Json.natOfText ds : Int) else Json.natOfText ds)

/--
Digits with a point somewhere, and an exponent.
-/
def number? (negative : Bool) (s : Str) : Option Decimal :=
  let whole := s.takeWhile Json.isDigit
  let (frac, rest) :=
    match s.dropWhile Json.isDigit with
    | c :: rest =>
      if c = 0x2e then (rest.takeWhile Json.isDigit, rest.dropWhile Json.isDigit)
      else ([], c :: rest)
    | [] => ([], [])
  if whole.isEmpty && frac.isEmpty then
    none
  else
    let exp? :=
      match rest with
      | [] => some 0
      | c :: rest => if lower c = 0x65 then exponent? rest else none
    exp?.bind fun exp =>
      let coeff := Json.natOfText (whole ++ frac)
      let exp := exp - frac.length
      if constructible coeff exp then some (.finite negative coeff exp) else none

def unsigned? (negative : Bool) (s : Str) : Option Decimal :=
  let low := s.map lower
  if low = txt "inf" ∨ low = txt "infinity" then
    some (.infinity negative)
  else if (txt "nan").isPrefixOf low then
    payload? false (s.drop 3)
  else if (txt "snan").isPrefixOf low then
    payload? true (s.drop 4)
  else
    number? negative s
where
  payload? (signaling : Bool) (ds : Str) : Option Decimal :=
    if ds.all Json.isDigit then some (.nan negative signaling (Json.natOfText ds)) else none

/--
A text without blanks around it and without underscores.
-/
def signed? (s : Str) : Option Decimal :=
  match s with
  | c :: rest =>
    if c = 0x2d then unsigned? true rest
    else if c = 0x2b then unsigned? false rest
    else unsigned? false s
  | [] => none

/--
`Decimal(text)`
-/
def ofText (text : Str) : Except Error Decimal :=
  let s := ((text.dropWhile Python.isSpace).reverse.dropWhile Python.isSpace).reverse
  match signed? ((s.map Python.toAscii).filter (· ≠ 0x5f)) with
  | some x => .ok x
  | none => .error .invalidOperation

def ofInt (i : Int) : Decimal := .finite (decide (i < 0)) i.natAbs 0

/--
`Decimal(x)` for a float: its exact value.
-/
def ofFloat (x : Binary64) : Decimal :=
  if x.isNaN then
    .nan x.negative false 0
  else if x.isInfinite then
    .infinity x.negative
  else if x.significand = 0 then
    .finite x.negative 0 0
  else
    halves (-x.scale).toNat (x.significand * 2 ^ x.scale.toNat)
where
  -- m / 2 ^ k in lowest terms
  halves (k m : Nat) : Decimal :=
    match k with
    | 0 => .finite x.negative m 0
    | k + 1 =>
      if m % 2 = 0 then halves k (m / 2) else .finite x.negative (m * 5 ^ (k + 1)) (-(k + 1))

/--
`Decimal([sign, digits, exponent])`
-/
def ofElems : List Json → Except Error Decimal
  | [sign, .arr digits, exp] => do
    let sign ←
      match intOf? sign with
      | some i => if i = 0 then .ok (txt "+") else if i = 1 then .ok (txt "-") else .error .value
      | none => .error .value
    let special ←
      match exp with
      | .str s =>
        if s = txt "F" then .ok (some (txt "inf"))
        else if s = txt "n" then .ok (some (txt "nan"))
        else if s = txt "N" then .ok (some (txt "snan"))
        else .error .value
      | _ => .ok none
    let exp ←
      match special, intOf? exp with
      | some _, _ => .ok 0
      | none, some i => .ok i
      | none, none => .error .value
    if !digits.all (fun d => (intOf? d).any fun i => 0 ≤ i && i ≤ 9) then
      throw .value
    let ds := digits.flatMap fun d => Json.intText ((intOf? d).getD 0)
    let s :=
      match special with
      | some name => name ++ (if name = txt "inf" then [] else ds)
      | none => (if ds.isEmpty then txt "0" else ds) ++ txt "E" ++ Json.intText exp
    match signed? (sign ++ s) with
    | some x => return x
    | none => throw .invalidOperation
  | _ => .error .value
where
  intOf? : Json → Option Int
    | .int i => some i
    | .bool b => some (if b then 1 else 0)
    | _ => none

/-!
### Texts of integers
-/

theorem number?_natText {negative : Bool} {n : Nat} {x : Decimal}
    (hx : number? negative (Json.natText n) = some x) : x = .finite negative n 0 := by
  have hdigits := Json.natText_isDigit n
  have htake : (Json.natText n).takeWhile Json.isDigit = Json.natText n :=
    List.takeWhile_eq_self_iff.mpr hdigits
  have hdrop : (Json.natText n).dropWhile Json.isDigit = [] := by
    rw [List.dropWhile_eq_nil_iff]
    exact hdigits
  have hne : (Json.natText n).isEmpty = false := by
    simpa [List.isEmpty_iff] using Json.natText_ne_nil n
  simp only [number?, htake, hdrop, hne, Bool.false_and, Bool.false_eq_true, ↓reduceIte,
    Option.bind_some, List.append_nil, List.length_nil, Json.natOfText_natText] at hx
  split at hx
  . simpa using hx.symm
  . simp at hx

/--
What starts with a digit is not the name of a special value.
-/
theorem unsigned?_cons (negative : Bool) {c : CodePoint} (hdigit : Json.isDigit c = true) (cs : Str)
    : unsigned? negative (c :: cs) = number? negative (c :: cs) := by
  have hval : 48 ≤ c.val ∧ c.val ≤ 57 := by simpa [Json.isDigit] using hdigit
  have hlower : lower c = c := by
    rw [lower, if_neg (by omega)]
  have hne : ∀ d : CodePoint, 57 < d.val → c ≠ d ∧ (d == c) = false := by
    intro d hd
    have hcd : c ≠ d := by
      rintro rfl
      omega
    exact ⟨hcd, by simpa using fun h => hcd h.symm⟩
  have hi := hne (.ofChar 'i') (by decide)
  have hn := hne (.ofChar 'n') (by decide)
  have hs := hne (.ofChar 's') (by decide)
  have hinf : txt "inf" = .ofChar 'i' :: txt "nf" := rfl
  have hinfinity : txt "infinity" = .ofChar 'i' :: txt "nfinity" := rfl
  have hnan : txt "nan" = .ofChar 'n' :: txt "an" := rfl
  have hsnan : txt "snan" = .ofChar 's' :: txt "nan" := rfl
  rw [unsigned?, List.map_cons, hlower, hinf, hinfinity, hnan, hsnan]
  simp [hi.1, hn.2, hs.2, List.isPrefixOf]

/--
A text of a number with its sign.
-/
theorem signed?_sign (negative : Bool) {c : CodePoint} (hdigit : Json.isDigit c = true) (cs : Str)
    : signed? (toText.sign negative ++ c :: cs) = number? negative (c :: cs) := by
  have hval : 48 ≤ c.val ∧ c.val ≤ 57 := by simpa [Json.isDigit] using hdigit
  cases negative with
  | true =>
    have hsign : toText.sign true ++ c :: cs = 0x2d :: c :: cs := rfl
    rw [hsign, signed?, if_pos rfl, unsigned?_cons _ hdigit]
  | false =>
    have hminus : c ≠ 0x2d := by
      rintro rfl
      simp at hval
    have hplus : c ≠ 0x2b := by
      rintro rfl
      simp at hval
    have hsign : toText.sign false ++ c :: cs = c :: cs := rfl
    rw [hsign, signed?, if_neg hminus, if_neg hplus, unsigned?_cons _ hdigit]

theorem signed?_intText {i : Int} {x : Decimal} (hx : signed? (Json.intText i) = some x)
    : x = ofInt i := by
  rcases Json.natText_eq_cons i.natAbs with ⟨c, cs, heq, hdigit, _⟩
  have htext : Json.intText i = toText.sign (decide (i < 0)) ++ c :: cs := by
    rw [← heq, Json.intText]
    split
    . next hneg =>
      rw [decide_eq_true hneg]
      rfl
    . next hneg =>
      rw [decide_eq_false hneg]
      rfl
  rw [htext, signed?_sign _ hdigit, ← heq] at hx
  rw [number?_natText hx, ofInt]

/--
A text of characters that are neither stripped nor replaced.
-/
theorem ofText_of_plain {s : Str} (hs : ∀ c ∈ s, 0x2c < c.val ∧ c.val < 0x7b ∧ c ≠ 0x5f)
    : ofText s = (signed? s).elim (.error .invalidOperation) .ok := by
  have hstrip : ((s.dropWhile Python.isSpace).reverse.dropWhile Python.isSpace).reverse = s := by
    refine Python.stripBlanks_of_plain fun c hc => ?_
    have := hs c hc
    exact Python.isSpace_of_val (by omega) (by omega)
  have hascii : s.map Python.toAscii = s := by
    rw [List.map_congr_left (g := id), List.map_id]
    intro c hc
    have := hs c hc
    rw [Python.toAscii, if_pos (by omega), id]
  have hfilter : s.filter (· ≠ 0x5f) = s := by
    rw [List.filter_eq_self]
    intro c hc
    simpa using (hs c hc).2.2
  rw [ofText, hstrip, hascii, hfilter]
  cases signed? s <;> rfl

/--
A text of an integer has nothing that is stripped or replaced.
-/
theorem ofText_intText {i : Int} {x : Decimal} (hx : ofText (Json.intText i) = .ok x)
    : x = ofInt i := by
  rw [ofText_of_plain fun c hc => ?_] at hx
  . cases hsigned : signed? (Json.intText i) with
    | none =>
      rw [hsigned] at hx
      simp at hx
    | some y =>
      rw [hsigned, Option.elim_some, Except.ok.injEq] at hx
      rw [← hx]
      exact signed?_intText hsigned
  . have hval := Python.mem_intText hc
    refine ⟨by omega, by omega, ?_⟩
    rintro rfl
    simp at hval

/--
`Decimal(v)`
-/
def ofJson : Json → Except Error Decimal
  | .int i => .ok (ofInt i)
  | .bool b => .ok (ofInt (if b then 1 else 0))
  | .str s => ofText s
  | .float x => .ok (ofFloat x)
  | .arr xs => ofElems xs
  | .null => .error .type
  | .obj _ => .error .type

end Decimal
