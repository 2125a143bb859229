import CryptoValid.Lib.Text

/-!
This module contains double precision numbers as far as texts need them: the nearest number to a
decimal, the shortest decimal that a number is the nearest one to, and comparison with integers.
-/

/--
The three fields of a double. A biased exponent of 2047 stands for infinity and, with a fraction
other than zero, for not a number.
-/
structure Binary64 where
  negative : Bool
  exponent : Fin 2048
  fraction : Fin (2 ^ 52)
  deriving DecidableEq, Repr

namespace Binary64

def infinity (negative : Bool) : Binary64 := ⟨negative, 2047, 0⟩

def nan : Binary64 := ⟨false, 2047, 1⟩

def isNaN (x : Binary64) : Bool := x.exponent = 2047 && x.fraction ≠ 0

def isInfinite (x : Binary64) : Bool := x.exponent = 2047 && x.fraction = 0

/--
A finite number is `significand * 2 ^ scale`.
-/
def significand (x : Binary64) : Nat :=
  if x.exponent = 0 then x.fraction.val else 2 ^ 52 + x.fraction.val

def scale (x : Binary64) : Int := if x.exponent = 0 then -1074 else (x.exponent.val : Int) - 1075

/--
`num / den`, rounded half to even.
-/
def roundDiv (num den : Nat) : Nat :=
  let q := num / den
  let r := num % den
  if 2 * r < den then q
  else if 2 * r = den then q + q % 2
  else q + 1

/--
The double with the given significand, which is at most `2 ^ 53`, and scale, which is at least
`-1074`.
-/
def assemble (negative : Bool) (m : Nat) (e : Int) : Binary64 :=
  let (m, e) := if m = 2 ^ 53 then (2 ^ 52, e + 1) else (m, e)
  if m < 2 ^ 52 then ⟨negative, 0, Fin.ofNat _ m⟩
  else if 971 < e then infinity negative
  else ⟨negative, Fin.ofNat _ (e + 1075).toNat, Fin.ofNat _ (m - 2 ^ 52)⟩

/--
The double nearest to `num / den`, ties to even.
-/
def ofRatio (negative : Bool) (num den : Nat) : Binary64 :=
  if num = 0 then
    ⟨negative, 0, 0⟩
  else
    -- the quotient has 53 or 54 binary digits at this scale, or is below the normal range
    let e := max (-1074) ((Nat.log2 num : Int) - Nat.log2 den - 53)
    let at_ := fun (e : Int) => (num * 2 ^ (-e).toNat, den * 2 ^ e.toNat)
    let (n, d) := at_ e
    if n / d < 2 ^ 53 then
      assemble negative (roundDiv n d) e
    else
      let (n, d) := at_ (e + 1)
      assemble negative (roundDiv n d) (e + 1)

/--
Python's `a / b`, for `b` other than zero; it raises where this is infinite.
-/
def ofQuotient (a b : Int) : Binary64 :=
  ofRatio (decide (a < 0) != decide (b < 0)) a.natAbs b.natAbs

/--
The double nearest to `digits * 10 ^ exp`.
-/
def ofDecimal (negative : Bool) (digits : Nat) (exp : Int) : Binary64 :=
  let magnitude := exp + (Nat.log2 digits : Int) * 3 / 10
  if digits = 0 ∨ magnitude < -400 then ⟨negative, 0, 0⟩
  else if 400 < magnitude then infinity negative
  else ofRatio negative (digits * 10 ^ exp.toNat) (10 ^ (-exp).toNat)

/-!
### Arithmetic on finite numbers
-/

/--
The number as a quotient.
-/
def quotient (x : Binary64) : Int × Nat :=
  let m := x.significand * 2 ^ x.scale.toNat
  (if x.negative then -(m : Int) else m, 2 ^ (-x.scale).toNat)

/--
Python's `x / y`, for `y` other than zero.
-/
def div (x y : Binary64) : Binary64 :=
  let (a, b) := x.quotient
  let (c, d) := y.quotient
  ofRatio (x.negative != y.negative) (a.natAbs * d) (b * c.natAbs)

/--
Python's `x - y`. A difference of zero is negative only for `-0.0 - 0.0`.
-/
def sub (x y : Binary64) : Binary64 :=
  let (a, b) := x.quotient
  let (c, d) := y.quotient
  let n := a * d - c * b
  ofRatio (if n = 0 then x.negative && !y.negative && a = 0 else n < 0) n.natAbs (b * d)

/--
Python's `x <= y`.
-/
def le (x y : Binary64) : Bool :=
  let (a, b) := x.quotient
  let (c, d) := y.quotient
  a * d ≤ c * b

/--
Python's `round(x, places)`, ties to even.
-/
def roundTo (x : Binary64) (places : Nat) : Binary64 :=
  let (a, b) := x.quotient
  ofRatio x.negative (roundDiv (a.natAbs * 10 ^ places) b) (10 ^ places)

/--
Python's `x == n`.
-/
def eqInt (x : Binary64) (n : Int) : Bool :=
  if x.exponent = 2047 then
    false
  else
    let m : Int := if x.negative then -(x.significand : Int) else x.significand
    m * 2 ^ x.scale.toNat == n * 2 ^ (-x.scale).toNat

def decimalDigits (n : Nat) : Str :=
  (Nat.toDigits 10 n).map .ofChar

/--
The decimal `(digits, exp)` with `count` digits or fewer that `x` is the nearest double to, if there
is one; the closer one if there are two.
-/
def decimalOf? (x : Binary64) (count : Nat) : Option (Nat × Int) :=
  let num := x.significand * 2 ^ x.scale.toNat
  let den := 2 ^ (-x.scale).toNat
  -- the decimal exponent of the leading digit, from the number of digits of the integral quotients
  let lead : Int :=
    if den ≤ num then (Nat.toDigits 10 (num / den)).length - 1
    else -((Nat.toDigits 10 ((den + num - 1) / num - 1)).length : Int)
  let exp := lead - (count - 1)
  let n := num * 10 ^ (-exp).toNat
  let d := den * 10 ^ exp.toNat
  let down := n / d
  let candidates := if 2 * (n % d) ≤ d then [down, down + 1] else [down + 1, down]
  (candidates.find? fun digits => ofDecimal x.negative digits exp == x).map (·, exp)

/--
The shortest decimal that `x` is the nearest double to, without trailing zeros.
-/
def shortest (x : Binary64) : Nat × Int :=
  let found := (List.range 17).findSome? fun i => decimalOf? x (i + 1)
  strip 20 (found.getD (0, 0))
where
  strip : Nat → Nat × Int → Nat × Int
    | 0, p => p
    | k + 1, (digits, exp) =>
      if digits ≠ 0 ∧ digits % 10 = 0 then strip k (digits / 10, exp + 1) else (digits, exp)

/--
Python's `repr`.
-/
def repr (x : Binary64) : Str :=
  let sign := if x.negative then txt "-" else []
  if x.isNaN then txt "nan"
  else if x.isInfinite then sign ++ txt "inf"
  else if x.significand = 0 then sign ++ txt "0.0"
  else
    let (digits, exp) := shortest x
    let ds := decimalDigits digits
    let point : Int := ds.length + exp
    if -4 < point ∧ point ≤ 16 then
      if point ≤ 0 then
        sign ++ txt "0." ++ List.replicate (-point).toNat (CodePoint.ofNat 48) ++ ds
      else if ds.length ≤ point then
        sign ++ ds ++ List.replicate (point - ds.length).toNat (CodePoint.ofNat 48) ++ txt ".0"
      else
        sign ++ ds.take point.toNat ++ txt "." ++ ds.drop point.toNat
    else
      let e := point - 1
      let frac := if ds.length = 1 then [] else txt "." ++ ds.drop 1
      let expDigits := decimalDigits e.natAbs
      let expText := if expDigits.length < 2 then txt "0" ++ expDigits else expDigits
      sign ++ ds.take 1 ++ frac ++ txt "e" ++ (if e < 0 then txt "-" else txt "+") ++ expText

end Binary64
