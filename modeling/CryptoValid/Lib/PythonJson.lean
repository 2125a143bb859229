import CryptoValid.Lib.Python
import CryptoValid.Lib.Utf16

/-!
This module contains `json.loads` of Python without hooks, on text and on bytes.
-/

namespace Python

/-!
### Encodings
-/

/--
The units of a file. Surrogates without a partner are characters of their own (`surrogatepass`).
-/
def units16? (bigEndian : Bool) : Bytes → Option (List Nat)
  | [] => some []
  | [_] => none
  | a :: b :: rest =>
    let u := if bigEndian then a.toNat * 256 + b.toNat else b.toNat * 256 + a.toNat
    (units16? bigEndian rest).map (u :: ·)

def decodeUtf16? (bigEndian : Bool) (bytes : Bytes) : Option Str :=
  (units16? bigEndian bytes).map Utf16.join

def decodeUtf32? (bigEndian : Bool) : Bytes → Option Str
  | [] => some []
  | a :: b :: c :: d :: rest =>
    let (a, b, c, d) := if bigEndian then (a, b, c, d) else (d, c, b, a)
    let n := ((a.toNat * 256 + b.toNat) * 256 + c.toNat) * 256 + d.toNat
    if n < 0x110000 then (decodeUtf32? bigEndian rest).map (.ofNat n :: ·) else none
  | _ => none

/--
`s.decode(json.detect_encoding(s), "surrogatepass")`: by byte order mark, or by where zeros are.
-/
def decodeDetected? (bytes : Bytes) : Option Str :=
  if [0x00, 0x00, 0xFE, 0xFF].isPrefixOf bytes then decodeUtf32? true (bytes.drop 4)
  else if [0xFF, 0xFE, 0x00, 0x00].isPrefixOf bytes then decodeUtf32? false (bytes.drop 4)
  else if [0xFE, 0xFF].isPrefixOf bytes then decodeUtf16? true (bytes.drop 2)
  else if [0xFF, 0xFE].isPrefixOf bytes then decodeUtf16? false (bytes.drop 2)
  else if [0xEF, 0xBB, 0xBF].isPrefixOf bytes then Utf8.decodeSurrogatePass? (bytes.drop 3)
  else
    match bytes with
    | b0 :: b1 :: b2 :: b3 :: _ =>
      if b0 = 0 then
        if b1 ≠ 0 then decodeUtf16? true bytes else decodeUtf32? true bytes
      else if b1 = 0 then
        if b2 ≠ 0 ∨ b3 ≠ 0 then decodeUtf16? false bytes else decodeUtf32? false bytes
      else
        Utf8.decodeSurrogatePass? bytes
    | [b0, b1] =>
      if b0 = 0 then decodeUtf16? true bytes
      else if b1 = 0 then decodeUtf16? false bytes
      else Utf8.decodeSurrogatePass? bytes
    | _ => Utf8.decodeSurrogatePass? bytes

/-!
### Values
-/

/--
What depends on the interpreter: how deep its decoder and its encoder recurse, and how many digits an
integer may have.
-/
structure Interp where
  recursionLimit : Nat
  encoderLimit : Nat
  maxStrDigits : Option Nat

/--
`str` of an integer does not raise.
-/
def printable (interp : Interp) (i : Int) : Bool :=
  interp.maxStrDigits.all fun limit => (Json.natText i.natAbs).length ≤ limit

def PrintableNode (interp : Interp) : Json → Prop
  | .int i => printable interp i
  | _ => True

instance decidablePrintableNode (interp : Interp) : DecidablePred (PrintableNode interp)
  | .int i => inferInstanceAs (Decidable (printable interp i = true))
  | .null | .bool _ | .float _ | .str _ | .arr _ | .obj _ => isTrue trivial

inductive LoadsError where
  | jsonDecode
  | unicodeDecode
  | tooManyDigits
  | recursion
  deriving DecidableEq

/--
`float(text)` for the text of a JSON number.
-/
def floatOfText (text : Str) : Binary64 :=
  let negative := text.head? = some 0x2d
  let text := if negative then text.drop 1 else text
  let whole := text.takeWhile Json.isDigit
  let text := text.dropWhile Json.isDigit
  let frac := if text.head? = some 0x2e then (text.drop 1).takeWhile Json.isDigit else []
  let text := if text.head? = some 0x2e then (text.drop 1).dropWhile Json.isDigit else text
  -- what is left is empty, or `e` with a signed number
  let text := text.drop 1
  let exp := if text.head? = some 0x2b then Json.intOfText (text.drop 1) else Json.intOfText text
  Binary64.ofDecimal negative (Json.natOfText (whole ++ frac)) (exp - frac.length)

def plainHooks (interp : Interp) : Json.Hooks LoadsError where
  syntaxError := .jsonDecode
  recursionError := .recursion
  parseInt text :=
    if interp.maxStrDigits.any fun limit => limit < (text.filter Json.isDigit).length then
      .error .tooManyDigits
    else
      .ok (Json.intOfText text)
  parseFloat text := .ok (floatOfText text)
  parseConstant name :=
    .ok (if name = txt "NaN" then Binary64.nan
      else if name = txt "Infinity" then Binary64.infinity false
      else Binary64.infinity true)
  objectPairs pairs := .ok (Json.dictOfPairs pairs)
  lone := id
  maxDepth := interp.recursionLimit

def loads (interp : Interp) (text : Str) : Except LoadsError Json :=
  Json.loads (plainHooks interp) text

def loadsBytes (interp : Interp) (bytes : Bytes) : Except LoadsError Json :=
  match decodeDetected? bytes with
  | none => .error .unicodeDecode
  | some text => loads interp text

/-!
### Blanks and numbers
-/

/--
What `bytes.strip()` takes away.
-/
def isByteSpace (b : UInt8) : Bool := b = 0x20 || (0x09 ≤ b.toNat && b.toNat ≤ 0x0d)

/--
What `str.strip()` takes away.
-/
def isSpace (c : CodePoint) : Bool :=
  isAsciiSpace c || (0x1c ≤ c.val && c.val ≤ 0x1f) || wideSpaces.contains c.val

/--
`bytes.fromhex(text)`: two digits a byte, with blanks between the bytes.
-/
def fromHex? : Str → Option Bytes
  | [] => some []
  | c :: s =>
    if isAsciiSpace c then
      fromHex? s
    else
      match s with
      | [] => none
      | d :: s =>
        match Hex.digit? c, Hex.digit? d, fromHex? s with
        | some hi, some lo, some rest => some (UInt8.ofNat (hi * 16 + lo) :: rest)
        | _, _, _ => none

theorem fromHex?_ofBytes (bytes : Bytes) : fromHex? (Hex.ofBytes bytes) = some bytes := by
  have hspace : ∀ n < 16, isAsciiSpace (Hex.digit n) = false := by decide
  induction bytes with
  | nil => rfl
  | cons b bytes ih =>
    have hlt := b.toNat_lt
    rw [Hex.ofBytes, List.flatMap_cons, List.cons_append, List.cons_append, List.nil_append, fromHex?,
      hspace _ (by omega), if_neg Bool.false_ne_true]
    rw [Hex.ofBytes] at ih
    simp only [Hex.digit?_digit _ (show b.toNat / 16 < 16 by omega),
      Hex.digit?_digit _ (show b.toNat % 16 < 16 by omega), ih]
    rw [show b.toNat / 16 * 16 + b.toNat % 16 = b.toNat by omega, UInt8.ofNat_toNat]

/--
`text.lower()` when no other letters than those of ASCII have a case, as in hexadecimal texts.
-/
def asciiLower (s : Str) : Str :=
  s.map fun c => if 0x41 ≤ c.val && c.val ≤ 0x5a then .ofNat (c.val + 0x20) else c

theorem asciiLower_ofBytes (bytes : Bytes) : asciiLower
    (Hex.ofBytes bytes) = Hex.ofBytes bytes := by
  have hdigit : ∀ n < 16, ¬(0x41 ≤ (Hex.digit n).val && (Hex.digit n).val ≤ 0x5a) = true := by
    decide
  conv => rhs; rw [← List.map_id (Hex.ofBytes bytes)]
  refine List.map_congr_left fun c hc => ?_
  rcases Hex.exists_digit_of_mem_ofBytes hc with ⟨n, hn, rfl⟩
  rw [if_neg (hdigit n hn)]
  rfl

/--
`v == n` for a number `n`.
-/
def eqInt (v : Json) (n : Int) : Bool :=
  match v with
  | .int i => i = n
  | .bool b => (if b then 1 else 0) = n
  | .float x => x.eqInt n
  | _ => false

end Python
