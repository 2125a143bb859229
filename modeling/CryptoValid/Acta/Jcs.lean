import CryptoValid.Lib.Json.Print

/-!
This module contains the canonical JSON of `cryptovalid_acta.py`: RFC 8785 with a bound on nesting.
-/

namespace CryptoValid
namespace Acta

/--
The exceptions of `jcs`, all of them a `ValueError`.
-/
inductive JcsError where
  | tooDeep
  | intRange
  | notJson
  | loneSurrogate
  deriving DecidableEq

def jcsMaxDepth : Nat := 512

/--
`_es6_number`: the shortest digits, with the decimal point after the first `n` of them.
-/
def es6Number (f : Binary64) : Str :=
  if f.significand = 0 then
    txt "0"
  else
    let sign := if f.negative then txt "-" else []
    let (significand, exp) := f.shortest
    let digits := Binary64.decimalDigits significand
    let k : Int := digits.length
    let n : Int := k + exp
    let zeros := fun (i : Int) => List.replicate i.toNat (CodePoint.ofNat 48)
    let out :=
      if k ≤ n ∧ n ≤ 21 then
        digits ++ zeros (n - k)
      else if 0 < n ∧ n ≤ 21 then
        digits.take n.toNat ++ txt "." ++ digits.drop n.toNat
      else if -6 < n ∧ n ≤ 0 then
        txt "0." ++ zeros (-n) ++ digits
      else
        let e := n - 1
        digits.take 1 ++ (if 1 < k then txt "." ++ digits.drop 1 else []) ++ txt "e" ++
          (if 0 ≤ e then txt "+" else txt "-") ++ Binary64.decimalDigits e.natAbs
    sign ++ out

def jcsFloat (x : Binary64) : Except JcsError Str :=
  if x.isNaN || x.isInfinite then .error .notJson else .ok (es6Number x)

def jcsInt (i : Int) : Except JcsError Str :=
  if 2 ^ 53 < i.natAbs then
    let x := Binary64.ofRatio (i < 0) i.natAbs 1
    if x.isInfinite then .error .intRange else .ok (es6Number x)
  else
    .ok (Json.intText i)

/--
The key of the order of members: `k.encode("utf-16-be")`.
-/
def utf16Be (s : Str) : Bytes := s.flatMap fun c =>
  let unit := fun (u : Nat) => [UInt8.ofNat (u / 256), UInt8.ofNat (u % 256)]
  if c.val < 0x10000 then unit c.val
  else unit (0xD800 + (c.val - 0x10000) / 0x400) ++ unit (0xDC00 + (c.val - 0x10000) % 0x400)

def sortByUtf16 (ms : List (Str × α)) : List (Str × α) :=
  ms.insertionSort fun a b => utf16Be a.1 ≤ utf16Be b.1

def commaList (parts : List Str) : Str := (parts.intersperse (txt ",")).flatten

mutual

/--
The text of a value; `room` is the number of levels that are left.
-/
def enc (room : Nat) (x : Json) : Except JcsError Str :=
  match room with
  | 0 => .error .tooDeep
  | room + 1 =>
    match x with
    | .null => .ok (txt "null")
    | .bool true => .ok (txt "true")
    | .bool false => .ok (txt "false")
    | .int i => jcsInt i
    | .float f => jcsFloat f
    | .str s => .ok (Json.stringText false s)
    | .arr xs => do return 0x5b :: (commaList (← encElems room xs) ++ [0x5d])
    | .obj ms => do
      if ms.any fun m => m.1.any CodePoint.isSurrogate then throw .loneSurrogate
      let parts := sortByUtf16 (← encMembers room ms)
      return 0x7b :: (commaList (parts.map Prod.snd) ++ [0x7d])

def encElems (room : Nat) (xs : List Json) : Except JcsError (List Str) :=
  match xs with
  | [] => .ok []
  | x :: xs => do return (← enc room x) :: (← encElems room xs)

/--
Each member's text, with its name.
-/
def encMembers (room : Nat) (ms : List (Str × Json)) : Except JcsError (List (Str × Str)) :=
  match ms with
  | [] => .ok []
  | (k, v) :: ms => do
    let text ← enc room v
    return (k, Json.stringText false k ++ 0x3a :: text) :: (← encMembers room ms)

end

def jcs (obj : Json) : Except JcsError Bytes := do
  let text ← enc (jcsMaxDepth + 1) obj
  match Utf8.encode? text with
  | none => .error .loneSurrogate
  | some b => .ok b

end Acta
end CryptoValid
