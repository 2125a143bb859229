import CryptoValid.Lib.Text

/-!
This module contains the check of `ed25519_order.py` for keys and signatures of small or mixed order.
-/

namespace CryptoValid
namespace Ed25519Order

def p : Int := 2 ^ 255 - 19

/--
The order of the base point.
-/
def L : Nat := 2 ^ 252 + 27742317777372353535851937790883648493

/--
`pow(b, e, p)`.
-/
def pow (b : Int) (e : Nat) : Int :=
  if e = 0 then 1
  else if e % 2 = 0 then pow (b * b % p) (e / 2)
  else b * pow (b * b % p) (e / 2) % p
termination_by e

def d : Int := -121665 * pow 121666 (p - 2).toNat % p

def I : Int := pow 2 ((p - 1) / 4).toNat

structure Point where
  x : Int
  y : Int
  z : Int
  t : Int
  deriving DecidableEq

def neutral : Point := ⟨0, 1, 1, 0⟩

def fromLittleEndian (enc : Bytes) : Nat := enc.foldr (fun b n => b.toNat + 256 * n) 0

/--
`none` when the 32 octets are not a point.
-/
def decode (enc : Bytes) : Option Point :=
  if enc.length ≠ 32 then none
  else
    let n := fromLittleEndian enc
    let x0 : Int := n / 2 ^ 255
    let y : Int := n % 2 ^ 255
    if p ≤ y then none
    else
      let u := (y * y - 1) % p
      let v := (d * y * y + 1) % p
      let x := u * pow v 3 * pow (u * pow v 7) ((p - 5) / 8).toNat % p
      let vxx := v * x * x % p
      let root : Option Int :=
        if vxx = u then some x
        else if vxx = -u % p then some (x * I % p)
        else none
      match root with
      | none => none
      | some x =>
        if x = 0 ∧ x0 = 1 then none
        else
          let x := if x % 2 ≠ x0 then p - x else x
          some ⟨x, y, 1, x * y % p⟩

def add (P Q : Point) : Point :=
  let a := (P.y - P.x) * (Q.y - Q.x) % p
  let b := (P.y + P.x) * (Q.y + Q.x) % p
  let c := P.t * 2 * d * Q.t % p
  let dd := P.z * 2 * Q.z % p
  let e := b - a
  let f := dd - c
  let g := dd + c
  let h := b + a
  ⟨e * f % p, g * h % p, f * g % p, e * h % p⟩

def scalarMul (k : Nat) (P : Point) : Point :=
  (List.range (k.log2 + 1)).reverse.foldl
    (fun R i => if k.testBit i then add (add R R) P else add R R) neutral

def isNeutral (P : Point) : Bool := P.x % p = 0 ∧ (P.y - P.z) % p = 0

def keyProblem (pub : Bytes) : Option Str :=
  match decode pub with
  | none => some (txt "key_not_decodable")
  | some A =>
    if isNeutral (scalarMul 8 A) then some (txt "small_order_key")
    else if !isNeutral (scalarMul L A) then some (txt "mixed_order_key")
    else none

def rProblem (sig : Bytes) : Option Str :=
  let R := if sig.length = 64 then decode (sig.take 32) else none
  match R with
  | none => some (txt "r_not_decodable")
  | some R => if isNeutral (scalarMul 8 R) then some (txt "small_order_r") else none

def strictProblem (pub sig : Bytes) : Option Str := (keyProblem pub).or (rProblem sig)

end Ed25519Order
end CryptoValid
