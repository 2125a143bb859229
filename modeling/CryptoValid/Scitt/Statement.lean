import CryptoValid.Lib.Cbor
import CryptoValid.Lib.Except
import CryptoValid.Lib.PythonJson

/-!
This module contains the Signed Statements of `cryptovalid_scitt.py` and the receipts that are added to
them.
-/

namespace CryptoValid
namespace Scitt

open Except (require)

/--
What the verdicts rest on outside of this file: the interpreter, the hash function and the check of
an Ed25519 signature, that is `false` when it raises.
-/
structure Env where
  interp : Python.Interp
  sha256 : HashFn 32
  ed25519 : (pk sig msg : Bytes) → Bool

/--
A private key that is loaded from its file.
-/
structure SigningKey where
  pk : Bytes
  sign : (msg : Bytes) → Bytes

/--
The exceptions, from `ScittError` with its messages to those of the libraries.
-/
inductive Raised where
  | notTagged
  | notCoseSign1
  | protectedNotMap
  | issLength
  | subEmpty
  | contentType
  | atLeastOneReceipt
  | indexOutside (index : Int) (entries : Nat)
  | decode (e : Cbor.DecodeError)
  | encode (e : Cbor.EncodeError)
  | fromHex
  | invalidSignature
  | notUtf8
  | loads (e : Python.LoadsError)
  | typeError
  | ledger
  deriving DecidableEq

/--
What `why` says when a statement or a receipt is refused.
-/
inductive Why where
  | algNotEddsa
  | noCwtClaims
  | noKid
  | detachedPayload
  | payloadDiffers
  | algOrVds
  | tsIss (iss : Str)
  | kidDiffers
  | noLeaf
  | notRegistration
  | otherStatement
  | noInclusionProof
  | malformedProof
  | leafIndexDiffers
  | noRoot
  | notSignedRoot
  | invalid (e : Raised)
  deriving DecidableEq

def tagCoseSign1 : UInt8 := 0xd2

def algEddsa : Int := -8

def lAlg : Cbor.Key := .int 1

def lCty : Cbor.Key := .int 3

def lKid : Cbor.Key := .int 4

def lCwt : Cbor.Key := .int 15

def cwtIss : Cbor.Key := .int 1

def cwtSub : Cbor.Key := .int 2

def cwtIat : Cbor.Key := .int 6

def lReceipts : Cbor.Key := .int 394

def maxIss : Nat := 8192

/--
A COSE_Sign1, `header` is what the protected bytes decode to.
-/
structure CoseSign1 where
  protectedBytes : Bytes
  header : List (Cbor.Key × Cbor)
  unprotected : List (Cbor.Key × Cbor)
  payload : Option Bytes
  signature : Bytes

def decode (b : Bytes) : Except Raised Cbor := (Cbor.decode b).mapError .decode

def encode (v : Cbor) : Except Raised Bytes := (Cbor.encode v).mapError .encode

def payload? : Cbor → Option (Option Bytes)
  | .null => some none
  | .bytes b => some (some b)
  | _ => none

def ofPayload : Option Bytes → Cbor
  | none => .null
  | some b => .bytes b

def parseCoseSign1 (cose : Bytes) : Except Raised CoseSign1 := do
  require (cose.head? = some tagCoseSign1) .notTagged
  match ← decode (cose.drop 1) with
  | .arr [.bytes protectedBytes, .map unprotected, pl, .bytes signature] =>
    match payload? pl with
    | none => throw .notCoseSign1
    | some payload =>
      match ← decode protectedBytes with
      | .map header => return { protectedBytes, header, unprotected, payload, signature }
      | _ => throw .protectedNotMap
  | _ => throw .notCoseSign1

/--
The bytes of `[protected, unprotected, payload, signature]` behind the tag.
-/
def coseSign1 (protectedBytes : Bytes) (unprotected : List (Cbor.Key × Cbor)) (payload : Option Bytes)
    (signature : Bytes) : Except Raised Bytes := do
  return tagCoseSign1 :: (← encode
    (.arr [.bytes protectedBytes, .map unprotected, ofPayload payload, .bytes signature]))

/--
What a signature is over.
-/
def sig1 (protectedBytes payload : Bytes) : Except Raised Bytes :=
  encode (.arr [.text (txt "Signature1"), .bytes protectedBytes, .bytes [], .bytes payload])

def lengthPrefixed (part : Bytes) : Bytes := Cbor.beBytes 8 part.length ++ part

/--
The identity of the signed parts of a parsed statement.
-/
def CoseSign1.id (H : HashFn 32) (m : CoseSign1) : Str :=
  Hex.ofBytes (H ([m.protectedBytes, m.payload.getD [], m.signature].flatMap lengthPrefixed))

def statementId (H : HashFn 32) (cose : Bytes) : Except Raised Str := do
  return (← parseCoseSign1 cose).id H

def checkClaims (iss sub : Str) : Except Raised Unit := do
  require (1 ≤ iss.length ∧ iss.length ≤ maxIss) .issLength
  require (sub ≠ []) .subEmpty

def signedStatement (payload : Bytes) (contentType iss sub : Str) (key : SigningKey) (detached : Bool)
    (iat : Option Int) : Except Raised Bytes := do
  checkClaims iss sub
  require (contentType ≠ [] ∧ (0x0a : CodePoint) ∉ contentType) .contentType
  let claims := [(cwtIss, .text iss), (cwtSub, .text sub)] ++
    (iat.map fun t => (cwtIat, Cbor.int t)).toList
  let protectedBytes ← encode (.map [(lAlg, .int algEddsa), (lCty, .text contentType),
    (lKid, .bytes key.pk), (lCwt, .map claims)])
  let sig := key.sign (← sig1 protectedBytes payload)
  coseSign1 protectedBytes [] (if detached then none else some payload) sig

/--
The CWT Claims of a protected header, if `iss` and `sub` are texts.
-/
def cwtClaims? (header : List (Cbor.Key × Cbor)) : Option (Str × Str) :=
  match Cbor.get header lCwt with
  | .map cwt =>
    match Cbor.get cwt cwtIss, Cbor.get cwt cwtSub with
    | .text iss, .text sub => some (iss, sub)
    | _, _ => none
  | _ => none

/--
What is reported of a statement with a good signature.
-/
structure Statement where
  iss : Str
  sub : Str
  contentType : Cbor
  payloadSha256 : Str

/--
The bytes that the Issuer's signature is over, from those in the message and those that are given.
-/
def statementPayload : (attached given : Option Bytes) → Except Why Bytes
  | none, none => .error .detachedPayload
  | none, some payload => .ok payload
  | some pl, none => .ok pl
  | some pl, some payload => if payload = pl then .ok pl else .error .payloadDiffers

/--
`bytes.fromhex`, with its `ValueError`.
-/
def fromHex (text : Str) : Except Why Bytes :=
  match Python.fromHex? text with
  | some b => .ok b
  | none => .error (.invalid .fromHex)

/--
The signature of a message under a key, with its exceptions.
-/
def checkSignature (env : Env) (pk : Bytes) (m : CoseSign1) (payload : Bytes) : Except Why Unit := do
  let msg ← (sig1 m.protectedBytes payload).mapError .invalid
  require (env.ed25519 pk m.signature msg) (.invalid .invalidSignature)

/--
`verify_signed_statement` on a parsed message.
-/
def CoseSign1.verify (env : Env) (m : CoseSign1) (issuerPubkeyHex : Str) (payload : Option Bytes)
    : Except Why Statement := do
  require ((Cbor.get m.header lAlg).eqInt algEddsa) .algNotEddsa
  match cwtClaims? m.header with
  | none => throw .noCwtClaims
  | some (iss, sub) =>
    (checkClaims iss sub).mapError .invalid
    require (Cbor.get m.header lKid matches .null → (Assoc.lookup (.int 33) m.header).isSome ∨
      (Assoc.lookup (.int 34) m.header).isSome) .noKid
    let pk ← fromHex issuerPubkeyHex
    let pl ← statementPayload m.payload payload
    checkSignature env pk m pl
    return ⟨iss, sub, Cbor.get m.header lCty, Hex.ofBytes (env.sha256 pl)⟩

def verifySignedStatement (env : Env) (cose : Bytes) (issuerPubkeyHex : Str) (payload : Option Bytes)
    : Except Why Statement := do
  let m ← (parseCoseSign1 cose).mapError .invalid
  m.verify env issuerPubkeyHex payload

/--
`list(x)` of a value from CBOR, `none` for a `TypeError`.
-/
def listOf : Cbor → Option (List Cbor)
  | .arr xs => some xs
  | .text s => some (s.map fun c => .text [c])
  | .bytes b => some (b.map fun x => .int x.toNat)
  | .map ms => some (ms.map fun m => m.1.value)
  | .int _ | .bool _ | .null => none

/--
The receipts that a message has already, with `receipts` behind them.
-/
def addReceipts (unprotected : List (Cbor.Key × Cbor)) (receipts : List Bytes)
    : Except Raised (List (Cbor.Key × Cbor)) :=
  match listOf ((Assoc.lookup lReceipts unprotected).getD (.arr [])) with
  | none => .error .typeError
  | some xs => .ok (Cbor.set unprotected lReceipts (.arr (xs ++ receipts.map .bytes)))

def transparentStatement (cose : Bytes) (receipts : List Bytes) : Except Raised Bytes := do
  require (receipts ≠ []) .atLeastOneReceipt
  let m ← parseCoseSign1 cose
  let _ ← receipts.mapM parseCoseSign1
  coseSign1 m.protectedBytes (← addReceipts m.unprotected receipts) m.payload m.signature

end Scitt
end CryptoValid
