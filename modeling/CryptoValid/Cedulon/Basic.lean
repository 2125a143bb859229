import CryptoValid.Acta.Jcs
import CryptoValid.Lib.Base64
import CryptoValid.Lib.Cbor
import CryptoValid.Lib.Except
import CryptoValid.Lib.PythonJson

/-!
This module contains what every stage of `cryptovalid_cedulon.py` reads: JSON lines, signed CBOR
objects, and the claims of a decision record.
-/

namespace CryptoValid
namespace Cedulon

inductive Stage where
  | recordHeader
  | recordSignature
  | recordClaims
  | chain
  | inputsBinding
  | effectBinding
  | index
  | approvalSignature
  | checkpointSignature
  | checkpointCoverage
  | checkpointTotals
  | control
  | malformed
  deriving DecidableEq

/--
What the message of a `CedulonError` says.
-/
inductive Problem where
  | nestedTooDeep (line : Nat)
  | notJson (line : Nat)
  | notCbor
  | notCoseSign1
  | unprotectedHeader
  | protectedNotCbor
  | protectedNotDeterministic
  | alg
  | contentType
  | kid
  | notEd25519
  | signature
  | payloadNotCbor
  | noCoseHex (i : Nat)
  | coseHexNotHex (i : Nat)
  | labels
  | claimNull (name : Str)
  | timestampNotUint
  | claimNotText (name : Str)
  | hashGrammar (name : Str)
  | decision
  | incompleteAllow
  | refusalWithEffect
  | claimsDiffer
  | chainLink (i : Nat)
  | inputsRow (i : Nat)
  | inputsDuplicateRef (i : Nat)
  | inputsMissing (i : Nat)
  | inputsHash (i : Nat)
  | noExtract (i : Nat)
  | extractMembers
  | extractParties
  | extractWindow
  | effectsNotArray
  | rowMembers
  | rowTypes
  | outsideWindow
  | extractKeyMismatch
  | presentedRow (i : Nat)
  | effectMismatch (ref : Str)
  | effectClassMismatch (ref : Str)
  | effectAgainstRefusal (ref : Str)
  | effectWithoutDecision (ref : Str)
  | decisionWithoutEffect (ref : Str)
  | indexNoRef (i : Nat)
  | indexUnknownRef (i : Nat)
  | indexNoEffect (i : Nat)
  | approvalNoAssertion (i : Nat)
  | approvalNotHeld (i : Nat)
  | approvalAssertion (i : Nat)
  | checkpointNoCoseHex (i : Nat)
  | checkpointLabels
  | checkpointNotUint
  | checkpointClaimsDiffer
  | receiptCount
  | chainHeadHash
  | prevCheckpointHash
  | totals
  | haltWindow (i : Nat)
  deriving DecidableEq

/--
A `CedulonError`, or another exception that is caught all the same.
-/
inductive Error where
  | cedulon (stage : Stage) (problem : Problem)
  | other
  deriving DecidableEq

def Error.stage : Error → Stage
  | .cedulon stage _ => stage
  | .other => .malformed

/--
A key that is loaded; not every kind of key has a method `verify`.
-/
structure PublicKey where
  isEd25519 : Bool
  verify? : Option ((sig msg : Bytes) → Bool)

/--
What the verdict rests on outside of this file: the interpreter, the hash function, `_spki_der` and
`load_der_public_key`, where `none` stands for an exception, and the two schemes of WebAuthn keys: a
raw Ed25519 key, and a point of P-256. What is no key verifies nothing.
-/
structure Env where
  interp : Python.Interp
  padding : Base64.Padding
  sha256 : HashFn 32
  spkiDer : Bytes → Option Bytes
  loadDer : Bytes → Option PublicKey
  ed25519 : (pub sig msg : Bytes) → Bool
  es256 : (x y : Nat) → (sig msg : Bytes) → Bool

def maxSafe : Nat := 2 ^ 53 - 1

def maxDepth : Nat := 500

def isHash (s : Str) : Bool :=
  s.length = 64 && s.all fun c => (48 ≤ c.val && c.val ≤ 57) || (97 ≤ c.val && c.val ≤ 102)

/-!
### JSON lines
-/

/--
Whether brackets outside of strings nest more than `limit` deep.
-/
def deeperThan (line : Str) (limit : Nat) : Bool :=
  if line.count 0x5b + line.count 0x7b ≤ limit then false else go 0 false false line
where
  go (depth : Int) (inStr esc : Bool) : Str → Bool
    | [] => false
    | ch :: line =>
      if inStr then
        if esc then go depth true false line
        else if ch = 0x5c then go depth true true line
        else go depth (ch ≠ 0x22) false line
      else if ch = 0x22 then
        go depth true esc line
      else if ch = 0x5b ∨ ch = 0x7b then
        if (limit : Int) < depth + 1 then true else go (depth + 1) false esc line
      else if ch = 0x5d ∨ ch = 0x7d then
        go (depth - 1) false esc line
      else
        go depth false esc line

inductive LineError where
  | decode
  | tooManyDigits
  | constant
  | duplicateKey (key : Str)
  | recursion
  deriving DecidableEq

def noDupKeys (pairs : List (Str × Json)) : Except LineError (List (Str × Json)) := go [] pairs
where
  go (d : List (Str × Json)) : List (Str × Json) → Except LineError (List (Str × Json))
    | [] => .ok d
    | (k, v) :: pairs =>
      if (Assoc.lookup k d).isSome then .error (.duplicateKey k) else go (d ++ [(k, v)]) pairs

def lineHooks (interp : Python.Interp) : Json.Hooks LineError where
  syntaxError := .decode
  recursionError := .recursion
  parseInt text := ((Python.plainHooks interp).parseInt text).mapError fun _ => .tooManyDigits
  parseFloat text := .ok (Python.floatOfText text)
  parseConstant _ := .error .constant
  objectPairs := noDupKeys
  lone := id
  maxDepth := interp.recursionLimit

/--
The values of the lines that are not blank. `stage` is the stage that reads the file.
-/
def loadsLines (interp : Python.Interp) (text : Str) (stage : Stage) : Except Error (List Json) :=
  go 1 (text.splitOn 0x0a)
where
  go (number : Nat) : List Str → Except Error (List Json)
    | [] => .ok []
    | line :: lines =>
      if line.all Python.isSpace then
        go (number + 1) lines
      else if deeperThan line maxDepth then
        .error (.cedulon stage (.nestedTooDeep number))
      else
        match Json.loads (lineHooks interp) line with
        | .error .recursion => .error .other
        | .error _ => .error (.cedulon stage (.notJson number))
        | .ok v => do return v :: (← go (number + 1) lines)

/--
`v.get(name)` of a dict, `None` if there is no such key.
-/
def member (ms : List (Str × Json)) (name : Str) : Json := (Assoc.lookup name ms).getD .null

mutual

/--
`==` of a value from JSON and a value from CBOR.
-/
def eqCbor : Json → Cbor → Bool
  | .null, .null => true
  | .str s, .text t => s = t
  | .arr xs, .arr ys => eqCborElems xs ys
  | .obj ms, .map ns => ms.length = ns.length && eqCborMembers ms ns
  | v, .int n => Python.eqInt v n
  | v, .bool b => Python.eqInt v (if b then 1 else 0)
  | _, _ => false

def eqCborElems : List Json → List Cbor → Bool
  | [], [] => true
  | x :: xs, y :: ys => eqCbor x y && eqCborElems xs ys
  | _, _ => false

def eqCborMembers : List (Str × Json) → List (Cbor.Key × Cbor) → Bool
  | [], _ => true
  | (k, v) :: ms, ns =>
    match Assoc.lookup (.text k) ns with
    | some w => eqCbor v w && eqCborMembers ms ns
    | none => false

end

/-!
### Signed objects
-/

def algEd25519 : Int := -19

def ctRecord : Str := txt "application/cedulon-decision-record+cbor"

def ctCheckpoint : Str := txt "application/cedulon-checkpoint+cbor"

/--
`cbor_decode`, whose `ValueError` is the given problem.
-/
def decodeAt (stage : Stage) (problem : Problem) (b : Bytes) : Except Error Cbor :=
  match Cbor.decode b with
  | .ok v => .ok v
  | .error e => .error (if e.isValueError then .cedulon stage problem else .other)

/--
`cbor_encode`, all of whose exceptions go through.
-/
def encodeAll (v : Cbor) : Except Error Bytes := (Cbor.encode v).mapError fun _ => .other

/--
What the signature of a COSE_Sign1 is over.
-/
def sigStructure (protectedHeader payload : Bytes) : Cbor :=
  .arr [.text (txt "Signature1"), .bytes protectedHeader, .bytes [], .bytes payload]

def require (condition : Bool) (e : Error) : Except Error Unit :=
  if condition then .ok () else .error e

theorem require_eq_ok {condition : Bool} {e : Error} (h : require condition e = .ok ())
    : condition = true := by
  unfold require at h
  split at h
  . assumption
  . simp at h

/--
A library call whose exceptions go through.
-/
def orOther : Option α → Except Error α
  | some x => .ok x
  | none => .error .other

def cose (env : Env) (octets pinned : Bytes) (contentType : Str) (header signature : Stage)
    : Except Error Cbor := do
  match ← decodeAt header .notCbor octets with
  | .arr [.bytes protectedHeader, .map unprotected, .bytes payload, .bytes sig] =>
    require unprotected.isEmpty (.cedulon header .unprotectedHeader)
    match ← decodeAt header .protectedNotCbor protectedHeader with
    | .map ph =>
      let reencoded ← encodeAll (.map ph)
      require (reencoded = protectedHeader) (.cedulon header .protectedNotDeterministic)
      require ((Cbor.get ph (.int 1)).isInt algEd25519) (.cedulon header .alg)
      require ((Cbor.get ph (.int 3)).isText contentType) (.cedulon header .contentType)
      let der ← orOther (env.spkiDer pinned)
      require ((Cbor.get ph (.int 4)).isBytes ((env.sha256 der).take 8)) (.cedulon header .kid)
      let pub ← orOther (env.loadDer der)
      require pub.isEd25519 (.cedulon header .notEd25519)
      let msg ← encodeAll (sigStructure protectedHeader payload)
      let verify ← orOther pub.verify?
      require (verify sig msg) (.cedulon signature .signature)
      decodeAt signature .payloadNotCbor payload
    | _ => throw (.cedulon header .protectedNotDeterministic)
  | .arr [.bytes _, _, .bytes _, .bytes _] => throw (.cedulon header .unprotectedHeader)
  | _ => throw (.cedulon header .notCoseSign1)

end Cedulon
end CryptoValid
