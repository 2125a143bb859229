import CryptoValid.Cedulon.Basic

/-!
This module contains the decision records: the claims that a record signs, the records of a file, and
the hash chain through them.
-/

namespace CryptoValid
namespace Cedulon

/--
`RECORD_LABELS`: the labels of the claims and their names.
-/
def recordLabels : List (Int × Str) := [
  (-70501, txt "decider"), (-70502, txt "subject"), (-70503, txt "requestHash"),
  (-70504, txt "policyHash"), (-70505, txt "inputsHash"), (-70506, txt "decision"),
  (-70507, txt "reasonCode"), (-70508, txt "ref"), (-70509, txt "effectHash"),
  (-70510, txt "timestampMs"), (-70511, txt "nonce"), (-70512, txt "prevRecordHash"),
  (-70513, txt "effectClass")]

def hashClaims : List Str := [
  txt "requestHash", txt "policyHash", txt "inputsHash", txt "effectHash", txt "prevRecordHash"]

def nullable : List Str := [
  txt "inputsHash", txt "ref", txt "effectHash", txt "prevRecordHash", txt "effectClass"]

inductive Decision where
  | allow
  | deny
  | defer
  deriving DecidableEq

def Decision.name : Decision → Str
  | .allow => txt "allow"
  | .deny => txt "deny"
  | .defer => txt "defer"

/--
`DECISIONS`, read.
-/
def decision? (s : Str) : Option Decision :=
  [Decision.allow, .deny, .defer].find? fun d => d.name = s

/--
The claims that the verdict reads. `complete` is the rule for an allow: a reference and a class that
are not empty, and a hash.
-/
structure Record where
  decision : Decision
  ref : Option Str
  effectHash : Option Str
  effectClass : Option Str
  inputsHash : Option Str
  timestampMs : Nat
  prevRecordHash : Option Str
  complete : decision = .allow →
    (ref.any fun s => !s.isEmpty) ∧ effectHash.isSome ∧ (effectClass.any fun s => !s.isEmpty)

/--
A map whose keys are exactly the given labels, each key replaced by its name.
-/
def namedClaims? (labels : List (Int × Str)) (payload : Cbor) : Option (List (Str × Cbor)) :=
  match payload with
  | .map ms =>
    if (labels.all fun l => (Assoc.lookup (.int l.1) ms).isSome) then
      ms.mapM fun m =>
        match m.1 with
        | .int i => (Assoc.lookup i labels).map fun name => (name, m.2)
        | .bytes _ | .text _ => none
    else
      none
  | _ => none

def isUint : Cbor → Bool
  | .int i => 0 ≤ i && i ≤ maxSafe
  | _ => false

def checkClaim (name : Str) (v : Cbor) : Except Error Unit :=
  match v with
  | .null => require (nullable.contains name) (.cedulon .recordClaims (.claimNull name))
  | v =>
    if name = txt "timestampMs" then
      require (isUint v) (.cedulon .recordClaims .timestampNotUint)
    else
      match v with
      | .text s =>
        require (!(hashClaims.contains name && !isHash s))
          (.cedulon .recordClaims (.hashGrammar name))
      | _ => throw (.cedulon .recordClaims (.claimNotText name))

/--
A text claim; `none` stands for `None`.
-/
def textClaim (c : List (Str × Cbor)) (name : Str) : Option Str :=
  match Assoc.lookup name c with
  | some (.text s) => some s
  | _ => none

def uintClaim (c : List (Str × Cbor)) (name : Str) : Nat :=
  match Assoc.lookup name c with
  | some (.int i) => i.natAbs
  | _ => 0

def recordClaims (payload : Cbor) (presented : Json) : Except Error Record := do
  match namedClaims? recordLabels payload with
  | none => throw (.cedulon .recordClaims .labels)
  | some c =>
    c.forM fun (name, v) => checkClaim name v
    match (textClaim c (txt "decision")).bind decision? with
    | none => throw (.cedulon .recordClaims .decision)
    | some decision =>
      let ref := textClaim c (txt "ref")
      let effectHash := textClaim c (txt "effectHash")
      let effectClass := textClaim c (txt "effectClass")
      if hcomplete : decision = .allow →
          (ref.any fun s => !s.isEmpty) ∧ effectHash.isSome ∧
            (effectClass.any fun s => !s.isEmpty) then
        require (decision = .allow || effectHash.isNone) (.cedulon .recordClaims .refusalWithEffect)
        require (eqCbor presented (.map (c.map fun (name, v) => (.text name, v))))
          (.cedulon .recordClaims .claimsDiffer)
        return {
          decision := decision
          ref := ref
          effectHash := effectHash
          effectClass := effectClass
          inputsHash := textClaim c (txt "inputsHash")
          timestampMs := uintClaim c (txt "timestampMs")
          prevRecordHash := textClaim c (txt "prevRecordHash")
          complete := hcomplete }
      else
        throw (.cedulon .recordClaims .incompleteAllow)

/--
A record and the hash of the octets that carry it.
-/
structure Entry where
  record : Record
  hash : Str

section

variable (env : Env)

def hexdigest (b : Bytes) : Str := Hex.ofBytes (env.sha256 b)

def readRecord (pinned : Bytes) (i : Nat) (line : Json) : Except Error Entry := do
  match line with
  | .obj ms =>
    match member ms (txt "coseHex") with
    | .str coseHex =>
      match Python.fromHex? coseHex with
      | none => throw (.cedulon .recordHeader (.coseHexNotHex i))
      | some octets =>
        let payload ← cose env octets pinned ctRecord .recordHeader .recordSignature
        let record ← recordClaims payload (member ms (txt "claims"))
        return ⟨record, hexdigest env octets⟩
    | _ => throw (.cedulon .recordHeader (.noCoseHex i))
  | _ => throw (.cedulon .recordHeader (.noCoseHex i))

def readRecords (pinned : Bytes) (i : Nat) : List Json → Except Error (List Entry)
  | [] => .ok []
  | line :: lines => do
    return (← readRecord env pinned i line) :: (← readRecords pinned (i + 1) lines)

/--
Every record names the hash of the one before it, and the first one names none.
-/
def checkChain (i : Nat) (want : Option Str) : List Entry → Except Error Unit
  | [] => .ok ()
  | e :: es => do
    require (e.record.prevRecordHash = want) (.cedulon .chain (.chainLink i))
    checkChain (i + 1) (some e.hash) es

/--
The records of the decisions file.
-/
def readLedger (decisionsText : Str) (pinned : Bytes) : Except Error (List Entry) := do
  let lines ← loadsLines env.interp decisionsText .recordHeader
  let entries ← readRecords env pinned 0 lines
  checkChain 0 none entries
  return entries

end

end Cedulon
end CryptoValid
