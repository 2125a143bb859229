import CryptoValid.Cedulon.Approvals

/-!
This module contains the verdict of `cryptovalid_cedulon.py` over one ledger: the stages in their
order, and what the relying party gets back.
-/

namespace CryptoValid
namespace Cedulon

def checkpointLabels : List (Int × Str) := [
  (-70101, txt "epoch"), (-70102, txt "startMs"), (-70103, txt "endMs"),
  (-70104, txt "receiptCount"), (-70105, txt "chainHeadHash"), (-70106, txt "totals"),
  (-70107, txt "prevCheckpointHash")]

inductive NotVerified where
  | inputsBinding
  | index
  | approvalSignature
  | control
  | approvalChallengeBinding
  deriving DecidableEq

/--
What is to be verified, and the pins of the relying party. A boundary allowance out of range is
refused before anything is read.
-/
structure Request where
  decisionsText : Str
  effectsText : Str
  checkpointsText : Str
  recordKey : Bytes
  extractKey : Bytes
  checkpointKey : Bytes
  inputsText : Option Str
  indexText : Option Str
  operatorCredentials : Option Json
  clockSkewMs : Nat
  clockSkewMs_le : clockSkewMs ≤ maxSafe

/--
`why` is `none` if the result is VALID.
-/
structure Verdict where
  why : Option Error
  notVerified : List NotVerified
  records : Nat
  boundaryDeferred : List Deferred

def Verdict.Valid (v : Verdict) : Prop := v.why = none

instance (v : Verdict) : Decidable v.Valid := inferInstanceAs (Decidable (v.why = none))

section

variable (env : Env)

/-!
### Inputs
-/

/--
The inputs by reference.
-/
def readInputs (i : Nat) (inputs : Dict Str Json) : List Json → Except Error (Dict Str Json)
  | [] => .ok inputs
  | .obj row :: rows =>
    match member row (txt "ref"), has row (txt "inputs") with
    | .str ref, true =>
      if inputs.contains ref then
        .error (.cedulon .inputsBinding (.inputsDuplicateRef i))
      else
        readInputs (i + 1) (inputs.set ref (member row (txt "inputs"))) rows
    | _, _ => .error (.cedulon .inputsBinding (.inputsRow i))
  | _ :: _ => .error (.cedulon .inputsBinding (.inputsRow i))

def checkInputs (inputs : Dict Str Json) (i : Nat) : List Entry → Except Error Unit
  | [] => .ok ()
  | e :: es =>
    match e.record.inputsHash with
    | none => checkInputs inputs (i + 1) es
    | some want =>
      match e.record.ref.bind inputs.get? with
      | none => .error (.cedulon .inputsBinding (.inputsMissing i))
      | some v =>
        match Acta.jcs v with
        | .error _ => .error .other
        | .ok b =>
          if hexdigest env b ≠ want then .error (.cedulon .inputsBinding (.inputsHash i))
          else checkInputs inputs (i + 1) es

def inputsStage (inputsText : Option Str) (entries : List Entry) : Except Error
    (Dict Str Json) := do
  match inputsText with
  | none => return Dict.empty
  | some text =>
    let inputs ← readInputs 0 Dict.empty (← loadsLines env.interp text .inputsBinding)
    checkInputs env inputs 0 entries
    return inputs

/-!
### Index
-/

def checkIndex (records : List Record) (rows : List Row) (i : Nat) : List Json → Except Error Unit
  | [] => .ok ()
  | .obj row :: rest =>
    match member row (txt "ref") with
    | .str ref =>
      if !(records.map Record.ref).contains (some ref) then
        .error (.cedulon .index (.indexUnknownRef i))
      else if (member row (txt "kind") = .str (txt "effect") ∨
          member row (txt "hasEffect") = .bool true) ∧ !(rows.map Row.ref).contains ref then
        .error (.cedulon .index (.indexNoEffect i))
      else
        checkIndex records rows (i + 1) rest
    | _ => .error (.cedulon .index (.indexNoRef i))
  | _ :: _ => .error (.cedulon .index (.indexNoRef i))

def indexStage (indexText : Option Str) (records : List Record) (rows : List Row)
    : Except Error Unit := do
  match indexText with
  | none => return ()
  | some text => checkIndex records rows 0 (← loadsLines env.interp text .index)

/-!
### Checkpoints
-/

/--
The value of a claim of a checkpoint.
-/
def claim (k : List (Str × Cbor)) (name : Str) : Cbor := (Assoc.lookup name k).getD .null

/--
`v == claim` for a claim that may be `None`.
-/
def isClaim (v : Cbor) (want : Option Str) : Bool :=
  match want, v with
  | none, .null => true
  | some s, .text t => t = s
  | _, _ => false

/--
The signed totals say how often each decision comes in the window.
-/
def totalsMatch (totals : Cbor) (win : List Entry) : Bool :=
  match totals with
  | .null => true
  | .map ms =>
    ms.length = 3 && [Decision.allow, .deny, .defer].all fun d =>
      (Cbor.get ms (.text d.name)).isText
        (Json.natText (win.countP fun e => e.record.decision = d))
  | _ => false

/--
One checkpoint; returns its hash.
-/
def checkCheckpoint (pinned : Bytes) (entries : List Entry) (prev : Option Str) (i : Nat)
    (cp : Json)
    : Except Error Str := do
  match cp with
  | .obj ms =>
    match member ms (txt "coseHex") with
    | .str coseHex =>
      let octets ← orOther (Python.fromHex? coseHex)
      let p ← cose env octets pinned ctCheckpoint .checkpointSignature .checkpointSignature
      match namedClaims? checkpointLabels p with
      | none => throw (.cedulon .checkpointSignature .checkpointLabels)
      | some k =>
        require ([txt "epoch", txt "startMs", txt "endMs", txt "receiptCount"].all
            fun name => isUint (claim k name))
          (.cedulon .checkpointSignature .checkpointNotUint)
        require (eqCbor (member ms (txt "claims")) (.map (k.map fun (name, v) => (.text name, v))))
          (.cedulon .checkpointSignature .checkpointClaimsDiffer)
        let win := entries.filter fun e =>
          uintClaim k (txt "startMs") ≤ e.record.timestampMs &&
            e.record.timestampMs < uintClaim k (txt "endMs")
        require (uintClaim k (txt "receiptCount") = win.length)
          (.cedulon .checkpointCoverage .receiptCount)
        require (isClaim (claim k (txt "chainHeadHash")) (win.getLast?.map Entry.hash))
          (.cedulon .checkpointCoverage .chainHeadHash)
        require (isClaim (claim k (txt "prevCheckpointHash")) prev)
          (.cedulon .checkpointCoverage .prevCheckpointHash)
        require (totalsMatch (claim k (txt "totals")) win) (.cedulon .checkpointTotals .totals)
        return hexdigest env octets
    | _ => throw (.cedulon .checkpointSignature (.checkpointNoCoseHex i))
  | _ => throw (.cedulon .checkpointSignature (.checkpointNoCoseHex i))

def checkCheckpoints (pinned : Bytes) (entries : List Entry) (prev : Option Str) (i : Nat)
    : List Json → Except Error Unit
  | [] => .ok ()
  | cp :: cps => do
    let hash ← checkCheckpoint env pinned entries prev i cp
    checkCheckpoints pinned entries (some hash) (i + 1) cps

def checkpointStage (text : Str) (pinned : Bytes) (entries : List Entry) : Except Error Unit := do
  checkCheckpoints env pinned entries none 0 (← loadsLines env.interp text .checkpointSignature)

/-!
### Control
-/

def actionOf (inputs : Dict Str Json) (c : Record) : Json :=
  match inputMember inputs c (txt "control") with
  | .obj ctl => member ctl (txt "action")
  | _ => .null

/--
No allow is inside a halt window.
-/
def checkControl (inputs : Dict Str Json) (halted : Bool)
    (i : Nat) : List Record → Except Error Unit
  | [] => .ok ()
  | c :: cs =>
    if actionOf inputs c = .str (txt "halt") ∧ isAllow c then
      checkControl inputs true (i + 1) cs
    else if actionOf inputs c = .str (txt "resume") ∧ isAllow c then
      checkControl inputs false (i + 1) cs
    else if halted ∧ isAllow c then
      .error (.cedulon .control (.haltWindow i))
    else
      checkControl inputs halted (i + 1) cs

def controlStage (inputsText : Option Str) (inputs : Dict Str Json) (records : List Record)
    : Except Error Unit :=
  match inputsText with
  | none => .ok ()
  | some _ => checkControl inputs false 0 records

/-!
### Verdict
-/

def notVerified (req : Request) : List NotVerified :=
  (if req.inputsText.isSome then [] else [.inputsBinding]) ++
  (if req.indexText.isSome then [] else [.index]) ++
  (if req.operatorCredentials.isSome && req.inputsText.isSome then [] else [.approvalSignature]) ++
  (if req.inputsText.isSome then [] else [.control]) ++
  (if req.operatorCredentials.isSome then [.approvalChallengeBinding] else [])

/--
The stages after the reconciliation.
-/
def laterStages (req : Request) (entries : List Entry) (inputs : Dict Str Json) (rows : List Row)
    : Except Error Unit := do
  let records := entries.map Entry.record
  indexStage env req.indexText records rows
  approvalStage env req.operatorCredentials req.inputsText entries inputs
  checkpointStage env req.checkpointsText req.checkpointKey entries
  controlStage req.inputsText inputs records

/--
The inputs and the rows, between the chain and the reconciliation.
-/
def earlierStages (req : Request) (entries : List Entry)
    : Except Error (Dict Str Json × List Row) := do
  let inputs ← inputsStage env req.inputsText entries
  let rows ← readRows env req.effectsText req.extractKey
  return (inputs, rows)

def verifyLedger (req : Request) : Verdict :=
  let out : Verdict := ⟨none, notVerified req, 0, []⟩
  match readLedger env req.decisionsText req.recordKey with
  | .error e => { out with why := some e }
  | .ok entries =>
    let out := { out with records := entries.length }
    match earlierStages env req entries with
    | .error e => { out with why := some e }
    | .ok (inputs, rows) =>
      let (deferred, r) := reconcile (entries.map Entry.record) req.clockSkewMs rows
      let out := { out with boundaryDeferred := deferred }
      match r with
      | .error e => { out with why := some e }
      | .ok () =>
        match laterStages env req entries inputs rows with
        | .error e => { out with why := some e }
        | .ok () => out

end

end Cedulon
end CryptoValid
