import CryptoValid.Lib.HashChain
import CryptoValid.Lib.Lines
import CryptoValid.Tip

/-!
This module contains `verify_ledger` of `verifier.py`: the chain of a ledger file, and its signed tip.
-/

namespace CryptoValid
namespace Verifier

def maxInputBytes : Nat := 256 * 1024 * 1024

inductive TipError where
  | untrusted
  | unreadable (e : Tip.Error)
  | check (error : Str)
  deriving DecidableEq

inductive ParseError where
  | load (e : LoadError)
  | notAJsonObject
  | idxMismatch (expected : Nat) (got : Option Json)
  | emptyLedger
  | pqKeyWithoutLogKey
  | tip (error : TipError)
  | tipMissing
  deriving DecidableEq

structure LineError where
  line : Nat
  error : ParseError
  deriving DecidableEq

inductive HashReason where
  | missingSelfHash
  | hashMismatch (expected : Json) (computed : Str)
  deriving DecidableEq

structure HashFailure where
  idx : Json
  reason : HashReason
  deriving DecidableEq

structure LinkFailure where
  idx : Json
  expectedPrev : Json
  actualPrev : Json
  deriving DecidableEq

structure SchemaFailure where
  idx : Json
  reason : Str
  deriving DecidableEq

structure TsBackwards where
  idx : Json
  prevTs : Str
  ts : Str
  deriving DecidableEq

inductive Verdict where
  | pass
  | fail
  | fileNotFound
  deriving DecidableEq

/--
What the receipt says about the tip.
-/
structure TipReport where
  ok : Bool
  error : Option TipError
  checked : Bool
  pqProtected : Option Bool
  deriving DecidableEq

structure Receipt where
  algorithmUsed : Algo
  entriesCount : Nat
  hashRecomputedOk : Nat
  hashFailures : List HashFailure
  linkOk : Nat
  linkFailures : List LinkFailure
  idxMonotonic : Bool
  tsBackwards : List TsBackwards
  parseErrors : List LineError
  schemaFailures : List SchemaFailure
  chainIntegrity : Bool
  tip : Option TipReport
  signaturesNotChecked : Nat
  deriving DecidableEq

/--
A file that is too large or cannot be read has a verdict and nothing else.
-/
inductive Outcome where
  | fileNotFound
  | inputTooLarge
  | unreadable
  | receipt (r : Receipt)
  deriving DecidableEq

def Outcome.verdict : Outcome → Verdict
  | .fileNotFound => .fileNotFound
  | .inputTooLarge => .fail
  | .unreadable => .fail
  | .receipt r => if r.chainIntegrity then .pass else .fail

/--
`hash_with` raises `ValueError` for any other algorithm.
-/
inductive Error where
  | unsupportedAlgo (name : Str)
  deriving DecidableEq

/--
The arguments; `sidecar` is the file `<path>.tip.json`, if there is one.
-/
structure Options where
  algo : Option Algo := none
  tip : Option Tip.File := none
  sidecar : Option Tip.File := none
  trustedPubkeyHex : Option Str := none
  requireTip : Bool := false
  tipNotBefore : Option Str := none
  expectLedgerId : Option Str := none
  trustedPqPubkeyB64 : Option Str := none

/-!
### Entries
-/

def isBlank (line : Str) : Bool := line.all (txt " \t\r\n").contains

def rawLines (content : Bytes) : List Str :=
  (Lines.split 0x0a (Utf8.decodeSurrogateEscape content)).filter fun line => !isBlank line

/--
The lines that are objects, and what is wrong with the other ones.
-/
def parseLines (lines : List Str) : List Entry × List LineError := go 0 lines
where
  go (i : Nat) : List Str → List Entry × List LineError
    | [] => ([], [])
    | line :: rest =>
      let (entries, errors) := go (i + 1) rest
      match loadsStrict line with
      | .ok (.obj e) => (e :: entries, errors)
      | .ok _ => (entries, ⟨i, .notAJsonObject⟩ :: errors)
      | .error e => (entries, ⟨i, .load e⟩ :: errors)

def entriesOf (content : Bytes) : List Entry := (parseLines (rawLines content)).1

def canonicalPayload (e : Entry) : Bytes := payloadOf e

def hashWith (algo : Algo) (payload : Bytes) : Except Error Str :=
  match CryptoValid.hashWith algo payload with
  | some h => .ok h
  | none =>
    match algo with
    | .other name => .error (.unsupportedAlgo name)
    | _ => .error (.unsupportedAlgo [])

def detectAlgo : List Entry → Option Algo
  | [] => none
  | e0 :: _ =>
    if e0.has (txt "self_hash") then
      supportedAlgos.find? fun algo =>
        (CryptoValid.hashWith algo (canonicalPayload e0)).any fun h =>
          e0.get (txt "self_hash") = .str h
    else
      none

/-!
### Checks
-/

/--
`e.get("idx", i)`.
-/
def idxOr (e : Entry) (i : Nat) : Json := (Assoc.lookup (txt "idx") e).getD (.int i)

def unknownKeys (e : Entry) : List Str :=
  ((e.map Prod.fst).filter fun k => !entryKeys.contains k).insertionSort (· ≤ ·)

def schemaFailure (i : Nat) (e : Entry) : Option SchemaFailure :=
  let unknown := unknownKeys e
  if unknown.isEmpty then none
  else some ⟨idxOr e i, txt "unknown_field:" ++ ((txt ",").intercalate unknown).take 120⟩

def hashFailure (algo : Algo) (i : Nat) (e : Entry) : Except Error (Option HashFailure) :=
  let expected := e.get (txt "self_hash")
  if expected = .null then
    .ok (some ⟨idxOr e i, .missingSelfHash⟩)
  else do
    let computed ← hashWith algo (canonicalPayload e)
    return if expected = .str computed then none
      else some ⟨idxOr e i, .hashMismatch expected computed⟩

def linkFailure (expectedPrev : Json) (i : Nat) (e : Entry) : Option LinkFailure :=
  let actualPrev := e.get (txt "prev_hash")
  if Python.eq actualPrev expectedPrev then none else some ⟨idxOr e i, expectedPrev, actualPrev⟩

/--
A boolean is not an index, though it equals one.
-/
def isIdx (i : Nat) : Json → Bool
  | .int n => n = i
  | .float x => x.eqInt i
  | _ => false

def idxError (i : Nat) (e : Entry) : Option LineError :=
  if isIdx i (e.get (txt "idx")) then none
  else some ⟨i, .idxMismatch i (Assoc.lookup (txt "idx") e)⟩

def tsBackward (before : Entry) (i : Nat) (e : Entry) : Option TsBackwards :=
  match before.get (txt "ts"), e.get (txt "ts") with
  | .str a, .str b => if b < a then some ⟨idxOr e i, a, b⟩ else none
  | _, _ => none

/--
The loops over all entries: `before` is what the entry before has left.
-/
def scan {α β : Type} (check : β → Nat → Entry → Option α) (next : Entry → β)
    : β → Nat → List Entry → List α
  | _, _, [] => []
  | before, i, e :: rest => (check before i e).toList ++ scan check next (next e) (i + 1) rest

def hashFailures (algo : Algo) : Nat → List Entry → Except Error (List HashFailure)
  | _, [] => .ok []
  | i, e :: rest => do
    let failure ← hashFailure algo i e
    return failure.toList ++ (← hashFailures algo (i + 1) rest)

def schemaFailures (entries : List Entry) : List SchemaFailure :=
  scan (fun _ => schemaFailure) (fun _ => ()) () 0 entries

def linkFailures (entries : List Entry) : List LinkFailure :=
  scan linkFailure (fun e => e.get (txt "self_hash")) (.str genesisPrev) 0 entries

def idxErrors (entries : List Entry) : List LineError :=
  scan (fun _ => idxError) (fun _ => ()) () 0 entries

/--
Reported, not enforced.
-/
def tsBackwards : List Entry → List TsBackwards
  | [] => []
  | e0 :: rest => scan tsBackward id e0 1 rest

/-!
### Tip
-/

def strOr (v : Json) : Str := (Tip.str? v).getD []

/--
`check_tip` on the document in the tip file.
-/
def checkTipFile (crypto : Tip.Crypto) (entries : List Entry) (file : Tip.File) (o : Options)
    : Except Tip.Error Tip.TipCheck := do
  let last := (entries.getLast?.map fun e => strOr (e.get (txt "self_hash"))).getD genesisPrev
  let first := (entries.head?.map fun e => strOr (e.get (txt "self_hash"))).getD genesisPrev
  let doc ← Tip.loadTip file
  Tip.checkTip crypto entries.length last doc o.trustedPubkeyHex o.tipNotBefore (some first)
    o.expectLedgerId o.trustedPqPubkeyB64

/--
The report on the tip, if there is one, and the error that makes the verdict a failure.
-/
def tipReport (crypto : Tip.Crypto) (entries : List Entry) (o : Options)
    : Option TipReport × Option ParseError :=
  -- a trusted post-quantum key is a requirement
  let requireTip := o.requireTip || (Tip.given o.trustedPqPubkeyB64).isSome
  match o.tip.or o.sidecar, Tip.given o.trustedPubkeyHex with
  | none, _ => (none, if requireTip then some .tipMissing else none)
  | some _, none =>
    (some { ok := false, error := some .untrusted, checked := false, pqProtected := none },
      if requireTip then some (.tip .untrusted) else none)
  | some file, some _ =>
    match checkTipFile crypto entries file o with
    | .error e =>
      (some { ok := false, error := some (.unreadable e), checked := true,
              pqProtected := some false },
        some (.tip (.unreadable e)))
    | .ok check =>
      let error := check.error.map TipError.check
      (some { ok := check.ok, error, checked := true, pqProtected := check.pqProtected },
        if check.ok then none else some (.tip (.check (check.error.getD []))))

/-!
### Verdict
-/

def hasSignature (e : Entry) : Bool :=
  e.has (txt "signature") || e.has (txt "signer") || e.has (txt "signature_pq") ||
    e.has (txt "signer_pq")

/--
The receipt over the entries and errors of a file. Lists in it are capped at ten.
-/
def receiptOf (crypto : Tip.Crypto) (o : Options) (entries : List Entry)
    (errors : List LineError) : Except Error Receipt := do
  let algo := (o.algo.or (detectAlgo entries)).getD .sha256
  let hashFailed ← hashFailures algo 0 entries
  let schemaFailed := schemaFailures entries
  let linkFailed := linkFailures entries
  let idxFailed := idxErrors entries
  let (tip, tipFailed) := tipReport crypto entries o
  let pqAlone := (Tip.given o.trustedPqPubkeyB64).isSome && (Tip.given o.trustedPubkeyHex).isNone
  let chainIntegrity := hashFailed.isEmpty && linkFailed.isEmpty && idxFailed.isEmpty &&
    errors.isEmpty && schemaFailed.isEmpty && !entries.isEmpty && !pqAlone && tipFailed.isNone
  let lateErrors := (if entries.isEmpty then [⟨0, .emptyLedger⟩] else []) ++
    (if pqAlone then [⟨entries.length, .pqKeyWithoutLogKey⟩] else []) ++
    (tipFailed.map fun error => ⟨entries.length, error⟩).toList
  return {
    algorithmUsed := algo
    entriesCount := entries.length
    hashRecomputedOk := entries.length - hashFailed.length
    hashFailures := hashFailed.take 10
    linkOk := entries.length - linkFailed.length
    linkFailures := linkFailed.take 10
    idxMonotonic := idxFailed.isEmpty
    tsBackwards := (tsBackwards entries).take 10
    parseErrors := (errors ++ idxFailed ++ lateErrors).take 10
    schemaFailures := schemaFailed.take 10
    chainIntegrity
    tip
    signaturesNotChecked := (entries.filter hasSignature).length }

def verifyLedger (crypto : Tip.Crypto) (path : Tip.File) (o : Options) : Except Error Outcome :=
  match path with
  | .missing => .ok .fileNotFound
  | .unreadable => .ok .unreadable
  | .content bytes =>
    if maxInputBytes < bytes.length then
      .ok .inputTooLarge
    else do
      let (entries, errors) := parseLines (rawLines bytes)
      return .receipt (← receiptOf crypto o entries errors)

end Verifier
end CryptoValid
