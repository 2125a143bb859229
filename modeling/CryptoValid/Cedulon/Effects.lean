import CryptoValid.Cedulon.Records
import CryptoValid.Lib.Tally

/-!
This module contains the effect extracts, and how their rows are matched with the decision records.
-/

namespace CryptoValid
namespace Cedulon

/--
A row of an extract. `ref`, `effectHash` and `effectClass` say which effect it is.
-/
structure Row where
  ref : Str
  effectHash : Str
  effectClass : Str
  timestampMs : Nat

def rowMembers : List Str := [txt "ref", txt "effectHash", txt "effectClass", txt "timestampMs"]

def bodyMembers : List Str := [
  txt "deciderId", txt "channelId", txt "windowStartMs", txt "windowEndMs", txt "effects"]

def has (ms : List (Str × Json)) (name : Str) : Bool := (Assoc.lookup name ms).isSome

/--
`_is_uint`, with the number.
-/
def uint? : Json → Option Nat
  | .int i => if 0 ≤ i ∧ i ≤ maxSafe then some i.natAbs else none
  | _ => none

/--
A string that is not empty.
-/
def text? : Json → Option Str
  | .str s => if s.isEmpty then none else some s
  | _ => none

def hash? : Json → Option Str
  | .str s => if isHash s then some s else none
  | _ => none

def isStr : Json → Bool
  | .str _ => true
  | _ => false

def readRow (ws we : Nat) (row : Json) : Except Error Row :=
  match row with
  | .obj ms =>
    if !(rowMembers.all (has ms) && ms.all fun m => (txt "actor" :: rowMembers).contains m.1) then
      .error (.cedulon .effectBinding .rowMembers)
    else
      match text? (member ms (txt "ref")), hash? (member ms (txt "effectHash")),
        text? (member ms (txt "effectClass")), uint? (member ms (txt "timestampMs")) with
      | some ref, some effectHash, some effectClass, some timestampMs =>
        if has ms (txt "actor") && !isStr (member ms (txt "actor")) then
          .error (.cedulon .effectBinding .rowTypes)
        else if ws ≤ timestampMs ∧ timestampMs < we then
          .ok ⟨ref, effectHash, effectClass, timestampMs⟩
        else
          .error (.cedulon .effectBinding .outsideWindow)
      | _, _, _, _ => .error (.cedulon .effectBinding .rowTypes)
  | _ => .error (.cedulon .effectBinding .rowMembers)

section

variable (env : Env)

def readSignature : Json → Option Bytes
  | .str s => Base64.validated? env.padding s
  | _ => none

/--
Whether the key has signed the body. The exceptions of the two decoders count as a refusal.
-/
def checkExtractSignature (pub : PublicKey) (body sig : Json) : Except Error Unit := do
  match readSignature env sig with
  | none => throw (.cedulon .effectBinding .extractKeyMismatch)
  | some sig =>
    let verify ← orOther pub.verify?
    match Acta.jcs body with
    | .error _ => throw (.cedulon .effectBinding .extractKeyMismatch)
    | .ok msg => require (verify sig msg) (.cedulon .effectBinding .extractKeyMismatch)

/--
The rows of an extract, each with its JSON object.
-/
def extract (body sig : Json) (pinned : Bytes) : Except Error (List (Json × Row)) := do
  match body with
  | .obj ms =>
    require (bodyMembers.all (has ms) && ms.all fun m => bodyMembers.contains m.1)
      (.cedulon .effectBinding .extractMembers)
    require ([txt "deciderId", txt "channelId"].all fun name => (text? (member ms name)).isSome)
      (.cedulon .effectBinding .extractParties)
    match uint? (member ms (txt "windowStartMs")), uint? (member ms (txt "windowEndMs")) with
    | some ws, some we =>
      require (ws < we) (.cedulon .effectBinding .extractWindow)
      match member ms (txt "effects") with
      | .arr effects =>
        let rows ← effects.mapM fun row => do return (row, ← readRow ws we row)
        let der ← orOther (env.spkiDer pinned)
        let pub ← orOther (env.loadDer der)
        checkExtractSignature env pub body sig
        return rows
      | _ => throw (.cedulon .effectBinding .effectsNotArray)
    | _, _ => throw (.cedulon .effectBinding .extractWindow)
  | _ => throw (.cedulon .effectBinding .extractMembers)

/--
Whether a row presented beside an extract is one that the extract signs.
-/
def signsRow (pres : Json) : List (Json × Row) → Except Error Bool
  | [] => .ok false
  | (r, _) :: rest => do
    let a ← (Acta.jcs pres).mapError fun _ => Error.other
    let b ← (Acta.jcs r).mapError fun _ => Error.other
    if a = b then return true else signsRow pres rest

def isObj : Json → Bool
  | .obj _ => true
  | _ => false

def readEffect (pinned : Bytes) (i : Nat) (e : Json) : Except Error (List Row) := do
  match e with
  | .obj ms =>
    match member ms (txt "receipt") with
    | .obj rc =>
      let signed ← extract env (member rc (txt "body")) (member rc (txt "signature")) pinned
      if has ms (txt "row") then
        let pres := member ms (txt "row")
        require (isObj pres) (.cedulon .effectBinding (.presentedRow i))
        let found ← signsRow pres signed
        require found (.cedulon .effectBinding (.presentedRow i))
      return signed.map Prod.snd
    | _ => throw (.cedulon .effectBinding (.noExtract i))
  | _ => throw (.cedulon .effectBinding (.noExtract i))

def readEffects (pinned : Bytes) (i : Nat) : List Json → Except Error (List Row)
  | [] => .ok []
  | e :: es => do
    return (← readEffect env pinned i e) ++ (← readEffects pinned (i + 1) es)

/--
The rows of the effects file.
-/
def readRows (effectsText : Str) (pinned : Bytes) : Except Error (List Row) := do
  readEffects env pinned 0 (← loadsLines env.interp effectsText .effectBinding)

end

/-!
### Reconciliation
-/

inductive Edge where
  | opening
  | closing
  deriving DecidableEq

/--
An item of `boundary_deferred`: an unmatched row at the opening edge, or an unmatched allow at the
closing one.
-/
structure Deferred where
  ref : Str
  edge : Edge
  distanceMs : Nat
  deriving DecidableEq

def isAllow (c : Record) : Bool := c.decision = .allow

/--
The reference of a record; an allow has one.
-/
def refOf (c : Record) : Str := c.ref.getD []

def allowsOf (records : List Record) : List Record := records.filter isAllow

def allowDict (records : List Record) : Dict Str Record := Dict.lastBy refOf (allowsOf records)

def refusedRefs (records : List Record) : List Str :=
  (records.filter fun c => !isAllow c && !(refOf c).isEmpty).map refOf

def oldest (records : List Record) : Nat := (records.map Record.timestampMs).min?.getD 0

def newest (records : List Record) : Nat := (records.map Record.timestampMs).max?.getD 0

/--
`abs(a - b)`.
-/
def distance (a b : Nat) : Nat := ((a : Int) - b).natAbs

section

variable (records : List Record) (clockSkewMs : Nat)

/--
Every row against the last allow under its reference. The row's count is kept in `seen`.
-/
def checkRows (seen : Dict Str Nat) (deferred : List Deferred)
    : List Row → List Deferred × Except Error (Dict Str Nat)
  | [] => (deferred, .ok seen)
  | row :: rows =>
    let seen := seen.set row.ref ((seen.get? row.ref).getD 0 + 1)
    match (allowDict records).get? row.ref with
    | some a =>
      if some row.effectHash ≠ a.effectHash then
        (deferred, .error (.cedulon .effectBinding (.effectMismatch row.ref)))
      else if some row.effectClass ≠ a.effectClass then
        (deferred, .error (.cedulon .effectBinding (.effectClassMismatch row.ref)))
      else
        checkRows seen deferred rows
    | none =>
      let away := distance row.timestampMs (oldest records)
      if (refusedRefs records).contains row.ref then
        (deferred, .error (.cedulon .effectBinding (.effectAgainstRefusal row.ref)))
      else if clockSkewMs ≠ 0 ∧ away ≤ clockSkewMs then
        checkRows seen (deferred ++ [⟨row.ref, .opening, away⟩]) rows
      else
        (deferred, .error (.cedulon .effectBinding (.effectWithoutDecision row.ref)))

/--
The newest allow under a reference.
-/
def lastAllow (ref : Str) : Nat := newest ((allowsOf records).filter fun c => refOf c = ref)

/--
Every reference of an allow against the number of its rows.
-/
def checkCounts (seen : Dict Str Nat) (deferred : List Deferred)
    : List (Str × Nat) → List Deferred × Except Error Unit
  | [] => (deferred, .ok ())
  | (ref, n) :: perRef =>
    let rows := (seen.get? ref).getD 0
    let away := newest records - lastAllow records ref
    if rows = 0 ∧ clockSkewMs ≠ 0 ∧ away ≤ clockSkewMs then
      checkCounts seen (deferred ++ [⟨ref, .closing, away⟩]) perRef
    else if rows < n then
      (deferred, .error (.cedulon .effectBinding (.decisionWithoutEffect ref)))
    else if n < rows then
      (deferred, .error (.cedulon .effectBinding (.effectWithoutDecision ref)))
    else
      checkCounts seen deferred perRef

/--
What is deferred, and whether the rows and the allows have passed.
-/
def reconcile (rows : List Row) : List Deferred × Except Error Unit :=
  match checkRows records clockSkewMs Dict.empty [] rows with
  | (deferred, .error e) => (deferred, .error e)
  | (deferred, .ok seen) =>
    checkCounts records clockSkewMs seen deferred
      (Dict.tally ((allowsOf records).map refOf)).items

end

end Cedulon
end CryptoValid
