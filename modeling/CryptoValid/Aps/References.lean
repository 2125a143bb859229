import CryptoValid.Acta.Refusals
import CryptoValid.Lib.Collision
import CryptoValid.Lib.Gregorian
import CryptoValid.Lib.Python

/-!
This module contains the action references of `cryptovalid_aps.py`: the native form, the reference of a
payload, the second form and the external one.
-/

namespace CryptoValid
namespace Aps

open Acta (jcs JcsError)

inductive ApsError where
  | aps (message : Str)
  | jcs (e : JcsError)
  deriving DecidableEq

/-!
### Timestamps
-/

structure Fields where
  year : Nat
  month : Nat
  day : Nat
  hour : Nat
  minute : Nat
  second : Nat

/--
`([0-9]{4})-([0-9]{2})-([0-9]{2})T([0-9]{2}):([0-9]{2}):([0-9]{2})`, with the text after it.
-/
def fields? : Str → Option (Fields × Str)
  | y₁ :: y₂ :: y₃ :: y₄ :: a :: mo₁ :: mo₂ :: b :: d₁ :: d₂ :: t :: h₁ :: h₂ :: c :: mi₁ :: mi₂ :: e
      :: s₁ :: s₂ :: rest =>
    if ([y₁, y₂, y₃, y₄, mo₁, mo₂, d₁, d₂, h₁, h₂, mi₁, mi₂, s₁, s₂].all Json.isDigit) &&
        [a, b, t, c, e] = txt "--T::" then
      let num := Json.natOfText
      some (⟨num [y₁, y₂, y₃, y₄], num [mo₁, mo₂], num [d₁, d₂], num [h₁, h₂], num [mi₁, mi₂],
        num [s₁, s₂]⟩, rest)
    else
      none
  | _ => none

/--
`_calendar_ok`
-/
def calendarOk (x : Fields) (leapSecond : Bool) : Bool :=
  if !(1 ≤ x.month && x.month ≤ 12 && x.hour ≤ 23 && x.minute ≤ 59) then
    false
  else
    let maxDay := Gregorian.monthLength x.year x.month
    if !(1 ≤ x.day && x.day ≤ maxDay) then
      false
    else if x.second ≤ 59 then
      true
    else
      leapSecond && x.second = 60 && x.hour = 23 && x.minute = 59 && x.day = maxDay

/--
`TS_SECONDS.fullmatch`
-/
def tsSeconds? (ts : Str) : Option Fields :=
  match fields? ts with
  | some (x, rest) => if rest = txt "Z" then some x else none
  | none => none

/--
`TS_MILLIS.fullmatch`
-/
def tsMillis? (ts : Str) : Option Fields :=
  match fields? ts with
  | some (x, [dot, a, b, c, z]) =>
    if dot = .ofChar '.' ∧ [a, b, c].all Json.isDigit ∧ z = .ofChar 'Z' then some x else none
  | _ => none

/--
`TS_UTC_FRACTION.fullmatch`
-/
def tsUtcFraction? (ts : Str) : Option Fields :=
  match fields? ts with
  | some (x, rest) =>
    let digits := (rest.drop 1).takeWhile Json.isDigit
    let zone :=
      if rest.head? = some (.ofChar '.') ∧ digits ≠ [] then (rest.drop 1).dropWhile Json.isDigit
      else rest
    if zone = txt "Z" ∨ zone = txt "+00:00" then some x else none
  | none => none

/--
Whether the text has the form and is an instant of the calendar.
-/
def onCalendar (form : Str → Option Fields) (ts : Json) (leapSecond : Bool) : Bool :=
  match ts with
  | .str ts => (form ts).any fun x => calendarOk x leapSecond
  | _ => false

def normalizeTimestamp (ts : Json) : Except ApsError Str :=
  let wrong : Except ApsError Str := .error (.aps (txt ("timestamp is not an RFC 3339 UTC timestamp " ++
    "('Z' or '+00:00') on a real calendar date")))
  match ts with
  | .str ts =>
    match tsUtcFraction? ts with
    | some x => if calendarOk x false then .ok (ts.take 19 ++ txt "Z") else wrong
    | none => wrong
  | _ => wrong

/-!
### Fields
-/

/--
`_no_lone_surrogate`
-/
def noLoneSurrogate (s what : Str) : Except ApsError Unit :=
  if Str.Scalar s then .ok ()
  else
    .error (.aps (what ++ txt ": unpaired surrogate (no UTF-8 encoding; never repaired)"))

/--
`obj.get(name)`
-/
def get (ms : List (Str × Json)) (name : Str) : Json := (Assoc.lookup name ms).getD .null

/--
`set(obj) == names`
-/
def hasExactly (names : List Str) (ms : List (Str × Json)) : Bool :=
  (names.all fun n => n ∈ ms.map Prod.fst) && (ms.map Prod.fst).all fun n => n ∈ names

/--
`_strings`
-/
def strings (ms : List (Str × Json)) (names : List Str) (what : Str) : Except ApsError Unit :=
  names.forM fun n =>
    let wrong := what ++ txt ": " ++ n ++ txt " must be a non-empty string"
    match get ms n with
    | .str s => if s = [] then .error (.aps wrong) else noLoneSurrogate s (what ++ txt "." ++ n)
    | _ => .error (.aps wrong)

/--
The elements of an array of strings.
-/
def strings? : Json → Option (List Str)
  | .arr xs => xs.mapM fun
    | .str s => some s
    | _ => none
  | _ => none

/--
What `HEX64.fullmatch` and `HEX32.fullmatch` look for.
-/
def isHex (n : Nat) : Json → Bool
  | .str s => s.length = n && s.all fun c => Json.isDigit c || (0x61 ≤ c.val && c.val ≤ 0x66)
  | _ => false

def jcsOf (v : Json) : Except ApsError Bytes := (jcs v).mapError .jcs

/--
The object, with its timestamp at second precision where that is asked for.
-/
def normalized (ms : List (Str × Json)) (normalize : Bool) : Except ApsError (List (Str × Json)) :=
  if normalize then
    (normalizeTimestamp (get ms (txt "timestamp"))).map fun ts =>
      Assoc.replace (txt "timestamp") (.str ts) ms
  else
    .ok ms

section

-- `unicodedata.normalize("NFC", x)`
variable (nfc : Str → Str) (sha256 : HashFn 32)

def hexdigest (bytes : Bytes) : Str := Hex.ofBytes (sha256 bytes)

/-!
### The native form
-/

def nativeMembers : List Str :=
  [txt "agentId", txt "actionType", txt "scopeRequired", txt "timestamp"]

/--
The members, when all but the scopes are as they must be.
-/
def nativeFields (obj : Json) (normalize : Bool) : Except ApsError (List (Str × Json)) := do
  let wrong := ApsError.aps (txt ("-01 §4.1: the input object has exactly agentId, actionType, " ++
    "scopeRequired, timestamp"))
  let .obj ms := obj | throw wrong
  if !hasExactly nativeMembers ms then throw wrong
  let ms ← normalized ms normalize
  strings ms [txt "agentId", txt "actionType", txt "timestamp"] (txt "-01 §4.1")
  if !onCalendar tsSeconds? (get ms (txt "timestamp")) false then
    throw (.aps (txt ("-01 §4.1: timestamp must be RFC 3339 UTC at second precision with 'Z' on a " ++
      "real calendar date")))
  return ms

/--
The scopes in canonical order.
-/
def nativeScopes (sc : Json) (rejectDuplicateScopes : Bool) : Except ApsError (List Str) := do
  let some sc := strings? sc
    | throw (.aps (txt "-01 §4.1: scopeRequired must be an array of strings"))
  sc.forM fun x => noLoneSurrogate x (txt "-01 §4.1 scope")
  let scopes := (sc.map nfc).sortBy id
  if rejectDuplicateScopes && !decide scopes.Nodup then
    throw (.aps (txt "duplicate scope after NFC (rule of -03 §4.1, applied on request)"))
  return scopes

/--
The object that is hashed, with its scopes.
-/
def nativeCanonical (obj : Json) (rejectDuplicateScopes normalize : Bool)
    : Except ApsError (Json × List Str) := do
  let ms ← nativeFields obj normalize
  let scopes ← nativeScopes nfc (get ms (txt "scopeRequired")) rejectDuplicateScopes
  return (.obj (Assoc.replace (txt "scopeRequired") (.arr (scopes.map .str)) ms), scopes)

/--
`action_ref_native_01`
-/
def actionRefNative01 (obj : Json) (rejectDuplicateScopes normalize : Bool)
    : Except ApsError (Str × List Str) := do
  let (canonical, scopes) ← nativeCanonical nfc obj rejectDuplicateScopes normalize
  return (hexdigest sha256 (← jcsOf canonical), scopes)

/-!
### The second form
-/

def payloadPrefix : Bytes := (txt "APS-ACTION-PAYLOAD-V1\x00").flatMap Utf8.encodePoint

def refPrefix : Bytes := (txt "APS-ACTION-REF-V2\x00").flatMap Utf8.encodePoint

def payloadRefV2 (payload : Json) : Except ApsError Str := do
  return hexdigest sha256 (payloadPrefix ++ (← jcsOf payload))

def v2Members : List Str :=
  [txt "profile", txt "agent_id", txt "action_type", txt "target", txt "payload_ref",
    txt "scope_required", txt "issued_at", txt "nonce"]

/--
`x.encode("utf-8")`, the key of the order of scopes.
-/
def utf8Key (s : Str) : List Nat := (s.flatMap Utf8.encodePoint).map UInt8.toNat

/--
`sorted(set(...), key=lambda x: x.encode("utf-8"))`
-/
def canonicalScopes (sc : List Str) : List Str := (sc.map nfc).dedup.sortBy utf8Key

/--
The members, when all but the scopes are as they must be.
-/
def v2Fields (obj : Json) : Except ApsError (List (Str × Json)) := do
  let wrong := fun (message : String) => ApsError.aps (txt message)
  let .obj ms := obj | throw (wrong "-03 §4.1: unknown or missing member")
  if !hasExactly v2Members ms then throw (wrong "-03 §4.1: unknown or missing member")
  if get ms (txt "profile") ≠ .str (txt "aps-action-ref-v2") then
    throw (wrong "-03 §4.1: profile MUST equal \"aps-action-ref-v2\"")
  strings ms [txt "agent_id", txt "action_type", txt "target", txt "payload_ref", txt "issued_at",
    txt "nonce"] (txt "-03 §4.1")
  if !isHex 64 (get ms (txt "payload_ref")) || !isHex 32 (get ms (txt "nonce")) then
    throw (wrong "-03 §4.1: invalid hexadecimal field")
  if !onCalendar tsMillis? (get ms (txt "issued_at")) true then
    throw (wrong ("-03 §4.1: issued_at must be RFC 3339 UTC with exactly three fractional digits " ++
      "and 'Z' on a real calendar date"))
  return ms

/--
Whether the scopes are the canonical ones: they are never put in order.
-/
def v2Scopes (sc : Json) (emptyScopePermitted : Bool) : Except ApsError Unit := do
  let wrong := fun (message : String) => ApsError.aps (txt message)
  let some sc := (strings? sc).filter fun sc => sc.all (· ≠ [])
    | throw (wrong "-03 §4.1: scope_required must be an array of non-empty strings")
  if sc = [] ∧ emptyScopePermitted = false then
    throw (wrong "-03 §4.1: an empty scope_required is permitted only by an applicable profile")
  sc.forM fun x => noLoneSurrogate x (txt "-03 §4.1 scope")
  if sc ≠ canonicalScopes nfc sc then
    throw (wrong "-03 §4.1: non-canonical scope array (NFC, UTF-8 order, duplicate-free)")

/--
Whether the reference is that of the payload, where there is one (`null` is none).
-/
def payloadMatches (payload payloadRef : Json) : Except ApsError Unit := do
  if payload ≠ .null then
    if payloadRef ≠ .str (← payloadRefV2 sha256 payload) then
      throw (.aps (txt "-03 §4.1: payload_ref does not match the payload"))

/--
`action_ref_v2`
-/
def actionRefV2 (obj payload : Json) (emptyScopePermitted : Bool) : Except ApsError Str := do
  let ms ← v2Fields obj
  v2Scopes nfc (get ms (txt "scope_required")) emptyScopePermitted
  payloadMatches sha256 payload (get ms (txt "payload_ref"))
  return hexdigest sha256 (refPrefix ++ (← jcsOf (.obj ms)))

/-!
### The external form
-/

def externalMembers : List Str := [txt "action_type", txt "agent_id", txt "scope", txt "timestamp"]

/--
The members, when they are as they must be.
-/
def externalFields (obj : Json) : Except ApsError (List (Str × Json)) := do
  let wrong := fun (message : String) => ApsError.aps (txt message)
  let .obj ms := obj | throw (wrong "-03 §4.2: exactly action_type, agent_id, scope, timestamp")
  if !hasExactly externalMembers ms then
    throw (wrong "-03 §4.2: exactly action_type, agent_id, scope, timestamp")
  externalMembers.forM fun n =>
    match get ms n with
    | .str s => noLoneSurrogate s (txt "-03 §4.2 " ++ n)
    | _ => .error (.aps (txt "-03 §4.2: " ++ n ++ txt " must be a string"))
  if !onCalendar tsMillis? (get ms (txt "timestamp")) true then
    throw (wrong ("-03 §4.2: timestamp at exactly millisecond precision with 'Z' on a real " ++
      "calendar date (never coerced)"))
  return ms

/--
`external_action_ref`
-/
def externalActionRef (obj : Json) : Except ApsError Str := do
  return hexdigest sha256 (← jcsOf (.obj (← externalFields obj)))

end

end Aps
end CryptoValid
