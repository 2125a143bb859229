import CryptoValid.Ed25519Order
import CryptoValid.Lib.Base64
import CryptoValid.Verifier.Loads

/-!
This module contains the signed chain tip of `cryptovalid_tip.py`: its timestamps, its signature and
its comparison with a verified file.
-/

namespace CryptoValid
namespace Tip

def kind : Str := txt "cryptovalid_tip/1"

def pqPkLen : Nat := 1952

/--
Lower case hexadecimal digits, exactly `n` of them.
-/
def isHex (n : Nat) (s : Str) : Bool :=
  s.length = n && s.all fun c =>
    (0x30 ≤ c.val && c.val ≤ 0x39) || (0x61 ≤ c.val && c.val ≤ 0x66)

def fromHex : Str → Bytes
  | a :: b :: s =>
    UInt8.ofNat ((Hex.digit? a).getD 0 * 16 + (Hex.digit? b).getD 0) :: fromHex s
  | _ => []

def b64Strict (v : Str) (n : Nat) : Option Bytes :=
  if v.length ≠ (n + 2) / 3 * 4 then none
  else
    match Base64.decode? v with
    | some raw => if raw.length = n ∧ Base64.encode raw = v then some raw else none
    | none => none

def tipPayload (entries : Int) (ledgerId tipSha256 ts : Str) : Bytes :=
  (Json.canonical (.obj [
    (txt "entries", .int entries), (txt "kind", .str kind), (txt "ledger_id", .str ledgerId),
    (txt "tip_sha256", .str tipSha256), (txt "ts", .str ts)])).flatMap Utf8.encodePoint

/-!
### Timestamps
-/

/--
The number that exactly `n` digits stand for, and the text after them.
-/
def digits (n : Nat) (s : Str) : Option (Nat × Str) :=
  if (s.take n).length = n ∧ (s.take n).all Json.isDigit then
    some (Json.natOfText (s.take n), s.drop n)
  else
    none

def expect (c : Char) : Str → Option Str
  | d :: s => if d = .ofChar c then some s else none
  | [] => none

structure TsFields where
  y : Nat
  mo : Nat
  d : Nat
  h : Nat
  mi : Nat
  sec : Nat
  frac : Option Str
  off : Str

/--
`YYYY-MM-DDThh:mm:ss[.f{1,9}](Z|±hh:mm)`, the shape only.
-/
def tsFields (ts : Str) : Option TsFields := do
  let (y, s) ← digits 4 ts
  let (mo, s) ← digits 2 (← expect '-' s)
  let (d, s) ← digits 2 (← expect '-' s)
  let (h, s) ← digits 2 (← expect 'T' s)
  let (mi, s) ← digits 2 (← expect ':' s)
  let (sec, s) ← digits 2 (← expect ':' s)
  let (frac, off) ← fraction s
  if isOffset off then return { y, mo, d, h, mi, sec, frac, off } else none
where
  fraction (s : Str) : Option (Option Str × Str) :=
    match expect '.' s with
    | none => some (none, s)
    | some s =>
      let f := s.takeWhile Json.isDigit
      if f.isEmpty || 9 < f.length then none else some (some f, s.dropWhile Json.isDigit)
  isOffset (off : Str) : Bool :=
    match off with
    | [z] => z = .ofChar 'Z'
    | [sign, h1, h2, colon, m1, m2] =>
      (sign = .ofChar '+' || sign = .ofChar '-') && Json.isDigit h1 && Json.isDigit h2 &&
        colon = .ofChar ':' && Json.isDigit m1 && Json.isDigit m2
    | _ => false

def isLeap (y : Nat) : Bool := (y % 4 = 0 && y % 100 ≠ 0) || y % 400 = 0

def daysInMonth (y mo : Nat) : Nat :=
  if mo = 2 then (if isLeap y then 29 else 28)
  else if mo = 4 ∨ mo = 6 ∨ mo = 9 ∨ mo = 11 then 30
  else 31

/--
Seconds since 1970-01-01T00:00:00.
-/
def timegm (y mo d h mi sec : Nat) : Int :=
  let daysBeforeYear : Int := (y - 1) * 365 + (y - 1 : Nat) / 4 - (y - 1 : Nat) / 100 +
    (y - 1 : Nat) / 400
  let daysBeforeMonth : Nat := ((List.range (mo - 1)).map fun m => daysInMonth y (m + 1)).sum
  let days : Int := daysBeforeYear + daysBeforeMonth + d - 719163
  ((days * 24 + h) * 60 + mi) * 60 + sec

structure Instant where
  seconds : Int
  nanos : Nat
  deriving DecidableEq

def Instant.lt (a b : Instant) : Bool :=
  a.seconds < b.seconds || (a.seconds = b.seconds && a.nanos < b.nanos)

/--
The error is the text of the `ValueError`.
-/
def parseInstant (ts : Str) : Except Str Instant :=
  match tsFields ts with
  | none => .error (txt "timestamp outside the profile YYYY-MM-DDThh:mm:ss[.fraction](Z|±hh:mm)")
  | some m =>
    if !(1 ≤ m.y && m.y ≤ 9999 && 1 ≤ m.mo && m.mo ≤ 12 && m.h ≤ 23 && m.mi ≤ 59 && m.sec ≤ 59) then
      .error (txt "timestamp field out of range")
    else if !(1 ≤ m.d && m.d ≤ daysInMonth m.y m.mo) then
      .error (txt "timestamp day does not exist in that month")
    else
      let oh := Json.natOfText ((m.off.drop 1).take 2)
      let om := Json.natOfText ((m.off.drop 4).take 2)
      if m.off ≠ txt "Z" ∧ (23 < oh ∨ 59 < om) then
        .error (txt "timestamp offset out of range")
      else
        let offSec : Int :=
          if m.off = txt "Z" then 0
          else (oh * 3600 + om * 60 : Nat) * (if m.off.head? = some (.ofChar '-') then -1 else 1)
        let frac := m.frac.getD (txt "0")
        let nanos := Json.natOfText ((frac ++ List.replicate (9 - frac.length) 0x30).take 9)
        .ok ⟨timegm m.y m.mo m.d m.h m.mi m.sec - offSec, nanos⟩

/-!
### Signature
-/

/--
The `cryptography` package. A check that fails raises, and the name of the exception is reported;
ML-DSA may be missing from the package.
-/
structure Crypto where
  available : Bool
  ed25519 : (pk sig msg : Bytes) → Except Str Unit
  mldsa65 : Option ((pk sig msg : Bytes) → Except Str Unit)

inductive Error where
  | importError
  | unreadable
  | load (e : Verifier.LoadError)
  | notObject
  deriving DecidableEq

structure SigResult where
  ok : Bool
  why : Str
  trusted : Bool := false
  pqProtected : Option Bool := some false
  deriving DecidableEq

/--
An argument that is `None` or empty counts as not given.
-/
def given (arg : Option Str) : Option Str := arg.filter fun s => !s.isEmpty

section

variable (crypto : Crypto)

def str? : Json → Option Str
  | .str s => some s
  | _ => none

/--
The optional members of a hybrid tip: what is wrong with them, if anything.
-/
def pqFieldsProblem (tip : Entry) : Option Str :=
  if tip.has (txt "signature_pq_hex") || tip.has (txt "log_pq_pubkey_b64") then
    if !((str? (tip.get (txt "signature_pq_hex"))).any (isHex 6618)) then
      some (txt "signature_pq_hex must be 6618 lowercase hex characters (ML-DSA-65)")
    else if !((str? (tip.get (txt "log_pq_pubkey_b64"))).any fun k => (b64Strict k pqPkLen).isSome)
    then
      some (txt "log_pq_pubkey_b64 must be strict base64 of a 1952-byte ML-DSA-65 public key")
    else
      none
  else
    none

/--
The members that every tip has, with their types and formats.
-/
structure Fields where
  entries : Nat
  ledgerId : Str
  tipSha256 : Str
  ts : Str
  signatureHex : Str
  deriving DecidableEq

def entriesOf : Json → Option Nat
  | .int n => if n < 0 then none else some n.toNat
  | _ => none

def fieldsOf (tip : Entry) : Except Str Fields :=
  let required := [txt "entries", txt "ledger_id", txt "tip_sha256", txt "ts", txt "signature_hex"]
  if tip.get (txt "kind") ≠ .str kind then
    .error (txt "not a cryptovalid_tip/1 document")
  else
    match required.find? fun k => !tip.has k with
    | some k => .error (txt "tip missing field " ++ k)
    | none =>
      match entriesOf (tip.get (txt "entries")) with
      | none => .error (txt "tip entries must be a non-negative integer")
      | some entries =>
        match str? (tip.get (txt "ledger_id")), str? (tip.get (txt "tip_sha256")),
            str? (tip.get (txt "ts")), str? (tip.get (txt "signature_hex")) with
        | some ledgerId, some tipSha256, some ts, some signatureHex =>
          if !(isHex 64 ledgerId && isHex 64 tipSha256) then
            .error (txt "ledger_id / tip_sha256 must be 64 lowercase hex characters")
          else if !isHex 128 signatureHex then
            .error (txt "signature_hex must be 128 lowercase hex characters")
          else
            .ok { entries, ledgerId, tipSha256, ts, signatureHex }
        | _, _, _, _ => .error (txt "tip fields must be strings")

/--
The ML-DSA-65 layer over a good Ed25519 signature.
-/
def verifyPq (tip : Entry) (payload : Bytes) (trustedPqPubkeyB64 : Option Str) : SigResult :=
  let verified := txt "signature verified against the trusted log key"
  let failed (why : Str) (pqProtected : Option Bool) : SigResult :=
    { ok := false, why, trusted := true, pqProtected }
  match given trustedPqPubkeyB64 with
  | none =>
    let present := match tip.get (txt "signature_pq_hex") with
      | .str s => !s.isEmpty
      | _ => false
    { ok := true, why := verified, trusted := true,
      pqProtected := if present then none else some false }
  | some trusted =>
    match given (str? (tip.get (txt "signature_pq_hex"))) with
    | none =>
      failed (txt "pq_missing: a trusted ML-DSA-65 key was given but the tip " ++
        txt "carries no post-quantum signature") (some false)
    | some sigPq =>
      if !([.null, .str [], .str trusted].contains (tip.get (txt "log_pq_pubkey_b64"))) then
        failed (txt "tip post-quantum key differs from the trusted one") (some false)
      else
        match crypto.mldsa65 with
        | none =>
          failed (txt "pq_unverifiable: ML-DSA-65 needs cryptography >= 50 (a required " ++
            txt "post-quantum layer cannot be checked here)") none
        | some verify =>
          match b64Strict trusted pqPkLen with
          | none =>
            failed (txt "bad_trusted_pq_key: --trusted-pq-pubkey must be strict base64 of 1952 " ++
              txt "bytes") (some false)
          | some pk =>
            match verify pk (fromHex sigPq) payload with
            | .error name =>
              failed (txt "tip post-quantum signature invalid: " ++ name) (some false)
            | .ok () =>
              { ok := true, why := verified ++ txt " (+ ML-DSA-65)", trusted := true,
                pqProtected := some true }

/--
The signature against the trusted key; the key inside the tip is informative only.
-/
def verifyTipSignature (tip : Entry) (trustedPubkeyHex trustedPqPubkeyB64 : Option Str)
    : Except Error SigResult :=
  let failed (why : Str) : Except Error SigResult := .ok { ok := false, why }
  if !crypto.available then .error .importError
  else
    match fieldsOf tip with
    | .error why => failed why
    | .ok fields =>
      match pqFieldsProblem tip with
      | some why => failed why
      | none =>
        match parseInstant fields.ts with
        | .error e => failed (txt "ts outside the profile: " ++ e)
        | .ok _ =>
          match given trustedPubkeyHex with
          | none =>
            failed (txt "tip_untrusted: no trusted log key given (pass --trusted-pubkey); the key " ++
              txt "inside the tip cannot be trusted")
          | some trusted =>
            if !isHex 64 trusted then
              failed (txt "bad_trusted_key: --trusted-pubkey must be 64 lowercase hex characters")
            else if !([.null, .str [], .str trusted].contains (tip.get (txt "log_pubkey_hex"))) then
              failed (txt "tip log key differs from the trusted log key")
            else
              let payload := tipPayload fields.entries fields.ledgerId fields.tipSha256 fields.ts
              let pk := fromHex trusted
              let sig := fromHex fields.signatureHex
              match Ed25519Order.strictProblem pk sig with
              | some why => failed (txt "tip signature invalid: " ++ why)
              | none =>
                match crypto.ed25519 pk sig payload with
                | .error name => failed (txt "tip signature invalid: " ++ name)
                | .ok () => .ok (verifyPq crypto tip payload trustedPqPubkeyB64)

/-!
### Comparison with a file
-/

structure TipCheck where
  ok : Bool
  error : Option Str := none
  signature : Option Str := none
  trusted : Bool := false
  pqProtected : Option Bool := some false
  deriving DecidableEq

def tipEntries (tip : Entry) : Int :=
  match tip.get (txt "entries") with
  | .int n => n
  | _ => 0

/--
`tip["ts"] < not_before`, both of the timestamp profile.
-/
def datedBefore (tip : Entry) (nb : Instant) : Bool :=
  match (str? (tip.get (txt "ts"))).map parseInstant with
  | some (.ok ts) => ts.lt nb
  | _ => false

def TipCheck.failed (sig : SigResult) (error : Str) : TipCheck :=
  { ok := false, error, signature := sig.why }

/--
The last part of `check_tip`: the number of entries and the last digest.
-/
def compareTail (entriesCount : Nat) (lastSelfHash : Str) (tip : Entry) (sig : SigResult)
    : TipCheck :=
  let n := tipEntries tip
  if (entriesCount : Int) < n then
    .failed sig (txt "tail_truncated: file has " ++ Json.natText entriesCount ++
      txt " entries, the signed tip commits to " ++ Json.intText n)
  else if n < entriesCount then
    .failed sig (txt "unsealed_tail: file has " ++ Json.natText entriesCount ++
      txt " entries, the signed tip commits to " ++ Json.intText n ++
      txt " (appended after the last signed head: stale tip, or an append without the key)")
  else if tip.get (txt "tip_sha256") ≠ .str lastSelfHash then
    .failed sig (txt "tail_rewritten: same entry count but the last self_hash differs from the " ++
      txt "signed tip")
  else
    { ok := true, signature := sig.why, trusted := sig.trusted, pqProtected := sig.pqProtected }

def checkTip (entriesCount : Nat) (lastSelfHash : Str) (tip : Entry)
    (trustedPubkeyHex notBefore firstSelfHash expectLedgerId trustedPqPubkeyB64 : Option Str)
    : Except Error TipCheck := do
  let sig ← verifyTipSignature crypto tip trustedPubkeyHex trustedPqPubkeyB64
  if !sig.ok then
    let error := if (txt "tip_untrusted").isPrefixOf sig.why then sig.why
      else txt "tip_invalid: " ++ sig.why
    return { ok := false, error, pqProtected := sig.pqProtected }
  else if (given expectLedgerId).any fun id => tip.get (txt "ledger_id") ≠ .str id then
    return .failed sig (txt "ledger_id_mismatch: the tip belongs to a different ledger than the " ++
      txt "one you expect")
  else if firstSelfHash.any fun first =>
      0 < entriesCount && tip.get (txt "ledger_id") ≠ .str first then
    return .failed sig (txt "tip_of_another_ledger: the tip's ledger_id is not this file's first " ++
      txt "self_hash")
  else
    match (given notBefore).map fun nb => (nb, parseInstant nb) with
    | some (_, .error e) =>
      return .failed sig (txt "bad_not_before: --tip-not-before must be " ++
        txt "YYYY-MM-DDThh:mm:ss[.f](Z|±hh:mm) (" ++ e.take 60 ++ txt ")")
    | some (nb, .ok instant) =>
      if datedBefore tip instant then
        return .failed sig (txt "tip_rolled_back: the tip is dated " ++
          (str? (tip.get (txt "ts"))).getD [] ++ txt ", before the required " ++ nb ++
          txt " (an older genuine tip restored after a truncation looks exactly like this)")
      else
        return compareTail entriesCount lastSelfHash tip sig
    | none => return compareTail entriesCount lastSelfHash tip sig

end

/--
What an open file has to offer.
-/
inductive File where
  | missing
  | unreadable
  | content (bytes : Bytes)
  deriving DecidableEq

def loadTip (file : File) : Except Error Entry :=
  match file with
  | .missing | .unreadable => .error .unreadable
  | .content bytes =>
    match Utf8.decode? bytes with
    | none => .error .unreadable
    | some text =>
      match Verifier.loadsStrict (Python.strip (txt " \t\r\n") (Python.universalNewlines text)) with
      | .error e => .error (.load e)
      | .ok (.obj doc) => .ok doc
      | .ok _ => .error .notObject

theorem compareTail_ok {entriesCount : Nat} {lastSelfHash : Str} {tip : Entry} {sig : SigResult}
    (h : (compareTail entriesCount lastSelfHash tip sig).ok = true)
    : (entriesCount : Int) = tipEntries tip ∧ tip.get (txt "tip_sha256") = .str lastSelfHash := by
  simp only [compareTail] at h
  split at h
  . simp [TipCheck.failed] at h
  split at h
  . simp [TipCheck.failed] at h
  split at h
  . simp [TipCheck.failed] at h
  . next hlast => exact ⟨by omega, not_not.mp hlast⟩

/--
A tip that is accepted fixes the number of entries and the first and last digest.
-/
theorem checkTip_ok {crypto : Crypto} {entriesCount : Nat} {lastSelfHash first : Str} {tip : Entry}
    {trusted notBefore expectLedgerId trustedPq : Option Str} {check : TipCheck}
    (h : checkTip crypto entriesCount lastSelfHash tip trusted notBefore (some first)
      expectLedgerId trustedPq = .ok check)
    (hok : check.ok = true)
    : (entriesCount : Int) = tipEntries tip ∧ tip.get (txt "tip_sha256") = .str lastSelfHash ∧
        (0 < entriesCount → tip.get (txt "ledger_id") = .str first) := by
  rcases Except.bind_eq_ok.mp h with ⟨sig, _, h⟩
  have hfailed : ∀ error, Except.ok (TipCheck.failed sig error) = (.ok check : Except Error _) →
      False := by
    intro error heq
    rw [← Except.ok.inj heq] at hok
    simp [TipCheck.failed] at hok
  split at h
  . rw [← Except.pure_eq_ok.mp h] at hok
    simp at hok
  split at h
  . exact (hfailed _ h).elim
  split at h
  . exact (hfailed _ h).elim
  . next hfirst =>
    have hledger : 0 < entriesCount → tip.get (txt "ledger_id") = .str first := by
      intro hpos
      simpa [hpos] using hfirst
    split at h
    . exact (hfailed _ h).elim
    . split at h
      . exact (hfailed _ h).elim
      . rw [← Except.pure_eq_ok.mp h] at hok
        rcases compareTail_ok hok with ⟨hcount, hlast⟩
        exact ⟨hcount, hlast, hledger⟩
    . rw [← Except.pure_eq_ok.mp h] at hok
      rcases compareTail_ok hok with ⟨hcount, hlast⟩
      exact ⟨hcount, hlast, hledger⟩

end Tip
end CryptoValid
