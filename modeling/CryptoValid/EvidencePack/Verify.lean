import CryptoValid.Signer
import CryptoValid.Verifier.Ledger

/-!
This module contains `verify_pack` of `evidence_pack.py`: the manifest of a directory of ledgers, and
the ledgers that it names.
-/

namespace CryptoValid
namespace EvidencePack

/--
The exceptions that leave `verify_pack`.
-/
inductive Raised where
  | valueError
  | typeError
  | attributeError
  | osError
  | unicodeEncodeError
  | recursionError
  | checkNotRun
  | verifier (e : Verifier.Error)
  | signer (e : Signer.Raised)
  deriving DecidableEq

/--
What the code runs on: the interpreter, the `cryptography` package, how text files buffer, and what
`openssl` says of a token for a digest.
-/
structure Host where
  interp : Python.Interp
  crypto : Tip.Crypto
  early : Bytes → List Str
  rfc3161 : (token digest : Json) → Except Raised Entry

/--
The directory of a pack: its manifest, or the name of the exception that opening it raises, the
regular files that really lie inside of it, and the file `<name>.tip.json` beside one of them.
-/
structure PackDir where
  manifest : Except Str Bytes
  file : (name : Str) → Except Raised (Option Bytes)
  sidecar : (name : Str) → Option Tip.File

structure Row where
  file : Str
  hashPass : Bool
  sigPass : Bool
  untruncated : Bool
  pqProtected : Option Bool
  pqReason : Str
  deriving DecidableEq

structure Receipt where
  filesOk : Bool
  fileOk : List (Str × Bool)
  manifestOk : Bool
  manifestAuthenticated : Bool
  ledgersOk : Bool
  ledgers : List Row
  rfc3161 : Entry
  valid : Bool
  error : Option Str
  deriving DecidableEq

def Receipt.fail (error : Str) : Receipt := {
  filesOk := false, fileOk := [], manifestOk := false, manifestAuthenticated := false,
  ledgersOk := false, ledgers := [], rfc3161 := [], valid := false, error }

/-!
### Manifest
-/

def manifestKeys : List Str := [
  txt "pack_format", txt "subject", txt "created_utc", txt "ledgers", txt "file_digests_sha256",
  txt "signer_pubkeys", txt "honest_scope", txt "manifest_digest_sha256", txt "manifest_signer",
  txt "manifest_signature", txt "rfc3161_timestamp"]

def ledgerEntryKeys : List Str := [
  txt "file", txt "entries", txt "head_self_hash", txt "hash_verdict", txt "chain_integrity",
  txt "signatures_ok", txt "signers", txt "pq_protected", txt "pq_status", txt "pq_signers"]

def rfc3161Keys : List Str := [txt "anchored", txt "tsa", txt "tsr_b64", txt "note"]

/--
The members of the manifest that its digest does not cover.
-/
def undigestedKeys : List Str := [
  txt "manifest_digest_sha256", txt "rfc3161_timestamp", txt "manifest_signature",
  txt "manifest_signer"]

def unknownKeys (known : List Str) (ms : Entry) : List Str :=
  (ms.map Prod.fst).filter fun k => !known.contains k

/--
`for x in (v or [])`, as far as the elements are dicts.
-/
def dictsIn (v : Json) : Except Raised (List (Option Entry)) :=
  if !Python.truthy v then .ok []
  else
    match v with
    | .arr xs => .ok (xs.map fun x => match x with | .obj ms => some ms | _ => none)
    | .obj _ | .str _ => .ok []
    | _ => .error .typeError

def manifestUnknownFields (man : Entry) : Except Raised (List Str) := do
  let leds ← dictsIn (man.get (txt "ledgers"))
  let top := (unknownKeys manifestKeys man).map (txt "MANIFEST." ++ ·)
  let inLedgers := leds.zipIdx.flatMap fun (led, i) =>
    (unknownKeys ledgerEntryKeys (led.getD [])).map
      (txt "ledgers[" ++ Json.natText i ++ txt "]." ++ ·)
  let inStamp := match man.get (txt "rfc3161_timestamp") with
    | .obj ts => (unknownKeys rfc3161Keys ts).map (txt "rfc3161_timestamp." ++ ·)
    | _ => []
  return (top ++ inLedgers ++ inStamp).insertionSort (· ≤ ·)

/--
A name that stays inside the pack: not absolute, and without `..` as a component.
-/
def inside (name : Str) : Bool :=
  name ≠ [] && name.head? ≠ some 0x2f && !name.contains 0 &&
    !(name.splitOn 0x2f).contains (txt "..")

/--
`man.get(key, default)`.
-/
def getOr (man : Entry) (key : Str) (default : Json) : Json :=
  (Assoc.lookup key man).getD default

def digestsOf (man : Entry) : Option (List (Str × Str)) :=
  match getOr man (txt "file_digests_sha256") (.obj []) with
  | .obj digs => digs.mapM fun (k, v) =>
    match v with
    | .str dig => if inside k then some (k, dig) else none
    | _ => none
  | _ => none

/--
A record of a ledger and its file name.
-/
def ledgersOf (man : Entry) : Option (List (Str × Entry)) :=
  match getOr man (txt "ledgers") (.arr []) with
  | .arr leds => leds.mapM fun led =>
    match led with
    | .obj lm =>
      match Entry.get lm (txt "file") with
      | .str file => if inside file then some (file, lm) else none
      | _ => none
    | _ => none
  | _ => none

section

variable (host : Host)

/--
`json.dumps(obj, sort_keys=True, separators=(",", ":")).encode()`.
-/
def canon (ms : Entry) : Except Raised Bytes :=
  if host.interp.encoderLimit < (Json.obj ms).depth then .error .recursionError
  else .ok ((Json.canonical (.obj ms)).flatMap Utf8.encodePoint)

def sha256Hex (content : Bytes) : Str := Hex.ofBytes (sha256 content)

/--
The signature of the manifest over its digest; whatever is raised counts as no signature.
-/
def manifestAuthenticated (man : Entry) : Bool :=
  let verified : Option Bool := do
    let signer ← (Tip.str? (man.get (txt "manifest_signer"))).bind Python.fromHex?
    let signature ← (Tip.str? (man.get (txt "manifest_signature"))).bind Python.b64Lenient?
    let digest ← (Tip.str? (man.get (txt "manifest_digest_sha256"))).bind Utf8.encode?
    return (host.crypto.ed25519 signer signature digest).isOk
  Python.truthy (man.get (txt "manifest_signature")) &&
    Python.truthy (man.get (txt "manifest_signer")) && host.crypto.available &&
    verified.getD false

/-!
### Ledgers
-/

/--
The value of the first line, an empty dict if there is none.
-/
def firstEntry (content : Bytes) : Json :=
  match (Python.textLines host.early content).1 with
  | [] => .obj []
  | line :: _ =>
    match Python.loads host.interp line with
    | .ok v => v
    | .error _ => .obj []

/--
The number of entries and the last `self_hash`, up to the first line that is not an entry.
-/
def entriesAndHead (content : Bytes) : Nat × Json :=
  go 0 .null (Python.textLines host.early content).1
where
  go (n : Nat) (head : Json) : List Str → Nat × Json
    | [] => (n, head)
    | line :: lines =>
      if Python.isBlankLine line then
        go n head lines
      else
        match Python.loads host.interp line with
        | .ok (.obj e) => go (n + 1) (Entry.get e (txt "self_hash")) lines
        | _ => (n + 1, head)

/--
The arguments of `verify_pack`.
-/
structure Pins where
  pqPubkeyB64 : Option Str := none
  signerPubkeyHex : Option Str := none
  manifestSignerHex : Option Str := none

/--
The keys that the manifest records for a ledger, if there is one well formed key of each kind.
-/
def recordedKeys (lm : Entry) : Option (Str × Str) :=
  match lm.get (txt "pq_signers"), lm.get (txt "signers") with
  | .arr [.str pq], .arr [.str ed] =>
    if (Tip.b64Strict pq Signer.pqPkLen).isSome && Tip.isHex 64 ed then some (pq, ed) else none
  | _, _ => none

/--
The keys that a ledger is verified with: the post-quantum one, and the Ed25519 one.
-/
def expectedKeys (pins : Pins) (manifestPinned : Bool) (lm : Entry) : Option Str × Option Str :=
  match pins.pqPubkeyB64, recordedKeys lm with
  | none, some (pq, ed) =>
    if lm.get (txt "pq_protected") = .bool true && manifestPinned then (some pq, some ed)
    else (none, pins.signerPubkeyHex)
  | pq, _ => (pq, pins.signerPubkeyHex)

/--
What the signatures of a ledger come to: whether they pass, and the post-quantum layer.
-/
def signatures (pins : Pins) (manifestPinned : Bool) (lm : Entry) (content : Bytes)
    : Except Raised (Bool × Option Bool × Str) := do
  let (expectedPq, expectedEd) := expectedKeys pins manifestPinned lm
  let sv ← (Signer.verifyFile host.interp host.crypto host.early content expectedEd expectedPq
    false).mapError .signer
  if lm.get (txt "pq_protected") = .bool true ∧ sv.pqProtected ≠ some true then
    if expectedPq.isNone then
      if [txt "absent", txt "partial", txt "invalid"].contains sv.pqStatus.text then
        return (sv.ok, sv.pqProtected, txt "pq_" ++ sv.pqStatus.text)
      else
        return (sv.ok, none, txt "manifest_unpinned")
    else
      return (false, sv.pqProtected,
        if sv.pqStatus.text = txt "unverifiable" then txt "pq_unverifiable"
        else txt "pq_layer_lost")
  else
    return (sv.ok, sv.pqProtected, [])

/--
`_first_entry(p).get("signature")`.
-/
def firstSignature (content : Bytes) : Except Raised Json :=
  match firstEntry host content with
  | .obj e => .ok (Entry.get e (txt "signature"))
  | _ => .error .attributeError

def ledgerRow (dir : PackDir) (pins : Pins) (manifestPinned : Bool) (file : Str) (lm : Entry)
    : Except Raised Row := do
  match ← dir.file file with
  | none =>
    return { file, hashPass := false, sigPass := false, untruncated := false,
             pqProtected := some false, pqReason := txt "not_a_file_inside_the_pack" }
  | some content =>
    let outcome ← (Verifier.verifyLedger host.crypto (.content content)
      { sidecar := dir.sidecar file }).mapError .verifier
    let signature ← firstSignature host content
    let (sigPass, pqProtected, pqReason) ←
      if Python.truthy signature then signatures host pins manifestPinned lm content
      else .ok (true, some false, [])
    let (n, head) := entriesAndHead host content
    return {
      file, hashPass := outcome.verdict = .pass, sigPass
      untruncated := Python.eqInt (lm.get (txt "entries")) n &&
        Python.eqLoaded false head (lm.get (txt "head_self_hash"))
      pqProtected, pqReason }

def Row.ok (row : Row) : Bool := row.hashPass && row.sigPass && row.untruncated

/-!
### Verdict
-/

/--
What becomes of the timestamp in the manifest.
-/
def timestamp (man : Entry) : Except Raised Entry :=
  match getOr man (txt "rfc3161_timestamp") (.obj []) with
  | .obj ts =>
    let anchored := getOr ts (txt "anchored") (.bool false)
    let token := Entry.get ts (txt "tsr_b64")
    if Python.truthy anchored && Python.truthy token then
      (host.rfc3161 token (getOr man (txt "manifest_digest_sha256") (.str []))).map fun verified =>
        (txt "claimed", .bool true) :: verified
    else
      .ok [(txt "claimed", anchored), (txt "verified", .null)]
  | _ => .error .attributeError

/--
The receipt of a manifest whose shape is fine.
-/
def packReceipt (dir : PackDir) (pins : Pins) (man : Entry) (digs : List (Str × Str))
    (leds : List (Str × Entry)) : Except Raised Receipt := do
  let fileOk ← digs.mapM fun (name, dig) => do
    let content ← dir.file name
    return (name, content.any fun content => sha256Hex content = dig)
  let m2 := man.filter fun m => !undigestedKeys.contains m.1
  let manifestOk := man.get (txt "manifest_digest_sha256") = .str (sha256Hex (← canon host m2))
  let authenticated := manifestAuthenticated host man
  let manifestPinned := (Tip.given pins.manifestSignerHex).any fun signer =>
    authenticated && manifestOk && man.get (txt "manifest_signer") = .str signer
  let rows ← leds.mapM fun (file, lm) => ledgerRow host dir pins manifestPinned file lm
  let rfc3161 ← timestamp host man
  let filesOk := !fileOk.isEmpty && fileOk.all Prod.snd
  let ledgersOk := rows.all Row.ok
  let signatureBroken := Python.truthy (man.get (txt "manifest_signature")) && !authenticated
  return {
    filesOk, fileOk, manifestOk, manifestAuthenticated := authenticated, ledgersOk, ledgers := rows,
    rfc3161, valid := filesOk && manifestOk && ledgersOk && !signatureBroken, error := none }

def loadsErrorName : Python.LoadsError → Str
  | .jsonDecode => txt "JSONDecodeError"
  | .unicodeDecode => txt "UnicodeDecodeError"
  | .tooManyDigits => txt "ValueError"
  | .recursion => txt "RecursionError"

/--
The shape of the manifest, and then what it says.
-/
def verifyManifest (dir : PackDir) (pins : Pins) (man : Json) : Except Raised Receipt :=
  match man with
  | .obj man => do
    let unknown ← manifestUnknownFields man
    if !unknown.isEmpty then
      return .fail (txt "manifest_unknown_field: " ++ ((txt ", ").intercalate unknown).take 200)
    else
      match digestsOf man, ledgersOf man with
      | none, _ =>
        return .fail (txt "manifest_bad_file_digests: an object of file name (inside the pack) -> " ++
          txt "sha256 hex")
      | some _, none =>
        return .fail (txt "manifest_bad_ledgers: a list of objects with a file name inside the pack")
      | some digs, some leds => packReceipt host dir pins man digs leds
  | _ => .ok (.fail (txt "manifest_not_an_object"))

/--
The manifest as it is loaded, or why it is not.
-/
def loadManifest (dir : PackDir) : Except Str Json :=
  match dir.manifest with
  | .error name => .error (txt "manifest_unreadable: " ++ name)
  | .ok bytes =>
    if Verifier.maxInputBytes < bytes.length then
      .error (txt "input_too_large: MANIFEST exceeds the verifier's size bound")
    else
      match Python.readText? bytes with
      | none => .error (txt "manifest_unreadable: UnicodeDecodeError")
      | some raw =>
        let depth := Verifier.jsonNestingDepth raw
        if (maxJsonDepth : Int) < depth then
          .error (txt "json_too_deep: MANIFEST nesting " ++ Json.intText depth ++
            txt " exceeds the acceptance-profile bound " ++ Json.natText maxJsonDepth)
        else
          match Python.loads host.interp raw with
          | .error e => .error (txt "manifest_not_json: " ++ loadsErrorName e)
          | .ok man => .ok man

def verifyPack (dir : PackDir) (pins : Pins) : Except Raised Receipt :=
  if (Tip.given pins.pqPubkeyB64).isSome && (Tip.given pins.signerPubkeyHex).isNone then
    .error .valueError
  else
    match loadManifest host dir with
    | .error error => .ok (.fail error)
    | .ok man => verifyManifest host dir pins man

end

end EvidencePack
end CryptoValid
