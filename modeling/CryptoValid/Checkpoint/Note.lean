import CryptoValid.Lib.Base64
import CryptoValid.Lib.Cbor
import CryptoValid.Lib.Dict
import CryptoValid.Lib.Except
import CryptoValid.Lib.Json.Print
import CryptoValid.Lib.PythonJson
import CryptoValid.Lib.Separated

/-!
This module contains the signed notes of `cryptovalid_checkpoint.py`: verifier keys, the text of a
checkpoint, the lines of a note, and the check of a note against known keys. The signature schemes
are parameters.
-/

namespace CryptoValid
namespace Checkpoint

/--
The text of the error.
-/
abbrev NoteError := Str

def typeEd25519 : Nat := 0x01

def typeEcdsa : Nat := 0x02

def typeCosigV1 : Nat := 0x04

def typeMldsa44 : Nat := 0x06

def mldsa44Pub : Nat := 1312

def mldsa44Sig : Nat := 2420

def supportedTypes : List Nat := [typeEd25519, typeEcdsa, typeCosigV1, typeMldsa44]

def emDash : CodePoint := 0x2014

def maxSigs : Nat := 100

def maxNameBytes : Nat := 255

def maxSigBytes : Nat := 8192

def newline : CodePoint := 0x0a

def space : CodePoint := 0x20

def plus : CodePoint := 0x2b

/--
A signature scheme of the `cryptography` package. A check that fails raises there.
-/
structure Scheme where
  publicKey : (seed : Bytes) → Bytes
  sign : (seed msg : Bytes) → Bytes
  verify : (pub sig msg : Bytes) → Bool

/--
The package may be missing, and ML-DSA may be missing from it. An ECDSA key that cannot be loaded or
is not on one of the three curves verifies nothing.
-/
structure Crypto where
  ed25519 : Option Scheme
  ecdsa : (pub sig msg : Bytes) → Bool
  mldsa44 : Option Scheme

/--
`text.encode("utf-8")` of a text without surrogates.
-/
def utf8 (s : Str) : Bytes := s.flatMap Utf8.encodePoint

/--
`re.fullmatch(r"[^\s+\x00-\x1f]+", name)`.
-/
def nameOk (name : Str) : Bool :=
  !name.isEmpty && name.all fun c => !Python.isSpace c && c ≠ plus && 0x20 ≤ c.val

/--
`re.fullmatch(r"0|[1-9][0-9]{0,19}", text)`.
-/
def isSizeText (text : Str) : Bool :=
  match text with
  | [] => false
  | c :: rest =>
    if c = 0x30 then rest.isEmpty
    else Json.isDigit c && rest.all Json.isDigit && rest.length ≤ 19

/-!
### Keys
-/

structure VKey where
  name : Str
  kid : Bytes
  typ : Nat
  pub : Bytes
  deriving DecidableEq, Repr

def nameShape : Str := txt "key name must be non-empty, without spaces, '+' or control characters"

/--
The reason that a text with a surrogate has no UTF-8.
-/
def notEncodable : Str := txt "surrogates not allowed"

section

variable (sha256 : HashFn 32)

def keyId (name : Str) (sigType : Nat) (pub : Bytes) : Bytes :=
  (sha256 (utf8 name ++ 0x0a :: UInt8.ofNat sigType :: pub)).take 4

/--
`key_id` of any name. `UnicodeEncodeError` is a `ValueError`, as `NoteError` is.
-/
def keyIdOf (name : Str) (sigType : Nat) (pub : Bytes) : Except NoteError Bytes :=
  if Str.Scalar name then .ok (keyId sha256 name sigType pub) else .error notEncodable

/--
The text of a verifier key.
-/
def vkey (name : Str) (sigType : Nat) (pub : Bytes) : Except NoteError Str :=
  if !nameOk name then
    .error nameShape
  else if ¬Str.Scalar name then
    .error notEncodable
  else if maxNameBytes < (utf8 name).length then
    .error (txt "key name longer than 255 bytes (transparency-dev formats refuses such a vkey)")
  else if (sigType = typeEd25519 ∨ sigType = typeCosigV1) ∧ pub.length ≠ 32 then
    .error (txt "Ed25519 public key must be 32 bytes")
  else if sigType = typeMldsa44 ∧ pub.length ≠ mldsa44Pub then
    .error (txt "ML-DSA-44 public key must be 1312 bytes")
  else if ¬(sigType = typeEd25519 ∨ sigType = typeCosigV1 ∨ sigType = typeMldsa44) then
    .error (txt "this implementation emits Ed25519 (0x01), cosignature/v1 (0x04) and ML-DSA-44 " ++
      txt "(0x06) keys only")
  else
    .ok (name ++ plus :: (Hex.ofBytes (keyId sha256 name sigType pub) ++
      plus :: Base64.encode (UInt8.ofNat sigType :: pub)))

def vkeyShape : Str := txt "vkey must be <name>+<hex id>+<base64>"

def hexByte (n : Nat) : Str := [Hex.digit (n / 16), Hex.digit (n % 16)]

/--
A key of a type that cannot be verified is an error for `strict` only. The name is encoded to measure
it and for the key id, and not for keys of other types.
-/
def checkVkey (strict : Bool) (key : VKey) : Except NoteError VKey :=
  if (key.typ = typeCosigV1 ∨ key.typ = typeMldsa44) ∧ ¬Str.Scalar key.name then
    .error notEncodable
  else if (key.typ = typeCosigV1 ∨ key.typ = typeMldsa44) ∧
      maxNameBytes < (utf8 key.name).length then
    .error (txt "cosigner key name longer than 255 bytes (transparency-dev formats refuses it)")
  else if key.typ = typeEcdsa then
    if (sha256 key.pub).take 4 ≠ key.kid then
      .error (txt "ECDSA vkey key id does not match the DER key")
    else
      .ok key
  else if key.typ ∉ supportedTypes then
    if strict then .error (txt "unsupported vkey type 0x" ++ hexByte key.typ) else .ok key
  else
    let want := if key.typ = typeMldsa44 then mldsa44Pub else 32
    if key.pub.length ≠ want then
      .error (txt "vkey material for type 0x" ++ hexByte key.typ ++ txt " must be " ++
        Json.natText want ++ txt " bytes, got " ++ Json.natText key.pub.length)
    else do
      let kid ← keyIdOf sha256 key.name key.typ key.pub
      if kid ≠ key.kid then
        .error (txt "vkey key id does not match name/type/key")
      else
        return key

def parseVkey (strict : Bool) (s : Str) : Except NoteError VKey :=
  match Separated.cut? plus s with
  | none => .error vkeyShape
  | some (name, rest) =>
    match Separated.cut? plus rest with
    | none => .error vkeyShape
    | some (hexId, material) =>
      if !nameOk name then
        .error vkeyShape
      else if !(hexId.length = 8 && hexId.all fun c => (Hex.digit? c).isSome) then
        .error (txt "vkey id must be 8 hex digits")
      else
        match Base64.decode? material with
        | none => .error (txt "vkey encoding: not strict standard base64")
        | some (typ :: pub) =>
          if pub.isEmpty then
            .error (txt "vkey material must be at least 2 bytes")
          else
            checkVkey sha256 strict ⟨name, (Python.fromHex? hexId).getD [], typ.toNat, pub⟩
        | some [] => .error (txt "vkey material must be at least 2 bytes")

end

/-!
### Checkpoints
-/

/--
A parsed checkpoint.
-/
structure Parsed where
  origin : Str
  size : Nat
  root : Bytes
  extensions : List Str
  deriving DecidableEq

def isControl (c : CodePoint) : Bool := c.val < 0x20

def maxSize : Nat := 2 ^ 64 - 1

def checkpointText (origin : Str) (size : Nat) (root : Bytes) (extensions : List Str)
    : Except NoteError Str :=
  if origin.isEmpty || origin.any isControl then
    .error (txt "origin must be a non-empty line without control characters")
  else if maxSize < size then
    .error (txt "tree size must be an integer in [0, 2^64-1]")
  else if root.length ≠ 32 then
    .error (txt "root must be 32 bytes (SHA-256 RFC 6962 tree hash)")
  else if extensions.any fun e => e.isEmpty || e.any isControl then
    .error (txt "extension lines must be non-empty and without control characters")
  else
    .ok (Separated.terminated newline
      (origin :: Json.natText size :: Base64.encode root :: extensions))

def parseCheckpoint (text : Str) : Except NoteError Parsed :=
  if text.getLast? ≠ some newline then
    .error (txt "checkpoint text must end with a newline")
  else
    match Separated.split newline text.dropLast with
    | origin :: sizeText :: rootText :: extensions =>
      if (origin :: sizeText :: rootText :: extensions).any List.isEmpty then
        .error (txt "checkpoint needs at least three non-empty lines")
      else if text.dropLast.any fun c => c ≠ newline && isControl c then
        .error (txt "checkpoint contains control characters")
      else if !(isSizeText sizeText && Json.natOfText sizeText ≤ maxSize) then
        .error (txt "tree size must be ASCII decimal without leading zeroes, at most 2^64-1")
      else
        match Base64.decode? rootText with
        | none => .error (txt "root hash is not standard base64")
        | some root =>
          if root.length ≠ 32 ∨ Base64.encode root ≠ rootText then
            .error (txt "root hash must be the canonical base64 of 32 bytes")
          else
            .ok ⟨origin, Json.natOfText sizeText, root, extensions⟩
    | _ => .error (txt "checkpoint needs at least three non-empty lines")

/-!
### Notes
-/

def checkNoteBytes (b : Bytes) : Except NoteError Str :=
  match Utf8.decode? b with
  | none => .error (txt "note is not valid UTF-8")
  | some s =>
    if s.any fun c => isControl c && c ≠ newline then
      .error (txt "note contains ASCII control characters")
    else
      .ok s

/--
`— <name> <base64>`: the name of the key, and its id with the signature.
-/
def parseSigLine (line : Str) : Except NoteError (Str × Bytes) :=
  match Separated.split space line with
  | [dash, name, sig] =>
    if dash ≠ [emDash] || !nameOk name then
      .error (txt "malformed signature line")
    else if (maxSigBytes * 4 + 2) / 3 + 3 < sig.length then
      .error (txt "signature line longer than 8192 bytes")
    else
      match Base64.decode? sig with
      | none => .error (txt "signature is not standard base64")
      | some raw =>
        if raw.length < 5 then .error (txt "signature shorter than key id + 1 byte")
        else if maxSigBytes < raw.length then .error (txt "signature line longer than 8192 bytes")
        else .ok (name, raw)
  | _ => .error (txt "malformed signature line")

def parseSigLines (seen : Nat) : List Str → Except NoteError (List (Str × Bytes))
  | [] => .ok []
  | line :: lines =>
    if maxSigs ≤ seen then
      .error (txt "more than 100 signature lines")
    else do
      let sig ← parseSigLine line
      return sig :: (← parseSigLines (seen + 1) lines)

/--
The last empty line is between the text and the signature lines.
-/
def splitNote (b : Bytes) : Except NoteError (Str × List (Str × Bytes)) := do
  let s ← checkNoteBytes b
  if s.getLast? ≠ some newline then
    .error (txt "note must end with a newline")
  else
    match Separated.cutLastPair? newline s with
    | none => .error (txt "note has no blank line separating text and signatures")
    | some (before, block) => do
      let sigs ← parseSigLines 0 (Separated.split newline block.dropLast)
      return (before ++ [newline], sigs)

/--
`_sig_line`.
-/
def sigLine (name : Str) (kid sig : Bytes) : Except NoteError Str :=
  if !nameOk name then .error nameShape
  else if maxNameBytes < (utf8 name).length then .error (txt "key name longer than 255 bytes")
  else .ok (emDash :: space :: (name ++ space :: (Base64.encode (kid ++ sig) ++ [newline])))

def timestampOk (timestamp : Int) : Bool := 1 ≤ timestamp && timestamp ≤ 2 ^ 63 - 1

def noRoom (sigs : Nat) : Str :=
  txt "no room for a cosignature line: " ++ Json.natText sigs ++
    txt " signature lines, verifiers accept 100"

def badTimestamp : Str :=
  txt "timestamp must be a POSIX integer in [1, 2^63-1] (tlog-witness: MUST NOT be zero)"

def cosignMessage (timestamp : Nat) (text : Str) : Bytes :=
  utf8 (txt "cosignature/v1\ntime " ++ Json.natText timestamp ++ [newline]) ++ utf8 text

def mldsa44Message (cosigner : Str) (timestamp : Nat) (origin : Str) (start finish : Nat)
    (root : Bytes) : Except NoteError Bytes :=
  let cn := utf8 cosigner
  let og := utf8 origin
  if !(1 ≤ cn.length && cn.length ≤ 255 && 1 ≤ og.length && og.length ≤ 255) then
    .error (txt "cosigner name and origin must be 1..255 bytes")
  else if start ≠ 0 ∧ timestamp ≠ 0 then
    .error (txt "a subtree cosignature (start > 0) has timestamp 0")
  else if root.length ≠ 32 then
    .error (txt "root must be 32 bytes")
  else
    .ok (utf8 (txt "subtree/v1\n\x00") ++ UInt8.ofNat cn.length :: cn ++ Cbor.beBytes 8 timestamp ++
      UInt8.ofNat og.length :: og ++ Cbor.beBytes 8 start ++ Cbor.beBytes 8 finish ++ root)

section

variable (sha256 : HashFn 32) (crypto : Crypto)

def pubkeyFromSeed (seed : Bytes) : Except NoteError Bytes :=
  match crypto.ed25519 with
  | none => .error (txt "signing needs `cryptography`")
  | some ed => .ok (ed.publicKey seed)

def mldsa44PubkeyFromSeed (seed : Bytes) : Except NoteError Bytes :=
  match crypto.mldsa44 with
  | none =>
    .error (txt "ML-DSA-44 needs `cryptography` with the `mldsa` module (measured with 49.0.0)")
  | some mldsa => .ok (mldsa.publicKey seed)

/--
Log signature over the text of a note.
-/
def signNote (text : Str) (name : Str) (seed : Bytes) : Except NoteError Bytes :=
  if text.getLast? ≠ some newline then
    .error (txt "text must be non-empty and end with a newline")
  else do
    let _ ← checkNoteBytes (utf8 text)
    let pub ← pubkeyFromSeed crypto seed
    match crypto.ed25519 with
    | none => .error (txt "signing needs `cryptography`")
    | some ed => do
      let kid ← keyIdOf sha256 name typeEd25519 pub
      let line ← sigLine name kid (ed.sign seed (utf8 text))
      return utf8 (text ++ newline :: line)

/--
The note with an Ed25519 cosignature line at its end.
-/
def cosignV1 (note : Bytes) (name : Str) (seed : Bytes) (timestamp : Int)
    : Except NoteError Bytes := do
  let (text, sigs) ← splitNote note
  let _ ← parseCheckpoint text
  if maxSigs ≤ sigs.length then
    .error (noRoom sigs.length)
  else if !timestampOk timestamp then
    .error badTimestamp
  else
    match crypto.ed25519 with
    | none => .error (txt "signing needs `cryptography`")
    | some ed => do
      let sig := Cbor.beBytes 8 timestamp.toNat ++ ed.sign seed (cosignMessage timestamp.toNat text)
      let kid ← keyIdOf sha256 name typeCosigV1 (ed.publicKey seed)
      let line ← sigLine name kid sig
      return note ++ utf8 line

/--
The note with an ML-DSA-44 cosignature line at its end. The signed message has no extension lines.
-/
def cosignV1Mldsa44 (note : Bytes) (name : Str) (seed : Bytes) (timestamp : Int)
    : Except NoteError Bytes := do
  let (text, sigs) ← splitNote note
  let cp ← parseCheckpoint text
  if maxSigs ≤ sigs.length then
    .error (noRoom sigs.length)
  else if !timestampOk timestamp then
    .error badTimestamp
  else
    match crypto.mldsa44 with
    | none =>
      .error (txt "ML-DSA-44 needs `cryptography` with the `mldsa` module (measured with 49.0.0)")
    | some mldsa => do
      let msg ← mldsa44Message name timestamp.toNat cp.origin 0 cp.size cp.root
      let kid ← keyIdOf sha256 name typeMldsa44 (mldsa.publicKey seed)
      let line ← sigLine name kid (Cbor.beBytes 8 timestamp.toNat ++ mldsa.sign seed msg)
      return note ++ utf8 line

/-!
### Verification
-/

inductive Verdict where
  | ok
  | notValid
  | notVerified
  deriving DecidableEq

/--
A line that verified.
-/
structure Verified where
  name : Str
  typ : Nat
  timestamp : Option Nat
  deriving DecidableEq

structure NoteResult where
  verdict : Verdict
  text : Option Str
  verified : List Verified
  ignored : Nat
  ignoredVkeys : Nat
  reason : Option Str
  deriving DecidableEq

abbrev KnownKeys := Dict (Str × Bytes) (Nat × Bytes)

def knownKeys (vkeys : List Str) : Except NoteError (KnownKeys × Nat) :=
  go Dict.empty 0 vkeys
where
  go (known : KnownKeys) (ignored : Nat) : List Str → Except NoteError (KnownKeys × Nat)
    | [] => .ok (known, ignored)
    | v :: rest => do
      let key ← parseVkey sha256 false v
      if key.typ ∉ supportedTypes then
        go known (ignored + 1) rest
      else if (known.get? (key.name, key.kid)).getD (key.typ, key.pub) ≠ (key.typ, key.pub) then
        .error (txt "ambiguous key " ++ key.name ++ plus :: (Hex.ofBytes key.kid ++
          txt ": two different trusted keys"))
      else
        go (known.set (key.name, key.kid) (key.typ, key.pub)) ignored rest

/--
What the check of one signature line says.
-/
inductive Check where
  | good (timestamp : Option Nat)
  | bad
  | unverifiable
  deriving DecidableEq

/--
The signature of a known key, after the key id.
-/
def checkBody (ed : Scheme) (text name : Str) (typ : Nat) (pub body : Bytes) : Check :=
  if typ = typeEd25519 then
    if body.length = 64 && ed.verify pub body (utf8 text) then .good none else .bad
  else if typ = typeEcdsa then
    if crypto.ecdsa pub body (utf8 text) then .good none else .bad
  else if typ = typeMldsa44 then
    match crypto.mldsa44 with
    | none => .unverifiable
    | some mldsa =>
      let ts := Cbor.natOfBytes (body.take 8)
      if body.length ≠ 8 + mldsa44Sig || !timestampOk ts then
        .bad
      else
        match (do
          let cp ← parseCheckpoint text
          mldsa44Message name ts cp.origin 0 cp.size cp.root) with
        | .error _ => .bad
        | .ok msg => if mldsa.verify pub (body.drop 8) msg then .good (some ts) else .bad
  else
    let ts := Cbor.natOfBytes (body.take 8)
    if body.length ≠ 72 || text.count newline < 2 || !timestampOk ts then .bad
    else if ed.verify pub (body.drop 8) (cosignMessage ts text) then .good (some ts)
    else .bad

instance instLawfulBEqSig : LawfulBEq (Str × Bytes) := inferInstance

/--
What the loop over the signature lines has so far.
-/
structure Progress where
  seen : List (Str × Bytes)
  verified : List Verified
  ignored : Nat
  unverifiable : Nat

def Progress.start : Progress := ⟨[], [], 0, 0⟩

/--
The loop ends with the name of a known key that fails, and how many lines it has ignored.
-/
def verifySigs (ed : Scheme) (known : KnownKeys) (text : Str)
    : Progress → List (Str × Bytes) → Except (Str × Nat) Progress
  | p, [] => .ok p
  | p, (name, raw) :: sigs =>
    match known.get? (name, raw.take 4) with
    | none => verifySigs ed known text { p with ignored := p.ignored + 1 } sigs
    | some (typ, pub) =>
      if (name, raw) ∈ p.seen then
        verifySigs ed known text p sigs
      else
        let p := { p with seen := (name, raw) :: p.seen }
        match checkBody crypto ed text name typ pub (raw.drop 4) with
        | .bad => .error (name, p.ignored)
        | .unverifiable =>
          verifySigs ed known text { p with unverifiable := p.unverifiable + 1 } sigs
        | .good timestamp =>
          verifySigs ed known text { p with verified := p.verified ++ [⟨name, typ, timestamp⟩] } sigs

/--
What is reported about the lines once all of them are checked.
-/
def noteResult (text : Str) (ignoredVkeys : Nat) : Except (Str × Nat) Progress → NoteResult
  | .error (name, ignored) => {
      verdict := .notValid
      text := some text
      verified := []
      ignored
      ignoredVkeys
      reason := some (txt "signature from known key " ++ name ++ txt " does not verify") }
  | .ok p => {
      verdict :=
        if p.unverifiable ≠ 0 then .notVerified else if p.verified.isEmpty then .notValid else .ok
      text := some text
      verified := p.verified
      ignored := p.ignored
      ignoredVkeys
      reason :=
        if p.unverifiable ≠ 0 then
          some (txt "a trusted ML-DSA-44 line cannot be verified here (`cryptography` without `mldsa`)")
        else if p.verified.isEmpty then some (txt "no signature from a known key")
        else none }

def verifyNote (note : Bytes) (vkeys : List Str) : Except NoteError NoteResult := do
  let (known, ignoredVkeys) ← knownKeys sha256 vkeys
  match splitNote note with
  | .error e => return {
      verdict := .notValid
      text := none
      verified := []
      ignored := 0
      ignoredVkeys
      reason := some e }
  | .ok (text, sigs) =>
    match crypto.ed25519 with
    | none => return {
        verdict := .notVerified
        text := some text
        verified := []
        ignored := 0
        ignoredVkeys
        reason := some (txt "no Ed25519 implementation (`cryptography` missing)") }
    | some ed =>
      return noteResult text ignoredVkeys (verifySigs crypto ed known text .start sigs)

end

end Checkpoint
end CryptoValid
