import CryptoValid.Checkpoint.Note
import CryptoValid.Merkle.Proofs

/-!
This module contains the witness of `cryptovalid_witness.py`: what it remembers between requests, and
what one request does to it. The files are kept as what the witness reads back from them; the only
things that differ between two runs of a request are the clock and the writes that fail.
-/

namespace CryptoValid
namespace Witness

open Checkpoint

/-!
### Files
-/

/--
`tipo` of a record.
-/
inductive Kind where
  | splitView
  | splitViewUnkept
  | rollback
  | unprovenExtension
  deriving DecidableEq, Repr

/--
A record of the evidence file; `precedente_root_b64` is only in a record whose other note was not
kept.
-/
structure Evidence where
  kind : Kind
  isProof : Bool
  origin : Str
  sizePrecedente : Nat
  sizePresentato : Nat
  precedente : Option Str
  presentato : Str
  registrato : Int
  precedenteRootB64 : Option Str
  deriving DecidableEq

/--
The last checkpoint that was cosigned for an origin.
-/
structure Entry where
  size : Nat
  rootB64 : Str
  note : Str
  cosignedAt : Int
  deriving DecidableEq

/--
A line of the cosigned history.
-/
structure Cosigned extends Entry where
  origin : Str
  deriving DecidableEq

structure Refusal where
  kind : Kind
  size : Nat
  rootB64 : Str
  quando : Int
  deriving DecidableEq

structure Ring where
  count : Nat
  last : List Refusal
  deriving DecidableEq

def Ring.empty : Ring := ⟨0, []⟩

/--
The notes that wait for a partner, by size and root. Of a large note there is only the root.
-/
abbrev Pending := Dict Nat (Dict Str (Option Str))

/--
The state file. A key that it does not have yet counts as empty.
-/
structure State where
  origins : Dict Str Entry
  pending : Dict Str Pending
  refusals : Dict Str Ring
  proofsSeen : List Str
  deriving DecidableEq

def State.empty : State := ⟨Dict.empty, Dict.empty, Dict.empty, []⟩

/--
`st.get("pending", {}).get(origin, {})`.
-/
def State.pendingOf (st : State) (origin : Str) : Pending := (st.pending.get? origin).getD Dict.empty

def State.ringOf (st : State) (origin : Str) : Ring := (st.refusals.get? origin).getD .empty

structure Files where
  state : Option State
  evidence : List Evidence
  cosigned : List Cosigned
  deriving DecidableEq

def Files.empty : Files := ⟨none, [], []⟩

/--
`_load_state`.
-/
def Files.load (files : Files) : State := files.state.getD .empty

def ring : Nat := 100

def pendingBytes : Nat := 256 * 1024

def pendingNote : Nat := 16 * 1024

def historyScan : Nat := 4 * 1024 * 1024

def proofsSeenMax : Nat := 10000

def maxProof : Nat := 63

def logKeyTypes : List Nat := [typeEd25519, typeEcdsa]

/--
`seq[-count:]`.
-/
def takeLast (count : Nat) (xs : List α) : List α := xs.drop (xs.length - count)

/--
The bytes of a line of the history: `json.dumps(..., ensure_ascii=False)` and a newline.
-/
def Cosigned.line (r : Cosigned) : Bytes :=
  utf8 (Json.dumpsIn .spaced false 0 (.obj [
    (txt "origin", .str r.origin),
    (txt "size", .int r.size),
    (txt "root_b64", .str r.rootB64),
    (txt "note", .str r.note),
    (txt "cosigned_at", .int r.cosignedAt)]) ++ [newline])

/--
The lines that lie within the last 4 MiB of the history; a line that is cut does not count.
-/
def recent : List Cosigned → List Cosigned
  | [] => []
  | r :: rest =>
    if ((r :: rest).map fun c => c.line.length).sum ≤ historyScan then r :: rest else recent rest

/-!
### Requests
-/

/--
The witness's own keys. With a name that has no encoding every request raises.
-/
structure Keys where
  name : Str
  seed : Bytes
  pqSeed : Option Bytes
  name_scalar : Str.Scalar name

structure Request where
  note : Bytes
  logVkeys : List Str
  proof : List Str
  timestamp : Option Int
  oldSize : Option Int
  expectedOrigin : Option Str

/--
The two readings of the clock, and which reads and writes of a request fail.
-/
structure Host where
  recordedAt : Int
  cosignedAt : Int
  readFails : Bool
  recordFails : Bool
  historyFails : Bool
  saveFails : Bool

/--
No read or write fails.
-/
def Host.good (recordedAt cosignedAt : Int) : Host :=
  ⟨recordedAt, cosignedAt, false, false, false, false⟩

inductive Raised where
  | note (message : NoteError)
  | notWritten
  | unreadable
  deriving DecidableEq

inductive Outcome where
  | cosigned
  | refused
  deriving DecidableEq

structure Out where
  outcome : Outcome
  reason : Option Str
  note : Option Bytes
  cosignature : Option Bytes
  evidence : Option Evidence
  origin : Option Str
  size : Option Nat
  httpStatus : Nat
  storedSize : Option Nat
  deriving DecidableEq

def Out.start : Out := ⟨.refused, none, none, none, none, none, none, 400, none⟩

def Out.refuse (out : Out) (status : Nat) (reason : Str) : Out :=
  { out with reason := some reason, httpStatus := status }

/--
A checkpoint with a log signature, as the request presents it.
-/
structure Presented where
  out : Out
  text : Str
  cp : Parsed
  trustedLines : List Str
  kept : List Str

section

variable (sha256 : HashFn 32) (crypto : Crypto)

def checkLogKeys : List Str → Except NoteError (List VKey)
  | [] => .ok []
  | k :: ks => do
    let key ← parseVkey sha256 true k
    if key.typ ∉ logKeyTypes then
      .error (txt "a log key must be an Ed25519 (0x01) or ECDSA (0x02) note key, not a cosigner key")
    else
      return key :: (← checkLogKeys ks)

/--
The lines of a note after its text.
-/
def noteLines (note : Bytes) (text : Str) : List Str :=
  (Separated.split newline (((Utf8.decode? note).getD []).drop (text.length + 1))).dropLast

def ownKids (keys : Keys) : Except NoteError (List Bytes) := do
  let kid := keyId sha256 keys.name typeCosigV1 (← pubkeyFromSeed crypto keys.seed)
  match keys.pqSeed with
  | none => return [kid]
  | some seed =>
    return [kid, keyId sha256 keys.name typeMldsa44 (← mldsa44PubkeyFromSeed crypto seed)]

/--
`dict.fromkeys`: the first occurrence of each line.
-/
def firstOccurrences (lines : List Str) : List Str := lines.reverse.dedup.reverse

/--
The lines of trusted log keys, each of them once.
-/
def trustedLines (logKeys : List VKey) (lines : List (Str × Str × Bytes)) : List Str :=
  firstOccurrences ((lines.filter fun l =>
    (l.2.1, l.2.2.take 4) ∈ logKeys.map fun key => (key.name, key.kid)).map Prod.fst)

/--
The lines that are not the witness's own.
-/
def keptLines (keys : Keys) (own : List Bytes) (lines : List (Str × Str × Bytes)) : List Str :=
  (lines.filter fun l => !(l.2.1 = keys.name && l.2.2.take 4 ∈ own)).map Prod.fst

def Keys.count (keys : Keys) : Nat := if keys.pqSeed.isSome then 2 else 1

def verdictText : Verdict → Str
  | .ok => txt "OK"
  | .notValid => txt "NON_VALIDA"
  | .notVerified => txt "NON_VERIFICATA"

/--
A log signature from a trusted log key is among the lines that verified.
-/
def hasLogSignature (names : List Str) (verified : List Verified) : Bool :=
  verified.any fun s => s.name ∈ names && s.typ ∈ logKeyTypes

/--
The checks of `witness_cosign` before it takes the lock: a refusal, or what to look at under the lock.
-/
def present (keys : Keys) (r : Request) : Except NoteError (Out ⊕ Presented) :=
  match splitNote r.note with
  | .error e => .ok (.inl (Out.start.refuse 400 (txt "malformed note: " ++ e)))
  | .ok (_, sigs) =>
    if r.logVkeys.isEmpty then
      .error (txt "at least one trusted log vkey is required")
    else do
      let logKeys ← checkLogKeys sha256 r.logVkeys
      let v ← verifyNote sha256 crypto r.note r.logVkeys
      let names := (logKeys.map VKey.name).dedup
      match v.text with
      | none => return .inl (Out.start.refuse 403 (txt "log signature: NON_VALIDA"))
      | some text =>
        if v.verdict ≠ .ok then
          return .inl (Out.start.refuse (if v.verdict = .notValid then 403 else 500)
            (txt "log signature: " ++ verdictText v.verdict ++ txt " (" ++
              v.reason.getD (txt "None") ++ txt ")"))
        else if !hasLogSignature names v.verified then
          return .inl (Out.start.refuse 403
            (txt "no log signature (type 0x01/0x02) from a trusted log key"))
        else if r.expectedOrigin.isNone ∧ names.length ≠ 1 then
          .error (txt "trusted keys with different names for one origin need an explicit " ++
            txt "expected_origin")
        else
          match parseCheckpoint text with
          | .error e => return .inl (Out.start.refuse 400 (txt "checkpoint text: " ++ e))
          | .ok cp =>
            let out := { Out.start with origin := some cp.origin, size := some cp.size }
            if cp.origin ≠ r.expectedOrigin.getD (names.headD []) then
              return .inl (out.refuse 400
                (txt "checkpoint origin is not the origin trusted for this log key"))
            else if maxProof < r.proof.length then
              return .inl (out.refuse 400 (txt "more than 63 consistency proof lines"))
            else do
              let own ← ownKids sha256 crypto keys
              let lines := (noteLines r.note text).zip sigs
              let kept := keptLines keys own lines
              if keys.pqSeed.isSome ∧ 255 < (utf8 cp.origin).length then
                return .inl (out.refuse 400 (txt "an ML-DSA-44 cosignature cannot cover an origin " ++
                  txt "longer than 255 bytes (tlog-cosignature)"))
              else if maxSigs < kept.length + keys.count then
                return .inl (out.refuse 400 (noRoom kept.length))
              else
                return .inr { out, text, cp, trustedLines := trustedLines logKeys lines, kept }

/-!
### Under the lock
-/

/--
What does not change while a request is looked at.
-/
structure Ctx where
  cp : Parsed
  presentato : Str
  registrato : Int
  prev : Option Entry
  cosigned : List Cosigned

def Ctx.rootB64 (c : Ctx) : Str := Base64.encode c.cp.root

def Ctx.storedSize (c : Ctx) : Nat := (c.prev.map Entry.size).getD 0

/--
The state in memory, whether it has to be saved, and what goes to the evidence file.
-/
structure Draft where
  st : State
  dirty : Bool
  records : List Evidence
  evidence : Option Evidence

/--
`_ev`.
-/
def Ctx.ev (c : Ctx) (kind : Kind) (isProof : Bool) (precedente : Option Str) (size : Nat) : Evidence :=
  { kind
    isProof
    origin := c.cp.origin
    sizePrecedente := size
    sizePresentato := c.cp.size
    precedente
    presentato := c.presentato
    registrato := c.registrato
    precedenteRootB64 := none }

/--
The record of two roots at one size; it is half a record if the other note was not kept.
-/
def Ctx.pair (c : Ctx) (otherNote : Option Str) (otherRoot : Str) : Evidence :=
  match otherNote with
  | some note => c.ev .splitView true (some note) c.cp.size
  | none =>
    { c.ev .splitViewUnkept false none c.cp.size with precedenteRootB64 := some otherRoot }

/--
What is hashed for the key of a pair.
-/
def pairText (origin : Str) (size : Nat) (root root' : Str) : Str :=
  let (lo, hi) := if root' < root then (root', root) else (root, root')
  origin ++ 0x00 :: (Json.natText size ++ 0x00 :: (lo ++ 0x00 :: hi))

def pairKey (origin : Str) (size : Nat) (root root' : Str) (full : Bool) : Str :=
  Hex.ofBytes (sha256 (utf8 (pairText origin size root root'))) ++
    (if full then txt "|full" else txt "|half")

/--
`_proof`: a pair is recorded once.
-/
def proof (c : Ctx) (d : Draft) (otherNote : Option Str) (otherRoot : Str) : Draft :=
  let key := pairKey sha256 c.cp.origin c.cp.size otherRoot c.rootB64 otherNote.isSome
  if key ∈ d.st.proofsSeen then
    d
  else
    { d with
      st := { d.st with proofsSeen := takeLast proofsSeenMax (d.st.proofsSeen ++ [key]) }
      dirty := true
      records := d.records ++ [c.pair otherNote otherRoot] }

/--
`_cosigned_at`: the first note of each root.
-/
def cosignedAt (c : Ctx) : Dict Str Str :=
  ((recent c.cosigned).filter fun r =>
      r.origin = c.cp.origin && r.size = c.cp.size && !r.note.isEmpty).foldl
    (fun found r => if found.contains r.rootB64 then found else found.set r.rootB64 r.note) Dict.empty

/--
The roots known at the size of a rollback.
-/
def rootsAt (c : Ctx) (st : State) : Dict Str (Option Str) :=
  let refused := ((st.ringOf c.cp.origin).last.filter fun e =>
    e.size = c.cp.size && e.rootB64 ≠ c.rootB64).foldl
    (fun found e => found.set e.rootB64 none) Dict.empty
  let pending := ((st.pendingOf c.cp.origin).get? c.cp.size).getD Dict.empty
  let found := pending.items.foldl (fun found p => found.set p.1 p.2) refused
  (cosignedAt c).items.foldl (fun found p => found.set p.1 (some p.2)) found

/--
Those with a note come first.
-/
def candidates (c : Ctx) (st : State) : List (Str × Option Str) :=
  (rootsAt c st).items.filter (fun p => p.2.isSome) ++
    (rootsAt c st).items.filter (fun p => p.2.isNone)

/--
The refusal goes to the ring of its origin, unless it is there.
-/
def remember (c : Ctx) (kind : Kind) (d : Draft) : Draft :=
  let r := d.st.ringOf c.cp.origin
  if r.last.any fun e => e.kind = kind && e.size = c.cp.size && e.rootB64 = c.rootB64 then
    d
  else
    let last := takeLast ring (r.last ++ [⟨kind, c.cp.size, c.rootB64, c.registrato⟩])
    { d with
      st := { d.st with refusals := d.st.refusals.set c.cp.origin ⟨r.count + 1, last⟩ }
      dirty := true }

/--
`_refused`; `prev` is the stored checkpoint.
-/
def refused (c : Ctx) (prev : Entry) (kind : Kind) (d : Draft) : Draft :=
  let ev := d.evidence.getD (c.ev kind false (some prev.note) prev.size)
  let d := remember c kind d
  if c.cp.size < c.storedSize then
    match (candidates c d.st).find? fun p => p.1 ≠ c.rootB64 with
    | some (otherRoot, otherNote) =>
      { proof sha256 c d otherNote otherRoot with evidence := some (c.pair otherNote otherRoot) }
    | none => { d with evidence := some ev }
  else
    { d with evidence := some ev }

/--
The number of pending roots, and the bytes of their notes.
-/
def Pending.count (p : Pending) : Nat := (p.items.map fun s => s.2.items.length).sum

def Pending.bytes (p : Pending) : Nat :=
  (p.items.map fun s => (s.2.items.map fun n => (utf8 (n.2.getD [])).length).sum).sum

/--
The smallest size loses its first root.
-/
def Pending.evictOne (p : Pending) : Pending :=
  match (p.items.map Prod.fst).min? with
  | none => p
  | some oldest =>
    let left : Dict Str (Option Str) :=
      match ((p.get? oldest).getD Dict.empty).items.head? with
      | none => Dict.empty
      | some first => ((p.get? oldest).getD Dict.empty).erase first.1
    if left.items.isEmpty then p.erase oldest else p.set oldest left

/--
Each pass takes one root out, so that their number is enough `fuel`.
-/
def Pending.evict (p : Pending) : (fuel : Nat) → Pending × Bool
  | 0 => (p, false)
  | fuel + 1 =>
    if !p.items.isEmpty && (ring < p.count || pendingBytes < p.bytes) then
      ((p.evictOne.evict fuel).1, true)
    else
      (p, false)

/--
Another root at the size, one with a note if there is one.
-/
def partner (root : Str) (pend : Dict Str (Option Str)) : Option (Str × Option Str) :=
  (pend.items.find? fun p => p.1 ≠ root && p.2.isSome).or (pend.items.find? fun p => p.1 ≠ root)

/--
What is kept of the note of the request: nothing but the root if it is large.
-/
def Ctx.small (c : Ctx) : Option Str :=
  if (utf8 c.presentato).length ≤ pendingNote then some c.presentato else none

/--
The root is not pending yet, or there is a note for it now.
-/
def Ctx.isNew (c : Ctx) (pend : Dict Str (Option Str)) : Bool :=
  match pend.get? c.rootB64 with
  | none => true
  | some kept => kept.isNone && c.small.isSome

/--
A pair with a root that is pending.
-/
def pairPending (c : Ctx) (d : Draft) (pend : Dict Str (Option Str)) : Draft :=
  match partner c.rootB64 pend with
  | some (otherRoot, otherNote) =>
    { proof sha256 c d otherNote otherRoot with evidence := some (c.pair otherNote otherRoot) }
  | none => d

/--
The pending notes with that of the request, and whether something was dropped.
-/
def keepPending (c : Ctx) (pendO : Pending) (pend : Dict Str (Option Str)) : Pending × Bool :=
  let pendO : Pending := pendO.set c.cp.size
    (if c.isNew pend then pend.set c.rootB64 c.small else pend)
  pendO.evict pendO.count

/--
`_note_future`.
-/
def noteFuture (c : Ctx) (d : Draft) : Draft :=
  let pendO := d.st.pendingOf c.cp.origin
  let pend := (pendO.get? c.cp.size).getD Dict.empty
  let d := pairPending sha256 c d pend
  let (pendO, evicted) := keepPending c pendO pend
  { d with
    st := { d.st with pending := d.st.pending.set c.cp.origin pendO }
    dirty := d.dirty || c.isNew pend || evicted }

def emptyRoot : Bytes := sha256 []

/--
What is looked at before the old size is.
-/
def look (c : Ctx) (d : Draft) : Draft :=
  if c.cp.size = 0 ∧ c.cp.root ≠ emptyRoot sha256 then
    d
  else
    match c.prev with
    | some prev =>
      if c.cp.size < prev.size then
        refused sha256 c prev .rollback d
      else if c.cp.size = prev.size ∧ c.rootB64 ≠ prev.rootB64 then
        { proof sha256 c d (some prev.note) prev.rootB64 with
          evidence := some (c.ev .splitView true (some prev.note) prev.size) }
      else if c.storedSize < c.cp.size then
        noteFuture sha256 c d
      else
        d
    | none => if c.storedSize < c.cp.size then noteFuture sha256 c d else d

/--
`verify_consistency_b64`.
-/
def verifyConsistencyB64 (oldSize : Nat) (oldRoot : Bytes) (newSize : Nat) (newRoot : Bytes)
    (proofB64 : List Str) : Bool :=
  match proofB64.mapM Base64.decode? with
  | none => false
  | some proof =>
    if proof.any fun h => h.length ≠ 32 then false
    else if oldSize = newSize then oldRoot == newRoot && proof == []
    else if !(0 < oldSize && oldSize < newSize) then false
    else Merkle.verifyConsistency sha256 oldSize newSize proof oldRoot newRoot

/--
The refusals after the look: the status, the reason, and the draft that is saved.
-/
def gate (c : Ctx) (r : Request) (d : Draft) : Option (Draft × Nat × Str) :=
  let old := r.oldSize.getD c.storedSize
  if old < 0 ∨ r.oldSize.isSome ∧ (c.cp.size : Int) < old then
    some (d, 400, txt "old size " ++ Json.intText old ++ txt " is not a valid size at most " ++
      Json.natText c.cp.size)
  else if old ≠ c.storedSize then
    some (d, 409, txt "old size " ++ Json.intText old ++ txt " != last cosigned " ++
      Json.natText c.storedSize)
  else if c.cp.size = 0 ∧ c.cp.root ≠ emptyRoot sha256 then
    some (d, 422, txt "a size-0 checkpoint must carry the empty-tree root")
  else
    match c.prev with
    | some prev =>
      let prevRoot := (Base64.decode? prev.rootB64).getD []
      if c.cp.size < prev.size then
        some (d, 400, txt "rollback: size " ++ Json.natText c.cp.size ++ txt " < last cosigned " ++
          Json.natText prev.size)
      else if c.cp.size = prev.size ∧ c.cp.root ≠ prevRoot then
        some (d, 422, txt "equivocation: same size, different root")
      else if prev.size = 0 ∨ c.cp.size = prev.size then
        if !r.proof.isEmpty then
          some (d, 422, txt "a proof was sent where none is possible (old size 0 or same size)")
        else
          none
      else if !verifyConsistencyB64 sha256 prev.size prevRoot c.cp.size c.cp.root r.proof then
        some (refused sha256 c prev .unprovenExtension d, 422,
          txt "no valid consistency proof from the last cosigned checkpoint")
      else
        none
    | none =>
      if !r.proof.isEmpty then
        some (d, 422, txt "a proof was sent for a first checkpoint (old size 0)")
      else
        none

/--
The pending roots at the size that is about to be cosigned: one of them is contradicted, if none was
in this request, and all of them go.
-/
def settle (c : Ctx) (d : Draft) : Draft :=
  match d.st.pending.get? c.cp.origin with
  | none => d
  | some pendO =>
    let pend := (pendO.get? c.cp.size).getD Dict.empty
    let d :=
      if d.evidence.isNone then
        match pend.items.find? fun p => p.1 ≠ c.rootB64 with
        | some (otherRoot, otherNote) => proof sha256 c d otherNote otherRoot
        | none => d
      else
        d
    { d with
      st := { d.st with pending := d.st.pending.set c.cp.origin (pendO.erase c.cp.size) } }

/--
The note with the witness's own lines replaced, and what of it is new.
-/
def cosignNote (keys : Keys) (p : Presented) (timestamp : Int) : Except NoteError (Bytes × Bytes) := do
  let base := utf8 (p.text ++ newline :: Separated.terminated newline p.kept)
  let cosigned ← cosignV1 sha256 crypto base keys.name keys.seed timestamp
  let cosigned ← match keys.pqSeed with
    | none => .ok cosigned
    | some seed => cosignV1Mldsa44 sha256 crypto cosigned keys.name seed timestamp
  return (cosigned, cosigned.drop base.length)

/--
What a request writes, in this order: to the evidence file, to the history, to the state file.
-/
structure Plan where
  records : List Evidence
  history : Option Cosigned
  save : Option State
  result : Except Raised Out

def Plan.raise (message : NoteError) : Plan := ⟨[], none, none, .error (.note message)⟩

/--
A refusal saves the state if there is something new in it.
-/
def Plan.refuse (out : Out) (d : Draft) (status : Nat) (reason : Str) : Plan where
  records := d.records
  history := none
  save := if d.dirty then some d.st else none
  result := .ok { out.refuse status reason with evidence := d.evidence }

/--
A new checkpoint goes to the history before the state is saved. A note that cannot be signed raises
after the evidence is written.
-/
def Plan.sign (keys : Keys) (p : Presented) (c : Ctx) (out : Out) (d : Draft) (timestamp : Int)
    : Plan :=
  match cosignNote sha256 crypto keys p timestamp with
  | .error e => ⟨d.records, none, none, .error (.note e)⟩
  | .ok (cosigned, added) =>
    let note := c.presentato ++ (Utf8.decode? added).getD []
    let entry : Entry := ⟨c.cp.size, c.rootB64, note, timestamp⟩
    let isNew := !(c.prev.any fun prev => prev.rootB64 = c.rootB64 && prev.size = c.cp.size)
    { records := d.records
      history := if isNew then some { entry with origin := c.cp.origin } else none
      save := some { d.st with origins := d.st.origins.set c.cp.origin entry }
      result := .ok { out with
        outcome := .cosigned
        note := some cosigned
        cosignature := some added
        evidence := d.evidence
        httpStatus := 200 } }

def Presented.ctx (p : Presented) (host : Host) (files : Files) (r : Request) : Ctx where
  cp := p.cp
  presentato := p.text ++ newline :: Separated.terminated newline p.trustedLines
  registrato := r.timestamp.getD host.recordedAt
  prev := files.load.origins.get? p.cp.origin
  cosigned := files.cosigned

def Draft.start (st : State) : Draft := ⟨st, false, [], none⟩

/--
`_cosign_locked`, up to what it writes. A timestamp that is given and is not positive has raised
before the note is signed.
-/
def cosignLocked (keys : Keys) (host : Host) (files : Files) (p : Presented) (r : Request) : Plan :=
  let c := p.ctx host files r
  if r.timestamp.any fun t => c.prev.any fun e => t < e.cosignedAt then
    .raise (txt "the cosignature timestamp is older than the last one stored for this origin")
  else if r.timestamp.any fun t => !timestampOk t then
    .raise (txt "the timestamp must be a POSIX integer in [1, 2^63-1] (the spec: MUST NOT be zero)")
  else
    let out := { p.out with storedSize := some c.storedSize }
    let d := look sha256 c (.start files.load)
    match gate sha256 c r d with
    | some (d, status, reason) => .refuse out d status reason
    | none =>
      Plan.sign sha256 crypto keys p c out (settle sha256 c d) (r.timestamp.getD host.cosignedAt)

/--
A write that fails leaves its file as it was and ends the request.
-/
def commit (host : Host) (files : Files) (plan : Plan) : Files × Except Raised Out :=
  if !plan.records.isEmpty && host.recordFails then
    (files, .error .notWritten)
  else
    let files := { files with evidence := files.evidence ++ plan.records }
    match plan.result with
    | .error e => (files, .error e)
    | .ok out =>
      if plan.history.isSome && host.historyFails then
        (files, .error .notWritten)
      else
        let files := { files with cosigned := files.cosigned ++ plan.history.toList }
        match plan.save with
        | none => (files, .ok out)
        | some st =>
          if host.saveFails then
            (files, .error .notWritten)
          else
            ({ files with state := some st }, .ok out)

def witnessCosign (keys : Keys) (host : Host) (files : Files) (r : Request)
    : Files × Except Raised Out :=
  match present sha256 crypto keys r with
  | .error e => (files, .error (.note e))
  | .ok (.inl out) => (files, .ok out)
  | .ok (.inr p) =>
    if host.readFails then
      (files, .error .unreadable)
    else
      commit host files (cosignLocked sha256 crypto keys host files p r)

end

end Witness
end CryptoValid
