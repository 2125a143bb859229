import CryptoValid.Ingest.Resume
import CryptoValid.Lib.Base64
import CryptoValid.Lib.PythonValue
import CryptoValid.Lib.Runs
import CryptoValid.Merkle.Basic

/-!
This module contains the `Ingestor` of `cryptovalid_ingest.py` as a machine: the files of an
archive, the writer, and its operations with the outcome of every write, sync and rename as an input.
-/

namespace CryptoValid
namespace Ingest

open Python (Interp Value)

structure Backend where
  publicKeyHex : Str
  sign : Bytes → Bytes

/--
The arguments of the constructor. `globbed` is what `glob` makes of a pattern whose directory or
prefix has metacharacters of its own.
-/
structure Config where
  interp : Interp
  directory : Str
  segPrefix : Str := txt "ledger"
  batch : Nat := 256
  rotate : Nat := 100000
  backend : Option Backend := none
  tsa : Bool := false
  tipKey : Bool := false
  globbed : List Nat → List Nat := id

/--
The files of the archive; segments and tree heads are known by their numbers.
-/
structure Fs where
  segments : Dict Nat Bytes
  sth : Dict Nat Json
  head : Option Json
  deriving DecidableEq

/--
`fh` is the segment that the open handle belongs to, `none` when it is closed.
-/
structure Ingestor where
  seq : Nat
  idx : Nat
  prev : Str
  first : Str
  buf : List Str
  fh : Option Nat
  recoveredBytes : Nat
  deriving DecidableEq

inductive Error where
  | outputNotWritten
  | osError
  | closedFile
  | dumps
  | resume (e : ResumeError)
  | leaves
  | sign
  deriving DecidableEq

/-!
### Outcomes of input and output
-/

/--
`append_line`: the whole batch; nothing, since it was truncated back; or what is left of a failure
of both.
-/
inductive Append where
  | done
  | undone
  | torn (kept : Nat)
  deriving DecidableEq

/--
`_write_json_atomic`: the file is renamed into place before the directory is synced.
-/
inductive Publish where
  | done
  | unsynced
  | notWritten
  deriving DecidableEq

/--
How each step of an operation ends, if the operation comes that far.
-/
structure Env where
  now : Str := []
  append : Append := .done
  tip : Bool := true
  leaves : Bool := true
  prevSth : Bool := true
  signSth : Bool := true
  sth : Publish := .done
  signHead : Bool := true
  head : Publish := .done
  close : Bool := true
  truncate : Bool := true
  openFile : Bool := true
  syncDir : Bool := true
  anchor : Bool := true

/-!
### Names
-/

def pad6 (seq : Nat) : Str :=
  List.replicate (6 - (Json.natText seq).length) 0x30 ++ Json.natText seq

def segName (cfg : Config) (seq : Nat) : Str :=
  cfg.segPrefix ++ txt "-" ++ pad6 seq ++ txt ".jsonl"

def segPath (cfg : Config) (seq : Nat) : Str := cfg.directory ++ txt "/" ++ segName cfg seq

def hasMagic (s : Str) : Bool := s.any (txt "*?[").contains

/--
`sorted(glob.glob(...))`: the order is that of the paths as texts.
-/
def segments (cfg : Config) (fs : Fs) : List Nat :=
  let found := fs.segments.items.map Prod.fst
  let listed := if hasMagic (cfg.directory ++ cfg.segPrefix) then cfg.globbed found else found
  listed.insertionSort fun a b => segPath cfg a ≤ segPath cfg b

/-!
### Tree heads
-/

def canonicalHash (doc : List (Str × Json)) : Str :=
  let body := doc.filter fun m => m.1 ≠ txt "signature" && m.1 ≠ txt "signer"
  Hex.ofBytes (sha256 ((Json.obj body).canonical.flatMap Utf8.encodePoint))

def leavesFromLedger (interp : Interp) (content : Bytes) : Option (List Bytes) := do
  let text ← Utf8.decode? content
  let lines := Lines.split 0x0a (Python.universalNewlines text)
  (lines.filter fun line => !line.all Python.isSpace).mapM fun line =>
    match Python.loads interp line with
    | .ok (.obj e) => canonical interp (.obj (withoutAttestation e))
    | _ => none

def treeHead (leaves : List Bytes) : List (Str × Json) := [
  (txt "tree_size", .int leaves.length),
  (txt "root_sha256", .str (Hex.ofBytes (Merkle.mth sha256 leaves))),
  (txt "signed", .bool false),
  (txt "note", .str (txt "unsigned; sign it with cryptovalid_receipt.signed_tree_head and/or " ++
    txt "submit root_sha256 to a qualified TSP for a QUALIFIED RFC 3161 timestamp"))]

/--
The signature is over the text of the hash; `answers` says whether the backend makes one.
-/
def signed (backend : Option Backend) (answers : Bool) (doc : List (Str × Json))
    : Except Error Json :=
  match backend with
  | none => .ok (.obj doc)
  | some backend =>
    if answers then
      let sig := backend.sign ((canonicalHash doc).flatMap Utf8.encodePoint)
      .ok (.obj (doc ++ [(txt "signature", .str (Base64.encode sig)),
        (txt "signer", .str backend.publicKeyHex)]))
    else
      .error .sign

def membersOf : Json → List (Str × Json)
  | .obj ms => ms
  | _ => []

def prevSthHash (fs : Fs) (seq : Nat) : Str :=
  match if 0 < seq then fs.sth.get? (seq - 1) else none with
  | some doc => canonicalHash (membersOf doc)
  | none => genesisPrev

def headDoc (cfg : Config) (fs : Fs) (sth : Json) (now : Str) : List (Str × Json) :=
  let sealedSegs := (segments cfg fs).filter fs.sth.contains
  [(txt "prefix", .str cfg.segPrefix), (txt "segments_sealed", .int sealedSegs.length),
    (txt "last_segment", Entry.get (membersOf sth) (txt "segment")),
    (txt "last_sth_sha256", .str (canonicalHash (membersOf sth))), (txt "updated_utc", .str now)]

/-!
### Operations
-/

/--
A file opened for appending is created if it is not there.
-/
def Fs.openSegment (fs : Fs) (seq : Nat) : Fs :=
  if fs.segments.contains seq then fs else { fs with segments := fs.segments.set seq [] }

def Fs.appendTo (fs : Fs) (seq : Nat) (bytes : Bytes) : Fs :=
  { fs with segments := fs.segments.set seq ((fs.segments.get? seq).getD [] ++ bytes) }

def Fs.setSegment (fs : Fs) (seq : Nat) (bytes : Bytes) : Fs :=
  { fs with segments := fs.segments.set seq bytes }

def Fs.setSth (fs : Fs) (seq : Nat) (doc : Json) : Fs := { fs with sth := fs.sth.set seq doc }

/--
What an operation leaves behind, also when it raises.
-/
structure Result (α : Type) where
  fs : Fs
  ing : Ingestor
  result : Except Error α

def batchOf (buf : List Str) : Bytes :=
  ((txt "\n").intercalate buf ++ txt "\n").flatMap Utf8.encodePoint

def Ingestor.flush (cfg : Config) (env : Env) (fs : Fs) (o : Ingestor) : Result Unit :=
  if o.buf.isEmpty then ⟨fs, o, .ok ()⟩
  else
    match o.fh with
    | none => ⟨fs, o, .error .closedFile⟩
    | some k =>
      match env.append with
      | .undone => ⟨fs, o, .error .outputNotWritten⟩
      | .torn kept => ⟨fs.appendTo k ((batchOf o.buf).take kept), o, .error .outputNotWritten⟩
      | .done =>
        let result := if cfg.tipKey && !env.tip then .error .outputNotWritten else .ok ()
        ⟨fs.appendTo k (batchOf o.buf), { o with buf := [] }, result⟩

structure Ref where
  segment : Str
  idx : Nat

/--
The line that is queued, and the hash of its entry. `json.dumps` raises for a value that has no
encoding, for keys that cannot be compared, for an integer with too many digits, and for one nested
too deep.
-/
def entryOf (cfg : Config) (o : Ingestor) (now : Str) (data : Value) : Option (Str × Str) := do
  let e := [(.str (txt "idx"), .int o.idx), (.str (txt "ts"), .str now), (.str (txt "data"), data),
    (.str (txt "prev_hash"), .str o.prev)]
  let raw ← Python.dumpsSorted cfg.interp (.dict e)
  let selfHash := Hex.ofBytes (sha256 (raw.flatMap Utf8.encodePoint))
  let line ← Python.dumpsSorted cfg.interp
    (.dict (e ++ [(.str (txt "self_hash"), .str selfHash)]))
  return (line, selfHash)

def Ingestor.enqueue (o : Ingestor) (line : Str) (selfHash : Str) : Ingestor :=
  { o with
    buf := o.buf ++ [line]
    first := if o.idx = 0 then selfHash else o.first
    prev := selfHash
    idx := o.idx + 1 }

/--
The part of `append` under the lock; the rotation that may be due is a `seal` of its own.
-/
def Ingestor.append (cfg : Config) (data : Value) (env : Env) (fs : Fs) (o : Ingestor)
    : Result (Ref × Bool) :=
  match entryOf cfg o env.now data with
  | none => ⟨fs, o, .error .dumps⟩
  | some (line, selfHash) =>
    let o := o.enqueue line selfHash
    let ref := ⟨segName cfg o.seq, o.idx - 1⟩
    let due := decide (cfg.rotate ≤ o.idx)
    if cfg.batch ≤ o.buf.length then
      let r := o.flush cfg env fs
      ⟨r.fs, r.ing, r.result.map fun () => (ref, due)⟩
    else
      ⟨fs, o, .ok (ref, due)⟩

/--
The tree head of the current segment, or why there is none.
-/
def sthOf (cfg : Config) (env : Env) (fs : Fs) (o : Ingestor) : Except Error Json :=
  let content := if env.leaves then fs.segments.get? o.seq else none
  match content.bind (leavesFromLedger cfg.interp) with
  | none => .error .leaves
  | some leaves =>
    if !env.prevSth then .error .osError
    else
      signed cfg.backend env.signSth (treeHead leaves ++ [
        (txt "segment", .str (segName cfg o.seq)), (txt "sealed_utc", .str env.now),
        (txt "last_self_hash", .str o.prev), (txt "prev_sth_sha256", .str (prevSthHash fs o.seq))])

def writeHead (cfg : Config) (env : Env) (fs : Fs) (sth : Json) : Fs × Except Error Unit :=
  match signed cfg.backend env.signHead (headDoc cfg fs sth env.now) with
  | .error e => (fs, .error e)
  | .ok doc =>
    match env.head with
    | .notWritten => (fs, .error .outputNotWritten)
    | .unsynced => ({ fs with head := some doc }, .error .osError)
    | .done => ({ fs with head := some doc }, .ok ())

/--
The end of `seal`, after the tree head is published and HEAD is written.
-/
def switchSegment (cfg : Config) (env : Env) (fs : Fs) (o : Ingestor) (sth : Json)
    : Result (Option Json) :=
  if !env.close then ⟨fs, { o with fh := none }, .error .osError⟩
  else
    let o := { o with
      seq := o.seq + 1, idx := 0, prev := genesisPrev, first := genesisPrev, fh := none }
    if !env.openFile then ⟨fs, o, .error .osError⟩
    else
      let fs := fs.openSegment o.seq
      let o := { o with fh := some o.seq }
      if !env.syncDir then ⟨fs, o, .error .osError⟩
      else if cfg.tsa && !env.anchor then ⟨fs, o, .error .outputNotWritten⟩
      else ⟨fs, o, .ok (some sth)⟩

/--
`seal` once everything is flushed.
-/
def Ingestor.sealFlushed (cfg : Config) (minEntries : Nat) (env : Env) (fs : Fs) (o : Ingestor)
    : Result (Option Json) :=
  if o.idx < max 1 minEntries then ⟨fs, o, .ok none⟩
  else
    match sthOf cfg env fs o with
    | .error e => ⟨fs, o, .error e⟩
    | .ok sth =>
      match env.sth with
      | .notWritten => ⟨fs, o, .error .outputNotWritten⟩
      | .unsynced => ⟨fs.setSth o.seq sth, o, .error .osError⟩
      | .done =>
        match writeHead cfg env (fs.setSth o.seq sth) sth with
        | (fs, .error e) => ⟨fs, o, .error e⟩
        | (fs, .ok ()) => switchSegment cfg env fs o sth

def Ingestor.seal (cfg : Config) (minEntries : Nat) (env : Env) (fs : Fs) (o : Ingestor)
    : Result (Option Json) :=
  let r := o.flush cfg env fs
  match r.result with
  | .error e => ⟨r.fs, r.ing, .error e⟩
  | .ok () => r.ing.sealFlushed cfg minEntries env r.fs

/--
The handle is closed whatever happens.
-/
def Ingestor.close (cfg : Config) (sealIt : Bool) (env : Env) (fs : Fs) (o : Ingestor)
    : Result Unit :=
  let r :=
    if sealIt then
      let r := o.seal cfg 1 env fs
      ⟨r.fs, r.ing, r.result.map fun _ => ()⟩
    else
      o.flush cfg env fs
  { r with ing := { r.ing with fh := none } }

/--
The constructor on a directory, with the files it leaves also when it raises.
-/
def openOrResume (cfg : Config) (env : Env) (fs : Fs) : Fs × Except Error Ingestor :=
  match (segments cfg fs).getLast? with
  | none => opened fs ⟨0, 0, genesisPrev, genesisPrev, [], none, 0⟩
  | some k =>
    if fs.sth.contains k then
      opened fs ⟨k + 1, 0, genesisPrev, genesisPrev, [], none, 0⟩
    else
      match resume cfg.interp ((fs.segments.get? k).getD []) with
      | .error e => (fs, .error (.resume e))
      | .ok r =>
        if 0 < r.recoveredBytes ∧ !env.truncate then (fs, .error .osError)
        else
          opened (fs.setSegment k r.content)
            ⟨k, r.tail.idx, r.tail.prev, r.tail.first, [], none, r.recoveredBytes⟩
where
  opened (fs : Fs) (o : Ingestor) : Fs × Except Error Ingestor :=
    if !env.openFile then (fs, .error .osError)
    else
      let fs := fs.openSegment o.seq
      if !env.syncDir then (fs, .error .osError) else (fs, .ok { o with fh := some o.seq })

/--
`append` as it is called: other operations may come between its two parts.
-/
def Ingestor.appendAndRotate (cfg : Config) (data : Value) (env envSeal : Env) (fs : Fs)
    (o : Ingestor) : Result Ref :=
  let r := o.append cfg data env fs
  match r.result with
  | .error e => ⟨r.fs, r.ing, .error e⟩
  | .ok (ref, false) => ⟨r.fs, r.ing, .ok ref⟩
  | .ok (ref, true) =>
    let r := r.ing.seal cfg cfg.rotate envSeal r.fs
    ⟨r.fs, r.ing, r.result.map fun _ => ref⟩

/-!
### Runs
-/

structure State where
  fs : Fs
  ing : Option Ingestor
  deriving DecidableEq

def State.start : State := ⟨⟨.empty, .empty, none⟩, none⟩

inductive Op where
  | append (data : Value)
  | flush
  | seal (minEntries : Nat)
  | close (sealIt : Bool)
  | reopen

/--
An object that could not be made leaves the one that was there.
-/
def step (cfg : Config) (s : State) (input : Op × Env) : State :=
  match input.1, s.ing with
  | .reopen, ing =>
    match openOrResume cfg input.2 s.fs with
    | (fs, .ok o) => ⟨fs, some o⟩
    | (fs, .error _) => ⟨fs, ing⟩
  | _, none => s
  | .append data, some o => after (o.append cfg data input.2 s.fs)
  | .flush, some o => after (o.flush cfg input.2 s.fs)
  | .seal minEntries, some o => after (o.seal cfg minEntries input.2 s.fs)
  | .close sealIt, some o => after (o.close cfg sealIt input.2 s.fs)
where
  after {α : Type} (r : Result α) : State := ⟨r.fs, some r.ing⟩

/--
A run need not know more of `append` than its two parts.
-/
theorem appendAndRotate_eq_run (cfg : Config) (data : Value) (env envSeal : Env) (fs : Fs)
    (o : Ingestor)
    : ∃ inputs, step.after (o.appendAndRotate cfg data env envSeal fs)
        = Runs.run (step cfg) ⟨fs, some o⟩ inputs := by
  unfold Ingestor.appendAndRotate
  dsimp only
  split
  . exact ⟨[(.append data, env)], rfl⟩
  . exact ⟨[(.append data, env)], rfl⟩
  . exact ⟨[(.append data, env), (.seal cfg.rotate, envSeal)], rfl⟩

end Ingest
end CryptoValid
