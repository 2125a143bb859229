import CryptoValid.Lib.Lines
import CryptoValid.Lib.PythonJson
import CryptoValid.Profile

/-!
This module contains the recovery of `cryptovalid_ingest.py`: what `Ingestor._resume` makes of the
newest open segment.
-/

namespace CryptoValid
namespace Ingest

open Python (Interp)

def newline : UInt8 := 0x0a

/--
`_canonical` raises `RecursionError` when the value is nested too deep for the encoder.
-/
def canonical (interp : Interp) (d : Json) : Option Bytes :=
  if d.depth ≤ interp.encoderLimit then some (d.canonical.flatMap Utf8.encodePoint) else none

inductive ResumeError where
  | loads (e : Python.LoadsError)
  | attributeError
  | recursion
  | tampered (idx : Nat)
  deriving DecidableEq

/--
How far the scan has come: the end of the last good line, and what the next entry has to carry.
-/
structure Tail where
  goodEnd : Nat
  idx : Nat
  prev : Str
  first : Str
  deriving DecidableEq

def Tail.start : Tail := ⟨0, 0, genesisPrev, genesisPrev⟩

/--
The hash that an entry should carry.
-/
def recompute (interp : Interp) (e : Entry) : Option Str :=
  (canonical interp (.obj (withoutAttestation e))).map fun raw => Hex.ofBytes (sha256 raw)

def isTerminated (line : Bytes) : Bool := line.getLast? = some newline

def isBlank (line : Bytes) : Bool := line.all Python.isByteSpace

def Tail.skip (t : Tail) (line : Bytes) : Tail := { t with goodEnd := t.goodEnd + line.length }

def Tail.take (t : Tail) (line : Bytes) (selfHash : Str) : Tail where
  goodEnd := t.goodEnd + line.length
  idx := t.idx + 1
  prev := selfHash
  first := if t.idx = 0 then selfHash else t.first

variable (interp : Interp)

/--
The body of the loop; `none` is `break`.
-/
def scanLine (t : Tail) (line : Bytes) : Except ResumeError (Option Tail) :=
  if !isTerminated line then
    .ok none
  else if isBlank line then
    .ok (some (t.skip line))
  else
    match Python.loadsBytes interp line with
    | .error .jsonDecode => .ok none
    | .error e => .error (.loads e)
    | .ok (.obj e) =>
      match recompute interp e with
      | none => .error .recursion
      | some recomputed =>
        if !Python.eqInt (Entry.get e (txt "idx")) t.idx ||
            Entry.get e (txt "prev_hash") ≠ .str t.prev ||
            Entry.get e (txt "self_hash") ≠ .str recomputed then
          .error (.tampered t.idx)
        else
          .ok (some (t.take line recomputed))
    | .ok _ => .error .attributeError

def scan (t : Tail) : List Bytes → Except ResumeError Tail
  | [] => .ok t
  | line :: rest => do
    match ← scanLine interp t line with
    | none => return t
    | some t => scan t rest

structure Resumed where
  content : Bytes
  tail : Tail
  recoveredBytes : Nat
  deriving DecidableEq

/--
A refusal leaves the file alone, since it is only truncated after the scan.
-/
def resume (content : Bytes) : Except ResumeError Resumed := do
  let t ← scan interp .start (Lines.split newline content)
  return {
    content := content.take t.goodEnd
    tail := t
    recoveredBytes := content.length - t.goodEnd }

end Ingest
end CryptoValid
