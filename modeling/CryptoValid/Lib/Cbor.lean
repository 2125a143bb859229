import CryptoValid.Lib.Dict
import CryptoValid.Lib.Text
import Mathlib.Data.List.Lex
import Mathlib.Data.List.Sort
import Mathlib.Order.Fin.Basic

/-!
This module contains a subset of CBOR: integers, byte and text strings, arrays, maps, booleans and
null. The encoder is the deterministic one, the decoder takes every definite length.
-/

namespace Cbor

inductive Key where
  | int (i : Int)
  | bytes (b : Bytes)
  | text (s : Str)
  deriving DecidableEq

end Cbor

/--
The entries of a map are listed in the order of the bytes they come from.
-/
inductive Cbor where
  | int (i : Int)
  | bytes (b : Bytes)
  | text (s : Str)
  | bool (b : Bool)
  | null
  | arr (xs : List Cbor)
  | map (ms : List (Cbor.Key × Cbor))

namespace Cbor

def Key.value : Key → Cbor
  | .int i => .int i
  | .bytes b => .bytes b
  | .text s => .text s

/--
What may be the key of a map.
-/
def key? : Cbor → Option Key
  | .int i => some (.int i)
  | .bytes b => some (.bytes b)
  | .text s => some (.text s)
  | .bool _ | .null | .arr _ | .map _ => none

/-!
### Encoder
-/

/--
The exceptions of the encoder: `OverflowError` and `UnicodeEncodeError`.
-/
inductive EncodeError where
  | overflow
  | unicode
  deriving DecidableEq

/--
The `count` low bytes of `n`, the highest one first.
-/
def beBytes : (count : Nat) → (n : Nat) → Bytes
  | 0, _ => []
  | count + 1, n => beBytes count (n / 256) ++ [UInt8.ofNat n]

theorem length_beBytes (count n : Nat) : (beBytes count n).length = count := by
  induction count generalizing n with
  | zero => rfl
  | succ count ih => rw [beBytes, List.length_append, ih, List.length_singleton]

def head (major n : Nat) : Except EncodeError Bytes :=
  if n < 24 then .ok [UInt8.ofNat (major * 32 + n)]
  else if n < 0x100 then .ok [UInt8.ofNat (major * 32 + 24), UInt8.ofNat n]
  else if n < 0x10000 then .ok (UInt8.ofNat (major * 32 + 25) :: beBytes 2 n)
  else if n < 0x100000000 then .ok (UInt8.ofNat (major * 32 + 26) :: beBytes 4 n)
  else if n < 0x10000000000000000 then .ok (UInt8.ofNat (major * 32 + 27) :: beBytes 8 n)
  else .error .overflow

def encodeInt (i : Int) : Except EncodeError Bytes :=
  if 0 ≤ i then head 0 i.natAbs else head 1 (-1 - i).natAbs

def encodeBytes (b : Bytes) : Except EncodeError Bytes := do
  return (← head 2 b.length) ++ b

def encodeText (s : Str) : Except EncodeError Bytes :=
  match Utf8.encode? s with
  | none => .error .unicode
  | some b => do return (← head 3 b.length) ++ b

def encodeKey : Key → Except EncodeError Bytes
  | .int i => encodeInt i
  | .bytes b => encodeBytes b
  | .text s => encodeText s

/--
Encoded entries, ordered by their encoded keys.
-/
def sortItems (items : List (Bytes × Bytes)) : List (Bytes × Bytes) :=
  items.insertionSort fun a b => a.1 ≤ b.1

mutual

def encode : Cbor → Except EncodeError Bytes
  | .bool true => .ok [0xf5]
  | .bool false => .ok [0xf4]
  | .null => .ok [0xf6]
  | .int i => encodeInt i
  | .bytes b => encodeBytes b
  | .text s => encodeText s
  | .arr xs => do return (← head 4 xs.length) ++ (← encodeElems xs)
  | .map ms => do
    let items := sortItems (← encodeEntries ms)
    return (← head 5 items.length) ++ items.flatMap fun kv => kv.1 ++ kv.2

def encodeElems : List Cbor → Except EncodeError Bytes
  | [] => .ok []
  | x :: xs => do return (← encode x) ++ (← encodeElems xs)

def encodeEntries : List (Key × Cbor) → Except EncodeError (List (Bytes × Bytes))
  | [] => .ok []
  | (k, v) :: ms => do return (← encodeKey k, ← encode v) :: (← encodeEntries ms)

end

/-!
### Decoder
-/

/--
The exceptions of the decoder: `ValueError` and, for a byte after the last one, `IndexError`.
-/
inductive DecodeError where
  | tooDeep
  | indefinite
  | notUtf8
  | keyType
  | duplicateKey
  | majorType
  | excess
  | index
  deriving DecidableEq

def DecodeError.isValueError (e : DecodeError) : Bool := e ≠ .index

def maxDepth : Nat := 64

def byteAt (b : Bytes) (i : Nat) : Except DecodeError UInt8 :=
  match b[i]? with
  | some x => .ok x
  | none => .error .index

/--
`b[i:i + n]`, that may be cut off at the end of `b`.
-/
def slice (b : Bytes) (i n : Nat) : Bytes := (b.drop i).take n

def natOfBytes (b : Bytes) : Nat := b.foldl (fun n x => n * 256 + x.toNat) 0

/--
The argument of the head whose additional information is `info`, and the index after it.
-/
def argument (b : Bytes) (info i : Nat) : Except DecodeError (Nat × Nat) :=
  if info < 24 then .ok (info, i)
  else if info = 24 then do return ((← byteAt b i).toNat, i + 1)
  else if info = 25 then .ok (natOfBytes (slice b i 2), i + 2)
  else if info = 26 then .ok (natOfBytes (slice b i 4), i + 4)
  else if info = 27 then .ok (natOfBytes (slice b i 8), i + 8)
  else .error .indefinite

/--
`n` items one after the other.
-/
def readElems (item : Nat → Except DecodeError (Cbor × Nat)) (n i : Nat)
    : Except DecodeError (List Cbor × Nat) :=
  match n with
  | 0 => .ok ([], i)
  | n + 1 => do
    let (v, i) ← item i
    let (vs, i) ← readElems item n i
    return (v :: vs, i)

/--
`n` entries one after the other. `seen` has the entries before them, the last one first.
-/
def readEntries (item : Nat → Except DecodeError (Cbor × Nat)) (seen : List (Key × Cbor)) (n i : Nat)
    : Except DecodeError (List (Key × Cbor) × Nat) :=
  match n with
  | 0 => .ok (seen.reverse, i)
  | n + 1 => do
    let (k, i) ← item i
    let (v, i) ← item i
    match key? k with
    | none => .error .keyType
    | some k =>
      if (Assoc.lookup k seen).isSome then
        .error .duplicateKey
      else
        readEntries item ((k, v) :: seen) n i

/--
The item at index `i` and the index after it; `room` is the number of levels that are left.
-/
def rd (b : Bytes) (room i : Nat) : Except DecodeError (Cbor × Nat) :=
  match room with
  | 0 => .error .tooDeep
  | room + 1 => do
    let ib ← byteAt b i
    let major := ib.toNat / 32
    let info := ib.toNat % 32
    if major = 7 ∧ info = 20 then return (.bool false, i + 1)
    if major = 7 ∧ info = 21 then return (.bool true, i + 1)
    if major = 7 ∧ info = 22 then return (.null, i + 1)
    let (n, i) ← argument b info (i + 1)
    if major = 0 then return (.int n, i)
    if major = 1 then return (.int (-1 - n), i)
    if major = 2 then return (.bytes (slice b i n), i + n)
    if major = 3 then
      match Utf8.decode? (slice b i n) with
      | none => throw .notUtf8
      | some s => return (.text s, i + n)
    if major = 4 then
      let (xs, i) ← readElems (fun i => rd b room i) n i
      return (.arr xs, i)
    if major = 5 then
      let (ms, i) ← readEntries (fun i => rd b room i) [] n i
      return (.map ms, i)
    throw .majorType

def decode (b : Bytes) : Except DecodeError Cbor := do
  let (v, i) ← rd b (maxDepth + 1) 0
  if i ≠ b.length then .error .excess else .ok v

def isInt (i : Int) : Cbor → Bool
  | .int j => j = i
  | _ => false

/--
`x == i`, booleans are numbers.
-/
def eqInt (i : Int) : Cbor → Bool
  | .int j => j = i
  | .bool b => (if b then 1 else 0) = i
  | _ => false

def isBytes (b : Bytes) : Cbor → Bool
  | .bytes c => c = b
  | _ => false

def isText (s : Str) : Cbor → Bool
  | .text t => t = s
  | _ => false

mutual

/--
Equal values of equal types; the order of the entries of a map does not count.
-/
def same : Cbor → Cbor → Bool
  | .int i, .int j => i = j
  | .bytes b, .bytes c => b = c
  | .text s, .text t => s = t
  | .bool a, .bool b => a = b
  | .null, .null => true
  | .arr xs, .arr ys => sameElems xs ys
  | .map ms, .map ns => ms.length = ns.length && sameEntries ms ns
  | _, _ => false

def sameElems : List Cbor → List Cbor → Bool
  | [], [] => true
  | x :: xs, y :: ys => same x y && sameElems xs ys
  | _, _ => false

def sameEntries : List (Key × Cbor) → List (Key × Cbor) → Bool
  | [], _ => true
  | (k, v) :: ms, ns =>
    match Assoc.lookup k ns with
    | some w => same v w && sameEntries ms ns
    | none => false

end

/--
`x.get(k)` of a map, `None` if there is no such key.
-/
def get (ms : List (Key × Cbor)) (k : Key) : Cbor := (Assoc.lookup k ms).getD .null

/--
`x[k] = v` in a map.
-/
def set (ms : List (Key × Cbor)) (k : Key) (v : Cbor) : List (Key × Cbor) :=
  if (Assoc.lookup k ms).isSome then Assoc.replace k v ms else ms ++ [(k, v)]

end Cbor
