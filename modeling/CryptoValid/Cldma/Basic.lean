import CryptoValid.Lib.Except
import CryptoValid.Lib.HashTree.Levels
import CryptoValid.Lib.Json.Print
import CryptoValid.Lib.PythonJson

/-!
This module contains the committed attestation of `committed_attestation.py`: a Merkle sum tree over
salted records, the commitment to it, and the check of opened records. What `num_of` and `den_of`
compute, and whether they raise, is up to the metric.
-/

namespace CryptoValid
namespace Cldma

open Python (Interp PrintableNode printable)

inductive Error where
  | unicodeEncode
  | tooManyDigits
  | recursion
  | metric
  | negative (i : Nat) (num den : Int)
  | emptyLedger
  | index
  | overflow
  deriving DecidableEq, Repr

structure MetricSpec where
  metricId : Str
  numOf : Json → Except Error Int
  denOf : Json → Except Error Int
  numLeDen : Bool := true

structure Node where
  hash : Str
  num : Int
  den : Int
  deriving DecidableEq

structure Leaf extends Node where
  commit : Str

structure Commitment where
  rootHash : Str
  numTotal : Int
  denTotal : Int
  n : Nat
  metricId : Str
  asOf : Str
  treeRoot : Str
  specVersion : Str
  numLeDen : Bool
  deriving DecidableEq

def specVersion : Str := txt "CLDMA-2"

/--
Unambiguous encoding of the fields that are hashed.
-/
def enc (parts : List Str) : Str := Json.dumps false (.arr (parts.map .str))

/--
The text of a record, if there is one.
-/
def recordText (rec : Json) : Str := Json.dumps false rec.sortKeys

section

variable (interp : Interp)

/--
`str(i)`. A position in a list and the length of a list have fewer digits than any limit.
-/
def str (i : Int) : Except Error Str :=
  if printable interp i then .ok (Json.intText i) else .error .tooManyDigits

def canonicalRecord (rec : Json) : Except Error Str :=
  if interp.encoderLimit < rec.depth then .error .recursion
  else if rec.All (PrintableNode interp) then .ok (recordText rec)
  else .error .tooManyDigits

def leafSaltText (masterSalt : Str) (i : Nat) : Str :=
  masterSalt ++ txt "|leaf|" ++ Json.natText i

def commitText (rec : Json) (salt : Str) : Except Error Str := do
  return enc [txt "commit", salt, ← canonicalRecord interp rec]

def leafText (commit : Str) (num den : Int) : Except Error Str := do
  return enc [txt "L", commit, ← str interp num, ← str interp den]

def nodeText (left right : Str) (num den : Int) : Except Error Str := do
  return enc [txt "N", left, right, ← str interp num, ← str interp den]

def bindText (treeRoot : Str) (n : Nat) (metricId asOf : Str) (numTotal denTotal : Int)
    : Except Error Str := do
  return enc [txt "CLDMA", specVersion, metricId, asOf, Json.natText n, treeRoot,
    ← str interp numTotal, ← str interp denTotal]

end

section

variable (interp : Interp) (sha3_256 : HashFn 32)

def h (s : Str) : Except Error Str :=
  match Utf8.encode? s with
  | some raw => .ok (Hex.ofBytes (sha3_256 raw))
  | none => .error .unicodeEncode

def leafSalt (masterSalt : Str) (i : Nat) : Except Error Str := h sha3_256
    (leafSaltText masterSalt i)

def leafNode (rec : Json) (salt : Str) (num den : Int) : Except Error Leaf := do
  let commit ← h sha3_256 (← commitText interp rec salt)
  let hash ← h sha3_256 (← leafText interp commit num den)
  return { hash, num, den, commit }

def combine (l r : Node) : Except Error Node := do
  let num := l.num + r.num
  let den := l.den + r.den
  let hash ← h sha3_256 (← nodeText interp l.hash r.hash num den)
  return { hash, num, den }

def buildLeaves (records : List Json) (masterSalt : Str) (spec : MetricSpec)
    : Except Error (List Leaf) :=
  go 0 records
where
  go (i : Nat) : List Json → Except Error (List Leaf)
    | [] => .ok []
    | rec :: rest => do
      let num ← spec.numOf rec
      let den ← spec.denOf rec
      if num < 0 ∨ den < 0 then
        throw (.negative i num den)
      let salt ← leafSalt sha3_256 masterSalt i
      let leaf ← leafNode interp sha3_256 rec salt num den
      return leaf :: (← go (i + 1) rest)

/--
The level above: neighbours are combined, an odd last node is promoted.
-/
def nextLevel : List Node → Except Error (List Node)
  | l :: r :: rest => do
    let node ← combine interp sha3_256 l r
    return node :: (← nextLevel rest)
  | rest => .ok rest

theorem nextLevel_length {cur nxt : List Node} (h : nextLevel interp sha3_256 cur = .ok nxt)
    : nxt.length = (cur.length + 1) / 2 := by
  fun_induction nextLevel interp sha3_256 cur generalizing nxt with
  | case1 l r rest ih =>
    rcases Except.bind_eq_ok.mp h with ⟨node, _, h⟩
    rcases Except.bind_eq_ok.mp h with ⟨nodes, hnodes, h⟩
    rw [← Except.pure_eq_ok.mp h, List.length_cons, ih hnodes]
    simp only [List.length_cons]
    omega
  | case2 rest hrest =>
    rw [← Except.ok.inj h]
    match rest, hrest with
    | [], _ => rfl
    | [_], _ => simp
    | l :: r :: rest, hne => exact absurd rfl (hne l r rest)

/--
All levels from the leaves up to the root.
-/
def levels (leaves : List Node) : Except Error (List (List Node)) :=
  if leaves.isEmpty then .error .emptyLedger else go leaves
where
  go (cur : List Node) : Except Error (List (List Node)) :=
    if 1 < cur.length then
      match _hnxt : nextLevel interp sha3_256 cur with
      | .error e => .error e
      | .ok nxt => (go nxt).map (cur :: ·)
    else
      .ok [cur]
  termination_by cur.length
  decreasing_by
    rw [nextLevel_length interp sha3_256 _hnxt]
    omega

def bindMeta (treeRoot : Str) (n : Nat) (metricId asOf : Str) (numTotal denTotal : Int)
    : Except Error Str := do
  h sha3_256 (← bindText interp treeRoot n metricId asOf numTotal denTotal)

/--
The root is the only node of the last level.
-/
def commitLedger (records : List Json) (masterSalt : Str) (spec : MetricSpec) (asOf : Str)
    : Except Error Commitment := do
  let leaves ← buildLeaves interp sha3_256 records masterSalt spec
  let lvls ← levels interp sha3_256 (leaves.map Leaf.toNode)
  let root := (lvls.getLastD []).headD ⟨[], 0, 0⟩
  let n := records.length
  let rootHash ← bindMeta interp sha3_256 root.hash n spec.metricId asOf root.num root.den
  return {
    rootHash
    numTotal := root.num
    denTotal := root.den
    n
    metricId := spec.metricId
    asOf
    treeRoot := root.hash
    specVersion
    numLeDen := spec.numLeDen }

/-!
### Opened records
-/

structure PathStep where
  hash : Str
  num : Int
  den : Int
  side : Str
  deriving DecidableEq

/--
An opened record as the prover sends it, every field is up to the prover.
-/
structure Opening where
  index : Int
  record : Json
  salt : Str
  num : Int
  den : Int
  path : List PathStep
  deriving DecidableEq

/--
The siblings on the way from leaf `index` up to the root; a promoted node has none.
-/
def inclusionPath (records : List Json) (masterSalt : Str) (spec : MetricSpec) (index : Nat)
    : Except Error (List PathStep) := do
  let leaves ← buildLeaves interp sha3_256 records masterSalt spec
  let lvls ← levels interp sha3_256 (leaves.map Leaf.toNode)
  return siblings lvls.dropLast index
where
  siblings : List (List Node) → Nat → List PathStep
    | [], _ => []
    | lvl :: above, idx =>
      let (sib, side) := if idx % 2 = 0 then (idx + 1, txt "right") else (idx - 1, txt "left")
      match lvl[sib]? with
      | some node => ⟨node.hash, node.num, node.den, side⟩ :: siblings above (idx / 2)
      | none => siblings above (idx / 2)

/--
What an honest prover answers to a challenge.
-/
def openLeaves (records : List Json) (masterSalt : Str) (spec : MetricSpec) (indices : List Nat)
    : Except Error (List Opening) :=
  indices.mapM fun i => do
    match records[i]? with
    | none => throw .index
    | some record =>
      let salt ← leafSalt sha3_256 masterSalt i
      let num ← spec.numOf record
      let den ← spec.denOf record
      let path ← inclusionPath interp sha3_256 records masterSalt spec i
      return { index := i, record, salt, num, den, path }

structure OpenReport where
  index : Int
  classifOk : Bool
  inclusionOk : Bool
  sumsOk : Bool
  nonNegativeOk : Bool
  ok : Bool
  deriving DecidableEq

structure OpenResult where
  allOk : Bool
  leaves : List OpenReport
  error : Option Str
  deriving DecidableEq

/--
One step of the path: the hash and the sums one level up.
-/
def stepUp (cur : Node) (step : PathStep) : Except Error Node := do
  if step.side = txt "right" then
    let num := cur.num + step.num
    let den := cur.den + step.den
    let hash ← h sha3_256 (← nodeText interp cur.hash step.hash num den)
    return { hash, num, den }
  else
    let num := step.num + cur.num
    let den := step.den + cur.den
    let hash ← h sha3_256 (← nodeText interp step.hash cur.hash num den)
    return { hash, num, den }

def climb (cur : Node) : List PathStep → Except Error Node
  | [] => .ok cur
  | step :: path => do climb (← stepUp interp sha3_256 cur step) path

/--
The body of the loop in `verify_open`.
-/
def verifyOpening (c : Commitment) (spec : MetricSpec) (o : Opening) : Except Error OpenReport := do
  let specNum ← spec.numOf o.record
  let specDen ← spec.denOf o.record
  let classifOk := specNum == o.num && specDen == o.den
  let nonNegativeOk := decide (0 ≤ o.num) && decide (0 ≤ o.den) &&
    o.path.all fun s => decide (0 ≤ s.num) && decide (0 ≤ s.den)
  let leaf ← leafNode interp sha3_256 o.record o.salt o.num o.den
  let top ← climb interp sha3_256 { hash := leaf.hash, num := o.num, den := o.den } o.path
  let bound ← bindMeta interp sha3_256 top.hash c.n c.metricId c.asOf c.numTotal c.denTotal
  let inclusionOk := bound == c.rootHash
  let sumsOk := top.num == c.numTotal && top.den == c.denTotal
  return {
    index := o.index
    classifOk
    inclusionOk
    sumsOk
    nonNegativeOk
    ok := classifOk && inclusionOk && sumsOk && nonNegativeOk }

def verifyOpen (c : Commitment) (spec : MetricSpec) (opened : List Opening)
    : Except Error OpenResult := do
  if opened.isEmpty then
    return {
      allOk := false
      leaves := []
      error := some (txt "nessun record aperto (challenge vuoto) — assurance nulla") }
  let leaves ← opened.mapM (verifyOpening interp sha3_256 c spec)
  return { allOk := leaves.all OpenReport.ok, leaves, error := none }

/-!
### The complete ledger
-/

structure FullReport where
  ok : Bool
  integrityOk : Bool
  completenessOk : Bool
  recomputedRoot : Str
  recomputedNum : Int
  recomputedDen : Int
  committedRoot : Str
  n : Nat
  expectedN : Option Int
  deriving DecidableEq

/--
The regulator builds the commitment again. An error is the report that carries its text.
-/
def verifyFull (records : List Json) (masterSalt : Str) (spec : MetricSpec) (c : Commitment)
    (expectedN : Option Int) : Except Error FullReport := do
  let c2 ← commitLedger interp sha3_256 records masterSalt spec c.asOf
  let ok := c2.rootHash == c.rootHash && c2.numTotal == c.numTotal && c2.denTotal == c.denTotal &&
    c2.n == c.n
  let completenessOk := expectedN.isNone || expectedN == some (c.n : Int)
  return {
    ok := ok && completenessOk
    integrityOk := ok
    completenessOk
    recomputedRoot := c2.rootHash
    recomputedNum := c2.numTotal
    recomputedDen := c2.denTotal
    committedRoot := c.rootHash
    n := c.n
    expectedN }

end

end Cldma
end CryptoValid
