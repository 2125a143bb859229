import CryptoValid.Cldma.Binding
import CryptoValid.Cldma.Pedersen
import Mathlib.Tactic.NormNum.Prime

/-!
This module contains the confidential attestation of `cldma_confidential.py`: a hash tree over
committed contributions, with their products as committed totals. Two accepted attestations with one
root have the same leaves and totals, and the totals open to one pair of values.
-/

namespace CryptoValid
namespace Cldma

open Levels
open PrimeOrder (powMod)
open Python (Interp printable)

structure ConfidentialLeaf where
  recordCommit : Str
  cNum : Int
  cDen : Int
  deriving DecidableEq

structure Confidential where
  metricId : Str
  asOf : Str
  nRecords : Int
  root : Str
  leaves : List ConfidentialLeaf
  cNumTotal : Int
  cDenTotal : Int
  numLeDen : Bool
  deriving DecidableEq

structure ConfidentialResult where
  ok : Bool
  reasons : List Str
  n : Option Nat
  deriving DecidableEq

structure TotalOpening where
  numTotal : Int
  denTotal : Int
  rNumTotal : Int
  rDenTotal : Int

/--
The reason that is added where a check fails. Its text may raise.
-/
def reason (failed : Prop) [Decidable failed] (text : Except Error Str)
    : Except Error (List Str) := do
  if failed then
    return [← text]
  else
    return []

/--
There is no ratio in a report that does not get as far as the totals, and none for a total of zero.
-/
structure TotalResult where
  ok : Bool
  reasons : List Str
  ratio : Option Binary64
  deriving DecidableEq

def confidentialLeafText (interp : Interp) (index : Nat) (l : ConfidentialLeaf)
    : Except Error Str := do
  return enc [txt "CL", Json.natText index, l.recordCommit, ← str interp l.cNum,
    ← str interp l.cDen]

def confidentialNodeText (left right : Str) : Str := enc [txt "N", left, right]

def boundText (innerRoot metricId asOf : Str) (n : Nat) : Str :=
  enc [txt "CLDMA-CONF-1", metricId, asOf, Json.natText n, innerRoot]

section

variable (interp : Interp) (sha3_256 : HashFn 32)

def leafHash (index : Nat) (l : ConfidentialLeaf) : Except Error Str := do
  h sha3_256 (← confidentialLeafText interp index l)

def nextHashes : List Str → Except Error (List Str)
  | l :: r :: rest => do
    let node ← h sha3_256 (confidentialNodeText l r)
    return node :: (← nextHashes rest)
  | rest => .ok rest

theorem nextHashes_length {cur nxt : List Str} (h : nextHashes sha3_256 cur = .ok nxt)
    : nxt.length = (cur.length + 1) / 2 := by
  fun_induction nextHashes sha3_256 cur generalizing nxt with
  | case1 l r rest ih =>
    rcases Except.bind_eq_ok.mp h with ⟨node, _, h⟩
    rcases Except.bind_eq_ok.mp h with ⟨nodes, hnodes, h⟩
    rw [← Except.pure_eq_ok.mp h, List.length_cons, ih hnodes]
    simp only [List.length_cons]
    omega
  | case2 rest hrest =>
    rw [← Except.ok.inj h]
    match rest, hrest with
    | [], _ => rfl
    | [_], _ => simp
    | l :: r :: rest, hne => exact absurd rfl (hne l r rest)

def merkleRoot (leafHashes : List Str) : Except Error Str :=
  if leafHashes.isEmpty then .error .emptyLedger else go leafHashes
where
  go (cur : List Str) : Except Error Str :=
    if 1 < cur.length then
      match _hnxt : nextHashes sha3_256 cur with
      | .error e => .error e
      | .ok nxt => go nxt
    else
      .ok (cur.headD [])
  termination_by cur.length
  decreasing_by
    rw [nextHashes_length sha3_256 _hnxt]
    omega

def boundRoot (innerRoot metricId asOf : Str) (n : Nat) : Except Error Str :=
  h sha3_256 (boundText innerRoot metricId asOf n)

section

variable (P : Nat)

def verifyConfidential (att : Confidential) : Except Error ConfidentialResult := do
  let leaves := att.leaves
  if leaves.isEmpty then
    return { ok := false, reasons := [txt "nessuna foglia"], n := none }
  let declared ← reason ((leaves.length : Int) ≠ att.nRecords) do
    return txt "n_records dichiarato (" ++ (← str interp att.nRecords) ++ txt ") != foglie (" ++
      Json.natText leaves.length ++ txt ")"
  let lh ← leaves.zipIdx.mapM fun (l, i) => leafHash interp sha3_256 i l
  let root ← boundRoot sha3_256 (← merkleRoot sha3_256 lh) att.metricId att.asOf leaves.length
  let rebuilt ← reason (root ≠ att.root) do
    return txt "radice non combacia (foglie/impegni/ordine/metadati manomessi). NB: la radice " ++
      txt "va ANCORATA ESTERNAMENTE per contare la completezza/troncamento"
  let nums ← reason (Pedersen.add P (leaves.map ConfidentialLeaf.cNum) ≠ att.cNumTotal) do
    return txt "somma omomorfica numeratore != C_num_total"
  let dens ← reason (Pedersen.add P (leaves.map ConfidentialLeaf.cDen) ≠ att.cDenTotal) do
    return txt "somma omomorfica denominatore != C_den_total"
  let reasons := declared ++ rebuilt ++ nums ++ dens
  return { ok := reasons.isEmpty, reasons, n := some leaves.length }

/--
The committed totals are computed from the leaves again.
-/
def openingReasons (sha3_512 : HashFn 64) (att : Confidential) (opening : TotalOpening)
    : Except Error (List Str) := do
  let cNum := Pedersen.add P (att.leaves.map ConfidentialLeaf.cNum)
  let cDen := Pedersen.add P (att.leaves.map ConfidentialLeaf.cDen)
  let nums ← reason (!Pedersen.openCommit P sha3_512 cNum opening.numTotal opening.rNumTotal) do
    return txt "C_num_total (ricomputato dalle foglie) non apre al num_total dichiarato"
  let dens ← reason (!Pedersen.openCommit P sha3_512 cDen opening.denTotal opening.rDenTotal) do
    return txt "C_den_total (ricomputato dalle foglie) non apre al den_total dichiarato"
  let opened := nums ++ dens
  let bounded ← reason (att.numLeDen ∧ opened.isEmpty ∧ opening.numTotal > opening.denTotal) do
    return txt "ratio IMPOSSIBILE: num_total " ++ (← str interp opening.numTotal) ++
      txt " > den_total " ++ (← str interp opening.denTotal)
  return opened ++ bounded

def verifyTotalOpening (sha3_512 : HashFn 64) (att : Confidential) (opening : TotalOpening)
    : Except Error TotalResult := do
  let vc ← verifyConfidential interp sha3_256 P att
  if !vc.ok then
    return {
      ok := false
      reasons := [txt "attestazione non coerente: " ++ (txt "; ").intercalate vc.reasons]
      ratio := none }
  let reasons ← openingReasons interp P sha3_512 att opening
  if reasons.isEmpty ∧ opening.denTotal ≠ 0 then
    let ratio := Binary64.ofQuotient opening.numTotal opening.denTotal
    if ratio.isInfinite then
      throw .overflow
    return { ok := reasons.isEmpty, reasons, ratio := some ratio }
  return { ok := reasons.isEmpty, reasons, ratio := none }

end

/-!
### The tree of an attestation
-/

def encConfidentialLeaf (index : Nat) (l : ConfidentialLeaf) : Str :=
  enc [txt "CL", Json.natText index, l.recordCommit, Json.intText l.cNum, Json.intText l.cDen]

/--
The leaves of the tree are the contributions with their positions. A node hashes nothing but the two
digests below it.
-/
def confidentialScheme : HashTree.Scheme (ConfidentialLeaf × Nat) Unit Bytes Str where
  hash raw := Hex.ofBytes (sha3_256 raw)
  leafMsg a := encodeAll (encConfidentialLeaf a.2 a.1)
  note _ _ := ()
  nodeMsg _ l r := encodeAll (confidentialNodeText l r)
  valid _ := True
  valid_hash _ := trivial
  leafMsg_inj {a b} h := by
    have heq := enc_inj (encodeAll_inj h)
    simp only [List.cons.injEq, and_true, true_and] at heq
    rcases a with ⟨⟨_, _, _⟩, _⟩
    rcases b with ⟨⟨_, _, _⟩, _⟩
    simp only [Prod.mk.injEq, ConfidentialLeaf.mk.injEq]
    exact ⟨⟨heq.2.1, Json.intText_inj heq.2.2.1, Json.intText_inj heq.2.2.2⟩, natText_inj heq.1⟩
  leafMsg_ne_nodeMsg a x d e h := by
    have heq := congrArg List.length (enc_inj (encodeAll_inj h))
    simp at heq
  nodeMsg_inj {x y a b c d} _ _ _ h := by
    have heq := enc_inj (encodeAll_inj h)
    simp only [List.cons.injEq, and_true, true_and] at heq
    exact heq

/--
Every message that `verify_confidential` hashes.
-/
def confidentialQueries (att : Confidential) : List Bytes :=
  let S := confidentialScheme sha3_256
  match top? .node (att.leaves.zipIdx.map .leaf) with
  | none => []
  | some t =>
    S.msgs t ++ [encodeAll (boundText (S.digest t) att.metricId att.asOf att.leaves.length)]

end

section

variable {interp : Interp} {sha3_256 : HashFn 32}

theorem confidentialLeafText_eq_ok {index : Nat} {l : ConfidentialLeaf} {text : Str}
    : confidentialLeafText interp index l = .ok text ↔
        printable interp l.cNum = true ∧ printable interp l.cDen = true ∧
          text = encConfidentialLeaf index l :=
  strs_eq_ok

theorem reason_eq_nil {failed : Prop} [Decidable failed] {text : Except Error Str}
    : reason failed text = .ok [] ↔ ¬failed := by
  unfold reason
  split
  . next h =>
    simp only [Except.bind_eq_ok, Except.pure_eq_ok]
    simp [h]
  . next h => simp [h, Except.pure_eq_ok]

theorem reason_of_not {failed : Prop} [Decidable failed] {text : Except Error Str} (h : ¬failed)
    : reason failed text = .ok [] := reason_eq_nil.mpr h

theorem leafHash_eq_ok {index : Nat} {l : ConfidentialLeaf} {hash : Str}
    (hhash : leafHash interp sha3_256 index l = .ok hash)
    : hash = (confidentialScheme sha3_256).digest (.leaf (l, index)) := by
  rcases Except.bind_eq_ok.mp hhash with ⟨text, htext, hhash⟩
  rw [h_eq_ok hhash, (confidentialLeafText_eq_ok.mp htext).2.2]
  rfl

theorem boundText_inj {t t' metricId metricId' asOf asOf' : Str} {n n' : Nat}
    (heq : boundText t metricId asOf n = boundText t' metricId' asOf' n')
    : t = t' ∧ metricId = metricId' ∧ asOf = asOf' ∧ n = n' := by
  have heq := enc_inj heq
  simp only [List.cons.injEq, and_true, true_and] at heq
  exact ⟨heq.2.2.2, heq.1, heq.2.1, natText_inj heq.2.2.1⟩

def paired (sha3_256 : HashFn 32) (l r : Str) : Str :=
  (confidentialScheme sha3_256).hash (encodeAll (confidentialNodeText l r))

theorem nextHashes_eq_ok {cur nxt : List Str} (hnxt : nextHashes sha3_256 cur = .ok nxt)
    : nxt = pairUp (paired sha3_256) cur := by
  fun_induction nextHashes sha3_256 cur generalizing nxt with
  | case1 l r rest ih =>
    rcases Except.bind_eq_ok.mp hnxt with ⟨node, hnode, hnxt⟩
    rcases Except.bind_eq_ok.mp hnxt with ⟨nodes, hnodes, hnxt⟩
    rw [← Except.pure_eq_ok.mp hnxt, h_eq_ok hnode, ih hnodes]
    rfl
  | case2 rest hrest =>
    rw [← Except.ok.inj hnxt]
    match rest, hrest with
    | [], _ => rfl
    | [_], _ => rfl
    | l :: r :: rest, hne => exact absurd rfl (hne l r rest)

theorem merkleRoot_go_eq_ok {cur : List Str} {root : Str} (hne : cur ≠ [])
    (hroot : merkleRoot.go sha3_256 cur = .ok root)
    : top? (paired sha3_256) cur = some root := by
  fun_induction merkleRoot.go sha3_256 cur with
  | case1 cur hlen e he => simp at hroot
  | case2 cur hlen nxt hnxt ih =>
    have hne' : nxt ≠ [] := by
      rintro rfl
      have := nextHashes_length sha3_256 hnxt
      simp at this
      omega
    have htop := ih hne' hroot
    rwa [nextHashes_eq_ok hnxt, top?_pairUp] at htop
  | case3 cur hlen =>
    rw [← Except.ok.inj hroot]
    match cur, hne with
    | [x], _ => simp
    | _ :: _ :: _, _ => simp at hlen

theorem leafHashes_eq_ok {leaves : List (ConfidentialLeaf × Nat)} {lh : List Str}
    (hlh : leaves.mapM (fun (l, i) => leafHash interp sha3_256 i l) = .ok lh)
    : lh = (leaves.map .leaf).map (confidentialScheme sha3_256).digest := by
  have hall := Except.mapM_eq_ok.mp hlh
  clear hlh
  induction hall with
  | nil => rfl
  | cons hhead _ ih =>
    rw [ih, leafHash_eq_ok hhead]
    rfl

/--
What an attestation that is reported as good has.
-/
structure Accepted (sha3_256 : HashFn 32) (P : Nat) (att : Confidential) where
  tree : HashTree (ConfidentialLeaf × Nat)
  tree_eq : top? .node (att.leaves.zipIdx.map .leaf) = some tree
  nRecords_eq : att.nRecords = att.leaves.length
  root_eq : att.root = (confidentialScheme sha3_256).hash (encodeAll (boundText
    ((confidentialScheme sha3_256).digest tree) att.metricId att.asOf att.leaves.length))
  cNumTotal_eq : att.cNumTotal = Pedersen.add P (att.leaves.map ConfidentialLeaf.cNum)
  cDenTotal_eq : att.cDenTotal = Pedersen.add P (att.leaves.map ConfidentialLeaf.cDen)

theorem accepted_of_verifyConfidential {P : Nat} {att : Confidential} {result : ConfidentialResult}
    (hresult : verifyConfidential interp sha3_256 P att = .ok result) (hok : result.ok = true)
    : Nonempty (Accepted sha3_256 P att) := by
  unfold verifyConfidential at hresult
  dsimp only at hresult
  split at hresult
  . rw [← Except.pure_eq_ok.mp hresult] at hok
    exact absurd hok (by simp)
  . next hne =>
    rcases Except.bind_eq_ok.mp hresult with ⟨declared, hn, hresult⟩
    rcases Except.bind_eq_ok.mp hresult with ⟨lh, hlh, hresult⟩
    rcases Except.bind_eq_ok.mp hresult with ⟨inner, hinner, hresult⟩
    rcases Except.bind_eq_ok.mp hresult with ⟨root, hroot, hresult⟩
    rcases Except.bind_eq_ok.mp hresult with ⟨rebuilt, hrebuilt, hresult⟩
    rcases Except.bind_eq_ok.mp hresult with ⟨nums, hnums, hresult⟩
    rcases Except.bind_eq_ok.mp hresult with ⟨dens, hdens, hresult⟩
    rw [← Except.pure_eq_ok.mp hresult] at hok
    simp only [List.isEmpty_iff, List.append_eq_nil_iff] at hok
    rcases hok with ⟨⟨⟨rfl, rfl⟩, rfl⟩, rfl⟩
    rw [reason_eq_nil, not_ne_iff] at hn hrebuilt hnums hdens
    have hleaves := leafHashes_eq_ok hlh
    have hlh_ne : lh ≠ [] := by
      rw [hleaves]
      simpa [List.isEmpty_iff] using hne
    rw [merkleRoot, if_neg (by simpa [List.isEmpty_iff] using hlh_ne)] at hinner
    have htop := merkleRoot_go_eq_ok hlh_ne hinner
    rw [hleaves, ← map_top? .node (confidentialScheme sha3_256).digest (paired sha3_256)
      (fun _ _ => rfl), Option.map_eq_some_iff] at htop
    rcases htop with ⟨t, ht, rfl⟩
    refine ⟨t, ht, hn.symm, ?_, hnums.symm, hdens.symm⟩
    rw [← hrebuilt]
    exact h_eq_ok hroot

theorem collides_of_confidentialScheme {msgs : List Bytes}
    (hcol : Collides (confidentialScheme sha3_256).hash msgs) : Collides sha3_256 msgs := by
  rcases hcol with ⟨a, ha, b, hb, hne, heq⟩
  exact ⟨a, ha, b, hb, hne, Hex.ofBytes_inj heq⟩

/--
Everything that a root binds.
-/
structure SameContent (att att' : Confidential) : Prop where
  metricId_eq : att.metricId = att'.metricId
  asOf_eq : att.asOf = att'.asOf
  nRecords_eq : att.nRecords = att'.nRecords
  leaves_eq : att.leaves = att'.leaves
  cNumTotal_eq : att.cNumTotal = att'.cNumTotal
  cDenTotal_eq : att.cDenTotal = att'.cDenTotal

/--
What the root is the hash of.
-/
def Accepted.rootMsg {P : Nat} {att : Confidential} (a : Accepted sha3_256 P att) : Bytes :=
  encodeAll (boundText ((confidentialScheme sha3_256).digest a.tree) att.metricId att.asOf
    att.leaves.length)

theorem Accepted.queries_eq {P : Nat} {att : Confidential} (a : Accepted sha3_256 P att)
    : confidentialQueries sha3_256 att
        = (confidentialScheme sha3_256).msgs a.tree ++ [a.rootMsg] := by
  simp only [confidentialQueries, a.tree_eq]
  rfl

/--
One root has one tree, and the tree has the leaves, however many they are.
-/
theorem Accepted.sameContent {P : Nat} {att att' : Confidential} (a : Accepted sha3_256 P att)
    (a' : Accepted sha3_256 P att') (hroot : att.root = att'.root)
    : SameContent att att' ∨
        Collides sha3_256
          (confidentialQueries sha3_256 att ++ confidentialQueries sha3_256 att') := by
  rw [a.root_eq, a'.root_eq] at hroot
  rw [a.queries_eq, a'.queries_eq]
  rcases Collides.eq_or
    (List.mem_append_left _ (List.mem_append_right _ (List.mem_singleton_self a.rootMsg)))
    (List.mem_append_right _ (List.mem_append_right _ (List.mem_singleton_self a'.rootMsg))) hroot
    with htext | hcol
  . rcases boundText_inj (encodeAll_inj htext) with ⟨hdigest, hmetric, hasOf, hlen⟩
    rcases HashTree.Scheme.digest_inj _ _ _ hdigest with htree | hcol
    . have hzip : att.leaves.zipIdx = att'.leaves.zipIdx := by
        rw [← HashTree.leaves_of_top? a.tree_eq, htree, HashTree.leaves_of_top? a'.tree_eq]
      have hleaves : att.leaves = att'.leaves := by
        rw [← List.zipIdx_map_fst 0 att.leaves, hzip, List.zipIdx_map_fst]
      refine Or.inl ⟨hmetric, hasOf, ?_, hleaves, ?_, ?_⟩
      . rw [a.nRecords_eq, a'.nRecords_eq, hleaves]
      . rw [a.cNumTotal_eq, a'.cNumTotal_eq, hleaves]
      . rw [a.cDenTotal_eq, a'.cDenTotal_eq, hleaves]
    . refine Or.inr (collides_of_confidentialScheme (hcol.mono ?_))
      intro m hm
      simp only [List.mem_append] at hm ⊢
      tauto
  . exact Or.inr (collides_of_confidentialScheme hcol)

/-!
### Opened totals
-/

theorem openingReasons_eq_nil {P : Nat} {sha3_512 : HashFn 64} {att : Confidential}
    {opening : TotalOpening}
    : openingReasons interp P sha3_512 att opening = .ok [] ↔
        Pedersen.openCommit P sha3_512 (Pedersen.add P (att.leaves.map ConfidentialLeaf.cNum))
            opening.numTotal opening.rNumTotal = true ∧
          Pedersen.openCommit P sha3_512 (Pedersen.add P (att.leaves.map ConfidentialLeaf.cDen))
            opening.denTotal opening.rDenTotal = true ∧
          (att.numLeDen = true → opening.numTotal ≤ opening.denTotal) := by
  simp only [openingReasons, Except.bind_eq_ok, Except.pure_eq_ok, List.append_eq_nil_iff]
  constructor
  . rintro ⟨nums, hnums, dens, hdens, bounded, hbounded, ⟨rfl, rfl⟩, rfl⟩
    rw [reason_eq_nil, Bool.not_eq_true', Bool.not_eq_false] at hnums hdens
    rw [reason_eq_nil] at hbounded
    exact ⟨hnums, hdens, fun hle => Int.not_lt.mp fun hlt => hbounded ⟨hle, rfl, hlt⟩⟩
  . rintro ⟨hnums, hdens, hle⟩
    refine ⟨[], reason_eq_nil.mpr (by simp [hnums]), [], reason_eq_nil.mpr (by simp [hdens]), [],
      reason_eq_nil.mpr ?_, ⟨rfl, rfl⟩, rfl⟩
    rintro ⟨hbounded, _, hlt⟩
    exact absurd (hle hbounded) (Int.not_le.mpr hlt)

theorem opens_of_verifyTotalOpening {P : Nat} {sha3_512 : HashFn 64} {att : Confidential}
    {opening : TotalOpening} {result : TotalResult}
    (hresult : verifyTotalOpening interp sha3_256 P sha3_512 att opening = .ok result)
    (hok : result.ok = true)
    : Nonempty (Accepted sha3_256 P att) ∧
        openingReasons interp P sha3_512 att opening = .ok [] := by
  unfold verifyTotalOpening at hresult
  rcases Except.bind_eq_ok.mp hresult with ⟨vc, hvc, hresult⟩
  dsimp only at hresult
  split at hresult
  . rw [← Except.pure_eq_ok.mp hresult] at hok
    exact absurd hok (by simp)
  . next hgood =>
    refine ⟨accepted_of_verifyConfidential hvc (by simpa using hgood), ?_⟩
    rcases Except.bind_eq_ok.mp hresult with ⟨reasons, hreasons, hresult⟩
    have hempty : reasons = [] := by
      split at hresult
      . next hratio => exact List.isEmpty_iff.mp hratio.1
      . rw [← Except.pure_eq_ok.mp hresult] at hok
        exact List.isEmpty_iff.mp hok
    rw [hreasons, hempty]

/--
The part of an opening that is bound: the totals, modulo the order of the group.
-/
def SameTotals (P : Nat) (o o' : TotalOpening) : Prop :=
  o.numTotal ≡ o'.numTotal [ZMOD Pedersen.Q P] ∧ o.denTotal ≡ o'.denTotal [ZMOD Pedersen.Q P]

/--
The numerators, or the denominators, of two openings give the logarithm of `H` to base `G`.
-/
def GivesLog (P : Nat) (sha3_512 : HashFn 64) (o o' : TotalOpening) : Prop :=
  powMod Pedersen.G (Pedersen.discreteLog P o.numTotal o.rNumTotal o'.numTotal o'.rNumTotal) P
      = Pedersen.H P sha3_512 ∨
    powMod Pedersen.G (Pedersen.discreteLog P o.denTotal o.rDenTotal o'.denTotal o'.rDenTotal) P
      = Pedersen.H P sha3_512

/--
Accepted attestations with one root have the same content, and the totals that are accepted for one
root are the same modulo `Q`.
-/
theorem confidential_binding (interp : Interp) (P : Nat) (hP : P.Prime) (hQ : (Pedersen.Q P).Prime)
    (sha3_256 : HashFn 32) (sha3_512 : HashFn 64) (att att' : Confidential)
    (hroot : att.root = att'.root)
    : (∀ result result', verifyConfidential interp sha3_256 P att = .ok result → result.ok = true →
        verifyConfidential interp sha3_256 P att' = .ok result' → result'.ok = true →
        SameContent att att' ∨
          Collides sha3_256
            (confidentialQueries sha3_256 att ++ confidentialQueries sha3_256 att')) ∧
      (∀ o o' result result',
        verifyTotalOpening interp sha3_256 P sha3_512 att o = .ok result → result.ok = true →
        verifyTotalOpening interp sha3_256 P sha3_512 att' o' = .ok result' → result'.ok = true →
        SameTotals P o o' ∨ GivesLog P sha3_512 o o' ∨
          Collides sha3_256
            (confidentialQueries sha3_256 att ++ confidentialQueries sha3_256 att')) := by
  refine ⟨?_, ?_⟩
  . intro result result' hresult hok hresult' hok'
    rcases accepted_of_verifyConfidential hresult hok with ⟨a⟩
    rcases accepted_of_verifyConfidential hresult' hok' with ⟨a'⟩
    exact a.sameContent a' hroot
  . intro o o' result result' hresult hok hresult' hok'
    rcases opens_of_verifyTotalOpening hresult hok with ⟨⟨a⟩, hreasons⟩
    rcases opens_of_verifyTotalOpening hresult' hok' with ⟨⟨a'⟩, hreasons'⟩
    rcases openingReasons_eq_nil.mp hreasons with ⟨hnum, hden, _⟩
    rcases openingReasons_eq_nil.mp hreasons' with ⟨hnum', hden', _⟩
    rcases a.sameContent a' hroot with hsame | hcol
    . rw [← hsame.leaves_eq] at hnum' hden'
      rcases Pedersen.openCommit_binding hP hQ hnum hnum' with hnums | hlog
      . rcases Pedersen.openCommit_binding hP hQ hden hden' with hdens | hlog
        . exact Or.inl ⟨hnums, hdens⟩
        . exact Or.inr (Or.inl (Or.inr hlog))
      . exact Or.inr (Or.inl (Or.inl hlog))
    . exact Or.inr (Or.inr hcol)

end

/-!
Three leaves in a small group. The second attestation leaves the ratio of the totals unbounded, and
its totals are opened with other numbers of the same residues.
-/

def exampleConfidential : Confidential where
  metricId := txt "M"
  asOf := txt "t"
  nRecords := 3
  root := txt "16ae7da1990476db3747fd792a500bc599758a6b8e261f1a6f086c39e5cfd6aa"
  leaves := [⟨txt "a", 6, 18⟩, ⟨txt "b", 3, 13⟩, ⟨txt "c", 12, 12⟩]
  cNumTotal := 9
  cDenTotal := 2
  numLeDen := true

def exampleUnbounded : Confidential := { exampleConfidential with numLeDen := false }

theorem verifyConfidential_exampleConfidential (numLeDen : Bool)
    : verifyConfidential cpython sha3_256 23 { exampleConfidential with numLeDen }
        = .ok ⟨true, [], some 3⟩ := by
  show verifyConfidential cpython sha3_256 23 exampleConfidential = _
  decide +kernel

theorem confidential_binding_exampleConfidential
    : (SameContent exampleConfidential exampleUnbounded ∨
        Collides sha3_256 (confidentialQueries sha3_256 exampleConfidential ++
          confidentialQueries sha3_256 exampleUnbounded)) ∧
      (SameTotals 23 ⟨3, 7, 9, 7⟩ ⟨14, 7, 9, -4⟩ ∨
        GivesLog 23 sha3_512 ⟨3, 7, 9, 7⟩ ⟨14, 7, 9, -4⟩ ∨
        Collides sha3_256 (confidentialQueries sha3_256 exampleConfidential ++
          confidentialQueries sha3_256 exampleUnbounded)) := by
  have hbinding := confidential_binding cpython 23 (by norm_num)
    (by rw [show Pedersen.Q 23 = 11 from rfl]; norm_num) sha3_256 sha3_512 exampleConfidential
    exampleUnbounded rfl
  have hbounded := verifyConfidential_exampleConfidential true
  have hunbounded := verifyConfidential_exampleConfidential false
  refine ⟨?_, ?_⟩
  . exact hbinding.1 _ _ hbounded rfl hunbounded rfl
  . refine hbinding.2 ⟨3, 7, 9, 7⟩ ⟨14, 7, 9, -4⟩ ⟨true, [], some (Binary64.ofQuotient 3 7)⟩
      ⟨true, [], some (Binary64.ofQuotient 14 7)⟩ ?_ rfl ?_ rfl
    . rw [verifyTotalOpening, show verifyConfidential _ _ _ exampleConfidential = _ from hbounded]
      decide +kernel
    . rw [verifyTotalOpening, show verifyConfidential _ _ _ exampleUnbounded = _ from hunbounded]
      decide +kernel

end Cldma
end CryptoValid
