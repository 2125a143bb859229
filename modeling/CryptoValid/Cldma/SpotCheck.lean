import CryptoValid.Cldma.Completeness
import CryptoValid.Cldma.Confidential
import CryptoValid.Lib.HalfEven
import CryptoValid.Lib.Primality

/-!
This module contains the prover of `cldma_confidential.py` and the spot check of opened
contributions: what an honest prover publishes and opens is accepted, but for one check that knows
nothing of the metric.
-/

namespace CryptoValid
namespace Cldma

open PrimeOrder (powMod prime_of_lucas)
open Levels
open Python (Interp printable)

inductive BuildError where
  | attested (e : Error)
  | negative (i : Nat)
  | pedersen (e : Pedersen.Error)
  deriving DecidableEq

/--
What the prover keeps in order to open the totals and the contributions.
-/
structure Secret where
  nums : List Int
  dens : List Int
  rNums : List Int
  rDens : List Int

/--
What the prover has computed of a record.
-/
structure Contribution where
  leaf : ConfidentialLeaf
  hash : Str
  num : Int
  den : Int
  rNum : Int
  rDen : Int

structure OpenedLeaf where
  index : Int
  num : Int
  rNum : Int
  den : Int
  rDen : Int

/--
A report on no opened leaf at all has no count.
-/
structure ChallengedResult where
  ok : Bool
  reasons : List Str
  nChecked : Option Nat
  deriving DecidableEq

def maxSane : Int := 10 ^ 18

/--
A negative index counts from the end.
-/
def position? (length : Nat) (i : Int) : Option Nat :=
  if 0 ≤ i then some i.toNat
  else if 0 ≤ length + i then some (length + i).toNat
  else none

/--
`xs[i]`
-/
def item? {α : Type} (xs : List α) (i : Int) : Option α :=
  (position? xs.length i).bind fun n => xs[n]?

section

variable (interp : Interp) (sha3_256 : HashFn 32) (P : Nat) (sha3_512 : HashFn 64)

/--
The body of the loop in `build_confidential`. `urandom` has the random bytes of each call.
-/
def contribution (urandom : Nat → Bytes) (masterSalt : Str) (spec : MetricSpec)
    (numbered : Json × Nat) : Except BuildError Contribution := do
  let (rec, i) := numbered
  let num ← (spec.numOf rec).mapError .attested
  let den ← (spec.denOf rec).mapError .attested
  if num < 0 ∨ den < 0 then
    throw (.negative i)
  let salt ← (leafSalt sha3_256 masterSalt i).mapError .attested
  let recordCommit ← (do h sha3_256 (← commitText interp rec salt)).mapError .attested
  let (cNum, rNum) ← (Pedersen.commit P sha3_512 num
    (Pedersen.randScalar P (urandom (2 * i)))).mapError .pedersen
  let (cDen, rDen) ← (Pedersen.commit P sha3_512 den
    (Pedersen.randScalar P (urandom (2 * i + 1)))).mapError .pedersen
  let leaf : ConfidentialLeaf := { recordCommit, cNum, cDen }
  let hash ← (leafHash interp sha3_256 i leaf).mapError .attested
  return { leaf, hash, num, den, rNum, rDen }

/--
What is published, and what the prover keeps.
-/
def published (spec : MetricSpec) (asOf : Str) (n : Nat) (root : Str) (made : List Contribution)
    : Confidential × Secret :=
  let leaves := made.map Contribution.leaf
  ({ metricId := spec.metricId
     asOf
     nRecords := n
     root
     leaves
     cNumTotal := Pedersen.add P (leaves.map ConfidentialLeaf.cNum)
     cDenTotal := Pedersen.add P (leaves.map ConfidentialLeaf.cDen)
     numLeDen := spec.numLeDen },
   { nums := made.map Contribution.num
     dens := made.map Contribution.den
     rNums := made.map Contribution.rNum
     rDens := made.map Contribution.rDen })

def buildConfidential (urandom : Nat → Bytes) (records : List Json) (masterSalt : Str)
    (spec : MetricSpec) (asOf : Str) : Except BuildError (Confidential × Secret) := do
  let made ← records.zipIdx.mapM (contribution interp sha3_256 P sha3_512 urandom masterSalt spec)
  let inner ← (merkleRoot sha3_256 (made.map Contribution.hash)).mapError .attested
  let root ← (boundRoot sha3_256 inner spec.metricId asOf records.length).mapError .attested
  return published P spec asOf records.length root made

def openTotals (secret : Secret) : TotalOpening where
  numTotal := secret.nums.sum % Pedersen.Q P
  denTotal := secret.dens.sum % Pedersen.Q P
  rNumTotal := secret.rNums.sum % Pedersen.Q P
  rDenTotal := secret.rDens.sum % Pedersen.Q P

/--
It raises `IndexError` for an index that is out of range.
-/
def openChallenged (secret : Secret) (indices : List Int) : Except Error (List OpenedLeaf) :=
  indices.mapM fun i =>
    match item? secret.nums i, item? secret.rNums i, item? secret.dens i, item? secret.rDens i with
    | some num, some rNum, some den, some rDen => .ok { index := i, num, rNum, den, rDen }
    | _, _, _, _ => .error .index

/--
The body of the loop in `verify_challenged`.
-/
def challengedReasons (att : Confidential) (o : OpenedLeaf) : Except Error (List Str) :=
  match item? att.leaves o.index with
  | none => .error .index
  | some leaf => do
    let nums ← reason (!Pedersen.openCommit P sha3_512 leaf.cNum o.num o.rNum) do
      return txt "foglia " ++ Json.intText o.index ++ txt ": c_num non apre al valore dichiarato"
    let dens ← reason (!Pedersen.openCommit P sha3_512 leaf.cDen o.den o.rDen) do
      return txt "foglia " ++ Json.intText o.index ++ txt ": c_den non apre al valore dichiarato"
    let range ← reason (¬(0 ≤ o.num ∧ o.num ≤ o.den ∧ o.den ≤ maxSane)) do
      return txt "foglia " ++ Json.intText o.index ++ txt ": FUORI RANGE (num=" ++
        (← str interp o.num) ++ txt ", den=" ++ (← str interp o.den) ++
        txt ") -> contributo negativo/overflow (attacco -k) o valore assurdo"
    return nums ++ dens ++ range

def verifyChallenged (att : Confidential) (opened : List OpenedLeaf)
    : Except Error ChallengedResult := do
  if opened.isEmpty then
    return {
      ok := false
      reasons := [txt "nessuna foglia aperta (challenge vuoto) = assurance nulla"]
      nChecked := none }
  let reasons := (← opened.mapM (challengedReasons interp P sha3_512 att)).flatten
  return { ok := reasons.isEmpty, reasons, nChecked := some opened.length }

end

/-!
### The tree of an honest prover
-/

theorem exists_leafHash (interp : Interp) (sha3_256 : HashFn 32) (i : Nat) (l : ConfidentialLeaf)
    (hcommit : Str.Scalar l.recordCommit) (hnum : printable interp l.cNum = true)
    (hden : printable interp l.cDen = true) : ∃ hash, leafHash interp sha3_256 i l = .ok hash := by
  have htext : Str.Scalar (encConfidentialLeaf i l) := by
    have htag : Str.Scalar (txt "CL") := by decide
    simp [encConfidentialLeaf, scalar_enc, scalar_natText, scalar_intText, htag, hcommit]
  rw [leafHash, confidentialLeafText_eq_ok.mpr ⟨hnum, hden, rfl⟩, Except.ok_bind]
  exact (exists_h sha3_256).mpr htext

/--
A commitment is a residue, which is printed where the modulus is.
-/
theorem exists_committed {interp : Interp} {P : Nat} (sha3_512 : HashFn 64)
    (hmodulus : printable interp P = true) {value : Int} (hvalue : 0 ≤ value)
    (hlt : value < Pedersen.Q P) (r : Int)
    : ∃ C, Pedersen.commit P sha3_512 value r = .ok (C, r) ∧ printable interp C = true := by
  refine ⟨_, if_pos ⟨hvalue, hlt⟩, printable_mono (Int.natCast_nonneg _) ?_ hmodulus⟩
  have hpos : 0 < P := by
    unfold Pedersen.Q at hlt
    omega
  exact_mod_cast (Nat.mod_lt _ hpos).le

theorem exists_nextHashes (sha3_256 : HashFn 32) (cur : List Str) (hcur : ∀ x ∈ cur, Str.Scalar x)
    : ∃ nxt, nextHashes sha3_256 cur = .ok nxt ∧ ∀ x ∈ nxt, Str.Scalar x := by
  fun_induction nextHashes sha3_256 cur with
  | case1 l r rest ih =>
    simp only [List.forall_mem_cons] at hcur
    have htext : Str.Scalar (confidentialNodeText l r) := by
      have htag : Str.Scalar (txt "N") := by decide
      simp [confidentialNodeText, scalar_enc, htag, hcur.1, hcur.2.1]
    rcases (exists_h sha3_256).mpr htext with ⟨node, hnode⟩
    rcases ih hcur.2.2 with ⟨above, habove, hscalar⟩
    rw [hnode, Except.ok_bind, habove]
    exact ⟨_, rfl, List.forall_mem_cons.mpr ⟨scalar_of_h sha3_256 hnode, hscalar⟩⟩
  | case2 rest hrest => exact ⟨rest, rfl, hcur⟩

theorem exists_merkleRoot (sha3_256 : HashFn 32) {leafHashes : List Str} (hne : leafHashes ≠ [])
    (hscalar : ∀ x ∈ leafHashes, Str.Scalar x)
    : ∃ inner, merkleRoot sha3_256 leafHashes = .ok inner ∧ Str.Scalar inner := by
  rw [merkleRoot, if_neg (by simpa [List.isEmpty_iff] using hne)]
  fun_induction merkleRoot.go sha3_256 leafHashes with
  | case1 cur hlen e he =>
    rcases exists_nextHashes sha3_256 cur hscalar with ⟨nxt, hnxt, _⟩
    rw [hnxt] at he
    cases he
  | case2 cur hlen nxt hnxt ih =>
    rcases exists_nextHashes sha3_256 cur hscalar with ⟨nxt', hnxt', hscalar'⟩
    rw [hnxt, Except.ok.injEq] at hnxt'
    refine ih ?_ (hnxt' ▸ hscalar')
    rintro rfl
    have hlen' := nextHashes_length sha3_256 hnxt
    simp only [List.length_nil] at hlen'
    omega
  | case3 cur hlen =>
    rcases cur with _ | ⟨x, rest⟩
    . exact absurd rfl hne
    . exact ⟨x, rfl, hscalar x List.mem_cons_self⟩

theorem exists_boundRoot (sha3_256 : HashFn 32) {innerRoot metricId asOf : Str} {n : Nat}
    (hinner : Str.Scalar innerRoot)
    : (∃ root, boundRoot sha3_256 innerRoot metricId asOf n = .ok root) ↔
        Str.Scalar metricId ∧ Str.Scalar asOf := by
  have htag : Str.Scalar (txt "CLDMA-CONF-1") := by decide
  rw [boundRoot, exists_h]
  simp [boundText, scalar_enc, scalar_natText, htag, hinner]

/--
The contribution that the metric makes of a record: integers in the range, and where the metric is a
share the numerator is at most the denominator.
-/
structure Contributes (spec : MetricSpec) (record : Json) (c : Int × Int) : Prop where
  num_eq : spec.numOf record = .ok c.1
  den_eq : spec.denOf record = .ok c.2
  num_nonneg : 0 ≤ c.1
  num_le : c.1 ≤ maxSane
  den_nonneg : 0 ≤ c.2
  den_le : c.2 ≤ maxSane
  num_le_den : spec.numLeDen = true → c.1 ≤ c.2

section

variable {interp : Interp} {sha3_256 : HashFn 32} {P : Nat} {sha3_512 : HashFn 64}
variable {urandom : Nat → Bytes}
variable {records : List Json} {masterSalt : Str} {spec : MetricSpec} {asOf : Str}

/--
What a pass of the loop leaves behind.
-/
structure Made (interp : Interp) (sha3_256 : HashFn 32) (P : Nat) (sha3_512 : HashFn 64) (i : Nat)
    (c : Int × Int) (made : Contribution) : Prop where
  num_eq : made.num = c.1
  den_eq : made.den = c.2
  hash_eq : leafHash interp sha3_256 i made.leaf = .ok made.hash
  openNum : Pedersen.openCommit P sha3_512 made.leaf.cNum made.num made.rNum = true
  openDen : Pedersen.openCommit P sha3_512 made.leaf.cDen made.den made.rDen = true

theorem contribution_eq_ok {record : Json} {c : Int × Int} (hc : Contributes spec record c)
    {i : Nat}
    {made : Contribution}
    : contribution interp sha3_256 P sha3_512 urandom masterSalt spec (record, i) = .ok made ↔
        ∃ salt recordCommit num den hash, leafSalt sha3_256 masterSalt i = .ok salt ∧
          (commitText interp record salt >>= h sha3_256) = .ok recordCommit ∧
          Pedersen.commit P sha3_512 c.1 (Pedersen.randScalar P (urandom (2 * i))) = .ok num ∧
          Pedersen.commit P sha3_512 c.2 (Pedersen.randScalar P (urandom (2 * i + 1))) = .ok den ∧
          leafHash interp sha3_256 i ⟨recordCommit, num.1, den.1⟩ = .ok hash ∧
          ⟨⟨recordCommit, num.1, den.1⟩, hash, c.1, c.2, num.2, den.2⟩ = made := by
  have hnonneg : ¬(c.1 < 0 ∨ c.2 < 0) :=
    not_or.mpr ⟨Int.not_lt.mpr hc.num_nonneg, Int.not_lt.mpr hc.den_nonneg⟩
  unfold contribution
  dsimp only
  rw [hc.num_eq, hc.den_eq]
  simp only [Except.mapError_ok, Except.ok_bind, if_neg hnonneg, Except.bind_eq_ok,
    Except.mapError_eq_ok, Except.pure_eq_ok]
  constructor
  . rintro ⟨salt, hsalt, recordCommit, hcommit, num, hnum, den, hden, hash, hhash, hmade⟩
    exact ⟨salt, recordCommit, num, den, hash, hsalt, hcommit, hnum, hden, hhash, hmade⟩
  . rintro ⟨salt, recordCommit, num, den, hash, hsalt, hcommit, hnum, hden, hhash, hmade⟩
    exact ⟨salt, hsalt, recordCommit, hcommit, num, hnum, den, hden, hash, hhash, hmade⟩

/--
A pass raises nothing where the record can be written and encoded and the salt can be encoded.
-/
theorem exists_contribution (hsane : maxSane < Pedersen.Q P) (hmodulus : printable interp P = true)
    {record : Json} {c : Int × Int} (hc : Contributes spec record c) (i : Nat)
    : (∃ made,
        contribution interp sha3_256 P sha3_512 urandom masterSalt spec (record, i) = .ok made) ↔
        (Writable interp record ∧ Str.Scalar (recordText record)) ∧ Str.Scalar masterSalt := by
  simp only [contribution_eq_ok hc]
  constructor
  . rintro ⟨_, salt, recordCommit, _, _, _, hsalt, hcommit, _⟩
    exact ⟨(exists_commit sha3_256 (scalar_of_h sha3_256 hsalt)).mp ⟨recordCommit, hcommit⟩,
      (exists_leafSalt sha3_256).mp ⟨salt, hsalt⟩⟩
  . rintro ⟨hrecord, hmasterSalt⟩
    rcases (exists_leafSalt sha3_256).mpr hmasterSalt with ⟨salt, hsalt⟩
    rcases (exists_commit sha3_256 (scalar_of_h sha3_256 hsalt)).mpr hrecord
      with ⟨recordCommit, hcommit⟩
    rcases exists_committed sha3_512 hmodulus hc.num_nonneg (Int.lt_of_le_of_lt hc.num_le hsane)
      (Pedersen.randScalar P (urandom (2 * i))) with ⟨cNum, hnum, hnumText⟩
    rcases exists_committed sha3_512 hmodulus hc.den_nonneg (Int.lt_of_le_of_lt hc.den_le hsane)
      (Pedersen.randScalar P (urandom (2 * i + 1))) with ⟨cDen, hden, hdenText⟩
    have hscalar : Str.Scalar recordCommit := by
      rcases Except.bind_eq_ok.mp hcommit with ⟨text, _, hcommit⟩
      exact scalar_of_h sha3_256 hcommit
    rcases exists_leafHash interp sha3_256 i ⟨recordCommit, cNum, cDen⟩ hscalar hnumText hdenText
      with ⟨hash, hhash⟩
    exact ⟨_, salt, recordCommit, _, _, hash, hsalt, hcommit, hnum, hden, hhash, rfl⟩

theorem made_of_contribution {record : Json} {c : Int × Int} (hc : Contributes spec record c)
    {i : Nat} {made : Contribution}
    (hmade : contribution interp sha3_256 P sha3_512 urandom masterSalt spec (record, i) = .ok made)
    : Made interp sha3_256 P sha3_512 i c made := by
  rcases (contribution_eq_ok hc).mp hmade
    with ⟨salt, recordCommit, num, den, hash, _, _, hnum, hden, hhash, rfl⟩
  exact ⟨rfl, rfl, hhash, (Pedersen.openCommit_of_commit hnum).2,
    (Pedersen.openCommit_of_commit hden).2⟩

/--
An attestation and its secrets, as they are made in the passes of the loop.
-/
structure Honest (interp : Interp) (sha3_256 : HashFn 32) (P : Nat) (sha3_512 : HashFn 64)
    (spec : MetricSpec) (asOf : Str) (contributions : List (Int × Int)) (root : Str)
    (made : List Contribution) : Prop where
  made_spec : List.Forall₂ (fun (numbered : (Int × Int) × Nat) made =>
    Made interp sha3_256 P sha3_512 numbered.2 numbered.1 made) contributions.zipIdx made
  root_eq : ∃ inner, merkleRoot sha3_256 (made.map Contribution.hash) = .ok inner ∧
    boundRoot sha3_256 inner spec.metricId asOf contributions.length = .ok root

theorem made_of_mapM {numbered : List (Json × Nat)} {cs : List ((Int × Int) × Nat)}
    (hcs : List.Forall₂ (fun (x : Json × Nat) (y : (Int × Int) × Nat) =>
      Contributes spec x.1 y.1 ∧ y.2 = x.2) numbered cs) {made : List Contribution}
    (hmade : List.Forall₂ (fun x y =>
      contribution interp sha3_256 P sha3_512 urandom masterSalt spec x = .ok y) numbered made)
    : List.Forall₂
        (fun (c : (Int × Int) × Nat) made => Made interp sha3_256 P sha3_512 c.2 c.1 made)
        cs made := by
  induction hcs generalizing made with
  | nil =>
    cases hmade
    exact List.Forall₂.nil
  | cons hc _ ih =>
    rcases hmade with _ | ⟨hhead, htail⟩
    refine List.Forall₂.cons ?_ (ih htail)
    rw [hc.2]
    exact made_of_contribution hc.1 hhead

theorem honest_of_build {contributions : List (Int × Int)}
    (hcs : List.Forall₂ (Contributes spec) records contributions) {att : Confidential}
    {secret : Secret} (hbuild : buildConfidential interp sha3_256 P sha3_512 urandom records
      masterSalt spec asOf = .ok (att, secret))
    : ∃ root made, (att, secret) = published P spec asOf contributions.length root made ∧
        Honest interp sha3_256 P sha3_512 spec asOf contributions root made := by
  rcases Except.bind_eq_ok.mp hbuild with ⟨made, hmade, hbuild⟩
  rcases Except.bind_eq_ok.mp hbuild with ⟨inner, hinner, hbuild⟩
  rcases Except.bind_eq_ok.mp hbuild with ⟨root, hroot, hbuild⟩
  rw [Except.mapError_eq_ok] at hinner hroot
  rw [hcs.length_eq] at hroot hbuild
  exact ⟨root, made, (Except.pure_eq_ok.mp hbuild).symm,
    made_of_mapM (List.forall₂_zipIdx hcs 0) (Except.mapM_eq_ok.mp hmade), inner, hinner, hroot⟩

theorem exists_contributions (hsane : maxSane < Pedersen.Q P)
    (hmodulus : printable interp P = true) {contributions : List (Int × Int)} (hne : records ≠ [])
    (hcs : List.Forall₂ (Contributes spec) records contributions)
    : (∃ made, records.zipIdx.mapM (contribution interp sha3_256 P sha3_512 urandom masterSalt spec)
          = .ok made) ↔
        (∀ rec ∈ records, Writable interp rec ∧ Str.Scalar (recordText rec)) ∧
          Str.Scalar masterSalt := by
  have hpass : ∀ x ∈ records.zipIdx,
      (∃ made, contribution interp sha3_256 P sha3_512 urandom masterSalt spec x = .ok made) ↔
        (Writable interp x.1 ∧ Str.Scalar (recordText x.1)) ∧ Str.Scalar masterSalt := by
    intro x hx
    rcases List.exists_of_mem_left (List.forall₂_zipIdx hcs 0) hx with ⟨c, _, hc, _⟩
    exact exists_contribution hsane hmodulus hc x.2
  rw [Except.exists_mapM_eq_ok]
  constructor
  . intro hall
    have hrecords : ∀ rec ∈ records,
        (Writable interp rec ∧ Str.Scalar (recordText rec)) ∧ Str.Scalar masterSalt := by
      intro rec hrec
      rcases List.mem_iff_getElem?.mp hrec with ⟨i, hi⟩
      have hmem : (rec, i) ∈ records.zipIdx := List.mk_mem_zipIdx_iff_getElem?.mpr hi
      exact (hpass _ hmem).mp (hall _ hmem)
    rcases List.exists_mem_of_ne_nil records hne with ⟨rec, hrec⟩
    exact ⟨fun rec hrec => (hrecords rec hrec).1, (hrecords rec hrec).2⟩
  . rintro ⟨hrecords, hmasterSalt⟩ x hx
    exact (hpass x hx).mpr ⟨hrecords x.1 (List.fst_mem_of_mem_zipIdx hx), hmasterSalt⟩

theorem exists_inner {contributions : List (Int × Int)} (hne : records ≠ [])
    (hcs : List.Forall₂ (Contributes spec) records contributions) {made : List Contribution}
    (hmade : records.zipIdx.mapM (contribution interp sha3_256 P sha3_512 urandom masterSalt spec)
      = .ok made)
    : ∃ inner, merkleRoot sha3_256 (made.map Contribution.hash) = .ok inner ∧ Str.Scalar inner := by
  have hmade := Except.mapM_eq_ok.mp hmade
  refine exists_merkleRoot sha3_256 ?_ ?_
  . rw [ne_eq, List.map_eq_nil_iff, ← List.length_eq_zero_iff, ← hmade.length_eq,
      List.length_zipIdx, List.length_eq_zero_iff]
    exact hne
  . intro hash hhash
    rcases List.mem_map.mp hhash with ⟨m, hm, rfl⟩
    rcases List.exists_of_mem_right (made_of_mapM (List.forall₂_zipIdx hcs 0) hmade) hm
      with ⟨_, _, hm⟩
    rcases Except.bind_eq_ok.mp hm.hash_eq with ⟨text, _, hhash⟩
    exact scalar_of_h sha3_256 hhash

/--
The build returns exactly if what is hashed can be written and encoded.
-/
theorem exists_buildConfidential (hsane : maxSane < Pedersen.Q P)
    (hmodulus : printable interp P = true) {contributions : List (Int × Int)} (hne : records ≠ [])
    (hcs : List.Forall₂ (Contributes spec) records contributions)
    : (∃ att secret, buildConfidential interp sha3_256 P sha3_512 urandom records masterSalt spec
        asOf = .ok (att, secret)) ↔ Encodable interp records masterSalt spec asOf := by
  have hpasses : (∃ made, records.zipIdx.mapM (contribution interp sha3_256 P sha3_512 urandom
      masterSalt spec) = .ok made) ↔ _ := exists_contributions hsane hmodulus hne hcs
  constructor
  . rintro ⟨att, secret, hbuild⟩
    rcases Except.bind_eq_ok.mp hbuild with ⟨made, hmade, hbuild⟩
    rcases Except.bind_eq_ok.mp hbuild with ⟨inner, hinner, hbuild⟩
    rcases Except.bind_eq_ok.mp hbuild with ⟨root, hroot, hbuild⟩
    rcases exists_inner hne hcs hmade with ⟨inner', hinner', hscalar⟩
    rw [Except.mapError_eq_ok] at hinner hroot
    rw [hinner, Except.ok.injEq] at hinner'
    rcases hpasses.mp ⟨made, hmade⟩ with ⟨hrecords, hmasterSalt⟩
    exact ⟨hrecords, hmasterSalt, (exists_boundRoot sha3_256 (hinner' ▸ hscalar)).mp ⟨root, hroot⟩⟩
  . rintro ⟨hrecords, hmasterSalt, hmetricId, hasOf⟩
    rcases hpasses.mpr ⟨hrecords, hmasterSalt⟩ with ⟨made, hmade⟩
    rcases exists_inner hne hcs hmade with ⟨inner, hinner, hscalar⟩
    rcases (exists_boundRoot sha3_256 hscalar).mpr ⟨hmetricId, hasOf⟩ with ⟨root, hroot⟩
    rw [buildConfidential, hmade, Except.ok_bind, hinner, Except.mapError_ok, Except.ok_bind, hroot,
      Except.mapError_ok, Except.ok_bind]
    exact ⟨_, _, rfl⟩

/-!
### What is accepted
-/

theorem leafHashes_of_made {cs : List (Int × Int)} {made : List Contribution} {k : Nat}
    (hmade : List.Forall₂ (fun (numbered : (Int × Int) × Nat) made =>
      Made interp sha3_256 P sha3_512 numbered.2 numbered.1 made) (cs.zipIdx k) made)
    : ((made.map Contribution.leaf).zipIdx k).mapM (fun (l, i) => leafHash interp sha3_256 i l)
        = .ok (made.map Contribution.hash) := by
  induction cs generalizing k made with
  | nil =>
    cases hmade
    rfl
  | cons c cs ih =>
    rw [List.zipIdx_cons, List.forall₂_cons_left_iff] at hmade
    rcases hmade with ⟨m, rest, hm, hrest, rfl⟩
    have hhead : leafHash interp sha3_256 k m.leaf = .ok m.hash := hm.hash_eq
    simp only [List.map_cons, List.zipIdx_cons, List.mapM_cons, hhead, Except.ok_bind, ih hrest]
    rfl

variable {contributions : List (Int × Int)} {root : Str} {made : List Contribution}

theorem Honest.length_eq (h : Honest interp sha3_256 P sha3_512 spec asOf contributions root made)
    : made.length = contributions.length := by
  rw [← h.made_spec.length_eq, List.length_zipIdx]

theorem verifyConfidential_published
    (h : Honest interp sha3_256 P sha3_512 spec asOf contributions root made)
    (hne : contributions ≠ [])
    : verifyConfidential interp sha3_256 P (published P spec asOf contributions.length root made).1
        = .ok ⟨true, [], some contributions.length⟩ := by
  have hlen := h.length_eq
  have hleaves : (made.map Contribution.leaf).isEmpty = false := by
    rw [List.isEmpty_map, List.isEmpty_eq_false_iff, ne_eq, ← List.length_eq_zero_iff, hlen,
      List.length_eq_zero_iff]
    exact hne
  rcases h.root_eq with ⟨inner, hinner, hroot⟩
  rw [← hlen] at hroot ⊢
  simp only [verifyConfidential, published, hleaves, Bool.false_eq_true, ↓reduceIte,
    leafHashes_of_made h.made_spec, Except.ok_bind, hinner, List.length_map, hroot, ne_eq,
    not_true_eq_false, not_false_eq_true, reason_of_not, List.append_nil, List.isEmpty_nil]
  rfl

theorem forall₂_openCommit {cs : List ((Int × Int) × Nat)} (hmade : List.Forall₂
      (fun (numbered : (Int × Int) × Nat) made =>
        Made interp sha3_256 P sha3_512 numbered.2 numbered.1 made) cs made)
    : List.Forall₂ (fun C (o : Int × Int) => Pedersen.openCommit P sha3_512 C o.1 o.2 = true)
          ((made.map Contribution.leaf).map ConfidentialLeaf.cNum)
          (made.map fun m => (m.num, m.rNum)) ∧
        List.Forall₂ (fun C (o : Int × Int) => Pedersen.openCommit P sha3_512 C o.1 o.2 = true)
          ((made.map Contribution.leaf).map ConfidentialLeaf.cDen)
          (made.map fun m => (m.den, m.rDen)) ∧
        made.map Contribution.num = cs.map (fun c => c.1.1) ∧
        made.map Contribution.den = cs.map (fun c => c.1.2) := by
  induction hmade with
  | nil => simp
  | cons hm _ ih =>
    simp only [List.map_cons]
    rcases ih with ⟨hnums, hdens, hnum, hden⟩
    refine ⟨List.Forall₂.cons hm.openNum hnums, List.Forall₂.cons hm.openDen hdens, ?_, ?_⟩
    . rw [hm.num_eq, hnum]
    . rw [hm.den_eq, hden]

/--
The totals do not wrap into an impossible ratio, and the ratio is a finite double.
-/
def TotalsFit (P : Nat) (spec : MetricSpec) (contributions : List (Int × Int)) : Prop :=
  let num := (contributions.map Prod.fst).sum % Pedersen.Q P
  let den := (contributions.map Prod.snd).sum % Pedersen.Q P
  (spec.numLeDen = true → num ≤ den) ∧
    (den ≠ 0 → (Binary64.ofQuotient num den).isInfinite = false)

theorem nums_of_honest (h : Honest interp sha3_256 P sha3_512 spec asOf contributions root made)
    : made.map Contribution.num = contributions.map Prod.fst ∧
        made.map Contribution.den = contributions.map Prod.snd := by
  rcases forall₂_openCommit h.made_spec with ⟨_, _, hnum, hden⟩
  have hfst := List.zipIdx_map_fst 0 contributions
  constructor
  . rw [hnum, ← hfst, List.map_map]
    simp
  . rw [hden, ← hfst, List.map_map]
    simp

theorem openingReasons_published (hP : P.Prime) (hQ : (Pedersen.Q P).Prime)
    (h : Honest interp sha3_256 P sha3_512 spec asOf contributions root made) (n : Nat)
    : openingReasons interp P sha3_512 (published P spec asOf n root made).1
        (openTotals P (published P spec asOf n root made).2) = .ok [] ↔
        (spec.numLeDen = true → (contributions.map Prod.fst).sum % Pedersen.Q P
          ≤ (contributions.map Prod.snd).sum % Pedersen.Q P) := by
  rcases forall₂_openCommit h.made_spec with ⟨hnums, hdens, _, _⟩
  rcases nums_of_honest h with ⟨hnum, hden⟩
  have hopenNum := Pedersen.openCommit_add hP hQ hnums
  have hopenDen := Pedersen.openCommit_add hP hQ hdens
  rw [← Pedersen.openCommit_emod, List.map_map (g := Prod.fst), List.map_map (g := Prod.snd)]
    at hopenNum hopenDen
  simp only [Function.comp_def] at hopenNum hopenDen
  rw [← hnum, ← hden]
  rw [openingReasons_eq_nil]
  exact ⟨fun hopened => hopened.2.2, fun hle => ⟨hopenNum, hopenDen, hle⟩⟩

/--
The ratio is computed for totals that are accepted, and the quotient of two integers may overflow.
-/
theorem verifyTotalOpening_ok_iff {att : Confidential} {opening : TotalOpening} {n : Option Nat}
    (hvc : verifyConfidential interp sha3_256 P att = .ok ⟨true, [], n⟩)
    : (∃ result, verifyTotalOpening interp sha3_256 P sha3_512 att opening = .ok result ∧
          result.ok = true) ↔
        openingReasons interp P sha3_512 att opening = .ok [] ∧
          (opening.denTotal ≠ 0 →
            (Binary64.ofQuotient opening.numTotal opening.denTotal).isInfinite = false) := by
  rw [verifyTotalOpening, hvc]
  simp only [Except.ok_bind, Bool.not_true, Bool.false_eq_true, ↓reduceIte]
  cases hreasons : openingReasons interp P sha3_512 att opening with
  | error e => simp [Except.error_bind]
  | ok reasons =>
    rw [Except.ok_bind, Except.ok.injEq, ← List.isEmpty_iff]
    by_cases hratio : reasons.isEmpty = true ∧ opening.denTotal ≠ 0
    . rw [if_pos hratio]
      cases hinf : (Binary64.ofQuotient opening.numTotal opening.denTotal).isInfinite with
      | true =>
        rw [if_pos rfl]
        constructor
        . rintro ⟨result, hraise, _⟩
          cases hraise
        . rintro ⟨_, hfinite⟩
          exact absurd (hfinite hratio.2) (by simp)
      | false =>
        rw [if_neg Bool.false_ne_true]
        exact ⟨fun _ => ⟨hratio.1, fun _ => rfl⟩, fun _ => ⟨_, rfl, hratio.1⟩⟩
    . rw [if_neg hratio]
      constructor
      . rintro ⟨result, hresult, hok⟩
        rw [← Except.pure_eq_ok.mp hresult] at hok
        exact ⟨hok, fun hden => absurd ⟨hok, hden⟩ hratio⟩
      . rintro ⟨hempty, _⟩
        exact ⟨_, rfl, hempty⟩

theorem verifyTotalOpening_published (hP : P.Prime) (hQ : (Pedersen.Q P).Prime)
    (h : Honest interp sha3_256 P sha3_512 spec asOf contributions root made)
    (hne : contributions ≠ [])
    : (∃ result, verifyTotalOpening interp sha3_256 P sha3_512
          (published P spec asOf contributions.length root made).1
          (openTotals P (published P spec asOf contributions.length root made).2) = .ok result ∧
        result.ok = true) ↔ TotalsFit P spec contributions := by
  rcases nums_of_honest h with ⟨hnum, hden⟩
  rw [verifyTotalOpening_ok_iff (verifyConfidential_published h hne),
    openingReasons_published hP hQ h, TotalsFit, ← hnum, ← hden]
  rfl

/-!
### Opened contributions
-/

theorem item?_map {α β : Type} (f : α → β) (xs : List α) (i : Int)
    : item? (xs.map f) i = (item? xs i).map f := by
  rw [item?, item?, List.length_map]
  cases position? xs.length i with
  | none => rfl
  | some n => exact List.getElem?_map

theorem position?_of_bounds {length : Nat} {i : Int} (hlo : -(length : Int) ≤ i) (hhi : i < length)
    : ∃ n < length, position? length i = some n := by
  unfold position?
  split
  . exact ⟨i.toNat, by omega, rfl⟩
  . rw [if_pos (by omega)]
    exact ⟨_, by omega, rfl⟩

/--
A contribution and the pass that has made it have the same index.
-/
theorem made_of_index (h : Honest interp sha3_256 P sha3_512 spec asOf contributions root made)
    {i : Int}
    (hlo : -(contributions.length : Int) ≤ i) (hhi : i < contributions.length)
    : ∃ c m n, item? contributions i = some c ∧ item? made i = some m ∧
        c ∈ contributions ∧ Made interp sha3_256 P sha3_512 n c m := by
  have hlen := h.length_eq
  rcases position?_of_bounds hlo hhi with ⟨n, hn, hposition⟩
  have hposition' : position? made.length i = some n := by
    rw [hlen]
    exact hposition
  have hget := h.made_spec.get (by simpa using hn) (hlen ▸ hn)
  rw [List.get_eq_getElem, List.get_eq_getElem, List.getElem_zipIdx] at hget
  refine ⟨contributions[n], made[n], _, ?_, ?_, List.getElem_mem hn, hget⟩
  . rw [item?, hposition]
    exact List.getElem?_eq_getElem hn
  . rw [item?, hposition']
    exact List.getElem?_eq_getElem (hlen ▸ hn)

theorem openChallenged_published
    (h : Honest interp sha3_256 P sha3_512 spec asOf contributions root made) (n : Nat)
    {indices : List Int} (hindices : ∀ i ∈ indices,
      -(contributions.length : Int) ≤ i ∧ i < contributions.length)
    : ∃ opened, openChallenged (published P spec asOf n root made).2 indices = .ok opened ∧
        List.Forall₂ (fun i o => ∃ c m k, item? contributions i = some c ∧ item? made i = some m ∧
          c ∈ contributions ∧ Made interp sha3_256 P sha3_512 k c m ∧
          o = { index := i, num := m.num, rNum := m.rNum, den := m.den, rDen := m.rDen })
          indices opened := by
  induction indices with
  | nil => exact ⟨[], rfl, List.Forall₂.nil⟩
  | cons i indices ih =>
    rw [List.forall_mem_cons] at hindices
    rcases ih hindices.2 with ⟨opened, hopened, hall⟩
    rcases made_of_index h hindices.1.1 hindices.1.2 with ⟨c, m, k, hc, hm, hmem, hmade⟩
    refine ⟨_, ?_, List.Forall₂.cons ⟨c, m, k, hc, hm, hmem, hmade, rfl⟩ hall⟩
    unfold openChallenged at hopened ⊢
    rw [List.mapM_cons, hopened]
    simp only [published, item?_map, hm, Option.map_some]
    rfl

theorem challengedReasons_published (asOf root : Str) (n : Nat) {i : Int} {m : Contribution}
    {c : Int × Int} {record : Json} {k : Nat} (hm : item? made i = some m)
    (hmade : Made interp sha3_256 P sha3_512 k c m) (hc : Contributes spec record c)
    : challengedReasons interp P sha3_512 (published P spec asOf n root made).1
        { index := i, num := m.num, rNum := m.rNum, den := m.den, rDen := m.rDen } = .ok [] ↔
        c.1 ≤ c.2 := by
  have hleaf : item? (published P spec asOf n root made).1.leaves i = some m.leaf := by
    rw [published, item?_map, hm, Option.map_some]
  unfold challengedReasons
  simp only [hleaf, hmade.openNum, hmade.openDen, Bool.not_true, Bool.false_eq_true,
    not_false_eq_true, reason_of_not, Except.ok_bind, Except.bind_eq_ok, Except.pure_eq_ok, List.nil_append]
  rw [hmade.num_eq, hmade.den_eq]
  constructor
  . rintro ⟨range, hrange, rfl⟩
    exact (not_not.mp (reason_eq_nil.mp hrange)).2.1
  . intro hle
    exact ⟨[], reason_eq_nil.mpr (not_not.mpr ⟨hc.num_nonneg, hle, hc.den_le⟩), rfl⟩

theorem verifyChallenged_published
    (h : Honest interp sha3_256 P sha3_512 spec asOf contributions root made)
    (hcs : List.Forall₂ (Contributes spec) records contributions) (n : Nat) {indices : List Int}
    (hne : indices ≠ []) (hindices : ∀ i ∈ indices,
      -(contributions.length : Int) ≤ i ∧ i < contributions.length)
    : (∃ opened result,
        openChallenged (published P spec asOf n root made).2 indices = .ok opened ∧
        verifyChallenged interp P sha3_512 (published P spec asOf n root made).1 opened
          = .ok result ∧ result.ok = true) ↔
        ∀ i ∈ indices, ∀ c, item? contributions i = some c → c.1 ≤ c.2 := by
  rcases openChallenged_published h n hindices with ⟨opened, hopened, hall⟩
  have hpassed : (∀ o ∈ opened,
      challengedReasons interp P sha3_512 (published P spec asOf n root made).1 o = .ok []) ↔
      ∀ i ∈ indices, ∀ c, item? contributions i = some c → c.1 ≤ c.2 := by
    clear hopened hindices hne
    induction hall with
    | nil => simp
    | @cons i o indices opened hhead _ ih =>
      rcases hhead with ⟨c, m, k, hc, hm, hmem, hmade, rfl⟩
      rcases List.exists_of_mem_right hcs hmem with ⟨record, _, hrecord⟩
      rw [List.forall_mem_cons, List.forall_mem_cons, ih,
        challengedReasons_published asOf root n hm hmade hrecord]
      simp [hc]
  have hopened_ne : opened.isEmpty = false := by
    rw [List.isEmpty_eq_false_iff, ne_eq, ← List.length_eq_zero_iff, ← hall.length_eq,
      List.length_eq_zero_iff]
    exact hne
  rw [← hpassed]
  constructor
  . rintro ⟨opened', result, hopened', hresult, hok⟩
    rw [hopened, Except.ok.injEq] at hopened'
    subst hopened'
    rw [verifyChallenged, if_neg (by simp [hopened_ne])] at hresult
    rcases Except.bind_eq_ok.mp hresult with ⟨reasons, hreasons, hresult⟩
    rw [← Except.pure_eq_ok.mp hresult, List.isEmpty_iff, List.flatten_eq_nil_iff] at hok
    intro o ho
    rcases List.exists_of_mem_left (Except.mapM_eq_ok.mp hreasons) ho with ⟨rs, hrs, hpass⟩
    rw [hpass, hok rs hrs]
  . intro hpass
    have hreasons : opened.mapM (challengedReasons interp P sha3_512
        (published P spec asOf n root made).1) = .ok (opened.map fun _ => []) :=
      Except.mapM_eq_ok.mpr (List.forall₂_map_right_iff.mpr (List.forall₂_same.mpr hpass))
    refine ⟨opened, ⟨true, [], some opened.length⟩, hopened, ?_, rfl⟩
    rw [verifyChallenged, if_neg (by simp [hopened_ne]), hreasons, Except.ok_bind]
    simp [pure, Except.pure]

end

/--
The totals of a list fit when it is no longer than a list can be, and the group is a large one.
-/
theorem totalsFit_of_length {P : Nat} {spec : MetricSpec} {records : List Json}
    {contributions : List (Int × Int)} (hlarge : 2 ^ 123 ≤ Pedersen.Q P)
    (hcs : List.Forall₂ (Contributes spec) records contributions)
    (hlen : contributions.length < 2 ^ 63)
    : TotalsFit P spec contributions := by
  have hsums : ∀ {records : List Json} {cs : List (Int × Int)},
      List.Forall₂ (Contributes spec) records cs →
      (0 ≤ (cs.map Prod.fst).sum ∧ (cs.map Prod.fst).sum ≤ maxSane * cs.length) ∧
        (0 ≤ (cs.map Prod.snd).sum ∧ (cs.map Prod.snd).sum ≤ maxSane * cs.length) ∧
        (spec.numLeDen = true → (cs.map Prod.fst).sum ≤ (cs.map Prod.snd).sum) := by
    intro records cs hcs
    induction hcs with
    | nil => simp
    | cons hc _ ih =>
      have hnum := hc.num_nonneg
      have hnum' := hc.num_le
      have hden := hc.den_nonneg
      have hden' := hc.den_le
      simp only [List.map_cons, List.sum_cons, List.length_cons, Nat.cast_add, Nat.cast_one,
        mul_add, mul_one]
      refine ⟨by omega, by omega, fun hbounded => ?_⟩
      exact Int.add_le_add (hc.num_le_den hbounded) (ih.2.2 hbounded)
  rcases hsums hcs with ⟨⟨hnum, hnum'⟩, ⟨hden, hden'⟩, hle⟩
  have hbound : maxSane * contributions.length < 2 ^ 123 := by
    unfold maxSane
    omega
  have hlarge' : (2 : Int) ^ 123 ≤ Pedersen.Q P := by
    exact_mod_cast hlarge
  rw [TotalsFit, Int.emod_eq_of_lt hnum (by omega), Int.emod_eq_of_lt hden (by omega)]
  refine ⟨hle, fun _ => Binary64.isInfinite_ofQuotient ?_ _⟩
  by_cases hzero : (contributions.map Prod.fst).sum.natAbs = 0
  . rw [hzero]
    decide
  . have hlog : (contributions.map Prod.fst).sum.natAbs.log2 < 123 :=
      (Nat.log2_lt hzero).mpr (by omega)
    omega

theorem large_modp2048 : 2 ^ 123 ≤ Pedersen.Q Pedersen.modp2048 ∧
    maxSane < Pedersen.Q Pedersen.modp2048 := by
  decide +kernel

/--
No interpreter takes a limit of fewer than 640 digits.
-/
theorem printable_modp2048 (hlimit : ∀ limit ∈ interp.maxStrDigits, 640 ≤ limit)
    : printable interp Pedersen.modp2048 = true := by
  have hlen : (Json.natText (Pedersen.modp2048 : Int).natAbs).length ≤ 640 :=
    (Json.length_natText_le_iff (by decide)).mpr (by decide +kernel)
  unfold printable
  cases hmax : interp.maxStrDigits with
  | none => rfl
  | some limit =>
    rw [Option.all_some, decide_eq_true_eq]
    exact le_trans hlen (hlimit limit hmax)

/--
Sums of committed values open. An honest prover can publish exactly if what is hashed can be written
and encoded. What it publishes and opens is accepted if and only if every opened contribution has a
numerator of at most its denominator, which the check asks of metrics without a bound as well, and
the totals fit.
-/
theorem honest_accepted_iff (interp : Interp) (P : Nat) (hP : P.Prime) (hQ : (Pedersen.Q P).Prime)
    (hsane : maxSane < Pedersen.Q P) (hmodulus : printable interp P = true)
    (sha3_256 : HashFn 32) (sha3_512 : HashFn 64)
    : (∀ values : List (Int × Int), (∀ v ∈ values, 0 ≤ v.1 ∧ v.1 < Pedersen.Q P) →
        ∃ committed : List (Int × Int),
          values.mapM (fun v => Pedersen.commit P sha3_512 v.1 v.2) = .ok committed ∧
          Pedersen.verifyConfidentialSum P sha3_512 (committed.map Prod.fst)
            (Pedersen.sumOpening P (values.map Prod.fst) (committed.map Prod.snd)).1
            (Pedersen.sumOpening P (values.map Prod.fst) (committed.map Prod.snd)).2 = true) ∧
      ∀ urandom records contributions masterSalt spec asOf, records ≠ [] →
        List.Forall₂ (Contributes spec) records contributions →
        ((∃ att secret,
            buildConfidential interp sha3_256 P sha3_512 urandom records masterSalt spec asOf
              = .ok (att, secret)) ↔ Encodable interp records masterSalt spec asOf) ∧
          ∀ indices, indices ≠ [] →
            (∀ i ∈ indices, -(contributions.length : Int) ≤ i ∧ i < contributions.length) →
            ((∃ att secret,
                buildConfidential interp sha3_256 P sha3_512 urandom records masterSalt spec asOf
                  = .ok (att, secret) ∧
                (∃ result, verifyConfidential interp sha3_256 P att = .ok result ∧
                  result.ok = true) ∧
                (∃ result, verifyTotalOpening interp sha3_256 P sha3_512 att (openTotals P secret)
                  = .ok result ∧ result.ok = true) ∧
                ∃ opened result, openChallenged secret indices = .ok opened ∧
                  verifyChallenged interp P sha3_512 att opened = .ok result ∧ result.ok = true) ↔
              Encodable interp records masterSalt spec asOf ∧
                (∀ i ∈ indices, ∀ c, item? contributions i = some c → c.1 ≤ c.2) ∧
                TotalsFit P spec contributions) := by
  refine ⟨?_, ?_⟩
  . intro values hvalues
    exact Pedersen.verifyConfidentialSum_committed hP hQ sha3_512 hvalues
  . intro urandom records contributions masterSalt spec asOf hne hcs
    have hcs_ne : contributions ≠ [] := by
      rintro rfl
      cases hcs
      exact hne rfl
    have hbuilds : (∃ att secret,
        buildConfidential interp sha3_256 P sha3_512 urandom records masterSalt spec asOf
          = .ok (att, secret)) ↔ Encodable interp records masterSalt spec asOf :=
      exists_buildConfidential hsane hmodulus hne hcs
    refine ⟨hbuilds, fun indices hindices hbounds => ?_⟩
    constructor
    -- what was built is what an honest prover publishes, and each check says its condition
    . rintro ⟨att, secret, hbuild, _, htotals, hchallenged⟩
      rcases honest_of_build hcs hbuild with ⟨root, made, hpublished, h⟩
      rw [Prod.mk.injEq] at hpublished
      rw [hpublished.1, hpublished.2] at htotals hchallenged
      exact ⟨hbuilds.mp ⟨att, secret, hbuild⟩,
        (verifyChallenged_published h hcs _ hindices hbounds).mp hchallenged,
        (verifyTotalOpening_published hP hQ h hcs_ne).mp htotals⟩
    . rintro ⟨hencodable, hle, hfit⟩
      rcases hbuilds.mpr hencodable with ⟨att, secret, hbuild⟩
      rcases honest_of_build hcs hbuild with ⟨root, made, hpublished, h⟩
      rw [hpublished] at hbuild
      exact ⟨_, _, hbuild, ⟨_, verifyConfidential_published h hcs_ne, rfl⟩,
        (verifyTotalOpening_published hP hQ h hcs_ne).mpr hfit,
        (verifyChallenged_published h hcs _ hindices hbounds).mpr hle⟩

/-!
A record of which more is written off than is outstanding, under a metric without a bound, and three
records in a group that is large enough for the contributions.
-/

def exampleWriteoff : MetricSpec where
  metricId := txt "WRITEOFF_RATIO"
  numOf _ := .ok 200
  denOf _ := .ok 100
  numLeDen := false

def exampleWrittenOff : Json := .obj [
  (txt "principal_outstanding", .str (txt "1.00")),
  (txt "principal_written_off", .str (txt "2.00"))]

theorem contributes_exampleWriteoff (record : Json)
    : Contributes exampleWriteoff record (200, 100) where
  num_eq := rfl
  den_eq := rfl
  num_nonneg := by decide
  num_le := by decide
  den_nonneg := by decide
  den_le := by decide
  num_le_den := by decide

/--
The first record of a ledger is built, challenged and checked.
-/
def spotCheckFirst (P : Nat) (records : List Json) (spec : MetricSpec)
    : Except BuildError ChallengedResult := do
  let (att, secret) ← buildConfidential cpython sha3_256 P sha3_512
    (fun _ => List.replicate 32 0) records (txt "s") spec (txt "t")
  let opened ← (openChallenged secret [0]).mapError .attested
  (verifyChallenged cpython P sha3_512 att opened).mapError .attested

theorem spotCheck_exampleWrittenOff
    : List.Forall₂ (Contributes exampleWriteoff) [exampleWrittenOff] [(200, 100)] ∧
      ∃ att secret opened result,
        buildConfidential cpython sha3_256 Pedersen.modp2048 sha3_512 (fun _ => List.replicate 32 0)
            [exampleWrittenOff] (txt "s") exampleWriteoff (txt "t") = .ok (att, secret) ∧
          openChallenged secret [0] = .ok opened ∧
          verifyChallenged cpython Pedersen.modp2048 sha3_512 att opened = .ok result ∧
          result.ok = false := by
  refine ⟨List.Forall₂.cons (contributes_exampleWriteoff _) List.Forall₂.nil, ?_⟩
  have hrun : spotCheckFirst Pedersen.modp2048 [exampleWrittenOff] exampleWriteoff = .ok ⟨false,
      [txt "foglia 0: FUORI RANGE (num=200, den=100) -> contributo " ++
        txt "negativo/overflow (attacco -k) o valore assurdo"], some 1⟩ := by
    decide +kernel
  rcases Except.bind_eq_ok.mp hrun with ⟨⟨att, secret⟩, hbuild, hrun⟩
  rcases Except.bind_eq_ok.mp hrun with ⟨opened, hopened, hverify⟩
  rw [Except.mapError_eq_ok] at hopened hverify
  exact ⟨att, secret, opened, _, hbuild, hopened, hverify, rfl⟩

theorem prime_exampleQ : Nat.Prime 1048576000000000001 := by
  refine prime_of_lucas _ 3 (List.replicate 32 2 ++ List.replicate 12 5) ?_ (by decide +kernel)
  simp only [List.mem_append, List.mem_replicate]
  rintro q (⟨_, rfl⟩ | ⟨_, rfl⟩)
  . norm_num
  . norm_num

theorem prime_exampleP : Nat.Prime 2097152000000000003 := by
  refine prime_of_lucas _ 2 [2, 1048576000000000001] ?_ (by decide +kernel)
  simp [Nat.prime_two, prime_exampleQ]

theorem honest_accepted_iff_exampleWrittenOff
    : (∃ committed : List (Int × Int),
        [((1048576000000000000 : Int), (5 : Int)), (3, -7)].mapM
            (fun v => Pedersen.commit 2097152000000000003 sha3_512 v.1 v.2) = .ok committed ∧
          Pedersen.verifyConfidentialSum 2097152000000000003 sha3_512 (committed.map Prod.fst)
            (Pedersen.sumOpening 2097152000000000003 [1048576000000000000, 3]
              (committed.map Prod.snd)).1
            (Pedersen.sumOpening 2097152000000000003 [1048576000000000000, 3]
              (committed.map Prod.snd)).2 = true) ∧
      Encodable cpython [exampleWrittenOff] (txt "s") exampleWriteoff (txt "t") ∧
      ((∃ att secret,
          buildConfidential cpython sha3_256 2097152000000000003 sha3_512 (fun _ => [])
              [exampleWrittenOff] (txt "s") exampleWriteoff (txt "t") = .ok (att, secret) ∧
            (∃ result, verifyConfidential cpython sha3_256 2097152000000000003 att = .ok result ∧
              result.ok = true) ∧
            (∃ result, verifyTotalOpening cpython sha3_256 2097152000000000003 sha3_512 att
              (openTotals 2097152000000000003 secret) = .ok result ∧ result.ok = true) ∧
            ∃ opened result, openChallenged secret [-1] = .ok opened ∧
              verifyChallenged cpython 2097152000000000003 sha3_512 att opened = .ok result ∧
              result.ok = true) ↔
        Encodable cpython [exampleWrittenOff] (txt "s") exampleWriteoff (txt "t") ∧
          (∀ i ∈ [(-1 : Int)], ∀ c, item? [((200 : Int), (100 : Int))] i = some c → c.1 ≤ c.2) ∧
          TotalsFit 2097152000000000003 exampleWriteoff [(200, 100)]) := by
  have hQ : Pedersen.Q 2097152000000000003 = 1048576000000000001 := rfl
  have haccepted := honest_accepted_iff cpython 2097152000000000003 prime_exampleP
    (hQ ▸ prime_exampleQ) (by rw [hQ]; decide) (by decide +kernel) sha3_256 sha3_512
  have hcs : List.Forall₂ (Contributes exampleWriteoff) [exampleWrittenOff] [(200, 100)] :=
    List.Forall₂.cons (contributes_exampleWriteoff _) List.Forall₂.nil
  refine ⟨haccepted.1 _ (by rw [hQ]; decide), by decide +kernel, ?_⟩
  exact (haccepted.2 (fun _ => []) [exampleWrittenOff] [(200, 100)] (txt "s") exampleWriteoff
    (txt "t") (by simp) hcs).2 [-1] (by simp) (by simp)

end Cldma
end CryptoValid
