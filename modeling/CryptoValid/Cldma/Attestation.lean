import CryptoValid.Cldma.Binding
import CryptoValid.Lib.Decimal

/-!
This module contains what a commitment binds: the complete ledger that a regulator rebuilds, and the
fields of a published attestation, which may be any values with the printed forms of the committed
ones.
-/

namespace CryptoValid
namespace Cldma

open Levels
open Python (Interp PrintableNode)

inductive AttestationError where
  | key
  | decimal (e : Decimal.Error)
  | hash (e : Error)
  deriving DecidableEq

def numericalText (interp : Interp) (specVersion metricId asOf : Str) (num den : Int)
    : Except Error Str := do
  return enc [txt "CLDMA-NUM", specVersion, metricId, asOf, ← str interp num, ← str interp den]

/--
`str(x.quantize(Decimal("0.000001")))`
-/
def sixPlaces (x : Decimal) : Except Decimal.Error Str := do
  return (← x.quantize (-6)).toText

/--
The ratio of a commitment, by convention zero for a denominator of zero.
-/
def ratioText (num den : Int) : Except Decimal.Error Str := do
  let ratio ← if den ≠ 0 then (Decimal.ofInt num).div (.ofInt den) else .ok (.ofInt 0)
  sixPlaces ratio

section

variable (interp : Interp) (sha3_256 : HashFn 32)

def attestation (c : Commitment) : Except AttestationError (List (Str × Json)) := do
  let ratio ← (ratioText c.numTotal c.denTotal).mapError .decimal
  let text ← (numericalText interp c.specVersion c.metricId c.asOf c.numTotal c.denTotal).mapError
    .hash
  let numericalHash ← (h sha3_256 text).mapError .hash
  return [
    (txt "spec_version", .str c.specVersion), (txt "metric_id", .str c.metricId),
    (txt "as_of", .str c.asOf), (txt "n_records", .int c.n), (txt "root_hash", .str c.rootHash),
    (txt "tree_root", .str c.treeRoot), (txt "numerator_minor", .int c.numTotal),
    (txt "denominator_minor", .int c.denTotal), (txt "ratio", .str ratio),
    (txt "numerical_hash", .str numericalHash), (txt "num_le_den", .bool c.numLeDen)]

def item (att : List (Str × Json)) (key : Str) : Except AttestationError Json :=
  match Assoc.lookup key att with
  | some v => .ok v
  | none => .error .key

section

variable (reprText : Str → Str)

/--
What the root has to be the hash of, by the printed forms of the fields.
-/
def attestedText (att : List (Str × Json)) : Except AttestationError Str := do
  let treeRoot := (Assoc.lookup (txt "tree_root") att).getD .null
  let n ← item att (txt "n_records")
  let metricId ← item att (txt "metric_id")
  let asOf ← item att (txt "as_of")
  let num ← item att (txt "numerator_minor")
  let den ← item att (txt "denominator_minor")
  let fields := [metricId, asOf, n, treeRoot, num, den]
  if ∀ v ∈ fields, v.All (PrintableNode interp) then
    return enc ([txt "CLDMA", specVersion] ++ fields.map (Python.str reprText))
  else
    throw (.hash .tooManyDigits)

def verifyAttestation (att : List (Str × Json)) : Except AttestationError Bool := do
  let den ← item att (txt "denominator_minor")
  let treeRoot := (Assoc.lookup (txt "tree_root") att).getD .null
  if !Python.truthy treeRoot then
    return false
  let text ← attestedText interp reprText att
  let bound ← (h sha3_256 text).mapError .hash
  let rootHash ← item att (txt "root_hash")
  if rootHash ≠ .str bound then
    return false
  if Python.eqLoaded false den (.int 0) then
    let ratio ← item att (txt "ratio")
    return ratio = .str (txt "0") ∨ ratio = .str (txt "0.000000")
  let num ← item att (txt "numerator_minor")
  let exp ← (do sixPlaces (← (← Decimal.ofJson num).div (← Decimal.ofJson den))).mapError .decimal
  let ratio ← item att (txt "ratio")
  let declared ← (do sixPlaces (← Decimal.ofJson ratio)).mapError .decimal
  return exp = declared

/--
Every message that `verify_attestation` hashes.
-/
def attestedQueries (att : List (Str × Json)) : List Bytes :=
  match attestedText interp reprText att with
  | .ok text => [encodeAll text]
  | .error _ => []

end

/--
Every message that `verify_full` hashes when it builds the commitment again.
-/
def verifyFullQueries (records : List Json) (masterSalt : Str) (spec : MetricSpec) (c : Commitment)
    : List Bytes :=
  match commitLedger interp sha3_256 records masterSalt spec c.asOf with
  | .ok c2 => commitQueries interp sha3_256 records masterSalt spec c2
  | .error _ => []

/--
Record by record the same canonical text, salt and contributions.
-/
structure SameLedger (records : List Json) (masterSalt : Str) (spec : MetricSpec)
    (records' : List Json) (masterSalt' : Str) (spec' : MetricSpec) : Prop where
  length_eq : records'.length = records.length
  canonicalRecord_eq : ∀ (i : Nat) rec rec', records[i]? = some rec → records'[i]? = some rec' →
    recordText rec' = recordText rec
  leafSalt_eq : ∀ i < records.length, ∃ salt,
    leafSalt sha3_256 masterSalt i = .ok salt ∧ leafSalt sha3_256 masterSalt' i = .ok salt
  contribution_eq : ∀ (i : Nat) rec rec', records[i]? = some rec → records'[i]? = some rec' →
    ∃ num den, spec.numOf rec = .ok num ∧ spec'.numOf rec' = .ok num ∧
      spec.denOf rec = .ok den ∧ spec'.denOf rec' = .ok den

/--
The fields of an attestation have the printed forms of those of the commitment, and its ratio is the
one that `attestation` derives, at six decimals.
-/
structure Attested (reprText : Str → Str) (c : Commitment) (att : List (Str × Json)) : Prop where
  metricId_eq : (Assoc.lookup (txt "metric_id") att).map (Python.str reprText) = some c.metricId
  asOf_eq : (Assoc.lookup (txt "as_of") att).map (Python.str reprText) = some c.asOf
  nRecords_eq : (Assoc.lookup (txt "n_records") att).map (Python.str reprText)
    = some (Json.natText c.n)
  numTotal_eq : (Assoc.lookup (txt "numerator_minor") att).map (Python.str reprText)
    = some (Json.intText c.numTotal)
  denTotal_eq : (Assoc.lookup (txt "denominator_minor") att).map (Python.str reprText)
    = some (Json.intText c.denTotal)
  ratio_eq : ∃ ratio text, Assoc.lookup (txt "ratio") att = some ratio ∧
    (Decimal.ofJson ratio >>= sixPlaces) = .ok text ∧ ratioText c.numTotal c.denTotal = .ok text ∧
    ∀ d, attestation interp sha3_256 c = .ok d → Assoc.lookup (txt "ratio") d = some (.str text)

end

section

variable {interp : Interp} {sha3_256 : HashFn 32}

/-!
### The complete ledger
-/

theorem encBind_inj_all {t t' metricId metricId' asOf asOf' : Str} {n n' : Nat}
    {num num' den den' : Int}
    (heq : encBind t n metricId asOf num den = encBind t' n' metricId' asOf' num' den')
    : t = t' ∧ n = n' ∧ metricId = metricId' ∧ asOf = asOf' ∧ num = num' ∧ den = den' := by
  have heq := enc_inj heq
  simp only [List.cons.injEq, and_true, true_and] at heq
  exact ⟨heq.2.2.2.1, natText_inj heq.2.2.1, heq.1, heq.2.1, Json.intText_inj heq.2.2.2.2.1,
    Json.intText_inj heq.2.2.2.2.2⟩

theorem Committed.rootMsg_mem {records : List Json} {masterSalt : Str} {spec : MetricSpec}
    {c : Commitment} (C : Committed interp sha3_256 records masterSalt spec c)
    : encodeAll (encBind ((scheme sha3_256).digest C.tree) c.n c.metricId c.asOf c.numTotal
        c.denTotal) ∈ commitQueries interp sha3_256 records masterSalt spec c :=
  encBind_mem_commitQueries C.leaves_eq C.tree_eq

theorem Committed.length_eq {records : List Json} {masterSalt : Str} {spec : MetricSpec}
    {c : Commitment} (C : Committed interp sha3_256 records masterSalt spec c)
    : C.leaves.length = records.length :=
  (buildLeaves_go_built C.leaves_eq).1

theorem Committed.built {records : List Json} {masterSalt : Str} {spec : MetricSpec}
    {c : Commitment} (C : Committed interp sha3_256 records masterSalt spec c) {i : Nat}
    {rec : Json}
    (hrec : records[i]? = some rec)
    : ∃ leaf, C.leaves[i]? = some leaf ∧ Built interp sha3_256 masterSalt spec i rec leaf := by
  have hlt : i < C.leaves.length := by
    rw [C.length_eq]
    exact (List.getElem?_eq_some_iff.mp hrec).1
  rcases (buildLeaves_go_built C.leaves_eq).2 i _ (List.getElem?_eq_getElem hlt)
    with ⟨rec', hrec', hbuilt⟩
  rw [hrec, Option.some.injEq] at hrec'
  subst hrec'
  rw [Nat.zero_add] at hbuilt
  exact ⟨_, List.getElem?_eq_getElem hlt, hbuilt⟩

/--
Two commitments with one root are to the same records, up to a collision.
-/
theorem Committed.sameLedger {records records' : List Json} {masterSalt masterSalt' : Str}
    {spec spec' : MetricSpec} {c c' : Commitment}
    (C : Committed interp sha3_256 records masterSalt spec c)
    (C' : Committed interp sha3_256 records' masterSalt' spec' c')
    (hroot : c'.rootHash = c.rootHash)
    : SameLedger sha3_256 records masterSalt spec records' masterSalt' spec' ∨
        Collides sha3_256 (commitQueries interp sha3_256 records masterSalt spec c ++
          commitQueries interp sha3_256 records' masterSalt' spec' c') := by
  rw [C.rootHash_eq, C'.rootHash_eq] at hroot
  have hleft : ∀ m ∈ commitQueries interp sha3_256 records masterSalt spec c,
      m ∈ commitQueries interp sha3_256 records masterSalt spec c ++
        commitQueries interp sha3_256 records' masterSalt' spec' c' :=
    fun m hm => List.mem_append_left _ hm
  have hright : ∀ m ∈ commitQueries interp sha3_256 records' masterSalt' spec' c',
      m ∈ commitQueries interp sha3_256 records masterSalt spec c ++
        commitQueries interp sha3_256 records' masterSalt' spec' c' :=
    fun m hm => List.mem_append_right _ hm
  by_cases hcol : Collides sha3_256 (commitQueries interp sha3_256 records masterSalt spec c ++
    commitQueries interp sha3_256 records' masterSalt' spec' c')
  . exact Or.inr hcol
  . have hnone : ¬Collides (scheme sha3_256).hash
        (commitQueries interp sha3_256 records masterSalt spec c ++
          commitQueries interp sha3_256 records' masterSalt' spec' c') :=
      fun h => hcol (collides_of_scheme h)
    have htext := (Collides.eq_or (hright _ C'.rootMsg_mem) (hleft _ C.rootMsg_mem)
      hroot).resolve_right hnone
    have hdigest := (encBind_inj_all (encodeAll_inj htext)).1
    have htree := (HashTree.Scheme.digest_inj _ _ _ hdigest).resolve_right fun h =>
      hnone (h.mono (List.append_subset.mpr
        ⟨fun m hm => hright m (msgs_subset_commitQueries C'.leaves_eq C'.tree_eq hm),
          fun m hm => hleft m (msgs_subset_commitQueries C.leaves_eq C.tree_eq hm)⟩))
    have hdata : C'.leaves.map Leaf.data = C.leaves.map Leaf.data := by
      rw [← HashTree.leaves_of_top? C'.tree_eq, htree, HashTree.leaves_of_top? C.tree_eq]
    have hlen : records'.length = records.length := by
      rw [← C.length_eq, ← C'.length_eq, ← List.length_map Leaf.data, hdata, List.length_map]
    -- the leaves at one position come from records with the same canonical text and salt
    have hrecord : ∀ (i : Nat) rec rec', records[i]? = some rec → records'[i]? = some rec' →
        ∃ leaf leaf', Built interp sha3_256 masterSalt spec i rec leaf ∧
          Built interp sha3_256 masterSalt' spec' i rec' leaf' ∧ leaf'.data = leaf.data ∧
          ∃ salt, leafSalt sha3_256 masterSalt i = .ok salt ∧
            leafSalt sha3_256 masterSalt' i = .ok salt ∧
            recordText rec' = recordText rec := by
      intro i rec rec' hrec hrec'
      rcases C.built hrec with ⟨leaf, hleaf, hbuilt⟩
      rcases C'.built hrec' with ⟨leaf', hleaf', hbuilt'⟩
      have hsame : leaf'.data = leaf.data := by
        have hget := congrArg (fun l => l[i]?) hdata
        simpa only [List.getElem?_map, hleaf, hleaf', Option.map_some, Option.some.injEq] using hget
      refine ⟨leaf, leaf', hbuilt, hbuilt', hsame, ?_⟩
      rcases hbuilt.leafOf with ⟨of⟩
      rcases hbuilt'.leafOf with ⟨of'⟩
      have hcommit : (scheme sha3_256).hash (encodeAll (encCommit rec' of'.salt))
          = (scheme sha3_256).hash (encodeAll (encCommit rec of.salt)) := by
        rw [← of.commit_eq, ← of'.commit_eq]
        exact congrArg LeafData.commit hsame
      have htext := (Collides.eq_or
        (hright _ (encCommit_mem_commitQueries C'.leaves_eq C'.tree_eq hrec' of'.salt_eq))
        (hleft _ (encCommit_mem_commitQueries C.leaves_eq C.tree_eq hrec of.salt_eq))
        hcommit).resolve_right hnone
      rcases encCommit_inj (encodeAll_inj htext) with ⟨hsalt, hcanonical⟩
      exact ⟨of.salt, of.salt_eq, hsalt ▸ of'.salt_eq, hcanonical⟩
    refine Or.inl ⟨hlen, ?_, ?_, ?_⟩
    . intro i rec rec' hrec hrec'
      rcases hrecord i rec rec' hrec hrec' with ⟨_, _, _, _, _, _, _, _, hcanonical⟩
      exact hcanonical
    . intro i hi
      rcases hrecord i _ _ (List.getElem?_eq_getElem hi)
        (List.getElem?_eq_getElem (by rwa [hlen])) with ⟨_, _, _, _, _, salt, hsalt, hsalt', _⟩
      exact ⟨salt, hsalt, hsalt'⟩
    . intro i rec rec' hrec hrec'
      rcases hrecord i rec rec' hrec hrec' with ⟨leaf, leaf', hbuilt, hbuilt', hsame, _⟩
      have hnum : leaf'.num = leaf.num := congrArg LeafData.num hsame
      have hden : leaf'.den = leaf.den := congrArg LeafData.den hsame
      exact ⟨leaf.num, leaf.den, hbuilt.numOf_eq, hnum ▸ hbuilt'.numOf_eq, hbuilt.denOf_eq,
        hden ▸ hbuilt'.denOf_eq⟩

theorem sameLedger_of_verifyFull {records records' : List Json} {masterSalt masterSalt' : Str}
    {spec spec' : MetricSpec} {asOf : Str} {c : Commitment} {expectedN : Option Int}
    {report : FullReport} (hc : commitLedger interp sha3_256 records masterSalt spec asOf = .ok c)
    (hreport : verifyFull interp sha3_256 records' masterSalt' spec' c expectedN = .ok report)
    (hok : report.ok = true)
    : SameLedger sha3_256 records masterSalt spec records' masterSalt' spec' ∨
        Collides sha3_256 (commitQueries interp sha3_256 records masterSalt spec c ++
          verifyFullQueries interp sha3_256 records' masterSalt' spec' c) := by
  rcases Except.bind_eq_ok.mp hreport with ⟨c2, hc2, hreport⟩
  rw [← Except.pure_eq_ok.mp hreport] at hok
  simp only [Bool.and_eq_true, beq_iff_eq] at hok
  rcases committed_of_commitLedger hc with ⟨C⟩
  rcases committed_of_commitLedger hc2 with ⟨C2⟩
  simp only [verifyFullQueries, hc2]
  exact C.sameLedger C2 hok.1.1.1.1

/-!
### The published attestation
-/

variable {reprText : Str → Str} {att : List (Str × Json)}

theorem item_eq_ok {key : Str} {v : Json} (hv : item att key = .ok v)
    : Assoc.lookup key att = some v := by
  unfold item at hv
  split at hv
  . next w hw => rw [hw, Except.ok.inj hv]
  . simp at hv

theorem ofJson_of_str {v : Json} {i : Int} {x : Decimal}
    (hv : Python.str reprText v = Json.intText i) (hx : Decimal.ofJson v = .ok x)
    : x = .ofInt i := by
  rcases Python.str_eq_intText hv with rfl | rfl
  . exact (Except.ok.inj hx).symm
  . exact Decimal.ofText_intText hx

theorem ratioText_zero (num : Int) : ratioText num 0 = .ok (txt "0.000000") := by
  rw [ratioText, if_neg (by simp)]
  decide +kernel

/--
The two texts that are accepted for a ratio with a denominator of zero.
-/
theorem sixPlaces_zero {ratio : Json}
    (hratio : ratio = .str (txt "0") ∨ ratio = .str (txt "0.000000"))
    : (Decimal.ofJson ratio >>= sixPlaces) = .ok (txt "0.000000") := by
  rcases hratio with rfl | rfl
  . decide +kernel
  . decide +kernel

theorem ratioText_of_div {num den : Int} {q : Decimal} {text : Str}
    (hq : (Decimal.ofInt num).div (.ofInt den) = .ok q) (htext : sixPlaces q = .ok text)
    : ratioText num den = .ok text := by
  have hden : den ≠ 0 := by
    rintro rfl
    simp only [Decimal.ofInt, Decimal.div, Int.natAbs_zero, ↓reduceIte] at hq
    split at hq <;> simp at hq
  rw [ratioText, if_pos hden, hq]
  exact htext

/--
The fields of an attestation that are bound, and the message that binds them.
-/
structure Bound (interp : Interp) (reprText : Str → Str) (att : List (Str × Json)) where
  metricId : Json
  asOf : Json
  n : Json
  treeRoot : Json
  num : Json
  den : Json
  metricId_eq : Assoc.lookup (txt "metric_id") att = some metricId
  asOf_eq : Assoc.lookup (txt "as_of") att = some asOf
  n_eq : Assoc.lookup (txt "n_records") att = some n
  num_eq : Assoc.lookup (txt "numerator_minor") att = some num
  den_eq : Assoc.lookup (txt "denominator_minor") att = some den
  text_eq : attestedText interp reprText att = .ok (enc ([txt "CLDMA", specVersion] ++
    [metricId, asOf, n, treeRoot, num, den].map (Python.str reprText)))

theorem bound_of_attestedText {text : Str} (htext : attestedText interp reprText att = .ok text)
    : Nonempty (Bound interp reprText att) := by
  have htext' := htext
  rcases Except.bind_eq_ok.mp htext with ⟨n, hn, htext⟩
  rcases Except.bind_eq_ok.mp htext with ⟨metricId, hmetricId, htext⟩
  rcases Except.bind_eq_ok.mp htext with ⟨asOf, hasOf, htext⟩
  rcases Except.bind_eq_ok.mp htext with ⟨num, hnum, htext⟩
  rcases Except.bind_eq_ok.mp htext with ⟨den, hden, htext⟩
  exact ⟨{
    metricId, asOf, n, num, den
    treeRoot := (Assoc.lookup (txt "tree_root") att).getD .null
    metricId_eq := item_eq_ok hmetricId
    asOf_eq := item_eq_ok hasOf
    n_eq := item_eq_ok hn
    num_eq := item_eq_ok hnum
    den_eq := item_eq_ok hden
    text_eq := by
      dsimp only at htext
      split at htext
      . rw [htext', ← Except.pure_eq_ok.mp htext]
      . cases htext }⟩

/--
What is left of `verify_attestation` once the fields are bound: the ratio is that of the two numbers
that are printed.
-/
theorem ratio_of_verifyAttestation (b : Bound interp reprText att) {cNum cDen : Int}
    (hok : verifyAttestation interp sha3_256 reprText att = .ok true)
    (hnum : Python.str reprText b.num = Json.intText cNum)
    (hden : Python.str reprText b.den = Json.intText cDen)
    : ∃ ratio text, Assoc.lookup (txt "ratio") att = some ratio ∧
        (Decimal.ofJson ratio >>= sixPlaces) = .ok text ∧ ratioText cNum cDen = .ok text := by
  rcases Except.bind_eq_ok.mp hok with ⟨den, hitem, hok⟩
  have hbden := (item_eq_ok hitem).symm.trans b.den_eq
  rw [Option.some.injEq] at hbden
  subst hbden
  dsimp only at hok
  split at hok
  . simp [pure, Except.pure] at hok
  . rcases Except.bind_eq_ok.mp hok with ⟨text, _, hok⟩
    rcases Except.bind_eq_ok.mp hok with ⟨bound, _, hok⟩
    rcases Except.bind_eq_ok.mp hok with ⟨rootHash, _, hok⟩
    split at hok
    . simp [pure, Except.pure] at hok
    . split at hok
      . next hzero =>
        rcases Except.bind_eq_ok.mp hok with ⟨ratio, hratio, hok⟩
        have hcDen : cDen = 0 := by
          rcases Python.str_eq_intText hden with heq | heq
          . simpa [heq, Python.eqLoaded, Python.eqInt, eq_comm] using hzero
          . simp [heq, Python.eqLoaded] at hzero
        rw [hcDen]
        exact ⟨ratio, _, item_eq_ok hratio,
          sixPlaces_zero (of_decide_eq_true (Except.pure_eq_ok.mp hok)), ratioText_zero cNum⟩
      . rcases Except.bind_eq_ok.mp hok with ⟨num, hitem', hok⟩
        have hbnum := (item_eq_ok hitem').symm.trans b.num_eq
        rw [Option.some.injEq] at hbnum
        subst hbnum
        rcases Except.bind_eq_ok.mp hok with ⟨exp, hexp, hok⟩
        rcases Except.bind_eq_ok.mp hok with ⟨ratio, hratio, hok⟩
        rcases Except.bind_eq_ok.mp hok with ⟨declared, hdeclared, hok⟩
        rw [Except.mapError_eq_ok] at hexp hdeclared
        have heq := of_decide_eq_true (Except.pure_eq_ok.mp hok)
        rcases Except.bind_eq_ok.mp hexp with ⟨x, hx, hexp⟩
        rcases Except.bind_eq_ok.mp hexp with ⟨y, hy, hexp⟩
        rcases Except.bind_eq_ok.mp hexp with ⟨q, hq, hexp⟩
        rw [ofJson_of_str hnum hx, ofJson_of_str hden hy] at hq
        exact ⟨ratio, declared, item_eq_ok hratio, hdeclared, heq ▸ ratioText_of_div hq hexp⟩

theorem hash_of_verifyAttestation (hok : verifyAttestation interp sha3_256 reprText att = .ok true)
    : ∃ text, attestedText interp reprText att = .ok text ∧ Assoc.lookup (txt "root_hash") att
        = some (.str ((scheme sha3_256).hash (encodeAll text))) := by
  rcases Except.bind_eq_ok.mp hok with ⟨den, _, hok⟩
  dsimp only at hok
  split at hok
  . simp [pure, Except.pure] at hok
  . rcases Except.bind_eq_ok.mp hok with ⟨text, htext, hok⟩
    rcases Except.bind_eq_ok.mp hok with ⟨bound, hbound, hok⟩
    rcases Except.bind_eq_ok.mp hok with ⟨rootHash, hroot, hok⟩
    rw [Except.mapError_eq_ok] at hbound
    split at hok
    . simp [pure, Except.pure] at hok
    . next hsame =>
      refine ⟨text, htext, ?_⟩
      rw [item_eq_ok hroot, not_ne_iff.mp hsame, h_eq_ok hbound]

theorem lookup_ratio_attestation {c : Commitment} {d : List (Str × Json)} {text : Str}
    (hd : attestation interp sha3_256 c = .ok d)
    (htext : ratioText c.numTotal c.denTotal = .ok text)
    : Assoc.lookup (txt "ratio") d = some (.str text) := by
  rcases Except.bind_eq_ok.mp hd with ⟨ratio, hratio, hd⟩
  rcases Except.bind_eq_ok.mp hd with ⟨numerical, _, hd⟩
  rcases Except.bind_eq_ok.mp hd with ⟨numericalHash, _, hd⟩
  rw [Except.mapError_eq_ok, htext] at hratio
  rw [← Except.pure_eq_ok.mp hd, ← Except.ok.inj hratio]
  rfl

theorem attested_of_verifyAttestation {records : List Json} {masterSalt : Str} {spec : MetricSpec}
    {asOf : Str} {c : Commitment}
    (hc : commitLedger interp sha3_256 records masterSalt spec asOf = .ok c)
    (hok : verifyAttestation interp sha3_256 reprText att = .ok true)
    (hroot : Assoc.lookup (txt "root_hash") att = some (.str c.rootHash))
    : Attested interp sha3_256 reprText c att ∨
        Collides sha3_256 (commitQueries interp sha3_256 records masterSalt spec c ++
          attestedQueries interp reprText att) := by
  rcases committed_of_commitLedger hc with ⟨C⟩
  rcases hash_of_verifyAttestation hok with ⟨text, htext, hhash⟩
  rcases bound_of_attestedText htext with ⟨b⟩
  have hmem : encodeAll text ∈ attestedQueries interp reprText att := by
    simp [attestedQueries, htext]
  have heq : (scheme sha3_256).hash (encodeAll text) = c.rootHash := by
    rw [hroot] at hhash
    simpa using hhash.symm
  rcases Collides.eq_or (List.mem_append_right _ hmem) (List.mem_append_left _ C.rootMsg_mem)
    (heq.trans C.rootHash_eq) with hsame | hcol
  . have hfields := b.text_eq
    rw [htext, Except.ok.injEq, encodeAll_inj hsame] at hfields
    have hfields := enc_inj hfields
    simp only [List.map_cons, List.map_nil, List.cons_append, List.nil_append, List.cons.injEq,
      and_true, true_and] at hfields
    rcases hfields with ⟨hmetricId, hasOf, hn, _, hnum, hden⟩
    rcases ratio_of_verifyAttestation b hok hnum.symm hden.symm with ⟨ratio, text, hratio, hsix, hc⟩
    refine Or.inl ⟨?_, ?_, ?_, ?_, ?_, ratio, text, hratio, hsix, hc,
      fun d hd => lookup_ratio_attestation hd hc⟩
    . rw [b.metricId_eq, hmetricId, Option.map_some]
    . rw [b.asOf_eq, hasOf, Option.map_some]
    . rw [b.n_eq, hn, Option.map_some]
    . rw [b.num_eq, hnum, Option.map_some]
    . rw [b.den_eq, hden, Option.map_some]
  . exact Or.inr (collides_of_scheme hcol)

end

/--
Only the committed ledger is accepted as the complete one, and only an attestation with the
committed fields is accepted under the root of the commitment.
-/
theorem commitLedger_binding (interp : Interp) (sha3_256 : HashFn 32) (records : List Json)
    (masterSalt : Str) (spec : MetricSpec) (asOf : Str) (c : Commitment)
    (hc : commitLedger interp sha3_256 records masterSalt spec asOf = .ok c)
    : (∀ records' masterSalt' spec' expectedN report,
        verifyFull interp sha3_256 records' masterSalt' spec' c expectedN = .ok report →
        report.ok = true →
        SameLedger sha3_256 records masterSalt spec records' masterSalt' spec' ∨
          Collides sha3_256 (commitQueries interp sha3_256 records masterSalt spec c ++
            verifyFullQueries interp sha3_256 records' masterSalt' spec' c)) ∧
      (∀ reprText att,
        verifyAttestation interp sha3_256 reprText att = .ok true →
        Assoc.lookup (txt "root_hash") att = some (.str c.rootHash) →
        Attested interp sha3_256 reprText c att ∨
          Collides sha3_256 (commitQueries interp sha3_256 records masterSalt spec c ++
            attestedQueries interp reprText att)) :=
  ⟨fun _ _ _ _ _ hreport hok => sameLedger_of_verifyFull hc hreport hok,
    fun _ _ hok hroot => attested_of_verifyAttestation hc hok hroot⟩

/-!
The two records again, and an attestation with a text for one of the totals and a ratio that is not
written out.
-/

def quoted (s : Str) : Str := txt "'" ++ s ++ txt "'"

def exampleAttestation : List (Str × Json) := [
  (txt "metric_id", .str (txt "M")), (txt "as_of", .str (txt "t")), (txt "n_records", .int 2),
  (txt "root_hash", .str exampleCommitment.rootHash),
  (txt "tree_root", .str exampleCommitment.treeRoot), (txt "numerator_minor", .int 0),
  (txt "denominator_minor", .str (txt "2")), (txt "ratio", .str (txt " 0e7 "))]

theorem commitLedger_binding_exampleRecords
    : (SameLedger sha3_256 exampleRecords (txt "s") exampleSpec exampleRecords (txt "s")
          exampleSpec ∨
        Collides sha3_256 (commitQueries cpython sha3_256 exampleRecords (txt "s") exampleSpec
          exampleCommitment ++ verifyFullQueries cpython sha3_256 exampleRecords (txt "s")
          exampleSpec exampleCommitment)) ∧
      (Attested cpython sha3_256 quoted exampleCommitment exampleAttestation ∨
        Collides sha3_256 (commitQueries cpython sha3_256 exampleRecords (txt "s") exampleSpec
          exampleCommitment ++ attestedQueries cpython quoted exampleAttestation)) := by
  have hbinding := commitLedger_binding cpython sha3_256 exampleRecords (txt "s") exampleSpec
    (txt "t") exampleCommitment commitLedger_exampleRecords
  refine ⟨?_, ?_⟩
  . refine hbinding.1 exampleRecords (txt "s") exampleSpec (some 2) ⟨true, true, true,
      exampleCommitment.rootHash, 0, 2, exampleCommitment.rootHash, 2, some 2⟩ ?_ rfl
    rw [verifyFull, show commitLedger _ _ _ _ _ exampleCommitment.asOf = _ from
      commitLedger_exampleRecords]
    decide
  . exact hbinding.2 quoted exampleAttestation (by decide +kernel) rfl

end Cldma
end CryptoValid
