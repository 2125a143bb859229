import CryptoValid.Evidence.Chain
import CryptoValid.TxEvidence.Matching

/-!
This module contains the canonical form of a transaction and the attestation of a list of them in
`tx_evidence.py`, and what of the list the attestation depends on.
-/

namespace CryptoValid
namespace TxEvidence

open Fundcert

structure CanonicalTx where
  txid : Str
  kind : Str
  asset : Str
  qty : Str
  unitPrice : Str
  currency : Str
  ts : Str
  deriving DecidableEq

def CanonicalTx.toJson (t : CanonicalTx) : Json :=
  .obj [(txt "txid", .str t.txid), (txt "kind", .str t.kind), (txt "asset", .str t.asset),
    (txt "qty", .str t.qty), (txt "unit_price", .str t.unitPrice),
    (txt "currency", .str t.currency), (txt "ts", .str t.ts)]

def txVersion : Str := txt "tx-evidence-1.0"

inductive AttestError where
  | tx (e : TxError)
  | dump (e : Evidence.DumpError)
  deriving DecidableEq

def honestScope : Str :=
  txt "Proves the transactions are tamper-evident (hash chain) and that the cost basis is " ++
    txt "REPRODUCIBLE under the declared FIFO method — a third party recomputes the same " ++
    txt "numbers. NOT tax advice, NOT proof of tax-correctness: it does not pick your accounting " ++
    txt "method, apply wash-sale/jurisdiction rules, or certify compliance."

structure Attestation where
  asOf : Str
  n : Nat
  chainHead : Str
  costBasis : Json
  digest : Str

def Consumed.toJson (c : Consumed) : Json :=
  .obj [(txt "qty", .str c.qty), (txt "unit_cost", .str c.unitCost)]

def Disposal.toJson (d : Disposal) : Json :=
  .obj [(txt "txid", .str d.txid), (txt "ts", .str d.ts), (txt "qty", .str d.qty),
    (txt "proceeds", .str d.proceeds), (txt "basis", .str d.basis), (txt "gain", .str d.gain),
    (txt "consumed_lots", .arr (d.consumedLots.map Consumed.toJson)),
    (txt "insufficient_lots", .bool d.insufficientLots),
    (txt "unmatched_qty", .str d.unmatchedQty)]

/--
The members of `by_asset`.
-/
def byAsset (out : Dict Str (List Disposal)) : List (Str × Json) :=
  out.items.map fun x => (x.1, .arr (x.2.map Disposal.toJson))

def costBasisJson (out : Dict Str (List Disposal)) : Json :=
  .obj [(txt "method", .str (txt "FIFO")), (txt "by_asset", .obj (byAsset out))]

/--
What the digest of an attestation is computed from.
-/
def attestBody (version asOf : Json) (n : Nat) (head : Str) (basis : Json) : List (Str × Json) :=
  [(txt "tx_version", version), (txt "as_of", asOf), (txt "n", .int n),
    (txt "chain_head", .str head), (txt "cost_basis", basis)]

def Attestation.members (att : Attestation) : List (Str × Json) :=
  attestBody (.str txVersion) (.str att.asOf) att.n att.chainHead att.costBasis ++
    [(txt "attestation_digest_sha3", .str att.digest), (txt "honest_scope", .str honestScope)]

section

variable (u : Python.Unicode)

def canonicalTx (t : Tx) : Except TxError CanonicalTx := do
  return {
    txid := Python.stripBlanks t.txid
    kind := t.canonKind u
    asset := t.canonAsset u
    qty := ← (canonQuantity t.qty).mapError .quantity
    unitPrice := ← (canonQuantity t.unitPrice).mapError .quantity
    currency := u.upper (Python.stripBlanks t.currency)
    ts := Python.stripBlanks t.ts }

variable (interp : Python.Interp) (sha3_256 : HashFn 32)

def buildChain (txs : List Tx) : Except AttestError (List Evidence.Entry) :=
  Evidence.buildChain interp sha3_256
    (fun t => ((canonicalTx u t).mapError .tx).map CanonicalTx.toJson) .dump txs

def attest (txs : List Tx) (asOf : Str) : Except AttestError Attestation := do
  let head := Evidence.headOf (← buildChain u interp sha3_256 txs)
  let basis := costBasisJson (← (costBasisFifo u txs).mapError .tx)
  let body := attestBody (.str txVersion) (.str asOf) txs.length head basis
  return {
    asOf := asOf
    n := txs.length
    chainHead := head
    costBasis := basis
    digest := ← (Evidence.digestOf interp sha3_256 (.obj body)).mapError .dump }

/--
An attestation is an object; a member it does not have is `None`.
-/
def verifyAttestation (att : List (Str × Json)) (txs : List Tx)
    : Except AttestError Evidence.Verdict := do
  let get := fun key => (Assoc.lookup key att).getD .null
  let chain ← buildChain u interp sha3_256 txs
  let chainOk ← (Evidence.verifyChain interp sha3_256 chain).mapError .dump
  let head := Evidence.headOf chain
  let basis := costBasisJson (← (costBasisFifo u txs).mapError .tx)
  let recomputed := attestBody (get (txt "tx_version")) (get (txt "as_of")) txs.length head basis
  let digest ← (Evidence.digestOf interp sha3_256 (.obj recomputed)).mapError .dump
  return {
    chainOk := chainOk
    headMatch := get (txt "chain_head") = .str head
    digestMatch := get (txt "attestation_digest_sha3") = .str digest }

variable {u interp sha3_256}

theorem attest_eq_ok {txs : List Tx} {asOf : Str} {att : Attestation}
    (h : attest u interp sha3_256 txs asOf = .ok att)
    : ∃ chain out, buildChain u interp sha3_256 txs = .ok chain ∧ costBasisFifo u txs = .ok out ∧
        att.asOf = asOf ∧ att.n = txs.length ∧ att.chainHead = Evidence.headOf chain ∧
        att.costBasis = costBasisJson out ∧
        Evidence.digestOf interp sha3_256 (.obj (attestBody (.str txVersion) (.str asOf) txs.length
          (Evidence.headOf chain) (costBasisJson out))) = .ok att.digest := by
  rcases Except.bind_eq_ok.mp h with ⟨chain, hchain, h⟩
  rcases Except.bind_eq_ok.mp h with ⟨out, hout, h⟩
  rcases Except.bind_eq_ok.mp h with ⟨digest, hdigest, h⟩
  rw [← Except.pure_eq_ok.mp h]
  exact ⟨chain, out, hchain, Except.mapError_eq_ok.mp hout, rfl, rfl, rfl, rfl,
    Except.mapError_eq_ok.mp hdigest⟩

/--
An attestation is valid for the transactions that it was made of.
-/
theorem verifyAttestation_attest {txs : List Tx} {asOf : Str} {att : Attestation}
    (h : attest u interp sha3_256 txs asOf = .ok att)
    : verifyAttestation u interp sha3_256 att.members txs = .ok ⟨true, true, true⟩ := by
  rcases attest_eq_ok h with ⟨chain, out, hchain, hout, hasOf, hn, hhead, hbasis, hdigest⟩
  have hchainOk : Evidence.verifyChain interp sha3_256 chain = .ok true :=
    Evidence.verifyChainFrom_buildChainFrom hchain
  have hversion : Assoc.lookup (txt "tx_version") att.members = some (.str txVersion) := rfl
  have hasOf' : Assoc.lookup (txt "as_of") att.members = some (.str asOf) := by
    rw [← hasOf]
    rfl
  have hhead' : Assoc.lookup (txt "chain_head") att.members
      = some (.str (Evidence.headOf chain)) := by
    rw [← hhead]
    rfl
  have hdigest' : Assoc.lookup (txt "attestation_digest_sha3") att.members
      = some (.str att.digest) := rfl
  refine Except.bind_eq_ok.mpr ⟨chain, hchain, ?_⟩
  refine Except.bind_eq_ok.mpr ⟨true, Except.mapError_eq_ok.mpr hchainOk, ?_⟩
  refine Except.bind_eq_ok.mpr ⟨out, Except.mapError_eq_ok.mpr hout, ?_⟩
  refine Except.bind_eq_ok.mpr ⟨att.digest, Except.mapError_eq_ok.mpr ?_, ?_⟩
  . simp only [hversion, hasOf', Option.getD_some]
    exact hdigest
  . simp [hhead', hdigest', pure, Except.pure]

/-!
### The same canonical sequence
-/

variable (u) in
def SameCanonical (txs txs' : List Tx) : Prop :=
  List.Forall₂ (fun t t' => canonicalTx u t' = canonicalTx u t) txs txs'

variable (u) in
/--
What the canonical form keeps of a transaction, as the cost basis reads it.
-/
structure SameContent (t t' : Tx) : Prop where
  asset : t'.canonAsset u = t.canonAsset u
  kind : t'.canonKind u = t.canonKind u
  qty : canonNumber t'.qty = canonNumber t.qty
  unitPrice : canonNumber t'.unitPrice = canonNumber t.unitPrice

variable (u) in
/--
What the cost basis reads as it is written.
-/
structure SameWritten (t t' : Tx) : Prop where
  txid : t'.txid = t.txid
  asset : u.upper t'.asset = u.upper t.asset
  ts : t'.ts = t.ts

theorem canonicalTx_eq_ok {t : Tx} {c : CanonicalTx} (h : canonicalTx u t = .ok c)
    : canonQuantity t.qty = .ok c.qty ∧ canonQuantity t.unitPrice = .ok c.unitPrice ∧
        c.kind = t.canonKind u ∧ c.asset = t.canonAsset u := by
  rcases Except.bind_eq_ok.mp h with ⟨qty, hqty, h⟩
  rcases Except.bind_eq_ok.mp h with ⟨unitPrice, hprice, h⟩
  rw [← Except.pure_eq_ok.mp h]
  exact ⟨Except.mapError_eq_ok.mp hqty, Except.mapError_eq_ok.mp hprice, rfl, rfl⟩

theorem sameContent_of_canonicalTx {t t' : Tx} {c : CanonicalTx} (h : canonicalTx u t = .ok c)
    (h' : canonicalTx u t' = .ok c) : SameContent u t t' := by
  rcases canonicalTx_eq_ok h with ⟨hqty, hprice, hkind, hasset⟩
  rcases canonicalTx_eq_ok h' with ⟨hqty', hprice', hkind', hasset'⟩
  refine ⟨hasset'.symm.trans hasset, hkind'.symm.trans hkind, ?_, ?_⟩
  . rw [canonNumber, canonNumber, hqty, hqty']
  . rw [canonNumber, canonNumber, hprice, hprice']

theorem SameContent.isDisposal_eq {t t' : Tx} (h : SameContent u t t')
    : t'.isDisposal u = t.isDisposal u := by
  rw [Tx.isDisposal, Tx.isDisposal, h.kind]

theorem SameCanonical.content {txs txs' : List Tx} (h : SameCanonical u txs txs')
    {chain : List Evidence.Entry} (hchain : buildChain u interp sha3_256 txs = .ok chain)
    : List.Forall₂ (SameContent u) txs txs' := by
  refine List.forall₂_imp_of_mem h ?_
  intro t ht t' hsame
  rcases Evidence.canonical_of_buildChainFrom hchain t ht with ⟨json, hjson⟩
  rcases Except.map_eq_ok.mp hjson with ⟨c, hc, _⟩
  have hc := Except.mapError_eq_ok.mp hc
  exact sameContent_of_canonicalTx hc (hsame.trans hc)

/--
The chain knows the canonical sequence alone.
-/
theorem SameCanonical.headOf_eq {txs txs' : List Tx} (h : SameCanonical u txs txs')
    {chain : List Evidence.Entry} (hchain : buildChain u interp sha3_256 txs = .ok chain)
    : ∃ chain', buildChain u interp sha3_256 txs' = .ok chain' ∧
        Evidence.headOf chain' = Evidence.headOf chain :=
  Evidence.headOf_buildChain (h.imp fun t t' hsame => by rw [hsame]) hchain

/--
Nothing but the cost basis can make a difference.
-/
theorem SameCanonical.attest_eq {txs txs' : List Tx} (h : SameCanonical u txs txs') {asOf : Str}
    {att : Attestation} (hatt : attest u interp sha3_256 txs asOf = .ok att)
    (hbasis : costBasisFifo u txs' = costBasisFifo u txs)
    : attest u interp sha3_256 txs' asOf = .ok att := by
  rcases Except.bind_eq_ok.mp hatt with ⟨chain, hchain, _⟩
  rcases h.headOf_eq hchain with ⟨chain', hchain', hhead⟩
  rw [attest, hchain', hbasis, ← List.Forall₂.length_eq h, Except.ok_bind, hhead]
  rw [attest, hchain, Except.ok_bind] at hatt
  exact hatt

/--
Transactions that are written alike where it counts have the same cost basis.
-/
theorem costBasisFifo_congr {txs txs' : List Tx}
    (h : List.Forall₂ (fun t t' => SameContent u t t' ∧ SameWritten u t t') txs txs')
    : costBasisFifo u txs' = costBasisFifo u txs := by
  have hordered := List.forall₂_sortBy (fun p : Tx × Nat => [u.upper p.1.asset, p.1.ts])
    (fun p : Tx × Nat => [u.upper p.1.asset, p.1.ts])
    (fun p p' hp => by rw [hp.1.2.asset, hp.1.2.ts]) (List.forall₂_zipIdx h 0)
  rw [costBasisFifo, costBasisFifo, ordered, ordered, List.foldlM_congr (hordered.imp ?_)]
  rintro ⟨t, i⟩ ⟨t', i'⟩ ⟨⟨hcontent, hwritten⟩, hi⟩ book
  dsimp only at hi
  subst hi
  have hreport : report t' = report t := by
    funext qty price spent
    rw [report, report, hwritten.txid, hwritten.ts]
  have hpost : ∀ lots, post u lots (t', i') = post u lots (t, i') := by
    intro lots
    rw [post, post, hcontent.kind, hcontent.qty, hcontent.unitPrice, hreport]
  rw [process, process, hcontent.asset, hpost]

/-!
### Without a disposal
-/

/--
Quantity and price of every transaction are read.
-/
def Numbers (t : Tx) : Prop :=
  ∃ qty price, canonNumber t.qty = .ok qty ∧ canonNumber t.unitPrice = .ok price

theorem numbers_of_costBasisFifo {txs : List Tx} {out : Dict Str (List Disposal)}
    (h : costBasisFifo u txs = .ok out) : ∀ t ∈ txs, Numbers t := by
  have hall : ∀ (ps : List (Tx × Nat)) (book book' : Book),
      ps.foldlM (process u) book = .ok book' → ∀ p ∈ ps, Numbers p.1 := by
    intro ps
    induction ps with
    | nil => simp
    | cons p ps ih =>
      intro book book' hfold
      rw [List.foldlM_cons] at hfold
      rcases Except.bind_eq_ok.mp hfold with ⟨book₁, hprocess, hfold⟩
      rcases process_eq_ok hprocess with ⟨res, hpost, _⟩
      rcases post_eq_ok hpost with ⟨qty, price, hqty, hprice, _⟩
      rw [List.forall_mem_cons]
      exact ⟨⟨qty, price, hqty, hprice⟩, ih book₁ book' hfold⟩
  rcases Except.bind_eq_ok.mp h with ⟨book, hfold, _⟩
  intro t ht
  rcases List.mem_iff_getElem.mp ht with ⟨i, hi, rfl⟩
  refine hall _ _ _ hfold (txs[i], i) ?_
  rw [ordered, List.mem_sortBy, List.mk_mem_zipIdx_iff_getElem?]
  exact List.getElem?_eq_getElem hi

/--
A transaction that is no disposal adds nothing to the result.
-/
theorem process_of_not_disposal {p : Tx × Nat} (hdisposal : p.1.isDisposal u = false)
    (hnumbers : Numbers p.1) (book : Book)
    : ∃ book', process u book p = .ok book' ∧ book'.out = book.out := by
  rcases hnumbers with ⟨qty, price, hqty, hprice⟩
  rw [process, post, hqty, hprice, Except.ok_bind, Except.ok_bind]
  by_cases hacquire : p.1.canonKind u ∈ acquireKinds
  . rw [if_pos hacquire]
    exact ⟨_, rfl, rfl⟩
  . have hdispose : p.1.canonKind u ∉ disposeKinds := by
      simpa [Tx.isDisposal, hacquire] using hdisposal
    rw [if_neg hacquire, if_neg hdispose]
    exact ⟨_, rfl, rfl⟩

theorem costBasisFifo_of_no_disposal {txs : List Tx} (hdisposal : ∀ t ∈ txs, t.isDisposal u = false)
    (hnumbers : ∀ t ∈ txs, Numbers t) : costBasisFifo u txs = .ok Dict.empty := by
  have hall : ∀ (ps : List (Tx × Nat)), (∀ p ∈ ps, p.1 ∈ txs) → ∀ book : Book,
      ∃ book', ps.foldlM (process u) book = .ok book' ∧ book'.out = book.out := by
    intro ps hps
    induction ps with
    | nil => exact fun book => ⟨book, rfl, rfl⟩
    | cons p ps ih =>
      intro book
      rw [List.forall_mem_cons] at hps
      rcases process_of_not_disposal (hdisposal _ hps.1) (hnumbers _ hps.1) book with
        ⟨book₁, hprocess, hout⟩
      rcases ih hps.2 book₁ with ⟨book', hfold, hout'⟩
      refine ⟨book', ?_, hout'.trans hout⟩
      rw [List.foldlM_cons, hprocess]
      exact hfold
  have hmem : ∀ p ∈ ordered u txs, p.1 ∈ txs := by
    intro p hp
    exact List.fst_mem_of_mem_zipIdx ((List.mem_sortBy _).mp hp)
  rcases hall _ hmem ⟨Dict.empty, Dict.empty⟩ with ⟨book', hfold, hout⟩
  rw [costBasisFifo, hfold, Except.ok_bind, hout]
  rfl

/-!
### With a disposal
-/

/--
The records have the identifiers of the disposals, as they are written.
-/
theorem txid_disposals {lots : List Lot} {ps : List (Tx × Nat)} {ds : List Disposal}
    (h : disposals u lots ps = .ok ds)
    : ds.map Disposal.txid = (ps.filter fun p => p.1.isDisposal u).map fun p => p.1.txid := by
  induction ps generalizing lots ds with
  | nil =>
    rw [← Except.ok.inj h]
    rfl
  | cons p ps ih =>
    rcases Except.bind_eq_ok.mp h with ⟨res, hpost, h⟩
    rcases post_eq_ok hpost with ⟨qty, price, _, _, ⟨hacquire, rfl⟩ |
      ⟨hacquire, hdispose, spent, d, _, hd, rfl⟩ | ⟨hacquire, hdispose, rfl⟩⟩
    . rw [List.filter_cons_of_neg (by simp [Tx.isDisposal, hacquire])]
      exact ih h
    . rcases Except.bind_eq_ok.mp h with ⟨ds', hds', h⟩
      rw [← Except.pure_eq_ok.mp h,
        List.filter_cons_of_pos (by simp [Tx.isDisposal, hacquire, hdispose]), List.map_cons,
        List.map_cons, ih hds', (report_eq_ok hd).1]
    . rw [List.filter_cons_of_neg (by simp [Tx.isDisposal, hdispose])]
      exact ih h

/--
A transaction with a space after its identifier.
-/
def Tx.spaced (t : Tx) : Tx := { t with txid := t.txid ++ [0x20] }

theorem canonicalTx_spaced (t : Tx) : canonicalTx u t.spaced = canonicalTx u t := by
  have hstrip := Python.stripBlanks_append_blank t.txid (c := 0x20) (by decide)
  rw [canonicalTx, canonicalTx, Tx.spaced]
  dsimp only
  rw [hstrip]
  rfl

theorem sameCanonical_spaced (txs : List Tx) : SameCanonical u txs (txs.map Tx.spaced) := by
  rw [SameCanonical, List.forall₂_map_right_iff, List.forall₂_same]
  exact fun t _ => canonicalTx_spaced t

theorem processed_spaced (txs : List Tx) (asset : Str)
    : processed u (txs.map Tx.spaced) asset
        = (processed u txs asset).map fun p => (p.1.spaced, p.2) := by
  rw [processed, processed, ordered, ordered, List.zipIdx_map, List.map_sortBy, List.filter_map]
  rfl

theorem txids_of_costBasisFifo {txs : List Tx} {out : Dict Str (List Disposal)}
    (h : costBasisFifo u txs = .ok out) (asset : Str)
    : ((out.get? asset).getD []).map Disposal.txid
        = ((processed u txs asset).filter fun p => p.1.isDisposal u).map fun p => p.1.txid := by
  rcases disposals_of_costBasisFifo h asset with ⟨ds, hds, hout⟩
  rw [← txid_disposals hds, hout]
  split
  . next hnil => rw [hnil, Option.getD_none]
  . rfl

theorem get?_sortKeys_toJson (d : Disposal)
    : d.toJson.sortKeys.get? (txt "txid") = some (.str d.txid) := by
  rw [Disposal.toJson, Json.sortKeys_obj, Json.get?, Json.lookup_sortMembers]
  . rfl
  . simp only [List.map_cons, List.map_nil]
    decide

theorem lookup_byAsset (out : Dict Str (List Disposal)) (asset : Str)
    : Assoc.lookup asset (byAsset out)
        = (out.get? asset).map fun ds => .arr (ds.map Disposal.toJson) :=
  Assoc.lookup_map asset (fun ds : List Disposal => Json.arr (ds.map Disposal.toJson)) out.items

theorem nodup_byAsset (out : Dict Str (List Disposal)) : ((byAsset out).map Prod.fst).Nodup := by
  rw [byAsset, List.map_map]
  exact out.nodup

/--
Sections of the result that are the same have the same identifiers.
-/
theorem txids_of_sortKeys_eq {out out' : Dict Str (List Disposal)}
    (h : (costBasisJson out').sortKeys = (costBasisJson out).sortKeys) (asset : Str)
    : ((out'.get? asset).getD []).map Disposal.txid = ((out.get? asset).getD []).map Disposal.txid := by
  have hsection := Json.lookup_of_sortKeys_eq (by simp; decide) (by simp; decide) h (txt "by_asset")
  have hasset := Json.lookup_of_sortKeys_eq (nodup_byAsset out') (nodup_byAsset out)
    (Option.some.inj hsection) asset
  rw [lookup_byAsset, lookup_byAsset] at hasset
  cases hout' : out'.get? asset with
  | none =>
    cases hout : out.get? asset with
    | none => rfl
    | some ds => simp [hout, hout'] at hasset
  | some ds' =>
    cases hout : out.get? asset with
    | none => simp [hout, hout'] at hasset
    | some ds =>
      rw [hout, hout', Option.map_some, Option.map_some, Option.map_some, Option.map_some,
        Option.some.injEq, Json.sortKeys_arr, Json.sortKeys_arr, Json.arr.injEq] at hasset
      have hids := congrArg (List.map fun v : Json => v.get? (txt "txid")) hasset
      simp only [List.map_map, Function.comp_def, get?_sortKeys_toJson] at hids
      have hinj : Function.Injective fun id : Str => some (Json.str id) := by
        intro a b hab
        simpa using hab
      refine List.map_injective_iff.mpr hinj ?_
      rw [List.map_map, List.map_map]
      exact hids

/--
With a disposal there is a list with the same canonical sequence and another cost basis.
-/
theorem costBasisJson_spaced_ne {txs : List Tx} {out out' : Dict Str (List Disposal)}
    (h : costBasisFifo u txs = .ok out) (h' : costBasisFifo u (txs.map Tx.spaced) = .ok out')
    {t : Tx} (ht : t ∈ txs) (hdisposal : t.isDisposal u = true)
    : (costBasisJson out').sortKeys ≠ (costBasisJson out).sortKeys := by
  intro hsame
  have hids := txids_of_sortKeys_eq hsame (t.canonAsset u)
  rw [txids_of_costBasisFifo h, txids_of_costBasisFifo h', processed_spaced, List.filter_map,
    List.map_map] at hids
  rcases List.mem_iff_getElem.mp ht with ⟨i, hi, rfl⟩
  have hmem : (txs[i], i) ∈ (processed u txs (txs[i].canonAsset u)).filter
      fun p => p.1.isDisposal u := by
    rw [List.mem_filter, processed, List.mem_filter, ordered, List.mem_sortBy,
      List.mk_mem_zipIdx_iff_getElem?]
    exact ⟨⟨List.getElem?_eq_getElem hi, by simp⟩, hdisposal⟩
  have hpointwise := List.map_inj_left.mp hids _ hmem
  simp [Tx.spaced] at hpointwise

/-!
### What an attestation depends on
-/

variable (u interp sha3_256) in
/--
Another list has an attestation with the same digest and the same cost basis.
-/
def SameEvidence (att : Attestation) (txs' : List Tx) (asOf : Str) : Prop :=
  ∃ att', attest u interp sha3_256 txs' asOf = .ok att' ∧ att'.digest = att.digest ∧
    att'.costBasis.sortKeys = att.costBasis.sortKeys

/--
Where nothing is disposed of, and only there, the attestation depends on the canonical sequence alone.
-/
theorem sameEvidence_iff {txs : List Tx} {asOf : Str} {att : Attestation}
    (h : attest u interp sha3_256 txs asOf = .ok att)
    : (∀ txs', SameCanonical u txs txs' → SameEvidence u interp sha3_256 att txs' asOf)
        ↔
      ∀ t ∈ txs, t.isDisposal u = false := by
  rcases attest_eq_ok h with ⟨chain, out, hchain, hout, _, _, _, hbasis, _⟩
  constructor
  . intro hsame t ht
    by_contra hdisposal
    rcases hsame _ (sameCanonical_spaced txs) with ⟨att', hatt', _, hbasis'⟩
    rcases attest_eq_ok hatt' with ⟨_, out', _, hout', _, _, _, hsection, _⟩
    rw [hbasis, hsection] at hbasis'
    exact costBasisJson_spaced_ne hout hout' ht (Bool.eq_true_of_not_eq_false hdisposal) hbasis'
  . intro hdisposal txs' hsame
    have hcontent := hsame.content hchain
    have hnumbers := numbers_of_costBasisFifo hout
    have hdisposal' : ∀ t' ∈ txs', t'.isDisposal u = false := by
      intro t' ht'
      rcases List.exists_of_mem_right hcontent ht' with ⟨t, ht, hsame⟩
      rw [hsame.isDisposal_eq]
      exact hdisposal t ht
    have hnumbers' : ∀ t' ∈ txs', Numbers t' := by
      intro t' ht'
      rcases List.exists_of_mem_right hcontent ht' with ⟨t, ht, hsame⟩
      rw [Numbers, hsame.qty, hsame.unitPrice]
      exact hnumbers t ht
    have hempty : costBasisFifo u txs' = costBasisFifo u txs := by
      rw [costBasisFifo_of_no_disposal hdisposal hnumbers,
        costBasisFifo_of_no_disposal hdisposal' hnumbers']
    exact ⟨att, hsame.attest_eq h hempty, rfl, rfl⟩

/--
Two lists with the same canonical sequence have the same evidence, if identifiers, timestamps and the
upper case of the assets are written alike.
-/
theorem sameEvidence_of_written {txs txs' : List Tx} {asOf : Str} {att : Attestation}
    (h : attest u interp sha3_256 txs asOf = .ok att) (hsame : SameCanonical u txs txs')
    (hwritten : List.Forall₂ (SameWritten u) txs txs') : SameEvidence u interp sha3_256 att txs' asOf := by
  rcases attest_eq_ok h with ⟨chain, _, hchain, _⟩
  have hboth : List.Forall₂ (fun t t' => SameContent u t t' ∧ SameWritten u t t') txs txs' := by
    rw [List.forall₂_iff_get] at hwritten ⊢
    exact ⟨hwritten.1, fun i hi hi' =>
      ⟨(List.forall₂_iff_get.mp (hsame.content hchain)).2 i hi hi', hwritten.2 i hi hi'⟩⟩
  exact ⟨att, hsame.attest_eq h (costBasisFifo_congr hboth), rfl, rfl⟩

end

end TxEvidence
end CryptoValid
