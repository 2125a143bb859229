import CryptoValid.Merkle.Walkers
import CryptoValid.Scitt.Statement

/-!
This module contains the check of a Transparent Statement: the Issuer's signature, then receipt by
receipt the leaf, its path to a root and the signature of the Transparency Service over that root.
-/

namespace CryptoValid
namespace Scitt

open Except (require)

def lVds : Cbor.Key := .int 395

def lVdp : Cbor.Key := .int 396

def vdsRfc9162Sha256 : Int := 1

def vdpInclusion : Cbor.Key := .int (-1)

def lLeaf : Cbor.Key := .text (txt "cryptovalid.leaf")

/--
What is reported of a receipt that is valid.
-/
structure ReceiptResult where
  treeSize : Nat
  leafIndex : Nat
  tsIss : Str
  signedRoot : Str
  payloadDetached : Bool

/--
`v.get(name)` of a dict, `None` if there is no such key.
-/
def member (ms : List (Str × Json)) (name : Str) : Json := (Assoc.lookup name ms).getD .null

/--
`json.loads(leaf.decode("utf-8"))`
-/
def loadsLeaf (interp : Python.Interp) (leaf : Bytes) : Except Raised Json :=
  match Utf8.decode? leaf with
  | none => .error .notUtf8
  | some text => (Python.loads interp text).mapError .loads

/--
The members of `data.scitt` in an entry that registers a statement.
-/
def scittOf? : Json → Option (List (Str × Json) × List (Str × Json))
  | .obj entry =>
    match member entry (txt "data") with
    | .obj data =>
      match member data (txt "scitt") with
      | .obj scitt => some (entry, scitt)
      | _ => none
    | _ => none
  | _ => none

/--
The leaf that a receipt carries.
-/
def leafOf? (m : CoseSign1) : Option Bytes :=
  match Cbor.get m.unprotected lLeaf with
  | .bytes leaf => some leaf
  | _ => none

/--
The first inclusion proof of a receipt.
-/
def inclusionProof? (m : CoseSign1) : Option Bytes :=
  match Cbor.get m.unprotected lVdp with
  | .map vdp =>
    match Cbor.get vdp vdpInclusion with
    | .arr (.bytes proof :: _) => some proof
    | _ => none
  | _ => none

structure InclusionProof where
  treeSize : Nat
  leafIndex : Nat
  path : List Bytes

def hash? : Cbor → Option Bytes
  | .bytes h => if h.length = 32 then some h else none
  | _ => none

def InclusionProof.ofCbor? : Cbor → Option InclusionProof
  | .arr [.int n, .int idx, .arr path] =>
    if 0 ≤ n ∧ 0 ≤ idx then (path.mapM hash?).map (⟨n.toNat, idx.toNat, ·⟩) else none
  | _ => none

/--
The value of an `Option`, or the reason that it is missing.
-/
def orWhy (x : Option α) (why : Why) : Except Why α :=
  match x with
  | some a => .ok a
  | none => .error why

/--
One receipt, `want` is the identity of the statement.
-/
def verifyReceipt (env : Env) (want : Str) (tsPubkeyHex : Str) (expectedTsIss : Option Str)
    (rb : Bytes) : Except Why ReceiptResult := do
  let m ← (parseCoseSign1 rb).mapError .invalid
  require ((Cbor.get m.header lAlg).eqInt algEddsa ∧
    (Cbor.get m.header lVds).eqInt vdsRfc9162Sha256) .algOrVds
  let (iss, _) ← orWhy (cwtClaims? m.header) .noCwtClaims
  require (expectedTsIss.all fun expected => iss = expected) (.tsIss iss)
  let tpk ← fromHex tsPubkeyHex
  require ((Cbor.get m.header lKid).isBytes tpk) .kidDiffers
  let leaf ← orWhy (leafOf? m) .noLeaf
  let (entry, scitt) ← orWhy (scittOf? (← (loadsLeaf env.interp leaf).mapError .invalid))
    .notRegistration
  require (member scitt (txt "statement_sha256") = .str want) .otherStatement
  let proof ← orWhy (inclusionProof? m) .noInclusionProof
  let p ← orWhy (InclusionProof.ofCbor? (← (decode proof).mapError .invalid)) .malformedProof
  require (Python.eqInt (member entry (txt "idx")) p.leafIndex) .leafIndexDiffers
  let recomputed ← orWhy (Merkle.rootFromInclusion env.sha256 p.leafIndex p.treeSize
    (Merkle.leafHash env.sha256 leaf) p.path) .noRoot
  require (m.payload.all fun root => root = recomputed) .notSignedRoot
  checkSignature env tpk m recomputed
  return ⟨p.treeSize, p.leafIndex, iss, Hex.ofBytes recomputed, m.payload.isNone⟩

/--
What `why` says of a Transparent Statement.
-/
inductive TransparentWhy where
  | signedStatement (why : Why)
  | invalid (e : Raised)
  | noReceipts
  | valid (good total : Nat)
  | noValidReceipt
  deriving DecidableEq

structure TransparentResult where
  ok : Bool
  why : TransparentWhy
  statement : Except Why Statement
  receipts : List (Except Why ReceiptResult)

def bytes? : Cbor → Option Bytes
  | .bytes b => some b
  | _ => none

/--
The receipts in the unprotected header, if there are some.
-/
def receiptsOf? (m : CoseSign1) : Option (List Bytes) :=
  match Cbor.get m.unprotected lReceipts with
  | .arr (r :: rs) => (r :: rs).mapM bytes?
  | _ => none

def verifyTransparentStatement (env : Env) (cose : Bytes) (issuerPubkeyHex tsPubkeyHex : Str)
    (payload : Option Bytes) (expectedTsIss : Option Str) : TransparentResult :=
  match verifySignedStatement env cose issuerPubkeyHex payload with
  | .error why => ⟨false, .signedStatement why, .error why, []⟩
  | .ok st =>
    match parseCoseSign1 cose with
    | .error e => ⟨false, .invalid e, .ok st, []⟩
    | .ok m =>
      match receiptsOf? m with
      | none => ⟨false, .noReceipts, .ok st, []⟩
      | some recs =>
        let results := recs.map (verifyReceipt env (m.id env.sha256) tsPubkeyHex expectedTsIss)
        let good := results.countP (·.isOk)
        if 0 < good then ⟨true, .valid good recs.length, .ok st, results⟩
        else ⟨false, .noValidReceipt, .ok st, results⟩

/-!
### Soundness
-/

/--
The leaf is a ledger entry that names a statement, and this is the entry's index.
-/
def Registers (interp : Python.Interp) (leaf : Bytes) (statementId : Str) (idx : Nat) : Prop :=
  ∃ v entry scitt, loadsLeaf interp leaf = .ok v ∧ scittOf? v = some (entry, scitt) ∧
    member scitt (txt "statement_sha256") = .str statementId ∧
    Python.eqInt (member entry (txt "idx")) idx = true

/--
What a valid receipt shows: the root that is signed, and the leaf and the path that rebuild it.
-/
structure Shows (env : Env) (tsPubkeyHex : Str) (rb : Bytes) (res : ReceiptResult)
    (root leaf : Bytes) (path : List Bytes) : Prop where
  carried : ∃ m, parseCoseSign1 rb = .ok m ∧ leafOf? m = some leaf ∧
    ∃ tpk msg, Python.fromHex? tsPubkeyHex = some tpk ∧
      sig1 m.protectedBytes root = .ok msg ∧ env.ed25519 tpk m.signature msg = true
  signedRoot : res.signedRoot = Hex.ofBytes root
  rebuilt : Merkle.rootFromInclusion env.sha256 res.leafIndex res.treeSize
    (Merkle.leafHash env.sha256 leaf) path = some root

theorem orWhy_eq_ok {x : Option α} {why : Why} {a : α} : orWhy x why = .ok a ↔ x = some a := by
  cases x <;> simp [orWhy]

theorem fromHex_eq_ok {text : Str} {b : Bytes}
    : fromHex text = .ok b ↔ Python.fromHex? text = some b := by
  rw [fromHex]
  cases Python.fromHex? text <;> simp

theorem checkSignature_eq_ok {env : Env} {pk : Bytes} {m : CoseSign1} {payload : Bytes} {u : Unit}
    : checkSignature env pk m payload = .ok u ↔
        ∃ msg, sig1 m.protectedBytes payload = .ok msg ∧
          env.ed25519 pk m.signature msg = true := by
  simp only [checkSignature, Except.bind_eq_ok, Except.mapError_eq_ok, Except.require_eq_ok]

theorem verifyReceipt_shows {env : Env} {want tsPubkeyHex : Str} {expectedTsIss : Option Str}
    {rb : Bytes} {res : ReceiptResult}
    (h : verifyReceipt env want tsPubkeyHex expectedTsIss rb = .ok res)
    : ∃ root leaf path, Shows env tsPubkeyHex rb res root leaf path ∧
        Registers env.interp leaf want res.leafIndex := by
  simp only [verifyReceipt, Except.bind_eq_ok, Except.mapError_eq_ok, Except.require_eq_ok,
    orWhy_eq_ok, fromHex_eq_ok, checkSignature_eq_ok, Except.pure_eq_ok] at h
  rcases h with ⟨m, hparse, _, halg, ⟨iss, sub⟩, hclaims, _, hiss, tpk, hhex, _, hkid, leaf, hleaf,
    v, hv, ⟨entry, scitt⟩, hscitt, _, hwant, proof, hproof, c, hc, p, hp, _, hidx, root, hroot, _,
    hpayload, _, hsigned, rfl⟩
  refine ⟨root, leaf, p.path, ⟨⟨m, hparse, hleaf, tpk, ?_⟩, rfl, hroot⟩, ?_⟩
  . rcases hsigned with ⟨msg, hmsg, hverify⟩
    exact ⟨msg, hhex, hmsg, hverify⟩
  . exact ⟨v, entry, scitt, hv, hscitt, of_decide_eq_true hwant, hidx⟩

theorem verifyTransparentStatement_ok {env : Env} {cose : Bytes} {issuerPubkeyHex tsPubkeyHex : Str}
    {payload : Option Bytes} {expectedTsIss : Option Str}
    (h : (verifyTransparentStatement env cose issuerPubkeyHex tsPubkeyHex payload expectedTsIss).ok
      = true)
    : ∃ m recs, parseCoseSign1 cose = .ok m ∧ receiptsOf? m = some recs ∧
        (verifyTransparentStatement env cose issuerPubkeyHex tsPubkeyHex payload
            expectedTsIss).receipts
          = recs.map (verifyReceipt env (m.id env.sha256) tsPubkeyHex expectedTsIss) ∧
        ∃ rb ∈ recs, ∃ res, verifyReceipt env (m.id env.sha256) tsPubkeyHex expectedTsIss rb
          = .ok res := by
  unfold verifyTransparentStatement at h ⊢
  split at h
  . simp at h
  . split at h
    . simp at h
    . next m hm =>
      split at h
      . simp at h
      . next recs hrecs =>
        dsimp only at h
        split at h
        . next hgood =>
          refine ⟨m, recs, hm, hrecs, ?_, ?_⟩
          . dsimp only
            rw [if_pos hgood]
          . rcases List.countP_pos_iff.mp hgood with ⟨r, hr, hok⟩
            rcases List.mem_map.mp hr with ⟨rb, hrb, rfl⟩
            refine ⟨rb, hrb, ?_⟩
            cases hres : verifyReceipt env (m.id env.sha256) tsPubkeyHex expectedTsIss rb with
            | error why => simp [hres, Except.isOk, Except.toBool] at hok
            | ok res => exact ⟨res, rfl⟩
        . simp at h

/--
A Transparent Statement that is ok has a valid receipt. Each of its valid receipts has a root that
the Transparency Service has signed, and whoever has a list of leaves with that root has the receipt's
leaf in it, an entry that names this very statement, or two messages that collide.
-/
theorem verifyTransparentStatement_sound (env : Env) (cose : Bytes)
    (issuerPubkeyHex tsPubkeyHex : Str) (payload : Option Bytes) (expectedTsIss : Option Str)
    (out : TransparentResult)
    (hout : verifyTransparentStatement env cose issuerPubkeyHex tsPubkeyHex payload expectedTsIss
      = out)
    (hok : out.ok = true)
    : ∃ id m recs, statementId env.sha256 cose = .ok id ∧
        parseCoseSign1 cose = .ok m ∧ receiptsOf? m = some recs ∧
        (∃ (i : Nat) (res : ReceiptResult), out.receipts[i]? = some (.ok res)) ∧
        ∀ (i : Nat) (res : ReceiptResult), out.receipts[i]? = some (.ok res) →
          ∃ rb root leaf path, recs[i]? = some rb ∧
            Shows env tsPubkeyHex rb res root leaf path ∧
            ∀ leaves, Merkle.mth env.sha256 leaves = root →
              (∃ k : Nat, leaves[k]? = some leaf ∧
                  Registers env.interp leaf id res.leafIndex) ∨
                Collides env.sha256
                  (Merkle.verifyInclusionQueries env.sha256 res.leafIndex res.treeSize leaf path ++
                    Merkle.mthQueries env.sha256 leaves) := by
  subst hout
  rcases verifyTransparentStatement_ok hok with ⟨m, recs, hm, hrecs, hresults, rb, hrb, res, hres⟩
  refine ⟨m.id env.sha256, m, recs, ?_, hm, hrecs, ?_, ?_⟩
  . rw [statementId, hm]
    rfl
  . rcases List.mem_iff_getElem?.mp hrb with ⟨i, hi⟩
    exact ⟨i, res, by rw [hresults, List.getElem?_map, hi, Option.map_some, hres]⟩
  . intro i res hi
    rw [hresults, List.getElem?_map, Option.map_eq_some_iff] at hi
    rcases hi with ⟨rb, hi, hres⟩
    rcases verifyReceipt_shows hres with ⟨root, leaf, path, hshows, hregisters⟩
    refine ⟨rb, root, leaf, path, hi, hshows, fun leaves hroot => ?_⟩
    rcases Merkle.rootFromInclusion_sound env.sha256 hshows.rebuilt hroot with hmem | hcol
    . rcases List.mem_iff_getElem?.mp hmem with ⟨k, hk⟩
      exact Or.inl ⟨k, hk, hregisters⟩
    . exact Or.inr hcol

/-!
### Example
-/

/--
A private key on the only message that is signed with it.
-/
def exampleIssuer : SigningKey where
  pk := Cbor.beBytes 32 0x8a88e3dd7409f195fd52db2d3cba5d72ca6709bf1d94121bf3748801b40f6f5c
  sign _ :=
    Cbor.beBytes 32 0x42feb8f49e44fa6df563943d7822ff1e6be2b2cb12c9562a4e9d918f633ce2ac ++
      Cbor.beBytes 32 0x3d09ec26f754b7d7018684d33600d838f27f250b16adeac646364e4e5a221d09

def exampleService : SigningKey where
  pk := Cbor.beBytes 32 0x8139770ea87d175f56a35466c34c7ecccb8d8a91b4ee37a25df60f5b8fc9b394
  sign _ :=
    Cbor.beBytes 32 0x22a88f0ddd392cb31744b35c8649819ad5bc60bd8187543f290bd96d9faf1747 ++
      Cbor.beBytes 32 0x38c8ad257763b57dd6277ed16f9af59d9b36fb4483880dbd26d3bbc1d87ae40d

def exampleEnv : Env where
  interp := ⟨1000, 1000, some 4300⟩
  sha256 := sha256
  ed25519 pk sig msg :=
    (pk = exampleIssuer.pk && sig = exampleIssuer.sign msg) ||
      (pk = exampleService.pk && sig = exampleService.sign msg)

def exampleStatement : Bytes :=
  ((signedStatement [0x70] (txt "a/b") (txt "i") (txt "s") exampleIssuer false none).toOption).getD []

/--
An entry of the ledger, linked to the entry that is before it.
-/
def exampleLedgerEntry (idx : Int) (data : List (Str × Json)) (prevHash : Str) : Bytes :=
  (Json.canonical (.obj [
    (txt "idx", .int idx), (txt "ts", .str (txt "2026-01-01T00:00:00Z")), (txt "data", .obj data),
    (txt "prev_hash", .str prevHash)])).flatMap Utf8.encodePoint

def exampleFirst : Bytes := exampleLedgerEntry 0 [] (List.replicate 64 0x30)

/--
The entry that registers the statement.
-/
def exampleLeaf : Bytes :=
  exampleLedgerEntry 1 [(txt "scitt", .obj [
      (txt "statement_sha256", .str (Hex.ofBytes
        (Cbor.beBytes 32 0x0fa6e832a695331bd1ebab6f1d7adb859cd9ea0a8a5e727c9ad5adcc66604dbd))),
      (txt "iss", .str (txt "i")), (txt "sub", .str (txt "s")),
      (txt "content_type", .str (txt "a/b")),
      (txt "payload_sha256", .str (Hex.ofBytes (sha256 [0x70])))])]
    (Hex.ofBytes (sha256 exampleFirst))

def exampleLast : Bytes := exampleLedgerEntry 2 [] (Hex.ofBytes (sha256 exampleLeaf))

def exampleReceipt : Bytes :=
  (do
    let header ← encode (.map [(lAlg, .int algEddsa), (lVds, .int vdsRfc9162Sha256),
      (lKid, .bytes exampleService.pk),
      (lCwt, .map [(cwtIss, .text (txt "t")), (cwtSub, .text (txt "t"))])])
    let proof ← encode (.arr [.int 3, .int 1, .arr [
      .bytes (Merkle.leafHash sha256 exampleFirst), .bytes (Merkle.leafHash sha256 exampleLast)]])
    coseSign1 header [(lVdp, .map [(vdpInclusion, .arr [.bytes proof])]), (lLeaf, .bytes exampleLeaf)]
      none (exampleService.sign [])).toOption.getD []

def exampleTransparent : Bytes :=
  (transparentStatement exampleStatement [exampleReceipt]).toOption.getD []

def exampleResult : TransparentResult :=
  verifyTransparentStatement exampleEnv exampleTransparent (Hex.ofBytes exampleIssuer.pk)
    (Hex.ofBytes exampleService.pk) none (some (txt "t"))

theorem verifyTransparentStatement_sound_exampleTransparent
    : ∃ id m recs, statementId sha256 exampleTransparent = .ok id ∧
        parseCoseSign1 exampleTransparent = .ok m ∧ receiptsOf? m = some recs ∧
        (∃ (i : Nat) (res : ReceiptResult), exampleResult.receipts[i]? = some (.ok res)) ∧
        ∀ (i : Nat) (res : ReceiptResult), exampleResult.receipts[i]? = some (.ok res) →
          ∃ rb root leaf path, recs[i]? = some rb ∧
            Shows exampleEnv (Hex.ofBytes exampleService.pk) rb res root leaf path ∧
            ∀ leaves, Merkle.mth sha256 leaves = root →
              (∃ k : Nat, leaves[k]? = some leaf ∧
                  Registers exampleEnv.interp leaf id res.leafIndex) ∨
                Collides sha256
                  (Merkle.verifyInclusionQueries sha256 res.leafIndex res.treeSize leaf path ++
                    Merkle.mthQueries sha256 leaves) :=
  verifyTransparentStatement_sound exampleEnv exampleTransparent (Hex.ofBytes exampleIssuer.pk)
    (Hex.ofBytes exampleService.pk) none (some (txt "t")) exampleResult rfl (by decide +kernel)

end Scitt
end CryptoValid
