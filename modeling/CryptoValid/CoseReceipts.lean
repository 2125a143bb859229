import CryptoValid.Lib.CborRoundTrip
import CryptoValid.Scitt.Transparent

/-!
This module contains the receipts of `cryptovalid_cose_receipts.py`: COSE Receipts of any
implementation, with one or more inclusion proofs in the unprotected header.
-/

namespace CryptoValid
namespace CoseReceipts

open Except (require)
open Scitt (CoseSign1 InclusionProof lAlg lKid lVds lVdp vdpInclusion maxIss)

inductive Alg where
  | eddsa
  | es256
  | es384

inductive Vds where
  | rfc9162Sha256
  | ccfLedgerSha256

inductive Profile where
  | rfc9942
  | rfc9943

inductive PublicKey where
  | ed25519 (raw : Bytes)
  | ellipticCurve (spki : Bytes)
  | other

/--
A key as it is given: a text or bytes.
-/
inductive GivenKey where
  | str (s : Str)
  | bytes (b : Bytes)

/--
The `cryptography` package and the hash function. A signature that is refused is `false`.
-/
structure Env where
  sha256 : HashFn 32
  loadPem : Bytes → Option PublicKey
  ed25519 : (pk sig msg : Bytes) → Bool
  ecdsa : (sha384 : Bool) → (spki : Bytes) → (r s : Nat) → (msg : Bytes) → Bool

/--
The exceptions that `verify_receipt` turns into a refusal.
-/
inductive Raised where
  | cose (e : Scitt.Raised)
  | key

inductive HeaderMust where
  | cwtClaims
  | issLength
  | kid

/--
Why the loop goes on after a proof.
-/
inductive Tried where
  | malformed
  | noRoot
  | attachedPayload
  | signature

inductive CcfWhy where
  | decode (e : Cbor.DecodeError)
  | proof
  | leaf
  | path

/--
The stages of a refusal, with what `why` says.
-/
inductive Refused where
  | malformedReceipt (e : Raised)
  | unsupportedVds (vds : Cbor)
  | unsupportedAlg (alg : Cbor)
  | headerMust (why : HeaderMust)
  | noInclusionProof
  | inclusionRootSignature (tried : List Tried)
  | payloadNotDetached
  | malformedProof (i : Nat) (why : CcfWhy)
  | proofsDisagree
  | leafNotThisStatement
  | ccfRootSignature

inductive Accepted where
  | rfc9162 (alg : Alg) (treeSize leafIndex : Nat) (root : Bytes)
  | ccf (alg : Alg) (root : Bytes)

def lX5chain : Cbor.Key := .int 33

def lX5t : Cbor.Key := .int 34

def isHexDigit (c : CodePoint) : Bool :=
  (0x30 ≤ c.val && c.val ≤ 0x39) || (0x61 ≤ c.val && c.val ≤ 0x66) || (0x41 ≤ c.val && c.val ≤ 0x46)

def loadPublicKey (env : Env) (key : GivenKey) : Except Raised PublicKey :=
  match key with
  | .bytes b => pem b
  | .str s =>
    if s.length = 64 && s.all isHexDigit then .ok (.ed25519 ((Python.fromHex? s).getD []))
    else if s.all (·.val < 0x80) then pem (s.flatMap Utf8.encodePoint)
    else .error .key
where
  pem (b : Bytes) : Except Raised PublicKey :=
    match env.loadPem b with
    | some pub => .ok pub
    | none => .error .key

/--
The check of a signature, the type of the key is bound to the algorithm.
-/
def verifySig (env : Env) (alg : Alg) (pub : PublicKey) (toBeSigned sig : Bytes) : Bool :=
  match alg, pub with
  | .eddsa, .ed25519 raw => env.ed25519 raw sig toBeSigned
  | .es256, .ellipticCurve spki => ec false 32 spki
  | .es384, .ellipticCurve spki => ec true 48 spki
  | _, _ => false
where
  ec (sha384 : Bool) (size : Nat) (spki : Bytes) : Bool :=
    sig.length = 2 * size &&
      env.ecdsa sha384 spki (Cbor.natOfBytes (sig.take size)) (Cbor.natOfBytes (sig.drop size))
        toBeSigned

def headerMusts (ph : List (Cbor.Key × Cbor)) : Option HeaderMust :=
  match Scitt.cwtClaims? ph with
  | none => some .cwtClaims
  | some (iss, _) =>
    if ¬(1 ≤ iss.length ∧ iss.length ≤ maxIss) then some .issLength
    else if (Assoc.lookup lKid ph).isNone && (Assoc.lookup lX5t ph).isNone &&
        (Assoc.lookup lX5chain ph).isNone then some .kid
    else none

def alg? : Cbor → Option Alg
  | .int i => if i = -8 then some .eddsa else if i = -7 then some .es256
    else if i = -35 then some .es384 else none
  | _ => none

def vds? : Cbor → Option Vds
  | .int i => if i = 1 then some .rfc9162Sha256 else if i = 2 then some .ccfLedgerSha256 else none
  | _ => none

/--
The checks of the protected header.
-/
def checkHeader (ph : List (Cbor.Key × Cbor)) (profile : Profile) : Except Refused (Vds × Alg) :=
  match vds? (Cbor.get ph lVds) with
  | none => .error (.unsupportedVds (Cbor.get ph lVds))
  | some vds =>
    match alg? (Cbor.get ph lAlg) with
    | none => .error (.unsupportedAlg (Cbor.get ph lAlg))
    | some alg =>
      match profile, headerMusts ph with
      | .rfc9943, some why => .error (.headerMust why)
      | _, _ => .ok (vds, alg)

/--
The list of inclusion proofs in the unprotected header.
-/
def proofs? (m : CoseSign1) : Option (List Cbor) :=
  match Cbor.get m.unprotected lVdp with
  | .map vdp =>
    match Cbor.get vdp vdpInclusion with
    | .arr ps => some ps
    | _ => none
  | _ => none

def decode (b : Bytes) : Except Raised Cbor := (Scitt.decode b).mapError .cose

def sig1 (protectedBytes payload : Bytes) : Except Raised Bytes :=
  (Scitt.sig1 protectedBytes payload).mapError .cose

section

variable (env : Env) (m : CoseSign1) (alg : Alg) (pub : PublicKey)

/-!
### RFC 9162
-/

/--
One turn of the loop over the proofs: it raises, or goes on, or the receipt is accepted.
-/
def tryProof (leaf pb : Bytes) : Except Raised (Except Tried Accepted) := do
  match InclusionProof.ofCbor? (← decode pb) with
  | none => return .error .malformed
  | some p =>
    match Merkle.rootFromInclusion env.sha256 p.leafIndex p.treeSize leaf p.path with
    | none => return .error .noRoot
    | some root =>
      if m.payload.any (· ≠ root) then
        return .error .attachedPayload
      else if verifySig env alg pub (← sig1 m.protectedBytes root) m.signature then
        return .ok (.rfc9162 alg p.treeSize p.leafIndex root)
      else
        return .error .signature

/--
The proofs one after the other, `tried` is what the loop has noted before them.
-/
def tryProofs (leaf : Bytes) (tried : List Tried) : List Bytes → Except Refused Accepted
  | [] => .error (.inclusionRootSignature tried)
  | pb :: proofs =>
    match tryProof env m alg pub leaf pb with
    | .error e => .error (.malformedReceipt e)
    | .ok (.ok accepted) => .ok accepted
    | .ok (.error why) => tryProofs leaf (tried ++ [why]) proofs

/-!
### CCF
-/

def ccfLeaf? : Cbor → Option (Bytes × Bytes × Bytes)
  | .arr [.bytes transaction, .text evidence, .bytes dataHash] =>
    match Utf8.encode? evidence with
    | some evidence =>
      if transaction.length = 32 ∧ 1 ≤ evidence.length ∧ evidence.length ≤ 1024 ∧
          dataHash.length = 32 then
        some (transaction, evidence, dataHash)
      else none
    | none => none
  | _ => none

def ccfStep? : Cbor → Option (Bool × Bytes)
  | .arr [.bool left, .bytes x] => if x.length = 32 then some (left, x) else none
  | _ => none

def ccfPath? : Cbor → Option (List (Bool × Bytes))
  | .arr (e :: es) => (e :: es).mapM ccfStep?
  | _ => none

/--
`compute_root`, with the data hash of the leaf.
-/
def ccfRoot (H : HashFn 32) (proof : Cbor) : Except CcfWhy (Bytes × Bytes) :=
  match proof with
  | .map ms =>
    if ms.all (fun kv => kv.1 = .int 1 || kv.1 = .int 2) && (Assoc.lookup (.int 1) ms).isSome &&
        (Assoc.lookup (.int 2) ms).isSome then
      match ccfLeaf? (Cbor.get ms (.int 1)) with
      | none => .error .leaf
      | some (transaction, evidence, dataHash) =>
        match ccfPath? (Cbor.get ms (.int 2)) with
        | none => .error .path
        | some path =>
          let h := H (transaction ++ H evidence ++ dataHash)
          .ok (path.foldl (fun h (left, x) => if left then H (x ++ h) else H (h ++ x)) h, dataHash)
    else .error .proof
  | _ => .error .proof

def ccfProof (i : Nat) (pb : Bytes) : Except Refused (Bytes × Bytes) :=
  match Cbor.decode pb with
  | .error e =>
    if e.isValueError then .error (.malformedProof i (.decode e))
    else .error (.malformedReceipt (.cose (.decode e)))
  | .ok v => (ccfRoot env.sha256 v).mapError (.malformedProof i)

def verifyCcf (proofs : List Bytes) (entry : Bytes) : Except Refused Accepted := do
  require m.payload.isNone .payloadNotDetached
  match ← proofs.zipIdx.mapM fun p => ccfProof env p.2 p.1 with
  | [] => throw .proofsDisagree
  | (root, dataHash) :: roots =>
    require (roots.all fun r => r.1 = root) .proofsDisagree
    require (((root, dataHash) :: roots).any fun r => r.2 = entry) .leafNotThisStatement
    require (verifySig env alg pub (← (sig1 m.protectedBytes root).mapError .malformedReceipt)
      m.signature) .ccfRootSignature
    return .ccf alg root

/--
The proofs of a receipt whose header and key are admitted.
-/
def checkProofs (vds : Vds) (entry : Bytes) (proofs : List Bytes) : Except Refused Accepted :=
  match vds with
  | .ccfLedgerSha256 => verifyCcf env m alg pub proofs entry
  | .rfc9162Sha256 => tryProofs env m alg pub (Merkle.leafHash env.sha256 entry) [] proofs

end

/-!
### Receipts
-/

/--
`verify_receipt` on a parsed message.
-/
def verifyParsed (env : Env) (m : CoseSign1) (entry : Bytes) (logKey : GivenKey)
    (profile : Profile) : Except Refused Accepted := do
  let (vds, alg) ← checkHeader m.header profile
  match (proofs? m).bind fun ps => ps.mapM Scitt.bytes? with
  | none | some [] => throw .noInclusionProof
  | some proofs =>
    let pub ← (loadPublicKey env logKey).mapError .malformedReceipt
    checkProofs env m alg pub vds entry proofs

def verifyReceipt (env : Env) (receipt entry : Bytes) (logKey : GivenKey) (profile : Profile)
    : Except Refused Accepted :=
  match Scitt.parseCoseSign1 receipt with
  | .error e => .error (.malformedReceipt (.cose e))
  | .ok m => verifyParsed env m entry logKey profile

/-!
### One proof of several
-/

/--
The same message with another list of inclusion proofs.
-/
def withProofs (m : CoseSign1) (ps : List Cbor) : CoseSign1 :=
  { m with unprotected := Cbor.set m.unprotected lVdp (.map [(vdpInclusion, .arr ps)]) }

/--
The signature of the receipt is valid over this root.
-/
def RootSigned (env : Env) (m : CoseSign1) (alg : Alg) (pub : PublicKey) (root : Bytes) : Prop :=
  ∃ msg, sig1 m.protectedBytes root = .ok msg ∧ verifySig env alg pub msg m.signature = true

/--
A decoded proof leads from the entry to the root that is the payload of the receipt.
-/
def Yields (env : Env) (m : CoseSign1) (entry : Bytes) : Vds → Cbor → Bytes → Prop
  | .rfc9162Sha256, v, root => ∃ p, InclusionProof.ofCbor? v = some p ∧
      Merkle.rootFromInclusion env.sha256 p.leafIndex p.treeSize (Merkle.leafHash env.sha256 entry)
        p.path = some root ∧ ∀ payload, m.payload = some payload → payload = root
  | .ccfLedgerSha256, v, root => m.payload = none ∧ ccfRoot env.sha256 v = .ok (root, entry)

/--
The proof yields a root under which the signature verifies.
-/
def Good (env : Env) (m : CoseSign1) (vds : Vds) (alg : Alg) (pub : PublicKey) (entry : Bytes)
    (p : Cbor) : Prop :=
  ∃ pb v root, p = .bytes pb ∧ decode pb = .ok v ∧ Yields env m entry vds v root ∧
    RootSigned env m alg pub root

/--
Every proof can be decoded. Those of CCF are moreover well formed and lead to the same root.
-/
def Readable (env : Env) (vds : Vds) (ps : List Cbor) : Prop :=
  match vds with
  | .rfc9162Sha256 => ∀ p ∈ ps, ∃ pb v, p = .bytes pb ∧ decode pb = .ok v
  | .ccfLedgerSha256 => ∃ root, ∀ p ∈ ps, ∃ pb v dataHash,
      p = .bytes pb ∧ decode pb = .ok v ∧ ccfRoot env.sha256 v = .ok (root, dataHash)

theorem mapM_bytes?_eq_some {ps : List Cbor} {proofs : List Bytes}
    : ps.mapM Scitt.bytes? = some proofs ↔ ps = proofs.map .bytes := by
  have hbytes : ∀ (p : Cbor) (pb : Bytes), Scitt.bytes? p = some pb ↔ p = .bytes pb := by
    intro p pb
    cases p <;> simp [Scitt.bytes?]
  rw [Option.mapM_eq_some, ← List.forall₂_eq_eq_eq, List.forall₂_map_right_iff]
  simp only [hbytes]

theorem proofs?_withProofs (m : CoseSign1) (ps : List Cbor) : proofs?
    (withProofs m ps) = some ps := by
  have hvdp : Cbor.get (withProofs m ps).unprotected lVdp = .map [(vdpInclusion, .arr ps)] := by
    rw [Cbor.get, withProofs, Cbor.lookup_set, if_pos rfl]
    rfl
  have hinclusion : Cbor.get [(vdpInclusion, Cbor.arr ps)] vdpInclusion = .arr ps := rfl
  rw [proofs?, hvdp]
  simp only [hinclusion]

section

variable {env : Env} {m : CoseSign1} {alg : Alg} {pub : PublicKey} {entry : Bytes}

/--
What is signed can be put together for one root of 32 bytes, and so for every one.
-/
theorem sig1_returns {p r r' msg : Bytes} (h : sig1 p r = .ok msg) (hr' : r'.length = 32)
    : ∃ msg', sig1 p r' = .ok msg' := by
  have hwithin : ∀ b : Bytes, Cbor.Within 2
      (.arr [.text (txt "Signature1"), .bytes p, .bytes [], .bytes b]) := by
    intro b
    refine .arr 1 _ fun x hx => ?_
    simp only [List.mem_cons, List.not_mem_nil, or_false] at hx
    rcases hx with rfl | rfl | rfl | rfl
    . exact .text 0 _
    all_goals exact .bytes 0 _
  rw [sig1, Except.mapError_eq_ok, Scitt.sig1, Scitt.encode, Except.mapError_eq_ok] at h
  have hencodable := (Cbor.encode_returns_iff (hwithin r)).mp ⟨msg, h⟩
  have hencodable' : Cbor.Encodable (.arr [.text (txt "Signature1"), .bytes p, .bytes [], .bytes r']) := by
    cases hencodable with
    | arr _ hlen hall =>
      refine .arr _ hlen fun x hx => ?_
      simp only [List.mem_cons, List.not_mem_nil, or_false] at hx
      rcases hx with rfl | rfl | rfl | rfl
      . exact hall _ (by simp)
      . exact hall _ (by simp)
      . exact hall _ (by simp)
      . refine .bytes _ ?_
        rw [hr']
        norm_num
  rcases (Cbor.encode_returns_iff (hwithin r')).mpr hencodable' with ⟨msg', hmsg'⟩
  exact ⟨msg', by rw [sig1, Scitt.sig1, Scitt.encode, hmsg']; rfl⟩

theorem length_rootFromInclusion {H : HashFn 32} {i n : Nat} {leaf root : Bytes} {path : List Bytes}
    (hleaf : leaf.length = 32) (h : Merkle.rootFromInclusion H i n leaf path = some root)
    : root.length = 32 := by
  have hloop : ∀ (fn sn : Nat) (r : Bytes) (path : List Bytes) (r' : Bytes) (sn' : Nat), r.length = 32 →
      Merkle.rootFromInclusion.loop H fn sn r path = some (r', sn') → r'.length = 32 := by
    intro fn sn r path
    induction path generalizing fn sn r with
    | nil =>
      rintro r' sn' hr h
      rw [Merkle.rootFromInclusion.loop, Option.some.injEq, Prod.mk.injEq] at h
      rw [← h.1, hr]
    | cons p path ih =>
      intro r' sn' hr h
      rw [Merkle.rootFromInclusion.loop] at h
      split at h
      . cases h
      . split at h
        . exact ih _ _ _ _ _ (H.length_digest _) h
        . exact ih _ _ _ _ _ (H.length_digest _) h
  rw [Merkle.rootFromInclusion] at h
  split at h
  . cases h
  . split at h
    . cases h
    . next r sn heq =>
      split at h
      . rw [← Option.some.inj h]
        exact hloop _ _ _ _ _ _ hleaf heq
      . cases h

theorem tryProof_accepts_iff {pb : Bytes}
    : (∃ a, tryProof env m alg pub (Merkle.leafHash env.sha256 entry) pb = .ok (.ok a)) ↔
        Good env m .rfc9162Sha256 alg pub entry (.bytes pb) := by
  constructor
  . rintro ⟨a, h⟩
    rcases Except.bind_eq_ok.mp h with ⟨v, hv, h⟩
    split at h
    . cases h
    . next p hp =>
      split at h
      . cases h
      . next root hroot =>
        split at h
        . cases h
        . next hpayload =>
          rcases Except.bind_eq_ok.mp h with ⟨msg, hmsg, h⟩
          split at h
          . next hsig =>
            refine ⟨pb, v, root, rfl, hv, ⟨p, hp, hroot, fun payload heq => ?_⟩, msg, hmsg, hsig⟩
            rw [heq] at hpayload
            simpa using hpayload
          . cases h
  . rintro ⟨pb', v, root, hpb, hv, ⟨p, hp, hroot, hpayload⟩, msg, hmsg, hsig⟩
    cases hpb
    have hattached : ¬m.payload.any (· ≠ root) = true := by
      cases hm : m.payload with
      | none => simp
      | some payload => simp [hpayload payload hm]
    refine ⟨.rfc9162 alg p.treeSize p.leafIndex root, ?_⟩
    rw [tryProof, hv, Except.ok_bind]
    simp only [hp, hroot]
    rw [if_neg hattached, hmsg, Except.ok_bind, if_pos hsig]
    rfl

variable (env alg pub entry) in
/--
A proof that can be decoded does not stop the loop, as long as some root can be signed.
-/
theorem tryProof_returns {pb r msg : Bytes} {v : Cbor} (hv : decode pb = .ok v)
    (hmsg : sig1 m.protectedBytes r = .ok msg)
    : ∃ result, tryProof env m alg pub (Merkle.leafHash env.sha256 entry) pb = .ok result := by
  rw [tryProof, hv, Except.ok_bind]
  split
  . exact ⟨_, rfl⟩
  . split
    . exact ⟨_, rfl⟩
    . next p hp root hroot =>
      split
      . exact ⟨_, rfl⟩
      . have hlen := length_rootFromInclusion (env.sha256.length_digest _) hroot
        rcases sig1_returns hmsg hlen with ⟨msg', hmsg'⟩
        rw [hmsg', Except.ok_bind]
        split
        . exact ⟨_, rfl⟩
        . exact ⟨_, rfl⟩

theorem exists_good_of_tryProofs {proofs : List Bytes} {tried : List Tried} {a : Accepted}
    (h : tryProofs env m alg pub (Merkle.leafHash env.sha256 entry) tried proofs = .ok a)
    : ∃ pb ∈ proofs, Good env m .rfc9162Sha256 alg pub entry (.bytes pb) := by
  induction proofs generalizing tried with
  | nil => cases h
  | cons pb proofs ih =>
    rw [tryProofs] at h
    split at h
    . cases h
    . next a' htry => exact ⟨pb, List.mem_cons_self, tryProof_accepts_iff.mp ⟨a', htry⟩⟩
    . rcases ih h with ⟨pb', hpb', hgood⟩
      exact ⟨pb', List.mem_cons_of_mem _ hpb', hgood⟩

theorem tryProofs_of_good {proofs : List Bytes} (tried : List Tried)
    (hread : ∀ pb ∈ proofs, ∃ v, decode pb = .ok v) {pb : Bytes} (hpb : pb ∈ proofs)
    (hgood : Good env m .rfc9162Sha256 alg pub entry (.bytes pb))
    : ∃ a, tryProofs env m alg pub (Merkle.leafHash env.sha256 entry) tried proofs = .ok a := by
  induction proofs generalizing tried with
  | nil => cases hpb
  | cons first proofs ih =>
    have hsigned : ∃ r msg, sig1 m.protectedBytes r = .ok msg := by
      rcases hgood with ⟨_, _, root, _, _, _, msg, hmsg, _⟩
      exact ⟨root, msg, hmsg⟩
    rcases hsigned with ⟨r, msg, hmsg⟩
    rcases hread first List.mem_cons_self with ⟨v, hv⟩
    rcases tryProof_returns env alg pub entry hv hmsg with ⟨result, hresult⟩
    rw [tryProofs, hresult]
    cases result with
    | ok a => exact ⟨a, rfl⟩
    | error why =>
      dsimp only
      rcases List.mem_cons.mp hpb with rfl | hpb
      . rcases tryProof_accepts_iff.mpr hgood with ⟨a, ha⟩
        rw [ha] at hresult
        cases hresult
      . exact ih _ (fun pb h => hread pb (List.mem_cons_of_mem _ h)) hpb

variable (env) in
theorem ccfProof_eq_ok {i : Nat} {pb : Bytes} {r : Bytes × Bytes}
    : ccfProof env i pb = .ok r ↔ ∃ v, decode pb = .ok v ∧ ccfRoot env.sha256 v = .ok r := by
  rw [ccfProof]
  cases h : Cbor.decode pb with
  | error e =>
    constructor
    . intro h
      dsimp only at h
      split at h <;> cases h
    . rintro ⟨v, hv, -⟩
      rw [decode, Except.mapError_eq_ok, Scitt.decode, Except.mapError_eq_ok, h] at hv
      cases hv
  | ok v =>
    have hv : decode pb = .ok v := by
      rw [decode, Except.mapError_eq_ok, Scitt.decode, Except.mapError_eq_ok, h]
    dsimp only
    rw [Except.mapError_eq_ok]
    constructor
    . intro h
      exact ⟨v, hv, h⟩
    . rintro ⟨w, hw, h⟩
      rw [hv, Except.ok.injEq] at hw
      rw [hw, h]

/--
All the proofs are read, in their order.
-/
theorem mapM_ccfProof_eq_ok {proofs : List Bytes} {roots : List (Bytes × Bytes)}
    : proofs.zipIdx.mapM (fun p => ccfProof env p.2 p.1) = .ok roots ↔
        List.Forall₂ (fun pb r => ∃ v, decode pb = .ok v ∧ ccfRoot env.sha256 v = .ok r)
          proofs roots := by
  have hzip : ∀ n, List.Forall₂ (fun p r => ccfProof env p.2 p.1 = .ok r) (proofs.zipIdx n) roots ↔
      List.Forall₂ (fun pb r => ∃ v, decode pb = .ok v ∧ ccfRoot env.sha256 v = .ok r)
        proofs roots := by
    induction proofs generalizing roots with
    | nil => simp
    | cons pb proofs ih =>
      intro n
      rw [List.zipIdx_cons, List.forall₂_cons_left_iff, List.forall₂_cons_left_iff]
      simp only [ih]
      simp only [ccfProof_eq_ok]
  rw [Except.mapM_eq_ok, hzip]

theorem verifyCcf_accepts_iff {proofs : List Bytes} (hne : proofs ≠ [])
    : (∃ a, verifyCcf env m alg pub proofs entry = .ok a) ↔
        Readable env .ccfLedgerSha256 (proofs.map .bytes) ∧
          ∃ p ∈ proofs.map .bytes, Good env m .ccfLedgerSha256 alg pub entry p := by
  constructor
  . rintro ⟨a, h⟩
    rcases Except.bind_eq_ok.mp h with ⟨_, hdetached, h⟩
    rw [Except.require_eq_ok, Option.isNone_iff_eq_none] at hdetached
    rcases Except.bind_eq_ok.mp h with ⟨roots, hroots, h⟩
    rw [mapM_ccfProof_eq_ok] at hroots
    split at h
    . cases h
    . next root dataHash roots =>
      rcases Except.bind_eq_ok.mp h with ⟨_, hagree, h⟩
      rcases Except.bind_eq_ok.mp h with ⟨_, hbound, h⟩
      rcases Except.bind_eq_ok.mp h with ⟨msg, hmsg, h⟩
      rcases Except.bind_eq_ok.mp h with ⟨_, hsig, h⟩
      rw [Except.require_eq_ok] at hagree hbound hsig
      rw [Except.mapError_eq_ok] at hmsg
      have hsame : ∀ r ∈ (root, dataHash) :: roots, r.1 = root := by
        intro r hr
        rcases List.mem_cons.mp hr with rfl | hr
        . rfl
        . simpa using List.all_eq_true.mp hagree r hr
      constructor
      . refine ⟨root, fun p hp => ?_⟩
        rcases List.mem_map.mp hp with ⟨pb, hpb, rfl⟩
        rcases List.exists_of_mem_left hroots hpb with ⟨r, hr, v, hv, hroot⟩
        refine ⟨pb, v, r.2, rfl, hv, ?_⟩
        rw [hroot, ← hsame r hr]
      . rcases List.any_eq_true.mp hbound with ⟨r, hr, hentry⟩
        rcases List.exists_of_mem_right hroots hr with ⟨pb, hpb, v, hv, hroot⟩
        refine ⟨.bytes pb, List.mem_map_of_mem hpb, pb, v, root, rfl, hv, ⟨hdetached, ?_⟩, msg, hmsg, hsig⟩
        rw [hroot, ← hsame r hr, ← of_decide_eq_true hentry]
  . rintro ⟨⟨root, hread⟩, p, hp, pb, v, root', rfl, hv, ⟨hdetached, hroot'⟩, msg, hmsg, hsig⟩
    have hone : ∀ pb ∈ proofs, ∀ v r, decode pb = .ok v → ccfRoot env.sha256 v = .ok r → r.1 = root := by
      intro pb hpb v r hv hr
      rcases hread _ (List.mem_map_of_mem hpb) with ⟨_, v', dataHash, hbytes, hv', hroot⟩
      cases hbytes
      rw [hv, Except.ok.injEq] at hv'
      rw [hv', hroot, Except.ok.injEq] at hr
      rw [← hr]
    have hpb : pb ∈ proofs := by simpa using hp
    cases hone pb hpb v _ hv hroot'
    have hexists : ∀ pb ∈ proofs, ∃ r v, decode pb = .ok v ∧ ccfRoot env.sha256 v = .ok r := by
      intro pb hpb
      rcases hread _ (List.mem_map_of_mem hpb) with ⟨_, v, dataHash, hbytes, hv, hroot⟩
      cases hbytes
      exact ⟨_, v, hv, hroot⟩
    rcases Cbor.exists_forall₂_iff.mpr hexists with ⟨roots, hroots⟩
    have hsame : ∀ r ∈ roots, r.1 = root' := by
      intro r hr
      rcases List.exists_of_mem_right hroots hr with ⟨pb, hpb, v, hv, hroot⟩
      exact hone pb hpb v r hv hroot
    have hbound : roots.any (fun r => r.2 = entry) = true := by
      rcases List.exists_of_mem_left hroots hpb with ⟨r, hr, v', hv', hroot⟩
      rw [hv, Except.ok.injEq] at hv'
      rw [← hv', hroot', Except.ok.injEq] at hroot
      exact List.any_eq_true.mpr ⟨r, hr, by rw [← hroot]; simp⟩
    rw [verifyCcf, hdetached]
    rw [show Except.require (none : Option Bytes).isNone Refused.payloadNotDetached = .ok () from rfl,
      Except.ok_bind, mapM_ccfProof_eq_ok.mpr hroots, Except.ok_bind]
    cases roots with
    | nil =>
      cases hroots
      exact absurd rfl hne
    | cons first roots =>
      rcases first with ⟨root, dataHash⟩
      cases hsame (root, dataHash) List.mem_cons_self
      have hagree : (roots.all fun r => r.1 = root) = true :=
        List.all_eq_true.mpr fun r hr => decide_eq_true (hsame r (List.mem_cons_of_mem _ hr))
      refine ⟨.ccf alg root, ?_⟩
      simp only [hagree, hbound, hmsg, Except.mapError, Except.ok_bind, hsig]
      rfl

theorem verifyParsed_eq {logKey : GivenKey} {profile : Profile} {vds : Vds} {ps : List Cbor}
    (hheader : checkHeader m.header profile = .ok (vds, alg))
    (hkey : loadPublicKey env logKey = .ok pub) (hproofs : proofs? m = some ps)
    : verifyParsed env m entry logKey profile =
        match ps.mapM Scitt.bytes? with
        | none | some [] => .error .noInclusionProof
        | some proofs => checkProofs env m alg pub vds entry proofs := by
  rw [verifyParsed, hheader, Except.ok_bind]
  simp only [hproofs, Option.bind_some]
  split
  . rfl
  . rfl
  . rw [hkey]
    rfl

/--
An accepted receipt has a good proof.
-/
theorem exists_good_of_accepts {logKey : GivenKey} {profile : Profile} {vds : Vds} {ps : List Cbor}
    (hheader : checkHeader m.header profile = .ok (vds, alg))
    (hkey : loadPublicKey env logKey = .ok pub) (hproofs : proofs? m = some ps) {a : Accepted}
    (h : verifyParsed env m entry logKey profile = .ok a)
    : (∃ p ∈ ps, Good env m vds alg pub entry p) ∧ ∃ proofs : List Bytes, ps = proofs.map .bytes := by
  rw [verifyParsed_eq hheader hkey hproofs] at h
  split at h
  . cases h
  . cases h
  . next proofs hne heq =>
    rw [mapM_bytes?_eq_some.mp heq]
    refine ⟨?_, proofs, rfl⟩
    cases vds with
    | rfc9162Sha256 =>
      rcases exists_good_of_tryProofs h with ⟨pb, hpb, hgood⟩
      exact ⟨.bytes pb, List.mem_map_of_mem hpb, hgood⟩
    | ccfLedgerSha256 =>
      exact ((verifyCcf_accepts_iff fun hnil => hne hnil).mp ⟨a, h⟩).2

theorem accepts_of_readable {logKey : GivenKey} {profile : Profile} {vds : Vds} {ps : List Cbor}
    (hheader : checkHeader m.header profile = .ok (vds, alg))
    (hkey : loadPublicKey env logKey = .ok pub) (hproofs : proofs? m = some ps)
    (hread : Readable env vds ps) {p : Cbor} (hp : p ∈ ps)
    (hgood : Good env m vds alg pub entry p)
    : ∃ a, verifyParsed env m entry logKey profile = .ok a := by
  have hbytes : ∃ proofs : List Bytes, ps = proofs.map .bytes := by
    have hall : ∀ p ∈ ps, ∃ pb : Bytes, p = .bytes pb := by
      intro p hp
      cases vds with
      | rfc9162Sha256 =>
        rcases hread p hp with ⟨pb, _, hpb, _⟩
        exact ⟨pb, hpb⟩
      | ccfLedgerSha256 =>
        rcases hread with ⟨root, hread⟩
        rcases hread p hp with ⟨pb, _, _, hpb, _⟩
        exact ⟨pb, hpb⟩
    rcases Cbor.exists_forall₂_iff.mpr hall with ⟨proofs, hproofs⟩
    exact ⟨proofs, by
      rw [← List.forall₂_eq_eq_eq, List.forall₂_map_right_iff]
      exact hproofs⟩
  rcases hbytes with ⟨proofs, rfl⟩
  have hne : proofs ≠ [] := by
    rintro rfl
    simp at hp
  rw [verifyParsed_eq hheader hkey hproofs, mapM_bytes?_eq_some.mpr rfl]
  cases proofs with
  | nil => exact absurd rfl hne
  | cons first rest =>
    cases vds with
    | rfc9162Sha256 =>
      rcases List.mem_map.mp hp with ⟨pb, hpb, rfl⟩
      refine tryProofs_of_good [] (fun pb hpb => ?_) hpb hgood
      rcases hread _ (List.mem_map_of_mem hpb) with ⟨_, v, heq, hv⟩
      cases heq
      exact ⟨v, hv⟩
    | ccfLedgerSha256 => exact (verifyCcf_accepts_iff hne).mpr ⟨hread, p, hp, hgood⟩

/--
The first proof is decoded before the receipt can be accepted.
-/
theorem readable_first {logKey : GivenKey} {profile : Profile} {p : Cbor} {ps : List Cbor}
    (hheader : checkHeader m.header profile = .ok (.rfc9162Sha256, alg))
    (hkey : loadPublicKey env logKey = .ok pub) (hproofs : proofs? m = some (p :: ps))
    {a : Accepted}
    (h : verifyParsed env m entry logKey profile = .ok a)
    : ∃ pb v, p = .bytes pb ∧ decode pb = .ok v := by
  rcases (exists_good_of_accepts hheader hkey hproofs h).2 with ⟨proofs, heq⟩
  rw [verifyParsed_eq hheader hkey hproofs, mapM_bytes?_eq_some.mpr heq] at h
  cases proofs with
  | nil => cases h
  | cons pb rest =>
    rw [List.map_cons, List.cons.injEq] at heq
    have htry : tryProofs env m alg pub (Merkle.leafHash env.sha256 entry) [] (pb :: rest) = .ok a := h
    cases hv : decode pb with
    | ok v => exact ⟨pb, v, heq.1, hv⟩
    | error e =>
      rw [tryProofs, tryProof, hv, Except.error_bind] at htry
      cases htry

theorem isOk_iff {ε α : Type} {x : Except ε α} : x.isOk = true ↔ ∃ a, x = .ok a := by
  cases x <;> simp [Except.isOk, Except.toBool]

end

/--
A receipt is accepted if and only if one of its proofs is good, and in every order of the proofs
alike, exactly when no proof is good or all of them can be read.
-/
theorem verifyReceipt_anyProof_iff (env : Env) (entry : Bytes) (logKey : GivenKey)
    (profile : Profile)
    {receipt : Bytes} {m : CoseSign1} {vds : Vds} {alg : Alg} {pub : PublicKey} {ps : List Cbor}
    (hparse : Scitt.parseCoseSign1 receipt = .ok m)
    (hheader : checkHeader m.header profile = .ok (vds, alg))
    (hkey : loadPublicKey env logKey = .ok pub) (hproofs : proofs? m = some ps)
    : (((verifyReceipt env receipt entry logKey profile).isOk = true ↔
            ∃ p ∈ ps, Good env m vds alg pub entry p) ∧
          ∀ qs : List Cbor, qs.Perm ps →
            (verifyParsed env (withProofs m qs) entry logKey profile).isOk =
              (verifyReceipt env receipt entry logKey profile).isOk) ↔
        (∀ p ∈ ps, ¬Good env m vds alg pub entry p) ∨ Readable env vds ps := by
  have hreceipt : verifyReceipt env receipt entry logKey profile =
      verifyParsed env m entry logKey profile := by
    rw [verifyReceipt, hparse]
  rw [hreceipt]
  constructor
  . rintro ⟨haccepts, horder⟩
    refine or_iff_not_imp_left.mpr fun hgood => ?_
    push Not at hgood
    rcases isOk_iff.mp (haccepts.mpr hgood) with ⟨a, ha⟩
    cases vds with
    | ccfLedgerSha256 =>
      have hbytes := (exists_good_of_accepts hheader hkey hproofs ha).2
      rcases hbytes with ⟨proofs, rfl⟩
      rw [verifyParsed_eq hheader hkey hproofs, mapM_bytes?_eq_some.mpr rfl] at ha
      cases proofs with
      | nil => cases ha
      | cons first rest =>
        exact ((verifyCcf_accepts_iff (List.cons_ne_nil _ _)).mp ⟨a, ha⟩).1
    | rfc9162Sha256 =>
      intro p hp
      -- with `p` in the first place the loop decodes it before it can accept
      rcases List.append_of_mem hp with ⟨pre, post, rfl⟩
      have hperm : (p :: (pre ++ post)).Perm (pre ++ p :: post) := List.perm_middle.symm
      have hfirst := horder _ hperm
      rw [ha] at hfirst
      rcases isOk_iff.mp hfirst with ⟨a', ha'⟩
      have hproofs' := proofs?_withProofs m (p :: (pre ++ post))
      have hheader' : checkHeader (withProofs m (p :: (pre ++ post))).header profile =
        .ok (.rfc9162Sha256, alg) := hheader
      exact readable_first hheader' hkey hproofs' ha'
  . intro hcases
    have hiff : ∀ qs : List Cbor, qs.Perm ps →
        ∀ m' : CoseSign1, m'.header = m.header → proofs? m' = some qs →
          (∀ p, Good env m' vds alg pub entry p ↔ Good env m vds alg pub entry p) →
            ((verifyParsed env m' entry logKey profile).isOk = true ↔
              ∃ p ∈ ps, Good env m vds alg pub entry p) := by
      intro qs hperm m' hsame hproofs' hgood
      rw [← hsame] at hheader
      constructor
      . intro h
        rcases isOk_iff.mp h with ⟨a, ha⟩
        rcases (exists_good_of_accepts hheader hkey hproofs' ha).1 with ⟨p, hp, hp'⟩
        exact ⟨p, hperm.mem_iff.mp hp, (hgood p).mp hp'⟩
      . rintro ⟨p, hp, hp'⟩
        rcases hcases with hnone | hread
        . exact absurd hp' (hnone p hp)
        . have hread' : Readable env vds qs := by
            cases vds with
            | rfc9162Sha256 => exact fun q hq => hread q (hperm.mem_iff.mp hq)
            | ccfLedgerSha256 =>
              rcases hread with ⟨root, hread⟩
              exact ⟨root, fun q hq => hread q (hperm.mem_iff.mp hq)⟩
          exact isOk_iff.mpr (accepts_of_readable hheader hkey hproofs' hread'
            (hperm.mem_iff.mpr hp) ((hgood p).mpr hp'))
    refine ⟨hiff ps (List.Perm.refl _) m rfl hproofs fun _ => Iff.rfl, fun qs hperm => ?_⟩
    rw [Bool.eq_iff_iff, hiff qs hperm (withProofs m qs) rfl (proofs?_withProofs m qs) fun _ => Iff.rfl,
      hiff ps (List.Perm.refl _) m rfl hproofs fun _ => Iff.rfl]

/-!
### Example
-/

def exampleHeader : List (Cbor.Key × Cbor) :=
  [(lAlg, .int (-8)), (lVds, .int 1), (lKid, .bytes Scitt.exampleService.pk)]

def exampleProtected : Bytes := (Scitt.encode (.map exampleHeader)).toOption.getD []

def exampleSignature : Bytes :=
  Cbor.beBytes 32 0xbe551fb68a8953571e68e8d61fbeba459df00baf2b1d463de8014913bbf37a4b ++
    Cbor.beBytes 32 0x5831efb59b3f02108d51b94edb2799974f9e5ba976b7f7c78173b5ddc3c95001

/--
The library on the one signature that is there.
-/
def exampleEnv : Env where
  sha256 := sha256
  loadPem _ := none
  ed25519 pk sig msg :=
    pk = Scitt.exampleService.pk && sig = exampleSignature &&
      msg = (Scitt.sig1 exampleProtected (Merkle.leafHash sha256 [0x61])).toOption.getD []
  ecdsa _ _ _ _ _ := false

/--
The proof for the only leaf of a tree.
-/
def exampleProof : Bytes := [0x83, 0x01, 0x00, 0x80]

def exampleReceipt (ps : List Cbor) : Bytes :=
  (Scitt.coseSign1 exampleProtected [(lVdp, .map [(vdpInclusion, .arr ps)])] none
    exampleSignature).toOption.getD []

def exampleMessage (ps : List Cbor) : CoseSign1 where
  protectedBytes := exampleProtected
  header := [(lAlg, .int (-8)), (lKid, .bytes Scitt.exampleService.pk), (lVds, .int 1)]
  unprotected := [(lVdp, .map [(vdpInclusion, .arr ps)])]
  payload := none
  signature := exampleSignature

def exampleKey : GivenKey := .str (Hex.ofBytes Scitt.exampleService.pk)

theorem good_exampleProof
    : Good exampleEnv (exampleMessage [.bytes [0xff], .bytes exampleProof]) .rfc9162Sha256 .eddsa
        (.ed25519 Scitt.exampleService.pk) [0x61] (.bytes exampleProof) := by
  refine ⟨exampleProof, .arr [.int 1, .int 0, .arr []], Merkle.leafHash sha256 [0x61], rfl, rfl,
    ⟨⟨1, 0, []⟩, rfl, rfl, fun payload h => by cases h⟩, _, rfl, ?_⟩
  decide +kernel

/--
A proof that is no CBOR before the good one: the receipt is refused. After it, it is accepted.
-/
theorem unreadable_proof_refuses
    : ¬(((verifyReceipt exampleEnv (exampleReceipt [.bytes [0xff], .bytes exampleProof]) [0x61]
              exampleKey .rfc9942).isOk = true ↔
            ∃ p ∈ [Cbor.bytes [0xff], .bytes exampleProof],
              Good exampleEnv (exampleMessage [.bytes [0xff], .bytes exampleProof]) .rfc9162Sha256
                .eddsa (.ed25519 Scitt.exampleService.pk) [0x61] p) ∧
          (verifyReceipt exampleEnv (exampleReceipt [.bytes [0xff], .bytes exampleProof]) [0x61]
              exampleKey .rfc9942).isOk =
            (verifyReceipt exampleEnv (exampleReceipt [.bytes exampleProof, .bytes [0xff]]) [0x61]
              exampleKey .rfc9942).isOk) := by
  have hrefused : (verifyReceipt exampleEnv (exampleReceipt [.bytes [0xff], .bytes exampleProof]) [0x61]
      exampleKey .rfc9942).isOk = false := by
    decide +kernel
  rintro ⟨haccepts, -⟩
  rw [haccepts.mpr ⟨.bytes exampleProof, by simp, good_exampleProof⟩] at hrefused
  cases hrefused

set_option maxRecDepth 4000 in
theorem verifyReceipt_anyProof_iff_exampleReceipt
    : (((verifyReceipt exampleEnv (exampleReceipt [.bytes [0xff], .bytes exampleProof]) [0x61]
              exampleKey .rfc9942).isOk = true ↔
            ∃ p ∈ [Cbor.bytes [0xff], .bytes exampleProof],
              Good exampleEnv (exampleMessage [.bytes [0xff], .bytes exampleProof]) .rfc9162Sha256
                .eddsa (.ed25519 Scitt.exampleService.pk) [0x61] p) ∧
          ∀ qs : List Cbor, qs.Perm [.bytes [0xff], .bytes exampleProof] →
            (verifyParsed exampleEnv (withProofs (exampleMessage [.bytes [0xff], .bytes exampleProof]) qs)
                [0x61] exampleKey .rfc9942).isOk =
              (verifyReceipt exampleEnv (exampleReceipt [.bytes [0xff], .bytes exampleProof]) [0x61]
                exampleKey .rfc9942).isOk) ↔
        (∀ p ∈ [Cbor.bytes [0xff], .bytes exampleProof],
          ¬Good exampleEnv (exampleMessage [.bytes [0xff], .bytes exampleProof]) .rfc9162Sha256 .eddsa
            (.ed25519 Scitt.exampleService.pk) [0x61] p) ∨
          Readable exampleEnv .rfc9162Sha256 [.bytes [0xff], .bytes exampleProof] :=
  verifyReceipt_anyProof_iff exampleEnv [0x61] exampleKey .rfc9942 rfl rfl rfl rfl

end CoseReceipts
end CryptoValid
