import CryptoValid.Cedulon.Effects
import CryptoValid.Lib.PythonText

/-!
This module contains the approvals of held records: the WebAuthn assertion of an operator, which is
checked under the credentials that the relying party has pinned.
-/

namespace CryptoValid
namespace Cedulon

/--
A JSON object.
-/
abbrev Members := List (Str × Json)

/-!
### Assertions
-/

/--
`ms[name]`
-/
def item (ms : Members) (name : Str) : Except Error Json := orOther (Assoc.lookup name ms)

/--
`_b64u`
-/
def b64u : Json → Except Error Bytes
  | .str s => orOther (Python.b64UrlLenient? (s ++ List.replicate (Base64.missing s.length) 0x3d))
  | _ => .error .other

/--
`hashlib.sha256(v.encode()).digest()`
-/
def textDigest (H : HashFn 32) : Json → Except Error Bytes
  | .str s => do return H (← orOther (Utf8.encode? s))
  | _ => .error .other

/--
The hooks of `json.loads` for the client data: constants like `NaN` are numbers there.
-/
def clientHooks (interp : Python.Interp) : Json.Hooks LineError :=
  { lineHooks interp with
    parseConstant := fun name =>
      ((Python.plainHooks interp).parseConstant name).mapError fun _ => .constant }

def clientData (interp : Python.Interp) (bytes : Bytes) : Except Error Json := do
  let text ← orOther (Python.decodeDetected? bytes)
  (Json.loads (clientHooks interp) text).mapError fun _ => .other

/--
A number that can be one of the bytes of `bytes(v)`. Booleans are numbers.
-/
def byte? : Cbor → Option UInt8
  | .int i => if 0 ≤ i ∧ i < 256 then some (.ofNat i.toNat) else none
  | .bool b => some (if b then 1 else 0)
  | _ => none

def keyByte? : Cbor.Key → Option UInt8
  | .int i => byte? (.int i)
  | _ => none

/--
`int.from_bytes(v, "big")`, which takes an array of numbers too, and the keys of a map.
-/
def fromBytes? : Cbor → Option Nat
  | .bytes b => some (Cbor.natOfBytes b)
  | .arr xs => (xs.mapM byte?).map Cbor.natOfBytes
  | .map ms => ((ms.map Prod.fst).mapM keyByte?).map Cbor.natOfBytes
  | _ => none

section

variable (env : Env)

/--
The type of the client data, the hash of the relying party, and the flag that the user is present. The
hash is not looked at if the type is another one or the data is too short.
-/
def checkClient (sig : Members) (ad cdj : Bytes) : Except Error Bool := do
  match ← clientData env.interp cdj with
  | .obj cd =>
    if member cd (txt "type") ≠ .str (txt "webauthn.get") ∨ ad.length < 37 then
      return false
    else
      let digest ← textDigest env.sha256 (← item sig (txt "rpId"))
      return ad.take 32 = digest && (ad.getD 32 0).toNat % 2 = 1
  | _ => .error .other

/--
The signature under a COSE key, Ed25519 or ES256; a key of another kind verifies nothing.
-/
def verifyKey (key : List (Cbor.Key × Cbor)) (sg signed : Bytes) : Bool :=
  let label (i : Int) := Cbor.get key (.int i)
  if (label 1).eqInt 1 && (label 3).eqInt (-8) && (label (-1)).eqInt 6 then
    match label (-2) with
    -- a missing or malformed key is caught in the source, and verifies nothing
    | .bytes pub => env.ed25519 pub sg signed
    | _ => false
  else if (label 1).eqInt 2 && (label 3).eqInt (-7) && (label (-1)).eqInt 1 then
    match fromBytes? (label (-2)), fromBytes? (label (-3)) with
    | some x, some y => env.es256 x y sg signed
    | _, _ => false
  else
    false

def webauthnOk (sig cred : Members) : Except Error Bool := do
  let ad ← b64u (← item sig (txt "authenticatorData"))
  let cdj ← b64u (← item sig (txt "clientDataJSON"))
  let sg ← b64u (← item sig (txt "signature"))
  if ← checkClient env sig ad cdj then
    match Cbor.decode (← b64u (← item cred (txt "publicKey"))) with
    | .ok (.map key) => return verifyKey env key sg (ad ++ env.sha256 cdj)
    | _ => .error .other
  else
    return false

end

/-!
### Credentials
-/

/--
What can be the key of a dict.
-/
def hashable : Json → Bool
  | .arr _ => false
  | .obj _ => false
  | _ => true

def obj? : Json → Option Members
  | .obj ms => some ms
  | _ => none

/--
The pinned credentials that are objects. Anything that is false stands for none at all, and the
characters of a text or the keys of an object are no objects.
-/
def readCredentials (v : Json) : Except Error (List Members) :=
  if !Python.truthy v then
    .ok []
  else
    match v with
    | .obj ms =>
      match (Assoc.lookup (txt "credentials") ms).getD (.arr []) with
      | .arr xs =>
        let creds := xs.filterMap obj?
        if creds.all fun c => hashable (member c (txt "id")) then .ok creds else .error .other
      | .str _ => .ok []
      | .obj _ => .ok []
      | _ => .error .other
    | _ => .error .other

/--
`creds.get(id)`: of several credentials with the identifier, the last one counts.
-/
def findCredential (creds : List Members) (id : Json) : Except Error (Option Members) :=
  if hashable id then
    .ok (creds.reverse.find? fun c => Python.eqLoaded false (member c (txt "id")) id)
  else
    .error .other

theorem findCredential_eq_some {creds : List Members} {id : Json} {cred : Members}
    (h : findCredential creds id = .ok (some cred))
    : cred ∈ creds ∧ Python.eqLoaded false (member cred (txt "id")) id = true := by
  unfold findCredential at h
  split at h
  . rw [Except.ok.injEq] at h
    have hfound := List.find?_some h
    exact ⟨List.mem_reverse.mp (List.mem_of_find?_eq_some h), hfound⟩
  . cases h

def assertionOk (env : Env) (creds : List Members) (sig : Members) : Except Error Bool := do
  match ← findCredential creds (member sig (txt "credentialId")) with
  -- an unknown credential is no error here, the caller refuses the approval
  | none => return false
  | some cred =>
    if Python.eqLoaded false (member cred (txt "sub")) (member sig (txt "sub")) then
      webauthnOk env sig cred
    else
      return false

/--
A credential is pinned for the assertion, and its key has signed it.
-/
theorem assertionOk_eq_true {env : Env} {creds : List Members} {sig : Members}
    (h : assertionOk env creds sig = .ok true)
    : ∃ cred ∈ creds,
        Python.eqLoaded false (member cred (txt "id")) (member sig (txt "credentialId")) = true ∧
        Python.eqLoaded false (member cred (txt "sub")) (member sig (txt "sub")) = true ∧
        webauthnOk env sig cred = .ok true := by
  rcases Except.bind_eq_ok.mp h with ⟨found, hfound, h⟩
  cases found with
  | none => cases h
  | some cred =>
    rcases findCredential_eq_some hfound with ⟨hmem, hid⟩
    dsimp only at h
    split at h
    . next hsub => exact ⟨cred, hmem, hid, hsub, h⟩
    . cases h

/-!
### Approvals
-/

/--
A member of the inputs of a record, if they are an object.
-/
def inputMember (inputs : Dict Str Json) (c : Record) (name : Str) : Json :=
  match c.ref.bind inputs.get? with
  | some (.obj ms) => member ms name
  | _ => .null

/--
`==` of a claim that may be `None` and a value from JSON.
-/
def eqClaim (claim : Option Str) (v : Json) : Bool :=
  match claim, v with
  | none, .null => true
  | some s, .str t => s = t
  | _, _ => false

section

variable (env : Env) (creds : List Members)

def checkApproval (entries : List Entry) (i : Nat) (approver : Json) : Except Error Unit := do
  match approver with
  | .null => return ()
  | .obj ap =>
    match member ap (txt "signature") with
    | .obj sig =>
      -- the first held record with the reference counts, also if a later one has the hash
      match entries.find? fun d =>
          eqClaim d.record.ref (member ap (txt "resolves")) && d.record.decision = .defer with
      | none => throw (.cedulon .approvalSignature (.approvalNotHeld i))
      | some held =>
        require (member sig (txt "deferRecordHash") = .str held.hash)
          (.cedulon .approvalSignature (.approvalNotHeld i))
        let found ← assertionOk env creds sig
        require found (.cedulon .approvalSignature (.approvalAssertion i))
    | _ => throw (.cedulon .approvalSignature (.approvalNoAssertion i))
  | _ => throw (.cedulon .approvalSignature (.approvalNoAssertion i))

def checkApprovals (entries : List Entry) (inputs : Dict Str Json) (i : Nat)
    : List Entry → Except Error Unit
  | [] => .ok ()
  | e :: es => do
    checkApproval env creds entries i (inputMember inputs e.record (txt "approver"))
    checkApprovals entries inputs (i + 1) es

end

def approvalStage (env : Env) (credentials : Option Json) (inputsText : Option Str)
    (entries : List Entry) (inputs : Dict Str Json) : Except Error Unit := do
  match credentials, inputsText with
  | some credentials, some _ =>
    checkApprovals env (← readCredentials credentials) entries inputs 0 entries
  | _, _ => return ()

/--
An approval that is one: it names a record that was held, by the hash of its octets, and an operator
whose credential is pinned has signed it.
-/
structure Approved (env : Env) (creds : List Members) (entries : List Entry)
    (approver : Json) : Prop
    where
  assertion : ∃ ap sig, approver = .obj ap ∧ member ap (txt "signature") = .obj sig ∧
    (∃ held ∈ entries, held.record.decision = .defer ∧
      eqClaim held.record.ref (member ap (txt "resolves")) = true ∧
      member sig (txt "deferRecordHash") = .str held.hash) ∧
    ∃ cred ∈ creds,
      Python.eqLoaded false (member cred (txt "id")) (member sig (txt "credentialId")) = true ∧
      Python.eqLoaded false (member cred (txt "sub")) (member sig (txt "sub")) = true ∧
      webauthnOk env sig cred = .ok true

theorem approved_of_checkApproval {env : Env} {creds : List Members} {entries : List Entry}
    {i : Nat}
    {approver : Json} (h : checkApproval env creds entries i approver = .ok ())
    (hsome : approver ≠ .null) : Approved env creds entries approver := by
  unfold checkApproval at h
  split at h
  . exact absurd rfl hsome
  . next ap =>
    split at h
    . next sig hsig =>
      split at h
      . cases h
      . next held hheld =>
        have hwhich := List.find?_some hheld
        rw [Bool.and_eq_true, decide_eq_true_eq] at hwhich
        rcases Except.bind_eq_ok.mp h with ⟨_, hhash, h⟩
        rcases Except.bind_eq_ok.mp h with ⟨found, hassertion, h⟩
        rw [require_eq_ok h] at hassertion
        exact ⟨ap, sig, rfl, hsig, ⟨held, List.mem_of_find?_eq_some hheld, hwhich.2, hwhich.1,
          by simpa using require_eq_ok hhash⟩, assertionOk_eq_true hassertion⟩
    . cases h
  . cases h

theorem approved_of_checkApprovals {env : Env} {creds : List Members} {entries es : List Entry}
    {inputs : Dict Str Json} {i : Nat} (h : checkApprovals env creds entries inputs i es = .ok ())
    : ∀ e ∈ es, inputMember inputs e.record (txt "approver") ≠ .null →
        Approved env creds entries (inputMember inputs e.record (txt "approver")) := by
  induction es generalizing i with
  | nil => simp
  | cons e es ih =>
    rw [checkApprovals, Except.bind_eq_ok] at h
    rcases h with ⟨_, hfirst, hrest⟩
    rw [List.forall_mem_cons]
    exact ⟨approved_of_checkApproval hfirst, ih hrest⟩

end Cedulon
end CryptoValid
