import CryptoValid.Lib.Except
import CryptoValid.Lib.PythonText
import CryptoValid.Tip

/-!
This module contains the verification of `signer.py`: the Ed25519 signatures of the entries of a
ledger, with the optional ML-DSA-65 signatures over the same digests.
-/

namespace CryptoValid
namespace Signer

def pqSigLen : Nat := 3309

def pqPkLen : Nat := 1952

/--
A line of a ledger: a value, or `_Undecodable` in its place.
-/
inductive Line where
  | undecodable
  | value (v : Json)

structure Failure where
  idx : Nat
  reason : Str
  deriving DecidableEq

/--
`expectedPqKey` tells which one of the three `ValueError`s.
-/
inductive Raised where
  | runtimeError
  | requirePqWithoutKey
  | pqKeyWithoutKey
  | badExpectedPqKey
  | recursionError
  | unicodeDecodeError
  deriving DecidableEq

inductive PqStatus where
  | requiredUnverifiable
  | missing
  | invalid
  | absent
  | unverifiable
  | partly
  | classicalBroken
  | unpinned
  | secured
  deriving DecidableEq

namespace PqStatus

def text : PqStatus → Str
  | .requiredUnverifiable | .unverifiable => txt "unverifiable"
  | .missing => txt "missing"
  | .invalid => txt "invalid"
  | .absent => txt "absent"
  | .partly => txt "partial"
  | .classicalBroken => txt "classical_broken"
  | .unpinned => txt "unpinned"
  | .secured => txt "protected"

def note : PqStatus → Str
  | .requiredUnverifiable => txt "post-quantum layer required but ML-DSA-65 cannot be verified here " ++
      txt "(cryptography >= 50 not available): not a pass"
  | .missing => txt "post-quantum layer required but absent on some entries (stripped or never " ++
      txt "signed)"
  | .invalid => txt "post-quantum layer invalid, foreign or malformed on some entries"
  | .absent => txt "no post-quantum signatures (Ed25519 only: not quantum-resistant, NIST IR 8547 " ++
      txt "draft)"
  | .unverifiable => txt "ML-DSA-65 signatures present but NOT verified (cryptography >= 50 not " ++
      txt "available)"
  | .partly => txt "post-quantum signatures on some entries only: not a protected ledger"
  | .classicalBroken => txt "ML-DSA-65 signatures valid but an Ed25519 signature is not: hybrid " ++
      txt "means BOTH hold"
  | .unpinned => txt "ML-DSA-65 signatures verified against the EMBEDDED key only (anyone can add " ++
      txt "their own): pass --pq-pubkey to pin"
  | .secured => txt "hybrid: every entry carries a valid ML-DSA-65 (FIPS 204) signature by the " ++
      txt "expected key, besides Ed25519"

def pqProtected : PqStatus → Option Bool
  | .requiredUnverifiable | .unverifiable | .unpinned => none
  | .secured => some true
  | _ => some false

end PqStatus

structure Receipt where
  ok : Bool
  verified : Nat
  total : Nat
  failures : List Failure
  signers : List Str
  pqStatus : PqStatus
  pqVerified : Nat
  pqFailures : List Failure
  pqSigners : List Str
  deriving DecidableEq

def Receipt.pqProtected (r : Receipt) : Option Bool := r.pqStatus.pqProtected

/-!
### Entries
-/

/--
The Ed25519 layer of an entry. After `refused` the entry is left, after `broken` its post-quantum
layer is still read.
-/
inductive Seal where
  | refused (reason : Str)
  | broken (reason : Str)
  | verified (signer : Str)
  deriving DecidableEq

/--
The post-quantum layer of an entry.
-/
inductive PqSeal where
  | unread
  | absent
  | missing
  | failed (reason : Str)
  | unchecked
  | verified (signer : Str)
  deriving DecidableEq

namespace PqSeal

def reason? : PqSeal → Option Str
  | .missing => some (txt "pq_missing")
  | .failed reason => some reason
  | _ => none

def present : PqSeal → Bool
  | .failed _ | .unchecked | .verified _ => true
  | _ => false

def signer? : PqSeal → Option Str
  | .verified signer => some signer
  | _ => none

end PqSeal

namespace Seal

def reason? : Seal → Option Str
  | .refused reason | .broken reason => some reason
  | .verified _ => none

def signer? : Seal → Option Str
  | .verified signer => some signer
  | _ => none

end Seal

section

variable (interp : Python.Interp) (crypto : Tip.Crypto)

/--
`_content_self_hash_ok`, `none` stands for `RecursionError` in `json.dumps`.
-/
def contentSelfHashOk (e : Entry) : Option Bool :=
  let sh := e.get (txt "self_hash")
  if !Python.truthy sh then
    some false
  else if interp.encoderLimit < (Json.obj (withoutAttestation e)).depth then
    none
  else
    let payload := payloadOf e
    some (sh = .str (Hex.ofBytes (sha256 payload)) || sh = .str (Hex.ofBytes (sha3_256 payload)))

/--
The signature of an entry with a good digest.
-/
def signatureSeal (expectedPubkeyHex : Option Str) (e : Entry) : Seal :=
  let signer := e.get (txt "signer")
  if (Tip.given expectedPubkeyHex).any fun key => signer ≠ .str key then
    .refused (txt "signer_mismatch")
  else
    let rawSig := (Tip.str? (e.get (txt "signature"))).bind fun sig => Tip.b64Strict sig 64
    match rawSig, (Tip.str? signer).filter (Tip.isHex 64) with
    | some sig, some signer =>
      match Ed25519Order.strictProblem (Tip.fromHex signer) sig with
      | some why => .broken why
      | none =>
        let sh := (Tip.str? (e.get (txt "self_hash"))).getD []
        match crypto.ed25519 (Tip.fromHex signer) sig (sh.flatMap Utf8.encodePoint) with
        | .error _ => .broken (txt "bad_signature")
        | .ok () => .verified signer
    | _, _ => .refused (txt "malformed_signature_field")

/--
The Ed25519 layer of an entry.
-/
def entrySeal (expectedPubkeyHex : Option Str) (e : Entry) : Option Seal :=
  if !(Python.truthy (e.get (txt "signature")) && Python.truthy (e.get (txt "signer")) &&
      Python.truthy (e.get (txt "self_hash"))) then
    some (.refused (txt "missing signature/signer/self_hash"))
  else
    (contentSelfHashOk interp e).map fun ok =>
      if ok then signatureSeal crypto expectedPubkeyHex e
      else .refused (txt "content_hash_mismatch")

/--
The post-quantum layer of an entry whose Ed25519 layer was checked.
-/
def pqSeal (expectedPqPubkeyB64 : Option Str) (require : Bool) (e : Entry) : PqSeal :=
  let pqSig := e.get (txt "signature_pq")
  let pqSigner := e.get (txt "signer_pq")
  if !(Python.truthy pqSig || Python.truthy pqSigner) then
    if require then .missing else .absent
  else
    match Tip.given (Tip.str? pqSig), Tip.given (Tip.str? pqSigner) with
    | some sig, some signer =>
      if (Tip.given expectedPqPubkeyB64).any fun key => signer ≠ key then
        .failed (txt "pq_signer_mismatch")
      else
        match Tip.b64Strict sig pqSigLen, Tip.b64Strict signer pqPkLen with
        | some rawSig, some rawPk =>
          match crypto.mldsa65 with
          | none => if require then .failed (txt "pq_unverifiable") else .unchecked
          | some verify =>
            let sh := (Tip.str? (e.get (txt "self_hash"))).getD []
            match verify rawPk rawSig (sh.flatMap Utf8.encodePoint) with
            | .error _ => .failed (txt "bad_pq_signature")
            | .ok () => .verified signer
        | _, _ => .failed (txt "malformed_pq_field")
    | _, _ => .failed (txt "missing signature_pq/signer_pq")

/--
Both layers of a line, `none` stands for `RecursionError`.
-/
def lineSeals (expectedPubkeyHex expectedPqPubkeyB64 : Option Str) (require : Bool)
    : Line → Option (Seal × PqSeal)
  | .undecodable => some (.refused (txt "json_decode"), .unread)
  | .value (.obj e) =>
    (entrySeal interp crypto expectedPubkeyHex e).map fun s =>
      match s with
      | .refused reason => (.refused reason, .unread)
      | s => (s, pqSeal crypto expectedPqPubkeyB64 require e)
  | .value _ => some (.refused (txt "not_a_json_object"), .unread)

/-!
### Ledger
-/

/--
`sorted(set(xs))`.
-/
def sortedSet (xs : List Str) : List Str := xs.dedup.insertionSort (· ≤ ·)

def failuresOf (reasons : List (Option Str)) : List Failure :=
  reasons.zipIdx.filterMap fun (reason, i) => reason.map fun reason => ⟨i, reason⟩

def pqStatusOf (seals : List (Seal × PqSeal)) (pinned : Bool) : PqStatus :=
  let pqReasons := seals.filterMap fun s => s.2.reason?
  if !pqReasons.isEmpty then
    if pqReasons.all (· = txt "pq_unverifiable") then .requiredUnverifiable
    else if pqReasons.all (· = txt "pq_missing") then .missing
    else .invalid
  else if seals.all fun s => !s.2.present then
    .absent
  else if crypto.mldsa65.isNone then
    .unverifiable
  else if !seals.all (fun s => s.2.signer?.isSome) then
    .partly
  else if !seals.all (fun s => s.1.reason?.isNone) then
    .classicalBroken
  else if !pinned then
    .unpinned
  else
    .secured

def receiptOf (seals : List (Seal × PqSeal)) (pinned : Bool) : Receipt :=
  let failures := failuresOf (seals.map fun s => s.1.reason?)
  let pqFailures := failuresOf (seals.map fun s => s.2.reason?)
  let signers := seals.filterMap fun s => s.1.signer?
  let pqSigners := seals.filterMap fun s => s.2.signer?
  {
    ok := failures.isEmpty && signers.length = seals.length && !seals.isEmpty && pqFailures.isEmpty
    verified := signers.length
    total := seals.length
    failures
    signers := sortedSet signers
    pqStatus := pqStatusOf crypto seals pinned
    pqVerified := pqSigners.length
    pqFailures
    pqSigners := sortedSet pqSigners }

def verifyLedgerSignatures (lines : List Line) (expectedPubkeyHex expectedPqPubkeyB64 : Option Str)
    (requirePq : Bool) : Except Raised Receipt :=
  let pqKey := Tip.given expectedPqPubkeyB64
  if !crypto.available then
    .error .runtimeError
  else if requirePq && pqKey.isNone then
    .error .requirePqWithoutKey
  else if pqKey.isSome && (Tip.given expectedPubkeyHex).isNone then
    .error .pqKeyWithoutKey
  else if pqKey.any fun key => (Tip.b64Strict key pqPkLen).isNone then
    .error .badExpectedPqKey
  else
    let require := requirePq || pqKey.isSome
    match lines.mapM (lineSeals interp crypto expectedPubkeyHex expectedPqPubkeyB64 require) with
    | none => .error .recursionError
    | some seals => .ok (receiptOf crypto seals pqKey.isSome)

/--
`_load_line`.
-/
def loadLine (line : Str) : Line :=
  match Python.loads interp line with
  | .ok v => .value v
  | .error _ => .undecodable

def verifyFile (early : Bytes → List Str) (content : Bytes) (pubkeyHex pqPubkeyB64 : Option Str)
    (requirePq : Bool) : Except Raised Receipt :=
  match Python.textLines early content with
  | (_, false) => .error .unicodeDecodeError
  | (lines, true) =>
    verifyLedgerSignatures interp crypto
      ((lines.filter fun line => !Python.isBlankLine line).map (loadLine interp)) pubkeyHex
      pqPubkeyB64 requirePq

/-!
### Accepted ledgers
-/

/--
Both layers of the line hold, as far as they are there and required.
-/
def Sealed (expectedPubkeyHex expectedPqPubkeyB64 : Option Str) (require : Bool) (line : Line)
    : Prop :=
  ∃ signer pq, lineSeals interp crypto expectedPubkeyHex expectedPqPubkeyB64 require line =
    some (.verified signer, pq) ∧ pq.reason? = none

theorem failuresOf_eq_nil_iff (reasons : List (Option Str))
    : failuresOf reasons = [] ↔ ∀ reason ∈ reasons, reason = none := by
  rw [failuresOf, List.filterMap_eq_nil_iff]
  constructor
  . intro h reason hreason
    rcases List.mem_iff_getElem.mp hreason with ⟨i, hi, rfl⟩
    have hpair := h (reasons[i], i) (List.mk_mem_zipIdx_iff_getElem?.mpr (by simp))
    simpa using hpair
  . rintro h ⟨reason, i⟩ hmem
    have hreason := h reason (List.fst_mem_of_mem_zipIdx hmem)
    simp [hreason]

theorem length_filterMap_eq_iff {α β : Type} (f : α → Option β) (xs : List α)
    : (xs.filterMap f).length = xs.length ↔ ∀ x ∈ xs, (f x).isSome = true := by
  induction xs with
  | nil => simp
  | cons x xs ih =>
    have hle := List.length_filterMap_le f xs
    cases hx : f x with
    | none => simp [hx]; omega
    | some y => simp [hx, ih]

theorem receiptOf_ok_iff (seals : List (Seal × PqSeal)) (pinned : Bool)
    : (receiptOf crypto seals pinned).ok = true ↔ seals ≠ [] ∧ ∀ s ∈ seals,
        (∃ signer, s.1 = .verified signer) ∧ s.2.reason? = none := by
  have hverified : ∀ s : Seal, s.signer?.isSome = true ↔ ∃ signer, s = .verified signer := by
    intro s
    cases s <;> simp [Seal.signer?]
  simp only [receiptOf, Bool.and_eq_true, List.isEmpty_iff, failuresOf_eq_nil_iff, List.mem_map,
    forall_exists_index, and_imp, forall_apply_eq_imp_iff₂, decide_eq_true_eq,
    length_filterMap_eq_iff, hverified, Bool.not_eq_true', List.isEmpty_eq_false_iff]
  constructor
  . rintro ⟨⟨⟨_, hsigners⟩, hne⟩, hpq⟩
    exact ⟨hne, fun s hs => ⟨hsigners s hs, hpq s hs⟩⟩
  . rintro ⟨hne, h⟩
    refine ⟨⟨⟨fun s hs => ?_, fun s hs => (h s hs).1⟩, hne⟩, fun s hs => (h s hs).2⟩
    rcases (h s hs).1 with ⟨signer, heq⟩
    rw [heq]
    rfl

/--
What the verification of a ledger comes to: there is a line, and all lines are sealed.
-/
theorem verifyLedgerSignatures_ok_iff {lines : List Line}
    {expectedPubkeyHex expectedPqPubkeyB64 : Option Str} {requirePq : Bool} {r : Receipt}
    (h : verifyLedgerSignatures interp crypto lines expectedPubkeyHex expectedPqPubkeyB64 requirePq =
      .ok r)
    : r.ok = true ↔ lines ≠ [] ∧ ∀ line ∈ lines, Sealed interp crypto expectedPubkeyHex
        expectedPqPubkeyB64 (requirePq || (Tip.given expectedPqPubkeyB64).isSome) line := by
  rw [verifyLedgerSignatures] at h
  split at h
  . simp at h
  split at h
  . simp at h
  split at h
  . simp at h
  split at h
  . simp at h
  simp only at h
  split at h
  . simp at h
  . next seals hseals =>
    rw [← Except.ok.inj h, receiptOf_ok_iff]
    rw [Option.mapM_eq_some] at hseals
    clear h
    induction hseals with
    | nil => simp
    | @cons line s lines seals hline hlines ih =>
      have hiff : ((∃ signer, s.1 = .verified signer) ∧ s.2.reason? = none) ↔
          Sealed interp crypto expectedPubkeyHex expectedPqPubkeyB64
            (requirePq || (Tip.given expectedPqPubkeyB64).isSome) line := by
        rcases s with ⟨s, pq⟩
        simp only [Sealed, hline, Option.some.injEq, Prod.mk.injEq]
        constructor
        . rintro ⟨⟨signer, rfl⟩, hpq⟩
          exact ⟨signer, pq, ⟨rfl, rfl⟩, hpq⟩
        . rintro ⟨signer, _, ⟨rfl, rfl⟩, hpq⟩
          exact ⟨⟨signer, rfl⟩, hpq⟩
      have hrest : (∀ s ∈ seals, (∃ signer, s.1 = .verified signer) ∧ s.2.reason? = none) ↔
          ∀ line ∈ lines, Sealed interp crypto expectedPubkeyHex expectedPqPubkeyB64
            (requirePq || (Tip.given expectedPqPubkeyB64).isSome) line := by
        cases hlines with
        | nil => simp
        | cons _ _ => simpa using ih
      simp only [ne_eq, reduceCtorEq, not_false_eq_true, true_and, List.mem_cons,
        forall_eq_or_imp, hiff, hrest]

theorem signatureSeal_of_pinned {expectedPubkeyHex : Option Str} {e : Entry} {signer : Str}
    (h : signatureSeal crypto expectedPubkeyHex e = .verified signer)
    : signatureSeal crypto none e = .verified signer := by
  rw [signatureSeal] at h ⊢
  split at h
  . simp at h
  . rw [if_neg (by simp [Tip.given])]
    exact h

theorem pqSeal_of_pinned {expectedPqPubkeyB64 : Option Str} {require : Bool} {e : Entry}
    (h : (pqSeal crypto expectedPqPubkeyB64 require e).reason? = none)
    : (pqSeal crypto none false e).reason? = none := by
  have hnone : (Tip.given (none : Option Str)) = none := rfl
  simp only [pqSeal, hnone, Option.any_none, Bool.false_eq_true, ↓reduceIte] at h ⊢
  split at h
  . next habsent => rw [if_pos habsent]; rfl
  . next hpresent =>
    rw [if_neg hpresent]
    split at h
    . next sig signer hsig hsigner =>
      split at h
      . simp [PqSeal.reason?] at h
      split at h
      . next rawSig rawPk hraw hpk =>
        split at h
        . rfl
        . next verify hverify =>
          exact h
      . simp [PqSeal.reason?] at h
    . simp [PqSeal.reason?] at h

/--
A line that is verified is an entry that shows its signature.
-/
theorem entry_of_verified {v : Json} {expectedPubkeyHex expectedPqPubkeyB64 : Option Str}
    {require : Bool} {signer : Str} {pq : PqSeal}
    (h : lineSeals interp crypto expectedPubkeyHex expectedPqPubkeyB64 require (.value v) =
      some (.verified signer, pq))
    : ∃ e, v = .obj e ∧ Python.truthy (Entry.get e (txt "signature")) = true := by
  cases v with
  | obj e =>
    refine ⟨e, rfl, ?_⟩
    simp only [lineSeals, Option.map_eq_some_iff] at h
    rcases h with ⟨s, hs, heq⟩
    rw [entrySeal] at hs
    split at hs
    . rw [← Option.some.inj hs] at heq
      simp at heq
    . next hfields =>
      simp only [Bool.not_eq_true', Bool.not_eq_false, Bool.and_eq_true] at hfields
      exact hfields.1.1
  | null | bool | int | float | str | arr => simp [lineSeals] at h

/--
A line that is sealed under pinned keys is sealed.
-/
theorem Sealed.unpinned {expectedPubkeyHex expectedPqPubkeyB64 : Option Str} {require : Bool}
    {line : Line} (h : Sealed interp crypto expectedPubkeyHex expectedPqPubkeyB64 require line)
    : Sealed interp crypto none none false line := by
  rcases h with ⟨signer, pq, hline, hpq⟩
  match line with
  | .undecodable => simp [lineSeals] at hline
  | .value (.obj e) =>
    simp only [lineSeals, Option.map_eq_some_iff] at hline
    rcases hline with ⟨s, hs, hline⟩
    match s with
    | .refused reason => simp at hline
    | .broken reason => simp at hline
    | .verified signer' =>
      simp only [Prod.mk.injEq, Seal.verified.injEq] at hline
      rcases hline with ⟨rfl, rfl⟩
      refine ⟨signer', pqSeal crypto none false e, ?_, pqSeal_of_pinned crypto hpq⟩
      have hentry : entrySeal interp crypto none e = some (.verified signer') := by
        rw [entrySeal] at hs ⊢
        split at hs
        . simp at hs
        . next hfields =>
          rw [if_neg hfields]
          rcases Option.map_eq_some_iff.mp hs with ⟨ok, hok, hs⟩
          rw [hok, Option.map_some]
          split at hs
          . next htrue => rw [if_pos htrue, signatureSeal_of_pinned crypto hs]
          . simp at hs
      simp only [lineSeals, hentry, Option.map_some]
  | .value .null | .value (.bool _) | .value (.int _) | .value (.float _) | .value (.str _)
  | .value (.arr _) => simp [lineSeals] at hline

theorem available_of_ok {lines : List Line} {expectedPubkeyHex expectedPqPubkeyB64 : Option Str}
    {requirePq : Bool} {r : Receipt}
    (h : verifyLedgerSignatures interp crypto lines expectedPubkeyHex expectedPqPubkeyB64 requirePq =
      .ok r)
    : crypto.available = true := by
  rw [verifyLedgerSignatures] at h
  split at h
  . simp at h
  . next havailable => simpa using havailable

/--
Lines that are all sealed are verified, without keys that are pinned.
-/
theorem verifyLedgerSignatures_of_sealed {lines : List Line} (havailable : crypto.available = true)
    (hne : lines ≠ []) (hsealed : ∀ line ∈ lines, Sealed interp crypto none none false line)
    : ∃ r, verifyLedgerSignatures interp crypto lines none none false = .ok r ∧ r.ok = true := by
  have hseals : ∃ seals, lines.mapM (lineSeals interp crypto none none false) = some seals := by
    clear hne
    induction lines with
    | nil => exact ⟨[], rfl⟩
    | cons line lines ih =>
      rcases hsealed line List.mem_cons_self with ⟨signer, pq, hline, _⟩
      rcases ih fun line hline => hsealed line (List.mem_cons_of_mem _ hline) with ⟨seals, hlines⟩
      exact ⟨_, Option.mapM_eq_some.mpr (.cons hline (Option.mapM_eq_some.mp hlines))⟩
  rcases hseals with ⟨seals, hseals⟩
  have hresult : verifyLedgerSignatures interp crypto lines none none false =
      .ok (receiptOf crypto seals false) := by
    have hnone : Tip.given (none : Option Str) = none := rfl
    simp [verifyLedgerSignatures, havailable, hnone, hseals]
  exact ⟨_, hresult, (verifyLedgerSignatures_ok_iff interp crypto hresult).mpr ⟨hne, hsealed⟩⟩

/--
Keys that are pinned only narrow what is accepted.
-/
theorem verifyLedgerSignatures_of_pinned {lines : List Line}
    {expectedPubkeyHex expectedPqPubkeyB64 : Option Str} {requirePq : Bool} {r : Receipt}
    (h : verifyLedgerSignatures interp crypto lines expectedPubkeyHex expectedPqPubkeyB64 requirePq =
      .ok r)
    (hok : r.ok = true)
    : ∃ r', verifyLedgerSignatures interp crypto lines none none false = .ok r' ∧
        r'.ok = true := by
  rcases (verifyLedgerSignatures_ok_iff interp crypto h).mp hok with ⟨hne, hpinned⟩
  exact verifyLedgerSignatures_of_sealed interp crypto (available_of_ok interp crypto h) hne
    fun line hline => (hpinned line hline).unpinned

theorem verifyFile_of_pinned {early : Bytes → List Str} {content : Bytes}
    {pubkeyHex pqPubkeyB64 : Option Str} {requirePq : Bool} {r : Receipt}
    (h : verifyFile interp crypto early content pubkeyHex pqPubkeyB64 requirePq = .ok r)
    (hok : r.ok = true)
    : ∃ r', verifyFile interp crypto early content none none false = .ok r' ∧ r'.ok = true := by
  rw [verifyFile] at h ⊢
  split at h
  . simp at h
  . exact verifyLedgerSignatures_of_pinned interp crypto h hok

end

end Signer
end CryptoValid
