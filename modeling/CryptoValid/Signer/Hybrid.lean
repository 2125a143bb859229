import CryptoValid.Signer

/-!
This module contains what the post-quantum status of a ledger says about its entries.
-/

namespace CryptoValid
namespace Signer

/--
The entry has the digest of its content.
-/
def HashMatches (e : Entry) (selfHash : Str) : Prop :=
  e.get (txt "self_hash") = .str selfHash ∧
    (selfHash = Hex.ofBytes (sha256 (payloadOf e)) ∨ selfHash = Hex.ofBytes (sha3_256 (payloadOf e)))

section

variable (interp : Python.Interp) (crypto : Tip.Crypto)

/--
The entry has a valid Ed25519 signature over the digest, and the key is this one.
-/
def Ed25519Signed (key : Str) (e : Entry) (selfHash : Str) : Prop :=
  e.get (txt "signer") = .str key ∧ Tip.isHex 64 key = true ∧
    ∃ text sig, e.get (txt "signature") = .str text ∧ Tip.b64Strict text 64 = some sig ∧
      Ed25519Order.strictProblem (Tip.fromHex key) sig = none ∧
      crypto.ed25519 (Tip.fromHex key) sig (selfHash.flatMap Utf8.encodePoint) = .ok ()

/--
The entry has a valid ML-DSA-65 signature over the digest, and the key is this one.
-/
def Mldsa65Signed (pqKey : Str) (e : Entry) (selfHash : Str) : Prop :=
  e.get (txt "signer_pq") = .str pqKey ∧
    ∃ text sig pk verify, e.get (txt "signature_pq") = .str text ∧
      Tip.b64Strict text pqSigLen = some sig ∧ Tip.b64Strict pqKey pqPkLen = some pk ∧
      crypto.mldsa65 = some verify ∧ verify pk sig (selfHash.flatMap Utf8.encodePoint) = .ok ()

/--
Both signatures of a line hold, under the keys that are expected.
-/
def Protected (key pqKey : Str) (line : Line) : Prop :=
  ∃ e selfHash, line = .value (.obj e) ∧ HashMatches e selfHash ∧
    Ed25519Signed crypto key e selfHash ∧ Mldsa65Signed crypto pqKey e selfHash

/-!
### One line
-/

theorem given_some {arg : Option Str} {key : Str}
    : Tip.given arg = some key ↔ arg = some key ∧ key ≠ [] := by
  simp [Tip.given, Option.filter_eq_some_iff]

theorem given_of_ne_nil {key : Str} (h : key ≠ []) : Tip.given (some key) = some key :=
  given_some.mpr ⟨rfl, h⟩

theorem str?_eq_some {v : Json} {s : Str} : Tip.str? v = some s ↔ v = .str s := by
  cases v <;> simp [Tip.str?]

theorem ne_nil_of_b64Strict {text : Str} {n : Nat} {raw : Bytes} (hn : 0 < n)
    (h : Tip.b64Strict text n = some raw) : text ≠ [] := by
  rintro rfl
  rw [Tip.b64Strict, if_pos] at h
  . simp at h
  . simp only [List.length_nil]
    omega

theorem signatureSeal_verified_iff {key : Str} {e : Entry} {selfHash : Str} (hkey : key ≠ [])
    (hself : e.get (txt "self_hash") = .str selfHash)
    : (∃ signer, signatureSeal crypto (some key) e = .verified signer) ↔
        Ed25519Signed crypto key e selfHash := by
  rw [signatureSeal, given_of_ne_nil hkey, Option.any_some, hself, Ed25519Signed]
  by_cases hsigner : e.get (txt "signer") = .str key
  . have hstr : Tip.str? (Json.str key) = some key := rfl
    simp only [hsigner, ne_eq, not_true_eq_false, decide_false, Bool.false_eq_true, ↓reduceIte, hstr,
      Option.filter_some, true_and]
    cases hsig : (Tip.str? (e.get (txt "signature"))).bind fun sig => Tip.b64Strict sig 64 with
    | none =>
      simp only [reduceCtorEq, exists_false, false_iff]
      rintro ⟨_, text, sig, htext, hraw, _⟩
      rw [str?_eq_some.mpr htext, Option.bind_some, hraw] at hsig
      simp at hsig
    | some sig =>
      rcases Option.bind_eq_some_iff.mp hsig with ⟨text, htext, hraw⟩
      rw [str?_eq_some] at htext
      cases hhex : Tip.isHex 64 key with
      | false => simp
      | true =>
        simp only [↓reduceIte, true_and]
        cases hstrict : Ed25519Order.strictProblem (Tip.fromHex key) sig with
        | some why =>
          simp only [reduceCtorEq, exists_false, false_iff]
          rintro ⟨text', sig', htext', hraw', hstrict', _⟩
          rw [htext, Json.str.injEq] at htext'
          rw [← htext', hraw, Option.some.injEq] at hraw'
          rw [← hraw', hstrict] at hstrict'
          simp at hstrict'
        | none =>
          have hdef : (Tip.str? (Json.str selfHash)).getD [] = selfHash := rfl
          simp only [hdef]
          constructor
          . rintro ⟨signer, h⟩
            split at h
            . simp at h
            . next hok => exact ⟨text, sig, htext, hraw, hstrict, hok⟩
          . rintro ⟨text', sig', htext', hraw', hstrict', hok⟩
            rw [htext, Json.str.injEq] at htext'
            rw [← htext', hraw, Option.some.injEq] at hraw'
            rw [hraw', hok]
            exact ⟨key, rfl⟩
  . simp [hsigner]

theorem contentSelfHashOk_iff {e : Entry} {ok : Bool} (h : contentSelfHashOk interp e = some ok)
    : ok = true ↔ ∃ selfHash, HashMatches e selfHash := by
  rw [contentSelfHashOk] at h
  dsimp only at h
  split at h
  . next hfalsy =>
    rw [← Option.some.inj h]
    simp only [Bool.false_eq_true, false_iff]
    rintro ⟨selfHash, hself, hhash⟩
    rw [hself] at hfalsy
    have hnil : selfHash = [] := by simpa [Python.truthy] using hfalsy
    have hlen : selfHash.length = 64 := by
      rcases hhash with rfl | rfl
      . rw [Hex.length_ofBytes, sha256.length_digest]
      . rw [Hex.length_ofBytes, sha3_256.length_digest]
    rw [hnil] at hlen
    simp at hlen
  split at h
  . simp at h
  . rw [← Option.some.inj h, Bool.or_eq_true, decide_eq_true_eq, decide_eq_true_eq]
    constructor
    . rintro (hself | hself)
      . exact ⟨_, hself, Or.inl rfl⟩
      . exact ⟨_, hself, Or.inr rfl⟩
    . rintro ⟨selfHash, hself, rfl | rfl⟩
      . exact Or.inl hself
      . exact Or.inr hself

theorem entrySeal_verified_iff {key : Str} {e : Entry} {s : Seal} (hkey : key ≠ [])
    (h : entrySeal interp crypto (some key) e = some s)
    : (∃ signer, s = .verified signer) ↔
        ∃ selfHash, HashMatches e selfHash ∧ Ed25519Signed crypto key e selfHash := by
  rw [entrySeal] at h
  split at h
  . next hmissing =>
    rw [← Option.some.inj h]
    simp only [reduceCtorEq, exists_false, false_iff]
    rintro ⟨selfHash, ⟨hself, hhash⟩, hsigner, _, text, sig, htext, hraw, _⟩
    have htextne := ne_nil_of_b64Strict (by decide) hraw
    have hselfne : selfHash ≠ [] := by
      rintro rfl
      rcases hhash with hhash | hhash
      . exact absurd (congrArg List.length hhash) (by
          rw [Hex.length_ofBytes, sha256.length_digest]
          simp)
      . exact absurd (congrArg List.length hhash) (by
          rw [Hex.length_ofBytes, sha3_256.length_digest]
          simp)
    rw [htext, hsigner, hself] at hmissing
    simp [Python.truthy, htextne, hkey, hselfne] at hmissing
  . rcases Option.map_eq_some_iff.mp h with ⟨ok, hok, rfl⟩
    have hcontent := contentSelfHashOk_iff interp hok
    cases ok with
    | false =>
      simp only [Bool.false_eq_true, ↓reduceIte, reduceCtorEq, exists_false, false_iff] at hcontent ⊢
      rintro ⟨selfHash, hhash, _⟩
      exact hcontent ⟨selfHash, hhash⟩
    | true =>
      rcases hcontent.mp rfl with ⟨selfHash, hhash⟩
      rw [if_pos rfl, signatureSeal_verified_iff crypto hkey hhash.1]
      constructor
      . intro hsigned
        exact ⟨selfHash, hhash, hsigned⟩
      . rintro ⟨selfHash', hhash', hsigned⟩
        have heq := hhash.1.symm.trans hhash'.1
        rw [Json.str.injEq] at heq
        rwa [heq]

theorem pqSeal_verified_iff {pqKey : Str} {require : Bool} {e : Entry} {selfHash : Str}
    (hkey : pqKey ≠ []) (hself : e.get (txt "self_hash") = .str selfHash)
    : (∃ signer, pqSeal crypto (some pqKey) require e = .verified signer) ↔
        Mldsa65Signed crypto pqKey e selfHash := by
  rw [pqSeal]
  dsimp only
  split
  . next habsent =>
    constructor
    . rintro ⟨signer, h⟩
      split at h <;> simp at h
    . rintro ⟨hsigner, _⟩
      rw [hsigner] at habsent
      simp [Python.truthy, hkey] at habsent
  . split
    . next text signer htext hsigner =>
      rcases given_some.mp htext with ⟨htext, -⟩
      rcases given_some.mp hsigner with ⟨hsigner, -⟩
      rw [str?_eq_some] at htext hsigner
      rw [given_of_ne_nil hkey, Option.any_some]
      by_cases hforeign : signer = pqKey
      . subst hforeign
        simp only [ne_eq, not_true_eq_false, decide_false, Bool.false_eq_true, ↓reduceIte]
        have hdef : (Tip.str? (e.get (txt "self_hash"))).getD [] = selfHash := by
          rw [hself]
          rfl
        simp only [hdef]
        constructor
        . rintro ⟨_, h⟩
          split at h
          . next sig pk hsig hpk =>
            split at h
            . split at h <;> simp at h
            . next verify hverify =>
              split at h
              . simp at h
              . next hok => exact ⟨hsigner, text, sig, pk, verify, htext, hsig, hpk, hverify, hok⟩
          . simp at h
        . rintro ⟨_, text', sig, pk, verify, htext', hsig, hpk, hverify, hok⟩
          rw [htext, Json.str.injEq] at htext'
          rw [← htext'] at hsig
          refine ⟨signer, ?_⟩
          simp only [hsig, hpk, hverify, hok]
      . simp only [ne_eq, hforeign, not_false_eq_true, decide_true, ↓reduceIte, reduceCtorEq,
          exists_false, false_iff]
        rintro ⟨hsigner', _⟩
        rw [hsigner, Json.str.injEq] at hsigner'
        exact hforeign hsigner'
    . next hnot =>
      simp only [reduceCtorEq, exists_false, false_iff]
      rintro ⟨hsigner, text, sig, pk, verify, htext, hsig, _⟩
      refine hnot text pqKey ?_ ?_
      . exact given_some.mpr ⟨str?_eq_some.mpr htext, ne_nil_of_b64Strict (by decide) hsig⟩
      . exact given_some.mpr ⟨str?_eq_some.mpr hsigner, hkey⟩

/--
Where the layer is required an entry without a reason to refuse it is an entry that is verified.
-/
theorem pqSeal_required {expectedPqPubkeyB64 : Option Str} {e : Entry}
    (h : (pqSeal crypto expectedPqPubkeyB64 true e).reason? = none)
    : ∃ signer, pqSeal crypto expectedPqPubkeyB64 true e = .verified signer := by
  generalize hpq : pqSeal crypto expectedPqPubkeyB64 true e = pq at h ⊢
  rw [pqSeal] at hpq
  dsimp only at hpq
  split at hpq
  . rw [if_pos rfl] at hpq
    simp [← hpq, PqSeal.reason?] at h
  . split at hpq
    . split at hpq
      . simp [← hpq, PqSeal.reason?] at h
      . split at hpq
        . split at hpq
          . rw [if_pos rfl] at hpq
            simp [← hpq, PqSeal.reason?] at h
          . split at hpq
            . simp [← hpq, PqSeal.reason?] at h
            . exact ⟨_, hpq.symm⟩
        . simp [← hpq, PqSeal.reason?] at h
    . simp [← hpq, PqSeal.reason?] at h

theorem protected_iff {key pqKey : Str} (hkey : key ≠ []) (hpq : pqKey ≠ []) {line : Line}
    {s : Seal × PqSeal} (h : lineSeals interp crypto (some key) (some pqKey) true line = some s)
    : ((∃ signer, s.1 = .verified signer) ∧ ∃ signer, s.2 = .verified signer) ↔
        Protected crypto key pqKey line := by
  match line with
  | .undecodable =>
    rw [← Option.some.inj h]
    simp [Protected]
  | .value (.obj e) =>
    rcases Option.map_eq_some_iff.mp h with ⟨layer, hlayer, heq⟩
    have hentry := entrySeal_verified_iff interp crypto hkey hlayer
    have hprotected : Protected crypto key pqKey (.value (.obj e)) ↔
        ∃ selfHash, HashMatches e selfHash ∧ Ed25519Signed crypto key e selfHash ∧
          Mldsa65Signed crypto pqKey e selfHash := by
      constructor
      . rintro ⟨e', selfHash, heq, hrest⟩
        rw [Line.value.injEq, Json.obj.injEq] at heq
        rw [heq]
        exact ⟨selfHash, hrest⟩
      . rintro ⟨selfHash, hrest⟩
        exact ⟨e, selfHash, rfl, hrest⟩
    rw [hprotected]
    constructor
    . rintro ⟨⟨signer, hs⟩, pqSigner, hpqs⟩
      match layer with
      | .refused reason => simp [← heq] at hs
      | .broken reason => simp [← heq] at hs
      | .verified signer' =>
        rcases hentry.mp ⟨signer', rfl⟩ with ⟨selfHash, hhash, hsigned⟩
        rw [← heq] at hpqs
        exact ⟨selfHash, hhash, hsigned,
          (pqSeal_verified_iff crypto hpq hhash.1).mp ⟨pqSigner, hpqs⟩⟩
    . rintro ⟨selfHash, hhash, hsigned, hmldsa⟩
      rcases hentry.mpr ⟨selfHash, hhash, hsigned⟩ with ⟨signer, rfl⟩
      rw [← heq]
      exact ⟨⟨signer, rfl⟩, (pqSeal_verified_iff crypto hpq hhash.1).mpr hmldsa⟩
  | .value .null | .value (.bool _) | .value (.int _) | .value (.float _) | .value (.str _)
  | .value (.arr _) =>
    rw [← Option.some.inj h]
    simp [Protected]

/-!
### A ledger
-/

theorem pqStatusOf_unpinned (seals : List (Seal × PqSeal))
    : pqStatusOf crypto seals false ≠ .secured := by
  rw [pqStatusOf]
  repeat' split
  all_goals first | simp; done | next hpinned => exact absurd rfl hpinned

theorem pqStatusOf_eq_secured_iff (seals : List (Seal × PqSeal)) (pinned : Bool)
    (hverify : ∀ s ∈ seals, (∃ signer, s.1 = .verified signer) → (∃ signer, s.2 = .verified signer) →
      crypto.mldsa65.isSome = true)
    : pqStatusOf crypto seals pinned = .secured ↔ pinned = true ∧ seals ≠ [] ∧
        ∀ s ∈ seals, (∃ signer, s.1 = .verified signer) ∧ ∃ signer, s.2 = .verified signer := by
  have hsigner : ∀ s : PqSeal, s.signer?.isSome = true ↔ ∃ signer, s = .verified signer := by
    intro s
    cases s <;> simp [PqSeal.signer?]
  have hreason : ∀ s : Seal, s.reason?.isNone = true ↔ ∃ signer, s = .verified signer := by
    intro s
    cases s <;> simp [Seal.reason?]
  rw [pqStatusOf]
  constructor
  . intro h
    split at h
    . split at h
      . simp at h
      . split at h <;> simp at h
    split at h
    . simp at h
    . next hpresent =>
      split at h
      . simp at h
      split at h
      . simp at h
      . next hall =>
        split at h
        . simp at h
        . next hclassical =>
          split at h
          . simp at h
          . next hpinned =>
            simp only [Bool.not_eq_true', Bool.not_eq_false, List.all_eq_true, hsigner, hreason]
              at hall hclassical hpinned
            refine ⟨hpinned, ?_, fun s hs => ⟨hclassical s hs, hall s hs⟩⟩
            rintro rfl
            simp at hpresent
  . rintro ⟨hpinned, hne, hall⟩
    have hempty : (seals.filterMap fun s => s.2.reason?) = [] := by
      rw [List.filterMap_eq_nil_iff]
      intro s hs
      rcases (hall s hs).2 with ⟨signer, hs⟩
      rw [hs]
      rfl
    rcases List.exists_mem_of_ne_nil seals hne with ⟨s, hs⟩
    have hmldsa := hverify s hs (hall s hs).1 (hall s hs).2
    have hpresent : ¬(seals.all fun s => !s.2.present) = true := by
      rw [List.all_eq_true]
      intro hnone
      rcases (hall s hs).2 with ⟨signer, hverified⟩
      have := hnone s hs
      rw [hverified] at this
      simp [PqSeal.present] at this
    have hpq : (seals.all fun s => s.2.signer?.isSome) = true := by
      rw [List.all_eq_true]
      exact fun s hs => (hsigner s.2).mpr (hall s hs).2
    have hclassical : (seals.all fun s => s.1.reason?.isNone) = true := by
      rw [List.all_eq_true]
      exact fun s hs => (hreason s.1).mpr (hall s hs).1
    rw [hempty, if_neg (by simp), if_neg hpresent, if_neg (by simp [Option.isSome_iff_ne_none.mp hmldsa]),
      if_neg (by simp [hpq]), if_neg (by simp [hclassical]), if_neg (by simp [hpinned])]

theorem pqProtected_eq_true_iff (status : PqStatus)
    : status.pqProtected = some true ↔ status = .secured := by
  cases status <;> simp [PqStatus.pqProtected]

/--
Keys that the function admits: a post-quantum key that is required is given, it comes with an Ed25519
key, and it is the base64 of a key.
-/
def Admitted (expectedPubkeyHex expectedPqPubkeyB64 : Option Str) (requirePq : Bool) : Prop :=
  (requirePq = true → Tip.given expectedPqPubkeyB64 ≠ none) ∧
    ∀ pqKey, Tip.given expectedPqPubkeyB64 = some pqKey →
      Tip.given expectedPubkeyHex ≠ none ∧ Tip.b64Strict pqKey pqPkLen ≠ none

/--
An entry is nested deeper than the interpreter can follow.
-/
def TooDeep (line : Line) : Prop :=
  ∃ e, line = .value (.obj e) ∧ interp.encoderLimit < (Json.obj (withoutAttestation e)).depth

theorem tooDeep_of_lineSeals {expectedPubkeyHex expectedPqPubkeyB64 : Option Str} {require : Bool}
    {line : Line}
    (h : lineSeals interp crypto expectedPubkeyHex expectedPqPubkeyB64 require line = none)
    : TooDeep interp line := by
  match line with
  | .undecodable => simp [lineSeals] at h
  | .value (.obj e) =>
    refine ⟨e, rfl, ?_⟩
    rw [lineSeals, Option.map_eq_none_iff, entrySeal] at h
    split at h
    . simp at h
    . rw [Option.map_eq_none_iff, contentSelfHashOk] at h
      dsimp only at h
      split at h
      . simp at h
      split at h
      . next hdeep => exact hdeep
      . simp at h
  | .value .null | .value (.bool _) | .value (.int _) | .value (.float _) | .value (.str _)
  | .value (.arr _) => simp [lineSeals] at h

theorem exists_mapM_eq_none {α β : Type} {f : α → Option β} {xs : List α} (h : xs.mapM f = none)
    : ∃ x ∈ xs, f x = none := by
  by_contra hall
  have hsome : ∀ x ∈ xs, ∃ y, f x = some y := by
    intro x hx
    cases hfx : f x with
    | none => exact absurd ⟨x, hx, hfx⟩ hall
    | some y => exact ⟨y, rfl⟩
  have hforall : ∃ ys, List.Forall₂ (fun x y => f x = some y) xs ys := by
    clear h hall
    induction xs with
    | nil => exact ⟨[], .nil⟩
    | cons x xs ih =>
      rcases hsome x List.mem_cons_self with ⟨y, hy⟩
      rcases ih fun z hz => hsome z (List.mem_cons_of_mem x hz) with ⟨ys, hys⟩
      exact ⟨y :: ys, .cons hy hys⟩
  rcases hforall with ⟨ys, hys⟩
  rw [Option.mapM_eq_some.mpr hys] at h
  simp at h

theorem verifyLedgerSignatures_admitted {expectedPubkeyHex expectedPqPubkeyB64 : Option Str}
    {requirePq : Bool} (havailable : crypto.available = true)
    (hadmitted : Admitted expectedPubkeyHex expectedPqPubkeyB64 requirePq) (lines : List Line)
    : verifyLedgerSignatures interp crypto lines expectedPubkeyHex expectedPqPubkeyB64 requirePq =
        match lines.mapM (lineSeals interp crypto expectedPubkeyHex expectedPqPubkeyB64
          (requirePq || (Tip.given expectedPqPubkeyB64).isSome)) with
        | none => .error .recursionError
        | some seals => .ok (receiptOf crypto seals (Tip.given expectedPqPubkeyB64).isSome) := by
  rw [verifyLedgerSignatures]
  dsimp only
  have hrequire : ¬(requirePq && (Tip.given expectedPqPubkeyB64).isNone) = true := by
    rw [Bool.and_eq_true, Option.isNone_iff_eq_none]
    exact fun h => hadmitted.1 h.1 h.2
  have hboth : ¬((Tip.given expectedPqPubkeyB64).isSome && (Tip.given expectedPubkeyHex).isNone)
      = true := by
    rw [Bool.and_eq_true, Option.isNone_iff_eq_none]
    rintro ⟨hpq, hnone⟩
    rcases Option.isSome_iff_exists.mp hpq with ⟨pqKey, hpq⟩
    exact (hadmitted.2 pqKey hpq).1 hnone
  have hformat : ¬(Tip.given expectedPqPubkeyB64).any (fun key =>
      (Tip.b64Strict key pqPkLen).isNone) = true := by
    rw [Option.any_eq_true]
    rintro ⟨pqKey, hpq, hnone⟩
    rw [Option.isNone_iff_eq_none] at hnone
    exact (hadmitted.2 pqKey hpq).2 hnone
  rw [if_neg (by simp [havailable]), if_neg hrequire, if_neg hboth]
  refine (if_neg hformat).trans ?_
  cases lines.mapM (lineSeals interp crypto expectedPubkeyHex expectedPqPubkeyB64
    (requirePq || (Tip.given expectedPqPubkeyB64).isSome)) <;> rfl

/--
What is reported on entries whose layers were all read, under two keys that are expected.
-/
theorem receiptOf_protected_iff {key pqKey : Str} (hkey : key ≠ []) (hpq : pqKey ≠ [])
    {lines : List Line} {seals : List (Seal × PqSeal)}
    (h : lines.mapM (lineSeals interp crypto (some key) (some pqKey) true) = some seals)
    : ((receiptOf crypto seals true).pqProtected = some true ↔
          lines ≠ [] ∧ ∀ line ∈ lines, Protected crypto key pqKey line) ∧
        ((receiptOf crypto seals true).ok = true ↔
          lines ≠ [] ∧ ∀ line ∈ lines, Protected crypto key pqKey line) := by
  have hforall := Option.mapM_eq_some.mp h
  have hne : seals ≠ [] ↔ lines ≠ [] := by
    rw [← List.length_pos_iff, ← List.length_pos_iff, hforall.length_eq]
  have hlines : (∀ s ∈ seals, (∃ signer, s.1 = .verified signer) ∧
      ∃ signer, s.2 = .verified signer) ↔ ∀ line ∈ lines, Protected crypto key pqKey line := by
    constructor
    . intro hall line hline
      rcases List.exists_of_mem_left hforall hline with ⟨s, hs, hseals⟩
      exact (protected_iff interp crypto hkey hpq hseals).mp (hall s hs)
    . intro hall s hs
      rcases List.exists_of_mem_right hforall hs with ⟨line, hline, hseals⟩
      exact (protected_iff interp crypto hkey hpq hseals).mpr (hall line hline)
  have hread : ∀ s ∈ seals, (∃ signer, s.1 = .verified signer) →
      ∃ e, s.2 = pqSeal crypto (some pqKey) true e := by
    rintro s hs ⟨signer, hverified⟩
    rcases List.exists_of_mem_right hforall hs with ⟨line, _, hseals⟩
    match line with
    | .undecodable =>
      rw [← Option.some.inj hseals] at hverified
      simp at hverified
    | .value (.obj e) =>
      rcases Option.map_eq_some_iff.mp hseals with ⟨layer, _, heq⟩
      match layer with
      | .refused reason => simp [← heq] at hverified
      | .broken reason => simp [← heq] at hverified
      | .verified signer' => exact ⟨e, by rw [← heq]⟩
    | .value .null | .value (.bool _) | .value (.int _) | .value (.float _) | .value (.str _)
    | .value (.arr _) =>
      rw [← Option.some.inj hseals] at hverified
      simp at hverified
  refine ⟨?_, ?_⟩
  . rw [Receipt.pqProtected, pqProtected_eq_true_iff]
    have hmldsa : ∀ s ∈ seals, (∃ signer, s.1 = .verified signer) →
        (∃ signer, s.2 = .verified signer) → crypto.mldsa65.isSome = true := by
      intro s hs hed hml
      rcases List.exists_of_mem_right hforall hs with ⟨line, _, hseals⟩
      rcases (protected_iff interp crypto hkey hpq hseals).mp ⟨hed, hml⟩ with
        ⟨e, selfHash, _, _, _, _, text, sig, pk, verify, _, _, _, hverify, _⟩
      rw [hverify]
      rfl
    rw [receiptOf]
    dsimp only
    rw [pqStatusOf_eq_secured_iff crypto seals true hmldsa, hne, hlines]
    simp
  . rw [receiptOf_ok_iff, hne, ← hlines]
    refine and_congr_right fun _ => forall₂_congr fun s hs => ?_
    refine and_congr_right fun hverified => ?_
    rcases hread s hs hverified with ⟨e, he⟩
    constructor
    . intro hreason
      rw [he] at hreason ⊢
      exact pqSeal_required crypto hreason
    . rintro ⟨signer, hsigner⟩
      rw [hsigner]
      rfl

/--
The status is never overstated: under admitted keys the ledger is protected if and only if it has
entries, a post-quantum key was expected and both signatures hold on every entry. When such a key is
expected nothing less is ok. Entries too deep for the interpreter raise.
-/
theorem pqProtected_iff (lines : List Line) (expectedPubkeyHex expectedPqPubkeyB64 : Option Str)
    (requirePq : Bool) (havailable : crypto.available = true)
    (hadmitted : Admitted expectedPubkeyHex expectedPqPubkeyB64 requirePq)
    : (∃ r, verifyLedgerSignatures interp crypto lines expectedPubkeyHex expectedPqPubkeyB64
          requirePq = .ok r ∧
        (r.pqProtected = some true ↔ lines ≠ [] ∧
          ∃ pqKey, Tip.given expectedPqPubkeyB64 = some pqKey ∧
            ∃ key, Tip.given expectedPubkeyHex = some key ∧
              ∀ line ∈ lines, Protected crypto key pqKey line) ∧
        (Tip.given expectedPqPubkeyB64 ≠ none → (r.ok = true ↔ r.pqProtected = some true))) ∨
      verifyLedgerSignatures interp crypto lines expectedPubkeyHex expectedPqPubkeyB64 requirePq
          = .error .recursionError ∧ ∃ line ∈ lines, TooDeep interp line := by
  rw [verifyLedgerSignatures_admitted interp crypto havailable hadmitted]
  cases hseals : lines.mapM (lineSeals interp crypto expectedPubkeyHex expectedPqPubkeyB64
      (requirePq || (Tip.given expectedPqPubkeyB64).isSome)) with
  | none =>
    rcases exists_mapM_eq_none hseals with ⟨line, hline, hnone⟩
    exact Or.inr ⟨rfl, line, hline, tooDeep_of_lineSeals interp crypto hnone⟩
  | some seals =>
    refine Or.inl ⟨_, rfl, ?_⟩
    cases hpq : Tip.given expectedPqPubkeyB64 with
    | none =>
      refine ⟨?_, fun h => absurd rfl h⟩
      rw [Receipt.pqProtected, pqProtected_eq_true_iff, receiptOf, Option.isSome_none]
      exact iff_of_false (pqStatusOf_unpinned crypto seals) (by simp)
    | some pqKey =>
      have hkey := (hadmitted.2 pqKey hpq).1
      rcases Option.ne_none_iff_exists'.mp hkey with ⟨key, hkey⟩
      rw [hpq, Option.isSome_some, Bool.or_true] at hseals
      rcases given_some.mp hpq with ⟨rfl, hpqne⟩
      rcases given_some.mp hkey with ⟨rfl, hkeyne⟩
      have hreceipt := receiptOf_protected_iff interp crypto hkeyne hpqne hseals
      rw [Option.isSome_some]
      refine ⟨?_, fun _ => hreceipt.2.trans hreceipt.1.symm⟩
      rw [hreceipt.1, hkey]
      simp

end

def exampleExpectedKey : Str :=
  txt "8a88e3dd7409f195fd52db2d3cba5d72ca6709bf1d94121bf3748801b40f6f5c"

def exampleExpectedPqKey : Str := List.replicate 2603 65 ++ txt "="

def exampleSelfHash : Str :=
  txt "f09a004aaa5310a9fc709ab25693577ec011b2f334182d9f6baf7a46d4499ba1"

def exampleSignature : Str :=
  txt "VcRXHaF8kEc8A7bHpULXSFGkZapFk8TjD3XVGnHC/gnltNIfOEPJ1KlkfPDTfqsvsOwAafufTNS59HY8a5GFDA=="

/--
An entry with a good digest, a good Ed25519 signature and a post-quantum signature of zeros.
-/
def exampleEntry : Entry := [
  (txt "data", .obj [(txt "kind", .str (txt "order")), (txt "qty", .int 2)]),
  (txt "idx", .int 0),
  (txt "self_hash", .str exampleSelfHash),
  (txt "signature", .str exampleSignature),
  (txt "signature_pq", .str (List.replicate 4412 65)),
  (txt "signer", .str exampleExpectedKey),
  (txt "signer_pq", .str exampleExpectedPqKey)]

/--
A library that accepts the Ed25519 signature of the example only.
-/
def exampleCrypto : Tip.Crypto where
  available := true
  ed25519 pk sig msg :=
    if pk = Tip.fromHex exampleExpectedKey ∧ some sig = Tip.b64Strict exampleSignature 64 ∧
        msg = exampleSelfHash.flatMap Utf8.encodePoint then
      .ok ()
    else
      .error (txt "InvalidSignature")
  mldsa65 := some fun _ _ _ => .error (txt "InvalidSignature")

def exampleLines : List Line := [.value (.obj exampleEntry), .value (.arr []), .undecodable]

def exampleInterp : Python.Interp := ⟨1000, 1000, some 4300⟩

theorem pqProtected_iff_exampleLines
    : (∃ r, verifyLedgerSignatures exampleInterp exampleCrypto exampleLines
          (some exampleExpectedKey) (some exampleExpectedPqKey) true = .ok r ∧
        (r.pqProtected = some true ↔ exampleLines ≠ [] ∧
          ∃ pqKey, Tip.given (some exampleExpectedPqKey) = some pqKey ∧
            ∃ key, Tip.given (some exampleExpectedKey) = some key ∧
              ∀ line ∈ exampleLines, Protected exampleCrypto key pqKey line) ∧
        (Tip.given (some exampleExpectedPqKey) ≠ none →
          (r.ok = true ↔ r.pqProtected = some true))) ∨
      verifyLedgerSignatures exampleInterp exampleCrypto exampleLines
          (some exampleExpectedKey) (some exampleExpectedPqKey) true = .error .recursionError ∧
        ∃ line ∈ exampleLines, TooDeep exampleInterp line := by
  refine pqProtected_iff exampleInterp exampleCrypto exampleLines
    (some exampleExpectedKey) (some exampleExpectedPqKey) true rfl ?_
  have hpq : Tip.given (some exampleExpectedPqKey) = some exampleExpectedPqKey := by
    decide +kernel
  refine ⟨fun _ => by rw [hpq]; simp, fun pqKey h => ?_⟩
  rw [hpq, Option.some.injEq] at h
  rw [← h]
  constructor <;> decide +kernel

end Signer
end CryptoValid
