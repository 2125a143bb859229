import CryptoValid.Cedulon.Ledger
import CryptoValid.Lib.Sha256Evaluation

/-!
This module contains what a VALID verdict says about allows and effects: when there is a one-to-one
matching between them.
-/

namespace CryptoValid
namespace Cedulon

/--
The allow and the row have the same reference, hash and class.
-/
def Matches (c : Record) (row : Row) : Prop :=
  c.ref = some row.ref ∧ c.effectHash = some row.effectHash ∧ c.effectClass = some row.effectClass

/--
Every allow has an effect of its own, and every effect an allow of its own.
-/
def MatchedOneToOne (records : List Record) (rows : List Row) : Prop :=
  Matching.OneToOne Matches (allowsOf records) rows

/--
Allows that share a reference are for the same effect.
-/
def SharedRefsAgree (records : List Record) : Prop :=
  ∀ c ∈ allowsOf records, ∀ d ∈ allowsOf records, c.ref = d.ref →
    c.effectHash = d.effectHash ∧ c.effectClass = d.effectClass

/-!
### What the reconciliation has checked
-/

section

variable (records : List Record) (skew : Nat)

/--
The last allow under the reference of the row is for this row.
-/
def RowAgrees (row : Row) : Prop :=
  ∃ a, (allowDict records).get? row.ref = some a ∧ a.effectHash = some row.effectHash ∧
    a.effectClass = some row.effectClass

theorem prefix_checkRows (rows : List Row) (seen : Dict Str Nat) (deferred : List Deferred)
    : deferred <+: (checkRows records skew seen deferred rows).1 := by
  induction rows generalizing seen deferred with
  | nil => exact List.prefix_rfl
  | cons row rows ih =>
    rw [checkRows]
    split
    . split
      . exact List.prefix_rfl
      . split
        . exact List.prefix_rfl
        . exact ih _ _
    . dsimp only
      split
      . exact List.prefix_rfl
      . split
        . exact (List.prefix_append _ _).trans (ih _ _)
        . exact List.prefix_rfl

theorem prefix_checkCounts (perRef : List (Str × Nat)) (seen : Dict Str Nat)
    (deferred : List Deferred)
    : deferred <+: (checkCounts records skew seen deferred perRef).1 := by
  induction perRef generalizing deferred with
  | nil => exact List.prefix_rfl
  | cons p perRef ih =>
    rcases p with ⟨ref, n⟩
    rw [checkCounts]
    split
    . exact (List.prefix_append _ _).trans (ih _)
    . split
      . exact List.prefix_rfl
      . split
        . exact List.prefix_rfl
        . exact ih _

variable {records skew}

/--
Rows that pass without a deferral agree with their allows, and have been counted.
-/
theorem checkRows_eq_ok {rows : List Row} {seen seen' : Dict Str Nat} {deferred : List Deferred}
    (h : checkRows records skew seen deferred rows = ([], .ok seen'))
    : (∀ row ∈ rows, RowAgrees records row) ∧
        seen' = (rows.map Row.ref).foldl (fun d k => d.set k ((d.get? k).getD 0 + 1)) seen := by
  induction rows generalizing seen deferred with
  | nil =>
    rw [checkRows] at h
    simp only [Prod.mk.injEq, Except.ok.injEq] at h
    exact ⟨by simp, h.2.symm⟩
  | cons row rows ih =>
    rw [checkRows] at h
    split at h
    . next a hget =>
      split at h
      . simp at h
      . next hhash =>
        split at h
        . simp at h
        . next hclass =>
          rcases ih h with ⟨hrows, hseen⟩
          rw [List.forall_mem_cons]
          exact ⟨⟨⟨a, hget, (not_not.mp hhash).symm, (not_not.mp hclass).symm⟩, hrows⟩, hseen⟩
    . dsimp only at h
      split at h
      . simp at h
      . split at h
        . -- a deferral stays
          have hprefix := prefix_checkRows records skew rows
            (seen.set row.ref ((seen.get? row.ref).getD 0 + 1))
            (deferred ++ [⟨row.ref, .opening, distance row.timestampMs (oldest records)⟩])
          rw [h] at hprefix
          simp at hprefix
        . simp at h

theorem checkCounts_eq_ok {perRef : List (Str × Nat)} {seen : Dict Str Nat}
    {deferred : List Deferred}
    (h : checkCounts records skew seen deferred perRef = ([], .ok ()))
    : ∀ p ∈ perRef, (seen.get? p.1).getD 0 = p.2 := by
  induction perRef generalizing deferred with
  | nil => simp
  | cons p perRef ih =>
    rcases p with ⟨ref, n⟩
    rw [checkCounts] at h
    split at h
    . have hprefix := prefix_checkCounts records skew perRef seen
        (deferred ++ [⟨ref, .closing, newest records - lastAllow records ref⟩])
      rw [h] at hprefix
      simp at hprefix
    . split at h
      . simp at h
      . split at h
        . simp at h
        . rw [List.forall_mem_cons]
          exact ⟨by dsimp only; omega, ih h⟩

theorem ref_of_mem_allowsOf {c : Record} (h : c ∈ allowsOf records) : c.ref = some (refOf c) := by
  have hallow : c.decision = .allow := by simpa [allowsOf, isAllow] using (List.mem_filter.mp h).2
  have hcomplete := (c.complete hallow).1
  rw [refOf]
  cases hr : c.ref with
  | none => simp [hr] at hcomplete
  | some r => rfl

/--
What a reconciliation without deferrals has established: every row agrees with an allow, and every
reference has as many rows as allows.
-/
theorem reconcile_eq_ok {rows : List Row} (h : reconcile records skew rows = ([], .ok ()))
    : (∀ row ∈ rows, RowAgrees records row) ∧
        ∀ ref, ((allowsOf records).map refOf).count ref = (rows.map Row.ref).count ref := by
  rw [reconcile] at h
  split at h
  . simp at h
  . next deferred seen hrows =>
    have hdeferred : deferred = [] := by
      have hprefix := prefix_checkCounts records skew
        (Dict.tally ((allowsOf records).map refOf)).items seen deferred
      rw [h] at hprefix
      exact List.prefix_nil.mp hprefix
    subst hdeferred
    rcases checkRows_eq_ok hrows with ⟨hagrees, rfl⟩
    refine ⟨hagrees, fun ref => ?_⟩
    have hcounts := checkCounts_eq_ok h
    by_cases hmem : ref ∈ (allowsOf records).map refOf
    . have hitem : (ref, ((allowsOf records).map refOf).count ref) ∈
          (Dict.tally ((allowsOf records).map refOf)).items :=
        (Dict.mem_items_tally _ _ _).mpr ⟨hmem, rfl⟩
      rw [← Dict.getD_get?_tally (rows.map Row.ref) ref]
      exact (hcounts _ hitem).symm
    . rw [List.count_eq_zero.mpr hmem, eq_comm, List.count_eq_zero]
      intro hrow
      rcases List.mem_map.mp hrow with ⟨row, hin, rfl⟩
      rcases hagrees row hin with ⟨a, hget, _⟩
      rcases Dict.mem_of_get?_lastBy hget with ⟨ha, hkey⟩
      exact hmem (List.mem_map.mpr ⟨a, ha, hkey⟩)

/-!
### Matchings
-/

/--
What an allow is for, and what a row is.
-/
def effectOf (c : Record) : Str × (Option Str × Option Str) :=
  (refOf c, (c.effectHash, c.effectClass))

def Row.effect (row : Row) : Str × (Option Str × Option Str) :=
  (row.ref, (some row.effectHash, some row.effectClass))

theorem matches_iff {c : Record} (hc : c ∈ allowsOf records) (row : Row)
    : Matches c row ↔ effectOf c = row.effect := by
  rw [Matches, ref_of_mem_allowsOf hc, effectOf, Row.effect]
  simp

theorem matchedOneToOne_iff_perm (rows : List Row)
    : MatchedOneToOne records rows
        ↔
      ((allowsOf records).map effectOf).Perm (rows.map Row.effect) := by
  rw [← Matching.oneToOne_iff_perm, MatchedOneToOne, Matching.OneToOne, Matching.OneToOne]
  refine exists_congr fun e => forall_congr' fun i => ?_
  exact matches_iff (List.get_mem _ _) _

theorem sharedRefsAgree_iff_functional
    : SharedRefsAgree records ↔ Matching.Functional ((allowsOf records).map effectOf) := by
  simp only [SharedRefsAgree, Matching.Functional, List.forall_mem_map]
  refine forall₂_congr fun c hc => forall₂_congr fun d hd => ?_
  rw [ref_of_mem_allowsOf hc, ref_of_mem_allowsOf hd]
  simp [effectOf]

/--
A row is for the effect of the last allow under its reference.
-/
theorem effect_mem_of_rowAgrees {row : Row} (h : RowAgrees records row)
    : row.effect ∈ (allowsOf records).map effectOf := by
  rcases h with ⟨a, hget, hhash, hclass⟩
  rcases Dict.mem_of_get?_lastBy hget with ⟨ha, hkey⟩
  refine List.mem_map.mpr ⟨a, ha, ?_⟩
  rw [effectOf, Row.effect, hkey, hhash, hclass]

/--
Rows that agree with the last allow under their reference agree with each other.
-/
theorem functional_rows {rows : List Row} (h : ∀ row ∈ rows, RowAgrees records row)
    : Matching.Functional (rows.map Row.effect) := by
  simp only [Matching.Functional, List.forall_mem_map]
  intro r hr s hs hkey
  rcases h r hr with ⟨a, ha, hhash, hclass⟩
  rcases h s hs with ⟨b, hb, hhash', hclass'⟩
  have hrs : r.ref = s.ref := hkey
  rw [hrs, hb] at ha
  rw [Option.some.inj ha] at hhash' hclass'
  rw [Row.effect, Row.effect, ← hhash, ← hclass, ← hhash', ← hclass']

theorem matchedOneToOne_iff {rows : List Row} (h : reconcile records skew rows = ([], .ok ()))
    : MatchedOneToOne records rows ↔ SharedRefsAgree records := by
  rcases reconcile_eq_ok h with ⟨hagrees, hcount⟩
  rw [matchedOneToOne_iff_perm, sharedRefsAgree_iff_functional]
  apply Matching.perm_iff_functional
  . intro ref
    rw [List.map_map, List.map_map]
    exact hcount ref
  . intro q hq
    rcases List.mem_map.mp hq with ⟨row, hrow, rfl⟩
    exact effect_mem_of_rowAgrees (hagrees row hrow)
  . exact functional_rows hagrees

end

/-!
### No allowance
-/

theorem checkRows_no_allowance (records : List Record) (rows : List Row) (seen : Dict Str Nat)
    (deferred : List Deferred)
    : (checkRows records 0 seen deferred rows).1 = deferred := by
  induction rows generalizing seen with
  | nil => rfl
  | cons row rows ih =>
    rw [checkRows]
    split
    . split
      . rfl
      . split
        . rfl
        . exact ih _
    . split
      . rfl
      . simp

theorem checkCounts_no_allowance (records : List Record) (perRef : List (Str × Nat))
    (seen : Dict Str Nat) (deferred : List Deferred)
    : (checkCounts records 0 seen deferred perRef).1 = deferred := by
  induction perRef with
  | nil => rfl
  | cons p perRef ih =>
    rcases p with ⟨ref, n⟩
    rw [checkCounts]
    rw [if_neg (by simp)]
    split
    . rfl
    . split
      . rfl
      . exact ih

/--
Without an allowance nothing is deferred.
-/
theorem reconcile_no_allowance (records : List Record) (rows : List Row)
    : (reconcile records 0 rows).1 = [] := by
  have hrows := checkRows_no_allowance records rows Dict.empty []
  rw [reconcile]
  split
  . next deferred e heq =>
    rw [heq] at hrows
    exact hrows
  . next deferred seen heq =>
    rw [heq] at hrows
    rw [checkCounts_no_allowance]
    exact hrows

/--
What a VALID verdict rests on.
-/
theorem valid_verifyLedger {env : Env} {req : Request} (h : (verifyLedger env req).Valid)
    : ∃ entries inputs rows, readLedger env req.decisionsText req.recordKey = .ok entries ∧
        earlierStages env req entries = .ok (inputs, rows) ∧
        reconcile (entries.map Entry.record) req.clockSkewMs rows
          =
        ((verifyLedger env req).boundaryDeferred, .ok ()) ∧
        laterStages env req entries inputs rows = .ok () := by
  rw [Verdict.Valid] at h
  unfold verifyLedger at h ⊢
  cases hledger : readLedger env req.decisionsText req.recordKey with
  | error e => simp [hledger] at h
  | ok entries =>
    simp only [hledger] at h ⊢
    cases hearlier : earlierStages env req entries with
    | error e => simp [hearlier] at h
    | ok p =>
      rcases p with ⟨inputs, rows⟩
      simp only [hearlier] at h ⊢
      rcases hreconcile : reconcile (entries.map Entry.record) req.clockSkewMs rows with
        ⟨deferred, r⟩
      simp only [hreconcile] at h ⊢
      cases r with
      | error e => simp at h
      | ok =>
        simp only at h ⊢
        cases hlater : laterStages env req entries inputs rows with
        | error e => simp [hlater] at h
        | ok => exact ⟨entries, inputs, rows, rfl, hearlier, hreconcile, hlater⟩

/--
Where the credentials and the inputs are given, a VALID ledger has no approver that did not sign.
-/
theorem approved_of_valid {env : Env} {req : Request} (h : (verifyLedger env req).Valid)
    {credentials : Json} (hcredentials : req.operatorCredentials = some credentials)
    (hinputs : req.inputsText.isSome = true)
    : ∃ entries inputs creds, readLedger env req.decisionsText req.recordKey = .ok entries ∧
        inputsStage env req.inputsText entries = .ok inputs ∧
        readCredentials credentials = .ok creds ∧
        ∀ e ∈ entries, inputMember inputs e.record (txt "approver") ≠ .null →
          Approved env creds entries (inputMember inputs e.record (txt "approver")) := by
  rcases valid_verifyLedger h with ⟨entries, inputs, rows, hledger, hearlier, _, hlater⟩
  rcases Option.isSome_iff_exists.mp hinputs with ⟨text, htext⟩
  rw [earlierStages, Except.bind_eq_ok] at hearlier
  rcases hearlier with ⟨inputs', hstage, hearlier⟩
  rcases Except.bind_eq_ok.mp hearlier with ⟨rows', _, hpair⟩
  have hpair' : (inputs', rows') = (inputs, rows) := Except.pure_eq_ok.mp hpair
  rw [(Prod.mk.inj hpair').1] at hstage
  rw [laterStages, hcredentials, htext] at hlater
  rcases Except.bind_eq_ok.mp hlater with ⟨_, _, hlater⟩
  rcases Except.bind_eq_ok.mp hlater with ⟨_, happroval, _⟩
  rcases Except.bind_eq_ok.mp happroval with ⟨creds, hcreds, happroval⟩
  exact ⟨entries, inputs, creds, hledger, hstage, hcreds, approved_of_checkApprovals happroval⟩

/--
With nothing deferred, VALID is a one-to-one matching exactly if allows that share a reference agree.
-/
theorem oneToOne_iff_of_not_deferred {env : Env} {req : Request}
    (hvalid : (verifyLedger env req).Valid)
    (hdeferred : (verifyLedger env req).boundaryDeferred = [])
    : ∃ entries rows, readLedger env req.decisionsText req.recordKey = .ok entries ∧
        readRows env req.effectsText req.extractKey = .ok rows ∧
        (MatchedOneToOne (entries.map Entry.record) rows ↔
          SharedRefsAgree (entries.map Entry.record)) := by
  rcases valid_verifyLedger hvalid with ⟨entries, inputs, rows, hledger, hearlier, hreconcile, _⟩
  rw [hdeferred] at hreconcile
  refine ⟨entries, rows, hledger, ?_, matchedOneToOne_iff hreconcile⟩
  rw [earlierStages, Except.bind_eq_ok] at hearlier
  rcases hearlier with ⟨inputs', _, hearlier⟩
  rw [Except.bind_eq_ok] at hearlier
  rcases hearlier with ⟨rows', hrows, hpair⟩
  have hpair' : (inputs', rows') = (inputs, rows) := Except.pure_eq_ok.mp hpair
  rw [hrows, (Prod.mk.inj hpair').2]

theorem not_deferred_of_no_allowance {env : Env} {req : Request} (hskew : req.clockSkewMs = 0)
    (hvalid : (verifyLedger env req).Valid) : (verifyLedger env req).boundaryDeferred = [] := by
  rcases valid_verifyLedger hvalid with ⟨entries, _, rows, _, _, hreconcile, _⟩
  have hnone := reconcile_no_allowance (entries.map Entry.record) rows
  rw [hskew] at hreconcile
  rw [hreconcile] at hnone
  exact hnone

theorem verifyLedger_oneToOne_iff (env : Env) (req : Request) (hskew : req.clockSkewMs = 0)
    (hvalid : (verifyLedger env req).Valid)
    : ∃ entries rows, readLedger env req.decisionsText req.recordKey = .ok entries ∧
        readRows env req.effectsText req.extractKey = .ok rows ∧
        (MatchedOneToOne (entries.map Entry.record) rows ↔
          SharedRefsAgree (entries.map Entry.record)) :=
  oneToOne_iff_of_not_deferred hvalid (not_deferred_of_no_allowance hskew hvalid)

/-!
A ledger with two allows under one reference, for different effects, and two rows for the second one.
-/

def exampleDer : Bytes :=
  [0x30, 0x2a, 0x30, 0x05, 0x06, 0x03, 0x2b, 0x65, 0x70, 0x03, 0x21, 0x00] ++ examplePublicKey
where
  examplePublicKey := ((Python.fromHex? (txt
    "8a88e3dd7409f195fd52db2d3cba5d72ca6709bf1d94121bf3748801b40f6f5c")).getD [])

def examplePem : Bytes :=
  (txt "-----BEGIN PUBLIC KEY-----\n" ++ Base64.encode exampleDer ++
    txt "\n-----END PUBLIC KEY-----\n").flatMap Utf8.encodePoint

def exampleHash (digit : Nat) : Str := List.replicate 64 (CodePoint.ofNat digit)

/--
The claims of an allow under the reference `r`.
-/
def exampleClaims (effectHash : Str) (prevRecordHash : Option Str) (timestampMs : Nat)
    : List (Str × Option (Int ⊕ Str)) := [
  (txt "decider", some (.inr (txt "d"))), (txt "subject", some (.inr (txt "s"))),
  (txt "requestHash", some (.inr (exampleHash 0x30))),
  (txt "policyHash", some (.inr (exampleHash 0x30))), (txt "inputsHash", none),
  (txt "decision", some (.inr (txt "allow"))), (txt "reasonCode", some (.inr (txt "ok"))),
  (txt "ref", some (.inr (txt "r"))), (txt "effectHash", some (.inr effectHash)),
  (txt "timestampMs", some (.inl timestampMs)), (txt "nonce", some (.inr (txt "n"))),
  (txt "prevRecordHash", prevRecordHash.map .inr), (txt "effectClass", some (.inr (txt "pay")))]

def exampleCbor : Option (Int ⊕ Str) → Cbor
  | none => .null
  | some (.inl i) => .int i
  | some (.inr s) => .text s

def exampleJson : Option (Int ⊕ Str) → Json
  | none => .null
  | some (.inl i) => .int i
  | some (.inr s) => .str s

def exampleEncode (v : Cbor) : Bytes := ((Cbor.encode v).toOption).getD []

def exampleHeader : Bytes := exampleEncode <| .map [
  (.int 1, .int algEd25519), (.int 3, .text ctRecord),
  (.int 4, .bytes ((sha256 exampleDer).take 8))]

def examplePayload (claims : List (Str × Option (Int ⊕ Str))) : Bytes :=
  exampleEncode <| .map <| (recordLabels.zip claims).map fun (l, c) => (.int l.1, exampleCbor c.2)

def exampleLine (claims : List (Str × Option (Int ⊕ Str))) (sig : Bytes) : Json := .obj [
  (txt "coseHex", .str (Hex.ofBytes (exampleEncode (.arr [
    .bytes exampleHeader, .map [], .bytes (examplePayload claims), .bytes sig])))),
  (txt "claims", .obj (claims.map fun c => (c.1, exampleJson c.2)))]

def exampleSignature (hex : String) : Bytes := (Python.fromHex? (txt hex)).getD []

def exampleFirst : List (Str × Option (Int ⊕ Str)) := exampleClaims (exampleHash 0x61) none 1

def exampleFirstSignature : Bytes := exampleSignature
  "fc9da776d98441751d4900ffe21bc8104a6423192eca4dc47f4943e17d43c5b803acb31c1fcbbe044f1ef9146567046f4cfd7db6d2b88bdd2d00764e87bb920e"

def exampleSecond : List (Str × Option (Int ⊕ Str)) := exampleClaims (exampleHash 0x62)
  (some (txt "01193c19592df5a85d0b137b7b6348ca9ece3a29a44effb4235cab23ce3c66ea")) 2

def exampleSecondSignature : Bytes := exampleSignature
  "a18e7b14a381468d782da29c07cea04f5637cab6b0c053462a56ea6dacf350e44e8dac4137cc576bc4a9756a5093c6df92772ce004fc990471bfba1eb104360f"

def exampleRow (timestampMs : Nat) : Json := .obj [
  (txt "effectClass", .str (txt "pay")), (txt "effectHash", .str (exampleHash 0x62)),
  (txt "ref", .str (txt "r")), (txt "timestampMs", .int timestampMs)]

def exampleBody : Json := .obj [
  (txt "channelId", .str (txt "c")), (txt "deciderId", .str (txt "d")),
  (txt "effects", .arr [exampleRow 3, exampleRow 4]), (txt "windowEndMs", .int 9),
  (txt "windowStartMs", .int 0)]

def exampleExtractSignature : Bytes := exampleSignature
  "c97937d05390b9a086956bc5834cd4986e8adca3efbb0977ab7ecfcbffe01e661826e70a7adf574b6c0e721f2239b948f7df9f9db6b485552fbf225beda13b07"

/--
The library on the three signatures that are there.
-/
def exampleEnv : Env where
  interp := ⟨1000, 1000, some 4300⟩
  padding := .exact
  sha256 := sha256
  spkiDer pem := if pem = examplePem then some exampleDer else none
  loadDer der :=
    if der = exampleDer then
      some ⟨true, some fun sig msg =>
        (sig = exampleFirstSignature ∧
            msg = exampleEncode (sigStructure exampleHeader (examplePayload exampleFirst))) ∨
          (sig = exampleSecondSignature ∧
            msg = exampleEncode (sigStructure exampleHeader (examplePayload exampleSecond))) ∨
          (sig = exampleExtractSignature ∧
            msg = (Json.dumps true exampleBody).flatMap Utf8.encodePoint)⟩
    else
      none
  ed25519 _ _ _ := false
  es256 _ _ _ _ := false

def exampleRequest : Request where
  decisionsText := Json.dumps true (exampleLine exampleFirst exampleFirstSignature) ++ txt "\n" ++
    Json.dumps true (exampleLine exampleSecond exampleSecondSignature)
  effectsText := Json.dumps true <| .obj [(txt "receipt", .obj [(txt "body", exampleBody),
    (txt "signature", .str (Base64.encode exampleExtractSignature))])]
  checkpointsText := []
  recordKey := examplePem
  extractKey := examplePem
  checkpointKey := examplePem
  inputsText := none
  indexText := none
  operatorCredentials := none
  clockSkewMs := 0
  clockSkewMs_le := by decide

/--
Reading the ledger of the example gives its two allows.
-/
theorem exampleRequest_facts
    : (verifyLedger exampleEnv exampleRequest).Valid ∧
        (readLedger exampleEnv exampleRequest.decisionsText exampleRequest.recordKey).toOption.map
            (fun entries =>
              (entries.map Entry.record).map fun c => (c.decision, c.ref, c.effectHash))
          =
        some [(.allow, some (txt "r"), some (exampleHash 0x61)),
          (.allow, some (txt "r"), some (exampleHash 0x62))] := by
  simp only [exampleEnv, exampleRequest, exampleLine, exampleFirst, exampleSecond, exampleClaims,
    exampleHeader, examplePem, exampleDer, exampleDer.examplePublicKey, exampleSignature,
    exampleFirstSignature, exampleSecondSignature, exampleExtractSignature, exampleBody, exampleRow,
    sha256_eq_fast, txt_ofList]
  decide +kernel

theorem verifyLedger_oneToOne_iff_exampleRequest
    : ∃ entries rows,
        readLedger exampleEnv exampleRequest.decisionsText exampleRequest.recordKey = .ok entries ∧
        readRows exampleEnv exampleRequest.effectsText exampleRequest.extractKey = .ok rows ∧
        (MatchedOneToOne (entries.map Entry.record) rows ↔
          SharedRefsAgree (entries.map Entry.record)) :=
  verifyLedger_oneToOne_iff exampleEnv exampleRequest rfl exampleRequest_facts.1

/--
Two allows under one reference for different effects do not agree.
-/
theorem not_sharedRefsAgree {records : List Record} {ref a b : Str} (hab : a ≠ b)
    (h : records.map (fun c => (c.decision, c.ref, c.effectHash))
      = [(.allow, some ref, some a), (.allow, some ref, some b)])
    : ¬SharedRefsAgree records := by
  intro hagree
  rcases List.map_eq_cons_iff.mp h with ⟨c, rest, rfl, hc, htail⟩
  rcases List.map_eq_cons_iff.mp htail with ⟨d, rest, rfl, hd, _⟩
  simp only [Prod.mk.injEq] at hc hd
  rcases hc with ⟨hcallow, hcref, hchash⟩
  rcases hd with ⟨hdallow, hdref, hdhash⟩
  have hmem : c ∈ allowsOf (c :: d :: rest) ∧ d ∈ allowsOf (c :: d :: rest) := by
    simp [allowsOf, isAllow, hcallow, hdallow]
  have heq := (hagree c hmem.1 d hmem.2 (hcref.trans hdref.symm)).1
  rw [hchash, hdhash] at heq
  exact hab (Option.some.inj heq)

theorem valid_without_matching
    : exampleRequest.clockSkewMs = 0 ∧ (verifyLedger exampleEnv exampleRequest).Valid ∧
        ∃ entries rows,
          readLedger exampleEnv exampleRequest.decisionsText exampleRequest.recordKey = .ok entries ∧
          readRows exampleEnv exampleRequest.effectsText exampleRequest.extractKey = .ok rows ∧
          ¬MatchedOneToOne (entries.map Entry.record) rows := by
  rcases exampleRequest_facts with ⟨hvalid, hread⟩
  have hdeferred : (verifyLedger exampleEnv exampleRequest).boundaryDeferred = [] :=
    not_deferred_of_no_allowance rfl hvalid
  rcases oneToOne_iff_of_not_deferred hvalid hdeferred with ⟨entries, rows, hledger, hrows, hiff⟩
  refine ⟨rfl, hvalid, entries, rows, hledger, hrows, ?_⟩
  rw [hledger] at hread
  rw [hiff]
  exact not_sharedRefsAgree (by decide) (Option.some.inj hread)

end Cedulon
end CryptoValid
