import CryptoValid.EvidencePack.Verify
import CryptoValid.Verifier.Tamper

/-!
This module contains which signatures a valid pack vouches for: the signatures of a ledger are looked
at if and only if its first line shows one.
-/

namespace CryptoValid
namespace EvidencePack

section

variable (host : Host) (dir : PackDir)

/--
A ledger of the pack: a file that the manifest names, with its content and its record.
-/
structure Ledger (file : Str) (lm : Entry) (content : Bytes) : Prop where
  named : ∃ man leds, loadManifest host dir = .ok (.obj man) ∧ ledgersOf man = some leds ∧
    (file, lm) ∈ leds
  content : dir.file file = .ok (some content)

/--
An entry of the ledger carries a signature field.
-/
def CarriesSignature (content : Bytes) : Prop :=
  ∃ e ∈ Verifier.entriesOf content, Entry.has e (txt "signature") = true

/--
The signer's verification of the ledger is ok.
-/
def SignaturesOk (content : Bytes) : Prop :=
  ∃ r, Signer.verifyFile host.interp host.crypto host.early content none none false = .ok r ∧
    r.ok = true

/--
Whatever ledger of the pack carries a signature, its signatures are ok.
-/
def Covered : Prop :=
  ∀ file lm content, Ledger host dir file lm content → CarriesSignature content →
    SignaturesOk host content

/--
The first line of the file is an entry with a signature that is not empty.
-/
def ShowsSignature (content : Bytes) : Prop :=
  ∃ e, firstEntry host content = .obj e ∧ Python.truthy (Entry.get e (txt "signature")) = true

/--
The first line of the file is blank, and all others are blank or an entry with good signatures.
-/
def SealedBelowBlank (content : Bytes) : Prop :=
  host.crypto.available = true ∧ ∃ text blank lines, Python.readText? content = some text ∧
    Lines.split 0x0a text = blank :: lines ∧ Python.isBlankLine blank = true ∧
    (∃ line ∈ lines, Python.isBlankLine line = false) ∧
    ∀ line ∈ lines, Python.isBlankLine line = false →
      Signer.Sealed host.interp host.crypto none none false (Signer.loadLine host.interp line)

/-!
### The verdict
-/

/--
What a pack is valid for: its ledgers are files that pass, with a good row each.
-/
theorem ledgerRow_of_valid {pins : Pins} {r : Receipt} (h : verifyPack host dir pins = .ok r)
    (hvalid : r.valid = true) {file : Str} {lm : Entry} {content : Bytes}
    (hledger : Ledger host dir file lm content)
    : ∃ manifestPinned row, ledgerRow host dir pins manifestPinned file lm = .ok row ∧
        row.ok = true := by
  rcases hledger.named with ⟨man, leds, hman, hleds, hmem⟩
  have hfail : ∀ error, Except.ok (Receipt.fail error) = (.ok r : Except Raised _) → False := by
    intro error heq
    rw [← Except.ok.inj heq] at hvalid
    simp [Receipt.fail] at hvalid
  rw [verifyPack] at h
  split at h
  . simp at h
  simp only [hman, verifyManifest, hleds] at h
  rcases Except.bind_eq_ok.mp h with ⟨unknown, _, h⟩
  split at h
  . exact (hfail _ h).elim
  split at h
  . exact (hfail _ h).elim
  . next heq => simp at heq
  . next digs leds' _ heq =>
    simp only [Option.some.injEq] at heq
    subst heq
    simp only [packReceipt, Except.bind_eq_ok, Except.pure_eq_ok] at h
    rcases h with ⟨fileOk, _, canonical, _, rows, hrows, stamp, _, rfl⟩
    simp only [Bool.and_eq_true, List.all_eq_true] at hvalid
    rw [Except.mapM_eq_ok] at hrows
    rcases List.forall₂_iff_get.mp hrows with ⟨hlength, hget⟩
    rcases List.mem_iff_get.mp hmem with ⟨i, hi⟩
    have hrow := hget i.val i.isLt (hlength ▸ i.isLt)
    simp only [List.get_eq_getElem] at hi hrow
    rw [hi] at hrow
    exact ⟨_, _, hrow, hvalid.1.2 _ (List.getElem_mem _)⟩

/--
A row that is fine comes from signatures that are ok, if the first line shows one.
-/
theorem signaturesOk_of_row {pins : Pins} {manifestPinned : Bool} {file : Str} {lm : Entry}
    {content : Bytes} {row : Row} (hfile : dir.file file = .ok (some content))
    (h : ledgerRow host dir pins manifestPinned file lm = .ok row) (hok : row.ok = true)
    (hshows : ShowsSignature host content) : SignaturesOk host content := by
  rcases hshows with ⟨e, hfirst, htruthy⟩
  simp only [ledgerRow, hfile, Except.ok_bind, Except.bind_eq_ok, firstSignature, hfirst, htruthy,
    ↓reduceIte, Except.pure_eq_ok] at h
  rcases h with ⟨outcome, _, ⟨sigPass, pqProtected, pqReason⟩, hsignatures, rfl⟩
  simp only [Row.ok, Bool.and_eq_true] at hok
  simp only [signatures, Except.bind_eq_ok] at hsignatures
  rcases hsignatures with ⟨sv, hsv, hresult⟩
  rw [Except.mapError_eq_ok] at hsv
  have hsvok : sv.ok = true := by
    have hpass := hok.1.2
    split at hresult
    . split at hresult
      . split at hresult
        . simp only [Except.pure_eq_ok, Prod.mk.injEq] at hresult
          rw [hresult.1, hpass]
        . simp only [Except.pure_eq_ok, Prod.mk.injEq] at hresult
          rw [hresult.1, hpass]
      . simp only [Except.pure_eq_ok, Prod.mk.injEq] at hresult
        rw [← hresult.1] at hpass
        simp at hpass
    . simp only [Except.pure_eq_ok, Prod.mk.injEq] at hresult
      rw [hresult.1, hpass]
  exact Signer.verifyFile_of_pinned host.interp host.crypto hsv hsvok

/-!
### Layouts of the first line
-/

/--
Signatures that are ok start on the first line that is not blank.
-/
theorem signaturesOk_iff (content : Bytes)
    : SignaturesOk host content ↔ host.crypto.available = true ∧
        ∃ text, Python.readText? content = some text ∧
          (∃ line ∈ Lines.split 0x0a text, Python.isBlankLine line = false) ∧
          ∀ line ∈ Lines.split 0x0a text, Python.isBlankLine line = false →
            Signer.Sealed host.interp host.crypto none none false
              (Signer.loadLine host.interp line) := by
  have hlines : ∀ lines : List Str,
      ((lines.filter fun line => !Python.isBlankLine line).map
        (Signer.loadLine host.interp) ≠ [] ↔
        ∃ line ∈ lines, Python.isBlankLine line = false) ∧
      ((∀ line ∈ (lines.filter fun line => !Python.isBlankLine line).map
          (Signer.loadLine host.interp),
          Signer.Sealed host.interp host.crypto none none false line) ↔
        ∀ line ∈ lines, Python.isBlankLine line = false →
          Signer.Sealed host.interp host.crypto none none false
            (Signer.loadLine host.interp line)) := by
    intro lines
    refine ⟨by simp, ?_⟩
    simp only [List.forall_mem_map, List.mem_filter, Bool.not_eq_true', and_imp]
  cases htext : Python.readText? content with
  | none => simp [SignaturesOk, Signer.verifyFile, Python.textLines, htext]
  | some text =>
    simp only [SignaturesOk, Signer.verifyFile, Python.textLines, htext, Option.some.injEq,
      exists_eq_left']
    constructor
    . rintro ⟨r, hr, hok⟩
      rcases (Signer.verifyLedgerSignatures_ok_iff _ _ hr).mp hok with ⟨hne, hsealed⟩
      exact ⟨Signer.available_of_ok _ _ hr, (hlines _).1.mp hne, (hlines _).2.mp hsealed⟩
    . rintro ⟨havailable, hne, hsealed⟩
      exact Signer.verifyLedgerSignatures_of_sealed _ _ havailable ((hlines _).1.mpr hne)
        ((hlines _).2.mpr hsealed)

theorem signaturesOk_of_sealedBelowBlank {content : Bytes} (h : SealedBelowBlank host content)
    : SignaturesOk host content := by
  rcases h with ⟨havailable, text, blank, lines, htext, hsplit, hblank, hne, hsealed⟩
  refine (signaturesOk_iff host content).mpr ⟨havailable, text, htext, ?_, ?_⟩
  . rcases hne with ⟨line, hline, hline'⟩
    exact ⟨line, hsplit ▸ List.mem_cons_of_mem _ hline, hline'⟩
  . intro line hline hnot
    rw [hsplit, List.mem_cons] at hline
    rcases hline with rfl | hline
    . simp [hblank] at hnot
    . exact hsealed line hline hnot

/--
When all signatures are ok, the first line shows one or is blank.
-/
theorem showsSignature_or_of_signaturesOk {content : Bytes} (h : SignaturesOk host content)
    : ShowsSignature host content ∨ SealedBelowBlank host content := by
  rcases (signaturesOk_iff host content).mp h with ⟨havailable, text, htext, hne, hsealed⟩
  cases hsplit : Lines.split 0x0a text with
  | nil => simp [hsplit] at hne
  | cons first lines =>
    rw [hsplit] at hne hsealed
    cases hblank : Python.isBlankLine first with
    | true =>
      refine .inr ⟨havailable, text, first, lines, htext, hsplit, hblank, ?_, ?_⟩
      . rcases hne with ⟨line, hline, hnot⟩
        rcases List.mem_cons.mp hline with rfl | hline
        . simp [hblank] at hnot
        . exact ⟨line, hline, hnot⟩
      . exact fun line hline => hsealed line (List.mem_cons_of_mem _ hline)
    | false =>
      refine .inl ?_
      rcases hsealed first List.mem_cons_self hblank with ⟨signer, pq, hseals, _⟩
      cases hload : Python.loads host.interp first with
      | error _ => simp [Signer.loadLine, hload, Signer.lineSeals] at hseals
      | ok v =>
        simp only [Signer.loadLine, hload] at hseals
        rcases Signer.entry_of_verified _ _ hseals with ⟨e, rfl, htruthy⟩
        refine ⟨e, ?_, htruthy⟩
        simp [firstEntry, Python.textLines, htext, hsplit, hload]

end

/--
Of a valid pack exactly those ledgers with signatures have been verified that show one on the first
line; the others are covered if they happen to be signed well below a first line that is blank.
-/
theorem verifyPack_covered_iff (host : Host) (dir : PackDir) (pins : Pins) (r : Receipt)
    (h : verifyPack host dir pins = .ok r) (hvalid : r.valid = true)
    : Covered host dir ↔ ∀ file lm content, Ledger host dir file lm content →
        CarriesSignature content →
          ShowsSignature host content ∨ SealedBelowBlank host content := by
  constructor
  . intro hcovered file lm content hledger hcarries
    exact showsSignature_or_of_signaturesOk host (hcovered file lm content hledger hcarries)
  . intro hshows file lm content hledger hcarries
    rcases hshows file lm content hledger hcarries with hshows | hsealed
    . rcases ledgerRow_of_valid host dir h hvalid hledger with ⟨manifestPinned, row, hrow, hok⟩
      exact signaturesOk_of_row host dir hledger.content hrow hok hshows
    . exact signaturesOk_of_sealedBelowBlank host hsealed

/-!
A pack with one ledger: below a blank line, an entry with a signature that is none.
-/

def exampleName : Str := txt "a.jsonl"

def exampleHead : Str := txt "bb4b21a73e6e21b3ac6da266ae6c11c2665805538c1f1c547d12ba2ae004f97c"

def exampleForgedEntry : Json := .obj [
  (txt "idx", .int 0), (txt "ts", .str (txt "2026-01-01T00:00:00Z")), (txt "data", .obj []),
  (txt "prev_hash", .str genesisPrev), (txt "self_hash", .str exampleHead),
  (txt "signature", .str (txt "forged")), (txt "signer", .str (txt "nobody"))]

def membersOf : Json → Entry
  | .obj e => e
  | _ => []

example : Entry.has (membersOf exampleForgedEntry) (txt "signature") = true := by decide +kernel

def exampleForgedLedger : Bytes :=
  (txt "\n" ++ exampleForgedEntry.dumps true ++ txt "\n").flatMap Utf8.encodePoint

def exampleRecord : Entry := [
  (txt "file", .str exampleName), (txt "entries", .int 1), (txt "head_self_hash", .str exampleHead)]

def exampleManifest : Entry := [
  (txt "file_digests_sha256", .obj [(exampleName,
    .str (txt "9e91ed5782f24c978a8fb219b181cf14c153be2f1c07bf14335222757c7227e0"))]),
  (txt "ledgers", .arr [.obj exampleRecord]),
  (txt "manifest_digest_sha256",
    .str (txt "32bf3a6fdd625a3f3d5cee851b09be103b24aec435e60346a247d33629b68756"))]

def exampleHost : Host where
  interp := ⟨1000, 1000, some 4300⟩
  crypto := Verifier.exampleCrypto
  early _ := []
  rfc3161 _ _ := .error .checkNotRun

def exampleForgedPack : PackDir where
  manifest := .ok ((Json.dumps true (.obj exampleManifest)).flatMap Utf8.encodePoint)
  file name := .ok (if name = exampleName then some exampleForgedLedger else none)
  sidecar _ := none

def exampleForgedReceipt : Receipt where
  filesOk := true
  fileOk := [(exampleName, true)]
  manifestOk := true
  manifestAuthenticated := false
  ledgersOk := true
  ledgers := [{ file := exampleName, hashPass := true, sigPass := true, untruncated := true,
                pqProtected := some false, pqReason := [] }]
  rfc3161 := [(txt "claimed", .bool false), (txt "verified", .null)]
  valid := true
  error := none

theorem verifyPack_exampleForgedPack
    : verifyPack exampleHost exampleForgedPack {} = .ok exampleForgedReceipt := by
  simp only [exampleForgedPack, exampleManifest, exampleRecord, exampleForgedLedger,
    exampleForgedEntry, exampleHead, exampleName, txt_ofList]
  decide +kernel

theorem verifyPack_covered_iff_forged
    : Covered exampleHost exampleForgedPack ↔ ∀ file lm content,
        Ledger exampleHost exampleForgedPack file lm content → CarriesSignature content →
          ShowsSignature exampleHost content ∨ SealedBelowBlank exampleHost content :=
  verifyPack_covered_iff exampleHost exampleForgedPack {} exampleForgedReceipt
    verifyPack_exampleForgedPack rfl

/--
The pack is valid, and the signature in it does not verify.
-/
theorem valid_pack_not_covered
    : verifyPack exampleHost exampleForgedPack {} = .ok exampleForgedReceipt ∧
        exampleForgedReceipt.valid = true ∧ ¬Covered exampleHost exampleForgedPack := by
  refine ⟨verifyPack_exampleForgedPack, rfl, ?_⟩
  intro hcovered
  have hledger : Ledger exampleHost exampleForgedPack exampleName exampleRecord
      exampleForgedLedger := {
    named := ⟨exampleManifest, [(exampleName, exampleRecord)], by decide +kernel, by decide +kernel,
      List.mem_singleton.mpr rfl⟩
    content := by simp [exampleForgedPack] }
  have hentries : Verifier.entriesOf exampleForgedLedger =
      [match exampleForgedEntry with | .obj e => e | _ => []] := by decide +kernel
  have hcarries : CarriesSignature exampleForgedLedger := by
    rw [CarriesSignature, hentries]
    exact ⟨_, List.mem_singleton.mpr rfl, by decide⟩
  rcases hcovered exampleName exampleRecord exampleForgedLedger hledger hcarries with ⟨r, hr, hok⟩
  have hfails : ((Signer.verifyFile exampleHost.interp exampleHost.crypto exampleHost.early
      exampleForgedLedger none none false).toOption.map Signer.Receipt.ok) = some false := by
    decide +kernel
  rw [hr] at hfails
  simp [Except.toOption, hok] at hfails

end EvidencePack
end CryptoValid
