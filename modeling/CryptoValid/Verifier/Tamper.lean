import CryptoValid.Verifier.Ledger

/-!
This module contains what a passing ledger file is worth: it is a hash chain, so that its number of
entries and its last digest fix everything that is hashed.
-/

namespace CryptoValid
namespace Verifier

section

variable {α β : Type} {check : β → Nat → Entry → Option α} {next : Entry → β}

theorem scan_cons_eq_nil {before : β} {i : Nat} {e : Entry} {rest : List Entry}
    : scan check next before i (e :: rest) = []
        ↔ check before i e = none ∧ scan check next (next e) (i + 1) rest = [] := by
  rw [scan, List.append_eq_nil_iff]
  cases check before i e <;> simp

end

/--
The text in `prev_hash`, if it is one.
-/
def prevHash (e : Entry) : Option Str := Tip.str? (e.get (txt "prev_hash"))

def selfHash (e : Entry) : Option Str := Tip.str? (e.get (txt "self_hash"))

theorem str?_eq_some {v : Json} {s : Str} : Tip.str? v = some s ↔ v = .str s := by
  cases v <;> simp [Tip.str?]

/--
The entries of a file that passes.
-/
structure Chain (algo : Algo) (entries : List Entry) : Prop where
  inProfile : ∀ e ∈ entries, Json.All InProfile (.obj e)
  selfHash_eq : ∀ e ∈ entries, ∃ h, selfHash e = some h ∧
    CryptoValid.hashWith algo (canonicalPayload e) = some h
  linked : HashChain.Linked prevHash (fun e => CryptoValid.hashWith algo (canonicalPayload e))
    (some genesisPrev) entries

theorem hashWith_eq_ok {algo : Algo} {payload : Bytes} {h : Str}
    (heq : hashWith algo payload = .ok h) : CryptoValid.hashWith algo payload = some h := by
  unfold hashWith at heq
  split at heq
  . next hsome => rw [hsome, Except.ok.inj heq]
  . split at heq <;> simp at heq

theorem selfHash_of_hashFailures {algo : Algo} {i : Nat} {entries : List Entry}
    (h : hashFailures algo i entries = .ok [])
    : ∀ e ∈ entries, ∃ h, selfHash e = some h ∧
        CryptoValid.hashWith algo (canonicalPayload e) = some h := by
  induction entries generalizing i with
  | nil => simp
  | cons e rest ih =>
    rcases Except.bind_eq_ok.mp h with ⟨failure, hfailure, h⟩
    rcases Except.bind_eq_ok.mp h with ⟨failures, hfailures, h⟩
    have hnil := List.append_eq_nil_iff.mp (Except.pure_eq_ok.mp h)
    rw [List.forall_mem_cons]
    refine ⟨?_, ih (hnil.2 ▸ hfailures)⟩
    simp only [hashFailure] at hfailure
    split at hfailure
    . rw [← Except.ok.inj hfailure] at hnil
      simp at hnil
    . rcases Except.bind_eq_ok.mp hfailure with ⟨computed, hcomputed, hfailure⟩
      have heq := Except.pure_eq_ok.mp hfailure
      split at heq
      . next hself => exact ⟨computed, str?_eq_some.mpr hself, hashWith_eq_ok hcomputed⟩
      . rw [← heq] at hnil
        simp at hnil

theorem linked_of_linkFailures {algo : Algo} {entries : List Entry} {before : Str} {i : Nat}
    (hself : ∀ e ∈ entries, ∃ h, selfHash e = some h ∧
      CryptoValid.hashWith algo (canonicalPayload e) = some h)
    (h : scan linkFailure (fun e => e.get (txt "self_hash")) (.str before) i entries = [])
    : HashChain.Linked prevHash (fun e => CryptoValid.hashWith algo (canonicalPayload e))
        (some before) entries := by
  induction entries generalizing before i with
  | nil => trivial
  | cons e rest ih =>
    rw [scan_cons_eq_nil] at h
    rcases hself e List.mem_cons_self with ⟨digest, hdigest, hhash⟩
    refine ⟨?_, ?_⟩
    . have hlink := h.1
      simp only [linkFailure] at hlink
      split at hlink
      . next heq => exact str?_eq_some.mpr ((Python.eq_str_iff _ _).mp heq)
      . simp at hlink
    . change HashChain.Linked _ _ (CryptoValid.hashWith algo (canonicalPayload e)) rest
      rw [hhash]
      refine ih (fun e he => hself e (List.mem_cons_of_mem _ he)) (i := i + 1) ?_
      rw [← str?_eq_some.mp hdigest]
      exact h.2

theorem inProfile_of_entriesOf (content : Bytes)
    : ∀ e ∈ entriesOf content, Json.All InProfile (.obj e) := by
  have hgo : ∀ (lines : List Str) (i : Nat), ∀ e ∈ (parseLines.go i lines).1,
      Json.All InProfile (.obj e) := by
    intro lines
    induction lines with
    | nil =>
      intro i e he
      simp [parseLines.go] at he
    | cons line rest ih =>
      intro i e he
      rw [parseLines.go] at he
      simp only at he
      split at he
      . next ms hload =>
        rcases List.mem_cons.mp he with rfl | he
        . exact inProfile_of_loadsStrict hload
        . exact ih _ e he
      . exact ih _ e he
      . exact ih _ e he
  exact hgo _ 0

/--
What a receipt with a passing verdict says.
-/
structure Passed (crypto : Tip.Crypto) (content : Bytes) (o : Options) (r : Receipt) : Prop where
  chain : Chain r.algorithmUsed (entriesOf content)
  nonempty : entriesOf content ≠ []
  entriesCount_eq : r.entriesCount = (entriesOf content).length
  parses : (parseLines (rawLines content)).2 = []
  tip : (tipReport crypto (entriesOf content) o).2 = none

theorem passed_of_verifyLedger {crypto : Tip.Crypto} {content : Bytes} {o : Options} {r : Receipt}
    (h : verifyLedger crypto (.content content) o = .ok (.receipt r))
    (hpass : (Outcome.receipt r).verdict = .pass) : Passed crypto content o r := by
  simp only [verifyLedger] at h
  split at h
  . simp at h
  . rcases Except.bind_eq_ok.mp h with ⟨r', hr, h⟩
    rw [Outcome.receipt.inj (Except.pure_eq_ok.mp h)] at hr
    rcases Except.bind_eq_ok.mp hr with ⟨hashFailed, hhash, hr⟩
    have hr := Except.pure_eq_ok.mp hr
    have hintegrity : r.chainIntegrity = true := by
      simp only [Outcome.verdict] at hpass
      split at hpass
      . next hok => exact hok
      . simp at hpass
    rw [← hr] at hintegrity
    simp only [Bool.and_eq_true, List.isEmpty_iff, Bool.not_eq_eq_eq_not, Bool.not_true,
      Option.isNone_iff_eq_none] at hintegrity
    rcases hintegrity with
      ⟨⟨⟨⟨⟨⟨⟨hhashes, hlinks⟩, _⟩, hparses⟩, _⟩, hnonempty⟩, _⟩, htip⟩
    rw [hhashes] at hhash
    have hself := selfHash_of_hashFailures hhash
    rw [← hr]
    exact {
      chain := {
        inProfile := inProfile_of_entriesOf content
        selfHash_eq := hself
        linked := linked_of_linkFailures hself hlinks }
      nonempty := by
        intro hnil
        rw [entriesOf] at hnil
        simp [hnil] at hnonempty
      entriesCount_eq := rfl
      parses := hparses
      tip := htip }

/--
Same number of entries and same last digest.
-/
theorem Chain.payloads_eq_or {algo algo' : Algo} {xs ys : List Entry} (hxs : Chain algo xs)
    (hys : Chain algo' ys) (hlen : xs.length = ys.length) (hne : xs ≠ [])
    (hlast : xs.getLast?.map selfHash = ys.getLast?.map selfHash)
    : xs.map canonicalPayload = ys.map canonicalPayload ∨
        Clashes (CryptoValid.hashWith algo) (CryptoValid.hashWith algo')
          (xs.map canonicalPayload) (ys.map canonicalPayload) := by
  refine HashChain.payloads_eq_or_clashes hxs.linked hys.linked ?_ (Or.inl hlen) ?_
  . intro x hx y hy hpayload
    -- every link is a text
    have hsome : ∃ s, prevHash x = some s := by
      rcases hxs.linked.link_eq _ _ hx with heq | ⟨z, hz, heq⟩
      . exact ⟨_, heq⟩
      . rcases hxs.selfHash_eq z hz with ⟨h, _, hh⟩
        exact ⟨h, heq.trans hh⟩
    rcases hsome with ⟨s, hs⟩
    have hget : ∀ e : Entry, prevHash e = some s ↔
        Assoc.lookup (txt "prev_hash") e = some (.str s) := by
      intro e
      rw [prevHash, str?_eq_some, Entry.get]
      cases Assoc.lookup (txt "prev_hash") e <;> simp
    rw [hs, eq_comm, hget]
    exact lookup_eq_of_payloadOf_eq (hxs.inProfile x hx) (hys.inProfile y hy) hpayload (by decide)
      ((hget x).mp hs)
  . have hne' : ys ≠ [] := by
      rintro rfl
      exact hne (List.eq_nil_of_length_eq_zero hlen)
    rw [HashChain.tip_eq_getLast?, HashChain.tip_eq_getLast?]
    have hx := List.getLast?_eq_some_getLast hne
    have hy := List.getLast?_eq_some_getLast hne'
    rcases hxs.selfHash_eq _ (List.getLast_mem hne) with ⟨h, hself, hhash⟩
    rcases hys.selfHash_eq _ (List.getLast_mem hne') with ⟨h', hself', hhash'⟩
    rw [hx, hy] at hlast ⊢
    simp only [Option.map_some, Option.some.injEq, hself, hself'] at hlast
    simp only [Option.map_some, Option.getD_some, hhash, hhash', hlast]

/--
The tip that was checked, and what it fixes.
-/
theorem Passed.tip_eq {crypto : Tip.Crypto} {content : Bytes} {o : Options} {r : Receipt}
    {file : Tip.File} {key : Str} (h : Passed crypto content o r)
    (hfile : o.tip.or o.sidecar = some file) (hkey : Tip.given o.trustedPubkeyHex = some key)
    : ∃ doc, Tip.loadTip file = .ok doc ∧
        ((entriesOf content).length : Int) = Tip.tipEntries doc ∧
        (entriesOf content).getLast?.map selfHash
          = some (Tip.str? (doc.get (txt "tip_sha256"))) := by
  have htip := h.tip
  simp only [tipReport, hfile, hkey] at htip
  split at htip
  . simp at htip
  . next check hcheck =>
    rcases Except.bind_eq_ok.mp hcheck with ⟨doc, hdoc, hcheck⟩
    have hok : check.ok = true := by
      simp only at htip
      split at htip
      . next hok => exact hok
      . simp at htip
    rcases Tip.checkTip_ok hcheck hok with ⟨hcount, hlast, _⟩
    refine ⟨doc, hdoc, hcount, ?_⟩
    have hgetLast := List.getLast?_eq_some_getLast h.nonempty
    rcases h.chain.selfHash_eq _ (List.getLast_mem h.nonempty) with ⟨digest, hself, _⟩
    rw [hgetLast, Option.map_some, hself]
    rw [hgetLast, Option.map_some, Option.getD_some, strOr, ← selfHash, hself,
      Option.getD_some] at hlast
    rw [hlast]
    rfl

/--
Tamper evidence: two files that pass with as many entries, one algorithm and the same last digest
are hashed over the same payloads. A signed tip takes the place of these conditions.
-/
theorem verifyLedger_tamperEvident (crypto : Tip.Crypto) (a b : Bytes) (oa ob : Options)
    (ra rb : Receipt)
    (ha : verifyLedger crypto (.content a) oa = .ok (.receipt ra))
    (hpassa : (Outcome.receipt ra).verdict = .pass)
    (hb : verifyLedger crypto (.content b) ob = .ok (.receipt rb))
    (hpassb : (Outcome.receipt rb).verdict = .pass)
    : (ra.entriesCount = rb.entriesCount → ra.algorithmUsed = rb.algorithmUsed →
          (entriesOf a).getLast?.map selfHash = (entriesOf b).getLast?.map selfHash →
          (entriesOf a).map canonicalPayload = (entriesOf b).map canonicalPayload ∨
            Collides (CryptoValid.hashWith ra.algorithmUsed)
              ((entriesOf a).map canonicalPayload ++ (entriesOf b).map canonicalPayload)) ∧
        (∀ file key,
          oa.tip.or oa.sidecar = some file → ob.tip.or ob.sidecar = some file →
          Tip.given oa.trustedPubkeyHex = some key → Tip.given ob.trustedPubkeyHex = some key →
          ra.entriesCount = rb.entriesCount ∧
            ((entriesOf a).map canonicalPayload = (entriesOf b).map canonicalPayload ∨
              Clashes (CryptoValid.hashWith ra.algorithmUsed)
                (CryptoValid.hashWith rb.algorithmUsed)
                ((entriesOf a).map canonicalPayload) ((entriesOf b).map canonicalPayload))) := by
  have hpa := passed_of_verifyLedger ha hpassa
  have hpb := passed_of_verifyLedger hb hpassb
  constructor
  . intro hcount halgo hlast
    rw [hpa.entriesCount_eq, hpb.entriesCount_eq] at hcount
    rcases hpa.chain.payloads_eq_or hpb.chain hcount hpa.nonempty hlast with heq | hclash
    . exact Or.inl heq
    . rw [← halgo] at hclash
      exact Or.inr hclash.collides
  . intro file key hfilea hfileb hkeya hkeyb
    rcases hpa.tip_eq hfilea hkeya with ⟨doc, hdoc, hcounta, hlasta⟩
    rcases hpb.tip_eq hfileb hkeyb with ⟨doc', hdoc', hcountb, hlastb⟩
    rw [hdoc] at hdoc'
    have hdoc' := Except.ok.inj hdoc'
    subst hdoc'
    have hlen : (entriesOf a).length = (entriesOf b).length := by omega
    refine ⟨by rw [hpa.entriesCount_eq, hpb.entriesCount_eq, hlen], ?_⟩
    exact hpa.chain.payloads_eq_or hpb.chain hlen hpa.nonempty (hlasta.trans hlastb.symm)

/-!
Two layouts of one ledger with two entries, and its signed tip.
-/

def exampleFirst : Str := txt "bb2b99d8bd5d239fd97dbdeefbfff13aea200aec742a849466bf52195712de0f"

def exampleLast : Str := txt "78a169b9b4c1e1f046508085dbbe930c9f1b4ff1a6e96724f327c73d97246f6b"

def exampleKey : Str := txt "ea4a6c63e29c520abef5507b132ec5f9954776aebebe7b92421eea691446d22c"

def exampleSignature : Str := txt "8f70941f4ebd14aa4fb0e9886123215f0b6e7e29f8b898f907044fdd78c32fd4" ++
  txt "f68f590c97c7882836e232a854135aff8bb7e7f46f174f8b58d1ce4b937b1803"

def exampleEntry (idx : Nat) (ts prevHash selfHash : Str) : Json := .obj [
  (txt "self_hash", .str selfHash), (txt "idx", .int idx), (txt "ts", .str ts),
  (txt "data", .int idx), (txt "prev_hash", .str prevHash)]

def exampleEntries : List Json := [
  exampleEntry 0 (txt "2026-01-01T00:00:00Z") genesisPrev exampleFirst,
  exampleEntry 1 (txt "2026-01-01T00:00:01Z") exampleFirst exampleLast]

def exampleLedger : Bytes :=
  (exampleEntries.flatMap fun e => e.canonical ++ txt "\n").flatMap Utf8.encodePoint

def exampleRelaidLedger : Bytes :=
  (txt "\n" ++ (txt " \r\n").intercalate (exampleEntries.map (Json.dumps true))).flatMap
    Utf8.encodePoint

def exampleTip : Json := .obj [
  (txt "kind", .str Tip.kind), (txt "entries", .int 2), (txt "ledger_id", .str exampleFirst),
  (txt "tip_sha256", .str exampleLast), (txt "ts", .str (txt "2026-01-01T00:00:02Z")),
  (txt "signature_hex", .str exampleSignature)]

/--
The library on the one signature that is there.
-/
def exampleCrypto : Tip.Crypto where
  available := true
  ed25519 pk sig msg :=
    if pk = Tip.fromHex exampleKey ∧ sig = Tip.fromHex exampleSignature ∧
        msg = Tip.tipPayload 2 exampleFirst exampleLast (txt "2026-01-01T00:00:02Z") then
      .ok ()
    else
      .error (txt "InvalidSignature")
  mldsa65 := none

def exampleOptions : Options where
  tip := some (.content (exampleTip.canonical.flatMap Utf8.encodePoint))
  trustedPubkeyHex := some exampleKey

def exampleReceipt : Receipt where
  algorithmUsed := .sha256
  entriesCount := 2
  hashRecomputedOk := 2
  hashFailures := []
  linkOk := 2
  linkFailures := []
  idxMonotonic := true
  tsBackwards := []
  parseErrors := []
  schemaFailures := []
  chainIntegrity := true
  tip := some ⟨true, none, true, some false⟩
  signaturesNotChecked := 0

theorem verifyLedger_tamperEvident_relaid
    : (2 = 2 → Algo.sha256 = .sha256 →
          (entriesOf exampleLedger).getLast?.map selfHash
            = (entriesOf exampleRelaidLedger).getLast?.map selfHash →
          (entriesOf exampleLedger).map canonicalPayload
            = (entriesOf exampleRelaidLedger).map canonicalPayload ∨
          Collides (CryptoValid.hashWith .sha256)
            ((entriesOf exampleLedger).map canonicalPayload ++
              (entriesOf exampleRelaidLedger).map canonicalPayload)) ∧
        (∀ file key,
          exampleOptions.tip.or exampleOptions.sidecar = some file →
          exampleOptions.tip.or exampleOptions.sidecar = some file →
          Tip.given exampleOptions.trustedPubkeyHex = some key →
          Tip.given exampleOptions.trustedPubkeyHex = some key →
          2 = 2 ∧
            ((entriesOf exampleLedger).map canonicalPayload
                = (entriesOf exampleRelaidLedger).map canonicalPayload ∨
              Clashes (CryptoValid.hashWith .sha256) (CryptoValid.hashWith .sha256)
                ((entriesOf exampleLedger).map canonicalPayload)
                ((entriesOf exampleRelaidLedger).map canonicalPayload))) :=
  verifyLedger_tamperEvident exampleCrypto exampleLedger exampleRelaidLedger exampleOptions
    exampleOptions exampleReceipt exampleReceipt (by decide +kernel) rfl (by decide +kernel) rfl

end Verifier
end CryptoValid
