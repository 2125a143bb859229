import CryptoValid.Ingest.Writer
import CryptoValid.Verifier.Reading
import CryptoValid.Verifier.Tamper

/-!
This module contains the other readers of a ledger, the leaves of `cryptovalid_merkle.py` and
`chain_tip` of `cryptovalid_tip.py`, and when they see the entries that the verdict is about.
-/

namespace CryptoValid
namespace Verifier

open Python (Interp)

/--
`entries`, `ledger_id` and `tip_sha256`.
-/
structure ChainTip where
  entries : Nat
  ledgerId : Str
  tipSha256 : Str
  deriving DecidableEq

/--
Both `ValueError`s tell the number of the entry; a `RecursionError` is not caught.
-/
inductive ChainTipError where
  | notAnObject (line : Nat)
  | notHex (line : Nat)
  | recursion
  deriving DecidableEq

/--
The file is read as bytes. What is counted are the lines that are not blank.
-/
def chainTip (interp : Interp) (content : Bytes) : Except ChainTipError ChainTip :=
  go ⟨0, genesisPrev, genesisPrev⟩ (Lines.split 0x0a content)
where
  go (t : ChainTip) : List Bytes → Except ChainTipError ChainTip
    | [] => .ok t
    | line :: rest =>
      if line.all Python.isByteSpace then
        go t rest
      else
        let n := t.entries + 1
        match Python.loadsBytes interp line with
        | .error .recursion => .error .recursion
        | .ok (.obj e) =>
          match Assoc.lookup (txt "self_hash") e with
          | none => .error (.notAnObject n)
          | some h =>
            match (Tip.str? h).filter (Tip.isHex 64) with
            | none => .error (.notHex n)
            | some h => go ⟨n, if n = 1 then h else t.ledgerId, h⟩ rest
        | _ => .error (.notAnObject n)

/-!
### Lines
-/

/--
The lines of a file that passes: each one is blank or an entry.
-/
theorem lines_of_parses {content : Bytes} (h : (parseLines (rawLines content)).2 = [])
    : List.Forall₂ (fun line e => loadsStrict line = .ok (.obj e)) (rawLines content)
        (entriesOf content) :=
  (parseLines_eq_iff _ _).mp (Prod.ext rfl h)

theorem exists_entry_of_mem {content : Bytes} (h : (parseLines (rawLines content)).2 = [])
    {line : Str} (hline : line ∈ rawLines content) : ∃ e, loadsStrict line = .ok (.obj e) := by
  rcases List.exists_of_mem_left (lines_of_parses h) hline with ⟨e, _, he⟩
  exact ⟨e, he⟩

/--
Such a file is UTF-8.
-/
theorem decode?_of_parses {content : Bytes} (h : (parseLines (rawLines content)).2 = [])
    : Utf8.decode? content = some (Utf8.decodeSurrogateEscape content) := by
  apply Utf8.decode?_of_scalar
  rw [← Lines.flatten_split 0x0a (Utf8.decodeSurrogateEscape content)]
  intro c hc
  rcases List.mem_flatten.mp hc with ⟨line, hline, hc⟩
  cases hblank : isBlank line with
  | true => exact scalar_of_isBlank hblank c hc
  | false =>
    have hraw : line ∈ rawLines content := List.mem_filter.mpr ⟨hline, by simp [hblank]⟩
    rcases exists_entry_of_mem h hraw with ⟨e, he⟩
    exact (loads_of_loadsStrict he).1 c hc

/-!
### Leaves
-/

/--
The leaf of a line that is not blank.
-/
def leafOf (interp : Interp) (line : Str) : Option Bytes :=
  match Python.loads interp line with
  | .ok (.obj e) => Ingest.canonical interp (.obj (withoutAttestation e))
  | _ => none

/--
The lines that text readers find in a line of the verifier.
-/
def textLines (line : Str) : List Str := (pieces line).filter fun p => !Python.isBlankLine p

theorem leavesFromLedger_eq (interp : Interp) {content : Bytes}
    (h : (parseLines (rawLines content)).2 = [])
    : Ingest.leavesFromLedger interp content
        = ((rawLines content).flatMap textLines).mapM (leafOf interp) := by
  have hlines : ∀ lines : List Str,
      (lines.flatMap pieces).filter (fun p => !Python.isBlankLine p)
        = (lines.filter fun line => !isBlank line).flatMap textLines := by
    intro lines
    induction lines with
    | nil => rfl
    | cons line lines ih =>
      rw [List.flatMap_cons, List.filter_append, ih, List.filter_cons]
      cases hblank : isBlank line with
      | false => rfl
      | true =>
        have hnil : (pieces line).filter (fun p => !Python.isBlankLine p) = [] := by
          rw [List.filter_eq_nil_iff]
          intro p hp
          simp [isBlankLine_of_mem_pieces hblank p hp]
        rw [hnil]
        rfl
  have hsplit : (Lines.split 0x0a (Utf8.decodeSurrogateEscape content)).flatMap pieces
      = Lines.split 0x0a (Python.universalNewlines (Utf8.decodeSurrogateEscape content)) :=
    (Python.split_universalNewlines _).symm
  rw [rawLines, ← hlines, hsplit]
  simp only [Ingest.leavesFromLedger, decode?_of_parses h, Option.bind_eq_bind, Option.bind_some]
  rfl

theorem leafOf_of_loads {interp : Interp} (hroomy : Roomy interp) {line p : Str} {e : Entry}
    (h : loadsStrict line = .ok (.obj e)) (hp : Python.loads interp p = .ok (.obj e))
    : leafOf interp p = some (canonicalPayload e) := by
  have hdepth := depth_of_loadsStrict h
  have hencoder := hroomy.encoder
  have hle : (Json.obj (withoutAttestation e)).depth ≤ interp.encoderLimit := by
    refine Nat.le_trans (Nat.succ_le_succ ?_) (Nat.le_trans hdepth hencoder)
    rw [Json.depthMembers_le_iff]
    exact fun m hm => Json.depth_le_depthMembers (List.mem_of_mem_filter hm)
  rw [leafOf, hp]
  dsimp only
  rw [Ingest.canonical, if_pos hle]
  rfl

theorem mem_rawLines {content : Bytes} {line : Str} (h : line ∈ rawLines content)
    : (0x0a : CodePoint) ∉ line.dropLast :=
  Lines.not_mem_dropLast_of_mem_split 0x0a (List.mem_of_mem_filter h)

/--
The leaves are the payloads of the entries, unless a carriage return is inside of an entry: then
there are none.
-/
theorem leavesFromLedger_iff {interp : Interp} (hroomy : Roomy interp) {content : Bytes}
    (h : (parseLines (rawLines content)).2 = [])
    : Ingest.leavesFromLedger interp content = some ((entriesOf content).map canonicalPayload) ↔
        ∀ line ∈ rawLines content, ¬InnerReturn line := by
  rw [leavesFromLedger_eq interp h]
  constructor
  . intro hleaves line hline hreturn
    rcases exists_entry_of_mem h hline with ⟨e, he⟩
    rcases not_loads_of_innerReturn interp he (mem_rawLines hline) hreturn with
      ⟨p, hp, hblank, hnot⟩
    have hmem : p ∈ (rawLines content).flatMap textLines :=
      List.mem_flatMap.mpr ⟨line, hline, List.mem_filter.mpr ⟨hp, by simp [hblank]⟩⟩
    rcases List.exists_of_mem_left (Option.mapM_eq_some.mp hleaves) hmem with
      ⟨leaf, _, hleaf⟩
    rw [leafOf] at hleaf
    split at hleaf
    . next e' hloads => exact hnot _ hloads
    . simp at hleaf
  . intro hreturns
    have hforall : ∀ (lines : List Str) (entries : List Entry),
        (∀ line ∈ lines, (0x0a : CodePoint) ∉ line.dropLast ∧ ¬InnerReturn line) →
        List.Forall₂ (fun line e => loadsStrict line = .ok (.obj e)) lines entries →
        List.Forall₂ (fun p leaf => leafOf interp p = some leaf) (lines.flatMap textLines)
          (entries.map canonicalPayload) := by
      intro lines entries hlines hentries
      induction hentries with
      | nil => exact .nil
      | @cons line e lines entries he _ ih =>
        rcases pieces_of_not_innerReturn hroomy he (hlines line (by simp)).1
          (hlines line (by simp)).2 with ⟨p, hp, hloads⟩
        rw [List.flatMap_cons, textLines, hp, List.map_cons]
        exact .cons (leafOf_of_loads hroomy he hloads)
          (ih fun l hl => hlines l (List.mem_cons_of_mem _ hl))
    exact Option.mapM_eq_some.mpr (hforall _ _
      (fun line hline => ⟨mem_rawLines hline, hreturns line hline⟩) (lines_of_parses h))

/-!
### Chain tip
-/

theorem chainTip.go_filter (interp : Interp) (t : ChainTip) (lines : List Bytes)
    : go interp t lines = go interp t (lines.filter fun line => !line.all Python.isByteSpace) := by
  induction lines generalizing t with
  | nil => rfl
  | cons line lines ih =>
    rw [List.filter_cons, go]
    cases hblank : line.all Python.isByteSpace with
    | true => exact ih t
    | false =>
      simp only [Bool.false_eq_true, if_false, Bool.not_false, if_true, go, hblank, ih]

/--
The tip after some more entries, by their hashes.
-/
def ChainTip.extend (t : ChainTip) : List Str → ChainTip
  | [] => t
  | h :: hs => extend ⟨t.entries + 1, if t.entries = 0 then h else t.ledgerId, h⟩ hs

theorem chainTip.go_eq {interp : Interp} (hroomy : Roomy interp) (t : ChainTip)
    {lines : List Str} {entries : List Entry} {hs : List Str}
    (hlines : List.Forall₂ (fun line e => loadsStrict line = .ok (.obj e)) lines entries)
    (hhashes : List.Forall₂ (fun e h => e.get (txt "self_hash") = .str h ∧ Tip.isHex 64 h = true)
      entries hs)
    : go interp t (lines.map fun line => line.flatMap Utf8.encodePoint) = .ok (t.extend hs) := by
  induction hlines generalizing t hs with
  | nil =>
    cases hhashes
    rfl
  | @cons line e lines entries he _ ih =>
    cases hhashes with
    | @cons _ h _ hs hh hrest =>
      have hstrict := (loads_of_loadsStrict he).2
      have hloads := Json.loads_refines (refines_hooks_of_roomy hroomy) hstrict
      have hlookup : Assoc.lookup (txt "self_hash") e = some (.str h) := by
        have hget := hh.1
        rw [Entry.get] at hget
        cases hfound : Assoc.lookup (txt "self_hash") e with
        | none => simp [hfound] at hget
        | some v => rw [hfound, Option.getD_some] at hget; rw [hget]
      rw [List.map_cons, go, Python.isByteSpace_of_loads hstrict, if_neg Bool.false_ne_true,
        Python.loadsBytes_eq interp hstrict, Python.loads, hloads]
      simp only [hlookup, Tip.str?, Option.filter, hh.2, if_true, Nat.add_eq_right]
      exact ih _ hrest

theorem isHex_ofBytes (bytes : Bytes) : Tip.isHex (2 * bytes.length)
    (Hex.ofBytes bytes) = true := by
  have hdigit : ∀ n < 16, ((0x30 ≤ (Hex.digit n).val && (Hex.digit n).val ≤ 0x39) ||
      (0x61 ≤ (Hex.digit n).val && (Hex.digit n).val ≤ 0x66)) = true := by decide
  rw [Tip.isHex, Hex.length_ofBytes, decide_eq_true rfl, Bool.true_and, List.all_eq_true]
  intro c hc
  rcases Hex.exists_digit_of_mem_ofBytes hc with ⟨n, hn, rfl⟩
  exact hdigit n hn

theorem isHex_of_hashWith {algo : Algo} {payload : Bytes} {h : Str}
    (hhash : CryptoValid.hashWith algo payload = some h) : Tip.isHex 64 h = true := by
  have hhex : ∀ H : HashFn 32, Hex.ofBytes (H payload) = h → Tip.isHex 64 h = true := by
    rintro H rfl
    have hex := isHex_ofBytes (H payload)
    rwa [H.length_digest] at hex
  cases algo with
  | sha256 => exact hhex sha256 (Option.some.inj hhash)
  | sha3_256 => exact hhex sha3_256 (Option.some.inj hhash)
  | other name => simp [CryptoValid.hashWith] at hhash

/--
The hashes of the entries of a chain, as `chain_tip` wants them.
-/
theorem Chain.exists_hashes {algo : Algo} {entries : List Entry} (h : Chain algo entries)
    : ∃ hs : List Str, entries.map selfHash = hs.map some ∧
        List.Forall₂ (fun e h => e.get (txt "self_hash") = .str h ∧ Tip.isHex 64 h = true)
          entries hs := by
  have hself := h.selfHash_eq
  clear h
  induction entries with
  | nil => exact ⟨[], rfl, .nil⟩
  | cons e entries ih =>
    rcases ih fun e he => hself e (List.mem_cons_of_mem _ he) with ⟨hs, hmap, hforall⟩
    rcases hself e List.mem_cons_self with ⟨s, hs', hhash⟩
    refine ⟨s :: hs, ?_, .cons ⟨str?_eq_some.mp hs', isHex_of_hashWith hhash⟩ hforall⟩
    rw [List.map_cons, List.map_cons, hmap, hs']

theorem ChainTip.extend_eq (t : ChainTip) (hs : List Str)
    : t.extend hs = ⟨t.entries + hs.length, if t.entries = 0 then hs.head?.getD t.ledgerId
        else t.ledgerId, hs.getLast?.getD t.tipSha256⟩ := by
  induction hs generalizing t with
  | nil => simp [extend]
  | cons h hs ih =>
    rw [extend, ih, List.getLast?_cons]
    simp only [ChainTip.mk.injEq, List.length_cons, List.head?_cons, Option.getD_some,
      Nat.add_eq_zero_iff, Nat.one_ne_zero, and_false, if_false, and_true]
    omega

/--
The lines that are not blank are the same in bytes as in text.
-/
theorem filter_split_of_parses {content : Bytes} (h : (parseLines (rawLines content)).2 = [])
    : (Lines.split 0x0a content).filter (fun line => !line.all Python.isByteSpace)
        = (rawLines content).map fun line => line.flatMap Utf8.encodePoint := by
  have hcontent := Utf8.eq_flatMap_of_decode? (decode?_of_parses h)
  nth_rewrite 1 [hcontent]
  rw [Python.split_flatMap_encodePoint, List.filter_map, rawLines]
  congr 1
  apply List.filter_congr
  intro line hline
  cases hblank : isBlank line with
  | true =>
    rw [isBlank_eq] at hblank
    simp only [Function.comp_apply, Python.isByteSpace_of_isSpace hblank]
  | false =>
    have hraw : line ∈ rawLines content := List.mem_filter.mpr ⟨hline, by simp [hblank]⟩
    rcases exists_entry_of_mem h hraw with ⟨e, he⟩
    simp only [Function.comp_apply, Python.isByteSpace_of_loads (loads_of_loadsStrict he).2]

/--
`chain_tip` of a file that passes.
-/
theorem chainTip_of_passed {interp : Interp} (hroomy : Roomy interp) {crypto : Tip.Crypto}
    {content : Bytes} {o : Options} {r : Receipt} (h : Passed crypto content o r)
    : ∃ first last, (entriesOf content).head?.bind selfHash = some first ∧
        (entriesOf content).getLast?.bind selfHash = some last ∧
        chainTip interp content = .ok ⟨r.entriesCount, first, last⟩ := by
  rcases h.chain.exists_hashes with ⟨hs, hmap, hforall⟩
  have hne : hs ≠ [] := by
    rintro rfl
    exact h.nonempty (List.map_eq_nil_iff.mp hmap)
  have hjoin : ∀ e : Option Entry, e.bind selfHash = (e.map selfHash).join := by
    intro e
    cases e <;> rfl
  have hhead : (entriesOf content).head?.bind selfHash = hs.head? := by
    rw [hjoin, ← List.head?_map, hmap, List.head?_map]
    cases hs.head? <;> rfl
  have hlast : (entriesOf content).getLast?.bind selfHash = hs.getLast? := by
    rw [hjoin, ← List.getLast?_map, hmap, List.getLast?_map]
    cases hs.getLast? <;> rfl
  have hlength : hs.length = (entriesOf content).length := by
    have hcount := congrArg List.length hmap
    rw [List.length_map, List.length_map] at hcount
    exact hcount.symm
  refine ⟨hs.head hne, hs.getLast hne, ?_, ?_, ?_⟩
  . rw [hhead, List.head?_eq_some_head hne]
  . rw [hlast, List.getLast?_eq_some_getLast hne]
  . rw [chainTip, chainTip.go_filter, filter_split_of_parses h.parses,
      chainTip.go_eq hroomy _ (lines_of_parses h.parses) hforall, ChainTip.extend_eq,
      List.head?_eq_some_head hne, List.getLast?_eq_some_getLast hne, hlength,
      h.entriesCount_eq]
    simp

/-!
### Readers
-/

/--
For a file that passes the Merkle leaves and the chain tip are about the entries of the verdict
exactly if no carriage return stands inside of an entry.
-/
theorem readers_agree_iff (crypto : Tip.Crypto) (interp : Interp) (hroomy : Roomy interp)
    (content : Bytes) (o : Options) (r : Receipt)
    (h : verifyLedger crypto (.content content) o = .ok (.receipt r))
    (hpass : (Outcome.receipt r).verdict = .pass)
    : (Ingest.leavesFromLedger interp content
            = some ((entriesOf content).map canonicalPayload) ∧
          ∃ first last, (entriesOf content).head?.bind selfHash = some first ∧
            (entriesOf content).getLast?.bind selfHash = some last ∧
            chainTip interp content = .ok ⟨r.entriesCount, first, last⟩) ↔
        ∀ line ∈ rawLines content, ¬InnerReturn line := by
  have hpassed := passed_of_verifyLedger h hpass
  rw [leavesFromLedger_iff hroomy hpassed.parses]
  exact and_iff_left (chainTip_of_passed hroomy hpassed)

/-!
### Examples
-/

def exampleInterp : Interp := ⟨1000, 1000, some 4300⟩

/--
The first entry with a carriage return after its brace.
-/
def exampleReturnLedger : Bytes :=
  ((exampleEntries.take 1).flatMap fun e => txt "\x7b\r" ++ e.canonical.drop 1 ++ txt "\n").flatMap
    Utf8.encodePoint

theorem readers_agree_iff_exampleLedger
    : (Ingest.leavesFromLedger exampleInterp exampleLedger
            = some ((entriesOf exampleLedger).map canonicalPayload) ∧
          ∃ first last, (entriesOf exampleLedger).head?.bind selfHash = some first ∧
            (entriesOf exampleLedger).getLast?.bind selfHash = some last ∧
            chainTip exampleInterp exampleLedger = .ok ⟨2, first, last⟩) ↔
        ∀ line ∈ rawLines exampleLedger, ¬InnerReturn line :=
  readers_agree_iff exampleCrypto exampleInterp ⟨by decide, by decide, by decide⟩ exampleLedger
    exampleOptions exampleReceipt (by decide +kernel) rfl

/--
The verdict is PASS, and reading the leaves raises.
-/
theorem leaves_raise_on_pass
    : (verifyLedger exampleCrypto (.content exampleReturnLedger) {}).map Outcome.verdict
          = .ok .pass ∧
        Ingest.leavesFromLedger exampleInterp exampleReturnLedger = none := by
  decide +kernel

end Verifier
end CryptoValid
