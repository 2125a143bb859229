import CryptoValid.Lib.Json.Blanks
import CryptoValid.Lib.Json.Printed
import CryptoValid.Verifier.Tamper

/-!
This module contains when a ledger file passes without a tip, and what a line at its end changes.
-/

namespace CryptoValid
namespace Verifier

/-!
### Entries
-/

section

variable {α β : Type} {check : β → Nat → Entry → Option α} {next : Entry → β}

theorem scan_append (before : β) (i : Nat) (xs ys : List Entry)
    : scan check next before i (xs ++ ys)
        =
      scan check next before i xs ++
        scan check next ((xs.getLast?.map next).getD before) (i + xs.length) ys := by
  induction xs generalizing before i with
  | nil => rfl
  | cons x xs ih =>
    have hlast : ((xs.getLast?.map next).getD (next x))
        = (((x :: xs).getLast?.map next).getD before) := by
      rw [List.getLast?_cons]
      cases xs.getLast? <;> rfl
    rw [List.cons_append, scan, scan, ih, List.append_assoc, hlast, List.length_cons,
      Nat.add_assoc, Nat.add_comm 1]

/--
One more entry is checked against the entry before it.
-/
theorem scan_concat_eq_nil (before : β) (xs : List Entry) (y : Entry)
    : scan check next before 0 (xs ++ [y]) = []
        ↔ scan check next before 0 xs = [] ∧
          check ((xs.getLast?.map next).getD before) xs.length y = none := by
  rw [scan_append, List.append_eq_nil_iff, scan_cons_eq_nil, Nat.zero_add]
  simp [scan]

end

theorem hashFailures_cons_eq_nil {algo : Algo} {i : Nat} {e : Entry} {rest : List Entry}
    : hashFailures algo i (e :: rest) = .ok []
        ↔ hashFailure algo i e = .ok none ∧ hashFailures algo (i + 1) rest = .ok [] := by
  simp only [hashFailures, Except.bind_eq_ok, Except.pure_eq_ok, List.append_eq_nil_iff]
  constructor
  . rintro ⟨failure, hfailure, failures, hfailures, hnil, rfl⟩
    rw [Option.toList_eq_nil_iff.mp hnil] at hfailure
    exact ⟨hfailure, hfailures⟩
  . rintro ⟨hfailure, hfailures⟩
    exact ⟨none, hfailure, [], hfailures, rfl, rfl⟩

theorem hashFailures_concat_eq_nil (algo : Algo) (i : Nat) (xs : List Entry) (y : Entry)
    : hashFailures algo i (xs ++ [y]) = .ok []
        ↔ hashFailures algo i xs = .ok [] ∧ hashFailure algo (i + xs.length) y = .ok none := by
  induction xs generalizing i with
  | nil =>
    rw [List.nil_append, hashFailures_cons_eq_nil]
    simp [hashFailures]
  | cons x xs ih =>
    rw [List.cons_append, hashFailures_cons_eq_nil, hashFailures_cons_eq_nil, ih,
      List.length_cons, and_assoc, Nat.add_assoc, Nat.add_comm 1]

/--
The checks of the entries alone find nothing.
-/
structure Intact (algo : Algo) (entries : List Entry) : Prop where
  hashes : hashFailures algo 0 entries = .ok []
  schema : schemaFailures entries = []
  links : linkFailures entries = []
  idx : idxErrors entries = []

/--
What the next entry has to link to.
-/
def lastHash (entries : List Entry) : Json :=
  (entries.getLast?.map fun e => e.get (txt "self_hash")).getD (.str genesisPrev)

/--
The entry may stand after the other ones.
-/
structure Follows (algo : Algo) (entries : List Entry) (e : Entry) : Prop where
  hash : hashFailure algo entries.length e = .ok none
  schema : schemaFailure entries.length e = none
  link : linkFailure (lastHash entries) entries.length e = none
  idx : idxError entries.length e = none

theorem intact_nil (algo : Algo) : Intact algo [] := ⟨rfl, rfl, rfl, rfl⟩

theorem intact_concat (algo : Algo) (entries : List Entry) (e : Entry)
    : Intact algo (entries ++ [e]) ↔ Intact algo entries ∧ Follows algo entries e := by
  have hhash := hashFailures_concat_eq_nil algo 0 entries e
  have hschema : schemaFailures (entries ++ [e]) = []
      ↔ schemaFailures entries = [] ∧ schemaFailure entries.length e = none :=
    scan_concat_eq_nil () entries e
  have hlink : linkFailures (entries ++ [e]) = []
      ↔ linkFailures entries = [] ∧ linkFailure (lastHash entries) entries.length e = none :=
    scan_concat_eq_nil _ entries e
  have hidx : idxErrors (entries ++ [e]) = []
      ↔ idxErrors entries = [] ∧ idxError entries.length e = none :=
    scan_concat_eq_nil () entries e
  rw [Nat.zero_add] at hhash
  constructor
  . intro h
    rcases hhash.mp h.hashes with ⟨hh, hh'⟩
    rcases hschema.mp h.schema with ⟨hs, hs'⟩
    rcases hlink.mp h.links with ⟨hl, hl'⟩
    rcases hidx.mp h.idx with ⟨hi, hi'⟩
    exact ⟨⟨hh, hs, hl, hi⟩, ⟨hh', hs', hl', hi'⟩⟩
  . rintro ⟨h, h'⟩
    exact ⟨hhash.mpr ⟨h.hashes, h'.hash⟩, hschema.mpr ⟨h.schema, h'.schema⟩,
      hlink.mpr ⟨h.links, h'.link⟩, hidx.mpr ⟨h.idx, h'.idx⟩⟩

theorem Intact.selfHash_eq {algo : Algo} {entries : List Entry} (h : Intact algo entries)
    : ∀ e ∈ entries, ∃ s, e.get (txt "self_hash") = .str s ∧
        CryptoValid.hashWith algo (canonicalPayload e) = some s := by
  intro e he
  rcases selfHash_of_hashFailures h.hashes e he with ⟨s, hs, hhash⟩
  exact ⟨s, str?_eq_some.mp hs, hhash⟩

theorem schemaFailure_eq_none {i : Nat} {e : Entry} (h : ∀ m ∈ e, m.1 ∈ entryKeys)
    : schemaFailure i e = none := by
  have hunknown : unknownKeys e = [] := by
    rw [unknownKeys, List.filter_eq_nil_iff.mpr]
    . rfl
    . intro k hk
      rcases List.mem_map.mp hk with ⟨m, hm, rfl⟩
      simpa using h m hm
  simp [schemaFailure, hunknown]

theorem hashFailure_eq_none_iff {algo : Algo} {i : Nat} {e : Entry}
    : hashFailure algo i e = .ok none
        ↔ ∃ s, e.get (txt "self_hash") = .str s ∧
          CryptoValid.hashWith algo (canonicalPayload e) = some s := by
  simp only [hashFailure]
  constructor
  . intro h
    split at h
    . simp at h
    . rcases Except.bind_eq_ok.mp h with ⟨computed, hcomputed, h⟩
      have h := Except.pure_eq_ok.mp h
      split at h
      . next hself => exact ⟨computed, hself, hashWith_eq_ok hcomputed⟩
      . simp at h
  . rintro ⟨s, hself, hhash⟩
    have hok : hashWith algo (canonicalPayload e) = .ok s := by
      unfold hashWith
      rw [hhash]
    rw [if_neg (by simp [hself]), hok, Except.ok_bind, hself]
    simp [pure, Except.pure]

/--
The members that an entry needs to follow.
-/
theorem follows_of_members {algo : Algo} {entries : List Entry} {e : Entry} {s h : Str}
    (hkeys : ∀ m ∈ e, m.1 ∈ entryKeys) (hidx : e.get (txt "idx") = .int entries.length)
    (hlast : lastHash entries = .str s) (hprev : e.get (txt "prev_hash") = .str s)
    (hself : e.get (txt "self_hash") = .str h)
    (hhash : CryptoValid.hashWith algo (canonicalPayload e) = some h)
    : Follows algo entries e where
  hash := hashFailure_eq_none_iff.mpr ⟨h, hself, hhash⟩
  schema := schemaFailure_eq_none hkeys
  link := by
    rw [linkFailure, hprev, hlast, if_pos ((Python.eq_str_iff _ _).mpr rfl)]
  idx := by
    simp [idxError, hidx, isIdx]

/-!
### Verdict
-/

/--
The verdict is PASS with as many entries.
-/
def Passes (crypto : Tip.Crypto) (content : Bytes) (o : Options) (entries : Nat) : Prop :=
  ∃ r, verifyLedger crypto (.content content) o = .ok (.receipt r) ∧
    (Outcome.receipt r).verdict = .pass ∧ r.entriesCount = entries

theorem verdict_eq_pass (r : Receipt)
    : (Outcome.receipt r).verdict = .pass ↔ r.chainIntegrity = true := by
  cases hok : r.chainIntegrity <;> simp [Outcome.verdict, hok]

/--
Without a trusted key a tip is not looked at.
-/
theorem tipReport_untrusted (crypto : Tip.Crypto) (entries : List Entry) (algo : Option Algo)
    (sidecar : Option Tip.File)
    : (tipReport crypto entries { algo, sidecar }).2 = none := by
  cases sidecar <;> rfl

theorem passes_iff (crypto : Tip.Crypto) (content : Bytes) (algo : Option Algo)
    (sidecar : Option Tip.File) (n : Nat)
    : Passes crypto content { algo, sidecar } n
        ↔ content.length ≤ maxInputBytes ∧ (parseLines (rawLines content)).2 = [] ∧
          entriesOf content ≠ [] ∧ (entriesOf content).length = n ∧
          Intact ((algo.or (detectAlgo (entriesOf content))).getD .sha256)
            (entriesOf content) := by
  have htip := tipReport_untrusted crypto (entriesOf content) algo sidecar
  simp only [Passes, verifyLedger, entriesOf] at *
  rcases hparse : parseLines (rawLines content) with ⟨entries, errors⟩
  rw [hparse] at htip
  rcases htipReport : tipReport crypto entries { algo, sidecar } with ⟨report, failed⟩
  rw [htipReport] at htip
  dsimp only at htip ⊢
  subst htip
  constructor
  . rintro ⟨r, hr, hpass, hcount⟩
    split at hr
    . simp at hr
    . next hsize =>
      rcases Except.bind_eq_ok.mp hr with ⟨r', hr', hr⟩
      rw [Outcome.receipt.inj (Except.pure_eq_ok.mp hr)] at hr'
      simp only [receiptOf, htipReport] at hr'
      rcases Except.bind_eq_ok.mp hr' with ⟨failures, hhash, hr'⟩
      have hr' := Except.pure_eq_ok.mp hr'
      rw [verdict_eq_pass, ← hr'] at hpass
      rw [← hr'] at hcount
      simp only [Bool.and_eq_true, List.isEmpty_iff, Bool.not_eq_eq_eq_not, Bool.not_true,
        List.isEmpty_eq_false_iff] at hpass
      rcases hpass with ⟨⟨⟨⟨⟨⟨⟨hfailures, hlinks⟩, hidx⟩, herrors⟩, hschema⟩, hne⟩, _⟩, _⟩
      rw [hfailures] at hhash
      exact ⟨Nat.not_lt.mp hsize, herrors, hne, hcount, ⟨hhash, hschema, hlinks, hidx⟩⟩
  . rintro ⟨hsize, rfl, hne, rfl, hintact⟩
    rw [if_neg (Nat.not_lt.mpr hsize)]
    simp only [receiptOf, hintact.hashes, Except.ok_bind, htipReport]
    refine ⟨_, rfl, (verdict_eq_pass _).mpr ?_, rfl⟩
    simp [hintact.schema, hintact.links, hintact.idx, hne, Tip.given]

/-!
### Lines
-/

/--
Nothing, or the last byte is a line feed.
-/
def Terminated (content : Bytes) : Prop := content = [] ∨ content.getLast? = some 0x0a

theorem isBlank_eq (line : Str) : isBlank line = line.all Json.isSpace := by
  have hspace : txt " \t\r\n" = [0x20, 0x09, 0x0d, 0x0a] := by decide
  have hcontains : ∀ c : CodePoint, (txt " \t\r\n").contains c = Json.isSpace c := by
    intro c
    rw [hspace, Bool.eq_iff_iff]
    simp only [List.contains_iff_mem, List.mem_cons, List.not_mem_nil, or_false, Json.isSpace,
      Bool.or_eq_true, decide_eq_true_eq]
    tauto
  rw [isBlank]
  exact congrArg (line.all ·) (funext hcontains)

theorem Terminated.append {a b : Bytes} (ha : Terminated a) (hb : Terminated b)
    : Terminated (a ++ b) := by
  rcases hb with rfl | hb
  . rwa [List.append_nil]
  . exact Or.inr (by rw [List.getLast?_append, hb]; rfl)

theorem Terminated.decode {content : Bytes} (h : Terminated content)
    : Utf8.decodeSurrogateEscape content = [] ∨
        (Utf8.decodeSurrogateEscape content).getLast? = some 0x0a := by
  rcases h with rfl | h
  . exact Or.inl (Utf8.decodeSurrogateEscape_flatMap_encodePoint [] (by decide))
  . rcases List.getLast?_eq_some_iff.mp h with ⟨line, rfl⟩
    have hnl : ([0x0a] : Bytes) = ([0x0a] : Str).flatMap Utf8.encodePoint := by decide
    right
    rw [hnl, Utf8.decodeSurrogateEscape_append _ _ (Utf8.boundary_flatMap_encodePoint _),
      Utf8.decodeSurrogateEscape_flatMap_encodePoint _ (by decide)]
    simp

/--
What comes after a line feed is read by itself.
-/
theorem rawLines_append {content : Bytes} (h : Terminated content) {s : Str}
    (hs : Str.Scalar s)
    : rawLines (content ++ s.flatMap Utf8.encodePoint)
        =
      rawLines content ++ (Lines.split 0x0a s).filter fun line => !isBlank line := by
  rw [rawLines, rawLines,
    Utf8.decodeSurrogateEscape_append _ _ (Utf8.boundary_flatMap_encodePoint s),
    Utf8.decodeSurrogateEscape_flatMap_encodePoint s hs,
    Lines.split_append_of_terminated _ _ _ h.decode, List.filter_append]

theorem rawLines_nil : rawLines [] = [] := by
  rw [rawLines, ← List.flatMap_nil (f := Utf8.encodePoint),
    Utf8.decodeSurrogateEscape_flatMap_encodePoint [] (by decide)]
  rfl

theorem rawLines_append_line {content : Bytes} (h : Terminated content) {line : Str}
    (hs : Str.Scalar line) (hnl : 0x0a ∉ line) (hblank : isBlank line = false)
    : rawLines (content ++ (line ++ [0x0a]).flatMap Utf8.encodePoint)
        = rawLines content ++ [line ++ [0x0a]] := by
  have hs' : Str.Scalar (line ++ [0x0a]) := by
    intro c hc
    rcases List.mem_append.mp hc with hc | hc
    . exact hs c hc
    . rw [List.mem_singleton.mp hc]
      decide
  have hblank' : isBlank (line ++ [0x0a]) = false := by
    rw [isBlank, List.all_append, ← isBlank, hblank, Bool.false_and]
  rw [rawLines_append h hs', Lines.split_append_nl 0x0a line [] hnl, Lines.split_nil]
  simp [hblank']

theorem parseLines_go_append (i : Nat) (xs ys : List Str)
    : parseLines.go i (xs ++ ys)
        =
      ((parseLines.go i xs).1 ++ (parseLines.go (i + xs.length) ys).1,
        (parseLines.go i xs).2 ++ (parseLines.go (i + xs.length) ys).2) := by
  induction xs generalizing i with
  | nil => rfl
  | cons x xs ih =>
    rw [List.cons_append, parseLines.go, parseLines.go, ih, List.length_cons,
      Nat.add_right_comm, Nat.add_assoc]
    dsimp only
    split <;> rfl

/--
One line more is one entry more, or one error.
-/
theorem parseLines_concat (lines : List Str) (line : Str)
    : (∃ e, loadsStrict line = .ok (.obj e) ∧
          parseLines (lines ++ [line]) = ((parseLines lines).1 ++ [e], (parseLines lines).2)) ∨
        ((∀ e, loadsStrict line ≠ .ok (.obj e)) ∧ (parseLines (lines ++ [line])).2 ≠ []) := by
  rw [parseLines, parseLines_go_append]
  cases hload : loadsStrict line with
  | error e =>
    right
    refine ⟨by simp, ?_⟩
    simp [parseLines.go, hload]
  | ok v =>
    cases v with
    | obj e =>
      left
      exact ⟨e, rfl, by simp [parseLines.go, hload, parseLines]⟩
    | _ =>
      right
      refine ⟨by simp, ?_⟩
      simp [parseLines.go, hload]

theorem parseLines_append_line {content : Bytes} (h : Terminated content) {line : Str}
    {e : Entry} (hs : Str.Scalar line) (hnl : 0x0a ∉ line) (hblank : isBlank line = false)
    (hload : loadsStrict (line ++ [0x0a]) = .ok (.obj e))
    : parseLines (rawLines (content ++ (line ++ [0x0a]).flatMap Utf8.encodePoint))
        =
      ((parseLines (rawLines content)).1 ++ [e], (parseLines (rawLines content)).2) := by
  rw [rawLines_append_line h hs hnl hblank]
  rcases parseLines_concat (rawLines content) (line ++ [0x0a]) with ⟨e', he', hparse⟩ | ⟨hnone, _⟩
  . rw [hload] at he'
    cases he'
    exact hparse
  . exact absurd hload (hnone e)

/-!
### Written entries
-/

theorem isBlank_dumps {v : Json} (h : Json.NotFloat v) : isBlank (Json.dumps true v) = false := by
  rcases Json.dumps_eq_cons true v h with ⟨c, s, heq, hspace, _⟩
  rw [isBlank_eq, heq, List.all_cons, hspace, Bool.false_and]

theorem printable_not_mem_nl {s : Str} (h : Json.Printable s) : (0x0a : CodePoint) ∉ s := by
  intro hc
  have hrange := (h _ hc).1
  revert hrange
  decide

theorem scalar_of_isBlank {s : Str} (h : isBlank s = true) : Str.Scalar s := by
  rw [isBlank_eq, List.all_eq_true] at h
  intro c hc
  have hspace := h c hc
  simp only [Json.isSpace, Bool.or_eq_true, decide_eq_true_eq] at hspace
  rcases hspace with ((rfl | rfl) | rfl) | rfl <;> decide

theorem rejectDup_of_nodup {pairs : List (Str × Json)} (h : (pairs.map Prod.fst).Nodup)
    : rejectDup pairs = .ok pairs := by
  have hgo : ∀ rest seen : List (Str × Json), ((seen ++ rest).map Prod.fst).Nodup →
      rejectDup.go seen rest = .ok (seen ++ rest) := by
    intro rest
    induction rest with
    | nil =>
      intro seen _
      rw [rejectDup.go, List.append_nil]
    | cons m rest ih =>
      rcases m with ⟨k, v⟩
      intro seen hnodup
      have hnone : Assoc.lookup k seen = none := by
        rw [Assoc.lookup_eq_none_iff]
        intro hmem
        rw [List.map_append, List.nodup_append] at hnodup
        exact hnodup.2.2 k hmem k (by simp) rfl
      rw [rejectDup.go, hnone, ih _ (by rwa [List.append_assoc]), List.append_assoc]
      rfl
  exact hgo pairs [] h

/--
The hooks take back every value inside the profile.
-/
theorem accepts_of_inProfile {v : Json} (h : Json.All InProfile v)
    : Json.All (Json.Accepts hooks true) v := by
  refine h.imp ?_
  intro v hv
  cases v with
  | int i =>
    have hint : Json.intOfText (Json.intText i) = i := Json.intOfText_intText i
    simp only [Json.Accepts, hooks, boundedInt, hint]
    rw [if_neg (Nat.not_lt.mpr hv)]
  | float x => exact hv
  | str s => exact fun _ => hv
  | obj ms => exact ⟨rejectDup_of_nodup hv.1, fun _ => hv.2⟩
  | _ => trivial

theorem scalarText_append {s t : Str} (hs : Str.Scalar s) (ht : Str.Scalar t)
    : Str.Scalar (s ++ t) := (Str.scalar_append s t).mpr ⟨hs, ht⟩

/--
Every value inside the profile can be read back from its line, in whatever layout.
-/
theorem loadsStrict_dumpsIn {L : Json.Layout} (hL : L.Blank)
    (hchars : L.Chars fun c => 0x20 ≤ c.val ∧ c.val < 0x7f) {v : Json}
    (hv : Json.All InProfile v) (hdepth : v.depth ≤ maxJsonDepth) (before after : Str)
    (hbefore : isBlank before = true) (hafter : isBlank after = true)
    : loadsStrict (before ++ Json.dumpsIn L true 0 v ++ after) = .ok v := by
  have hfloat := hv.imp notFloat_of_inProfile
  have hraw : (before ++ Json.dumpsIn L true 0 v ++ after).any CodePoint.isSurrogate = false := by
    rw [List.any_eq_false]
    intro c hc
    have hscalar := scalarText_append (scalarText_append (scalar_of_isBlank hbefore)
      (Json.printable_scalar (Json.printable_dumpsIn hchars v hfloat 0))) (scalar_of_isBlank hafter)
    simp [hscalar c hc]
  rw [isBlank_eq] at hbefore hafter
  have hnesting : Json.nestingDepth (before ++ Json.dumpsIn L true 0 v ++ after) = v.depth := by
    have hstart : Json.Nesting.start.Outside := ⟨rfl, rfl, Int.le_refl _⟩
    rw [Json.nestingDepth, List.foldl_append, List.foldl_append,
      Json.Nesting.foldl_step_blanks hstart hbefore,
      Json.Nesting.foldl_step_dumpsIn hL true v hfloat 0 _ hstart,
      Json.Nesting.foldl_step_blanks (hstart.deepen _) hafter]
    simp [Json.Nesting.deepen, Json.Nesting.start]
  have hlone : hasLoneSurrogate (before ++ Json.dumpsIn L true 0 v ++ after) = false := by
    have hboth := (hv.imp notFloat_of_inProfile).and (hv.imp scalarText_of_inProfile)
    rw [hasLoneSurrogate, List.append_assoc, Json.hasLoneSurrogate_blanks_append hbefore,
      Json.hasLoneSurrogate_dumpsIn_append Python.readsHex_int16 hL v hboth,
      ← List.append_nil after, Json.hasLoneSurrogate_blanks_append hafter,
      Json.hasLoneSurrogate_nil]
  simp only [loadsStrict, jsonNestingDepth, hnesting, hlone, hraw]
  rw [if_neg (by omega), if_neg (by simp), if_neg (by simp)]
  exact Json.loads_append_blanks hafter (Json.loads_blanks_append hbefore
    (Json.loads_dumpsIn hooks hL true 0 v (accepts_of_inProfile hv) hdepth))

theorem loadsStrict_dumps {v : Json} (hv : Json.All InProfile v) (hdepth : v.depth ≤ maxJsonDepth)
    (before after : Str) (hbefore : isBlank before = true) (hafter : isBlank after = true)
    : loadsStrict (before ++ Json.dumps true v ++ after) = .ok v := by
  rw [← Json.dumpsIn_compact true v 0]
  exact loadsStrict_dumpsIn Json.Layout.blank_compact Json.Layout.printable_compact hv hdepth before
    after hbefore hafter

/--
The order of keys, at whatever depth, is no part of the payload.
-/
theorem canonicalPayload_sortKeys {e e' : Entry} (h : (Json.obj e).sortKeys = .obj e')
    (hnodup : (e.map Prod.fst).Nodup) : canonicalPayload e' = canonicalPayload e := by
  rw [Json.sortKeys_obj, Json.obj.injEq] at h
  have hfilter : ∀ ms : Entry, withoutAttestation (ms.map fun m => (m.1, m.2.sortKeys))
      = (withoutAttestation ms).map fun m => (m.1, m.2.sortKeys) := by
    intro ms
    rw [withoutAttestation, withoutAttestation, List.filter_map]
    rfl
  have hperm : (withoutAttestation e').Perm
      ((withoutAttestation e).map fun m => (m.1, m.2.sortKeys)) := by
    rw [← h, ← hfilter]
    exact (Json.perm_sortMembers _).filter _
  have hperm' : ((withoutAttestation e').map fun m => (m.1, m.2.sortKeys)).Perm
      ((withoutAttestation e).map fun m => (m.1, m.2.sortKeys)) := by
    refine (hperm.map _).trans ?_
    rw [List.map_map]
    refine List.Perm.of_eq (List.map_congr_left ?_)
    intro m _
    simp [Json.sortKeys_sortKeys]
  have hnodup' : (((withoutAttestation e).map fun m => (m.1, m.2.sortKeys)).map
      Prod.fst).Nodup := by
    rw [List.map_map]
    exact hnodup.sublist (List.filter_sublist.map Prod.fst)
  rw [canonicalPayload, canonicalPayload, payloadOf, payloadOf, Json.canonical, Json.canonical,
    Json.sortKeys_obj, Json.sortKeys_obj, Json.sortMembers_eq_of_perm hperm'.symm hnodup']

/--
A chain of SHA-256 is taken for one.
-/
theorem detectAlgo_of_intact {entries : List Entry} (h : Intact .sha256 entries)
    (hne : entries ≠ []) : detectAlgo entries = some .sha256 := by
  cases entries with
  | nil => exact absurd rfl hne
  | cons e rest =>
    rcases h.selfHash_eq e List.mem_cons_self with ⟨s, hs, hhash⟩
    have hhas : e.has (txt "self_hash") = true := by
      rw [Entry.has, Option.isSome_iff_ne_none]
      intro hnone
      simp [Entry.get, hnone] at hs
    simp [detectAlgo, hhas, supportedAlgos, hhash, hs]

end Verifier
end CryptoValid
