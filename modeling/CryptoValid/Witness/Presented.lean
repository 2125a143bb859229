import CryptoValid.Checkpoint.RoundTrip
import CryptoValid.Witness.Cosign

/-!
This module contains what it takes for a note to get past the first checks of the witness, and what
the notes that the witness keeps of it are.
-/

namespace CryptoValid
namespace Witness

open Checkpoint

section

variable {sha256 : HashFn 32} {crypto : Crypto}

/-!
### Log keys
-/

theorem checkLogKeys_eq_ok {vkeys : List Str} {logKeys : List VKey}
    : checkLogKeys sha256 vkeys = .ok logKeys ↔
        List.Forall₂ (fun v key => parseVkey sha256 true v = .ok key ∧ key.typ ∈ logKeyTypes)
          vkeys logKeys := by
  induction vkeys generalizing logKeys with
  | nil => simp [checkLogKeys, eq_comm]
  | cons v vkeys ih =>
    unfold checkLogKeys
    rw [Except.bind_eq_ok, List.forall₂_cons_left_iff]
    constructor
    . rintro ⟨key, hkey, h⟩
      split at h
      . simp at h
      . next htyp =>
        rcases Except.bind_eq_ok.mp h with ⟨keys, hkeys, h⟩
        exact ⟨key, keys, ⟨hkey, by simpa using htyp⟩, ih.mp hkeys, (Except.pure_eq_ok.mp h).symm⟩
    . rintro ⟨key, keys, ⟨hkey, htyp⟩, hkeys, rfl⟩
      refine ⟨key, hkey, ?_⟩
      rw [if_neg (by simpa using htyp), ih.mpr hkeys]
      rfl

theorem supported_of_log {typ : Nat} (h : typ ∈ logKeyTypes) : typ ∈ supportedTypes := by
  revert h
  simp only [logKeyTypes, supportedTypes, List.mem_cons, List.not_mem_nil, or_false]
  tauto

/--
The keys that a note is checked with are the log keys.
-/
theorem mem_logKeys_iff {vkeys : List Str} {logKeys : List VKey} {known : KnownKeys} {ignored : Nat}
    (hkeys : checkLogKeys sha256 vkeys = .ok logKeys)
    (hknown : knownKeys sha256 vkeys = .ok (known, ignored)) {name : Str} {kid : Bytes} {typ : Nat}
    {pub : Bytes}
    : known.get? (name, kid) = some (typ, pub) ↔ ⟨name, kid, typ, pub⟩ ∈ logKeys := by
  rw [knownKeys_eq_ok hknown]
  rw [checkLogKeys_eq_ok] at hkeys
  constructor
  . rintro ⟨v, hv, hparse, _⟩
    rcases List.exists_of_mem_left hkeys hv with ⟨key, hmem, hkey, _⟩
    rw [parseVkey_of_strict hkey, Except.ok.injEq] at hparse
    rw [← hparse]
    exact hmem
  . intro hmem
    rcases List.exists_of_mem_right hkeys hmem with ⟨v, hv, hkey, htyp⟩
    exact ⟨v, hv, parseVkey_of_strict hkey, supported_of_log htyp⟩

/-!
### Notes of a log
-/

variable (sha256 crypto) in
/--
The note opens under the log keys, over the checkpoint `cp`.
-/
def Opens (note : Bytes) (vkeys : List Str) (cp : Parsed) : Prop :=
  ∃ logKeys result text, checkLogKeys sha256 vkeys = .ok logKeys ∧
    verifyNote sha256 crypto note vkeys = .ok result ∧ result.verdict = .ok ∧
    result.text = some text ∧ parseCheckpoint text = .ok cp

variable (crypto) in
/--
The signature of the line is of a log key, and it is valid.
-/
def ByLog (ed : Scheme) (known : KnownKeys) (text line : Str) : Prop :=
  ∃ sig s, parseSigLine line = .ok sig ∧ VerifiedBy crypto ed known text sig s

variable (sha256 crypto) in
/--
The lines of a note that opens: those of log keys verify, and there is one.
-/
structure Opened (note : Bytes) (vkeys : List Str) (logKeys : List VKey) (text : Str)
    (lines : List Str) (cp : Parsed) : Prop where
  logKeys_eq : checkLogKeys sha256 vkeys = .ok logKeys
  isNote : ∃ sigs, IsNote note text lines sigs
  parse_eq : parseCheckpoint text = .ok cp
  verified : ∃ known ignored ed, knownKeys sha256 vkeys = .ok (known, ignored) ∧
    crypto.ed25519 = some ed ∧
    (∀ line ∈ lines, ∀ sig, parseSigLine line = .ok sig → Harmless crypto ed known text sig) ∧
    ∃ line ∈ lines, ByLog crypto ed known text line

theorem opened_of_verifyNote {note : Bytes} {vkeys : List Str} {logKeys : List VKey}
    {result : NoteResult} {text : Str} {cp : Parsed}
    (hkeys : checkLogKeys sha256 vkeys = .ok logKeys)
    (hresult : verifyNote sha256 crypto note vkeys = .ok result) (hok : result.verdict = .ok)
    (htext : result.text = some text) (hcp : parseCheckpoint text = .ok cp)
    : ∃ lines, Opened sha256 crypto note vkeys logKeys text lines cp := by
  rcases (verifyNote_eq_ok hok).mp hresult with
    ⟨known, ignored, ed, text', lines, sigs, hknown, hed, hnote, rfl⟩
  rw [noteResult_text, Option.some.injEq] at htext
  subst htext
  rcases noteResult_ok_iff.mp hok with ⟨hharmless, sig, hsig, s, hby⟩
  rcases (mem_sigs_iff hnote.lines_eq).mp hsig with ⟨line, hline, hparse⟩
  refine ⟨lines, hkeys, ⟨sigs, hnote⟩, hcp, known, ignored, ed, hknown, hed, ?_, line, hline, sig, s,
    hparse, hby⟩
  intro line hline sig hparse
  exact hharmless sig ((mem_sigs_iff hnote.lines_eq).mpr ⟨line, hline, hparse⟩)

theorem Opened.verifyNote_eq {note : Bytes} {vkeys : List Str} {logKeys : List VKey} {text : Str}
    {lines : List Str} {cp : Parsed} (h : Opened sha256 crypto note vkeys logKeys text lines cp)
    : ∃ result, verifyNote sha256 crypto note vkeys = .ok result ∧ result.verdict = .ok ∧
        result.text = some text ∧
        hasLogSignature (logKeys.map VKey.name).dedup result.verified = true := by
  rcases h with ⟨hkeys, ⟨sigs, hnote⟩, hcp, known, ignored, ed, hknown, hed, hharmless, line, hline,
    sig, s, hparse, hby⟩
  have hsig := (mem_sigs_iff hnote.lines_eq).mpr ⟨line, hline, hparse⟩
  have hall : ∀ sig ∈ sigs, Harmless crypto ed known text sig := by
    intro sig hsig
    rcases (mem_sigs_iff hnote.lines_eq).mp hsig with ⟨line, hline, hparse⟩
    exact hharmless line hline sig hparse
  have hok : (noteResult text ignored (verifySigs crypto ed known text .start sigs)).verdict = .ok :=
    noteResult_ok_iff.mpr ⟨hall, sig, hsig, s, hby⟩
  refine ⟨noteResult text ignored (verifySigs crypto ed known text .start sigs),
    (verifyNote_eq_ok hok).mpr ⟨known, ignored, ed, text, lines, sigs, hknown, hed, hnote, rfl⟩, hok,
    noteResult_text _ _ _, ?_⟩
  rw [hasLogSignature, List.any_eq_true]
  refine ⟨s, (mem_noteResult_verified hok s).mpr ⟨sig, hsig, hby⟩, ?_⟩
  rcases hby with ⟨typ, pub, timestamp, hget, _, rfl⟩
  have hmem := (mem_logKeys_iff hkeys hknown).mp hget
  rcases List.exists_of_mem_right (checkLogKeys_eq_ok.mp hkeys) hmem with ⟨v, _, _, htyp⟩
  simp only [Bool.and_eq_true, decide_eq_true_eq, List.mem_dedup]
  exact ⟨List.mem_map.mpr ⟨_, hmem, rfl⟩, htyp⟩

theorem opens_iff {note : Bytes} {vkeys : List Str} {cp : Parsed}
    : Opens sha256 crypto note vkeys cp ↔
        ∃ logKeys text lines, Opened sha256 crypto note vkeys logKeys text lines cp := by
  constructor
  . rintro ⟨logKeys, result, text, hkeys, hresult, hok, htext, hcp⟩
    rcases opened_of_verifyNote hkeys hresult hok htext hcp with ⟨lines, h⟩
    exact ⟨logKeys, text, lines, h⟩
  . rintro ⟨logKeys, text, lines, h⟩
    rcases h.verifyNote_eq with ⟨result, hresult, hok, htext, _⟩
    exact ⟨logKeys, result, text, h.logKeys_eq, hresult, hok, htext, h.parse_eq⟩

/--
A line of a key that is not a log key.
-/
def Foreign (logKeys : List VKey) (line : Str) : Prop :=
  ∃ sig, parseSigLine line = .ok sig ∧ ∀ key ∈ logKeys, (key.name, key.kid) ≠ (sig.1, sig.2.take 4)

/--
The text of a note that opens, with some of its lines and lines of other keys.
-/
theorem Opened.with_lines {note : Bytes} {vkeys : List Str} {logKeys : List VKey} {text : Str}
    {lines lines' : List Str} {cp : Parsed}
    (h : Opened sha256 crypto note vkeys logKeys text lines cp)
    (hscalar : ∀ line ∈ lines', Str.Scalar line)
    (hlines : ∀ line ∈ lines', line ∈ lines ∨ Foreign logKeys line)
    (hlog : ∀ line ∈ lines, ¬Foreign logKeys line → line ∈ lines') (hlen : lines'.length ≤ maxSigs)
    : Opened sha256 crypto (utf8 (render text lines')) vkeys logKeys text lines' cp := by
  rcases h with ⟨hkeys, ⟨sigs, hnote⟩, hcp, known, ignored, ed, hknown, hed, hharmless, line, hline,
    sig, s, hparse, hby⟩
  have hmem : line ∈ lines' := by
    refine hlog line hline ?_
    rintro ⟨sig', hparse', hforeign⟩
    rw [hparse, Except.ok.injEq] at hparse'
    subst hparse'
    rcases hby with ⟨typ, pub, timestamp, hget, _⟩
    exact hforeign _ ((mem_logKeys_iff hkeys hknown).mp hget) rfl
  have hparses : ∀ line ∈ lines', ∃ sig, parseSigLine line = .ok sig := by
    intro line hline
    rcases hlines line hline with hold | ⟨sig, hparse, _⟩
    . rcases List.exists_of_mem_left hnote.lines_eq hold with ⟨sig, _, hparse⟩
      exact ⟨sig, hparse⟩
    . exact ⟨sig, hparse⟩
  rcases exists_sigs hparses with ⟨sigs', hsigs'⟩
  refine ⟨hkeys, ⟨sigs', hnote.with_lines hscalar hsigs' (List.ne_nil_of_mem hmem) hlen⟩, hcp, known,
    ignored, ed, hknown, hed, ?_, line, hmem, sig, s, hparse, hby⟩
  intro line hline sig hparse
  rcases hlines line hline with hold | ⟨sig', hparse', hforeign⟩
  . exact hharmless line hold sig hparse
  . rw [hparse, Except.ok.injEq] at hparse'
    subst hparse'
    refine Or.inl ?_
    rcases hget : known.get? (sig.1, sig.2.take 4) with _ | ⟨typ, pub⟩
    . rfl
    . exact absurd rfl (hforeign _ ((mem_logKeys_iff hkeys hknown).mp hget))

/--
The text of a checkpoint.
-/
def textOf (cp : Parsed) : Str := Separated.terminated newline (checkpointLines cp)

theorem textOf_ends {cp : Parsed} : (textOf cp).getLast? = some newline := by
  have hne : checkpointLines cp ≠ [] := by simp [checkpointLines]
  unfold textOf
  conv_lhs => rw [← List.dropLast_concat_getLast hne, Separated.terminated_append]
  simp [Separated.terminated]

theorem isNote_textOf {cp : Parsed} {lines : List Str} (hcp : IsCheckpoint cp)
    (hscalar : Str.Scalar (textOf cp))
    (hlines : ∀ line ∈ lines, Str.Scalar line ∧ ∃ sig, parseSigLine line = .ok sig)
    (hne : lines ≠ [])
    (hlen : lines.length ≤ maxSigs)
    : ∃ sigs, IsNote (utf8 (render (textOf cp) lines)) (textOf cp) lines sigs := by
  rcases exists_sigs fun line hline => (hlines line hline).2 with ⟨sigs, hsigs⟩
  refine ⟨sigs, {
    decode_eq := ?_
    text_ends := textOf_ends
    text_plain := ?_
    lines_eq := hsigs
    lines_ne_nil := hne
    length_le := hlen }⟩
  . refine decode?_utf8 ?_
    rw [render, Str.scalar_append, Str.scalar_cons]
    exact ⟨hscalar, by decide, scalar_terminated fun line hline => (hlines line hline).1⟩
  . intro c hc hcontrol
    rcases List.mem_flatMap.mp hc with ⟨line, hline, hmem⟩
    rcases List.mem_append.mp hmem with hmem | hmem
    . rw [(checkpointLines_plain hcp line hline).2 c hmem] at hcontrol
      simp at hcontrol
    . exact List.mem_singleton.mp hmem

/--
A note with one line, of an Ed25519 log key, opens under this key.
-/
theorem opened_of_signed {cp : Parsed} {name vk : Str} {pub sig : Bytes} {ed : Scheme}
    (hcp : IsCheckpoint cp) (hscalar : Str.Scalar (textOf cp)) (hname : Str.Scalar name)
    (hvk : vkey sha256 name typeEd25519 pub = .ok vk) (hed : crypto.ed25519 = some ed)
    (hlen : sig.length = 64) (hverify : ed.verify pub sig (utf8 (textOf cp)) = true)
    : Opened sha256 crypto
        (utf8 (render (textOf cp) [signatureLine name (keyId sha256 name typeEd25519 pub ++ sig)]))
        [vk] [⟨name, keyId sha256 name typeEd25519 pub, typeEd25519, pub⟩] (textOf cp)
        [signatureLine name (keyId sha256 name typeEd25519 pub ++ sig)] cp := by
  have hkey : nameOk name = true ∧ pub.length = 32 := by
    rcases vkey_eq_ok.mp hvk with ⟨hname, _, _, ⟨_, hpub⟩ | ⟨htyp, _⟩, _⟩
    . exact ⟨hname, hpub⟩
    . exact absurd htyp (by decide)
  have hpub : pub ≠ [] := by
    rintro rfl
    simp at hkey
  have hraw : (keyId sha256 name typeEd25519 pub ++ sig).length = 68 := by
    rw [List.length_append, length_keyId, hlen]
  have htake : (keyId sha256 name typeEd25519 pub ++ sig).take 4
      = keyId sha256 name typeEd25519 pub := List.take_left' (length_keyId _ _ _ _)
  have hdrop : (keyId sha256 name typeEd25519 pub ++ sig).drop 4 = sig :=
    List.drop_left' (length_keyId _ _ _ _)
  have hparse : parseSigLine (signatureLine name (keyId sha256 name typeEd25519 pub ++ sig))
      = .ok (name, keyId sha256 name typeEd25519 pub ++ sig) :=
    parseSigLine_signatureLine hkey.1 (by omega) (by unfold maxSigBytes; omega)
  have hknown : knownKeys sha256 [vk] = .ok
      (Dict.empty.set (name, keyId sha256 name typeEd25519 pub) (typeEd25519, pub), 0) := by
    simp only [knownKeys, knownKeys.go, parseVkey_vkey false hvk hpub, Except.ok_bind]
    simp [supportedTypes]
  have hby : VerifiedBy crypto ed
      (Dict.empty.set (name, keyId sha256 name typeEd25519 pub) (typeEd25519, pub)) (textOf cp)
      (name, keyId sha256 name typeEd25519 pub ++ sig) ⟨name, typeEd25519, none⟩ := by
    refine ⟨typeEd25519, pub, none, ?_, ?_, rfl⟩
    . rw [htake, Dict.get?_set_self]
    . rw [hdrop]
      simp [checkBody, hlen, hverify]
  refine ⟨?_, ?_, parseCheckpoint_terminated hcp, _, _, ed, hknown, hed, ?_, _, List.mem_singleton_self _,
    _, _, hparse, hby⟩
  . rw [checkLogKeys_eq_ok]
    exact .cons ⟨parseVkey_vkey true hvk hpub, by simp [logKeyTypes]⟩ .nil
  . refine isNote_textOf hcp hscalar ?_ (by simp) (by simp [maxSigs])
    intro line hline
    rw [List.mem_singleton.mp hline]
    exact ⟨scalar_signatureLine hname _, _, hparse⟩
  . intro line hline sig' hparse'
    rw [List.mem_singleton.mp hline, hparse, Except.ok.injEq] at hparse'
    subst hparse'
    exact Or.inr ⟨_, hby⟩

/-!
### Requests that are looked at
-/

theorem noteLines_eq {b : Bytes} {text : Str} {lines : List Str} {sigs : List (Str × Bytes)}
    (h : IsNote b text lines sigs) : noteLines b text = lines := by
  have hdrop : (render text lines).drop (text.length + 1) = Separated.terminated newline lines := by
    rw [render, ← List.drop_drop, List.drop_left]
    rfl
  rw [noteLines, h.decode_eq, Option.getD_some, hdrop,
    Separated.split_terminated newline _ fun line hline => (h.lines_plain line hline).2,
    List.dropLast_concat]

theorem mem_zip_sigs_iff {lines : List Str} {sigs : List (Str × Bytes)}
    (h : List.Forall₂ (fun line sig => parseSigLine line = .ok sig) lines sigs) {line : Str}
    {sig : Str × Bytes} :
    (line, sig) ∈ lines.zip sigs ↔ line ∈ lines ∧ parseSigLine line = .ok sig :=
  List.mem_zip_iff (fun _ _ _ h h' => Except.ok.inj (h.symm.trans h')) h

theorem mem_trustedLines_iff {logKeys : List VKey} {lines : List Str} {sigs : List (Str × Bytes)}
    (h : List.Forall₂ (fun line sig => parseSigLine line = .ok sig) lines sigs) {line : Str}
    : line ∈ trustedLines logKeys (lines.zip sigs) ↔ line ∈ lines ∧ ¬Foreign logKeys line := by
  simp only [trustedLines, firstOccurrences, List.mem_reverse, List.mem_dedup, List.mem_map,
    List.mem_filter, decide_eq_true_eq]
  constructor
  . rintro ⟨⟨line', sig⟩, ⟨hmem, key, hkey, heq⟩, rfl⟩
    rcases (mem_zip_sigs_iff h).mp hmem with ⟨hline, hparse⟩
    refine ⟨hline, ?_⟩
    rintro ⟨sig', hparse', hforeign⟩
    rw [hparse, Except.ok.injEq] at hparse'
    exact hforeign key hkey (hparse' ▸ heq)
  . rintro ⟨hline, hnot⟩
    rcases List.exists_of_mem_left h hline with ⟨sig, _, hparse⟩
    refine ⟨(line, sig), ⟨(mem_zip_sigs_iff h).mpr ⟨hline, hparse⟩, ?_⟩, rfl⟩
    by_contra hnone
    exact hnot ⟨sig, hparse, fun key hkey heq => hnone ⟨key, hkey, heq⟩⟩

theorem nodup_trustedLines (logKeys : List VKey) (lines : List (Str × Str × Bytes))
    : (trustedLines logKeys lines).Nodup := by
  rw [trustedLines, firstOccurrences, List.nodup_reverse]
  exact List.nodup_dedup _

theorem mem_keptLines_iff {keys : Keys} {own : List Bytes} {lines : List Str}
    {sigs : List (Str × Bytes)}
    (h : List.Forall₂ (fun line sig => parseSigLine line = .ok sig) lines sigs) {line : Str}
    : line ∈ keptLines keys own (lines.zip sigs) ↔
        line ∈ lines ∧ ∃ sig, parseSigLine line = .ok sig ∧
          ¬(sig.1 = keys.name ∧ sig.2.take 4 ∈ own) := by
  simp only [keptLines, List.mem_map, List.mem_filter, Bool.not_eq_true', Bool.and_eq_false_iff,
    decide_eq_false_iff_not, Classical.not_and_iff_not_or_not]
  constructor
  . rintro ⟨⟨line', sig⟩, ⟨hmem, hother⟩, rfl⟩
    rcases (mem_zip_sigs_iff h).mp hmem with ⟨hline, hparse⟩
    exact ⟨hline, sig, hparse, hother⟩
  . rintro ⟨hline, sig, hparse, hother⟩
    exact ⟨(line, sig), ⟨(mem_zip_sigs_iff h).mpr ⟨hline, hparse⟩, hother⟩, rfl⟩

variable (sha256 crypto) in
/--
What is looked at under the lock, and why the first checks let it through.
-/
structure Accepted (keys : Keys) (r : Request) (p : Presented) (logKeys : List VKey)
    (lines : List Str) (own : List Bytes) : Prop where
  opened : Opened sha256 crypto r.note r.logVkeys logKeys p.text lines p.cp
  names_eq : r.expectedOrigin.isNone → (logKeys.map VKey.name).dedup.length = 1
  origin_eq : p.cp.origin = r.expectedOrigin.getD ((logKeys.map VKey.name).dedup.headD [])
  proof_le : r.proof.length ≤ maxProof
  own_eq : ownKids sha256 crypto keys = .ok own
  origin_le : keys.pqSeed.isSome → (utf8 p.cp.origin).length ≤ 255
  room : p.kept.length + keys.count ≤ maxSigs
  out_eq : p.out = { Out.start with origin := some p.cp.origin, size := some p.cp.size }
  lines_eq : ∃ sigs, IsNote r.note p.text lines sigs ∧
    p.kept = keptLines keys own (lines.zip sigs) ∧ p.trustedLines = trustedLines logKeys (lines.zip sigs)

theorem accepted_of_present {keys : Keys} {r : Request} {p : Presented}
    (h : present sha256 crypto keys r = .ok (.inr p))
    : ∃ logKeys lines own, Accepted sha256 crypto keys r p logKeys lines own := by
  unfold present at h
  split at h
  . simp at h
  . next text₀ sigs hsplit =>
    split at h
    . simp at h
    . rcases Except.bind_eq_ok.mp h with ⟨logKeys, hlogKeys, h⟩
      rcases Except.bind_eq_ok.mp h with ⟨v, hv, h⟩
      dsimp only at h
      split at h
      . simp [pure, Except.pure] at h
      . next text htext =>
        split at h
        . simp [pure, Except.pure] at h
        . next hverdict =>
          split at h
          . simp [pure, Except.pure] at h
          . next hsig =>
            split at h
            . simp at h
            . next hnames =>
              split at h
              . simp [pure, Except.pure] at h
              . next cp hcp =>
                split at h
                . simp [pure, Except.pure] at h
                . next horigin =>
                  split at h
                  . simp [pure, Except.pure] at h
                  . next hproof =>
                    rcases Except.bind_eq_ok.mp h with ⟨own, hown, h⟩
                    split at h
                    . simp [pure, Except.pure] at h
                    . next hpq =>
                      split at h
                      . simp [pure, Except.pure] at h
                      . next hroom =>
                        have h := Except.pure_eq_ok.mp h
                        simp only [Sum.inr.injEq] at h
                        subst h
                        rcases opened_of_verifyNote hlogKeys hv (by simpa using hverdict) htext hcp
                          with ⟨lines, hopened⟩
                        rcases hopened.isNote with ⟨sigs', hnote⟩
                        rcases splitNote_eq_ok.mp hsplit with ⟨lines₀, hnote₀⟩
                        rcases hnote₀.unique hnote with ⟨rfl, rfl, rfl⟩
                        rw [noteLines_eq hnote] at hroom ⊢
                        exact ⟨logKeys, lines₀, own, {
                          opened := hopened
                          names_eq := fun hnone => by
                            by_contra hne
                            exact hnames ⟨hnone, hne⟩
                          origin_eq := by simpa using horigin
                          proof_le := Nat.not_lt.mp hproof
                          own_eq := hown
                          origin_le := fun hsome => by
                            by_contra hlong
                            exact hpq ⟨hsome, Nat.not_le.mp hlong⟩
                          room := Nat.not_lt.mp hroom
                          out_eq := rfl
                          lines_eq := ⟨sigs, hnote, rfl, rfl⟩ }⟩

/--
The other way round: nothing else keeps a note from being looked at.
-/
theorem Accepted.present_eq {keys : Keys} {r : Request} {p : Presented} {logKeys : List VKey}
    {lines : List Str} {own : List Bytes} (h : Accepted sha256 crypto keys r p logKeys lines own)
    : present sha256 crypto keys r = .ok (.inr p) := by
  rcases h.lines_eq with ⟨sigs, hnote, hkept, htrusted⟩
  rcases h.opened.verifyNote_eq with ⟨result, hresult, hok, htext, hsig⟩
  have hne : r.logVkeys.isEmpty = false := by
    rcases h.opened with ⟨hkeys, _, _, known, ignored, _, hknown, _, _, line, _, sig, s, _, hby⟩
    rcases hby with ⟨typ, pub, timestamp, hget, _⟩
    rcases (knownKeys_eq_ok hknown).mp hget with ⟨v, hv, _⟩
    cases hvkeys : r.logVkeys with
    | nil => simp [hvkeys] at hv
    | cons => rfl
  rcases p with ⟨out, text, cp, trusted, kept⟩
  have hroom := h.room
  simp only at hkept htrusted hroom
  unfold present
  simp only [splitNote_eq_ok.mpr ⟨lines, hnote⟩, hne, h.opened.logKeys_eq, Except.ok_bind, hresult,
    htext, hok, hsig, h.opened.parse_eq, h.own_eq, noteLines_eq hnote, ← hkept, ← htrusted,
    Bool.false_eq_true, ↓reduceIte, ne_eq, not_true_eq_false, Bool.not_true]
  rw [if_neg (fun hand => hand.2 (h.names_eq hand.1)), if_neg (not_not_intro h.origin_eq),
    if_neg (Nat.not_lt.mpr h.proof_le),
    if_neg (fun hand => Nat.not_lt.mpr (h.origin_le hand.1) hand.2), if_neg (Nat.not_lt.mpr hroom)]
  have hout := h.out_eq
  simp only at hout
  rw [hout]
  rfl

/-!
### Notes that are kept and signed
-/

section

variable {keys : Keys} {r : Request} {p : Presented} {logKeys : List VKey} {lines : List Str}
  {own : List Bytes}

theorem Accepted.mem_kept_iff (h : Accepted sha256 crypto keys r p logKeys lines own) {line : Str}
    : line ∈ p.kept ↔ line ∈ lines ∧ ∃ sig, parseSigLine line = .ok sig ∧
        ¬(sig.1 = keys.name ∧ sig.2.take 4 ∈ own) := by
  rcases h.lines_eq with ⟨sigs, hnote, hkept, _⟩
  rw [hkept]
  exact mem_keptLines_iff hnote.lines_eq

theorem Accepted.mem_trustedLines_iff (h : Accepted sha256 crypto keys r p logKeys lines own)
    {line : Str} : line ∈ p.trustedLines ↔ line ∈ lines ∧ ¬Foreign logKeys line := by
  rcases h.lines_eq with ⟨sigs, hnote, _, htrusted⟩
  rw [htrusted]
  exact Witness.mem_trustedLines_iff hnote.lines_eq

theorem Accepted.lines_plain (h : Accepted sha256 crypto keys r p logKeys lines own)
    : ∀ line ∈ lines, (line ≠ [] ∧ newline ∉ line) ∧ Str.Scalar line := by
  rcases h.lines_eq with ⟨sigs, hnote, _⟩
  exact fun line hline => ⟨hnote.lines_plain line hline, hnote.scalar.2 line hline⟩

theorem Accepted.text_ends (h : Accepted sha256 crypto keys r p logKeys lines own)
    : p.text.getLast? = some newline ∧ Str.Scalar p.text := by
  rcases h.lines_eq with ⟨sigs, hnote, _⟩
  exact ⟨hnote.text_ends, hnote.scalar.1⟩

variable (sha256 crypto) in
/--
What the lines that the witness adds are made of.
-/
structure OwnLines (keys : Keys) (text : Str) (cp : Parsed) (timestamp : Int) (raws : List Bytes)
    : Prop where
  name_ok : nameOk keys.name = true
  name_le : (utf8 keys.name).length ≤ maxNameBytes
  timestamp_ok : timestampOk timestamp = true
  raws_eq : ∃ ed rest, crypto.ed25519 = some ed ∧
    raws = cosigRaw sha256 ed keys.name keys.seed timestamp.toNat text :: rest ∧
    match keys.pqSeed with
    | none => rest = []
    | some seed => ∃ mldsa msg, crypto.mldsa44 = some mldsa ∧
      mldsa44Message keys.name timestamp.toNat cp.origin 0 cp.size cp.root = .ok msg ∧
      rest = [mldsa44Raw sha256 mldsa keys.name seed timestamp.toNat msg]

/--
The lines as texts.
-/
def ownLines (keys : Keys) (raws : List Bytes) : List Str := raws.map (signatureLine keys.name)

theorem ownLines_plain {text : Str} {cp : Parsed} {timestamp : Int} {raws : List Bytes}
    (h : OwnLines sha256 crypto keys text cp timestamp raws)
    : ∀ line ∈ ownLines keys raws, (line ≠ [] ∧ newline ∉ line) ∧ Str.Scalar line := by
  intro line hline
  rcases List.mem_map.mp hline with ⟨raw, _, rfl⟩
  exact ⟨signatureLine_plain h.name_ok raw, scalar_signatureLine keys.name_scalar raw⟩

theorem isNote_of_utf8 {text text' : Str} {lines lines' : List Str} {sigs : List (Str × Bytes)}
    (htext : text.getLast? = some newline ∧ Str.Scalar text)
    (hlines : ∀ line ∈ lines, (line ≠ [] ∧ newline ∉ line) ∧ Str.Scalar line)
    (h : IsNote (utf8 (render text lines)) text' lines' sigs) : text' = text ∧ lines' = lines := by
  have hscalar : Str.Scalar (render text lines) := by
    rw [render, Str.scalar_append, Str.scalar_cons]
    exact ⟨htext.2, by decide, scalar_terminated fun line hline => (hlines line hline).2⟩
  have hdecode := h.decode_eq
  rw [decode?_utf8 hscalar, Option.some.injEq] at hdecode
  rcases render_inj htext.1 h.text_ends (fun line hline => (hlines line hline).1) h.lines_plain hdecode
    with ⟨rfl, rfl⟩
  exact ⟨rfl, rfl⟩

theorem Accepted.cosignNote_eq_ok (h : Accepted sha256 crypto keys r p logKeys lines own)
    {timestamp : Int} {cosigned added : Bytes}
    (hcosign : cosignNote sha256 crypto keys p timestamp = .ok (cosigned, added))
    : ∃ raws, OwnLines sha256 crypto keys p.text p.cp timestamp raws ∧
        cosigned = utf8 (render p.text (p.kept ++ ownLines keys raws)) ∧
        added = utf8 (Separated.terminated newline (ownLines keys raws)) := by
  have hplain : ∀ line ∈ p.kept, (line ≠ [] ∧ newline ∉ line) ∧ Str.Scalar line :=
    fun line hline => h.lines_plain line (h.mem_kept_iff.mp hline).1
  have hadded : ∀ raws, (utf8 (render p.text (p.kept ++ ownLines keys raws))).drop
      (utf8 (render p.text p.kept)).length = utf8 (Separated.terminated newline (ownLines keys raws))
      := by
    intro raws
    rw [← render_append, utf8_append, List.drop_left]
  unfold cosignNote at hcosign
  rcases Except.bind_eq_ok.mp hcosign with ⟨first, hfirst, hcosign⟩
  rcases cosignV1_eq_ok.mp hfirst with
    ⟨text, lines', sigs, cp, ed, hnote, hcp, hed, _, hts, hname, _, hlen, rfl⟩
  rcases isNote_of_utf8 h.text_ends hplain hnote with ⟨rfl, rfl⟩
  have hone : utf8 (render p.text p.kept) ++ utf8 (signatureLine keys.name
      (cosigRaw sha256 ed keys.name keys.seed timestamp.toNat p.text) ++ [newline])
      = utf8 (render p.text (p.kept ++ ownLines keys
        [cosigRaw sha256 ed keys.name keys.seed timestamp.toNat p.text])) :=
    utf8_render_append _ _ _
  dsimp only at hcosign
  split at hcosign
  . next hpq =>
    have hcosign := Except.pure_eq_ok.mp hcosign
    simp only [Prod.mk.injEq] at hcosign
    rcases hcosign with ⟨rfl, rfl⟩
    refine ⟨_, ⟨hname, hlen, hts, ed, [], hed, rfl, by rw [hpq]⟩, hone, ?_⟩
    rw [← hadded, ← hone]
    rfl
  . next seed hpq =>
    rcases Except.bind_eq_ok.mp hcosign with ⟨second, hsecond, hcosign⟩
    have hcosign := Except.pure_eq_ok.mp hcosign
    simp only [Prod.mk.injEq] at hcosign
    rcases hcosign with ⟨rfl, rfl⟩
    rcases cosignV1Mldsa44_eq_ok.mp hsecond with
      ⟨text, lines', sigs', cp', mldsa, msg, hnote', hcp', hmldsa, _, _, hmsg, _, _, _, rfl⟩
    have hone' : (utf8 (p.text ++ newline :: Separated.terminated newline p.kept)) ++
        utf8 (signatureLine keys.name
          (cosigRaw sha256 ed keys.name keys.seed timestamp.toNat p.text) ++ [newline])
        = utf8 (render p.text (p.kept ++ ownLines keys
          [cosigRaw sha256 ed keys.name keys.seed timestamp.toNat p.text])) := hone
    rw [hone'] at hnote' ⊢
    rcases isNote_of_utf8 h.text_ends (by
      intro line hline
      rcases List.mem_append.mp hline with hline | hline
      . exact hplain line hline
      . rw [ownLines, List.map_singleton, List.mem_singleton] at hline
        rw [hline]
        exact ⟨signatureLine_plain hname _, scalar_signatureLine keys.name_scalar _⟩) hnote' with
      ⟨rfl, _⟩
    rw [h.opened.parse_eq, Except.ok.injEq] at hcp'
    subst hcp'
    have htwo := utf8_render_append p.text (signatureLine keys.name
      (mldsa44Raw sha256 mldsa keys.name seed timestamp.toNat msg)) (p.kept ++ ownLines keys
        [cosigRaw sha256 ed keys.name keys.seed timestamp.toNat p.text])
    refine ⟨[cosigRaw sha256 ed keys.name keys.seed timestamp.toNat p.text,
      mldsa44Raw sha256 mldsa keys.name seed timestamp.toNat msg],
      ⟨hname, hlen, hts, ed, _, hed, rfl, ?_⟩, ?_, ?_⟩
    . rw [hpq]
      exact ⟨mldsa, msg, hmldsa, hmsg, rfl⟩
    . rw [htwo]
      simp [ownLines]
    . rw [← hadded, htwo]
      simp [ownLines, render]

variable (crypto) in
/--
The witness can sign: its name can stand in a line, and the schemes of its keys are there and give
signatures of the right length.
-/
structure CanSign (keys : Keys) : Prop where
  name_ok : nameOk keys.name = true
  name_le : (utf8 keys.name).length ≤ maxNameBytes
  ed25519 : ∃ ed, crypto.ed25519 = some ed ∧ ∀ msg, (ed.sign keys.seed msg).length = 64
  mldsa44 : ∀ seed, keys.pqSeed = some seed →
    ∃ mldsa, crypto.mldsa44 = some mldsa ∧ ∀ msg, (mldsa.sign seed msg).length = mldsa44Sig

variable (sha256) in
theorem length_cosigRaw {ed : Scheme} {seed : Bytes} (name : Str) (timestamp : Nat) (text : Str)
    (hlen : ∀ msg, (ed.sign seed msg).length = 64)
    : (cosigRaw sha256 ed name seed timestamp text).length = 76 := by
  rw [cosigRaw, List.length_append, List.length_append, length_keyId, Cbor.length_beBytes, hlen]

variable (sha256) in
theorem length_mldsa44Raw {mldsa : Scheme} {seed : Bytes} (name : Str) (timestamp : Nat)
    (msg : Bytes)
    (hlen : ∀ msg, (mldsa.sign seed msg).length = mldsa44Sig)
    : (mldsa44Raw sha256 mldsa name seed timestamp msg).length = 2432 := by
  rw [mldsa44Raw, List.length_append, List.length_append, length_keyId, Cbor.length_beBytes, hlen]
  rfl

theorem mldsa44Message_ok {name : Str} (timestamp : Nat) {cp : Parsed} (hname : nameOk name = true)
    (hlen : (utf8 name).length ≤ maxNameBytes) (horigin : cp.origin ≠ [])
    (hle : (utf8 cp.origin).length ≤ 255) (hroot : cp.root.length = 32)
    : ∃ msg, mldsa44Message name timestamp cp.origin 0 cp.size cp.root = .ok msg := by
  have hpos : ∀ s : Str, s ≠ [] → 1 ≤ (utf8 s).length := by
    intro s hs
    cases s with
    | nil => exact absurd rfl hs
    | cons c s =>
      have hpoint : 1 ≤ (Utf8.encodePoint c).length := by
        unfold Utf8.encodePoint
        repeat' split
        all_goals simp
      rw [utf8, List.flatMap_cons, List.length_append]
      omega
  have hname' := hpos name (nameOk_iff.mp hname).1
  have horigin' := hpos cp.origin horigin
  have hlens : (1 ≤ (utf8 name).length && (utf8 name).length ≤ 255 && 1 ≤ (utf8 cp.origin).length &&
      (utf8 cp.origin).length ≤ 255) = true := by
    simp only [Bool.and_eq_true, decide_eq_true_eq]
    exact ⟨⟨⟨hname', hlen⟩, horigin'⟩, hle⟩
  unfold mldsa44Message
  simp [hlens, hroot]

theorem isCheckpoint_of_parse {text : Str} {cp : Parsed} (h : parseCheckpoint text = .ok cp)
    : cp.origin ≠ [] ∧ cp.root.length = 32 := by
  unfold parseCheckpoint at h
  split at h
  . simp at h
  . split at h
    . next origin sizeText rootText extensions _ =>
      split at h
      . simp at h
      . next hempty =>
        split at h
        . simp at h
        . split at h
          . simp at h
          . split at h
            . simp at h
            . split at h
              . simp at h
              . next hroot =>
                rw [← Except.ok.inj h]
                simp only [not_or, Decidable.not_not] at hroot
                refine ⟨?_, hroot.1⟩
                rintro rfl
                simp at hempty
    . simp at h

/--
The other way round: a witness that can sign does so, if there is a line that it did not make.
-/
theorem Accepted.exists_cosignNote (h : Accepted sha256 crypto keys r p logKeys lines own)
    (hsign : CanSign crypto keys) (hkept : p.kept ≠ []) {timestamp : Int}
    (hts : timestampOk timestamp = true)
    : ∃ cosigned added, cosignNote sha256 crypto keys p timestamp = .ok (cosigned, added) := by
  rcases h.lines_eq with ⟨sigs, hnote, _⟩
  rcases hsign.ed25519 with ⟨ed, hed, hedlen⟩
  have hroom := h.room
  have hcount : 1 ≤ keys.count := by
    unfold Keys.count
    split <;> omega
  have hparse : ∀ line ∈ p.kept, ∃ sig, parseSigLine line = .ok sig := by
    intro line hline
    rcases h.mem_kept_iff.mp hline with ⟨_, sig, hsig, _⟩
    exact ⟨sig, hsig⟩
  have hscalar : ∀ line ∈ p.kept, Str.Scalar line :=
    fun line hline => (h.lines_plain line (h.mem_kept_iff.mp hline).1).2
  rcases exists_sigs hparse with ⟨sigs', hsigs'⟩
  have hbase : IsNote (utf8 (render p.text p.kept)) p.text p.kept sigs' :=
    hnote.with_lines hscalar hsigs' hkept (by omega)
  have hfirst : cosignV1 sha256 crypto (utf8 (render p.text p.kept)) keys.name keys.seed timestamp
      = .ok _ := cosignV1_eq_ok.mpr ⟨p.text, p.kept, sigs', p.cp, ed, hbase, h.opened.parse_eq, hed,
        by omega, hts, hsign.name_ok, keys.name_scalar, hsign.name_le, rfl⟩
  unfold cosignNote
  rw [show p.text ++ newline :: Separated.terminated newline p.kept = render p.text p.kept from rfl]
  dsimp only
  rw [hfirst, Except.ok_bind]
  cases hpq : keys.pqSeed with
  | none => exact ⟨_, _, rfl⟩
  | some seed =>
    rcases hsign.mldsa44 seed hpq with ⟨mldsa, hmldsa, _⟩
    have hcount' : keys.count = 2 := by simp [Keys.count, hpq]
    have hraw := length_cosigRaw sha256 keys.name timestamp.toNat p.text hedlen
    have hline : parseSigLine (signatureLine keys.name
        (cosigRaw sha256 ed keys.name keys.seed timestamp.toNat p.text))
        = .ok (keys.name, cosigRaw sha256 ed keys.name keys.seed timestamp.toNat p.text) :=
      parseSigLine_signatureLine hsign.name_ok (by omega) (by unfold maxSigBytes; omega)
    have hsecond : IsNote (utf8 (render p.text (p.kept ++ [signatureLine keys.name
        (cosigRaw sha256 ed keys.name keys.seed timestamp.toNat p.text)]))) p.text
        (p.kept ++ [signatureLine keys.name
          (cosigRaw sha256 ed keys.name keys.seed timestamp.toNat p.text)])
        (sigs' ++ [(keys.name, cosigRaw sha256 ed keys.name keys.seed timestamp.toNat p.text)]) := by
      refine hnote.with_lines ?_ ?_ (by simp) ?_
      . intro line hmem
        rcases List.mem_append.mp hmem with hmem | hmem
        . exact hscalar line hmem
        . rw [List.mem_singleton.mp hmem]
          exact scalar_signatureLine keys.name_scalar _
      . exact List.rel_append hsigs' (.cons hline .nil)
      . rw [List.length_append, List.length_singleton]
        omega
    rcases isCheckpoint_of_parse h.opened.parse_eq with ⟨horigin, hroot⟩
    rcases mldsa44Message_ok timestamp.toNat hsign.name_ok hsign.name_le horigin
      (h.origin_le (by simp [hpq])) hroot with ⟨msg, hmsg⟩
    rw [utf8_render_append]
    have hcosign : cosignV1Mldsa44 sha256 crypto _ keys.name seed timestamp = .ok _ :=
      cosignV1Mldsa44_eq_ok.mpr ⟨p.text, _, _, p.cp, mldsa, msg, hsecond, h.opened.parse_eq, hmldsa,
        by rw [List.length_append, List.length_singleton]; omega, hts, hmsg, hsign.name_ok,
        keys.name_scalar, hsign.name_le, rfl⟩
    dsimp only
    rw [hcosign]
    exact ⟨_, _, rfl⟩

end

end

end Witness
end CryptoValid
