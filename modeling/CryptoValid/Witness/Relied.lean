import CryptoValid.Lib.CborRoundTrip
import CryptoValid.Witness.Quorum

/-!
This module contains what a relying party finds in a note that the witness has cosigned: the text of
the log, every line of another key, and one line of each key of the witness, which verifies.
-/

namespace CryptoValid
namespace Witness

open Checkpoint

section

variable (sha256 : HashFn 32) (crypto : Crypto)

/--
The keys of the witness, as others know them.
-/
inductive OwnKey (keys : Keys) : VKey → Prop
  | ed25519 (ed : Scheme) (hed : crypto.ed25519 = some ed)
    : OwnKey keys ⟨keys.name, keyId sha256 keys.name typeCosigV1 (ed.publicKey keys.seed),
        typeCosigV1, ed.publicKey keys.seed⟩
  | mldsa44 (seed : Bytes) (mldsa : Scheme) (hseed : keys.pqSeed = some seed)
      (hmldsa : crypto.mldsa44 = some mldsa)
    : OwnKey keys ⟨keys.name, keyId sha256 keys.name typeMldsa44 (mldsa.publicKey seed),
        typeMldsa44, mldsa.publicKey seed⟩

/--
The relying party trusts the log keys of the request and keys of the witness. No two of all these
keys share their name and id.
-/
structure Relies (keys : Keys) (r : Request) (witnessVkeys : List Str) : Prop where
  ne_nil : witnessVkeys ≠ []
  own : ∀ v ∈ witnessVkeys, ∃ key, parseVkey sha256 false v = .ok key ∧
    OwnKey sha256 crypto keys key
  no_clash : ∀ key key',
    Trusted sha256 r.logVkeys witnessVkeys key ∨ OwnKey sha256 crypto keys key →
    Trusted sha256 r.logVkeys witnessVkeys key' ∨ OwnKey sha256 crypto keys key' →
    key.name = key'.name → key.kid = key'.kid → key = key'

end

/--
The schemes of the witness's keys verify what they have signed.
-/
structure SignsWell (crypto : Crypto) (keys : Keys) : Prop where
  ed25519 : ∀ ed, crypto.ed25519 = some ed → ∀ msg, (ed.sign keys.seed msg).length = 64 ∧
    ed.verify (ed.publicKey keys.seed) (ed.sign keys.seed msg) msg = true
  mldsa44 : ∀ seed mldsa, keys.pqSeed = some seed → crypto.mldsa44 = some mldsa → ∀ msg,
    (mldsa.sign seed msg).length = mldsa44Sig ∧
      mldsa.verify (mldsa.publicKey seed) (mldsa.sign seed msg) msg = true

section

variable {sha256 : HashFn 32} {crypto : Crypto} {keys : Keys}

/-!
### Lines of the witness
-/

theorem OwnKey.name_eq {key : VKey} (h : OwnKey sha256 crypto keys key) : key.name = keys.name := by
  cases h <;> rfl

theorem OwnKey.typ_mem {key : VKey}
    (h : OwnKey sha256 crypto keys key) : key.typ ∈ witnessTypes := by
  cases h <;> simp [witnessTypes]

theorem mem_ownKids_iff {own : List Bytes} (hown : ownKids sha256 crypto keys = .ok own)
    {kid : Bytes}
    : kid ∈ own ↔ ∃ key, OwnKey sha256 crypto keys key ∧ key.kid = kid := by
  unfold ownKids at hown
  rcases Except.bind_eq_ok.mp hown with ⟨pub, hpub, hown⟩
  unfold pubkeyFromSeed at hpub
  split at hpub
  . simp at hpub
  . next ed hed =>
    rw [← Except.ok.inj hpub] at hown
    dsimp only at hown
    split at hown
    . next hpq =>
      rw [← Except.pure_eq_ok.mp hown, List.mem_singleton]
      constructor
      . rintro rfl
        exact ⟨_, .ed25519 ed hed, rfl⟩
      . rintro ⟨_, hkey, rfl⟩
        cases hkey with
        | ed25519 ed' hed' =>
          rw [hed, Option.some.injEq] at hed'
          rw [hed']
        | mldsa44 seed mldsa hseed => simp [hpq] at hseed
    . next seed hpq =>
      rcases Except.bind_eq_ok.mp hown with ⟨pub', hpub', hown⟩
      unfold mldsa44PubkeyFromSeed at hpub'
      split at hpub'
      . simp at hpub'
      . next mldsa hmldsa =>
        rw [← Except.ok.inj hpub'] at hown
        rw [← Except.pure_eq_ok.mp hown, List.mem_pair]
        constructor
        . rintro (rfl | rfl)
          . exact ⟨_, .ed25519 ed hed, rfl⟩
          . exact ⟨_, .mldsa44 seed mldsa hpq hmldsa, rfl⟩
        . rintro ⟨_, hkey, rfl⟩
          cases hkey with
          | ed25519 ed' hed' =>
            rw [hed, Option.some.injEq] at hed'
            exact Or.inl (by rw [hed'])
          | mldsa44 seed' mldsa' hseed hmldsa' =>
            rw [hpq, Option.some.injEq] at hseed
            rw [hmldsa, Option.some.injEq] at hmldsa'
            exact Or.inr (by rw [hseed, hmldsa'])

/--
A checkpoint has at least two lines.
-/
theorem two_le_count_of_parse {text : Str} {cp : Parsed} (h : parseCheckpoint text = .ok cp)
    : 2 ≤ text.count newline := by
  unfold parseCheckpoint at h
  split at h
  . simp at h
  . next hends =>
    have hlast : text.getLast? = some newline := by simpa using hends
    have hcount : text.dropLast.count newline ≤ text.count newline :=
      (List.dropLast_sublist text).count_le newline
    have hlen := Separated.length_split newline text.dropLast
    split at h
    . next heq =>
      rw [heq] at hlen
      simp only [List.length_cons] at hlen
      omega
    . simp at h

theorem timestamp_bounds {timestamp : Int} (h : timestampOk timestamp = true)
    : (timestamp.toNat : Int) = timestamp ∧ timestamp.toNat < 256 ^ 8 := by
  simp only [timestampOk, Bool.and_eq_true, decide_eq_true_eq] at h
  omega

variable (sha256) in
theorem signs_cosigRaw {ed : Scheme} {text : Str} {cp : Parsed} {timestamp : Int}
    (hcorrect : SignsWell crypto keys) (hed : crypto.ed25519 = some ed)
    (hcp : parseCheckpoint text = .ok cp) (hts : timestampOk timestamp = true)
    : Signs crypto ed text
        ⟨keys.name, keyId sha256 keys.name typeCosigV1 (ed.publicKey keys.seed), typeCosigV1,
          ed.publicKey keys.seed⟩
        (keys.name, cosigRaw sha256 ed keys.name keys.seed timestamp.toNat text)
        (some timestamp.toNat) := by
  rcases timestamp_bounds hts with ⟨hcast, hlt⟩
  rcases hcorrect.ed25519 ed hed (cosignMessage timestamp.toNat text) with ⟨hlen, hverify⟩
  have hkid := length_keyId sha256 keys.name typeCosigV1 (ed.publicKey keys.seed)
  refine ⟨⟨rfl, ?_⟩, ?_⟩
  . rw [cosigRaw, List.take_left' hkid]
  . have hbytes := Cbor.length_beBytes 8 timestamp.toNat
    have hcount := two_le_count_of_parse hcp
    dsimp only
    rw [cosigRaw, List.drop_left' hkid, checkBody, if_neg (by decide), if_neg (by decide),
      if_neg (by decide)]
    simp only [List.take_left' hbytes, List.drop_left' hbytes, Cbor.natOfBytes_beBytes _ _ hlt, hcast,
      hts, hverify, List.length_append, hbytes, hlen]
    simp
    omega

variable (sha256) in
theorem signs_mldsa44Raw (ed : Scheme) {mldsa : Scheme} {seed msg : Bytes} {text : Str}
    {cp : Parsed}
    {timestamp : Int} (hcorrect : SignsWell crypto keys) (hseed : keys.pqSeed = some seed)
    (hmldsa : crypto.mldsa44 = some mldsa) (hcp : parseCheckpoint text = .ok cp)
    (hts : timestampOk timestamp = true)
    (hmsg : mldsa44Message keys.name timestamp.toNat cp.origin 0 cp.size cp.root = .ok msg)
    : Signs crypto ed text
        ⟨keys.name, keyId sha256 keys.name typeMldsa44 (mldsa.publicKey seed), typeMldsa44,
          mldsa.publicKey seed⟩
        (keys.name, mldsa44Raw sha256 mldsa keys.name seed timestamp.toNat msg)
        (some timestamp.toNat) := by
  rcases timestamp_bounds hts with ⟨hcast, hlt⟩
  rcases hcorrect.mldsa44 seed mldsa hseed hmldsa msg with ⟨hlen, hverify⟩
  have hkid := length_keyId sha256 keys.name typeMldsa44 (mldsa.publicKey seed)
  refine ⟨⟨rfl, ?_⟩, ?_⟩
  . rw [mldsa44Raw, List.take_left' hkid]
  . have hbytes := Cbor.length_beBytes 8 timestamp.toNat
    dsimp only
    rw [mldsa44Raw, List.drop_left' hkid, checkBody, if_neg (by decide), if_neg (by decide),
      if_pos rfl, hmldsa]
    simp only [List.take_left' hbytes, List.drop_left' hbytes, Cbor.natOfBytes_beBytes _ _ hlt, hcast,
      hts, hverify, List.length_append, hbytes, hlen, hcp, Except.ok_bind, hmsg]
    simp

/--
What the lines are that the witness adds: one for each of its keys.
-/
structure Fresh (sha256 : HashFn 32) (crypto : Crypto) (keys : Keys) (ed : Scheme) (text : Str)
    (timestamp : Nat) (raws : List Bytes) : Prop where
  of_raw : ∀ raw ∈ raws, parseSigLine (signatureLine keys.name raw) = .ok (keys.name, raw) ∧
    ∃ key, OwnKey sha256 crypto keys key ∧
      Signs crypto ed text key (keys.name, raw) (some timestamp)
  of_key : ∀ key, OwnKey sha256 crypto keys key →
    ∃ raw ∈ raws, Signs crypto ed text key (keys.name, raw) (some timestamp)
  length_eq : raws.length = keys.count
  nodup : (∀ key key', OwnKey sha256 crypto keys key → OwnKey sha256 crypto keys key' →
    key.name = key'.name → key.kid = key'.kid → key = key') → (raws.map (List.take 4)).Nodup

theorem OwnLines.fresh {text : Str} {cp : Parsed} {timestamp : Int} {raws : List Bytes}
    {ed : Scheme}
    (h : OwnLines sha256 crypto keys text cp timestamp raws) (hcorrect : SignsWell crypto keys)
    (hcp : parseCheckpoint text = .ok cp) (hed : crypto.ed25519 = some ed)
    : Fresh sha256 crypto keys ed text timestamp.toNat raws := by
  rcases h.raws_eq with ⟨ed', rest, hed', rfl, hrest⟩
  rw [hed, Option.some.injEq] at hed'
  subst hed'
  have hparse : ∀ (raw : Bytes) (n : Nat), raw.length = n → 5 ≤ n → n ≤ maxSigBytes →
      parseSigLine (signatureLine keys.name raw) = .ok (keys.name, raw) := by
    rintro raw n rfl hmin hmax
    exact parseSigLine_signatureLine h.name_ok hmin hmax
  have hedlen := length_cosigRaw sha256 keys.name timestamp.toNat text
    fun msg => (hcorrect.ed25519 ed hed msg).1
  have hedparse := hparse _ _ hedlen (by decide) (by decide)
  have hedsigns := signs_cosigRaw sha256 hcorrect hed hcp h.timestamp_ok
  cases hpq : keys.pqSeed with
  | none =>
    rw [hpq] at hrest
    subst hrest
    refine ⟨?_, ?_, by simp [Keys.count, hpq], by simp⟩
    . intro raw hraw
      rw [List.mem_singleton.mp hraw]
      exact ⟨hedparse, _, .ed25519 ed hed, hedsigns⟩
    . intro key hkey
      cases hkey with
      | ed25519 ed' hed' =>
        rw [hed, Option.some.injEq] at hed'
        subst hed'
        exact ⟨_, List.mem_singleton_self _, hedsigns⟩
      | mldsa44 seed mldsa hseed => simp [hpq] at hseed
  | some seed =>
    rw [hpq] at hrest
    rcases hrest with ⟨mldsa, msg, hmldsa, hmsg, rfl⟩
    have hpqlen := length_mldsa44Raw sha256 keys.name timestamp.toNat msg
      fun msg => (hcorrect.mldsa44 seed mldsa hpq hmldsa msg).1
    have hpqparse := hparse _ _ hpqlen (by decide) (by decide)
    have hpqsigns := signs_mldsa44Raw sha256 ed hcorrect hpq hmldsa hcp h.timestamp_ok hmsg
    refine ⟨?_, ?_, by simp [Keys.count, hpq], ?_⟩
    . intro raw hraw
      rcases List.mem_pair.mp hraw with rfl | rfl
      . exact ⟨hedparse, _, .ed25519 ed hed, hedsigns⟩
      . exact ⟨hpqparse, _, .mldsa44 seed mldsa hpq hmldsa, hpqsigns⟩
    . intro key hkey
      cases hkey with
      | ed25519 ed' hed' =>
        rw [hed, Option.some.injEq] at hed'
        subst hed'
        exact ⟨_, List.mem_cons_self, hedsigns⟩
      | mldsa44 seed' mldsa' hseed hmldsa' =>
        rw [hpq, Option.some.injEq] at hseed
        rw [hmldsa, Option.some.injEq] at hmldsa'
        subst hseed hmldsa'
        exact ⟨_, List.mem_cons_of_mem _ List.mem_cons_self, hpqsigns⟩
    . -- equal ids would be a clash of keys of two types
      intro hclash
      rw [List.map_cons, List.map_cons, List.map_nil, List.nodup_cons, List.mem_singleton]
      refine ⟨fun heq => ?_, List.nodup_singleton _⟩
      have hkid := (hedsigns.1.2.trans heq).trans hpqsigns.1.2.symm
      have hsame := congrArg VKey.typ
        (hclash _ _ (.ed25519 ed hed) (.mldsa44 seed mldsa hpq hmldsa) rfl hkid)
      exact absurd hsame (by simp [typeCosigV1, typeMldsa44])

/-!
### Notes that are cosigned
-/

/--
A note that is returned as cosigned is the one presented, with the lines of the witness put in place
of its older ones.
-/
theorem exists_cosignNote_of_cosigned {host : Host} {files : Files} {r : Request} {out : Out}
    {note : Bytes} (h : (witnessCosign sha256 crypto keys host files r).2 = .ok out)
    (hcosigned : out.outcome = .cosigned) (hnote : out.note = some note)
    : ∃ p logKeys lines own timestamp added,
        Accepted sha256 crypto keys r p logKeys lines own ∧
          cosignNote sha256 crypto keys p timestamp = .ok (note, added) := by
  unfold witnessCosign at h
  split at h
  . simp at h
  . next out' hpresent =>
    rw [Except.ok.injEq] at h
    rw [outcome_of_present (by rw [hpresent, h])] at hcosigned
    simp at hcosigned
  . next p hpresent =>
    rcases accepted_of_present hpresent with ⟨logKeys, lines, own, haccepted⟩
    split at h
    . simp at h
    . rcases commit_cases host files (cosignLocked sha256 crypto keys host files p r) with
        ⟨e, he, _⟩ | ⟨out', hresult, heq⟩
      . rw [he] at h
        simp at h
      . rw [heq, Except.ok.injEq] at h
        subst h
        rcases cosignLocked_cases sha256 crypto keys host files p r with
          ⟨e, hplan⟩ | ⟨out', d, status, reason, _, hplan, hout⟩ |
            ⟨out', d, timestamp, _, _, _, hplan, _⟩
        . rw [hplan] at hresult
          simp [Plan.raise] at hresult
        . rw [hplan] at hresult
          simp only [Plan.refuse, Except.ok.injEq] at hresult
          rw [← hresult] at hcosigned
          simp [Out.refuse, hout, haccepted.out_eq, Out.start] at hcosigned
        . rw [hplan] at hresult
          unfold Plan.sign at hresult
          split at hresult
          . simp at hresult
          . next cosigned added hcosign =>
            simp only [Except.ok.injEq] at hresult
            rw [← hresult, Option.some.injEq] at hnote
            subst hnote
            exact ⟨p, logKeys, lines, own, timestamp, added, haccepted, hcosign⟩

/--
The lines that are kept, and the new ones.
-/
theorem Accepted.isNote_cosigned {r : Request} {p : Presented} {logKeys : List VKey}
    {lines : List Str} {own : List Bytes} {ed : Scheme} {timestamp : Nat} {raws : List Bytes}
    (h : Accepted sha256 crypto keys r p logKeys lines own)
    (hfresh : Fresh sha256 crypto keys ed p.text timestamp raws) (hne : raws ≠ [])
    : ∃ sigs kept, IsNote r.note p.text lines sigs ∧
        IsNote (utf8 (render p.text (p.kept ++ ownLines keys raws))) p.text
          (p.kept ++ ownLines keys raws) (kept ++ raws.map fun raw => (keys.name, raw)) ∧
        ∀ sig, sig ∈ kept ↔ sig ∈ sigs ∧ ¬(sig.1 = keys.name ∧ sig.2.take 4 ∈ own) := by
  rcases h.lines_eq with ⟨sigs, hnote, _⟩
  have hparse : ∀ line ∈ p.kept, ∃ sig, parseSigLine line = .ok sig := by
    intro line hline
    rcases h.mem_kept_iff.mp hline with ⟨_, sig, hsig, _⟩
    exact ⟨sig, hsig⟩
  rcases exists_sigs hparse with ⟨kept, hkept⟩
  have hown : List.Forall₂ (fun line sig => parseSigLine line = .ok sig) (ownLines keys raws)
      (raws.map fun raw => (keys.name, raw)) := by
    rw [ownLines, List.forall₂_map_left_iff, List.forall₂_map_right_iff, List.forall₂_same]
    exact fun raw hraw => (hfresh.of_raw raw hraw).1
  have hroom := h.room
  refine ⟨sigs, kept, hnote, hnote.with_lines ?_ (List.rel_append hkept hown) ?_ ?_, fun sig => ?_⟩
  . intro line hline
    rcases List.mem_append.mp hline with hline | hline
    . exact (h.lines_plain line (h.mem_kept_iff.mp hline).1).2
    . rcases List.mem_map.mp hline with ⟨raw, _, rfl⟩
      exact scalar_signatureLine keys.name_scalar raw
  . simp [ownLines, hne]
  . rw [List.length_append, ownLines, List.length_map, hfresh.length_eq]
    exact hroom
  . rw [mem_sigs_iff hkept, mem_sigs_iff hnote.lines_eq]
    constructor
    . rintro ⟨line, hline, hsig⟩
      rcases h.mem_kept_iff.mp hline with ⟨hold, sig', hsig', hother⟩
      rw [hsig, Except.ok.injEq] at hsig'
      exact ⟨⟨line, hold, hsig⟩, hsig' ▸ hother⟩
    . rintro ⟨⟨line, hline, hsig⟩, hother⟩
      exact ⟨line, h.mem_kept_iff.mpr ⟨hline, sig, hsig, hother⟩, hsig⟩

/--
The name and the key id of a signature line.
-/
def idOf (sig : Str × Bytes) : Str × Bytes := (sig.1, sig.2.take 4)

variable (sha256 crypto keys) in
/--
Of the lines of a note those of the log are kept, and those of the trusted keys of the witness are
replaced by lines that verify.
-/
structure Takes (witnessVkeys : List Str) (ed : Scheme) (text : Str) (timestamp : Nat)
    (sigs sigs' : List (Str × Bytes)) : Prop where
  of_mem : ∀ sig ∈ sigs',
    (sig ∈ sigs ∧ ∀ v ∈ witnessVkeys, ∀ key, parseVkey sha256 false v = .ok key → ¬LineOf sig key) ∨
      ∃ key, OwnKey sha256 crypto keys key ∧ Signs crypto ed text key sig (some timestamp)
  keeps : ∀ sig ∈ sigs, (∀ key, OwnKey sha256 crypto keys key → ¬LineOf sig key) → sig ∈ sigs'
  signed : ∃ sig ∈ sigs', ∃ v ∈ witnessVkeys, ∃ key, parseVkey sha256 false v = .ok key ∧
    OwnKey sha256 crypto keys key ∧ Signs crypto ed text key sig (some timestamp)

theorem Opened.mem_logKeys {note : Bytes} {vkeys : List Str} {logKeys : List VKey} {text : Str}
    {lines : List Str} {cp : Parsed} (h : Opened sha256 crypto note vkeys logKeys text lines cp)
    {key : VKey} : key ∈ logKeys ↔ ∃ v ∈ vkeys, parseVkey sha256 true v = .ok key := by
  have hkeys := checkLogKeys_eq_ok.mp h.logKeys_eq
  constructor
  . intro hkey
    rcases List.exists_of_mem_right hkeys hkey with ⟨v, hv, hparse, _⟩
    exact ⟨v, hv, hparse⟩
  . rintro ⟨v, hv, hparse⟩
    rcases List.exists_of_mem_left hkeys hv with ⟨key', hmem, hparse', _⟩
    rw [hparse, Except.ok.injEq] at hparse'
    exact hparse' ▸ hmem

theorem Opened.typ_mem {note : Bytes} {vkeys : List Str} {logKeys : List VKey} {text : Str}
    {lines : List Str} {cp : Parsed} (h : Opened sha256 crypto note vkeys logKeys text lines cp)
    {key : VKey} (hkey : key ∈ logKeys) : key.typ ∈ logKeyTypes := by
  rcases List.exists_of_mem_right (checkLogKeys_eq_ok.mp h.logKeys_eq) hkey with ⟨_, _, _, htyp⟩
  exact htyp

/--
A note of a log with such lines is good for a party that requires one witness.
-/
theorem Opened.satisfied (clock : Int) (now : Option Int) {skew : Int} {r : Request} {note : Bytes}
    {witnessVkeys : List Str} {expectedOrigin : Option Str} {logKeys : List VKey} {text : Str}
    {cp : Parsed} {ed : Scheme} {timestamp : Nat} {lines lines' : List Str}
    {sigs sigs' : List (Str × Bytes)}
    (hopened : Opened sha256 crypto r.note r.logVkeys logKeys text lines cp)
    (hed : crypto.ed25519 = some ed) (hold : IsNote r.note text lines sigs)
    (hnew : IsNote note text lines' sigs')
    (htakes : Takes sha256 crypto keys witnessVkeys ed text timestamp sigs sigs')
    (hrelies : Relies sha256 crypto keys r witnessVkeys) (hskew : 0 ≤ skew)
    (horigin : expectedOrigin = some cp.origin ∨ expectedOrigin = none ∧
      ∀ v ∈ r.logVkeys, ∀ key, parseVkey sha256 true v = .ok key → key.name = cp.origin)
    : Satisfied sha256 crypto clock note r.logVkeys witnessVkeys
        ⟨1, none, now, skew, expectedOrigin⟩ := by
  rcases hopened.verified with ⟨known, ignored, ed', hknown, hed', hharmless, line, hline, hby⟩
  rw [hed, Option.some.injEq] at hed'
  subst hed'
  have hget : ∀ key, known.get? (key.name, key.kid) = some (key.typ, key.pub) ↔ key ∈ logKeys :=
    fun key => mem_logKeys_iff hopened.logKeys_eq hknown
  have htrusted : ∀ key, key ∈ logKeys → Trusted sha256 r.logVkeys witnessVkeys key :=
    fun key hkey => Or.inl (hopened.mem_logKeys.mp hkey)
  have hsame : ∀ sig key key', LineOf sig key → LineOf sig key' →
      Trusted sha256 r.logVkeys witnessVkeys key ∨ OwnKey sha256 crypto keys key →
      OwnKey sha256 crypto keys key' → key = key' :=
    fun sig key key' hkey hkey' h h' => hrelies.no_clash key key' h (Or.inr h')
      (hkey.1.trans hkey'.1.symm) (hkey.2.trans hkey'.2.symm)
  refine (satisfied_note_iff hnew).mpr ⟨cp.origin, ?_, ed, hed, ?_⟩
  . exact {
      minWitnesses_pos := Int.le_refl 1
      clockSkew_nonneg := hskew
      logVkeys_ne_nil := by
        rcases hby with ⟨sig, s, _, typ, pub, t, hsome, _⟩
        rcases hopened.mem_logKeys.mp ((hget ⟨sig.1, sig.2.take 4, typ, pub⟩).mp hsome) with ⟨v, hv, _⟩
        exact List.ne_nil_of_mem hv
      log_keys := by
        intro v hv
        rcases List.exists_of_mem_left (checkLogKeys_eq_ok.mp hopened.logKeys_eq) hv with
          ⟨key, _, hkey⟩
        exact ⟨key, hkey⟩
      witness_keys := by
        intro v hv
        rcases hrelies.own v hv with ⟨key, hparse, hkey⟩
        exact ⟨key, hparse, fun htyp => not_witness_of_log htyp hkey.typ_mem⟩
      origin_eq := horigin
      no_clash := fun key key' h h' => hrelies.no_clash key key' (Or.inl h) (Or.inl h') }
  . exact {
      trusted_verify := by
        intro sig hsig key hkey hlineOf
        rcases htakes.of_mem sig hsig with ⟨hsig, hother⟩ | ⟨key', hkey', hsigns⟩
        . rcases hkey with hkey | ⟨v, hv, hparse, _⟩
          . rcases (mem_sigs_iff hold.lines_eq).mp hsig with ⟨line', hline', hparse⟩
            have hsome := (hget key).mpr (hopened.mem_logKeys.mpr hkey)
            rw [hlineOf.1, hlineOf.2] at hsome
            rcases hharmless line' hline' sig hparse with hnone | ⟨s, typ, pub, t, hsome', hgood, _⟩
            . simp [hsome] at hnone
            . rw [hsome, Option.some.injEq, Prod.mk.injEq] at hsome'
              refine ⟨t, hlineOf, ?_⟩
              rw [hlineOf.1, hsome'.1, hsome'.2]
              exact hgood
          . exact absurd hlineOf (hother v hv key hparse)
        . rw [hsame _ key key' hlineOf hsigns.1 (Or.inl hkey) hkey']
          exact ⟨_, hsigns⟩
      log_line := by
        rcases hby with ⟨sig, s, hparse, typ, pub, t, hsome, hgood, _⟩
        have hmem := (hget ⟨sig.1, sig.2.take 4, typ, pub⟩).mp hsome
        refine ⟨sig, htakes.keeps sig ((mem_sigs_iff hold.lines_eq).mpr ⟨line, hline, hparse⟩) ?_, _,
          htrusted _ hmem, hopened.typ_mem hmem, t, ⟨rfl, rfl⟩, hgood⟩
        -- a key of a log and a key of the witness with one id would be a clash
        intro key' hkey' hlineOf
        have htyp := hopened.typ_mem hmem
        rw [hsame sig _ key' ⟨rfl, rfl⟩ hlineOf (Or.inl (htrusted _ hmem)) hkey'] at htyp
        exact not_witness_of_log htyp hkey'.typ_mem
      checkpoint := ⟨cp, hopened.parse_eq, rfl⟩
      witnesses := by
        rcases htakes.signed with ⟨sig, hsig, v, hv, key, hparse, hkey, hsigns⟩
        refine ⟨[keys.name], List.nodup_singleton _, by simp, fun name hname => ?_⟩
        rw [List.mem_singleton.mp hname]
        exact ⟨_, sig, hsig, key, Or.inr ⟨v, hv, hparse, hkey.typ_mem⟩, hkey.typ_mem, hkey.name_eq,
          hsigns⟩
      fresh := by simp }

/--
The origin is one that a party with these log keys expects.
-/
theorem Accepted.origin_expected {r : Request} {p : Presented} {logKeys : List VKey}
    {lines : List Str} {own : List Bytes} (h : Accepted sha256 crypto keys r p logKeys lines own)
    : r.expectedOrigin = some p.cp.origin ∨ r.expectedOrigin = none ∧
        ∀ v ∈ r.logVkeys, ∀ key, parseVkey sha256 true v = .ok key → key.name = p.cp.origin := by
  have horigin := h.origin_eq
  cases hexpected : r.expectedOrigin with
  | some origin =>
    rw [hexpected, Option.getD_some] at horigin
    exact Or.inl (by rw [horigin])
  | none =>
    rw [hexpected, Option.getD_none] at horigin
    rcases List.length_eq_one_iff.mp (h.names_eq (by rw [hexpected]; rfl)) with ⟨name, hnames⟩
    refine Or.inr ⟨rfl, fun v hv key hparse => ?_⟩
    have hname : key.name ∈ (logKeys.map VKey.name).dedup :=
      List.mem_dedup.mpr (List.mem_map_of_mem (h.opened.mem_logKeys.mpr ⟨v, hv, hparse⟩))
    rw [hnames, List.mem_singleton] at hname
    rw [horigin, hname, hnames]
    rfl

theorem Accepted.own_iff {r : Request} {p : Presented} {logKeys : List VKey} {lines : List Str}
    {own : List Bytes} (h : Accepted sha256 crypto keys r p logKeys lines own) (sig : Str × Bytes)
    : sig.1 = keys.name ∧ sig.2.take 4 ∈ own ↔
        ∃ key, OwnKey sha256 crypto keys key ∧ LineOf sig key := by
  rw [mem_ownKids_iff h.own_eq]
  constructor
  . rintro ⟨hname, key, hkey, hkid⟩
    exact ⟨key, hkey, hkey.name_eq.trans hname.symm, hkid⟩
  . rintro ⟨key, hkey, hname, hkid⟩
    exact ⟨hname.symm.trans hkey.name_eq, key, hkey, hkid⟩

/--
What the witness has cosigned is good for a relying party that requires one witness and knows this
one. The text is that of the log, and there is one line of each key of the witness.
-/
theorem cosigned_relied {clock skew : Int} {now : Option Int} {host : Host} {files : Files}
    {r : Request} {out : Out} {note : Bytes} {witnessVkeys : List Str}
    (hcosign : (witnessCosign sha256 crypto keys host files r).2 = .ok out)
    (hcosigned : out.outcome = .cosigned) (hout : out.note = some note)
    (hrelies : Relies sha256 crypto keys r witnessVkeys) (hcorrect : SignsWell crypto keys)
    (hskew : 0 ≤ skew)
    : Satisfied sha256 crypto clock note r.logVkeys witnessVkeys
          ⟨1, none, now, skew, r.expectedOrigin⟩ ∧
        ∃ text lines sigs lines' sigs', IsNote r.note text lines sigs ∧
          IsNote note text lines' sigs' ∧
          (∀ sig, (∀ key, OwnKey sha256 crypto keys key → ¬LineOf sig key) →
            (sig ∈ sigs' ↔ sig ∈ sigs)) ∧
          ∀ key, OwnKey sha256 crypto keys key →
            (sigs'.map idOf).count (key.name, key.kid) = 1 := by
  rcases exists_cosignNote_of_cosigned hcosign hcosigned hout with
    ⟨p, logKeys, lines, own, timestamp, added, haccepted, hnote⟩
  rcases haccepted.cosignNote_eq_ok hnote with ⟨raws, hown, rfl, _⟩
  rcases hown.raws_eq with ⟨ed, _, hed, hraws, _⟩
  have hfresh := hown.fresh hcorrect haccepted.opened.parse_eq hed
  rcases haccepted.isNote_cosigned hfresh (by simp [hraws]) with ⟨sigs, kept, hold, hnew, hkept⟩
  have htakes : Takes sha256 crypto keys witnessVkeys ed p.text timestamp.toNat sigs
      (kept ++ raws.map fun raw => (keys.name, raw)) := {
    of_mem := by
      intro sig hsig
      rcases List.mem_append.mp hsig with hsig | hsig
      . rcases (hkept sig).mp hsig with ⟨hsig, hother⟩
        refine Or.inl ⟨hsig, fun v hv key hparse hlineOf => ?_⟩
        rcases hrelies.own v hv with ⟨key', hparse', hkey'⟩
        rw [hparse, Except.ok.injEq] at hparse'
        exact hother ((haccepted.own_iff sig).mpr ⟨key, hparse' ▸ hkey', hlineOf⟩)
      . rcases List.mem_map.mp hsig with ⟨raw, hraw, rfl⟩
        exact Or.inr (hfresh.of_raw raw hraw).2
    keeps := by
      intro sig hsig hnone
      refine List.mem_append_left _ ((hkept sig).mpr ⟨hsig, fun hmine => ?_⟩)
      rcases (haccepted.own_iff sig).mp hmine with ⟨key, hkey, hlineOf⟩
      exact hnone key hkey hlineOf
    signed := by
      rcases List.exists_mem_of_ne_nil _ hrelies.ne_nil with ⟨v, hv⟩
      rcases hrelies.own v hv with ⟨key, hparse, hkey⟩
      rcases hfresh.of_key key hkey with ⟨raw, hraw, hsigns⟩
      exact ⟨_, List.mem_append_right _ (List.mem_map_of_mem hraw), v, hv, key, hparse, hkey, hsigns⟩ }
  refine ⟨haccepted.opened.satisfied _ _ hed hold hnew htakes hrelies hskew
      haccepted.origin_expected,
    p.text, lines, sigs, _, _, hold, hnew, ?_, ?_⟩
  . intro sig hnone
    refine ⟨fun hsig => ?_, fun hsig => htakes.keeps sig hsig hnone⟩
    rcases List.mem_append.mp hsig with h | h
    . exact ((hkept sig).mp h).1
    . rcases List.mem_map.mp h with ⟨raw, hraw, rfl⟩
      rcases (hfresh.of_raw raw hraw).2 with ⟨key, hkey, hsigns⟩
      exact absurd hsigns.1 (hnone key hkey)
  . intro key hkey
    have hzero : (kept.map idOf).count (key.name, key.kid) = 0 := by
      rw [List.count_eq_zero]
      intro hmem
      rcases List.mem_map.mp hmem with ⟨sig, hsig, hid⟩
      simp only [idOf, Prod.mk.injEq] at hid
      exact ((hkept sig).mp hsig).2
        ((haccepted.own_iff sig).mpr ⟨key, hkey, hid.1.symm, hid.2.symm⟩)
    have hone : ((raws.map fun raw => (keys.name, raw)).map idOf).count (key.name, key.kid) = 1 := by
      rcases hfresh.of_key key hkey with ⟨raw, hraw, hsigns⟩
      have hids : (raws.map fun raw => (keys.name, raw)).map idOf =
          (raws.map (List.take 4)).map (Prod.mk keys.name) := by
        simp [idOf]
      have hnodup := hfresh.nodup fun key key' h h' =>
        hrelies.no_clash key key' (Or.inr h) (Or.inr h')
      rw [hids]
      refine List.count_eq_one_of_mem (hnodup.map (Prod.mk_right_injective _)) ?_
      rw [hkey.name_eq, hsigns.1.2]
      exact List.mem_map_of_mem (List.mem_map_of_mem hraw)
    rw [List.map_append, List.count_append, hzero, hone]

end

/-!
### A witness and a party that relies on it
-/

theorem length_exampleWitnessKey : exampleWitnessKey.length = 32 := by
  decide +kernel

def exampleWitness : VKey :=
  ⟨exampleKeys.name, keyId sha256 exampleKeys.name typeCosigV1 exampleWitnessKey, typeCosigV1,
    exampleWitnessKey⟩

theorem ownKey_example {key : VKey}
    : OwnKey sha256 exampleCrypto exampleKeys key ↔ key = exampleWitness := by
  have hpub : exampleScheme.publicKey exampleKeys.seed = exampleWitnessKey := by
    simp only [exampleScheme]
  have hed : exampleCrypto.ed25519 = some exampleScheme := by simp only [exampleCrypto]
  constructor
  . intro h
    cases h with
    | ed25519 ed hed' =>
      rw [hed, Option.some.injEq] at hed'
      rw [← hed', hpub, exampleWitness]
    | mldsa44 seed mldsa hseed => simp [exampleKeys] at hseed
  . rintro rfl
    have h : OwnKey sha256 exampleCrypto exampleKeys _ := OwnKey.ed25519 exampleScheme hed
    rw [hpub] at h
    exact h

theorem signsWell_example : SignsWell exampleCrypto exampleKeys where
  ed25519 := by
    intro ed hed msg
    simp only [exampleCrypto, Option.some.injEq] at hed
    subst hed
    exact ⟨length_exampleSign msg, by simp [exampleScheme]⟩
  mldsa44 := by simp [exampleKeys]

theorem parseVkey_exampleLog (strict : Bool)
    : parseVkey sha256 strict exampleLogVkey = .ok exampleVKey :=
  parseVkey_vkey strict vkey_example (by decide)

theorem vkey_exampleWitness {pub : Bytes} (hpub : pub.length = 32)
    : vkey sha256 exampleKeys.name typeCosigV1 pub = .ok (exampleWitnessVkey pub) :=
  vkey_eq_ok.mpr ⟨by decide, exampleKeys.name_scalar, by decide, Or.inl ⟨Or.inr rfl, hpub⟩, rfl⟩

theorem parseVkey_exampleWitness (strict : Bool)
    : parseVkey sha256 strict (exampleWitnessVkey exampleWitnessKey) = .ok exampleWitness := by
  have hne : exampleWitnessKey ≠ [] := by
    intro h
    simpa [h] using length_exampleWitnessKey
  exact parseVkey_vkey strict (vkey_exampleWitness length_exampleWitnessKey) hne

theorem relies_example {r : Request} (hvkeys : r.logVkeys = [exampleLogVkey])
    : Relies sha256 exampleCrypto exampleKeys r [exampleWitnessVkey exampleWitnessKey] where
  ne_nil := by simp
  own := by
    intro v hv
    rw [List.mem_singleton.mp hv]
    exact ⟨_, parseVkey_exampleWitness false, ownKey_example.mpr rfl⟩
  no_clash := by
    have hcase : ∀ key, Trusted sha256 r.logVkeys [exampleWitnessVkey exampleWitnessKey] key ∨
        OwnKey sha256 exampleCrypto exampleKeys key → key = exampleVKey ∨ key = exampleWitness := by
      rintro key ((⟨v, hv, hparse⟩ | ⟨v, hv, hparse, _⟩) | hkey)
      . rw [hvkeys] at hv
        rw [List.mem_singleton.mp hv, parseVkey_exampleLog, Except.ok.injEq] at hparse
        exact Or.inl hparse.symm
      . rw [List.mem_singleton.mp hv, parseVkey_exampleWitness, Except.ok.injEq] at hparse
        exact Or.inr hparse.symm
      . exact Or.inr (ownKey_example.mp hkey)
    have hname : exampleVKey.name ≠ exampleWitness.name := by
      have h : exampleName ≠ exampleKeys.name := by decide
      exact h
    intro key key' h h' heq _
    rcases hcase key h with rfl | rfl <;> rcases hcase key' h' with rfl | rfl
    . rfl
    . exact absurd heq hname
    . exact absurd heq.symm hname
    . rfl

theorem cosigned_relied_example
    : ∃ note, Satisfied sha256 exampleCrypto 0 note [exampleLogVkey]
        [exampleWitnessVkey exampleWitnessKey] examplePolicy := by
  have hgranted := granted_exampleFirst
  unfold granted at hgranted
  split at hgranted
  . simp at hgranted
  . next out hout =>
    split at hgranted
    . next hcosigned =>
      cases hnote : out.note with
      | none => simp [hnote] at hgranted
      | some note =>
        exact ⟨note, (cosigned_relied hout hcosigned hnote (relies_example rfl) signsWell_example
          (Int.le_refl 0)).1⟩
    . simp at hgranted

end Witness
end CryptoValid
