import CryptoValid.Witness.Relied

/-!
This module contains what the evidence of the witness is worth. A note that it keeps may be paired
much later, by another request; what is shown is where every note comes from: a request has presented
it, and it opens under the log keys of that request.
-/

namespace CryptoValid
namespace Witness

open Checkpoint

section

variable (sha256 : HashFn 32) (crypto : Crypto)

/--
The origin that the log keys of the request are trusted for.
-/
def TrustedFor (r : Request) (origin : Str) : Prop :=
  ∃ logKeys, checkLogKeys sha256 r.logVkeys = .ok logKeys ∧
    origin = r.expectedOrigin.getD ((logKeys.map VKey.name).dedup.headD [])

/--
The note opens under the log keys of one of the requests, over a checkpoint of their origin.
-/
def Vouched (calls : List Call) (note : Str) (cp : Parsed) : Prop :=
  ∃ call ∈ calls, Opens sha256 crypto (utf8 note) call.request.logVkeys cp ∧
    TrustedFor sha256 call.request cp.origin

def VouchedAt (calls : List Call) (origin : Str) (size : Nat) (root note : Str) : Prop :=
  ∃ cp, Vouched sha256 crypto calls note cp ∧ cp.origin = origin ∧ cp.size = size ∧
    Base64.encode cp.root = root

/--
Both notes of the record are good, and their checkpoints differ in the root alone.
-/
def Evidence.Proves (calls : List Call) (e : Evidence) : Prop :=
  ∃ note a b, e.precedente = some note ∧ Vouched sha256 crypto calls note a ∧
    Vouched sha256 crypto calls e.presentato b ∧ a.origin = e.origin ∧ b.origin = e.origin ∧
    a.size = e.sizePrecedente ∧ b.size = e.sizePresentato ∧ a.size = b.size ∧ a.root ≠ b.root

/--
No log key of the request has the name and the id of a key of the witness.
-/
def Apart (keys : Keys) (r : Request) : Prop :=
  ∀ v ∈ r.logVkeys, ∀ key, parseVkey sha256 true v = .ok key →
    ∀ key', OwnKey sha256 crypto keys key' → ¬(key.name = key'.name ∧ key.kid = key'.kid)

/--
Where the notes in the files come from, and those of the records.
-/
structure Sourced (calls : List Call) (files : Files) : Prop where
  stored : ∀ origin e, files.load.origins.get? origin = some e →
    VouchedAt sha256 crypto calls origin e.size e.rootB64 e.note
  pending : ∀ origin size root note, (files.load.pendingOf origin).Has size root (some note) →
    VouchedAt sha256 crypto calls origin size root note
  cosigned : ∀ r ∈ files.cosigned, VouchedAt sha256 crypto calls r.origin r.size r.rootB64 r.note
  evidence : ∀ e ∈ files.evidence, e.kind = .splitView → e.Proves sha256 crypto calls

/--
The same, of a draft for a request of `origin`.
-/
structure SourcedDraft (calls : List Call) (origin : Str) (st : State) (d : Draft) : Prop where
  records : ∀ e ∈ d.records, e.kind = .splitView → e.Proves sha256 crypto calls
  pending : ∀ size root note, (d.st.pendingOf origin).Has size root (some note) →
    VouchedAt sha256 crypto calls origin size root note
  others : ∀ other ≠ origin, d.st.pendingOf other = st.pendingOf other

end

section

variable {sha256 : HashFn 32} {crypto : Crypto} {keys : Keys} {calls : List Call}

/-!
### Notes that a request leaves behind
-/

section

variable {r : Request} {p : Presented} {logKeys : List VKey} {lines : List Str} {own : List Bytes}

theorem Accepted.length_trustedLines (h : Accepted sha256 crypto keys r p logKeys lines own)
    {lines' : List Str} (hsub : ∀ line ∈ p.trustedLines, line ∈ lines')
    : p.trustedLines.length ≤ lines'.length := by
  have hnodup : p.trustedLines.Nodup := by
    rcases h.lines_eq with ⟨sigs, _, _, htrusted⟩
    rw [htrusted]
    exact nodup_trustedLines logKeys (lines.zip sigs)
  exact (List.subperm_of_subset hnodup hsub).length_le

/--
Nothing but lines of log keys are kept.
-/
theorem Accepted.opens_presentato (h : Accepted sha256 crypto keys r p logKeys lines own)
    : Opens sha256 crypto (utf8 (render p.text p.trustedLines)) r.logVkeys p.cp := by
  rcases h.lines_eq with ⟨sigs, hnote, _⟩
  have hold : ∀ line ∈ p.trustedLines, line ∈ lines :=
    fun line hline => (h.mem_trustedLines_iff.mp hline).1
  have hlen := h.length_trustedLines hold
  have hmax := hnote.length_le
  refine opens_iff.mpr ⟨logKeys, p.text, p.trustedLines, h.opened.with_lines ?_ ?_ ?_ (by omega)⟩
  . exact fun line hline => (h.lines_plain line (hold line hline)).2
  . exact fun line hline => Or.inl (hold line hline)
  . exact fun line hline hnot => h.mem_trustedLines_iff.mpr ⟨hline, hnot⟩

/--
The lines of the witness after them change nothing for a log.
-/
theorem Accepted.opens_stored {ed : Scheme} {timestamp : Nat} {raws : List Bytes}
    (h : Accepted sha256 crypto keys r p logKeys lines own) (hapart : Apart sha256 crypto keys r)
    (hfresh : Fresh sha256 crypto keys ed p.text timestamp raws)
    : Opens sha256 crypto (utf8 (render p.text (p.trustedLines ++ ownLines keys raws))) r.logVkeys
        p.cp := by
  have hkeys := checkLogKeys_eq_ok.mp h.opened.logKeys_eq
  have hother : ∀ key ∈ logKeys, ∀ key', OwnKey sha256 crypto keys key' →
      ¬(key.name = key'.name ∧ key.kid = key'.kid) := by
    intro key hkey
    rcases List.exists_of_mem_right hkeys hkey with ⟨v, hv, hparse, _⟩
    exact hapart v hv key hparse
  have hforeign : ∀ line ∈ ownLines keys raws, Foreign logKeys line := by
    intro line hline
    rcases List.mem_map.mp hline with ⟨raw, hraw, rfl⟩
    rcases hfresh.of_raw raw hraw with ⟨hparse, key', hkey', hsigns⟩
    refine ⟨_, hparse, fun key hkey heq => ?_⟩
    simp only [Prod.mk.injEq] at heq
    exact hother key hkey key' hkey'
      ⟨heq.1.trans hsigns.1.1.symm, heq.2.trans hsigns.1.2.symm⟩
  have hkept : ∀ line ∈ p.trustedLines, line ∈ p.kept := by
    intro line hline
    rcases h.mem_trustedLines_iff.mp hline with ⟨hold, hnot⟩
    rcases h.lines_eq with ⟨sigs, hnote, _⟩
    rcases List.exists_of_mem_left hnote.lines_eq hold with ⟨sig, _, hparse⟩
    refine h.mem_kept_iff.mpr ⟨hold, sig, hparse, fun hmine => hnot ⟨sig, hparse, ?_⟩⟩
    rcases (mem_ownKids_iff h.own_eq).mp hmine.2 with ⟨key', hkey', hkid⟩
    intro key hkey heq
    simp only [Prod.mk.injEq] at heq
    exact hother key hkey key' hkey'
      ⟨heq.1.trans (hmine.1.trans hkey'.name_eq.symm), heq.2.trans hkid.symm⟩
  have hold : ∀ line ∈ p.trustedLines, line ∈ lines :=
    fun line hline => (h.mem_trustedLines_iff.mp hline).1
  have hlen := h.length_trustedLines hkept
  have hroom := h.room
  refine opens_iff.mpr ⟨logKeys, p.text, _, h.opened.with_lines ?_ ?_ ?_ ?_⟩
  . intro line hline
    rcases List.mem_append.mp hline with hline | hline
    . exact (h.lines_plain line (hold line hline)).2
    . rcases List.mem_map.mp hline with ⟨raw, _, rfl⟩
      exact scalar_signatureLine keys.name_scalar raw
  . intro line hline
    rcases List.mem_append.mp hline with hline | hline
    . exact Or.inl (hold line hline)
    . exact Or.inr (hforeign line hline)
  . intro line hline hnot
    exact List.mem_append_left _ (h.mem_trustedLines_iff.mpr ⟨hline, hnot⟩)
  . rw [List.length_append, ownLines, List.length_map, hfresh.length_eq]
    omega

end

/-!
### Drafts
-/

section

variable {c : Ctx} {files : Files}

/--
A pair that is put down has two good notes, or it is half a record.
-/
theorem proves_pair (hsourced : Sourced sha256 crypto calls files)
    (hpresented : Vouched sha256 crypto calls c.presentato c.cp)
    (hprev : c.prev = files.load.origins.get? c.cp.origin) (hcosigned : c.cosigned = files.cosigned)
    {d : Draft} (hd : SourcedDraft sha256 crypto calls c.cp.origin files.load d) {root : Str}
    {note : Option Str} (hne : root ≠ c.rootB64) (hknows : c.Knows d.st root note)
    (hkind : (c.pair note root).kind = .splitView)
    : (c.pair note root).Proves sha256 crypto calls := by
  have hproves : ∀ n, VouchedAt sha256 crypto calls c.cp.origin c.cp.size root n →
      (c.pair (some n) root).Proves sha256 crypto calls := by
    rintro n ⟨a, ha, horigin, hsize, hroot⟩
    refine ⟨n, a, c.cp, rfl, ha, hpresented, horigin, rfl, hsize, rfl, hsize, fun heq => ?_⟩
    rw [heq] at hroot
    exact hne hroot.symm
  cases hknows with
  | stored prev hget hsize =>
    rw [hprev] at hget
    have hstored := hsourced.stored _ _ hget
    rw [hsize] at hstored
    exact hproves _ hstored
  | pending root note h =>
    cases note with
    | none => simp [Ctx.pair, Ctx.ev] at hkind
    | some n => exact hproves n (hd.pending _ _ _ h)
  | cosigned r hr horigin hsize =>
    rw [hcosigned] at hr
    have hline := hsourced.cosigned r hr
    rw [horigin, hsize] at hline
    exact hproves _ hline
  | refused root => simp [Ctx.pair, Ctx.ev] at hkind

theorem keeps_sourcedDraft (hsourced : Sourced sha256 crypto calls files)
    (hpresented : Vouched sha256 crypto calls c.presentato c.cp)
    (hprev : c.prev = files.load.origins.get? c.cp.origin) (hcosigned : c.cosigned = files.cosigned)
    : Keeps sha256 c (SourcedDraft sha256 crypto calls c.cp.origin files.load) where
  proof := by
    intro d root note hd hne hknows
    rcases proof_eq sha256 c d root note with h | ⟨proofsSeen, h⟩
    . rw [h]
      exact hd
    . rw [h]
      refine ⟨fun e he hkind => ?_, hd.pending, hd.others⟩
      rcases List.mem_append.mp he with he | he
      . exact hd.records e he hkind
      . rw [List.mem_singleton.mp he] at hkind ⊢
        exact proves_pair hsourced hpresented hprev hcosigned hd hne hknows hkind
  other := fun d refusals dirty evidence hd => ⟨hd.records, hd.pending, hd.others⟩
  pending := by
    intro d p hd hp
    refine ⟨hd.records, fun size root note hhas => ?_, fun other hne => ?_⟩
    . rw [State.pendingOf, Dict.get?_set_self, Option.getD_some] at hhas
      rcases hp size root (some note) hhas with hold | ⟨rfl, rfl, hsmall⟩
      . exact hd.pending size root note hold
      . unfold Ctx.small at hsmall
        split at hsmall
        . rw [Option.some.inj hsmall]
          exact ⟨c.cp, hpresented, rfl, rfl, rfl⟩
        . simp at hsmall
    . rw [State.pendingOf, Dict.get?_set, if_neg hne]
      exact hd.others other hne

end

/-!
### Requests
-/

/--
The state that a request saves.
-/
structure SourcedState (sha256 : HashFn 32) (crypto : Crypto) (calls : List Call) (st : State)
    : Prop where
  stored : ∀ origin e, st.origins.get? origin = some e →
    VouchedAt sha256 crypto calls origin e.size e.rootB64 e.note
  pending : ∀ origin size root note, (st.pendingOf origin).Has size root (some note) →
    VouchedAt sha256 crypto calls origin size root note

structure SourcedPlan (sha256 : HashFn 32) (crypto : Crypto) (calls : List Call) (plan : Plan)
    : Prop where
  records : ∀ e ∈ plan.records, e.kind = .splitView → e.Proves sha256 crypto calls
  history : ∀ r ∈ plan.history, VouchedAt sha256 crypto calls r.origin r.size r.rootB64 r.note
  save : ∀ st ∈ plan.save, SourcedState sha256 crypto calls st

theorem SourcedDraft.state {origin : Str} {files : Files} {d : Draft}
    (hsourced : Sourced sha256 crypto calls files)
    (hd : SourcedDraft sha256 crypto calls origin files.load d)
    (horigins : d.st.origins = files.load.origins) : SourcedState sha256 crypto calls d.st where
  stored := by
    rw [horigins]
    exact hsourced.stored
  pending := by
    intro other size root note hhas
    by_cases heq : other = origin
    . rw [heq] at hhas ⊢
      exact hd.pending size root note hhas
    . rw [hd.others other heq] at hhas
      exact hsourced.pending other size root note hhas

theorem sourced_cosignLocked {files : Files} {call : Call} {p : Presented} {logKeys : List VKey}
    {lines : List Str} {own : List Bytes} (hsourced : Sourced sha256 crypto calls files)
    (hcorrect : SignsWell crypto keys) (hapart : Apart sha256 crypto keys call.request)
    (hmem : call ∈ calls)
    (h : Accepted sha256 crypto keys call.request p logKeys lines own)
    : SourcedPlan sha256 crypto calls
        (cosignLocked sha256 crypto keys call.host files p call.request) := by
  have hfor : TrustedFor sha256 call.request p.cp.origin :=
    ⟨logKeys, h.opened.logKeys_eq, h.origin_eq⟩
  have hpresented : Vouched sha256 crypto calls (p.ctx call.host files call.request).presentato p.cp :=
    ⟨call, hmem, h.opens_presentato, hfor⟩
  have hkeeps : ∀ d, Reached sha256 (p.ctx call.host files call.request) files.load d →
      SourcedDraft sha256 crypto calls p.cp.origin files.load d := by
    intro d hreached
    exact hreached _ (keeps_sourcedDraft hsourced hpresented rfl rfl)
      ⟨by simp [Draft.start], fun size root note => hsourced.pending p.cp.origin size root note,
        fun _ _ => rfl⟩
  rcases cosignLocked_cases sha256 crypto keys call.host files p call.request with
    ⟨e, hplan⟩ | ⟨out, d, status, reason, hreached, hplan, _⟩ |
      ⟨out, d, timestamp, hreached, _, _, hplan, _⟩
  . rw [hplan]
    exact ⟨by simp [Plan.raise], by simp [Plan.raise], by simp [Plan.raise]⟩
  . have hd := hkeeps d hreached
    rw [hplan, Plan.refuse]
    refine ⟨hd.records, by simp, fun st hst => ?_⟩
    simp only [Option.mem_def, Option.ite_none_right_eq_some, Option.some.injEq] at hst
    rw [← hst.2]
    exact hd.state hsourced (origins_of_reached hreached)
  . have hd := hkeeps d hreached
    have hstate := hd.state hsourced (origins_of_reached hreached)
    rw [hplan]
    unfold Plan.sign
    split
    . exact ⟨hd.records, by simp, by simp⟩
    . next cosigned added hcosign =>
      rcases h.cosignNote_eq_ok hcosign with ⟨raws, hown, _, hadded⟩
      rcases hown.raws_eq with ⟨ed, _, hed, _⟩
      have hfresh := hown.fresh hcorrect h.opened.parse_eq hed
      have hnote : (p.ctx call.host files call.request).presentato ++
          (Utf8.decode? added).getD [] = render p.text (p.trustedLines ++ ownLines keys raws) := by
        have hscalar : Str.Scalar (Separated.terminated newline (ownLines keys raws)) :=
          scalar_terminated fun line hline => (ownLines_plain hown line hline).2
        rw [hadded, decode?_utf8 hscalar, Option.getD_some, ← render_append]
        rfl
      have hstored : VouchedAt sha256 crypto calls p.cp.origin p.cp.size (Base64.encode p.cp.root)
          ((p.ctx call.host files call.request).presentato ++ (Utf8.decode? added).getD []) := by
        rw [hnote]
        exact ⟨p.cp, ⟨call, hmem, h.opens_stored hapart hfresh, hfor⟩, rfl, rfl, rfl⟩
      dsimp only
      refine ⟨hd.records, fun r hr => ?_, fun st hst => ?_⟩
      . simp only [Option.mem_def, Option.ite_none_right_eq_some, Option.some.injEq] at hr
        rw [← hr.2]
        exact hstored
      . rw [Option.mem_def, Option.some.injEq] at hst
        rw [← hst]
        refine ⟨fun origin e he => ?_, hstate.pending⟩
        rw [Dict.get?_set] at he
        split at he
        . next heq =>
          rw [← Option.some.inj he, heq]
          exact hstored
        . exact hstate.stored origin e he

theorem Sourced.step {files : Files} {call : Call} (hsourced : Sourced sha256 crypto calls files)
    (hcorrect : SignsWell crypto keys) (hapart : Apart sha256 crypto keys call.request)
    (hmem : call ∈ calls)
    : Sourced sha256 crypto calls (step sha256 crypto keys files call) := by
  unfold Witness.step witnessCosign
  split
  . exact hsourced
  . exact hsourced
  . next p hpresent =>
    rcases accepted_of_present hpresent with ⟨logKeys, lines, own, h⟩
    have hplan := sourced_cosignLocked hsourced hcorrect hapart hmem h
    have hevidence : ∀ e ∈ files.evidence ++
        (cosignLocked sha256 crypto keys call.host files p call.request).records,
        e.kind = .splitView → e.Proves sha256 crypto calls := by
      intro e he
      rcases List.mem_append.mp he with he | he
      . exact hsourced.evidence e he
      . exact hplan.records e he
    have hcosigned : ∀ r ∈ files.cosigned ++
        (cosignLocked sha256 crypto keys call.host files p call.request).history.toList,
        VouchedAt sha256 crypto calls r.origin r.size r.rootB64 r.note := by
      intro r hr
      rcases List.mem_append.mp hr with hr | hr
      . exact hsourced.cosigned r hr
      . exact hplan.history r (Option.mem_toList.mp hr)
    split
    . exact hsourced
    . rcases commit_cases call.host files
        (cosignLocked sha256 crypto keys call.host files p call.request) with
        ⟨_, _, hfiles | hfiles | hfiles⟩ | ⟨out, _, hcommit⟩
      . rw [hfiles]
        exact hsourced
      . rw [hfiles]
        exact ⟨hsourced.stored, hsourced.pending, hsourced.cosigned, hevidence⟩
      . rw [hfiles]
        exact ⟨hsourced.stored, hsourced.pending, hcosigned, hevidence⟩
      . rw [hcommit]
        cases hsave : (cosignLocked sha256 crypto keys call.host files p call.request).save with
        | none => exact ⟨hsourced.stored, hsourced.pending, hcosigned, hevidence⟩
        | some st =>
          have hst := hplan.save st hsave
          exact ⟨hst.stored, hst.pending, hcosigned, hevidence⟩

theorem sourced_run (hcorrect : SignsWell crypto keys)
    (hapart : ∀ call ∈ calls, Apart sha256 crypto keys call.request)
    : Sourced sha256 crypto calls (run sha256 crypto keys calls) := by
  have hall : ∀ (rest : List Call) (files : Files), (∀ call ∈ rest, call ∈ calls) →
      Sourced sha256 crypto calls files →
      Sourced sha256 crypto calls (Runs.run (Witness.step sha256 crypto keys) files rest) := by
    intro rest
    induction rest with
    | nil => exact fun _ _ h => h
    | cons call rest ih =>
      intro files hrest h
      rw [List.forall_mem_cons] at hrest
      exact ih _ hrest.2 (h.step hcorrect (hapart call hrest.1) hrest.1)
  refine hall calls .empty (fun _ h => h) ⟨?_, ?_, ?_, ?_⟩
  . simp [Files.load, Files.empty, State.empty]
  . simp [Files.load, Files.empty, State.empty, State.pendingOf, Pending.Has]
  . simp [Files.empty]
  . simp [Files.empty]

/--
Whatever requests come in whatever order, and whatever write fails: a record of a split view accuses a
log of two checkpoints that its keys have signed.
-/
theorem evidence_sound (hcorrect : SignsWell crypto keys)
    (hapart : ∀ call ∈ calls, Apart sha256 crypto keys call.request)
    : ∀ e ∈ (run sha256 crypto keys calls).evidence, e.kind = .splitView →
        e.Proves sha256 crypto calls :=
  (sourced_run hcorrect hapart).evidence

end

/-!
### A log with two roots of one size
-/

def exampleTwin : Call := exampleCall (exampleCheckpoint [[0x62]]) [] 1

theorem apart_example {r : Request} (hvkeys : r.logVkeys = [exampleLogVkey])
    : Apart sha256 exampleCrypto exampleKeys r := by
  rintro v hv key hparse key' hkey' ⟨hname, _⟩
  rw [hvkeys] at hv
  rw [List.mem_singleton.mp hv, parseVkey_exampleLog, Except.ok.injEq] at hparse
  rw [← hparse, ownKey_example.mp hkey'] at hname
  exact absurd hname (by decide)

theorem evidence_sound_twin
    : ∃ e ∈ (run sha256 exampleCrypto exampleKeys [exampleFirst, exampleTwin]).evidence,
        e.kind = .splitView ∧ e.Proves sha256 exampleCrypto [exampleFirst, exampleTwin] := by
  have hkinds : ((run sha256 exampleCrypto exampleKeys [exampleFirst, exampleTwin]).evidence.map
      Evidence.kind) = [.splitView] := by decide +kernel
  have hmem : Kind.splitView ∈ ((run sha256 exampleCrypto exampleKeys
      [exampleFirst, exampleTwin]).evidence.map Evidence.kind) := by simp [hkinds]
  rcases List.mem_map.mp hmem with ⟨e, he, hkind⟩
  refine ⟨e, he, hkind, evidence_sound signsWell_example ?_ e he hkind⟩
  intro call hcall
  rcases List.mem_pair.mp hcall with rfl | rfl
  . exact apart_example rfl
  . exact apart_example rfl

end Witness
end CryptoValid
