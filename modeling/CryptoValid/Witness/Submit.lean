import CryptoValid.Merkle.Completeness
import CryptoValid.Witness.Service
import Mathlib.Data.List.DropRight

/-!
This module contains the submission of a checkpoint to a witness: a first request from size 0, and on
a conflict a second one from the size that the witness answered. Whatever it is that answers, only
lines of trusted keys are taken over, and the note is checked before it is returned. With a witness
that works, the checkpoint of a longer list of leaves is cosigned in at most two requests.
-/

namespace CryptoValid
namespace Witness

open Checkpoint
open Merkle

/--
Why a submission has not succeeded. The text that the witness answered, or why the note does not
verify, is not kept.
-/
inductive Setback where
  | conflictWithoutSize
  | unknownSize (old : Nat)
  | status
  | notSignatureLines
  | noTrustedLine
  | notVerified
  deriving DecidableEq

structure Submitted where
  verdict : Verdict
  status : Option Nat
  note : Option Bytes
  witnesses : List Str
  reason : Option Setback
  deriving DecidableEq

def Submitted.start : Submitted := ⟨.notValid, none, none, [], none⟩

inductive SubmitError where
  | note (message : NoteError)
  | notEncoded
  deriving DecidableEq

/--
The largest answer that is read.
-/
def maxAnswer : Nat := 1 <<< 20

/--
A byte of the answer that is not ASCII is replaced by one character that is no digit.
-/
def asciiPoint (b : UInt8) : CodePoint := if b < 0x80 then .ofNat b.toNat else 0xfffd

/--
`re.fullmatch(r"(0|[1-9][0-9]{0,19})\n", body)`.
-/
def conflictSize? (body : Bytes) : Option Nat :=
  let text := body.map asciiPoint
  if text.getLast? = some newline ∧ isSizeText text.dropLast = true then
    some (Json.natOfText text.dropLast)
  else
    none

/--
The lines of an answer, if all of them look like signature lines. An answer that is not UTF-8 has
none: the note with it is not read either.
-/
def answerLines? (body : Bytes) : Option (List Str) :=
  match Utf8.decode? body with
  | none => none
  | some s =>
    if s.getLast? = some newline ∧
        (Separated.split newline (s.rdropWhile (· = newline))).all ([emDash, space].isPrefixOf ·) then
      some (Separated.split newline s).dropLast
    else
      none

/--
The note with the answered lines of trusted keys in place of its older lines of the same keys, and
the names on them. The keys are given by name and id.
-/
def merge (trusted : List (Str × Bytes)) (text : Str) (old answered : List (Str × Str × Bytes))
    : Option (Bytes × List Str) :=
  let taken := answered.filter fun l => idOf l.2 ∈ trusted
  if taken.isEmpty then
    none
  else
    let kept := old.filter fun l => idOf l.2 ∉ taken.map fun l => idOf l.2
    some (utf8 (render text (kept.map Prod.fst ++ taken.map Prod.fst)),
      (taken.map fun l => l.2.1).dedup.insertionSort (· ≤ ·))

def takeOver (trusted : List (Str × Bytes)) (note body : Bytes) (answer : List Str)
    : Except NoteError (Option (Bytes × List Str)) := do
  let old ← splitNote note
  let new ← splitNote (note ++ body)
  return merge trusted old.1 ((noteLines note old.1).zip old.2) (answer.zip (new.2.drop old.2.length))

section

variable (sha256 : HashFn 32) (crypto : Crypto)

/--
`consistency_proof_b64`.
-/
def consistencyProofB64 (leaves : List Bytes) (oldSize : Nat) : Except NoteError (List Str) :=
  match consistencyProof sha256 oldSize leaves with
  | none => .error (txt "old size must be in (0, size]")
  | some proof => .ok (proof.map Base64.encode)

def witnessKey (v : Str) : Except NoteError VKey := do
  let key ← parseVkey sha256 false v
  if key.typ ∈ logKeyTypes then
    .error (txt "witness vkeys must be cosigner keys (type 0x04 or 0x06): a log key is not a witness")
  else
    return key

/--
What is made of the last answer.
-/
def received (clock : Int) (note : Bytes) (witnessVkeys logVkeys : List Str)
    (expectedOrigin : Option Str) (trusted : List VKey) (response : Response)
    : Except NoteError Submitted :=
  let out := { Submitted.start with status := some response.status }
  if response.status ≠ 200 then
    .ok { out with reason := some .status }
  else
    match answerLines? response.body with
    | none => .ok { out with reason := some .notSignatureLines }
    | some answer =>
      match takeOver (trusted.map fun key => (key.name, key.kid)) note response.body answer with
      | .error _ => .ok { out with reason := some .notSignatureLines }
      | .ok none => .ok { out with reason := some .noTrustedLine }
      | .ok (some (cosigned, names)) => do
        let v ← verifyWitnessed sha256 crypto clock cosigned logVkeys witnessVkeys
          ⟨1, none, none, 0, expectedOrigin⟩
        if v.verdict ≠ .ok then
          return { out with reason := some .notVerified }
        else
          return { out with verdict := .ok, note := some cosigned, witnesses := names }

variable {σ : Type} (post : σ → Bytes → σ × Response)

/--
`add_checkpoint` of the client. What lies between it and the witness is `post`; no answer is an answer
with status 0.
-/
def sendCheckpoint (s : σ) (note : Bytes) (oldSize : Nat) (proof : List Str)
    : σ × Except SubmitError Response :=
  match formatAddCheckpointBody oldSize proof note with
  | none => (s, .error .notEncoded)
  | some body =>
    match post s body with
    | (s, response) => (s, .ok { response with body := response.body.take maxAnswer })

/--
The second request, after a conflict.
-/
def resubmit (s : σ) (note : Bytes) (leaves : List Bytes) (response : Response)
    : σ × Except SubmitError (Submitted ⊕ Response) :=
  let out := { Submitted.start with status := some response.status }
  match conflictSize? response.body with
  | none => (s, .ok (.inl { out with reason := some .conflictWithoutSize }))
  | some old =>
    if 0 < old ∧ old ≤ leaves.length then
      match if old < leaves.length then consistencyProofB64 sha256 leaves old else .ok [] with
      | .error e => (s, .error (.note e))
      | .ok proof =>
        match sendCheckpoint post s note old proof with
        | (s, .error e) => (s, .error e)
        | (s, .ok response) => (s, .ok (.inr response))
    else
      (s, .ok (.inl { out with reason := some (.unknownSize old) }))

def submitCheckpoint (clock : Int) (s : σ) (note : Bytes) (leaves : List Bytes)
    (witnessVkeys logVkeys : List Str) (expectedOrigin : Option Str)
    : σ × Except SubmitError Submitted :=
  match witnessVkeys.mapM (witnessKey sha256), logVkeys.mapM (parseVkey sha256 true) with
  | .error e, _ => (s, .error (.note e))
  | .ok _, .error e => (s, .error (.note e))
  | .ok trusted, .ok _ =>
    let finish (s : σ) (response : Response) : σ × Except SubmitError Submitted :=
      (s, (received sha256 crypto clock note witnessVkeys logVkeys expectedOrigin trusted
        response).mapError .note)
    match sendCheckpoint post s note 0 [] with
    | (s, .error e) => (s, .error e)
    | (s, .ok response) =>
      if response.status = 409 then
        match resubmit sha256 post s note leaves response with
        | (s, .error e) => (s, .error e)
        | (s, .ok (.inl out)) => (s, .ok out)
        | (s, .ok (.inr response)) => finish s response
      else
        finish s response

end

/-!
### Answers
-/

/--
A text of lines, without the newline at its end.
-/
theorem exists_lines_of_answer {body : Bytes} {answer : List Str}
    (h : answerLines? body = some answer)
    : ∃ s, Utf8.decode? body = some s ∧ s.getLast? = some newline ∧
        (s.dropLast.getLast? ≠ some newline →
          answer = Separated.split newline s.dropLast ∧ ∀ line ∈ answer, line ≠ []) := by
  unfold answerLines? at h
  split at h
  . simp at h
  . next s hdecode =>
    split at h
    . next hs =>
      rw [Option.some.injEq] at h
      refine ⟨s, hdecode, hs.1, fun hone => ?_⟩
      have hconcat := concat_of_getLast? hs.1
      have hstrip : s.rdropWhile (· = newline) = s.dropLast := by
        conv_lhs => rw [hconcat]
        rw [List.rdropWhile_concat_pos _ _ _ (by simp), List.rdropWhile_eq_self_iff]
        intro hne heq
        exact hone (by rw [List.getLast?_eq_getLast_of_ne_nil hne]; simpa using heq)
      have hanswer : answer = Separated.split newline s.dropLast := by
        rw [← h, hconcat, List.dropLast_concat, ← Separated.terminated_split,
          Separated.split_terminated newline _ fun _ => Separated.not_mem_of_mem_split newline,
          List.dropLast_concat]
      refine ⟨hanswer, ?_⟩
      rintro line hline rfl
      have hall := List.all_eq_true.mp hs.2 []
      rw [hstrip, ← hanswer] at hall
      exact absurd (hall hline) (by simp)
    . simp at h

/--
A note that is read with an answer behind it has the lines of both.
-/
theorem lines_of_answer {note body : Bytes} {text text' : Str} {lines lines' answer : List Str}
    {own new : List (Str × Bytes)} (hnote : IsNote note text lines own)
    (hboth : IsNote (note ++ body) text' lines' new) (h : answerLines? body = some answer)
    : text' = text ∧ lines' = lines ++ answer := by
  rcases exists_lines_of_answer h with ⟨s, hdecode, hlast, hanswer⟩
  have hconcat := concat_of_getLast? hlast
  have heq : render text' lines' = render text lines ++ s := by
    have hscalar : Str.Scalar (render text lines ++ s) := by
      rw [Str.scalar_append]
      exact ⟨Utf8.scalar_of_decode? hnote.decode_eq, Utf8.scalar_of_decode? hdecode⟩
    have hbytes : note ++ body = utf8 (render text lines ++ s) := by
      rw [utf8_append]
      exact congrArg₂ (· ++ ·) (Utf8.eq_flatMap_of_decode? hnote.decode_eq)
        (Utf8.eq_flatMap_of_decode? hdecode)
    have hdecoded := hboth.decode_eq
    rw [hbytes, decode?_utf8 hscalar, Option.some.injEq] at hdecoded
    exact hdecoded.symm
  have hone : s.dropLast.getLast? ≠ some newline := by
    -- two newlines at the end would leave an empty last line
    intro htwo
    have hlines := List.dropLast_concat_getLast hboth.lines_ne_nil
    have hplain := hboth.lines_plain _ (List.getLast_mem hboth.lines_ne_nil)
    generalize lines'.getLast hboth.lines_ne_nil = last at hlines hplain
    rw [← hlines, ← render_append, hconcat, Separated.terminated_cons, Separated.terminated_nil,
      ← List.append_assoc, ← List.append_assoc, List.append_left_inj] at heq
    have hend := congrArg List.getLast? heq
    rw [List.getLast?_append, List.getLast?_append, htwo, Option.some_or,
      List.getLast?_eq_getLast_of_ne_nil hplain.1, Option.some_or, Option.some.injEq] at hend
    exact hplain.2 (hend ▸ List.getLast_mem hplain.1)
  rcases hanswer hone with ⟨hsplit, hne⟩
  have hterminated : s = Separated.terminated newline answer := by
    rw [hsplit, Separated.terminated_split, ← hconcat]
  rw [hterminated, render_append] at heq
  refine render_inj hboth.text_ends hnote.text_ends hboth.lines_plain ?_ heq
  intro line hline
  rcases List.mem_append.mp hline with hline | hline
  . exact hnote.lines_plain line hline
  . exact ⟨hne line hline, Separated.not_mem_of_mem_split newline (hsplit ▸ hline)⟩

theorem map_snd_filter_zip {α β : Type} (p : β → Bool) {xs : List α} {ys : List β}
    (h : xs.length = ys.length)
    : ((xs.zip ys).filter fun l => p l.2).map Prod.snd = ys.filter p := by
  have hsnd : (xs.zip ys).map Prod.snd = ys := List.map_snd_zip h.ge
  conv_rhs => rw [← hsnd, List.filter_map]
  rfl

/--
The signatures with the names and ids of trusted keys, and the names.
-/
def ofTrusted (trusted : List (Str × Bytes)) (sigs : List (Str × Bytes)) : List (Str × Bytes) :=
  sigs.filter (idOf · ∈ trusted)

def namesOf (sigs : List (Str × Bytes)) : List Str := (sigs.map Prod.fst).dedup.insertionSort
    (· ≤ ·)

theorem mem_ofTrusted {trusted sigs : List (Str × Bytes)} {sig : Str × Bytes}
    : sig ∈ ofTrusted trusted sigs ↔ sig ∈ sigs ∧ idOf sig ∈ trusted := by
  simp [ofTrusted]

theorem merge_cases {trusted : List (Str × Bytes)} {note both : Bytes} {text : Str}
    {lines answer : List Str} {own fresh new : List (Str × Bytes)}
    (hnote : IsNote note text lines own)
    (hboth : IsNote both text (lines ++ answer) new)
    (hfresh : List.Forall₂ (fun line sig => parseSigLine line = .ok sig) answer fresh)
    : ofTrusted trusted fresh = [] ∧ merge trusted text (lines.zip own) (answer.zip fresh) = none ∨
        ∃ cosigned lines' sigs', ofTrusted trusted fresh ≠ [] ∧
          merge trusted text (lines.zip own) (answer.zip fresh)
            = some (cosigned, namesOf (ofTrusted trusted fresh)) ∧
          IsNote cosigned text lines' sigs' ∧
          ∀ sig, sig ∈ sigs' ↔
            (sig ∈ own ∧ idOf sig ∉ (ofTrusted trusted fresh).map idOf) ∨
              sig ∈ ofTrusted trusted fresh := by
  have htaken : ((answer.zip fresh).filter fun l => idOf l.2 ∈ trusted).map Prod.snd
      = ofTrusted trusted fresh := map_snd_filter_zip (idOf · ∈ trusted) hfresh.length_eq
  have hmem : ∀ l ∈ (answer.zip fresh).filter fun l => idOf l.2 ∈ trusted,
      l.1 ∈ answer ∧ parseSigLine l.1 = .ok l.2 :=
    fun l hl => (mem_zip_sigs_iff hfresh).mp (List.mem_filter.mp hl).1
  have hle : ((answer.zip fresh).filter fun l => idOf l.2 ∈ trusted).length ≤ answer.length := by
    refine (List.length_filter_le _ _).trans ?_
    rw [List.length_zip]
    exact Nat.min_le_left _ _
  unfold merge
  generalize (answer.zip fresh).filter (fun l => idOf l.2 ∈ trusted) = taken at htaken hmem hle
  generalize ofTrusted trusted fresh = found at htaken
  subst htaken
  dsimp only
  by_cases hnil : taken = []
  . left
    rw [hnil]
    exact ⟨rfl, rfl⟩
  . right
    rw [if_neg (by simpa using hnil)]
    have hids : taken.map (fun l => idOf l.2) = (taken.map Prod.snd).map idOf := by
      rw [List.map_map]
      rfl
    rw [hids]
    have hkept := map_snd_filter_zip
      (fun sig => decide (idOf sig ∉ (taken.map Prod.snd).map idOf)) hnote.length_eq
    have hmem' : ∀ l ∈ (lines.zip own).filter fun l => idOf l.2 ∉ (taken.map Prod.snd).map idOf,
        l.1 ∈ lines ∧ parseSigLine l.1 = .ok l.2 :=
      fun l hl => (mem_zip_sigs_iff hnote.lines_eq).mp (List.mem_filter.mp hl).1
    have hle' : ((lines.zip own).filter fun l =>
        idOf l.2 ∉ (taken.map Prod.snd).map idOf).length ≤ lines.length := by
      refine (List.length_filter_le _ _).trans ?_
      rw [List.length_zip]
      exact Nat.min_le_left _ _
    generalize (lines.zip own).filter (fun l => idOf l.2 ∉ (taken.map Prod.snd).map idOf) = kept
      at hkept hmem' hle'
    refine ⟨_, kept.map Prod.fst ++ taken.map Prod.fst, kept.map Prod.snd ++ taken.map Prod.snd, ?_, ?_,
      hnote.with_lines ?_ ?_ ?_ ?_, ?_⟩
    . simpa using hnil
    . rw [namesOf, List.map_map]
      rfl
    . intro line hline
      refine hboth.scalar.2 line ?_
      rcases List.mem_append.mp hline with hline | hline
      . rcases List.mem_map.mp hline with ⟨l, hl, rfl⟩
        exact List.mem_append_left _ (hmem' l hl).1
      . rcases List.mem_map.mp hline with ⟨l, hl, rfl⟩
        exact List.mem_append_right _ (hmem l hl).1
    . rw [← List.map_append, ← List.map_append, List.forall₂_map_left_iff, List.forall₂_map_right_iff,
        List.forall₂_same]
      intro l hl
      rcases List.mem_append.mp hl with hl | hl
      . exact (hmem' l hl).2
      . exact (hmem l hl).2
    . simpa using fun _ => hnil
    . have hroom := hboth.length_le
      rw [List.length_append] at hroom
      rw [List.length_append, List.length_map, List.length_map]
      omega
    . intro sig
      rw [List.mem_append, hkept, List.mem_filter, decide_eq_true_eq]

/--
What is taken over from an answer that can be read.
-/
theorem takeOver_eq (trusted : List (Str × Bytes)) {note body : Bytes} {text : Str}
    {lines answer : List Str} {own new : List (Str × Bytes)} (hnote : IsNote note text lines own)
    (hboth : IsNote (note ++ body) text (lines ++ answer) new)
    : ∃ fresh, List.Forall₂ (fun line sig => parseSigLine line = .ok sig) answer fresh ∧
        takeOver trusted note body answer
          = .ok (merge trusted text (lines.zip own) (answer.zip fresh)) := by
  have hlength := hnote.length_eq
  have hfresh := List.forall₂_drop own.length hboth.lines_eq
  rw [← hlength, List.drop_left, hlength] at hfresh
  refine ⟨_, hfresh, ?_⟩
  rw [takeOver, splitNote_eq_ok.mpr ⟨lines, hnote⟩, splitNote_eq_ok.mpr ⟨_, hboth⟩, Except.ok_bind,
    Except.ok_bind, noteLines_eq hnote]
  rfl

section

variable {sha256 : HashFn 32} {crypto : Crypto}

theorem mapM_witnessKey_eq_ok {witnessVkeys : List Str} {trusted : List VKey}
    : witnessVkeys.mapM (witnessKey sha256) = .ok trusted ↔
        List.Forall₂ (fun v key => parseVkey sha256 false v = .ok key ∧ key.typ ∉ logKeyTypes)
          witnessVkeys trusted := by
  have hkey : ∀ v key, witnessKey sha256 v = .ok key ↔
      parseVkey sha256 false v = .ok key ∧ key.typ ∉ logKeyTypes := by
    intro v key
    unfold witnessKey
    rw [Except.bind_eq_ok]
    constructor
    . rintro ⟨key', hparse, h⟩
      split at h
      . simp at h
      . next htyp =>
        rw [Except.pure_eq_ok] at h
        exact ⟨h ▸ hparse, h ▸ htyp⟩
    . rintro ⟨hparse, htyp⟩
      exact ⟨key, hparse, by rw [if_neg htyp]; rfl⟩
  simp only [Except.mapM_eq_ok, hkey]

theorem received_ok {clock : Int} {note : Bytes} {witnessVkeys logVkeys : List Str}
    {expectedOrigin : Option Str} {trusted : List VKey} {response : Response} {out : Submitted}
    (h : received sha256 crypto clock note witnessVkeys logVkeys expectedOrigin trusted response
      = .ok out) (hok : out.verdict = .ok)
    : ∃ answer cosigned names, answerLines? response.body = some answer ∧
        takeOver (trusted.map fun key => (key.name, key.kid)) note response.body answer
          = .ok (some (cosigned, names)) ∧
        Satisfied sha256 crypto clock cosigned logVkeys witnessVkeys
          ⟨1, none, none, 0, expectedOrigin⟩ ∧
        out.note = some cosigned ∧ out.witnesses = names := by
  unfold received at h
  split at h
  . rw [← Except.ok.inj h] at hok
    simp [Submitted.start] at hok
  . split at h
    . rw [← Except.ok.inj h] at hok
      simp [Submitted.start] at hok
    . next answer hanswer =>
      split at h
      . rw [← Except.ok.inj h] at hok
        simp [Submitted.start] at hok
      . rw [← Except.ok.inj h] at hok
        simp [Submitted.start] at hok
      . next cosigned names htake =>
        rcases Except.bind_eq_ok.mp h with ⟨v, hv, h⟩
        split at h
        . rw [← Except.pure_eq_ok.mp h] at hok
          simp [Submitted.start] at hok
        . next hverdict =>
          rw [← Except.pure_eq_ok.mp h]
          exact ⟨answer, cosigned, names, hanswer, htake, ⟨v, hv, Decidable.not_not.mp hverdict⟩, rfl,
            rfl⟩

/--
What is reported as good was made of an answer.
-/
theorem received_of_submit {σ : Type} {post : σ → Bytes → σ × Response} {clock : Int} {s : σ}
    {note : Bytes} {leaves : List Bytes} {witnessVkeys logVkeys : List Str}
    {expectedOrigin : Option Str} {out : Submitted}
    (h : (submitCheckpoint sha256 crypto post clock s note leaves witnessVkeys logVkeys
      expectedOrigin).2 = .ok out) (hok : out.verdict = .ok)
    : ∃ trusted response, witnessVkeys.mapM (witnessKey sha256) = .ok trusted ∧
        received sha256 crypto clock note witnessVkeys logVkeys expectedOrigin trusted response
          = .ok out := by
  have hresubmit : ∀ s response s' out', (resubmit sha256 post s note leaves response)
      = (s', .ok (.inl out')) → out'.verdict = .notValid := by
    intro s response s' out' h
    unfold resubmit at h
    dsimp only at h
    repeat' split at h
    all_goals simp only [Prod.mk.injEq, Except.ok.injEq, Sum.inl.injEq, reduceCtorEq, and_false] at h
    . rw [← h.2]
      rfl
    . rw [← h.2]
      rfl
  have hmap : ∀ (x : Except NoteError Submitted), x.mapError SubmitError.note = .ok out → x = .ok out := by
    intro x hx
    cases x with
    | error e => simp [Except.mapError] at hx
    | ok out' => simpa [Except.mapError] using hx
  unfold submitCheckpoint at h
  split at h
  . simp at h
  . simp at h
  . next trusted _ htrusted _ =>
    dsimp only at h
    split at h
    . simp at h
    . next s' response hsend =>
      split at h
      . split at h
        . simp at h
        . next s' out' hsecond =>
          simp only [Except.ok.injEq] at h
          rw [← h, hresubmit _ _ _ _ hsecond] at hok
          simp at hok
        . next response hsecond => exact ⟨trusted, response, htrusted, hmap _ h⟩
      . exact ⟨trusted, response, htrusted, hmap _ h⟩

/--
The ids of trusted keys are those of the lines of the keys.
-/
theorem idOf_mem_iff {witnessVkeys : List Str} {trusted : List VKey}
    (h : witnessVkeys.mapM (witnessKey sha256) = .ok trusted) {sig : Str × Bytes}
    : (idOf sig ∈ trusted.map fun key => (key.name, key.kid)) ↔
        ∃ v ∈ witnessVkeys, ∃ key, parseVkey sha256 false v = .ok key ∧ LineOf sig key := by
  have hkeys := mapM_witnessKey_eq_ok.mp h
  simp only [List.mem_map, idOf, Prod.mk.injEq]
  constructor
  . rintro ⟨key, hkey, hline⟩
    rcases List.exists_of_mem_right hkeys hkey with ⟨v, hv, hparse, _⟩
    exact ⟨v, hv, key, hparse, hline⟩
  . rintro ⟨v, hv, key, hparse, hline⟩
    rcases List.exists_of_mem_left hkeys hv with ⟨key', hkey', hparse', _⟩
    rw [hparse, Except.ok.injEq] at hparse'
    exact ⟨key, hparse' ▸ hkey', hline⟩

variable (sha256 crypto) in
/--
Whatever answers, a submission that succeeds gives a note that the relying party accepts. It has the
text of the note that was submitted, all of its lines that are not of trusted keys of witnesses, and
new lines only of such keys. Each witness that is reported has a line of a trusted key there, and it
verifies if keys of this type can be verified.
-/
theorem submitCheckpoint_sound {σ : Type} (post : σ → Bytes → σ × Response) (clock : Int) (s : σ)
    (note : Bytes) (leaves : List Bytes) (witnessVkeys logVkeys : List Str)
    (expectedOrigin : Option Str) (out : Submitted)
    (h : (submitCheckpoint sha256 crypto post clock s note leaves witnessVkeys logVkeys
      expectedOrigin).2 = .ok out) (hok : out.verdict = .ok)
    : ∃ cosigned text lines sigs lines' sigs', out.note = some cosigned ∧
        Satisfied sha256 crypto clock cosigned logVkeys witnessVkeys
          ⟨1, none, none, 0, expectedOrigin⟩ ∧
        IsNote note text lines sigs ∧ IsNote cosigned text lines' sigs' ∧
        (∀ sig ∈ sigs, (∀ v ∈ witnessVkeys, ∀ key, parseVkey sha256 false v = .ok key →
          ¬LineOf sig key) → sig ∈ sigs') ∧
        (∀ sig ∈ sigs', sig ∉ sigs → ∃ v ∈ witnessVkeys, ∃ key,
          parseVkey sha256 false v = .ok key ∧ LineOf sig key) ∧
        ∀ name ∈ out.witnesses, ∃ sig ∈ sigs', ∃ v ∈ witnessVkeys, ∃ key,
          parseVkey sha256 false v = .ok key ∧ LineOf sig key ∧ key.name = name ∧
          (key.typ ∈ witnessTypes → ∃ ed t, crypto.ed25519 = some ed ∧
            Signs crypto ed text key sig t) := by
  rcases received_of_submit h hok with ⟨trusted, response, htrusted, hreceived⟩
  rcases received_ok hreceived hok with
    ⟨answer, cosigned, names, hanswer, htake, hsatisfied, hnote, hnames⟩
  have hsplits : ∃ old new, splitNote note = .ok old ∧ splitNote (note ++ response.body) = .ok new := by
    unfold takeOver at htake
    rcases Except.bind_eq_ok.mp htake with ⟨old, hold, htake⟩
    rcases Except.bind_eq_ok.mp htake with ⟨new, hnew, _⟩
    exact ⟨old, new, hold, hnew⟩
  rcases hsplits with ⟨⟨text, sigs⟩, ⟨text', new⟩, hold, hnew⟩
  rcases splitNote_eq_ok.mp hold with ⟨lines, hold⟩
  rcases splitNote_eq_ok.mp hnew with ⟨both, hnew⟩
  rcases lines_of_answer hold hnew hanswer with ⟨rfl, rfl⟩
  rcases takeOver_eq (trusted.map fun key => (key.name, key.kid)) hold hnew with
    ⟨fresh, hfresh, htake'⟩
  rw [htake', Except.ok.injEq] at htake
  rcases merge_cases hold hnew hfresh with ⟨_, hnone⟩ | ⟨_, lines', sigs', _, hmerge, hcosigned, hmem⟩
  . rw [hnone] at htake
    simp at htake
  . rw [hmerge] at htake
    simp only [Option.some.injEq, Prod.mk.injEq] at htake
    rcases htake with ⟨rfl, rfl⟩
    refine ⟨_, text', lines, sigs, lines', sigs', hnote, hsatisfied, hold, hcosigned, ?_, ?_, ?_⟩
    . intro sig hsig hnone
      refine (hmem sig).mpr (Or.inl ⟨hsig, fun hid => ?_⟩)
      rcases List.mem_map.mp hid with ⟨sig', hsig', heq⟩
      have hid' := (mem_ofTrusted.mp hsig').2
      rw [heq] at hid'
      rcases (idOf_mem_iff htrusted).mp hid' with ⟨v, hv, key, hparse, hline⟩
      exact hnone v hv key hparse hline
    . intro sig hsig hnot
      rcases (hmem sig).mp hsig with hkept | htaken
      . exact absurd hkept.1 hnot
      . exact (idOf_mem_iff htrusted).mp (mem_ofTrusted.mp htaken).2
    . intro name hname
      rw [hnames, namesOf, List.mem_insertionSort, List.mem_dedup] at hname
      rcases List.mem_map.mp hname with ⟨sig, hsig, rfl⟩
      rcases (idOf_mem_iff htrusted).mp (mem_ofTrusted.mp hsig).2 with ⟨v, hv, key, hparse, hline⟩
      refine ⟨sig, (hmem sig).mpr (Or.inr hsig), v, hv, key, hparse, hline, hline.1, fun htyp => ?_⟩
      rcases (satisfied_note_iff hcosigned).mp hsatisfied with ⟨_, _, ed, hed, hquorum⟩
      rcases hquorum.trusted_verify sig ((hmem sig).mpr (Or.inr hsig)) key
        (Or.inr ⟨v, hv, hparse, htyp⟩) hline with ⟨t, hsigns⟩
      exact ⟨ed, t, hed, hsigns⟩

/-!
### A witness that works
-/

theorem conflictSize?_natText {n : Nat} (h : n < 10 ^ 20)
    : conflictSize? (utf8 (Json.natText n ++ [newline])) = some n := by
  have hascii : ∀ s : Str, (∀ c ∈ s, c.val < 0x80) → (utf8 s).map asciiPoint = s := by
    intro s hs
    induction s with
    | nil => rfl
    | cons c s ih =>
      rw [List.forall_mem_cons] at hs
      have hcons : utf8 (c :: s) = Utf8.encodePoint c ++ utf8 s := rfl
      have hpoint : asciiPoint (UInt8.ofNat c.val) = c := by
        have hc := hs.1
        have hnat : (UInt8.ofNat c.val).toNat = c.val := Utf8.toNat_ofNat c.val (by omega)
        rw [asciiPoint, if_pos (by rw [UInt8.lt_iff_toNat_lt, hnat]; exact hc), hnat,
          CodePoint.ofNat_val]
      rw [hcons, Utf8.encodePoint, if_pos hs.1, List.map_append, ih hs.2, List.map_singleton, hpoint,
        List.singleton_append]
  have htext : ∀ c ∈ Json.natText n ++ [newline], c.val < 0x80 := by
    intro c hc
    rcases List.mem_append.mp hc with hc | hc
    . have hdigit := Json.natText_isDigit n c hc
      simp only [Json.isDigit, Bool.and_eq_true, decide_eq_true_eq] at hdigit
      omega
    . rw [List.mem_singleton.mp hc]
      decide
  unfold conflictSize?
  rw [hascii _ htext]
  simp [isSizeText_natText h, Json.natOfText_natText]

theorem answerLines?_terminated {lines : List Str} (hne : lines ≠ [])
    (hplain : ∀ line ∈ lines, [emDash, space] <+: line ∧ newline ∉ line ∧ Str.Scalar line)
    : answerLines? (utf8 (Separated.terminated newline lines)) = some lines := by
  have hscalar := scalar_terminated fun line hline => (hplain line hline).2.2
  have hsplit := Separated.split_terminated newline lines fun line hline => (hplain line hline).2.1
  have hdrop := Separated.split_dropLast_terminated newline lines hne
    fun line hline => (hplain line hline).2.1
  have hlast : ∃ last, Separated.terminated newline lines
      = last ++ [newline] ∧ last.getLast? ≠ some newline := by
    have hlines := List.dropLast_concat_getLast hne
    rcases hplain _ (List.getLast_mem hne) with ⟨⟨rest, hrest⟩, hnewline, _⟩
    refine ⟨Separated.terminated newline lines.dropLast ++ lines.getLast hne, ?_, ?_⟩
    . conv_lhs => rw [← hlines, Separated.terminated_append]
      simp [Separated.terminated]
    . have hne' : lines.getLast hne ≠ [] := by
        rw [← hrest]
        simp
      rw [List.getLast?_append, List.getLast?_eq_getLast_of_ne_nil hne', Option.some_or, ne_eq,
        Option.some.injEq]
      exact fun heq => hnewline (heq ▸ List.getLast_mem hne')
  rcases hlast with ⟨last, heq, hend⟩
  rw [heq] at hscalar hsplit hdrop ⊢
  rw [List.dropLast_concat] at hdrop
  have hstrip : (last ++ [newline]).rdropWhile (· = newline) = last := by
    rw [List.rdropWhile_concat_pos _ _ _ (by simp), List.rdropWhile_eq_self_iff]
    intro hne heq
    exact hend (by rw [List.getLast?_eq_getLast_of_ne_nil hne]; simpa using heq)
  unfold answerLines?
  rw [decode?_utf8 hscalar]
  dsimp only
  rw [hstrip, hdrop, hsplit, List.dropLast_concat, if_pos]
  refine ⟨List.getLast?_concat, List.all_eq_true.mpr fun line hline => ?_⟩
  exact List.isPrefixOf_iff_prefix.mpr (hplain line hline).1

theorem verifyConsistencyB64_encode {m n : Nat} {proof : List Bytes} {oldRoot newRoot : Bytes}
    (hpos : 0 < m) (hlt : m < n) (hlen : ∀ hash ∈ proof, hash.length = 32)
    (h : verifyConsistency sha256 m n proof oldRoot newRoot = true)
    : verifyConsistencyB64 sha256 m oldRoot n newRoot (proof.map Base64.encode) = true := by
  have hdecode : (proof.map Base64.encode).mapM Base64.decode? = some proof := by
    rw [Option.mapM_eq_some, List.forall₂_map_left_iff, List.forall₂_same]
    exact fun hash _ => Base64.decode?_encode hash
  have hany : (proof.any fun h => h.length ≠ 32) = false := by
    rw [List.any_eq_false]
    intro hash hhash
    simp [hlen hash hhash]
  unfold verifyConsistencyB64
  rw [hdecode]
  dsimp only
  rw [hany, if_neg (by simp), if_neg (by omega), if_neg (by simp; omega)]
  exact h

variable (sha256) in
/--
The stored checkpoint of an origin is that of the first `m` leaves, none is stored for `m = 0`
perhaps.
-/
def Stores (files : Files) (origin : Str) (leaves : List Bytes) (m : Nat) : Prop :=
  m ≤ leaves.length ∧
    match files.load.origins.get? origin with
    | none => m = 0
    | some e => e.size = m ∧ e.rootB64 = Base64.encode (mth sha256 (leaves.take m))

variable (sha256) in
/--
The proof lines for a witness that stores the checkpoint of the first `m` leaves.
-/
def proofLines (leaves : List Bytes) (m : Nat) : List Str :=
  if 0 < m ∧ m < leaves.length then
    ((consistencyProof sha256 m leaves).getD []).map Base64.encode
  else
    []

variable (sha256 crypto) in
/--
A log hands in the checkpoint of its leaves to a witness that serves the log. The first look at the
note finds nothing wrong, and there is room for the lines of the witness next to all of its lines,
those of the witness included.
-/
structure HandsIn (service : Service) (note : Bytes) (logVkeys : List Str) (leaves : List Bytes)
    (p : Presented) : Prop where
  served : service.logs.get? p.cp.origin = some logVkeys
  presented : present sha256 crypto service.keys
    ((⟨0, [], note⟩ : AddCheckpoint).request logVkeys p.cp.origin none) = .ok (.inr p)
  size_eq : p.cp.size = leaves.length
  root_eq : p.cp.root = mth sha256 leaves
  length_le : leaves.length ≤ 2 ^ 62
  note_le : note.length + 2 ^ 14 ≤ maxBody
  room : (noteLines note p.text).length + service.keys.count ≤ maxSigs

theorem isProof_proofLines {leaves : List Bytes} {m : Nat} (hle : leaves.length ≤ 2 ^ 62)
    : IsProof (proofLines sha256 leaves m) := by
  unfold proofLines
  split
  . next h =>
    rcases exists_consistencyProof sha256 leaves m h.1 h.2 with ⟨proof, hproof, _⟩
    rcases consistencyProof_bounds sha256 hproof hle with ⟨hlen, hhash⟩
    rw [hproof, Option.getD_some]
    refine ⟨by rw [List.length_map]; exact hlen, ?_⟩
    intro line hline
    rcases List.mem_map.mp hline with ⟨hash, hmem, rfl⟩
    exact ⟨hash, hhash hash hmem, rfl⟩
  . exact ⟨Nat.zero_le _, by simp⟩

/--
The gate is open for a request from the stored size, with the proof for it.
-/
theorem gate_of_stores {c : Ctx} {r : Request} {d : Draft} {leaves : List Bytes} {m : Nat}
    (hsize : c.cp.size = leaves.length) (hroot : c.cp.root = mth sha256 leaves)
    (hle : m ≤ leaves.length)
    (hprev : match c.prev with
      | none => m = 0
      | some e => e.size = m ∧ e.rootB64 = Base64.encode (mth sha256 (leaves.take m)))
    (hold : r.oldSize = some (m : Int)) (hproof : r.proof = proofLines sha256 leaves m)
    : gate sha256 c r d = none := by
  have hempty : c.cp.size = 0 → c.cp.root = emptyRoot sha256 := by
    intro hzero
    rw [hroot, List.length_eq_zero_iff.mp (hsize.symm.trans hzero), mth]
    rfl
  refine gate_of_follows ?_ hempty ?_ ?_
  . intro old hr
    rw [hold, Option.some.injEq] at hr
    rw [← hr, Ctx.storedSize]
    cases hc : c.prev with
    | none =>
      rw [hc] at hprev
      simp [hprev]
    | some e =>
      rw [hc] at hprev
      simp [hprev.1]
  . intro hc
    rw [hc] at hprev
    rw [hproof, proofLines, if_neg (by omega)]
  . intro e hc
    rw [hc] at hprev
    rcases hprev with ⟨he, heroot⟩
    refine ⟨⟨by omega, ?_, ?_⟩, ?_⟩
    . intro heq
      rw [heroot, Base64.decode?_encode, Option.getD_some, hroot, List.take_of_length_le (by omega)]
    . intro hpos hlt
      rcases exists_consistencyProof sha256 leaves m (by omega) (by omega) with
        ⟨proof, hsome, hverify, _⟩
      rcases consistencyProof_bounds sha256 hsome (Nat.lt_two_pow_self.le) with ⟨_, hhash⟩
      rw [heroot, Base64.decode?_encode, Option.getD_some, hproof, proofLines, if_pos (by omega), hsome,
        Option.getD_some, hroot, hsize, he]
      exact verifyConsistencyB64_encode (by omega) (by omega) hhash hverify
    . intro hnone
      rw [hproof, proofLines, if_neg (by omega)]

theorem Accepted.with_request {keys : Keys} {r : Request} {p : Presented} {logKeys : List VKey}
    {lines : List Str} {own : List Bytes} (h : Accepted sha256 crypto keys r p logKeys lines own)
    (r' : Request) (hnote : r'.note = r.note) (hvkeys : r'.logVkeys = r.logVkeys)
    (horigin : r'.expectedOrigin = some p.cp.origin) (hproof : r'.proof.length ≤ maxProof)
    : Accepted sha256 crypto keys r' p logKeys lines own where
  opened := by
    rw [hnote, hvkeys]
    exact h.opened
  names_eq := by simp [horigin]
  origin_eq := by rw [horigin, Option.getD_some]
  proof_le := hproof
  own_eq := h.own_eq
  origin_le := h.origin_le
  room := h.room
  out_eq := h.out_eq
  lines_eq := by
    rw [hnote]
    exact h.lines_eq

/--
The lines of the witness are short enough to be read by the client.
-/
theorem length_ownLines_le {keys : Keys} {ed : Scheme} {text : Str} {cp : Parsed} {timestamp : Int}
    {raws : List Bytes} (hown : OwnLines sha256 crypto keys text cp timestamp raws)
    (hfresh : Fresh sha256 crypto keys ed text timestamp.toNat raws)
    : (utf8 (Separated.terminated newline (ownLines keys raws))).length ≤ maxAnswer := by
  have hname : keys.name.length ≤ 255 := by
    refine Nat.le_trans ?_ hown.name_le
    induction keys.name with
    | nil => exact Nat.le_refl _
    | cons c s ih =>
      have hcons : utf8 (c :: s) = Utf8.encodePoint c ++ utf8 s := rfl
      have hpoint : 1 ≤ (Utf8.encodePoint c).length := by
        unfold Utf8.encodePoint
        split_ifs <;> simp
      rw [hcons, List.length_append, List.length_cons]
      omega
  have hline : ∀ line ∈ ownLines keys raws, line.length ≤ 11200 := by
    intro line hline
    rcases List.mem_map.mp hline with ⟨raw, hraw, rfl⟩
    have hmax : raw.length ≤ maxSigBytes := by
      rcases parseSigLine_eq_ok.mp (hfresh.of_raw raw hraw).1 with ⟨_, _, _, _, _, _, hmax⟩
      exact hmax
    simp only [signatureLine, List.length_cons, List.length_append, Base64.length_encode]
    unfold maxSigBytes at hmax
    omega
  have hcount : (ownLines keys raws).length ≤ 2 := by
    rw [ownLines, List.length_map, hfresh.length_eq, Keys.count]
    split <;> decide
  have hterminated := length_terminated_le hline
  have hutf8 := length_utf8_le (Separated.terminated newline (ownLines keys raws))
  have hmax : maxAnswer = 1048576 := rfl
  omega

section

variable {service : Service} {hosts : Nat → Host} {files : Files} {n m : Nat} {note : Bytes}
  {logVkeys : List Str} {leaves : List Bytes} {p : Presented}

theorem HandsIn.accepted (h : HandsIn sha256 crypto service note logVkeys leaves p)
    {proof : List Str}
    (hproof : proof.length ≤ maxProof)
    : ∃ logKeys lines own, Accepted sha256 crypto service.keys
        ((⟨m, proof, note⟩ : AddCheckpoint).request logVkeys p.cp.origin none) p logKeys lines own := by
  rcases accepted_of_present h.presented with ⟨logKeys, lines, own, haccepted⟩
  exact ⟨logKeys, lines, own, haccepted.with_request _ rfl rfl rfl hproof⟩

/--
A request that the service lets through to the witness, as the client sends it.
-/
theorem HandsIn.send_eq (h : HandsIn sha256 crypto service note logVkeys leaves p)
    {proof : List Str} {files' : Files} {out : Out} (hm : m ≤ leaves.length)
    (hproof : IsProof proof)
    (hcosign : witnessCosign sha256 crypto service.keys (hosts n) files
      ((⟨m, proof, note⟩ : AddCheckpoint).request logVkeys p.cp.origin none) = (files', .ok out))
    (hshort : out.response.body.length ≤ maxAnswer)
    : sendCheckpoint (service.post sha256 crypto hosts) (files, n) note m proof
        = ((files', n + 1), .ok out.response) := by
  rcases h.accepted (m := m) hproof.length_le with ⟨logKeys, lines, own, haccepted⟩
  rcases haccepted.lines_eq with ⟨sigs, hnote, _⟩
  have hold : m < 10 ^ 20 := by
    have hle := h.length_le
    omega
  rcases exists_body (b := ⟨m, proof, note⟩) hold hproof with ⟨body, hbody, hlen⟩
  have hpost := Service.post_eq hosts ⟨m, proof, note⟩ hnote
    haccepted.opened.parse_eq h.served hold hproof hbody (hlen.trans h.note_le) hcosign
  unfold sendCheckpoint
  rw [hbody]
  dsimp only
  rw [hpost]
  dsimp only
  rw [List.take_of_length_le hshort]

/--
A request from the stored size is answered with the lines of the witness.
-/
theorem HandsIn.answered (h : HandsIn sha256 crypto service note logVkeys leaves p)
    (hhost : (hosts n).Good) (hstores : Stores sha256 files p.cp.origin leaves m)
    (hsign : CanSign crypto service.keys) (hcorrect : SignsWell crypto service.keys)
    (hkept : p.kept ≠ [])
    : ∃ files' raws, OwnLines sha256 crypto service.keys p.text p.cp (hosts n).cosignedAt raws ∧
        Stores sha256 files' p.cp.origin leaves leaves.length ∧
        sendCheckpoint (service.post sha256 crypto hosts) (files, n) note m
            (proofLines sha256 leaves m)
          = ((files', n + 1),
              .ok ⟨200, utf8 (Separated.terminated newline (ownLines service.keys raws))⟩) := by
  have hproof : IsProof (proofLines sha256 leaves m) := isProof_proofLines h.length_le
  rcases h.accepted (m := m) hproof.length_le with ⟨logKeys, lines, own, haccepted⟩
  rcases witnessCosign_signed haccepted hsign hkept hhost rfl
    (gate_of_stores h.size_eq h.root_eq hstores.1 hstores.2 rfl rfl) with
    ⟨out, raws, hout, hown, hresponse, e, he, hesize, heroot⟩
  rcases hown.raws_eq with ⟨ed, _, hed, _, _⟩
  have hfresh := hown.fresh hcorrect haccepted.opened.parse_eq hed
  refine ⟨(witnessCosign sha256 crypto service.keys (hosts n) files ((⟨m, proofLines sha256 leaves m,
    note⟩ : AddCheckpoint).request logVkeys p.cp.origin none)).1, raws, hown, ⟨Nat.le_refl _, ?_⟩, ?_⟩
  . rw [he]
    exact ⟨hesize.trans h.size_eq, by rw [heroot, h.root_eq, List.take_length]⟩
  . rw [← hresponse]
    refine h.send_eq hstores.1 hproof (Prod.ext rfl hout) ?_
    rw [hresponse]
    exact length_ownLines_le hown hfresh

/--
A request from size 0 is answered with the stored size, if there is one.
-/
theorem HandsIn.conflict (h : HandsIn sha256 crypto service note logVkeys leaves p)
    (hhost : (hosts n).Good) (hstores : Stores sha256 files p.cp.origin leaves m) (hpos : m ≠ 0)
    : ∃ files', Stores sha256 files' p.cp.origin leaves m ∧
        sendCheckpoint (service.post sha256 crypto hosts) (files, n) note 0 []
          = ((files', n + 1), .ok ⟨409, utf8 (Json.natText m ++ [newline])⟩) := by
  rcases hstores with ⟨hle, hstored⟩
  cases hprev : files.load.origins.get? p.cp.origin with
  | none =>
    rw [hprev] at hstored
    exact absurd hstored hpos
  | some e =>
    rw [hprev] at hstored
    rcases witnessCosign_conflict h.presented hhost rfl rfl hprev (Nat.zero_le _)
      (by rw [hstored.1]; exact Ne.symm hpos) with ⟨out, hout, hstatus, hsize, horigins⟩
    have hresponse : out.response = ⟨409, utf8 (Json.natText m ++ [newline])⟩ := by
      rw [Out.response, if_pos hstatus, hsize, hstored.1]
      rfl
    have hlen := h.length_le
    refine ⟨(witnessCosign sha256 crypto service.keys (hosts n) files ((⟨0, [], note⟩ :
      AddCheckpoint).request logVkeys p.cp.origin none)).1, ⟨hle, ?_⟩, ?_⟩
    . rw [horigins, hprev]
      exact hstored
    . rw [← hresponse]
      refine h.send_eq (Nat.zero_le _) ⟨Nat.zero_le _, by simp⟩ (Prod.ext rfl hout) ?_
      rw [hresponse]
      dsimp only
      have hnum : (Json.natText m).length ≤ 20 := Json.length_natText_le (by omega)
      have hutf8 := length_utf8_le (Json.natText m ++ [newline])
      have hmax : maxAnswer = 1048576 := rfl
      rw [List.length_append, List.length_singleton] at hutf8
      omega

theorem HandsIn.kept_ne_nil {witnessVkeys : List Str}
    (h : HandsIn sha256 crypto service note logVkeys leaves p)
    (hrelies : Relies sha256 crypto service.keys
      ((⟨0, [], note⟩ : AddCheckpoint).request logVkeys p.cp.origin none) witnessVkeys)
    : p.kept ≠ [] := by
  rcases accepted_of_present h.presented with ⟨logKeys, lines, own, haccepted⟩
  rcases haccepted.opened.verified with ⟨known, _, _, hknown, _, _, line, hline, sig, s, hparse, hby⟩
  rcases hby with ⟨typ, pub, t, hget, _⟩
  have hmem := (mem_logKeys_iff haccepted.opened.logKeys_eq hknown).mp hget
  refine List.ne_nil_of_mem (haccepted.mem_kept_iff.mpr ⟨hline, sig, hparse, fun hmine => ?_⟩)
  rcases (haccepted.own_iff sig).mp hmine with ⟨key', hkey', hlineOf⟩
  have heq := hrelies.no_clash _ key' (Or.inl (Or.inl (haccepted.opened.mem_logKeys.mp hmem)))
    (Or.inr hkey') hlineOf.1.symm hlineOf.2.symm
  have htyp := haccepted.opened.typ_mem hmem
  rw [heq] at htyp
  exact not_witness_of_log htyp hkey'.typ_mem

theorem namesOf_eq {sigs : List (Str × Bytes)} {name : Str} (hne : sigs ≠ [])
    (h : ∀ sig ∈ sigs, sig.1 = name) : namesOf sigs = [name] := by
  have hreplicate : sigs.map Prod.fst = List.replicate sigs.length name := by
    rw [List.eq_replicate_iff]
    refine ⟨List.length_map _, fun x hx => ?_⟩
    rcases List.mem_map.mp hx with ⟨sig, hsig, rfl⟩
    exact h sig hsig
  rw [namesOf, hreplicate, List.replicate_dedup (by simpa using hne)]
  rfl

/--
The lines of the witness are taken over, and the note is good.
-/
theorem HandsIn.received_eq (clock : Int) {timestamp : Int} {witnessVkeys : List Str}
    {expectedOrigin : Option Str} {trusted : List VKey} {raws : List Bytes}
    (h : HandsIn sha256 crypto service note logVkeys leaves p)
    (hown : OwnLines sha256 crypto service.keys p.text p.cp timestamp raws)
    (hcorrect : SignsWell crypto service.keys)
    (hrelies : Relies sha256 crypto service.keys
      ((⟨0, [], note⟩ : AddCheckpoint).request logVkeys p.cp.origin none) witnessVkeys)
    (horigin : expectedOrigin = some p.cp.origin ∨ expectedOrigin = none ∧
      ∀ v ∈ logVkeys, ∀ key, parseVkey sha256 true v = .ok key → key.name = p.cp.origin)
    (htrusted : witnessVkeys.mapM (witnessKey sha256) = .ok trusted)
    : ∃ cosigned, received sha256 crypto clock note witnessVkeys logVkeys expectedOrigin trusted
          ⟨200, utf8 (Separated.terminated newline (ownLines service.keys raws))⟩
        = .ok ⟨.ok, some 200, some cosigned, [service.keys.name], none⟩ := by
  rcases accepted_of_present h.presented with ⟨logKeys, lines, own, haccepted⟩
  rcases haccepted.lines_eq with ⟨sigs, hnote, _⟩
  have hnote : IsNote note p.text lines sigs := hnote
  rcases hown.raws_eq with ⟨ed, _, hed, hraws, _⟩
  have hfresh := hown.fresh hcorrect haccepted.opened.parse_eq hed
  have hne : ownLines service.keys raws ≠ [] := by simp [ownLines, hraws]
  have hplain := ownLines_plain hown
  have hdash : ∀ line ∈ ownLines service.keys raws, [emDash, space] <+: line := by
    intro line hline
    rcases List.mem_map.mp hline with ⟨raw, _, rfl⟩
    exact ⟨_, rfl⟩
  have hanswer := answerLines?_terminated hne fun line hline =>
    ⟨hdash line hline, (hplain line hline).1.2, (hplain line hline).2⟩
  have hsigs : List.Forall₂ (fun line sig => parseSigLine line = .ok sig)
      (ownLines service.keys raws) (raws.map fun raw => (service.keys.name, raw)) := by
    rw [ownLines, List.forall₂_map_left_iff, List.forall₂_map_right_iff, List.forall₂_same]
    exact fun raw hraw => (hfresh.of_raw raw hraw).1
  -- the note with the answer behind it
  have hboth : IsNote (note ++ utf8 (Separated.terminated newline (ownLines service.keys raws))) p.text
      (lines ++ ownLines service.keys raws)
      (sigs ++ raws.map fun raw => (service.keys.name, raw)) := by
    have hbytes : note ++ utf8 (Separated.terminated newline (ownLines service.keys raws))
        = utf8 (render p.text (lines ++ ownLines service.keys raws)) := by
      rw [← render_append, utf8_append]
      exact congrArg (· ++ _) (Utf8.eq_flatMap_of_decode? hnote.decode_eq)
    rw [hbytes]
    refine hnote.with_lines ?_ (List.rel_append hnote.lines_eq hsigs) ?_ ?_
    . intro line hline
      rcases List.mem_append.mp hline with hline | hline
      . exact hnote.scalar.2 line hline
      . exact (hplain line hline).2
    . simp [hne]
    . have hroom := h.room
      rw [noteLines_eq hnote] at hroom
      rw [List.length_append, ownLines, List.length_map, hfresh.length_eq]
      exact hroom
  rcases takeOver_eq (trusted.map fun key => (key.name, key.kid)) hnote hboth with
    ⟨fresh, hforall, htake⟩
  have heq : fresh = raws.map fun raw => (service.keys.name, raw) :=
    Except.ok.inj ((Except.mapM_eq_ok.mpr hforall).symm.trans (Except.mapM_eq_ok.mpr hsigs))
  subst heq
  have hlineOf : ∀ v ∈ witnessVkeys, ∀ key, parseVkey sha256 false v = .ok key →
      OwnKey sha256 crypto service.keys key ∧ ∃ raw ∈ raws,
        Signs crypto ed p.text key (service.keys.name, raw) (some timestamp.toNat) ∧
        (service.keys.name, raw) ∈ ofTrusted (trusted.map fun key => (key.name, key.kid))
          (raws.map fun raw => (service.keys.name, raw)) := by
    intro v hv key hparse
    rcases hrelies.own v hv with ⟨key', hparse', hkey'⟩
    rw [hparse, Except.ok.injEq] at hparse'
    subst hparse'
    rcases hfresh.of_key key hkey' with ⟨raw, hraw, hsigns⟩
    exact ⟨hkey', raw, hraw, hsigns, mem_ofTrusted.mpr ⟨List.mem_map_of_mem hraw,
      (idOf_mem_iff htrusted).mpr ⟨v, hv, key, hparse, hsigns.1⟩⟩⟩
  rcases List.exists_mem_of_ne_nil _ hrelies.ne_nil with ⟨v, hv⟩
  rcases hrelies.own v hv with ⟨key, hparse, _⟩
  rcases hlineOf v hv key hparse with ⟨hkey, raw, _, hsigns, hmine⟩
  rcases merge_cases hnote hboth hforall with ⟨hnil, _⟩ | ⟨cosigned, lines', sigs', hnonempty, hmerge,
    hcosigned, hmem⟩
  . exact absurd hnil (List.ne_nil_of_mem hmine)
  . have hnames : namesOf (ofTrusted (trusted.map fun key => (key.name, key.kid))
        (raws.map fun raw => (service.keys.name, raw))) = [service.keys.name] := by
      refine namesOf_eq hnonempty fun sig hsig => ?_
      rcases List.mem_map.mp (mem_ofTrusted.mp hsig).1 with ⟨raw, _, rfl⟩
      rfl
    have htakes : Takes sha256 crypto service.keys witnessVkeys ed p.text timestamp.toNat sigs sigs' := {
      of_mem := by
        intro sig hsig
        rcases (hmem sig).mp hsig with ⟨hsig, hid⟩ | htaken
        . refine Or.inl ⟨hsig, fun v hv key hparse hline => hid ?_⟩
          rcases hlineOf v hv key hparse with ⟨_, raw, _, hsigns, hmine⟩
          refine List.mem_map.mpr ⟨_, hmine, ?_⟩
          rw [idOf, idOf, ← hsigns.1.1, ← hsigns.1.2, hline.1, hline.2]
        . rcases List.mem_map.mp (mem_ofTrusted.mp htaken).1 with ⟨raw, hraw, rfl⟩
          exact Or.inr (hfresh.of_raw raw hraw).2
      keeps := by
        intro sig hsig hnone
        refine (hmem sig).mpr (Or.inl ⟨hsig, fun hid => ?_⟩)
        rcases List.mem_map.mp hid with ⟨sig', hsig', heq⟩
        rcases List.mem_map.mp (mem_ofTrusted.mp hsig').1 with ⟨raw, hraw, rfl⟩
        rcases (hfresh.of_raw raw hraw).2 with ⟨key', hkey', hsigns'⟩
        simp only [idOf, Prod.mk.injEq] at heq
        exact hnone key' hkey' ⟨hsigns'.1.1.trans heq.1, hsigns'.1.2.trans heq.2⟩
      signed := ⟨_, (hmem _).mpr (Or.inr hmine), v, hv, key, hparse, hkey, hsigns⟩ }
    have hsatisfied := haccepted.opened.satisfied clock none hed hnote hcosigned htakes
      hrelies (Int.le_refl 0) horigin
    rcases hsatisfied with ⟨v', hverify, hverdict⟩
    refine ⟨cosigned, ?_⟩
    have hverify' : verifyWitnessed sha256 crypto clock cosigned logVkeys witnessVkeys
        ⟨1, none, none, 0, expectedOrigin⟩ = .ok v' := hverify
    rw [hmerge, hnames] at htake
    unfold received
    dsimp only
    rw [if_neg (by simp), hanswer]
    dsimp only
    rw [htake]
    dsimp only
    rw [hverify', Except.ok_bind, if_neg (by simp [hverdict])]
    rfl

theorem exists_trusted {keys : Keys} {r : Request} {witnessVkeys : List Str}
    (hrelies : Relies sha256 crypto keys r witnessVkeys)
    : ∃ trusted, witnessVkeys.mapM (witnessKey sha256) = .ok trusted := by
  have hown := hrelies.own
  clear hrelies
  induction witnessVkeys with
  | nil => exact ⟨[], rfl⟩
  | cons v witnessVkeys ih =>
    rw [List.forall_mem_cons] at hown
    rcases hown with ⟨⟨key, hparse, hkey⟩, hown⟩
    rcases ih hown with ⟨trusted, htrusted⟩
    rw [mapM_witnessKey_eq_ok] at htrusted
    exact ⟨key :: trusted, mapM_witnessKey_eq_ok.mpr
      (.cons ⟨hparse, fun htyp => not_witness_of_log htyp hkey.typ_mem⟩ htrusted)⟩

theorem HandsIn.exists_logKeys (h : HandsIn sha256 crypto service note logVkeys leaves p)
    : ∃ logKeys, logVkeys.mapM (parseVkey sha256 true) = .ok logKeys := by
  rcases accepted_of_present h.presented with ⟨logKeys, _, _, haccepted⟩
  have hkeys := checkLogKeys_eq_ok.mp haccepted.opened.logKeys_eq
  exact ⟨logKeys, Except.mapM_eq_ok.mpr (hkeys.imp fun _ _ hkey => hkey.1)⟩

variable (hosts n) in
/--
The first submission to a witness that has stored nothing, or the empty tree.
-/
theorem HandsIn.submit_first (clock : Int) {witnessVkeys : List Str} {expectedOrigin : Option Str}
    (h : HandsIn sha256 crypto service note logVkeys leaves p) (hhost : (hosts n).Good)
    (hstores : Stores sha256 files p.cp.origin leaves 0)
    (hsign : CanSign crypto service.keys) (hcorrect : SignsWell crypto service.keys)
    (hrelies : Relies sha256 crypto service.keys
      ((⟨0, [], note⟩ : AddCheckpoint).request logVkeys p.cp.origin none) witnessVkeys)
    (horigin : expectedOrigin = some p.cp.origin ∨ expectedOrigin = none ∧
      ∀ v ∈ logVkeys, ∀ key, parseVkey sha256 true v = .ok key → key.name = p.cp.origin)
    : ∃ files' cosigned, submitCheckpoint sha256 crypto (service.post sha256 crypto hosts) clock
          (files, n) note leaves witnessVkeys logVkeys expectedOrigin
        = ((files', n + 1), .ok ⟨.ok, some 200, some cosigned, [service.keys.name], none⟩) ∧
        Stores sha256 files' p.cp.origin leaves leaves.length ∧
        Satisfied sha256 crypto clock cosigned logVkeys witnessVkeys
          ⟨1, none, none, 0, expectedOrigin⟩ := by
  rcases exists_trusted hrelies with ⟨trusted, htrusted⟩
  rcases h.exists_logKeys with ⟨logKeys, hlogKeys⟩
  rcases h.answered hhost hstores hsign hcorrect (h.kept_ne_nil hrelies) with
    ⟨files', raws, hown, hstores', hsend⟩
  rcases h.received_eq clock hown hcorrect hrelies horigin htrusted with ⟨cosigned, hreceived⟩
  rcases received_ok hreceived rfl with ⟨_, _, _, _, _, hsatisfied, hnote, _⟩
  rw [← Option.some.inj hnote] at hsatisfied
  refine ⟨files', cosigned, ?_, hstores', hsatisfied⟩
  have hproof : proofLines sha256 leaves 0 = [] := rfl
  rw [hproof] at hsend
  unfold submitCheckpoint
  simp only [htrusted, hlogKeys, hsend, hreceived]
  rfl

variable (hosts n) in
/--
A later submission: the witness answers the size of its checkpoint, and gets the proof from there.
-/
theorem HandsIn.submit_again (clock : Int) {witnessVkeys : List Str} {expectedOrigin : Option Str}
    (h : HandsIn sha256 crypto service note logVkeys leaves p) (hhost : (hosts n).Good)
    (hhost' : (hosts (n + 1)).Good) (hstores : Stores sha256 files p.cp.origin leaves m)
    (hpos : 0 < m) (hsign : CanSign crypto service.keys) (hcorrect : SignsWell crypto service.keys)
    (hrelies : Relies sha256 crypto service.keys
      ((⟨0, [], note⟩ : AddCheckpoint).request logVkeys p.cp.origin none) witnessVkeys)
    (horigin : expectedOrigin = some p.cp.origin ∨ expectedOrigin = none ∧
      ∀ v ∈ logVkeys, ∀ key, parseVkey sha256 true v = .ok key → key.name = p.cp.origin)
    : ∃ files' cosigned, submitCheckpoint sha256 crypto (service.post sha256 crypto hosts) clock
          (files, n) note leaves witnessVkeys logVkeys expectedOrigin
        = ((files', n + 2), .ok ⟨.ok, some 200, some cosigned, [service.keys.name], none⟩) ∧
        Stores sha256 files' p.cp.origin leaves leaves.length ∧
        Satisfied sha256 crypto clock cosigned logVkeys witnessVkeys
          ⟨1, none, none, 0, expectedOrigin⟩ := by
  rcases exists_trusted hrelies with ⟨trusted, htrusted⟩
  rcases h.exists_logKeys with ⟨logKeys, hlogKeys⟩
  rcases h.conflict hhost hstores (by omega) with ⟨files', hstores', hfirst⟩
  rcases h.answered hhost' hstores' hsign hcorrect (h.kept_ne_nil hrelies) with
    ⟨files'', raws, hown, hstores'', hsecond⟩
  rcases h.received_eq clock hown hcorrect hrelies horigin htrusted with ⟨cosigned, hreceived⟩
  rcases received_ok hreceived rfl with ⟨_, _, _, _, _, hsatisfied, hnote, _⟩
  rw [← Option.some.inj hnote] at hsatisfied
  refine ⟨files'', cosigned, ?_, hstores'', hsatisfied⟩
  have hold : m < 10 ^ 20 := by
    have hle := h.length_le
    have hle' := hstores.1
    omega
  have hproof : (if m < leaves.length then consistencyProofB64 sha256 leaves m else .ok [])
      = .ok (proofLines sha256 leaves m) := by
    unfold proofLines
    split
    . next hlt =>
      rcases exists_consistencyProof sha256 leaves m hpos hlt with ⟨proof, hproof, _⟩
      rw [if_pos ⟨hpos, hlt⟩, consistencyProofB64, hproof]
      rfl
    . next hnlt => rw [if_neg (fun hand => hnlt hand.2)]
  have hresubmit : resubmit sha256 (service.post sha256 crypto hosts) (files', n + 1) note leaves
      ⟨409, utf8 (Json.natText m ++ [newline])⟩
      = ((files'', n + 2), .ok (.inr
          ⟨200, utf8 (Separated.terminated newline (ownLines service.keys raws))⟩)) := by
    unfold resubmit
    simp only [conflictSize?_natText hold, hproof]
    rw [if_pos ⟨hpos, hstores.1⟩, hsecond]
  unfold submitCheckpoint
  simp only [htrusted, hlogKeys, hfirst, ↓reduceIte, hresubmit, hreceived]
  rfl

variable (hosts n) in
/--
A witness that stores the checkpoint of some of the first leaves, or none, cosigns the checkpoint of
all of them, in one request or in two. The note that comes back is accepted, and the checkpoint is
the one that is stored.
-/
theorem submitCheckpoint_cosigned (clock : Int) {witnessVkeys : List Str}
    {expectedOrigin : Option Str} (h : HandsIn sha256 crypto service note logVkeys leaves p)
    (hhosts : ∀ k, k < 2 → (hosts (n + k)).Good)
    (hstores : Stores sha256 files p.cp.origin leaves m)
    (hsign : CanSign crypto service.keys) (hcorrect : SignsWell crypto service.keys)
    (hrelies : Relies sha256 crypto service.keys
      ((⟨0, [], note⟩ : AddCheckpoint).request logVkeys p.cp.origin none) witnessVkeys)
    (horigin : expectedOrigin = some p.cp.origin ∨ expectedOrigin = none ∧
      ∀ v ∈ logVkeys, ∀ key, parseVkey sha256 true v = .ok key → key.name = p.cp.origin)
    : ∃ files' cosigned, submitCheckpoint sha256 crypto (service.post sha256 crypto hosts) clock
          (files, n) note leaves witnessVkeys logVkeys expectedOrigin
        = ((files', if m = 0 then n + 1 else n + 2),
            .ok ⟨.ok, some 200, some cosigned, [service.keys.name], none⟩) ∧
        Stores sha256 files' p.cp.origin leaves leaves.length ∧
        Satisfied sha256 crypto clock cosigned logVkeys witnessVkeys
          ⟨1, none, none, 0, expectedOrigin⟩ := by
  by_cases hm : m = 0
  . subst hm
    rw [if_pos rfl]
    exact h.submit_first hosts n clock (hhosts 0 (by decide)) hstores hsign hcorrect hrelies horigin
  . rw [if_neg hm]
    exact h.submit_again hosts n clock (hhosts 0 (by decide)) (hhosts 1 (by decide)) hstores
      (by omega) hsign hcorrect hrelies horigin

end

end

/-!
### Submissions of one leaf and of two
-/

def exampleNote (leaves : List Bytes) : Bytes :=
  utf8 (render (textOf (exampleCheckpoint leaves)) [exampleLogLine])

def exampleService : Service := ⟨exampleKeys, Dict.empty.set exampleName [exampleLogVkey]⟩

theorem length_exampleNote_le (leaves : List Bytes) (h : leaves.length ≤ 2 ^ 62)
    : (exampleNote leaves).length + 2 ^ 14 ≤ maxBody := by
  have hutf8 := length_utf8_le (render (textOf (exampleCheckpoint leaves)) [exampleLogLine])
  have hnum : (Json.natText leaves.length).length ≤ 20 := Json.length_natText_le (by omega)
  have hname : exampleName.length = 3 := rfl
  have hsig : exampleLogSig.length = 64 := rfl
  have hmax : maxBody = 2097152 := rfl
  simp only [render, textOf, checkpointLines, exampleCheckpoint, exampleLogLine, signatureLine,
    Separated.terminated_cons, Separated.terminated_nil, List.length_append, List.length_cons,
    List.length_nil, Base64.length_encode, length_mth, length_keyId, hname, hsig] at hutf8
  rw [exampleNote]
  simp only [render, textOf, checkpointLines, exampleCheckpoint, exampleLogLine, signatureLine,
    Separated.terminated_cons, Separated.terminated_nil]
  omega

theorem handsIn_example (leaves : List Bytes) (h : leaves.length ≤ 2 ^ 62)
    : HandsIn sha256 exampleCrypto exampleService (exampleNote leaves) [exampleLogVkey] leaves
        (examplePresented (exampleCheckpoint leaves)) := by
  have haccepted : Accepted sha256 exampleCrypto exampleKeys
      (exampleCall (exampleCheckpoint leaves) [] 1).request
      (examplePresented (exampleCheckpoint leaves)) [exampleVKey] [exampleLogLine]
      [keyId sha256 exampleKeys.name typeCosigV1 exampleWitnessKey] :=
    accepted_example (isCheckpoint_example _ (by unfold maxSize; omega)) (scalar_example _) rfl rfl rfl
      rfl (Nat.zero_le _)
  rcases haccepted.lines_eq with ⟨sigs, hnote, _⟩
  exact {
    served := Dict.get?_set_self _ _ _
    presented := (haccepted.with_request ((⟨0, [], exampleNote leaves⟩ : AddCheckpoint).request
      [exampleLogVkey] exampleName none) rfl rfl rfl (Nat.zero_le _)).present_eq
    size_eq := rfl
    root_eq := rfl
    length_le := h
    note_le := length_exampleNote_le leaves h
    room := by
      have hlines : noteLines (exampleNote leaves) (examplePresented (exampleCheckpoint leaves)).text
          = [exampleLogLine] := noteLines_eq hnote
      rw [hlines]
      decide }

theorem submitCheckpoint_sound_example
    : ∃ cosigned, Satisfied sha256 exampleCrypto 0 cosigned [exampleLogVkey]
        [exampleWitnessVkey exampleWitnessKey] ⟨1, none, none, 0, some exampleName⟩ := by
  have hstores : Stores sha256 .empty exampleName [[0x61]] 0 := ⟨Nat.zero_le _, rfl⟩
  rcases (handsIn_example [[0x61]] (by decide)).submit_first (fun _ => .good 1 1) 0 0
    ⟨rfl, by decide⟩ hstores canSign_example signsWell_example (relies_example rfl)
    (Or.inl rfl) with ⟨files', cosigned, h, _⟩
  rcases submitCheckpoint_sound sha256 exampleCrypto _ 0 _ _ _ _ _ _ _ (congrArg Prod.snd h) rfl with
    ⟨cosigned, _, _, _, _, _, _, hsatisfied, _⟩
  exact ⟨cosigned, hsatisfied⟩

theorem submitCheckpoint_cosigned_example
    : ∃ files' cosigned, submitCheckpoint sha256 exampleCrypto
        (exampleService.post sha256 exampleCrypto fun _ => .good 2 2) 0
        (run sha256 exampleCrypto exampleKeys [exampleFirst], 0) (exampleNote exampleLeaves) exampleLeaves
        [exampleWitnessVkey exampleWitnessKey] [exampleLogVkey] (some exampleName)
      = ((files', 2), .ok ⟨.ok, some 200, some cosigned, [exampleKeys.name], none⟩) := by
  have hstores : Stores sha256 (run sha256 exampleCrypto exampleKeys [exampleFirst]) exampleName
      exampleLeaves 1 := by
    rcases stored_of_granted granted_exampleFirst with ⟨st, e, hst, he, hsize, hroot, _⟩
    refine ⟨by decide, ?_⟩
    have hload : (run sha256 exampleCrypto exampleKeys [exampleFirst]).load = st := by
      rw [Files.load, run, Runs.run_cons, Runs.run_nil, hst]
      rfl
    have hget : st.origins.get? exampleName = some e := he
    rw [hload, hget]
    exact ⟨hsize, hroot⟩
  rcases submitCheckpoint_cosigned (fun _ => .good 2 2) 0 0
    (handsIn_example exampleLeaves (by decide))
    (fun _ _ => ⟨rfl, by decide⟩) hstores canSign_example
    signsWell_example (relies_example rfl) (Or.inl rfl) with ⟨files', cosigned, h, _⟩
  exact ⟨files', cosigned, h⟩

end Witness
end CryptoValid
