import CryptoValid.Checkpoint.RoundTrip
import CryptoValid.Witness.Cosign

/-!
This module contains the body of a request to a witness, and that the texts of checkpoints, notes and
such bodies are read back as they were written.
-/

namespace CryptoValid
namespace Witness

open Checkpoint

structure AddCheckpoint where
  oldSize : Nat
  proof : List Str
  note : Bytes
  deriving DecidableEq

/--
`re.fullmatch(r"old (0|[1-9][0-9]{0,19})", line)`.
-/
def oldSize? (line : Str) : Option Nat :=
  if (txt "old ").isPrefixOf line && isSizeText (line.drop 4) then
    some (Json.natOfText (line.drop 4))
  else
    none

/--
A hash of another length than 32 bytes is refused with the text of a line that is no base64: the
handler around the check takes both.
-/
def isProofLine (line : Str) : Bool := (Base64.decode? line).any fun hash => hash.length = 32

def parseAddCheckpointBody (body : Bytes) : Except NoteError AddCheckpoint :=
  match Utf8.decode? body with
  | none => .error (txt "body is not UTF-8")
  | some s =>
    match Separated.cutPair? newline s with
    | none => .error (txt "body has no empty line between the proof and the checkpoint")
    | some (head, note) =>
      if note.isEmpty then
        .error (txt "missing checkpoint")
      else if note.head? = some newline then
        .error (txt "empty proof line")
      else
        let lines := Separated.split newline head
        match oldSize? (lines.headD []) with
        | none => .error (txt "first line must be 'old <size>'")
        | some oldSize =>
          let proof := lines.tail
          if maxProof < proof.length then
            .error (txt "more than 63 proof lines")
          else if !proof.all isProofLine then
            .error (txt "proof line is not standard base64")
          else
            .ok ⟨oldSize, proof, utf8 note⟩

/--
A proof line with a surrogate cannot be encoded.
-/
def formatAddCheckpointBody (oldSize : Int) (proof : List Str) (note : Bytes) : Option Bytes :=
  (Utf8.encode? (txt "old " ++ Json.intText oldSize ++ newline ::
    (Separated.terminated newline proof ++ [newline]))).map (· ++ note)

/-!
### Bodies
-/

/--
What `parse_add_checkpoint_body` lets through.
-/
structure Sendable (r : AddCheckpoint) : Prop where
  oldSize_lt : r.oldSize < 10 ^ 20
  proof_length : r.proof.length ≤ maxProof
  proof_lines : ∀ line ∈ r.proof, isProofLine line = true
  note_text : ∃ text, Utf8.decode? r.note = some text ∧ text ≠ [] ∧ text.head? ≠ some newline

theorem oldSize?_eq_some {line : Str} {n : Nat}
    : oldSize? line = some n ↔ n < 10 ^ 20 ∧ line = txt "old " ++ Json.natText n := by
  have hlen : (txt "old ").length = 4 := rfl
  constructor
  . intro h
    unfold oldSize? at h
    split at h
    . next hline =>
      rw [Bool.and_eq_true, List.isPrefixOf_iff_prefix] at hline
      rcases hline.1 with ⟨rest, rfl⟩
      rw [← hlen, List.drop_left] at h hline
      rcases natText_of_isSizeText hline.2 with ⟨htext, hlt⟩
      rw [← Option.some.inj h, htext]
      exact ⟨hlt, rfl⟩
    . simp at h
  . rintro ⟨hn, rfl⟩
    unfold oldSize?
    rw [← hlen, List.drop_left, isSizeText_natText hn, Json.natOfText_natText, if_pos]
    simp

theorem plain_of_isProofLine {line : Str} (h : isProofLine line = true)
    : line ≠ [] ∧ newline ∉ line ∧ Str.Scalar line := by
  rcases Option.any_eq_true _ _ |>.mp h with ⟨hash, hdecode, hlen⟩
  refine ⟨?_, (plain_of_decode? hdecode).1.newline_not_mem, scalar_of_decode? hdecode⟩
  rintro rfl
  have hnil : Base64.decode? [] = some [] := by decide
  rw [hnil, Option.some.injEq] at hdecode
  rw [← hdecode] at hlen
  simp at hlen

/--
The lines above the empty line.
-/
def headLines (r : AddCheckpoint) : List Str := (txt "old " ++ Json.natText r.oldSize) :: r.proof

theorem formatAddCheckpointBody_eq (r : AddCheckpoint) (hlines : ∀ line ∈ r.proof, Str.Scalar line)
    : formatAddCheckpointBody r.oldSize r.proof r.note =
        some (utf8 (Separated.terminated newline (headLines r) ++ [newline]) ++ r.note) := by
  have hint : Json.intText (r.oldSize : Int) = Json.natText r.oldSize := rfl
  have htext : txt "old " ++ Json.intText r.oldSize ++
      newline :: (Separated.terminated newline r.proof ++ [newline])
        = Separated.terminated newline (headLines r) ++ [newline] := by
    rw [hint, headLines, Separated.terminated_cons]
    simp
  have hscalar : Str.Scalar (Separated.terminated newline (headLines r) ++ [newline]) := by
    rw [Str.scalar_append]
    refine ⟨scalar_terminated ?_, by decide⟩
    rw [headLines, List.forall_mem_cons, Str.scalar_append]
    exact ⟨⟨by decide, scalar_natText _⟩, hlines⟩
  unfold formatAddCheckpointBody
  rw [htext, Utf8.encode?, if_pos hscalar]
  rfl

theorem headLines_plain {r : AddCheckpoint} (h : Sendable r)
    : ∀ line ∈ headLines r, line ≠ [] ∧ newline ∉ line := by
  rw [headLines, List.forall_mem_cons]
  refine ⟨⟨by simp [Json.natText_ne_nil], ?_⟩, fun line hline => ?_⟩
  . rw [List.mem_append, not_or]
    exact ⟨by decide, (plain_natText _).newline_not_mem⟩
  . rcases plain_of_isProofLine (h.proof_lines line hline) with ⟨hne, hnewline, _⟩
    exact ⟨hne, hnewline⟩

theorem parseAddCheckpointBody_format {r : AddCheckpoint} {body : Bytes} (h : Sendable r)
    (hbody : formatAddCheckpointBody r.oldSize r.proof r.note = some body)
    : parseAddCheckpointBody body = .ok r := by
  rcases h.note_text with ⟨text, hdecode, hne, hhead⟩
  have hnote : r.note = utf8 text := Utf8.eq_flatMap_of_decode? hdecode
  have hproof : ∀ line ∈ r.proof, Str.Scalar line :=
    fun line hline => (plain_of_isProofLine (h.proof_lines line hline)).2.2
  have hplain := headLines_plain h
  have hlines : headLines r ≠ [] := by simp [headLines]
  rw [formatAddCheckpointBody_eq r hproof, Option.some.injEq, hnote, ← utf8_append] at hbody
  have hscalar : Str.Scalar (Separated.terminated newline (headLines r) ++ [newline] ++ text) := by
    rw [Str.scalar_append, Str.scalar_append]
    refine ⟨⟨scalar_terminated ?_, by decide⟩, Utf8.scalar_of_decode? hdecode⟩
    rw [headLines, List.forall_mem_cons, Str.scalar_append]
    exact ⟨⟨by decide, scalar_natText _⟩, hproof⟩
  have hcut := Separated.cutPair?_terminated newline (headLines r) hlines hplain text
  have hold := oldSize?_eq_some.mpr ⟨h.oldSize_lt, rfl⟩
  have hall : r.proof.all isProofLine = true := List.all_eq_true.mpr h.proof_lines
  unfold parseAddCheckpointBody
  rw [← hbody, decode?_utf8 hscalar, List.append_assoc, List.singleton_append]
  dsimp only
  rw [hcut]
  dsimp only
  rw [if_neg (by simpa using hne), if_neg hhead,
    Separated.split_dropLast_terminated newline _ hlines fun line hline => (hplain line hline).2,
    headLines, List.headD_cons, hold]
  dsimp only
  rw [List.tail_cons, if_neg (Nat.not_lt.mpr h.proof_length), if_neg (by simp [hall]), ← hnote]

theorem formatAddCheckpointBody_parse {r : AddCheckpoint} {body : Bytes}
    (h : parseAddCheckpointBody body = .ok r)
    : formatAddCheckpointBody r.oldSize r.proof r.note = some body ∧ Sendable r := by
  unfold parseAddCheckpointBody at h
  split at h
  . simp at h
  . next s hdecode =>
    split at h
    . simp at h
    . next head note hcut =>
      split at h
      . simp at h
      . next hne =>
        split at h
        . simp at h
        . next hhead =>
          dsimp only at h
          split at h
          . simp at h
          . next oldSize hold =>
            split at h
            . simp at h
            . next hlen =>
              split at h
              . simp at h
              . next hall =>
                rcases oldSize?_eq_some.mp hold with ⟨hlt, hfirst⟩
                have hs := Separated.cutPair?_eq_some newline hcut
                have hscalar := Utf8.scalar_of_decode? hdecode
                rw [hs, Str.scalar_append, Str.scalar_cons, Str.scalar_cons] at hscalar
                have hproof : ∀ line ∈ (Separated.split newline head).tail,
                    isProofLine line = true := by
                  simpa using hall
                have hr := Except.ok.inj h
                subst hr
                have hsend : Sendable ⟨oldSize, (Separated.split newline head).tail, utf8 note⟩ :=
                  { oldSize_lt := hlt
                    proof_length := Nat.not_lt.mp hlen
                    proof_lines := hproof
                    note_text := ⟨note, decode?_utf8 hscalar.2.2.2, by simpa using hne, hhead⟩ }
                refine ⟨?_, hsend⟩
                have hlines : headLines ⟨oldSize, (Separated.split newline head).tail, utf8 note⟩
                    = Separated.split newline head := by
                  rw [headLines]
                  dsimp only
                  rw [← hfirst]
                  rcases List.exists_cons_of_ne_nil (Separated.split_ne_nil newline head)
                    with ⟨first, rest, hcons⟩
                  rw [hcons]
                  rfl
                have hformat := formatAddCheckpointBody_eq
                  ⟨oldSize, (Separated.split newline head).tail, utf8 note⟩
                  fun line hline => (plain_of_isProofLine (hproof line hline)).2.2
                rw [hlines, Separated.terminated_split] at hformat
                rw [hformat, ← utf8_append, Option.some.injEq]
                have hbody : body = utf8 s := Utf8.eq_flatMap_of_decode? hdecode
                rw [hbody, hs]
                simp

/-!
### Notes
-/

/--
A text that can be signed.
-/
structure NoteText (text : Str) : Prop where
  text_ends : text.getLast? = some newline
  text_plain : ∀ c ∈ text, isControl c = true → c = newline
  text_scalar : Str.Scalar text

/--
The name of a key, with the key id and the signature.
-/
def LineName (sig : Str × Bytes) : Prop := nameOk sig.1 = true ∧ Str.Scalar sig.1

/--
What `split_note` takes of a signature line.
-/
def LineSize (sig : Str × Bytes) : Prop := 5 ≤ sig.2.length ∧ sig.2.length ≤ maxSigBytes

/--
The text, an empty line and one line for each signature.
-/
def noteOf (text : Str) (sigs : List (Str × Bytes)) : Bytes :=
  utf8 (render text (sigs.map fun sig => signatureLine sig.1 sig.2))

theorem splitNote_noteOf {text : Str} {sigs : List (Str × Bytes)} (htext : NoteText text)
    (hnames : ∀ sig ∈ sigs, LineName sig)
    : splitNote (noteOf text sigs) = .ok (text, sigs) ↔
        sigs ≠ [] ∧ sigs.length ≤ maxSigs ∧ ∀ sig ∈ sigs, LineSize sig := by
  constructor
  . intro h
    rcases splitNote_eq_ok.mp h with ⟨lines, hnote⟩
    refine ⟨?_, hnote.length_eq ▸ hnote.length_le, fun sig hsig => ?_⟩
    . rintro rfl
      exact hnote.lines_ne_nil (List.length_eq_zero_iff.mp hnote.length_eq)
    . rcases List.exists_of_mem_right hnote.lines_eq hsig with ⟨line, _, hline⟩
      rcases parseSigLine_eq_ok.mp hline with ⟨_, _, _, _, _, hmin, hmax⟩
      exact ⟨hmin, hmax⟩
  . rintro ⟨hne, hlen, hsizes⟩
    refine splitNote_eq_ok.mpr ⟨sigs.map fun sig => signatureLine sig.1 sig.2, ?_⟩
    refine ⟨decode?_utf8 ?_, htext.text_ends, htext.text_plain, ?_, by simpa using hne,
      by simpa using hlen⟩
    . rw [render, Str.scalar_append, Str.scalar_cons]
      refine ⟨htext.text_scalar, by decide, scalar_terminated ?_⟩
      rw [List.forall_mem_map]
      exact fun sig hsig => scalar_signatureLine (hnames sig hsig).2 _
    . rw [List.forall₂_map_left_iff, List.forall₂_same]
      exact fun sig hsig => parseSigLine_signatureLine (hnames sig hsig).1 (hsizes sig hsig).1
        (hsizes sig hsig).2

/-!
### Round trips
-/

theorem texts_roundTrip
    : (∀ origin size root extensions text, checkpointText origin size root extensions = .ok text →
        parseCheckpoint text = .ok ⟨origin, size, root, extensions⟩) ∧
      (∀ text cp, parseCheckpoint text = .ok cp →
        checkpointText cp.origin cp.size cp.root cp.extensions = .ok text) ∧
      (∀ text sigs, NoteText text → (∀ sig ∈ sigs, LineName sig ∧ LineSize sig) → sigs ≠ [] →
        sigs.length ≤ maxSigs → splitNote (noteOf text sigs) = .ok (text, sigs)) ∧
      (∀ body r, parseAddCheckpointBody body = .ok r →
        formatAddCheckpointBody r.oldSize r.proof r.note = some body) ∧
      (∀ body r, Sendable r → formatAddCheckpointBody r.oldSize r.proof r.note = some body →
        parseAddCheckpointBody body = .ok r) := by
  refine ⟨?_, ?_, ?_, ?_, ?_⟩
  . intro origin size root extensions text h
    exact parseCheckpoint_eq_ok.mpr (checkpointText_eq_ok.mp h)
  . intro text cp h
    exact checkpointText_eq_ok.mpr (parseCheckpoint_eq_ok.mp h)
  . intro text sigs htext hsigs hne hlen
    exact (splitNote_noteOf htext fun sig hsig => (hsigs sig hsig).1).mpr
      ⟨hne, hlen, fun sig hsig => (hsigs sig hsig).2⟩
  . intro body r h
    exact (formatAddCheckpointBody_parse h).1
  . intro body r hr hbody
    exact parseAddCheckpointBody_format hr hbody

/--
A note without a signature line is refused, and so is one with 101 of them, and one with a signature
of four bytes.
-/
theorem splitNote_noteOf_refuses
    : splitNote (noteOf (txt "a\n") []) ≠ .ok (txt "a\n", []) ∧
      splitNote (noteOf (txt "a\n") (List.replicate 101 (txt "k", [1, 2, 3, 4, 5])))
        ≠ .ok (txt "a\n", List.replicate 101 (txt "k", [1, 2, 3, 4, 5])) ∧
      splitNote (noteOf (txt "a\n") [(txt "k", [1, 2, 3, 4])])
        ≠ .ok (txt "a\n", [(txt "k", [1, 2, 3, 4])]) := by
  have hplain : (txt "a\n").all (fun c => !isControl c || c = newline) = true := by decide
  have hscalar : Str.Scalar (txt "a\n") := by decide
  have hk : nameOk (txt "k") = true ∧ Str.Scalar (txt "k") := by decide
  have htext : NoteText (txt "a\n") := by
    refine ⟨rfl, fun c hc hcontrol => ?_, hscalar⟩
    simpa [hcontrol] using List.all_eq_true.mp hplain c hc
  have hname : ∀ raw : Bytes, LineName (txt "k", raw) := fun _ => hk
  refine ⟨?_, ?_, ?_⟩
  . intro h
    exact ((splitNote_noteOf htext (by simp)).mp h).1 rfl
  . intro h
    have hlen := ((splitNote_noteOf htext fun sig hsig =>
      List.eq_of_mem_replicate hsig ▸ hname _).mp h).2.1
    rw [List.length_replicate] at hlen
    exact absurd hlen (by decide)
  . intro h
    have hsize := ((splitNote_noteOf htext (by simpa using hname _)).mp h).2.2 _
      List.mem_cons_self
    exact absurd hsize.1 (by decide)

end Witness
end CryptoValid
