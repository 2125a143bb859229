import CryptoValid.Checkpoint.Note

/-!
This module contains what a note is made of: a text, an empty line and signature lines. Notes that
share a text can be compared line by line, so that lines can be left out, added or replaced.
-/

namespace CryptoValid
namespace Checkpoint

/-!
### Texts
-/

theorem utf8_append (s t : Str) : utf8 (s ++ t) = utf8 s ++ utf8 t := by
  simp [utf8]

theorem decode?_utf8 {s : Str} (hs : Str.Scalar s) : Utf8.decode? (utf8 s) = some s :=
  Utf8.decodeWith_flatMap_encodePoint false _ s (Or.inr hs)

theorem scalar_terminated {lines : List Str} (h : ∀ line ∈ lines, Str.Scalar line)
    : Str.Scalar (Separated.terminated newline lines) := by
  intro c hc
  rcases List.mem_flatMap.mp hc with ⟨line, hline, hc⟩
  rcases List.mem_append.mp hc with hc | hc
  . exact h line hline c hc
  . rw [List.mem_singleton.mp hc]
    decide

/-!
### Lines
-/

/--
A text without control characters.
-/
def Plain (s : Str) : Prop := ∀ c ∈ s, isControl c = false

theorem Plain.newline_not_mem {s : Str} (h : Plain s) : newline ∉ s := by
  intro hmem
  have := h newline hmem
  simp [isControl, newline] at this

theorem val_of_decode? {s : Str} {raw : Bytes} (h : Base64.decode? s = some raw)
    : ∀ c ∈ s, 0x2b ≤ c.val ∧ c.val ≤ 0x7a := by
  intro c hc
  rcases Base64.forall_mem_of_decode? h c hc with hc | hc
  . unfold Base64.digit? at hc
    repeat' split at hc
    all_goals first
      | omega
      | simp at hc
  . rw [hc]
    decide

theorem plain_of_decode? {s : Str} {raw : Bytes} (h : Base64.decode? s = some raw)
    : Plain s ∧ space ∉ s := by
  have hval := val_of_decode? h
  refine ⟨?_, ?_⟩
  . intro c hc
    have := hval c hc
    simp only [isControl, decide_eq_false_iff_not]
    omega
  . intro hc
    have := hval space hc
    simp [space] at this

theorem scalar_of_decode? {s : Str} {raw : Bytes} (h : Base64.decode? s = some raw)
    : Str.Scalar s := by
  intro c hc
  have := val_of_decode? h c hc
  simp only [CodePoint.isSurrogate, Bool.and_eq_false_iff, decide_eq_false_iff_not]
  omega

theorem nameOk_iff {name : Str}
    : nameOk name = true ↔ name ≠ [] ∧ ∀ c ∈ name, Python.isSpace c = false ∧ c ≠ plus ∧
        0x20 ≤ c.val := by
  simp [nameOk, List.all_eq_true, and_assoc]

theorem plain_of_nameOk {name : Str} (h : nameOk name = true) : Plain name ∧ space ∉ name := by
  rw [nameOk_iff] at h
  refine ⟨?_, ?_⟩
  . intro c hc
    have := (h.2 c hc).2.2
    simp only [isControl, decide_eq_false_iff_not]
    omega
  . intro hc
    have := (h.2 space hc).1
    revert this
    decide

/--
A signature line: the dash, the name and the base64 text.
-/
theorem parseSigLine_eq_ok {line : Str} {sig : Str × Bytes}
    : parseSigLine line = .ok sig ↔ ∃ b64, line = emDash :: space :: (sig.1 ++ space :: b64) ∧
        nameOk sig.1 = true ∧ b64.length ≤ (maxSigBytes * 4 + 2) / 3 + 3 ∧
        Base64.decode? b64 = some sig.2 ∧ 5 ≤ sig.2.length ∧ sig.2.length ≤ maxSigBytes := by
  constructor
  . intro h
    unfold parseSigLine at h
    split at h
    . next dash name b64 hsplit =>
      split at h
      . simp at h
      . next hname =>
        split at h
        . simp at h
        . next hlen =>
          split at h
          . simp at h
          . next raw hraw =>
            split at h
            . simp at h
            . next hmin =>
              split at h
              . simp at h
              . next hmax =>
                rw [← Except.ok.inj h]
                simp only [Bool.or_eq_true, decide_eq_true_eq, Bool.not_eq_true', not_or,
                  Decidable.not_not, Bool.not_eq_false] at hname
                have hjoin := Separated.terminated_split space line
                rw [hsplit, hname.1] at hjoin
                simp only [Separated.terminated_cons, Separated.terminated_nil,
                  List.cons_append, List.nil_append] at hjoin
                refine ⟨b64, ?_, hname.2, by omega, hraw, Nat.not_lt.mp hmin, Nat.not_lt.mp hmax⟩
                refine (List.append_left_inj [space]).mp (hjoin.symm.trans ?_)
                simp
    . simp at h
  . rintro ⟨b64, hline, hname, hlen, hraw, hmin, hmax⟩
    rcases plain_of_nameOk hname with ⟨_, hspace⟩
    rcases plain_of_decode? hraw with ⟨_, hspace'⟩
    have hsplit : Separated.split space line = [[emDash], sig.1, b64] := by
      rw [hline, show emDash :: space :: (sig.1 ++ space :: b64)
        = [emDash] ++ space :: (sig.1 ++ space :: b64) from rfl,
        Separated.split_append space _ _ (by decide), Separated.split_append space _ _ hspace,
        Separated.split_of_not_mem space _ hspace']
    unfold parseSigLine
    rw [hsplit]
    simp only [hname, hraw]
    rw [if_neg (by simp), if_neg (by omega), if_neg (by omega), if_neg (by omega)]

theorem plain_of_parseSigLine {line : Str} {sig : Str × Bytes} (h : parseSigLine line = .ok sig)
    : Plain line ∧ line ≠ [] := by
  rcases parseSigLine_eq_ok.mp h with ⟨b64, rfl, hname, _, hraw, _⟩
  refine ⟨?_, by simp⟩
  intro c hc
  simp only [List.mem_cons, List.mem_append] at hc
  rcases hc with rfl | rfl | hc | rfl | hc
  . decide
  . decide
  . exact (plain_of_nameOk hname).1 c hc
  . decide
  . exact (plain_of_decode? hraw).1 c hc

theorem parseSigLines_eq_ok {seen : Nat} {lines : List Str} {sigs : List (Str × Bytes)}
    (hseen : seen ≤ maxSigs)
    : parseSigLines seen lines = .ok sigs ↔
        List.Forall₂ (fun line sig => parseSigLine line = .ok sig) lines sigs ∧
          seen + lines.length ≤ maxSigs := by
  induction lines generalizing seen sigs with
  | nil => simp [parseSigLines, eq_comm, hseen]
  | cons line lines ih =>
    unfold parseSigLines
    split
    . next h =>
      simp only [reduceCtorEq, false_iff, not_and, List.length_cons]
      omega
    . next h =>
      simp only [Except.bind_eq_ok, Except.pure_eq_ok, List.forall₂_cons_left_iff,
        ih (show seen + 1 ≤ maxSigs by omega), List.length_cons]
      constructor
      . rintro ⟨sig, hsig, sigs, ⟨hsigs, hlen⟩, rfl⟩
        exact ⟨⟨sig, sigs, hsig, hsigs, rfl⟩, by omega⟩
      . rintro ⟨⟨sig, sigs, hsig, hsigs, rfl⟩, hlen⟩
        exact ⟨sig, hsig, sigs, ⟨hsigs, by omega⟩, rfl⟩

/-!
### Notes
-/

def render (text : Str) (lines : List Str) : Str := text ++ newline :: Separated.terminated newline lines

/--
The lines of a note and what they say.
-/
structure IsNote (b : Bytes) (text : Str) (lines : List Str) (sigs : List (Str × Bytes)) : Prop where
  decode_eq : Utf8.decode? b = some (render text lines)
  text_ends : text.getLast? = some newline
  text_plain : ∀ c ∈ text, isControl c = true → c = newline
  lines_eq : List.Forall₂ (fun line sig => parseSigLine line = .ok sig) lines sigs
  lines_ne_nil : lines ≠ []
  length_le : lines.length ≤ maxSigs

theorem mem_sigs_iff {lines : List Str} {sigs : List (Str × Bytes)}
    (h : List.Forall₂ (fun line sig => parseSigLine line = .ok sig) lines sigs) {sig : Str × Bytes}
    : sig ∈ sigs ↔ ∃ line ∈ lines, parseSigLine line = .ok sig := by
  constructor
  . exact List.exists_of_mem_right h
  . rintro ⟨line, hline, hparse⟩
    rcases List.exists_of_mem_left h hline with ⟨sig', hsig', hparse'⟩
    rw [hparse, Except.ok.injEq] at hparse'
    exact hparse' ▸ hsig'

theorem exists_sigs {lines : List Str} (h : ∀ line ∈ lines, ∃ sig, parseSigLine line = .ok sig)
    : ∃ sigs, List.Forall₂ (fun line sig => parseSigLine line = .ok sig) lines sigs := by
  induction lines with
  | nil => exact ⟨[], .nil⟩
  | cons line lines ih =>
    rw [List.forall_mem_cons] at h
    rcases h.1 with ⟨sig, hsig⟩
    rcases ih h.2 with ⟨sigs, hsigs⟩
    exact ⟨sig :: sigs, .cons hsig hsigs⟩

theorem concat_of_getLast? {s : Str} {c : CodePoint} (h : s.getLast? = some c)
    : s = s.dropLast ++ [c] := by
  rcases List.getLast?_eq_some_iff.mp h with ⟨t, rfl⟩
  rw [List.dropLast_concat]

theorem IsNote.lines_plain {b : Bytes} {text : Str} {lines : List Str} {sigs : List (Str × Bytes)}
    (h : IsNote b text lines sigs) : ∀ line ∈ lines, line ≠ [] ∧ newline ∉ line := by
  intro line hline
  rcases List.exists_of_mem_left h.lines_eq hline with ⟨sig, _, hsig⟩
  rcases plain_of_parseSigLine hsig with ⟨hplain, hne⟩
  exact ⟨hne, hplain.newline_not_mem⟩

theorem cutLastPair?_render {text : Str} {lines : List Str} (htext : text.getLast? = some newline)
    (h : ∀ line ∈ lines, line ≠ [] ∧ newline ∉ line)
    : Separated.cutLastPair? newline (render text lines)
        = some (text.dropLast, Separated.terminated newline lines) := by
  rw [render, concat_of_getLast? htext, List.append_assoc, List.singleton_append,
    List.dropLast_concat]
  exact Separated.cutLastPair?_append newline _ _ (Separated.cutLastPair?_terminated newline lines h)

theorem splitNote_eq_ok {b : Bytes} {text : Str} {sigs : List (Str × Bytes)}
    : splitNote b = .ok (text, sigs) ↔ ∃ lines, IsNote b text lines sigs := by
  constructor
  . intro h
    rcases Except.bind_eq_ok.mp h with ⟨s, hs, h⟩
    unfold checkNoteBytes at hs
    split at hs
    . simp at hs
    . next s' hdecode =>
      split at hs
      . simp at hs
      . next hcontrol =>
        rw [Except.ok.injEq] at hs
        subst hs
        split at h
        . simp at h
        . next hlast =>
          split at h
          . simp at h
          . next before block hcut =>
            rcases Except.bind_eq_ok.mp h with ⟨sigs', hsigs, h⟩
            have h := Except.pure_eq_ok.mp h
            simp only [Prod.mk.injEq] at h
            rcases h with ⟨rfl, rfl⟩
            rcases (parseSigLines_eq_ok (Nat.zero_le _)).mp hsigs with ⟨hall, hlen⟩
            have hs := Separated.cutLastPair?_eq_some newline hcut
            have hblock : block ≠ [] := by
              rintro rfl
              rcases List.exists_of_mem_left hall (show [] ∈ _ by simp) with ⟨sig, _, hsig⟩
              exact (plain_of_parseSigLine hsig).2 rfl
            have hend : block = block.dropLast ++ [newline] := by
              refine concat_of_getLast? ?_
              simp only [ne_eq, Decidable.not_not] at hlast
              rw [hs, List.getLast?_append_of_ne_nil _ (by simp),
                List.getLast?_cons_of_ne_nil (by simp), List.getLast?_cons_of_ne_nil hblock] at hlast
              exact hlast
            refine ⟨Separated.split newline block.dropLast, ?_, by simp, ?_, hall,
              Separated.split_ne_nil newline _, by omega⟩
            . rw [hdecode, render, Separated.terminated_split, ← hend, hs]
              simp
            . intro c hc hctl
              have hmem : c ∈ s' := by
                rw [hs]
                simp only [List.mem_append, List.mem_cons] at hc ⊢
                tauto
              simp only [List.any_eq_true, Bool.and_eq_true, decide_eq_true_eq, not_exists,
                not_and] at hcontrol
              simpa using hcontrol c hmem hctl
  . rintro ⟨lines, hnote⟩
    have htext := concat_of_getLast? hnote.text_ends
    have hplain := hnote.lines_plain
    have hcut := cutLastPair?_render hnote.text_ends hplain
    have hterminated : Separated.terminated newline lines ≠ [] := by
      cases lines with
      | nil => exact absurd rfl hnote.lines_ne_nil
      | cons line lines => simp [Separated.terminated_cons]
    have hlast : (render text lines).getLast? = some newline := by
      rw [render, List.getLast?_append_of_ne_nil _ (by simp),
        List.getLast?_cons_of_ne_nil hterminated]
      have hjoin : Separated.terminated newline lines
          = (Separated.terminated newline lines.dropLast) ++
            (lines.getLast hnote.lines_ne_nil ++ [newline]) := by
        conv_lhs => rw [← List.dropLast_concat_getLast hnote.lines_ne_nil,
          Separated.terminated_append]
        simp [Separated.terminated]
      rw [hjoin]
      simp
    have hcontrol : ((render text lines).any fun c => isControl c && c ≠ newline) = false := by
      rw [List.any_eq_false]
      intro c hc
      simp only [render, List.mem_append, List.mem_cons] at hc
      simp only [Bool.and_eq_true, decide_eq_true_eq, not_and, Decidable.not_not]
      rcases hc with hc | rfl | hc
      . exact hnote.text_plain c hc
      . exact fun _ => rfl
      . intro hctl
        rcases List.mem_flatMap.mp hc with ⟨line, hline, hc⟩
        rcases List.mem_append.mp hc with hc | hc
        . rcases List.exists_of_mem_left hnote.lines_eq hline with ⟨sig, _, hsig⟩
          rw [(plain_of_parseSigLine hsig).1 c hc] at hctl
          simp at hctl
        . exact List.mem_singleton.mp hc
    have hsigs := (parseSigLines_eq_ok (Nat.zero_le _)).mpr
      ⟨hnote.lines_eq, by rw [Nat.zero_add]; exact hnote.length_le⟩
    unfold splitNote checkNoteBytes
    simp only [hnote.decode_eq, hcontrol, Bool.false_eq_true, ↓reduceIte, Except.ok_bind, hlast,
      ne_eq, not_true_eq_false, hcut]
    rw [Separated.split_dropLast_terminated newline lines hnote.lines_ne_nil
      (fun line hline => (hplain line hline).2), hsigs, Except.ok_bind, ← htext]
    rfl

theorem terminated_inj {lines lines' : List Str} (h : ∀ line ∈ lines, newline ∉ line)
    (h' : ∀ line ∈ lines', newline ∉ line)
    (heq : Separated.terminated newline lines = Separated.terminated newline lines')
    : lines = lines' := by
  have hsplit := congrArg (Separated.split newline) heq
  rw [Separated.split_terminated newline _ h, Separated.split_terminated newline _ h'] at hsplit
  exact List.append_cancel_right hsplit

theorem render_inj {text text' : Str} {lines lines' : List Str}
    (htext : text.getLast? = some newline) (htext' : text'.getLast? = some newline)
    (h : ∀ line ∈ lines, line ≠ [] ∧ newline ∉ line)
    (h' : ∀ line ∈ lines', line ≠ [] ∧ newline ∉ line)
    (heq : render text lines = render text' lines') : text = text' ∧ lines = lines' := by
  have hcut := congrArg (Separated.cutLastPair? newline) heq
  rw [cutLastPair?_render htext h, cutLastPair?_render htext' h'] at hcut
  simp only [Option.some.injEq, Prod.mk.injEq] at hcut
  refine ⟨?_, terminated_inj (fun line hline => (h line hline).2)
    (fun line hline => (h' line hline).2) hcut.2⟩
  rw [concat_of_getLast? htext, concat_of_getLast? htext', hcut.1]

/--
The checkpoint above the last empty line.
-/
def shown (note : Str) : Option Parsed :=
  (Separated.cutLastPair? newline note).bind fun cut =>
    match parseCheckpoint (cut.1 ++ [newline]) with
    | .ok cp => some cp
    | .error _ => none

theorem shown_render {text : Str} {lines : List Str} {cp : Parsed}
    (h : ∀ line ∈ lines, line ≠ [] ∧ newline ∉ line) (hcp : parseCheckpoint text = .ok cp)
    : shown (render text lines) = some cp := by
  have htext : text.getLast? = some newline := by
    unfold parseCheckpoint at hcp
    split at hcp
    . simp at hcp
    . next h => simpa using h
  rw [shown, cutLastPair?_render htext h, Option.bind_some, ← concat_of_getLast? htext, hcp]

theorem IsNote.scalar {b : Bytes} {text : Str} {lines : List Str} {sigs : List (Str × Bytes)}
    (h : IsNote b text lines sigs) : Str.Scalar text ∧ ∀ line ∈ lines, Str.Scalar line := by
  have hscalar := Utf8.scalar_of_decode? h.decode_eq
  rw [render, Str.scalar_append, Str.scalar_cons] at hscalar
  refine ⟨hscalar.1, ?_⟩
  intro line hline c hc
  exact hscalar.2.2 c (List.mem_flatMap.mpr ⟨line, hline, List.mem_append_left _ hc⟩)

/--
Any lines that can be read make a note with the text of another one.
-/
theorem IsNote.with_lines {b : Bytes} {text : Str} {lines lines' : List Str}
    {sigs sigs' : List (Str × Bytes)} (h : IsNote b text lines sigs)
    (hscalar : ∀ line ∈ lines', Str.Scalar line)
    (heq : List.Forall₂ (fun line sig => parseSigLine line = .ok sig) lines' sigs')
    (hne : lines' ≠ []) (hlen : lines'.length ≤ maxSigs)
    : IsNote (utf8 (render text lines')) text lines' sigs' where
  decode_eq := by
    refine decode?_utf8 ?_
    rw [render, Str.scalar_append, Str.scalar_cons]
    exact ⟨h.scalar.1, by decide, scalar_terminated hscalar⟩
  text_ends := h.text_ends
  text_plain := h.text_plain
  lines_eq := heq
  lines_ne_nil := hne
  length_le := hlen

theorem IsNote.length_eq {b : Bytes} {text : Str} {lines : List Str} {sigs : List (Str × Bytes)}
    (h : IsNote b text lines sigs) : lines.length = sigs.length := h.lines_eq.length_eq

/--
A note is read in one way only.
-/
theorem IsNote.unique {b : Bytes} {text text' : Str} {lines lines' : List Str}
    {sigs sigs' : List (Str × Bytes)} (h : IsNote b text lines sigs)
    (h' : IsNote b text' lines' sigs') : text = text' ∧ lines = lines' ∧ sigs = sigs' := by
  have heq := (splitNote_eq_ok.mpr ⟨lines, h⟩).symm.trans (splitNote_eq_ok.mpr ⟨lines', h'⟩)
  simp only [Except.ok.injEq, Prod.mk.injEq] at heq
  rcases heq with ⟨rfl, rfl⟩
  have hrender := h.decode_eq.symm.trans h'.decode_eq
  rw [Option.some.injEq] at hrender
  exact ⟨rfl, (render_inj h.text_ends h'.text_ends h.lines_plain h'.lines_plain hrender).2, rfl⟩

end Checkpoint
end CryptoValid
