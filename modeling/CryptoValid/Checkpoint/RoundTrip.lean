import CryptoValid.Checkpoint.Cosigned
import CryptoValid.Lib.Digits

/-!
This module contains the round trips of checkpoints and verifier keys: what is written as a text is
read back as it was, and a note that the log signs opens under the key of the log.
-/

namespace CryptoValid
namespace Checkpoint

/-!
### Checkpoints
-/

theorem plain_natText (n : Nat) : Plain (Json.natText n) := by
  intro c hc
  have := Json.natText_isDigit n c hc
  simp only [Json.isDigit, Bool.and_eq_true, decide_eq_true_eq] at this
  simp only [isControl, decide_eq_false_iff_not]
  omega

theorem scalar_natText (n : Nat) : Str.Scalar (Json.natText n) := by
  intro c hc
  have := Json.natText_isDigit n c hc
  simp only [Json.isDigit, Bool.and_eq_true, decide_eq_true_eq] at this
  simp only [CodePoint.isSurrogate, Bool.and_eq_false_iff, decide_eq_false_iff_not]
  omega

theorem isSizeText_natText {n : Nat} (h : n < 10 ^ 20) : isSizeText (Json.natText n) = true := by
  have hlen : (Json.natText n).length ≤ 20 := Json.length_natText_le (by omega)
  have hdigits := Json.natText_isDigit n
  rcases Json.natText_eq_cons n with ⟨c, cs, heq, _, hzero⟩
  rw [heq] at hlen hdigits ⊢
  rw [List.forall_mem_cons] at hdigits
  rw [List.length_cons] at hlen
  simp only [isSizeText]
  split
  . next hc => simp [hzero hc]
  . simp only [hdigits.1, Bool.true_and, Bool.and_eq_true, List.all_eq_true, decide_eq_true_eq]
    exact ⟨hdigits.2, by omega⟩

/--
The lines of a checkpoint.
-/
structure IsCheckpoint (cp : Parsed) : Prop where
  origin : cp.origin ≠ [] ∧ Plain cp.origin
  size_le : cp.size ≤ maxSize
  root_length : cp.root.length = 32
  extensions : ∀ e ∈ cp.extensions, e ≠ [] ∧ Plain e

def checkpointLines (cp : Parsed) : List Str :=
  cp.origin :: Json.natText cp.size :: Base64.encode cp.root :: cp.extensions

theorem checkpointText_eq_ok {origin text : Str} {size : Nat} {root : Bytes} {extensions : List Str}
    : checkpointText origin size root extensions = .ok text ↔
        IsCheckpoint ⟨origin, size, root, extensions⟩ ∧
          text = Separated.terminated newline (checkpointLines ⟨origin, size, root, extensions⟩) := by
  have hplain : ∀ s : Str, s.any isControl = false ↔ Plain s := by
    intro s
    simp [List.any_eq_false, Plain]
  unfold checkpointText
  constructor
  . intro h
    split at h
    . simp at h
    . next horigin =>
      split at h
      . simp at h
      . next hsize =>
        split at h
        . simp at h
        . next hroot =>
          split at h
          . simp at h
          . next hext =>
            simp only [Bool.or_eq_true, not_or, Bool.not_eq_true, List.isEmpty_eq_false_iff,
              hplain] at horigin
            simp only [Bool.not_eq_true, List.any_eq_false, Bool.or_eq_true, not_or, hplain,
              List.isEmpty_eq_false_iff] at hext
            exact ⟨⟨horigin, Nat.not_lt.mp hsize, Decidable.not_not.mp hroot, hext⟩,
              (Except.ok.inj h).symm⟩
  . rintro ⟨⟨horigin, hsize, hroot, hext⟩, rfl⟩
    simp only at horigin hsize hroot hext
    have hext' : (extensions.any fun e => e.isEmpty || e.any isControl) = false := by
      simp only [List.any_eq_false, Bool.or_eq_true, not_or, Bool.not_eq_true, hplain,
        List.isEmpty_eq_false_iff]
      exact hext
    simp only [List.isEmpty_eq_false_iff.mpr horigin.1, (hplain _).mpr horigin.2, hroot, hext',
      Nat.not_lt.mpr hsize, Bool.or_self, Bool.false_eq_true, ↓reduceIte, ne_eq, not_true_eq_false]
    rfl

theorem checkpointLines_plain {cp : Parsed} (h : IsCheckpoint cp)
    : ∀ line ∈ checkpointLines cp, line ≠ [] ∧ Plain line := by
  have hroot : Base64.encode cp.root ≠ [] := by
    intro hnil
    have hlen := congrArg List.length hnil
    rw [Base64.length_encode, h.root_length] at hlen
    simp at hlen
  simp only [checkpointLines, List.forall_mem_cons]
  exact ⟨h.origin, ⟨Json.natText_ne_nil _, plain_natText _⟩,
    ⟨hroot, (plain_of_decode? (Base64.decode?_encode _)).1⟩, h.extensions⟩

theorem parseCheckpoint_terminated {cp : Parsed} (h : IsCheckpoint cp)
    : parseCheckpoint (Separated.terminated newline (checkpointLines cp)) = .ok cp := by
  have hlines := checkpointLines_plain h
  have hsize : isSizeText (Json.natText cp.size) = true := by
    refine isSizeText_natText ?_
    have := h.size_le
    unfold maxSize at this
    omega
  have hne : checkpointLines cp ≠ [] := by simp [checkpointLines]
  have hlast : (Separated.terminated newline (checkpointLines cp)).getLast? = some newline := by
    conv_lhs => rw [← List.dropLast_concat_getLast hne, Separated.terminated_append]
    simp [Separated.terminated]
  have hsplit := Separated.split_dropLast_terminated newline _ hne
    fun line hline => (hlines line hline).2.newline_not_mem
  have hempty : (checkpointLines cp).any List.isEmpty = false := by
    simp only [List.any_eq_false, List.isEmpty_iff]
    exact fun line hline => (hlines line hline).1
  have hcontrol : ((Separated.terminated newline (checkpointLines cp)).dropLast.any
      fun c => c ≠ newline && isControl c) = false := by
    simp only [List.any_eq_false, Bool.and_eq_true, decide_eq_true_eq, not_and, Bool.not_eq_true]
    intro c hc hcne
    rcases List.mem_flatMap.mp (List.dropLast_subset _ hc) with ⟨line, hline, hmem⟩
    rcases List.mem_append.mp hmem with hmem | hmem
    . exact (hlines line hline).2 c hmem
    . exact absurd (List.mem_singleton.mp hmem) hcne
  unfold parseCheckpoint
  rw [if_neg (by simp [hlast]), hsplit]
  unfold checkpointLines at hempty hcontrol ⊢
  simp only [hempty, hcontrol, hsize, Json.natOfText_natText, h.size_le,
    Base64.decode?_encode, h.root_length, Bool.false_eq_true, ↓reduceIte, decide_true, Bool.and_self,
    Bool.not_true, ne_eq, not_true_eq_false, or_self]

theorem natText_of_isSizeText {s : Str} (h : isSizeText s = true)
    : Json.natText (Json.natOfText s) = s ∧ Json.natOfText s < 10 ^ 20 := by
  cases s with
  | nil => simp [isSizeText] at h
  | cons c rest =>
    unfold isSizeText at h
    dsimp only at h
    split at h
    . next hc =>
      rw [List.isEmpty_iff] at h
      rw [hc, h]
      refine ⟨?_, by decide⟩
      rw [Json.natText]
      rfl
    . next hc =>
      simp only [Bool.and_eq_true, List.all_eq_true, decide_eq_true_eq] at h
      have hall : ∀ d ∈ c :: rest, Json.isDigit d = true := by
        rw [List.forall_mem_cons]
        exact h.1
      refine ⟨Json.natText_natOfText (by simp) hall ?_, ?_⟩
      . intro hhead
        exact absurd (by simpa using hhead) hc
      . refine Nat.lt_of_lt_of_le (Json.natOfText_lt hall) (Nat.pow_le_pow_right (by omega) ?_)
        rw [List.length_cons]
        omega

/--
The only texts that are read are the ones that are written.
-/
theorem parseCheckpoint_eq_ok {text : Str} {cp : Parsed}
    : parseCheckpoint text = .ok cp ↔
        IsCheckpoint cp ∧ text = Separated.terminated newline (checkpointLines cp) := by
  constructor
  . intro h
    unfold parseCheckpoint at h
    split at h
    . simp at h
    . next hlast =>
      have htext := concat_of_getLast? (Decidable.not_not.mp hlast)
      split at h
      . next origin sizeText rootText extensions hsplit =>
        split at h
        . simp at h
        . next hempty =>
          split at h
          . simp at h
          . next hcontrol =>
            split at h
            . simp at h
            . next hsize =>
              split at h
              . simp at h
              . next root hdecode =>
                split at h
                . simp at h
                . next hroot =>
                  rw [← Except.ok.inj h]
                  simp only [Bool.not_eq_true, Bool.not_eq_false', Bool.and_eq_true,
                    decide_eq_true_eq] at hsize
                  simp only [not_or, Decidable.not_not] at hroot
                  -- no check looks at a single line, what it refuses in the text is in one of them
                  have hlines : ∀ line ∈ origin :: sizeText :: rootText :: extensions,
                      line ≠ [] ∧ Plain line := by
                    intro line hline
                    rw [← hsplit] at hline
                    refine ⟨?_, ?_⟩
                    . rintro rfl
                      rw [hsplit] at hline
                      exact hempty (List.any_eq_true.mpr ⟨[], hline, rfl⟩)
                    . intro c hc
                      have hmem : c ∈ Separated.terminated newline
                          (Separated.split newline text.dropLast) :=
                        List.mem_flatMap.mpr ⟨line, hline, List.mem_append_left _ hc⟩
                      have hne : c ≠ newline := by
                        rintro rfl
                        exact Separated.not_mem_of_mem_split newline hline hc
                      rw [Separated.terminated_split, List.mem_append, List.mem_singleton] at hmem
                      have hmem := hmem.resolve_right hne
                      rw [Bool.not_eq_true, List.any_eq_false] at hcontrol
                      simpa [hne] using hcontrol c hmem
                  have hjoin := Separated.terminated_split newline text.dropLast
                  rw [hsplit, ← htext] at hjoin
                  refine ⟨⟨hlines origin (by simp), hsize.2, hroot.1,
                    fun e he => hlines e (by simp [he])⟩, ?_⟩
                  rw [checkpointLines]
                  dsimp only
                  rw [(natText_of_isSizeText hsize.1).1, hroot.2, hjoin]
      . simp at h
  . rintro ⟨hcp, rfl⟩
    exact parseCheckpoint_terminated hcp

/-!
### Verifier keys
-/

theorem length_keyId (H : HashFn 32) (name : Str) (typ : Nat) (pub : Bytes)
    : (keyId H name typ pub).length = 4 := by
  rw [keyId, List.length_take, HashFn.length_digest]
  rfl

theorem vkey_eq_ok {H : HashFn 32} {name s : Str} {typ : Nat} {pub : Bytes}
    : vkey H name typ pub = .ok s ↔ nameOk name = true ∧ Str.Scalar name ∧
        (utf8 name).length ≤ maxNameBytes ∧
        ((typ = typeEd25519 ∨ typ = typeCosigV1) ∧ pub.length = 32 ∨
          typ = typeMldsa44 ∧ pub.length = mldsa44Pub) ∧
        s = name ++ plus :: (Hex.ofBytes (keyId H name typ pub) ++
          plus :: Base64.encode (UInt8.ofNat typ :: pub)) := by
  unfold vkey
  by_cases hname : nameOk name = true
  swap
  . simp [hname]
  by_cases hscalar : Str.Scalar name
  swap
  . simp [hname, hscalar]
  by_cases hlen : maxNameBytes < (utf8 name).length
  . simp [hname, hscalar, hlen]
  rw [hname, if_neg (by simp), if_neg (by simpa using hscalar), if_neg hlen]
  have hlen' := Nat.not_lt.mp hlen
  by_cases hed : typ = typeEd25519 ∨ typ = typeCosigV1
  . have hne : typ ≠ typeMldsa44 := by rcases hed with rfl | rfl <;> decide
    by_cases hpub : pub.length = 32
    . simp [hscalar, hlen', hed, hpub, hne, eq_comm]
    . simp [hed, hpub, hne]
  . by_cases hmldsa : typ = typeMldsa44
    . rw [if_neg fun hand => hed hand.1]
      by_cases hpub : pub.length = mldsa44Pub
      . simp [hscalar, hlen', hmldsa, hpub, eq_comm]
      . simp [hpub, hmldsa, show ¬(typeMldsa44 = typeEd25519 ∨ typeMldsa44 = typeCosigV1) by decide]
    . simp [hed, hmldsa]

theorem parseVkey_vkey {H : HashFn 32} {name s : Str} {typ : Nat} {pub : Bytes} (strict : Bool)
    (h : vkey H name typ pub = .ok s) (hpub : pub ≠ [])
    : parseVkey H strict s = .ok ⟨name, keyId H name typ pub, typ, pub⟩ := by
  rcases vkey_eq_ok.mp h with ⟨hname, hscalar, hlen, htyp, rfl⟩
  have hplus : plus ∉ name := fun hmem => ((nameOk_iff.mp hname).2 plus hmem).2.1 rfl
  have hhex : ∀ c ∈ Hex.ofBytes (keyId H name typ pub),
      c ≠ plus ∧ (Hex.digit? c).isSome = true := by
    have hdigit : ∀ n < 16, Hex.digit n ≠ plus := by decide
    intro c hc
    rcases Hex.exists_digit_of_mem_ofBytes hc with ⟨n, hn, rfl⟩
    exact ⟨hdigit n hn, by rw [Hex.digit?_digit n hn]; rfl⟩
  have hbyte : (UInt8.ofNat typ).toNat = typ := by
    rcases htyp with ⟨rfl | rfl, _⟩ | ⟨rfl, _⟩ <;> rfl
  have hidlen : (Hex.ofBytes (keyId H name typ pub)).length = 8 := by
    rw [Hex.length_ofBytes, length_keyId]
  have hall : (Hex.ofBytes (keyId H name typ pub)).all (fun c => (Hex.digit? c).isSome) = true :=
    List.all_eq_true.mpr fun c hc => (hhex c hc).2
  have hcheck : checkVkey H strict ⟨name, keyId H name typ pub, typ, pub⟩
      = .ok ⟨name, keyId H name typ pub, typ, pub⟩ := by
    unfold checkVkey
    dsimp only
    rw [if_neg (fun hand => hand.2 hscalar), if_neg (fun hand => Nat.not_lt.mpr hlen hand.2),
      keyIdOf_eq_ok.mpr ⟨hscalar, rfl⟩, Except.ok_bind]
    rcases htyp with ⟨rfl | rfl, hpub'⟩ | ⟨rfl, hpub'⟩
    . simp [typeEd25519, typeEcdsa, supportedTypes, typeMldsa44, hpub', Pure.pure, Except.pure]
    . simp [typeCosigV1, typeEcdsa, supportedTypes, typeMldsa44, hpub', Pure.pure, Except.pure]
    . simp [typeEcdsa, supportedTypes, typeMldsa44, hpub', Pure.pure, Except.pure]
  unfold parseVkey
  rw [Separated.cut?_append plus _ _ hplus]
  dsimp only
  rw [Separated.cut?_append plus _ _ fun hmem => (hhex plus hmem).1 rfl]
  simp only [hname, hidlen, hall, Base64.decode?_encode, List.isEmpty_eq_false_iff.mpr hpub,
    Python.fromHex?_ofBytes, Option.getD_some, hbyte, hcheck, Bool.not_true, Bool.false_eq_true,
    ↓reduceIte, decide_true, Bool.and_self]

end Checkpoint
end CryptoValid
