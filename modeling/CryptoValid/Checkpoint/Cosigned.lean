import CryptoValid.Checkpoint.Verify

/-!
This module contains what signing a note does to it: the text stays and there is one line more, which
verifies under the key of the signer if the scheme does what it promises.
-/

namespace CryptoValid
namespace Checkpoint

/-!
### Lines
-/

/--
The line with a key id and a signature.
-/
def signatureLine (name : Str) (raw : Bytes) : Str :=
  emDash :: space :: (name ++ space :: Base64.encode raw)

theorem keyIdOf_eq_ok {H : HashFn 32} {name : Str} {typ : Nat} {pub kid : Bytes}
    : keyIdOf H name typ pub = .ok kid ↔ Str.Scalar name ∧ kid = keyId H name typ pub := by
  unfold keyIdOf
  split
  . next h => simp [h, eq_comm]
  . next h => simp [h]

theorem sigLine_eq_ok {name line : Str} {kid sig : Bytes}
    : sigLine name kid sig = .ok line ↔ nameOk name = true ∧ (utf8 name).length ≤ maxNameBytes ∧
        line = signatureLine name (kid ++ sig) ++ [newline] := by
  unfold sigLine
  split
  . next h =>
    rw [Bool.not_eq_true'] at h
    simp [h]
  . next h =>
    rw [Bool.not_eq_true, Bool.not_eq_false'] at h
    split
    . next hlen =>
      simp only [reduceCtorEq, false_iff, not_and]
      omega
    . next hlen =>
      have heq : emDash :: space :: (name ++ space :: (Base64.encode (kid ++ sig) ++ [newline]))
          = signatureLine name (kid ++ sig) ++ [newline] := by
        simp [signatureLine]
      rw [heq, Except.ok.injEq, eq_comm]
      exact ⟨fun hline => ⟨h, Nat.not_lt.mp hlen, hline⟩, fun hline => hline.2.2⟩

theorem signatureLine_plain {name : Str} (hname : nameOk name = true) (raw : Bytes)
    : signatureLine name raw ≠ [] ∧ newline ∉ signatureLine name raw := by
  refine ⟨by simp [signatureLine], ?_⟩
  rw [signatureLine]
  simp only [List.mem_cons, List.mem_append, not_or]
  exact ⟨by decide, by decide, (plain_of_nameOk hname).1.newline_not_mem, by decide,
    (plain_of_decode? (Base64.decode?_encode raw)).1.newline_not_mem⟩

theorem scalar_signatureLine {name : Str} (hname : Str.Scalar name) (raw : Bytes)
    : Str.Scalar (signatureLine name raw) := by
  rw [signatureLine, Str.scalar_cons, Str.scalar_cons, Str.scalar_append, Str.scalar_cons]
  exact ⟨by decide, by decide, hname, by decide, scalar_of_decode? (Base64.decode?_encode raw)⟩

theorem parseSigLine_signatureLine {name : Str} {raw : Bytes} (hname : nameOk name = true)
    (hmin : 5 ≤ raw.length) (hmax : raw.length ≤ maxSigBytes)
    : parseSigLine (signatureLine name raw) = .ok (name, raw) := by
  rw [parseSigLine_eq_ok]
  refine ⟨Base64.encode raw, rfl, hname, ?_, Base64.decode?_encode raw, hmin, hmax⟩
  rw [Base64.length_encode]
  unfold maxSigBytes at *
  omega

theorem render_append (text : Str) (lines lines' : List Str)
    : render text lines ++ Separated.terminated newline lines' = render text (lines ++ lines') := by
  simp [render, Separated.terminated_append]

theorem utf8_render_append (text line : Str) (lines : List Str)
    : utf8 (render text lines) ++ utf8 (line ++ [newline]) = utf8 (render text (lines ++ [line])) := by
  rw [← utf8_append, ← render_append]
  simp [Separated.terminated]

section

variable {sha256 : HashFn 32} {crypto : Crypto}

/-!
### Cosignatures
-/

variable (sha256) in
/--
The key id and the signature of a cosignature line.
-/
def cosigRaw (ed : Scheme) (name : Str) (seed : Bytes) (timestamp : Nat) (text : Str) : Bytes :=
  keyId sha256 name typeCosigV1 (ed.publicKey seed) ++
    (Cbor.beBytes 8 timestamp ++ ed.sign seed (cosignMessage timestamp text))

variable (sha256) in
def mldsa44Raw (mldsa : Scheme) (name : Str) (seed : Bytes) (timestamp : Nat)
    (msg : Bytes) : Bytes :=
  keyId sha256 name typeMldsa44 (mldsa.publicKey seed) ++
    (Cbor.beBytes 8 timestamp ++ mldsa.sign seed msg)

theorem cosignV1_eq_ok {note out : Bytes} {name : Str} {seed : Bytes} {timestamp : Int}
    : cosignV1 sha256 crypto note name seed timestamp = .ok out ↔
        ∃ text lines sigs cp ed, IsNote note text lines sigs ∧ parseCheckpoint text = .ok cp ∧
          crypto.ed25519 = some ed ∧ lines.length < maxSigs ∧ timestampOk timestamp = true ∧
          nameOk name = true ∧ Str.Scalar name ∧ (utf8 name).length ≤ maxNameBytes ∧
          out = note ++ utf8 (signatureLine name
            (cosigRaw sha256 ed name seed timestamp.toNat text) ++ [newline]) := by
  unfold cosignV1
  rw [Except.bind_eq_ok]
  constructor
  . rintro ⟨⟨text, sigs⟩, hsplit, h⟩
    rcases splitNote_eq_ok.mp hsplit with ⟨lines, hnote⟩
    rcases Except.bind_eq_ok.mp h with ⟨cp, hcp, h⟩
    split at h
    . simp at h
    . next hroom =>
      split at h
      . simp at h
      . next hts =>
        split at h
        . simp at h
        . next ed hed =>
          rcases Except.bind_eq_ok.mp h with ⟨kid, hkid, h⟩
          rcases keyIdOf_eq_ok.mp hkid with ⟨hscalar, rfl⟩
          rcases Except.bind_eq_ok.mp h with ⟨line, hline, h⟩
          rcases sigLine_eq_ok.mp hline with ⟨hname, hlen, rfl⟩
          refine ⟨text, lines, sigs, cp, ed, hnote, hcp, hed, ?_, by simpa using hts, hname, hscalar,
            hlen, (Except.pure_eq_ok.mp h).symm⟩
          rw [hnote.length_eq]
          omega
  . rintro ⟨text, lines, sigs, cp, ed, hnote, hcp, hed, hroom, hts, hname, hscalar, hlen, rfl⟩
    refine ⟨(text, sigs), splitNote_eq_ok.mpr ⟨lines, hnote⟩, ?_⟩
    rw [hnote.length_eq] at hroom
    have hline : sigLine name (keyId sha256 name typeCosigV1 (ed.publicKey seed))
        (Cbor.beBytes 8 timestamp.toNat ++ ed.sign seed (cosignMessage timestamp.toNat text)) = .ok _ :=
      sigLine_eq_ok.mpr ⟨hname, hlen, rfl⟩
    simp only [hcp, Except.ok_bind, hed, hts, keyIdOf_eq_ok.mpr ⟨hscalar, rfl⟩, hline, Bool.not_true,
      Bool.false_eq_true, ↓reduceIte, Nat.not_le.mpr hroom]
    rfl

theorem cosignV1Mldsa44_eq_ok {note out : Bytes} {name : Str} {seed : Bytes} {timestamp : Int}
    : cosignV1Mldsa44 sha256 crypto note name seed timestamp = .ok out ↔
        ∃ text lines sigs cp mldsa msg, IsNote note text lines sigs ∧ parseCheckpoint text = .ok cp ∧
          crypto.mldsa44 = some mldsa ∧ lines.length < maxSigs ∧ timestampOk timestamp = true ∧
          mldsa44Message name timestamp.toNat cp.origin 0 cp.size cp.root = .ok msg ∧
          nameOk name = true ∧ Str.Scalar name ∧ (utf8 name).length ≤ maxNameBytes ∧
          out = note ++ utf8 (signatureLine name
            (mldsa44Raw sha256 mldsa name seed timestamp.toNat msg) ++ [newline]) := by
  unfold cosignV1Mldsa44
  rw [Except.bind_eq_ok]
  constructor
  . rintro ⟨⟨text, sigs⟩, hsplit, h⟩
    rcases splitNote_eq_ok.mp hsplit with ⟨lines, hnote⟩
    rcases Except.bind_eq_ok.mp h with ⟨cp, hcp, h⟩
    split at h
    . simp at h
    . next hroom =>
      split at h
      . simp at h
      . next hts =>
        split at h
        . simp at h
        . next mldsa hmldsa =>
          rcases Except.bind_eq_ok.mp h with ⟨msg, hmsg, h⟩
          rcases Except.bind_eq_ok.mp h with ⟨kid, hkid, h⟩
          rcases keyIdOf_eq_ok.mp hkid with ⟨hscalar, rfl⟩
          rcases Except.bind_eq_ok.mp h with ⟨line, hline, h⟩
          rcases sigLine_eq_ok.mp hline with ⟨hname, hlen, rfl⟩
          refine ⟨text, lines, sigs, cp, mldsa, msg, hnote, hcp, hmldsa, ?_, by simpa using hts, hmsg,
            hname, hscalar, hlen, (Except.pure_eq_ok.mp h).symm⟩
          rw [hnote.length_eq]
          omega
  . rintro ⟨text, lines, sigs, cp, mldsa, msg, hnote, hcp, hmldsa, hroom, hts, hmsg, hname, hscalar,
      hlen, rfl⟩
    refine ⟨(text, sigs), splitNote_eq_ok.mpr ⟨lines, hnote⟩, ?_⟩
    rw [hnote.length_eq] at hroom
    have hline : sigLine name (keyId sha256 name typeMldsa44 (mldsa.publicKey seed))
        (Cbor.beBytes 8 timestamp.toNat ++ mldsa.sign seed msg) = .ok _ :=
      sigLine_eq_ok.mpr ⟨hname, hlen, rfl⟩
    simp only [hcp, Except.ok_bind, hmldsa, hts, hmsg, keyIdOf_eq_ok.mpr ⟨hscalar, rfl⟩, hline,
      Bool.not_true, Bool.false_eq_true, ↓reduceIte, Nat.not_le.mpr hroom]
    rfl

end

end Checkpoint
end CryptoValid
