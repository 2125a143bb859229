import CryptoValid.Lib.CborRoundTrip

/-!
This module contains the CBOR of `cryptovalid_receipt.py`: what it encodes it decodes, and it takes no
message that is cut off.
-/

namespace CryptoValid
namespace Receipt

def cborMaxDepth : Nat := Cbor.maxDepth

def cborEncode (x : Cbor) : Except Cbor.EncodeError Bytes := Cbor.encode x

def cborDecode (b : Bytes) : Except Cbor.DecodeError Cbor := Cbor.decode b

/--
Values are encoded if and only if there are bytes for them, and decoded to equal values if they are
nested within the bound of the decoder. Whatever is accepted is read to its last byte, and no proper
prefix of it is accepted, nor one of an encoding that is nested deeper than the bound.
-/
theorem cborDecode_cborEncode
    : (∀ x, Cbor.Within (cborMaxDepth + 1) x →
        ((∃ b, cborEncode x = .ok b) ↔ Cbor.Encodable x) ∧
          ∀ b, cborEncode x = .ok b → ∃ y, cborDecode b = .ok y ∧ Cbor.same x y = true) ∧
      (∀ b v, cborDecode b = .ok v →
        Cbor.rd b (cborMaxDepth + 1) 0 = .ok (v, b.length) ∧
          ∀ p w, p <+: b → cborDecode p = .ok w → p = b) ∧
      ∀ levels x b, Cbor.Within levels x → cborEncode x = .ok b →
        ∀ p w, p <+: b → cborDecode p = .ok w → p = b := by
  refine ⟨fun x hx => ⟨Cbor.encode_returns_iff hx, fun b hb => ?_⟩, fun b v hb => ?_, ?_⟩
  . exact ⟨_, Cbor.decode_encode hx hb, Cbor.same_sorted hx⟩
  . have hwhole := Cbor.rd_of_decode hb
    exact ⟨hwhole, fun p w hp hw => Cbor.decode_prefix hwhole hp hw⟩
  . intro levels x b hx hb p w hp hw
    have hwhole := Cbor.readsAs_encode hx hb [] []
    rw [List.append_nil, List.nil_append, List.length_nil, Nat.zero_add] at hwhole
    exact Cbor.decode_prefix hwhole hp hw

theorem cborDecode_cborEncode_alg
    : (∃ y, cborDecode [0xa2, 0x01, 0x27, 0x61, 0x61, 0x81, 0xf6] = .ok y ∧
        Cbor.same (.map [(.text (txt "a"), .arr [.null]), (.int 1, .int (-8))]) y = true) ∧
      ∀ p w, p <+: [0xa2, 0x01, 0x27, 0x61, 0x61, 0x81, 0xf6] → cborDecode p = .ok w →
        p = [0xa2, 0x01, 0x27, 0x61, 0x61, 0x81, 0xf6] := by
  have hwithin : Cbor.Within (cborMaxDepth + 1)
      (.map [(.text (txt "a"), .arr [.null]), (.int 1, .int (-8))]) := by
    refine .map _ _ (by decide) ?_
    simp only [List.forall_mem_cons, List.not_mem_nil, false_implies, implies_true, and_true]
    refine ⟨.arr _ _ ?_, .int _ _⟩
    simp only [List.forall_mem_cons, List.not_mem_nil, false_implies, implies_true, and_true]
    exact .null _
  have hencode : cborEncode (.map [(.text (txt "a"), .arr [.null]), (.int 1, .int (-8))])
      = .ok [0xa2, 0x01, 0x27, 0x61, 0x61, 0x81, 0xf6] := by decide +kernel
  exact ⟨(cborDecode_cborEncode.1 _ hwithin).2 _ hencode,
    cborDecode_cborEncode.2.2 _ _ _ hwithin hencode⟩

end Receipt
end CryptoValid
