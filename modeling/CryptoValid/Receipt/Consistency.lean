import CryptoValid.Lib.PythonJson
import CryptoValid.Lib.Sha256
import CryptoValid.Merkle.Proofs

/-!
This module contains the consistency receipts of `cryptovalid_receipt.py` in their two forms, JSON and
COSE, from where their signatures are dealt with, and the comparison of the walkers they rest on.
-/

namespace CryptoValid
namespace Receipt

open Merkle

variable (H : HashFn 32)

/--
What a consistency receipt says in its JSON form, `sth` being the signed tree head inside it.
-/
structure JsonReceipt where
  treeSize1 : Nat
  treeSize2 : Nat
  root1 : Str
  root2 : Str
  consistencyPath : List Str
  sthTreeSize : Nat
  sthRoot : Str

/--
The consistency part of `verify_receipt`, when the tree head has a good signature: `ok` and `why`.
-/
def verifyReceipt (r : JsonReceipt) (trustedRoot1Hex : Str) : Bool × Str :=
  if trustedRoot1Hex = [] then
    (false, txt "trusted_root_1_hex is required: pass YOUR previous root, not the receipt's")
  else if Python.asciiLower r.root1 ≠ Python.asciiLower trustedRoot1Hex then
    (false, txt "root_1 in the receipt differs from your trusted previous root")
  else if r.sthRoot ≠ r.root2 ∨ r.treeSize2 ≠ r.sthTreeSize then
    (false, txt "root_2 / tree_size_2 differ from the signed tree head")
  else if r.treeSize1 = 0 then
    (false, txt "old tree empty: nothing to prove — use an inclusion receipt")
  else if r.treeSize1 = r.treeSize2 then
    if r.root1 = r.root2 then (true, txt "same size: roots must be equal")
    else (false, txt "same size: roots must be equal — they are NOT (rewrite)")
  else
    match r.consistencyPath.mapM Python.fromHex?, Python.fromHex? r.root1,
      Python.fromHex? r.root2 with
    | some path, some root1, some root2 =>
      if verifyConsistency H r.treeSize1 r.treeSize2 path root1 root2 then
        (true, txt "consistency proof valid (append-only growth)")
      else
        (false, txt "consistency proof INVALID (fork or rewrite)")
    | _, _, _ => (false, txt "malformed receipt: ValueError")

/--
The consistency part of `verify_cose`: `root_2`, or `why` not. `signed` says for which roots the
signature of the message verifies, the payload is `none` when it is detached.
-/
def verifyCose (signed : Bytes → Bool) (n1 n2 : Nat) (path : List Bytes) (payload : Option Bytes)
    (trustedRoot1Hex : Str) : Except Str Bytes :=
  if trustedRoot1Hex = [] then
    .error (txt "consistency receipt: pass trusted_root_1_hex (YOUR previous root)")
  else
    match Python.fromHex? trustedRoot1Hex with
    | none => .error (txt "ValueError")
    | some root1 =>
      match consistencyRoots H n1 n2 path root1 with
      | none => .error (txt "consistency path does not connect your trusted root_1")
      | some (old, new) =>
        if Hex.ofBytes old ≠ Python.asciiLower trustedRoot1Hex then
          .error (txt "consistency path does not connect your trusted root_1")
        else if payload.any fun p => p ≠ new then
          .error (txt "attached payload differs from the recomputed root_2")
        else if signed (payload.getD new) then
          .ok (payload.getD new)
        else
          .error (txt "InvalidSignature")

/--
The JSON form of a consistency receipt, as `consistency_receipt` writes it.
-/
def JsonReceipt.ofContent (m n : Nat) (proof : List Bytes) (o w : Bytes) : JsonReceipt where
  treeSize1 := m
  treeSize2 := n
  root1 := Hex.ofBytes o
  root2 := Hex.ofBytes w
  consistencyPath := proof.map Hex.ofBytes
  sthTreeSize := n
  sthRoot := Hex.ofBytes w

/-!
### The walkers
-/

/--
On two sizes that are not the same the walker that decides and the one that recomputes are one.
-/
theorem verifyConsistency_iff_of_ne {m n : Nat} (hne : m ≠ n) (proof : List Bytes) (o w : Bytes)
    : verifyConsistency H m n proof o w = true ↔ consistencyRoots H m n proof o = some (o, w) := by
  rw [verifyConsistency, consistencyRoots, if_neg hne]
  rw [if_neg hne]
  split
  . simp
  . cases (if m &&& (m - 1) = 0 then o :: proof else proof) with
    | nil => simp
    | cons start path =>
      dsimp only
      cases verifyConsistency.loop H start start (skipOnes (m - 1) (n - 1)).1
          (skipOnes (m - 1) (n - 1)).2 path with
      | none => simp
      | some found =>
        rcases found with ⟨fr, sr, sn⟩
        by_cases hsn : sn = 0 <;> simp [hsn]

theorem verifyConsistency_self (n : Nat) (proof : List Bytes) (o w : Bytes)
    : verifyConsistency H n n proof o w = true ↔ n ≠ 0 ∧ proof = [] ∧ o = w := by
  rw [verifyConsistency]
  by_cases hzero : n = 0 <;> simp [hzero]

theorem consistencyRoots_self (n : Nat) (proof : List Bytes) (o : Bytes) (roots : Bytes × Bytes)
    : consistencyRoots H n n proof o = some roots ↔ proof = [] ∧ (o, o) = roots := by
  rw [consistencyRoots]
  by_cases hnil : proof = [] <;> simp [hnil]

/-!
### The receipts
-/

theorem verifyReceipt_ofContent (m n : Nat) (proof : List Bytes) (o w : Bytes)
    : (verifyReceipt H (.ofContent m n proof o w) (Hex.ofBytes o)).1 = true ↔
        o ≠ [] ∧ m ≠ 0 ∧ if m = n then o = w else verifyConsistency H m n proof o w = true := by
  have hpath : (proof.map Hex.ofBytes).mapM Python.fromHex? = some proof := by
    rw [List.mapM_map]
    exact Option.mapM_eq_some.mpr (List.forall₂_same.mpr fun p _ => Python.fromHex?_ofBytes p)
  have hempty : Hex.ofBytes o = [] ↔ o = [] := by
    rw [← List.length_eq_zero_iff, Hex.length_ofBytes, ← List.length_eq_zero_iff]
    omega
  have hroots : Hex.ofBytes o = Hex.ofBytes w ↔ o = w := ⟨Hex.ofBytes_inj, congrArg _⟩
  dsimp only [verifyReceipt, JsonReceipt.ofContent]
  rw [hpath, Python.fromHex?_ofBytes, Python.fromHex?_ofBytes]
  by_cases ho : o = []
  . rw [if_pos (hempty.mpr ho)]
    simp [ho]
  . rw [if_neg (mt hempty.mp ho), if_neg (not_not.mpr rfl),
      if_neg (not_or.mpr ⟨not_not.mpr rfl, not_not.mpr rfl⟩)]
    by_cases hm : m = 0
    . rw [if_pos hm]
      simp [hm]
    . rw [if_neg hm]
      by_cases hmn : m = n
      . rw [if_pos hmn, if_pos hmn]
        by_cases how : o = w
        . rw [if_pos (hroots.mpr how)]
          exact ⟨fun _ => ⟨ho, hm, how⟩, fun _ => rfl⟩
        . rw [if_neg (mt hroots.mp how)]
          simp [how]
      . rw [if_neg hmn, if_neg hmn]
        dsimp only
        split <;> simp_all

theorem verifyCose_eq_ok (signed : Bytes → Bool) (m n : Nat) (proof : List Bytes)
    (payload : Option Bytes) (o w : Bytes) (hsigned : signed w = true)
    (hpayload : payload = none ∨ payload = some w)
    : verifyCose H signed m n proof payload (Hex.ofBytes o) = .ok w ↔
        o ≠ [] ∧ consistencyRoots H m n proof o = some (o, w) := by
  have hempty : Hex.ofBytes o = [] ↔ o = [] := by
    rw [← List.length_eq_zero_iff, Hex.length_ofBytes, ← List.length_eq_zero_iff]
    omega
  rw [verifyCose]
  by_cases ho : o = []
  . rw [if_pos (hempty.mpr ho)]
    simp [ho]
  . rw [if_neg (mt hempty.mp ho), Python.fromHex?_ofBytes, Python.asciiLower_ofBytes]
    dsimp only
    cases consistencyRoots H m n proof o with
    | none => simp
    | some roots =>
      rcases roots with ⟨old, new⟩
      have hold : Hex.ofBytes old = Hex.ofBytes o ↔ old = o := ⟨Hex.ofBytes_inj, congrArg _⟩
      dsimp only
      by_cases heq : old = o
      . rcases hpayload with rfl | rfl
        . by_cases hnew : new = w
          . simp [heq, hnew, ho, hsigned]
          . by_cases hs : signed new <;> simp [heq, hnew, hs]
        . by_cases hnew : w = new
          . simp [heq, ← hnew, ho, hsigned]
          . simp [heq, hnew, Ne.symm hnew]
      . simp [hold, heq]

/--
The walkers agree, and with them the two forms of a receipt with one content, except at equal sizes:
there the COSE form takes the empty trees and the JSON form does not look at the path.
-/
theorem consistency_agree_iff (m n : Nat) (proof : List Bytes) (o w : Bytes)
    : ((verifyConsistency H m n proof o w = true ↔
            consistencyRoots H m n proof o = some (o, w)) ∧
          ∀ (signed : Bytes → Bool) (payload : Option Bytes), signed w = true →
            (payload = none ∨ payload = some w) →
              (verifyCose H signed m n proof payload (Hex.ofBytes o) = .ok w ↔
                (verifyReceipt H (.ofContent m n proof o w) (Hex.ofBytes o)).1 = true)) ↔
        ¬(m = n ∧ o = w ∧ (m = 0 ∧ proof = [] ∨ m ≠ 0 ∧ proof ≠ [] ∧ o ≠ [])) := by
  by_cases hmn : m = n
  . subst hmn
    rw [verifyConsistency_self, consistencyRoots_self, verifyReceipt_ofContent, if_pos rfl]
    constructor
    . rintro ⟨hwalk, hforms⟩ ⟨-, how, hcase⟩
      subst how
      rcases hcase with ⟨hm, hproof⟩ | ⟨hm, hproof, ho⟩
      . exact (hwalk.mpr ⟨hproof, rfl⟩).1 hm
      . have hcose := (hforms (fun _ => true) none rfl (Or.inl rfl)).mpr ⟨ho, hm, rfl⟩
        rw [verifyCose_eq_ok H _ _ _ _ _ _ _ rfl (Or.inl rfl), consistencyRoots_self] at hcose
        exact hproof hcose.2.1
    . intro hnot
      refine ⟨⟨fun h => ⟨h.2.1, by rw [h.2.2]⟩, fun h => ?_⟩, fun signed payload hs hp => ?_⟩
      . have how : o = w := congrArg Prod.snd h.2
        refine ⟨fun hm => hnot ⟨rfl, how, Or.inl ⟨hm, h.1⟩⟩, h.1, how⟩
      . rw [verifyCose_eq_ok H _ _ _ _ _ _ _ hs hp, consistencyRoots_self]
        constructor
        . rintro ⟨ho, hproof, hroots⟩
          have how : o = w := congrArg Prod.snd hroots
          exact ⟨ho, fun hm => hnot ⟨rfl, how, Or.inl ⟨hm, hproof⟩⟩, how⟩
        . rintro ⟨ho, hm, how⟩
          refine ⟨ho, ?_, by rw [how]⟩
          by_contra hproof
          exact hnot ⟨rfl, how, Or.inr ⟨hm, hproof, ho⟩⟩
  . have hwalk := verifyConsistency_iff_of_ne H hmn proof o w
    refine iff_of_true ⟨hwalk, fun signed payload hs hp => ?_⟩ fun h => hmn h.1
    rw [verifyCose_eq_ok H _ _ _ _ _ _ _ hs hp, verifyReceipt_ofContent, if_neg hmn, hwalk]
    constructor
    . rintro ⟨ho, hroots⟩
      refine ⟨ho, ?_, hroots⟩
      rintro rfl
      simp [consistencyRoots, hmn] at hroots
    . rintro ⟨ho, -, hroots⟩
      exact ⟨ho, hroots⟩

/--
Two empty trees: the walker that decides refuses them, the other one finds the roots.
-/
theorem consistency_disagree
    : ¬((verifyConsistency sha256 0 0 [] [0x61] [0x61] = true ↔
            consistencyRoots sha256 0 0 [] [0x61] = some ([0x61], [0x61])) ∧
          ∀ (signed : Bytes → Bool) (payload : Option Bytes), signed [0x61] = true →
            (payload = none ∨ payload = some [0x61]) →
              (verifyCose sha256 signed 0 0 [] payload (Hex.ofBytes [0x61]) = .ok [0x61] ↔
                (verifyReceipt sha256 (.ofContent 0 0 [] [0x61] [0x61])
                  (Hex.ofBytes [0x61])).1 = true)) := by
  rintro ⟨hwalk, -⟩
  have hroots : consistencyRoots sha256 0 0 [] [0x61] = some ([0x61], [0x61]) := rfl
  have hverify := hwalk.mpr hroots
  simp [verifyConsistency] at hverify

end Receipt
end CryptoValid
