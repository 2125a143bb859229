import CryptoValid.Merkle.Inclusion
import CryptoValid.Merkle.Proofs

/-!
This module contains the third copy of the audit path loop, the one of `cryptovalid_scitt.py`, and the
comparison of the three. Two of them refuse a sibling that comes when the counter `sn` is zero, the
one of `cryptovalid_merkle.py` goes on hashing.
-/

namespace CryptoValid
namespace Merkle

variable (H : HashFn 32)

/--
RFC 9162 §2.1.3.2 walked to the root, `none` when the path cannot be walked.
-/
def rootFromInclusion (m n : Nat) (leaf : Bytes) (proof : List Bytes) : Option Bytes :=
  if m ≥ n then
    none
  else
    match loop m (n - 1) leaf proof with
    | none => none
    | some (r, sn) => if sn = 0 then some r else none
where
  loop (fn sn : Nat) (r : Bytes) : List Bytes → Option (Bytes × Nat)
    | [] => some (r, sn)
    | p :: proof =>
      if sn = 0 then
        none
      else if fn &&& 1 = 1 ∨ fn = sn then
        match skipZeros fn sn with
        | (fn, sn) => loop (fn >>> 1) (sn >>> 1) (nodeHash H p r) proof
      else
        loop (fn >>> 1) (sn >>> 1) (nodeHash H r p) proof

theorem skipZeros_snd_le (fn sn : Nat) : (skipZeros fn sn).2 ≤ sn := by
  fun_induction skipZeros fn sn with
  | case1 fn sn hskip ih =>
    have := Nat.shiftRight_one sn
    omega
  | case2 fn sn hskip => exact Nat.le_refl sn

theorem skipZeros_le {fn sn : Nat} (hle : fn ≤ sn) : (skipZeros fn sn).1 ≤ (skipZeros fn sn).2 := by
  fun_induction skipZeros fn sn with
  | case1 fn sn hskip ih =>
    apply ih
    simp only [Nat.shiftRight_one]
    omega
  | case2 fn sn hskip => exact hle

/--
The number of siblings on the path of a node, `fn` is its place on the level whose last place is `sn`.
-/
def pathLength (fn sn : Nat) : Nat :=
  if sn = 0 then
    0
  else if fn = sn ∨ fn &&& 1 = 1 then
    pathLength ((skipZeros fn sn).1 >>> 1) ((skipZeros fn sn).2 >>> 1) + 1
  else
    pathLength (fn >>> 1) (sn >>> 1) + 1
termination_by sn
decreasing_by
  . have := skipZeros_snd_le fn sn
    rw [Nat.shiftRight_one]
    omega
  . rw [Nat.shiftRight_one]
    omega

example : pathLength 4 4 = 1 ∧ pathLength 3 4 = 3 := by decide +kernel

/-!
### The loops
-/

theorem rootFromInclusion.loop_eq (fn sn : Nat) (r : Bytes) (proof : List Bytes)
    : loop H fn sn r proof = verifyInclusionFromLeafHash.loop H fn sn r proof := by
  induction proof generalizing fn sn r with
  | nil => rfl
  | cons p proof ih =>
    simp only [loop, verifyInclusionFromLeafHash.loop, ih]

/--
The counter of the loop without a stop is zero from the end of the path on.
-/
theorem verifyInclusion.loop_snd_eq_zero_iff (h : Bytes) (fn sn : Nat) (proof : List Bytes)
    (hle : fn ≤ sn) : (loop H h fn sn proof).2 = 0 ↔ pathLength fn sn ≤ proof.length := by
  induction proof generalizing h fn sn with
  | nil =>
    rw [loop, pathLength]
    split
    . next hsn => simp [hsn]
    . next hsn => split <;> simp [hsn]
  | cons p proof ih =>
    have hshift : ∀ {a b : Nat}, a ≤ b → a >>> 1 ≤ b >>> 1 := by
      intro a b hab
      simp only [Nat.shiftRight_one]
      omega
    have hskip := hshift (skipZeros_le hle)
    rw [loop, pathLength]
    by_cases hsn : sn = 0
    . -- the counters stay at zero, whatever comes
      have hfn : fn = 0 := by omega
      subst hsn hfn
      simp only [true_or, if_true, skipZeros_zero]
      rw [ih _ _ _ (Nat.le_refl _), pathLength]
      simp
    . rw [if_neg hsn]
      by_cases hside : fn = sn ∨ fn &&& 1 = 1
      . simp only [hside, if_true, List.length_cons]
        rw [ih _ _ _ hskip]
        omega
      . simp only [hside, if_false, List.length_cons]
        rw [ih _ _ _ (hshift hle)]
        omega

/--
The loop with the stop is the one without it, up to the end of the path.
-/
theorem verifyInclusionFromLeafHash.loop_eq (fn sn : Nat) (r : Bytes) (proof : List Bytes)
    (hle : fn ≤ sn)
    : loop H fn sn r proof =
        if proof.length ≤ pathLength fn sn then some (verifyInclusion.loop H r fn sn proof)
        else none := by
  induction proof generalizing fn sn r with
  | nil => simp [loop, verifyInclusion.loop]
  | cons p proof ih =>
    have hshift : ∀ {a b : Nat}, a ≤ b → a >>> 1 ≤ b >>> 1 := by
      intro a b hab
      simp only [Nat.shiftRight_one]
      omega
    have hskip := hshift (skipZeros_le hle)
    rw [loop, pathLength, verifyInclusion.loop]
    by_cases hsn : sn = 0
    . simp [hsn]
    . rw [if_neg hsn, if_neg hsn]
      by_cases hside : fn = sn ∨ fn &&& 1 = 1
      . simp only [hside, hside.symm, if_true, List.length_cons, Nat.add_le_add_iff_right]
        rw [ih _ _ _ hskip]
      . have hside' : ¬(fn &&& 1 = 1 ∨ fn = sn) := mt Or.symm hside
        simp only [hside, hside', if_false, List.length_cons, Nat.add_le_add_iff_right]
        rw [ih _ _ _ (hshift hle)]

/-!
### The walkers
-/

theorem verifyInclusion_eq_true_iff (m n : Nat) (leaf : Bytes) (proof : List Bytes) (root : Bytes)
    : verifyInclusion H m n leaf proof root = true ↔
        m < n ∧ pathLength m (n - 1) ≤ proof.length ∧
          (scheme H).climb (leafHash H leaf) (inclusionSteps m (n - 1) proof) = root := by
  rw [verifyInclusion]
  split
  . next hge => simp [show ¬m < n by omega]
  . next hlt =>
    have hcount := verifyInclusion.loop_snd_eq_zero_iff H (leafHash H leaf) m (n - 1) proof
      (by omega)
    simp only [Bool.and_eq_true, beq_iff_eq, hcount, verifyInclusion.loop_fst]
    simp [show m < n by omega]

theorem rootFromInclusion_eq_some_iff (m n : Nat) (leaf : Bytes) (proof : List Bytes)
    (root : Bytes)
    : rootFromInclusion H m n leaf proof = some root ↔
        m < n ∧ pathLength m (n - 1) = proof.length ∧
          (scheme H).climb leaf (inclusionSteps m (n - 1) proof) = root := by
  rw [rootFromInclusion]
  split
  . next hge => simp [show ¬m < n by omega]
  . next hlt =>
    have hcount := verifyInclusion.loop_snd_eq_zero_iff H leaf m (n - 1) proof (by omega)
    rw [rootFromInclusion.loop_eq, verifyInclusionFromLeafHash.loop_eq H _ _ _ _ (by omega)]
    by_cases hlen : proof.length ≤ pathLength m (n - 1)
    . have hexact : pathLength m (n - 1) ≤ proof.length ↔ pathLength m (n - 1) = proof.length := by
        omega
      simp only [hlen, if_true, hcount, hexact, verifyInclusion.loop_fst]
      simp [show m < n by omega]
    . simp only [hlen, if_false]
      simp only [reduceCtorEq, false_iff]
      omega

/-!
### Soundness
-/

theorem climb_end (leaf : Bytes) (steps : List (HashTree.Step Unit Bytes))
    : ∃ msg ∈ leaf :: (scheme H).climbMsgs (H leaf) steps, (leaf ≠ [] → msg ≠ []) ∧
        (scheme H).climb (H leaf) steps = H msg := by
  induction steps generalizing leaf with
  | nil => exact ⟨leaf, List.mem_cons_self, id, rfl⟩
  | cons s steps ih =>
    rcases ih ((scheme H).stepMsg (H leaf) s) with ⟨msg, hmem, hne, hclimb⟩
    refine ⟨msg, List.mem_cons_of_mem _ hmem, fun _ => hne ?_, hclimb⟩
    rcases s with ⟨side, note, sibling⟩
    cases side <;> exact List.cons_ne_nil _ _

/--
A root that is recomputed from a leaf is the root of lists that have this leaf. The size, the place
and the path may be any.
-/
theorem rootFromInclusion_sound {m n : Nat} {leaf : Bytes} {proof : List Bytes} {root : Bytes}
    (h : rootFromInclusion H m n (leafHash H leaf) proof = some root) {leaves : List Bytes}
    (hroot : mth H leaves = root)
    : leaf ∈ leaves ∨ Collides H (verifyInclusionQueries H m n leaf proof ++ mthQueries H leaves) := by
  rcases (rootFromInclusion_eq_some_iff H m n _ proof root).mp h with ⟨hlt, -, hclimb⟩
  have hqueries : verifyInclusionQueries H m n leaf proof
      = leafMsg leaf ::
          (scheme H).climbMsgs (leafHash H leaf) (inclusionSteps m (n - 1) proof) := by
    rw [verifyInclusionQueries, if_neg (by omega), verifyInclusionQueries.loop_eq]
  rw [hqueries]
  by_cases hnil : leaves = []
  . rcases climb_end H (leafMsg leaf) (inclusionSteps m (n - 1) proof) with ⟨msg, hmem, hne, hend⟩
    refine Or.inr (Collides.of_mem (List.mem_append_left _ hmem) (b := []) ?_ ?_ ?_)
    . simp [hnil, mthQueries]
    . exact hne (List.cons_ne_nil _ _)
    . have hempty : mth H leaves = H [] := by rw [hnil, mth]
      rw [← hend, ← hempty, hroot, ← hclimb]
      rfl
  . rcases tree?_isSome leaves hnil with ⟨t, ht⟩
    rw [mthQueries_eq_msgs H leaves ht]
    rw [← hroot, mth_eq_digest H leaves ht] at hclimb
    rcases HashTree.Scheme.climb_leaf_sound (scheme H) t _ leaf hclimb with hin | hcol
    . rw [← leaves_of_tree? ht]
      exact Or.inl (HashTree.mem_leaves_of_at? hin)
    . exact Or.inr hcol

/-!
### Comparison
-/

/--
The two walkers with the stop are one.
-/
theorem verifyInclusionFromLeafHash_eq (m n : Nat) (leaf : Bytes) (proof : List Bytes)
    (root : Bytes)
    : verifyInclusionFromLeafHash H m n leaf proof root
        =
      (rootFromInclusion H m n leaf proof == some root) := by
  rw [verifyInclusionFromLeafHash, rootFromInclusion]
  split
  . rfl
  . rw [rootFromInclusion.loop_eq]
    cases verifyInclusionFromLeafHash.loop H m (n - 1) leaf proof with
    | none => rfl
    | some found =>
      rcases found with ⟨r, sn⟩
      by_cases hsn : sn = 0 <;> simp [hsn]

/--
The proof goes on after the path has come to the top, and the root is what all of it leads to.
-/
structure Overlong (m n : Nat) (leaf : Bytes) (proof : List Bytes) (root : Bytes) : Prop where
  inside : m < n
  surplus : pathLength m (n - 1) < proof.length
  climb : (scheme H).climb (leafHash H leaf) (inclusionSteps m (n - 1) proof) = root

/--
The three walkers give one answer exactly if no sibling comes after the top.
-/
theorem walkers_agree_iff (m n : Nat) (leaf : Bytes) (proof : List Bytes) (root : Bytes)
    : (verifyInclusion H m n leaf proof root
            = verifyInclusionFromLeafHash H m n (leafHash H leaf) proof root ∧
          verifyInclusion H m n leaf proof root
            = (rootFromInclusion H m n (leafHash H leaf) proof == some root)) ↔
        ¬Overlong H m n leaf proof root := by
  rw [verifyInclusionFromLeafHash_eq, and_self, Bool.eq_iff_iff, beq_iff_eq,
    verifyInclusion_eq_true_iff, rootFromInclusion_eq_some_iff]
  constructor
  . rintro hagree ⟨hin, hsurplus, hclimb⟩
    have hexact := (hagree.mp ⟨hin, Nat.le_of_lt hsurplus, hclimb⟩).2.1
    omega
  . intro hnot
    constructor
    . rintro ⟨hin, hlen, hclimb⟩
      refine ⟨hin, ?_, hclimb⟩
      by_contra hne
      exact hnot ⟨hin, by omega, hclimb⟩
    . rintro ⟨hin, hlen, hclimb⟩
      exact ⟨hin, Nat.le_of_eq hlen, hclimb⟩

/--
A tree of one leaf has no siblings, but any one of them is taken.
-/
theorem walkers_disagree
    : ¬(verifyInclusion sha256 0 1 [0x61] [List.replicate 32 0]
            (nodeHash sha256 (List.replicate 32 0) (leafHash sha256 [0x61]))
          = verifyInclusionFromLeafHash sha256 0 1 (leafHash sha256 [0x61])
            [List.replicate 32 0]
            (nodeHash sha256 (List.replicate 32 0) (leafHash sha256 [0x61])) ∧
        verifyInclusion sha256 0 1 [0x61] [List.replicate 32 0]
            (nodeHash sha256 (List.replicate 32 0) (leafHash sha256 [0x61]))
          = (rootFromInclusion sha256 0 1 (leafHash sha256 [0x61]) [List.replicate 32 0]
            == some (nodeHash sha256 (List.replicate 32 0) (leafHash sha256 [0x61])))) := by
  decide +kernel

end Merkle
end CryptoValid
