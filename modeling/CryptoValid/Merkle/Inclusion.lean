import CryptoValid.Lib.Sha256
import CryptoValid.Merkle.Tree

/-!
This module contains the soundness of audit paths. The loop of the verifier is a climb; whenever it
leaves its counter at zero, the sides it took lead to the claimed leaf, possibly after some steps to
the right that lead nowhere.
-/

namespace CryptoValid
namespace Merkle

open Levels

/--
The climb that `verifyInclusion` makes, the counters only determine the sides.
-/
def inclusionSteps (fn sn : Nat) : List Bytes → List (HashTree.Step Unit Bytes)
  | [] => []
  | p :: proof =>
    if fn = sn ∨ fn &&& 1 = 1 then
      match skipZeros fn sn with
      | (fn, sn) => ⟨.right, (), p⟩ :: inclusionSteps (fn >>> 1) (sn >>> 1) proof
    else
      ⟨.left, (), p⟩ :: inclusionSteps (fn >>> 1) (sn >>> 1) proof

theorem verifyInclusion.loop_fst (H : HashFn 32) (h : Bytes) (fn sn : Nat) (proof : List Bytes)
    : (verifyInclusion.loop H h fn sn proof).1
        =
      (scheme H).climb h (inclusionSteps fn sn proof) := by
  induction proof generalizing h fn sn with
  | nil => rfl
  | cons p proof ih =>
    simp only [verifyInclusion.loop, inclusionSteps]
    split
    . rw [ih]
      rfl
    . rw [ih]
      rfl

theorem verifyInclusionQueries.loop_eq (H : HashFn 32) (h : Bytes) (fn sn : Nat)
    (proof : List Bytes)
    : verifyInclusionQueries.loop H h fn sn proof
        =
      (scheme H).climbMsgs h (inclusionSteps fn sn proof) := by
  induction proof generalizing h fn sn with
  | nil => rfl
  | cons p proof ih =>
    simp only [verifyInclusionQueries.loop, inclusionSteps]
    split
    . rw [ih]
      rfl
    . rw [ih]
      rfl

/--
Skipping the levels on which a node is promoted does not change the node, nor the top.
-/
theorem skipZeros_levels (f : β → β → β) (xs : List β) (fn sn : Nat) (hlen : xs.length = sn + 1)
    (hle : fn ≤ sn) (hcase : fn = sn ∨ fn &&& 1 = 1)
    : ∃ ys : List β,
        ys.length = (skipZeros fn sn).2 + 1 ∧
        (skipZeros fn sn).1 ≤ (skipZeros fn sn).2 ∧
        ys[(skipZeros fn sn).1]? = xs[fn]? ∧
        top? f ys = top? f xs ∧
        (fn ≠ 0 → (skipZeros fn sn).1 &&& 1 = 1) := by
  fun_induction skipZeros fn sn generalizing xs with
  | case1 fn sn hskip ih =>
    rw [Nat.and_one_is_mod] at hskip hcase
    have heq : fn = sn := by omega
    subst heq
    have hdiv : fn >>> 1 = fn / 2 := rfl
    have hlen' : (pairUp f xs).length = (fn >>> 1) + 1 := by
      rw [length_pairUp, hlen]
      omega
    rcases ih (pairUp f xs) hlen' (Nat.le_refl _) (Or.inl rfl) with ⟨ys, hys, hle, hget, htop, hodd⟩
    refine ⟨ys, hys, hle, ?_, ?_, ?_⟩
    . rw [hget, hdiv, getElem?_pairUp_last f xs (fn / 2) (by omega)]
      congr 1
      omega
    . rw [htop, top?_pairUp]
    . intro _
      apply hodd
      omega
  | case2 fn sn hskip =>
    refine ⟨xs, hlen, hle, rfl, rfl, ?_⟩
    rw [Nat.and_one_is_mod] at hskip ⊢
    omega

theorem pairUp_of_right (f : β → β → β) (xs : List β) (i : Nat) (hodd : i &&& 1 = 1)
    (hlt : i < xs.length)
    : ∃ x y, xs[i]? = some y ∧ (pairUp f xs)[i >>> 1]? = some (f x y) := by
  rw [Nat.and_one_is_mod] at hodd
  have hi : 2 * (i >>> 1) + 1 = i := by
    rw [Nat.shiftRight_one]
    omega
  have hy : xs[2 * (i >>> 1) + 1]? = some xs[i] := by
    rw [hi]
    simp
  exact ⟨xs[2 * (i >>> 1)], xs[i], by simp, getElem?_pairUp_pair f xs _ (by simp) hy⟩

theorem pairUp_of_left (f : β → β → β) (xs : List β) (i : Nat) (heven : i &&& 1 = 0)
    (hlt : i + 1 < xs.length)
    : ∃ x y, xs[i]? = some x ∧ (pairUp f xs)[i >>> 1]? = some (f x y) := by
  rw [Nat.and_one_is_mod] at heven
  have hi : 2 * (i >>> 1) = i := by
    rw [Nat.shiftRight_one]
    omega
  have hx : xs[2 * (i >>> 1)]? = some xs[i] := by
    rw [hi]
    simp
  have hy : xs[2 * (i >>> 1) + 1]? = some xs[i + 1] := by
    rw [hi]
    simp
  exact ⟨xs[i], xs[i + 1], by simp, getElem?_pairUp_pair f xs _ hx hy⟩

theorem length_pairUp_shiftRight (f : β → β → β) (xs : List β) (n : Nat) (hlen : xs.length = n + 1)
    : (pairUp f xs).length = (n >>> 1) + 1 := by
  rw [length_pairUp, Nat.shiftRight_one]
  omega

@[simp]
theorem skipZeros_zero (sn : Nat) : skipZeros 0 sn = (0, sn) := by
  rw [skipZeros]
  simp

/--
Once both counters are zero all further siblings are taken as left ones.
-/
theorem rootPath_inclusionSteps_zero (proof : List Bytes)
    : HashTree.rootPath (inclusionSteps 0 0 proof) = List.replicate proof.length .right := by
  induction proof with
  | nil => rfl
  | cons p proof ih =>
    simp [inclusionSteps, ih, List.replicate_succ']

/--
The sides that the verifier takes lead to the node it starts from, if its counter ends at zero. The
induction goes up level by level with the proof.
-/
theorem at?_inclusionSteps (H : HashFn 32) (ts : List (HashTree α)) (t : HashTree α) (h : Bytes)
    (fn sn : Nat) (proof : List Bytes) (hlen : ts.length = sn + 1) (hle : fn ≤ sn)
    (htop : top? .node ts = some t) (hend : (verifyInclusion.loop H h fn sn proof).2 = 0)
    : ∃ e path, HashTree.rootPath (inclusionSteps fn sn proof) = List.replicate e .right ++ path ∧
        t.at? path = ts[fn]? := by
  induction proof generalizing ts h fn sn with
  | nil =>
    simp only [verifyInclusion.loop] at hend
    subst hend
    match ts with
    | [u] =>
      have hfn : fn = 0 := by omega
      simp only [top?_singleton, Option.some.injEq] at htop
      exact ⟨0, [], rfl, by simp [htop, hfn]⟩
  | cons p proof ih =>
    by_cases hzero : fn = 0 ∧ sn = 0
    . rcases hzero with ⟨rfl, rfl⟩
      match ts with
      | [u] =>
        simp only [top?_singleton, Option.some.injEq] at htop
        exact ⟨proof.length + 1, [], by simp [rootPath_inclusionSteps_zero], by simp [htop]⟩
    . simp only [verifyInclusion.loop] at hend
      simp only [inclusionSteps]
      by_cases hside : fn = sn ∨ fn &&& 1 = 1
      . simp only [hside, ↓reduceIte] at hend ⊢
        rcases skipZeros_levels .node ts fn sn hlen hle hside with
          ⟨us, hus, hle', hget, htop', hodd⟩
        have hfn : fn ≠ 0 := by
          rintro rfl
          simp at hside
          omega
        rcases pairUp_of_right .node us _ (hodd hfn) (by omega) with ⟨l, r, hr, hnode⟩
        have hlen' := length_pairUp_shiftRight HashTree.node us _ hus
        have hle' : (skipZeros fn sn).1 >>> 1 ≤ (skipZeros fn sn).2 >>> 1 := by
          simp only [Nat.shiftRight_one]
          omega
        rcases ih (pairUp .node us) _ _ _ hlen' hle' (by rw [top?_pairUp, htop', htop]) hend with
          ⟨e, path, hpath, hat⟩
        refine ⟨e, path ++ [.right], by simp [hpath], ?_⟩
        rw [HashTree.at?_append, hat, hnode, ← hget, hr]
        rfl
      . simp only [hside, ↓reduceIte] at hend ⊢
        rw [Nat.and_one_is_mod] at hside
        have heven : fn &&& 1 = 0 := by
          rw [Nat.and_one_is_mod]
          omega
        rcases pairUp_of_left .node ts fn heven (by omega) with ⟨l, r, hl, hnode⟩
        have hlen' := length_pairUp_shiftRight HashTree.node ts _ hlen
        have hle' : fn >>> 1 ≤ sn >>> 1 := by
          simp only [Nat.shiftRight_one]
          omega
        rcases ih (pairUp .node ts) _ _ _ hlen' hle' (by rw [top?_pairUp, htop]) hend with
          ⟨e, path, hpath, hat⟩
        refine ⟨e, path ++ [.left], by simp [hpath], ?_⟩
        rw [HashTree.at?_append, hat, hnode, hl]
        rfl

/--
An accepted audit path proves that the leaf is in the tree at the claimed position, or it comes with
two messages that collide. There is no condition on the length of the path or of its siblings.
-/
theorem verifyInclusion_sound (H : HashFn 32) (leaves : List Bytes) (hne : leaves ≠ []) (m : Nat)
    (leafData : Bytes) (proof : List Bytes)
    (hverify : verifyInclusion H m leaves.length leafData proof (mth H leaves) = true)
    : (∃ hlt : m < leaves.length, leafData = leaves[m]) ∨
        Collides H
          (verifyInclusionQueries H m leaves.length leafData proof ++ mthQueries H leaves) := by
  rcases tree?_isSome leaves hne with ⟨t, ht⟩
  have hlen : 0 < leaves.length := List.length_pos_iff.mpr hne
  simp only [verifyInclusion] at hverify
  split at hverify
  . simp at hverify
  . next hlt =>
    simp only [Bool.and_eq_true, beq_iff_eq] at hverify
    rcases hverify with ⟨hend, hroot⟩
    have hforest : (leaves.map HashTree.leaf).length = leaves.length - 1 + 1 := by
      rw [List.length_map]
      omega
    rcases at?_inclusionSteps H _ t _ m _ proof hforest (by omega) ht hend with
      ⟨e, path, hpath, hat⟩
    have hleaf : t.at? path = some (.leaf leaves[m]) := by
      rw [hat]
      simp
    rw [verifyInclusion.loop_fst, mth_eq_digest H leaves ht] at hroot
    rcases HashTree.Scheme.climb_leaf_sound (scheme H) t _ leafData hroot with hin | hcol
    . rw [hpath] at hin
      cases e with
      | zero =>
        rw [List.replicate_zero, List.nil_append, hleaf] at hin
        simp only [Option.some.injEq, HashTree.leaf.injEq] at hin
        exact Or.inl ⟨by omega, hin.symm⟩
      | succ e =>
        rw [(leftFull_of_tree? ht).at?_right_append hleaf e] at hin
        simp at hin
    . simp only [verifyInclusionQueries, hlt, ↓reduceIte, verifyInclusionQueries.loop_eq,
        mthQueries_eq_msgs H leaves ht]
      exact Or.inr hcol

theorem verifyInclusion_sound_two_leaves
    : (∃ _ : 1 < 2, ([0x62] : Bytes) = ([[0x61], [0x62]] : List Bytes)[1]) ∨
        Collides sha256 (verifyInclusionQueries sha256 1 2 [0x62] [leafHash sha256 [0x61]] ++
          mthQueries sha256 [[0x61], [0x62]]) :=
  verifyInclusion_sound sha256 [[0x61], [0x62]] (by decide) 1 [0x62] [leafHash sha256 [0x61]]
    (by decide +kernel)

end Merkle
end CryptoValid
