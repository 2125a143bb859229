import CryptoValid.Lib.Sha256
import CryptoValid.Merkle.Tree

/-!
This module contains the soundness of consistency proofs. The loop of the verifier is a twin climb,
its counters only decide which siblings belong to both trees.
-/

namespace CryptoValid
namespace Merkle

/--
The twin climb that `verifyConsistency` makes.
-/
def consistencySteps (fn sn : Nat) : List Bytes → List (HashTree.TwinStep Unit Bytes)
  | [] => []
  | c :: path =>
    if fn &&& 1 = 1 ∨ fn = sn then
      match skipZeros fn sn with
      | (fn, sn) => ⟨true, (), (), c⟩ :: consistencySteps (fn >>> 1) (sn >>> 1) path
    else
      ⟨false, (), (), c⟩ :: consistencySteps (fn >>> 1) (sn >>> 1) path

theorem verifyConsistency.loop_eq (H : HashFn 32) (fr sr : Bytes) (fn sn : Nat) (path : List Bytes)
    (hloop : verifyConsistency.loop H fr sr fn sn path = some (fr', sr', sn'))
    : (scheme H).twinClimb fr sr (consistencySteps fn sn path) = (fr', sr') := by
  induction path generalizing fr sr fn sn with
  | nil =>
    simp only [verifyConsistency.loop, Option.some.injEq, Prod.mk.injEq] at hloop
    simp [consistencySteps, HashTree.Scheme.twinClimb, hloop]
  | cons c path ih =>
    simp only [verifyConsistency.loop] at hloop
    split at hloop
    . simp at hloop
    . simp only [consistencySteps]
      split at hloop
      . next hside =>
        simp only [hside, ↓reduceIte]
        rw [HashTree.Scheme.twinClimb_shared _ _ _ _ rfl]
        exact ih _ _ _ _ hloop
      . next hside =>
        simp only [hside, ↓reduceIte]
        rw [HashTree.Scheme.twinClimb_new _ _ _ _ rfl]
        exact ih _ _ _ _ hloop

theorem verifyConsistencyQueries.loop_eq (H : HashFn 32) (fr sr : Bytes) (fn sn : Nat)
    (path : List Bytes)
    (hloop : verifyConsistency.loop H fr sr fn sn path = some (fr', sr', sn'))
    : (scheme H).twinMsgs fr sr (consistencySteps fn sn path)
        =
      verifyConsistencyQueries.loop H fr sr fn sn path := by
  induction path generalizing fr sr fn sn with
  | nil => rfl
  | cons c path ih =>
    simp only [verifyConsistency.loop] at hloop
    split at hloop
    . simp at hloop
    . next hsn =>
      simp only [consistencySteps, verifyConsistencyQueries.loop, hsn, ↓reduceIte]
      split at hloop
      . next hside =>
        simp only [hside, ↓reduceIte]
        rw [HashTree.Scheme.twinMsgs_shared _ _ _ _ rfl]
        exact congrArg _ (congrArg _ (ih _ _ _ _ hloop))
      . next hside =>
        simp only [hside, ↓reduceIte]
        rw [HashTree.Scheme.twinMsgs_new _ _ _ _ rfl]
        exact congrArg _ (ih _ _ _ _ hloop)

/--
What an accepted proof between different sizes is: a twin climb from one start to both roots.
-/
theorem twinClimb_of_verifyConsistency (H : HashFn 32) (m n : Nat) (proof : List Bytes)
    (oldRoot newRoot : Bytes) (hne : m ≠ n)
    (hverify : verifyConsistency H m n proof oldRoot newRoot = true)
    : ∃ start steps,
        (start = oldRoot ∨ start ∈ proof) ∧
        (scheme H).twinClimb start start steps = (oldRoot, newRoot) ∧
        (scheme H).twinMsgs start start steps = verifyConsistencyQueries H m n proof oldRoot := by
  simp only [verifyConsistency, hne, ↓reduceIte] at hverify
  split at hverify
  . simp at hverify
  . next hsize =>
    have hsize' : ¬(m = 0 ∨ m ≥ n) := by omega
    simp only [verifyConsistencyQueries, hsize', ↓reduceIte]
    split at hverify
    . simp at hverify
    . next start path hpath =>
      have hstart : start = oldRoot ∨ start ∈ proof := by
        split at hpath
        . simp only [List.cons.injEq] at hpath
          exact Or.inl hpath.1.symm
        . exact Or.inr (by simp [hpath])
      split at hverify
      . simp at hverify
      . next fr sr sn hloop =>
        simp only [Bool.and_eq_true, beq_iff_eq] at hverify
        rcases hverify with ⟨⟨_, hfr⟩, hsr⟩
        refine ⟨start, _, hstart, ?_, verifyConsistencyQueries.loop_eq H _ _ _ _ _ hloop⟩
        rw [verifyConsistency.loop_eq H _ _ _ _ _ hloop, hfr, hsr]

/--
An accepted consistency proof between the tree hashes of two leaf lists proves that the old one is a
prefix of the new one, or it comes with two messages that collide. There is no condition on the
proof.
-/
theorem verifyConsistency_sound (H : HashFn 32) (old new : List Bytes) (hold : 0 < old.length)
    (proof : List Bytes)
    (hverify :
      verifyConsistency H old.length new.length proof (mth H old) (mth H new) = true)
    : old <+: new ∨
        Collides H
          (verifyConsistencyQueries H old.length new.length proof (mth H old) ++
            (mthQueries H old ++ mthQueries H new)) := by
  have hnew : new ≠ [] := by
    rintro rfl
    simp only [verifyConsistency, List.length_nil] at hverify
    split at hverify
    . simp at hverify
    . omega
  rcases tree?_isSome old (List.length_pos_iff.mp hold) with ⟨told, htold⟩
  rcases tree?_isSome new hnew with ⟨tnew, htnew⟩
  have hmsgs : (scheme H).msgs told ++ (scheme H).msgs tnew = mthQueries H old ++ mthQueries H new := by
    rw [mthQueries_eq_msgs H old htold, mthQueries_eq_msgs H new htnew]
  rw [mth_eq_digest H old htold, mth_eq_digest H new htnew] at hverify
  rw [mth_eq_digest H old htold, ← hmsgs]
  by_cases hne : old.length = new.length
  . have hroots : (scheme H).digest told = (scheme H).digest tnew := by
      simp only [verifyConsistency, hne, ↓reduceIte] at hverify
      split at hverify
      . simp at hverify
      . simp only [Bool.and_eq_true, beq_iff_eq] at hverify
        exact hverify.2
    rcases HashTree.Scheme.digest_inj (scheme H) told tnew hroots with heq | hcol
    . rw [← leaves_of_tree? htold, ← leaves_of_tree? htnew, heq]
      exact Or.inl List.prefix_rfl
    . exact Or.inr (hcol.mono (List.subset_append_right _ _))
  . rcases twinClimb_of_verifyConsistency H _ _ _ _ _ hne hverify with
      ⟨start, steps, _, hclimb, hqueries⟩
    rw [← hqueries, ← leaves_of_tree? htold, ← leaves_of_tree? htnew]
    apply HashTree.Scheme.twinClimb_prefix told tnew steps start hclimb
    . simp
    . exact List.subset_append_left _ _
    . exact List.subset_append_of_subset_right _ (List.subset_append_left _ _)
    . exact List.subset_append_of_subset_right _ (List.subset_append_right _ _)

theorem verifyConsistency_sound_two_three
    : ([[0x61], [0x62]] : List Bytes) <+: [[0x61], [0x62], [0x63]] ∨
        Collides sha256
          (verifyConsistencyQueries sha256 2 3 [leafHash sha256 [0x63]]
              (mth sha256 [[0x61], [0x62]]) ++
            (mthQueries sha256 [[0x61], [0x62]] ++ mthQueries sha256 [[0x61], [0x62], [0x63]])) :=
  verifyConsistency_sound sha256 [[0x61], [0x62]] [[0x61], [0x62], [0x63]] (by decide)
    [leafHash sha256 [0x63]] (by decide +kernel)

end Merkle
end CryptoValid
