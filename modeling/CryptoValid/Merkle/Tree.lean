import CryptoValid.Lib.HashTree.Extension
import CryptoValid.Lib.HashTree.Levels
import CryptoValid.Merkle.Basic

/-!
This module connects the tree hash to hash trees: `mth` is the digest of the left full tree that is
built level by level over the leaves.
-/

namespace CryptoValid
namespace Merkle

open Levels

/--
RFC 6962 as a scheme. The prefix byte tells leaves and nodes apart, the length of the digests tells
where the left one ends.
-/
def scheme (H : HashFn 32) : HashTree.Scheme Bytes Unit Bytes Bytes where
  hash := H
  leafMsg := leafMsg
  note _ _ := ()
  nodeMsg _ := nodeMsg
  valid d := d.length = 32
  valid_hash := H.length_digest
  leafMsg_inj h := by simpa [leafMsg] using h
  leafMsg_ne_nodeMsg _ _ _ _ h := by simp [leafMsg, nodeMsg] at h
  nodeMsg_inj := by
    intro _ _ a b c d hab hc hd h
    simp only [nodeMsg, List.cons.injEq, true_and] at h
    refine List.append_inj h ?_
    have hlen := congrArg List.length h
    simp only [List.length_append] at hlen
    omega

/--
The tree over some leaves; there is none without leaves.
-/
def tree? (leaves : List Bytes) : Option (HashTree Bytes) := top? .node (leaves.map .leaf)

theorem tree?_isSome (leaves : List Bytes) (h : leaves ≠ []) : ∃ t, tree? leaves = some t := by
  apply Option.isSome_iff_exists.mp
  apply top?_isSome
  simpa

theorem leftFull_of_tree? (h : tree? leaves = some t) : t.LeftFull :=
  (HashTree.Forest.leaves leaves).leftFull_of_top? h

theorem leaves_of_tree? (h : tree? leaves = some t) : t.leaves = leaves :=
  HashTree.leaves_of_top? h

/--
The split of `mth` is one of the tree.
-/
theorem tree?_split (leaves : List Bytes) (hlen : 2 ≤ leaves.length)
    : tree? leaves =
        (tree? (leftPart leaves)).bind fun l => (tree? (rightPart leaves)).map (.node l) := by
  rcases largestPow2Below_spec leaves.length hlen with ⟨j, hj, hlo, hhi⟩
  unfold tree? leftPart rightPart
  rw [top?_split _ _ j (by simpa using hlo) (by simpa using hhi), hj]
  simp only [List.map_take, List.map_drop]

theorem tree?_cons_cons (h : tree? (x :: y :: xs) = some t)
    : ∃ l r, t = .node l r ∧
        tree? (leftPart (x :: y :: xs)) = some l ∧ tree? (rightPart (x :: y :: xs)) = some r := by
  rw [tree?_split _ (by simp)] at h
  simp only [Option.bind_eq_some_iff, Option.map_eq_some_iff] at h
  rcases h with ⟨l, hl, r, hr, rfl⟩
  exact ⟨l, r, rfl, hl, hr⟩

theorem mth_eq_digest (H : HashFn 32) (leaves : List Bytes) (h : tree? leaves = some t)
    : mth H leaves = (scheme H).digest t := by
  fun_induction mth H leaves generalizing t with
  | case1 => simp [tree?] at h
  | case2 leaf =>
    simp only [tree?, List.map_cons, List.map_nil, top?_singleton, Option.some.injEq] at h
    subst h
    rfl
  | case3 x y xs ihl ihr =>
    rcases tree?_cons_cons h with ⟨l, r, rfl, hl, hr⟩
    rw [ihl hl, ihr hr]
    rfl

theorem mthQueries_eq_msgs (H : HashFn 32) (leaves : List Bytes) (h : tree? leaves = some t)
    : mthQueries H leaves = (scheme H).msgs t := by
  fun_induction mthQueries H leaves generalizing t with
  | case1 => simp [tree?] at h
  | case2 leaf =>
    simp only [tree?, List.map_cons, List.map_nil, top?_singleton, Option.some.injEq] at h
    subst h
    rfl
  | case3 x y xs ihl ihr =>
    rcases tree?_cons_cons h with ⟨l, r, rfl, hl, hr⟩
    rw [ihl hl, ihr hr, mth_eq_digest H _ hl, mth_eq_digest H _ hr]
    rfl

end Merkle
end CryptoValid
