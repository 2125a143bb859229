import CryptoValid.Lib.Bytes
import Mathlib.Algebra.Group.Nat.Defs

/-!
This module contains the Merkle trees of RFC 6962 as `cryptovalid_merkle.py` computes them: the tree
hash, audit paths and consistency proofs, and the two verifiers. The hash function is a parameter.
-/

namespace CryptoValid
namespace Merkle

variable (H : HashFn 32)

def leafMsg (data : Bytes) : Bytes := 0x00 :: data

def nodeMsg (left right : Bytes) : Bytes := 0x01 :: (left ++ right)

def leafHash (data : Bytes) : Bytes := H (leafMsg data)

def nodeHash (left right : Bytes) : Bytes := H (nodeMsg left right)

def largestPow2Below (n : Nat) : Nat :=
  go 1 Nat.one_pos >>> 1
where
  go (k : Nat) (hk : 0 < k) : Nat :=
    if k < n then go (k <<< 1) (by rw [Nat.shiftLeft_eq]; omega) else k
  termination_by n - k
  decreasing_by
    rw [Nat.shiftLeft_eq]
    omega

theorem largestPow2Below.go_spec (n j : Nat) (k : Nat) (hk : 0 < k) (heq : k = 2 ^ j)
    (hn : 2 ≤ n) (hlo : k ≤ 2 * (n - 1))
    : ∃ i, go n k hk >>> 1 = 2 ^ i ∧ 2 ^ i < n ∧ n ≤ 2 ^ (i + 1) := by
  fun_induction go n k hk generalizing j with
  | case1 k hk hlt ih =>
    refine ih (j + 1) ?_ ?_
    . rw [heq, Nat.shiftLeft_eq, ← Nat.pow_add]
    . rw [Nat.shiftLeft_eq]
      omega
  | case2 k hk hge =>
    cases j with
    | zero => omega
    | succ i =>
      rw [Nat.pow_succ] at heq
      refine ⟨i, ?_, ?_, ?_⟩
      . rw [heq, Nat.shiftRight_eq_div_pow]
        omega
      . omega
      . rw [Nat.pow_succ]
        omega

/--
The split of at least two leaves: a power of two, less than their number and at least half of it.
-/
theorem largestPow2Below_spec (n : Nat) (hn : 2 ≤ n)
    : ∃ j, largestPow2Below n = 2 ^ j ∧ 2 ^ j < n ∧ n ≤ 2 ^ (j + 1) :=
  largestPow2Below.go_spec n 0 1 Nat.one_pos rfl hn (by omega)

/--
The two parts that a list of leaves is split into, `leaves[:k]` and `leaves[k:]`.
-/
def leftPart (leaves : List Bytes) : List Bytes := leaves.take (largestPow2Below leaves.length)

def rightPart (leaves : List Bytes) : List Bytes := leaves.drop (largestPow2Below leaves.length)

theorem length_leftPart (leaves : List Bytes) (h : 2 ≤ leaves.length)
    : (leftPart leaves).length < leaves.length := by
  rcases largestPow2Below_spec leaves.length h with ⟨j, hj, hlt, _⟩
  rw [leftPart, List.length_take]
  omega

theorem length_rightPart (leaves : List Bytes) (h : 2 ≤ leaves.length)
    : (rightPart leaves).length < leaves.length := by
  rcases largestPow2Below_spec leaves.length h with ⟨j, hj, _⟩
  have := Nat.two_pow_pos j
  rw [rightPart, List.length_drop]
  omega

/--
Merkle Tree Hash over a list of leaf data.
-/
def mth (leaves : List Bytes) : Bytes :=
  match leaves with
  | [] => H []
  | [leaf] => leafHash H leaf
  | x :: y :: xs =>
    nodeHash H (mth (leftPart (x :: y :: xs))) (mth (rightPart (x :: y :: xs)))
termination_by leaves.length
decreasing_by
  . exact length_leftPart (x :: y :: xs) (by simp)
  . exact length_rightPart (x :: y :: xs) (by simp)

/--
Every message that `mth` hashes.
-/
def mthQueries (leaves : List Bytes) : List Bytes :=
  match leaves with
  | [] => [[]]
  | [leaf] => [leafMsg leaf]
  | x :: y :: xs =>
    nodeMsg (mth H (leftPart (x :: y :: xs))) (mth H (rightPart (x :: y :: xs))) ::
      (mthQueries (leftPart (x :: y :: xs)) ++ mthQueries (rightPart (x :: y :: xs)))
termination_by leaves.length
decreasing_by
  . exact length_leftPart (x :: y :: xs) (by simp)
  . exact length_rightPart (x :: y :: xs) (by simp)

/--
`while not (fn & 1) and fn != 0`: drop the levels on which the node is a promoted one.
-/
def skipZeros (fn sn : Nat) : Nat × Nat :=
  if fn &&& 1 = 0 ∧ fn ≠ 0 then skipZeros (fn >>> 1) (sn >>> 1) else (fn, sn)
termination_by fn
decreasing_by
  rw [Nat.shiftRight_eq_div_pow]
  omega

/--
`while fn & 1`: drop the levels on which the old tree is full.
-/
def skipOnes (fn sn : Nat) : Nat × Nat :=
  if fn &&& 1 = 1 then skipOnes (fn >>> 1) (sn >>> 1) else (fn, sn)
termination_by fn
decreasing_by
  rename_i h
  rw [Nat.and_one_is_mod] at h
  rw [Nat.shiftRight_eq_div_pow]
  omega

/--
Third-party verification of an audit path.
-/
def verifyInclusion (m n : Nat) (leafData : Bytes) (proof : List Bytes) (root : Bytes) : Bool :=
  if m ≥ n then
    false
  else
    match loop (leafHash H leafData) m (n - 1) proof with
    | (h, sn) => sn == 0 && h == root
where
  loop (h : Bytes) (fn sn : Nat) : List Bytes → Bytes × Nat
    | [] => (h, sn)
    | p :: proof =>
      if fn = sn ∨ fn &&& 1 = 1 then
        match skipZeros fn sn with
        | (fn, sn) => loop (nodeHash H p h) (fn >>> 1) (sn >>> 1) proof
      else
        loop (nodeHash H h p) (fn >>> 1) (sn >>> 1) proof

/--
Every message that `verifyInclusion` hashes.
-/
def verifyInclusionQueries (m n : Nat) (leafData : Bytes) (proof : List Bytes) : List Bytes :=
  if m ≥ n then [] else leafMsg leafData :: loop (leafHash H leafData) m (n - 1) proof
where
  loop (h : Bytes) (fn sn : Nat) : List Bytes → List Bytes
    | [] => []
    | p :: proof =>
      if fn = sn ∨ fn &&& 1 = 1 then
        match skipZeros fn sn with
        | (fn, sn) => nodeMsg p h :: loop (nodeHash H p h) (fn >>> 1) (sn >>> 1) proof
      else
        nodeMsg h p :: loop (nodeHash H h p) (fn >>> 1) (sn >>> 1) proof

/--
RFC 6962 consistency verification. The loop returns `none` where the source returns early.
-/
def verifyConsistency (m n : Nat) (proof : List Bytes) (oldRoot newRoot : Bytes) : Bool :=
  if m = 0 ∨ m > n then
    false
  else if m = n then
    proof == [] && oldRoot == newRoot
  else
    match (if m &&& (m - 1) = 0 then oldRoot :: proof else proof) with
    | [] => false
    | start :: path =>
      match skipOnes (m - 1) (n - 1) with
      | (fn, sn) =>
        match loop start start fn sn path with
        | none => false
        | some (fr, sr, sn) => sn == 0 && fr == oldRoot && sr == newRoot
where
  loop (fr sr : Bytes) (fn sn : Nat) : List Bytes → Option (Bytes × Bytes × Nat)
    | [] => some (fr, sr, sn)
    | c :: path =>
      if sn = 0 then
        none
      else if fn &&& 1 = 1 ∨ fn = sn then
        match skipZeros fn sn with
        | (fn, sn) => loop (nodeHash H c fr) (nodeHash H c sr) (fn >>> 1) (sn >>> 1) path
      else
        loop fr (nodeHash H sr c) (fn >>> 1) (sn >>> 1) path

/--
Every message that `verifyConsistency` hashes.
-/
def verifyConsistencyQueries (m n : Nat) (proof : List Bytes) (oldRoot : Bytes) : List Bytes :=
  if m = 0 ∨ m ≥ n then
    []
  else
    match (if m &&& (m - 1) = 0 then oldRoot :: proof else proof) with
    | [] => []
    | start :: path =>
      match skipOnes (m - 1) (n - 1) with
      | (fn, sn) => loop start start fn sn path
where
  loop (fr sr : Bytes) (fn sn : Nat) : List Bytes → List Bytes
    | [] => []
    | c :: path =>
      if sn = 0 then
        []
      else if fn &&& 1 = 1 ∨ fn = sn then
        match skipZeros fn sn with
        | (fn, sn) =>
          nodeMsg c fr :: nodeMsg c sr ::
            loop (nodeHash H c fr) (nodeHash H c sr) (fn >>> 1) (sn >>> 1) path
      else
        nodeMsg sr c :: loop fr (nodeHash H sr c) (fn >>> 1) (sn >>> 1) path

end Merkle
end CryptoValid
