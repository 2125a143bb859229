import CryptoValid.Lib.HashTree.Paths
import CryptoValid.Merkle.Basic

/-!
This module contains the prover of `cryptovalid_merkle.py` and the two checks that
`cryptovalid_receipt.py` makes with its proofs. The prover collects the paths of the levels.
-/

namespace CryptoValid
namespace Merkle

open Levels

variable (H : HashFn 32)

/--
Audit path proving leaf `m` is in the tree; `none` is the failing assertion.
-/
def inclusionProof (m : Nat) (leaves : List Bytes) : Option (List Bytes) :=
  match leaves with
  | [] => none
  | [_] => if m = 0 then some [] else none
  | x :: y :: xs =>
    if m < (x :: y :: xs).length then
      if m < largestPow2Below (x :: y :: xs).length then
        (inclusionProof m (leftPart (x :: y :: xs))).map
          (· ++ [mth H (rightPart (x :: y :: xs))])
      else
        (inclusionProof (m - largestPow2Below (x :: y :: xs).length)
          (rightPart (x :: y :: xs))).map (· ++ [mth H (leftPart (x :: y :: xs))])
    else
      none
termination_by leaves.length
decreasing_by
  . exact length_leftPart (x :: y :: xs) (by simp)
  . exact length_rightPart (x :: y :: xs) (by simp)

/--
`b` says that the old root is known already. It is only called with `0 < m` and `m` at most the
number of leaves, for any other `m` there is no result.
-/
def subproof (m : Nat) (leaves : List Bytes) (b : Bool) : Option (List Bytes) :=
  if m = leaves.length then
    some (if b then [] else [mth H leaves])
  else
    match leaves with
    | [] => none
    | [_] => none
    | x :: y :: xs =>
      if m ≤ largestPow2Below (x :: y :: xs).length then
        (subproof m (leftPart (x :: y :: xs)) b).map (· ++ [mth H (rightPart (x :: y :: xs))])
      else
        (subproof (m - largestPow2Below (x :: y :: xs).length) (rightPart (x :: y :: xs))
          false).map (· ++ [mth H (leftPart (x :: y :: xs))])
termination_by leaves.length
decreasing_by
  . exact length_leftPart (x :: y :: xs) (by simp)
  . exact length_rightPart (x :: y :: xs) (by simp)

/--
Append-only proof that the first `m` leaves are a prefix; `none` is the failing assertion.
-/
def consistencyProof (m : Nat) (leaves : List Bytes) : Option (List Bytes) :=
  if 0 < m ∧ m ≤ leaves.length then
    if m = leaves.length then some [] else subproof H m leaves true
  else
    none

/--
The check of an audit path from the leaf hash; the loop returns `none` where the source returns
early.
-/
def verifyInclusionFromLeafHash (m n : Nat) (leaf : Bytes) (proof : List Bytes) (root : Bytes)
    : Bool :=
  if m ≥ n then
    false
  else
    match loop m (n - 1) leaf proof with
    | none => false
    | some (r, sn) => sn == 0 && r == root
where
  loop (fn sn : Nat) (r : Bytes) : List Bytes → Option (Bytes × Nat)
    | [] => some (r, sn)
    | p :: proof =>
      if sn = 0 then
        none
      else if fn &&& 1 = 1 ∨ fn = sn then
        match skipZeros fn sn with
        | (fn, sn) => loop (fn >>> 1) (sn >>> 1) (nodeHash H p r) proof
      else
        loop (fn >>> 1) (sn >>> 1) (nodeHash H r p) proof

/--
Both roots from a consistency path and the old root, `none` if the path is malformed.
-/
def consistencyRoots (m n : Nat) (proof : List Bytes) (oldRoot : Bytes) : Option (Bytes × Bytes) :=
  if m = n then
    if proof = [] then some (oldRoot, oldRoot) else none
  else if m = 0 ∨ m > n then
    none
  else
    match (if m &&& (m - 1) = 0 then oldRoot :: proof else proof) with
    | [] => none
    | start :: path =>
      match skipOnes (m - 1) (n - 1) with
      | (fn, sn) =>
        match verifyConsistency.loop H start start fn sn path with
        | none => none
        | some (fr, sr, sn) => if sn = 0 then some (fr, sr) else none

/-!
### The prover and the levels
-/

/--
The lowest level of the tree.
-/
def leafHashes (leaves : List Bytes) : List Bytes := leaves.map (leafHash H)

theorem mth_eq_top? (leaves : List Bytes) (h : leaves ≠ [])
    : top? (nodeHash H) (leafHashes H leaves) = some (mth H leaves) := by
  fun_induction mth H leaves with
  | case1 => exact absurd rfl h
  | case2 leaf => simp [leafHashes]
  | case3 x y xs ihl ihr =>
    rcases largestPow2Below_spec (x :: y :: xs).length (by simp) with ⟨j, hj, hlo, hhi⟩
    have hleft : leftPart (x :: y :: xs) ≠ [] := by
      have := Nat.two_pow_pos j
      rw [leftPart, hj, ← List.length_pos_iff, List.length_take]
      omega
    have hright : rightPart (x :: y :: xs) ≠ [] := by
      rw [rightPart, hj, ← List.length_pos_iff, List.length_drop]
      omega
    have hl := ihl hleft
    have hr := ihr hright
    simp only [leafHashes, leftPart, rightPart, hj, List.map_take, List.map_drop] at hl hr ⊢
    rw [top?_split _ _ j (by simpa using hlo) (by simpa using hhi), hl, hr]
    rfl

/--
A path of the levels that can be taken half by half, taken over the hashes of some leaves.
-/
theorem halfWise_leafHashes {path : Nat → List Bytes → List Bytes} {leaves : List Bytes} {m j : Nat}
    (hj : largestPow2Below leaves.length = 2 ^ j) (hlo : 2 ^ j < leaves.length)
    (h : HalfWise (nodeHash H) path (leafHashes H leaves) j m)
    : path m (leafHashes H leaves) =
        if m < largestPow2Below leaves.length then
          path m (leafHashes H (leftPart leaves)) ++ [mth H (rightPart leaves)]
        else
          path (m - largestPow2Below leaves.length) (leafHashes H (rightPart leaves)) ++
            [mth H (leftPart leaves)] := by
  have hleft : leftPart leaves ≠ [] := by
    have := Nat.two_pow_pos j
    rw [leftPart, hj, ← List.length_pos_iff, List.length_take]
    omega
  have hright : rightPart leaves ≠ [] := by
    rw [rightPart, hj, ← List.length_pos_iff, List.length_drop]
    omega
  have htake : (leafHashes H leaves).take (2 ^ j) = leafHashes H (leftPart leaves) := by
    rw [leafHashes, leafHashes, leftPart, hj, List.map_take]
  have hdrop : (leafHashes H leaves).drop (2 ^ j) = leafHashes H (rightPart leaves) := by
    rw [leafHashes, leafHashes, rightPart, hj, List.map_drop]
  rw [h, htake, hdrop, mth_eq_top? H _ hleft, mth_eq_top? H _ hright, hj]
  rfl

theorem inclusionProof_eq (m : Nat) (leaves : List Bytes) (hm : m < leaves.length)
    : inclusionProof H m leaves = some (auditPath (nodeHash H) m (leafHashes H leaves)) := by
  fun_induction inclusionProof H m leaves with
  | case1 => simp at hm
  | case2 => simp [leafHashes]
  | case3 m x hne =>
    simp only [List.length_cons, List.length_nil] at hm
    omega
  | case4 m x y xs hlt hleft ih =>
    rcases largestPow2Below_spec (x :: y :: xs).length (by simp) with ⟨j, hj, hlo, hhi⟩
    have hhalf := halfWise_leafHashes H hj hlo (auditPath_halves (nodeHash H)
      (leafHashes H (x :: y :: xs)) j m (by simpa [leafHashes] using hlo)
      (by simpa [leafHashes] using hhi) (by simpa [leafHashes] using hm))
    have hm' : m < (leftPart (x :: y :: xs)).length := by
      rw [leftPart, List.length_take]
      omega
    rw [ih hm', hhalf, if_pos hleft]
    rfl
  | case5 m x y xs hlt hright ih =>
    rcases largestPow2Below_spec (x :: y :: xs).length (by simp) with ⟨j, hj, hlo, hhi⟩
    have hhalf := halfWise_leafHashes H hj hlo (auditPath_halves (nodeHash H)
      (leafHashes H (x :: y :: xs)) j m (by simpa [leafHashes] using hlo)
      (by simpa [leafHashes] using hhi) (by simpa [leafHashes] using hm))
    have hm' : m - largestPow2Below (x :: y :: xs).length
        < (rightPart (x :: y :: xs)).length := by
      rw [rightPart, List.length_drop]
      omega
    rw [ih hm', hhalf, if_neg hright]
    rfl
  | case6 m x y xs hge => exact absurd hm hge

theorem prefixPath_ne_nil (f : β → β → β) (m : Nat) (xs : List β) (hm : m < xs.length)
    : prefixPath f m xs ≠ [] := by
  fun_induction prefixPath f m xs with
  | case1 m xs hodd ih =>
    apply ih
    rw [length_pairUp]
    omega
  | case2 m xs heven => simp [hm]

theorem tail_append_of_ne_nil (xs ys : List β) (h : xs ≠ []) : (xs ++ ys).tail = xs.tail ++ ys := by
  cases xs with
  | nil => exact absurd rfl h
  | cons x xs => rfl

/--
The flag only leaves out the first node, and only if it is the old root.
-/
theorem subproof_eq (m : Nat) (leaves : List Bytes) (b : Bool) (hpos : 0 < m)
    (hm : m < leaves.length ∨ m = leaves.length ∧ m.isPowerOfTwo)
    : subproof H m leaves b =
        some (if b = true ∧ m.isPowerOfTwo then
            (prefixPath (nodeHash H) (m - 1) (leafHashes H leaves)).tail
          else prefixPath (nodeHash H) (m - 1) (leafHashes H leaves)) := by
  fun_induction subproof H m leaves b with
  | case1 leaves b =>
    rcases hm with hlt | ⟨_, j, hj⟩
    . omega
    . have hne : leaves ≠ [] := List.length_pos_iff.mp hpos
      have hlen : (leafHashes H leaves).length = 2 ^ j := by simp [leafHashes, hj]
      rcases prefixPath_full (nodeHash H) (leafHashes H leaves) j (by omega)
        with ⟨top, rest, htop, hpath, hrest⟩
      rw [List.take_of_length_le (by omega), mth_eq_top? H leaves hne] at htop
      rw [hj, hpath, hrest hlen, ← Option.some.inj htop]
      cases b with
      | true => simp [show (2 ^ j).isPowerOfTwo from ⟨j, rfl⟩]
      | false => simp
  | case2 m b hne => simp only [List.length_nil] at hm hne; omega
  | case3 m b x hne => simp only [List.length_cons, List.length_nil] at hm hne; omega
  | case4 m b x y xs hne hleft ih =>
    rcases largestPow2Below_spec (x :: y :: xs).length (by simp) with ⟨j, hj, hlo, hhi⟩
    have hhalf := halfWise_leafHashes H hj hlo (prefixPath_halves (nodeHash H)
      (leafHashes H (x :: y :: xs)) j (m - 1) (by simpa [leafHashes] using hlo)
      (by simpa [leafHashes] using hhi) (by rw [leafHashes, List.length_map]; omega))
    have hlen : (leftPart (x :: y :: xs)).length = 2 ^ j := by
      rw [leftPart, List.length_take]
      omega
    have hm' : m < (leftPart (x :: y :: xs)).length ∨
        m = (leftPart (x :: y :: xs)).length ∧ m.isPowerOfTwo := by
      by_cases heq : m = 2 ^ j
      . exact Or.inr ⟨by omega, j, heq⟩
      . exact Or.inl (by omega)
    have hside : m - 1 < largestPow2Below (x :: y :: xs).length := by omega
    rw [ih hpos hm', hhalf, if_pos hside]
    split
    . rw [tail_append_of_ne_nil _ _ (prefixPath_ne_nil _ _ _ (by simp [leafHashes]; omega))]
      rfl
    . rfl
  | case5 m b x y xs hne hright ih =>
    rcases largestPow2Below_spec (x :: y :: xs).length (by simp) with ⟨j, hj, hlo, hhi⟩
    have hhalf := halfWise_leafHashes H hj hlo (prefixPath_halves (nodeHash H)
      (leafHashes H (x :: y :: xs)) j (m - 1) (by simpa [leafHashes] using hlo)
      (by simpa [leafHashes] using hhi) (by rw [leafHashes, List.length_map]; omega))
    have hm' : m - largestPow2Below (x :: y :: xs).length
        < (rightPart (x :: y :: xs)).length := by
      rw [rightPart, List.length_drop]
      omega
    -- between two powers of two there is none
    have hnot : ¬m.isPowerOfTwo := by
      rintro ⟨i, rfl⟩
      have hlow : 2 ^ j < 2 ^ i := by omega
      have hhigh : 2 ^ i < 2 ^ (j + 1) := by omega
      rw [Nat.pow_lt_pow_iff_right (by decide)] at hlow hhigh
      omega
    have hsub : m - largestPow2Below (x :: y :: xs).length - 1
        = m - 1 - largestPow2Below (x :: y :: xs).length := by omega
    have hside : ¬m - 1 < largestPow2Below (x :: y :: xs).length := by omega
    rw [ih (by omega) (Or.inl hm'), hhalf, if_neg hside, hsub]
    simp [hnot]

end Merkle
end CryptoValid
