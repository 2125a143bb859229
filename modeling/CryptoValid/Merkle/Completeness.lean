import CryptoValid.Merkle.Inclusion
import CryptoValid.Merkle.Line
import CryptoValid.Merkle.Proofs

/-!
This module contains that the verifiers accept what the prover makes. Their loops go up the levels, a
promoted node is skipped when its next sibling comes.
-/

namespace CryptoValid
namespace Merkle

open Levels

variable (H : HashFn 32)

/--
At the right edge the loop may as well have skipped a level on which the node is promoted.
-/
theorem loop_promoted (fr sr : Bytes) (fn : Nat) (path : List Bytes) (heven : fn % 2 = 0)
    (hpos : 0 < fn) (hpath : path ≠ [])
    : verifyConsistency.loop H fr sr fn fn path
        =
      verifyConsistency.loop H fr sr (fn / 2) (fn / 2) path := by
  match path with
  | [] => exact absurd rfl hpath
  | c :: path =>
    have hhalf : fn / 2 ≠ 0 := by omega
    have hskip : skipZeros fn fn = skipZeros (fn / 2) (fn / 2) := by
      rw [skipZeros, Nat.and_one_is_mod, if_pos ⟨heven, by omega⟩, Nat.shiftRight_one]
    simp only [verifyConsistency.loop, or_true, if_true, hskip]
    rw [if_neg (by omega), if_neg hhalf]

/--
The nodes over the first elements, up to and with the one at `i`: the last of them is not a node of
the whole, the other ones are.
-/
structure OldLevel (xs ys : List β) (i : Nat) (y : β) : Prop where
  length : ys.length = i + 1
  take : ys.take i = xs.take i
  last : ys[i]? = some y

theorem OldLevel.getElem? {xs ys : List β} {i : Nat} {y : β} (h : OldLevel xs ys i y) {k : Nat}
    (hk : k < i) : ys[k]? = xs[k]? := by
  rw [← List.getElem?_take_of_lt hk, h.take, List.getElem?_take_of_lt hk]

/--
The level above: what is left of the last node is the same in both.
-/
theorem pairUp_take_eq (f : β → β → β) {xs ys : List β} {i : Nat} (h : ys.take i = xs.take i)
    (hys : i ≤ ys.length) (hxs : i ≤ xs.length)
    : (pairUp f ys).take (i / 2) = (pairUp f xs).take (i / 2) := by
  have hle : 2 * (i / 2) ≤ i := by omega
  have hhalf : ∀ zs : List β, i ≤ zs.length →
      (pairUp f zs).take (i / 2) = pairUp f (zs.take (2 * (i / 2))) := by
    intro zs hzs
    rw [pairUp_take f zs _ (Nat.dvd_mul_right ..) (by omega)]
    congr 1
    omega
  rw [hhalf ys hys, hhalf xs hxs, ← Nat.min_eq_left hle, ← List.take_take, h, List.take_take]

theorem OldLevel.pairUp_odd {f : β → β → β} {xs ys : List β} {i : Nat} {x y : β}
    (h : OldLevel xs ys i y) (hodd : i % 2 = 1) (hi : i < xs.length)
    (hx : xs[i - 1]? = some x) : OldLevel (pairUp f xs) (pairUp f ys) (i / 2) (f x y) where
  length := by
    rw [length_pairUp, h.length]
    omega
  take := pairUp_take_eq f h.take (by rw [h.length]; omega) (by omega)
  last := by
    have hx' : ys[2 * (i / 2)]? = some x := by
      have heq : 2 * (i / 2) = i - 1 := by omega
      rw [heq, h.getElem? (by omega), hx]
    have hy' : ys[2 * (i / 2) + 1]? = some y := by
      have heq : 2 * (i / 2) + 1 = i := by omega
      rw [heq, h.last]
    exact getElem?_pairUp_pair f ys (i / 2) hx' hy'

theorem OldLevel.pairUp_even {f : β → β → β} {xs ys : List β} {i : Nat} {y : β}
    (h : OldLevel xs ys i y) (heven : i % 2 = 0) (hi : i < xs.length)
    : OldLevel (pairUp f xs) (pairUp f ys) (i / 2) y where
  length := by
    rw [length_pairUp, h.length]
    omega
  take := pairUp_take_eq f h.take (by rw [h.length]; omega) (by omega)
  last := by
    have heq : 2 * (i / 2) = i := by omega
    rw [getElem?_pairUp_last f ys (i / 2) (by rw [h.length]; omega), heq, h.last]

/--
The loop with the path of a node ends at the tops of the old and of the whole level. The induction
goes up level by level.
-/
theorem loop_auditPath (xs ys : List Bytes) (fr sr : Bytes) (fn sn : Nat)
    (hlen : xs.length = sn + 1) (hle : fn ≤ sn) (hsr : xs[fn]? = some sr)
    (hold : OldLevel xs ys fn fr)
    : ∃ fr' sr', verifyConsistency.loop H fr sr fn sn (auditPath (nodeHash H) fn xs)
          = some (fr', sr', 0) ∧
        top? (nodeHash H) ys = some fr' ∧ top? (nodeHash H) xs = some sr' := by
  induction hn : xs.length using Nat.strong_induction_on generalizing xs ys fr sr fn sn with
  | _ n ih =>
    match xs with
    | [] => simp at hlen
    | [x] =>
      have hzero : fn = 0 := by simp only [List.length_cons, List.length_nil] at hlen; omega
      have hsn : sn = 0 := by simp only [List.length_cons, List.length_nil] at hlen; omega
      subst hzero hsn
      match ys, hold.length with
      | [y], _ =>
        have hy : y = fr := by simpa using hold.last
        have hx : x = sr := by simpa using hsr
        refine ⟨fr, sr, ?_, by simp [hy], by simp [hx]⟩
        rw [auditPath_singleton]
        rfl
    | x :: y :: xs =>
      have hlen' := length_pairUp_shiftRight (nodeHash H) _ sn hlen
      have hshorter : (pairUp (nodeHash H) (x :: y :: xs)).length < n := by
        rw [← hn, length_pairUp]
        simp
        omega
      have hsn : sn ≠ 0 := by
        simp only [List.length_cons] at hlen
        omega
      simp only [Nat.shiftRight_one] at hlen'
      have hle' : fn / 2 ≤ sn / 2 := by omega
      have hpath := auditPath_eq (nodeHash H) (x :: y :: xs) fn (by omega)
      have htops : ∀ zs : List Bytes, top? (nodeHash H) (pairUp (nodeHash H) zs)
          = top? (nodeHash H) zs := fun zs => top?_pairUp _ zs
      by_cases hodd : fn % 2 = 1
      -- a right child: both trees have the sibling on its left
      . have hsibling : (x :: y :: xs)[fn - 1]? = some (x :: y :: xs)[fn - 1] :=
          List.getElem?_eq_getElem (by omega)
        have hskip : skipZeros fn sn = (fn, sn) := by
          rw [skipZeros, Nat.and_one_is_mod, if_neg (by omega)]
        have hnode : (pairUp (nodeHash H) (x :: y :: xs))[fn / 2]?
            = some (nodeHash H (x :: y :: xs)[fn - 1] sr) := by
          have hx' : 2 * (fn / 2) = fn - 1 := by omega
          have hy' : 2 * (fn / 2) + 1 = fn := by omega
          exact getElem?_pairUp_pair _ _ _ (by rw [hx', hsibling]) (by rw [hy', hsr])
        rcases ih _ hshorter _ _ _ _ (fn / 2) (sn / 2) hlen' hle' hnode
          (hold.pairUp_odd hodd (by omega) hsibling) rfl with ⟨fr', sr', hloop, hys, hxs⟩
        refine ⟨fr', sr', ?_, by rwa [htops] at hys, by rwa [htops] at hxs⟩
        rw [hpath, sibling, if_pos hodd, hsibling, Option.toList_some, List.singleton_append,
          verifyConsistency.loop, if_neg hsn, Nat.and_one_is_mod, if_pos (Or.inl hodd), hskip]
        exact hloop
      . by_cases hedge : fn = sn
        . -- promoted
          subst hedge
          have hnone : (x :: y :: xs)[fn + 1]? = none := by
            rw [List.getElem?_eq_none_iff]
            omega
          have hnode : (pairUp (nodeHash H) (x :: y :: xs))[fn / 2]? = some sr := by
            have heq : 2 * (fn / 2) = fn := by omega
            rw [getElem?_pairUp_last _ _ (fn / 2) (by omega), heq, hsr]
          rcases ih _ hshorter _ _ _ _ (fn / 2) (fn / 2) hlen' hle' hnode
            (hold.pairUp_even (by omega) (by omega)) rfl with ⟨fr', sr', hloop, hys, hxs⟩
          have hmore : auditPath (nodeHash H) (fn / 2) (pairUp (nodeHash H) (x :: y :: xs))
              ≠ [] := by
            intro hnil
            rw [hnil, verifyConsistency.loop, Option.some.injEq, Prod.mk.injEq,
              Prod.mk.injEq] at hloop
            omega
          refine ⟨fr', sr', ?_, by rwa [htops] at hys, by rwa [htops] at hxs⟩
          rw [hpath, sibling, if_neg hodd, hnone, Option.toList_none, List.nil_append,
            loop_promoted H _ _ _ _ (by omega) (by omega) hmore]
          exact hloop
        -- a left child: only the whole tree has the sibling on its right
        . have hsibling : (x :: y :: xs)[fn + 1]? = some (x :: y :: xs)[fn + 1] :=
            List.getElem?_eq_getElem (by omega)
          have hnode : (pairUp (nodeHash H) (x :: y :: xs))[fn / 2]?
              = some (nodeHash H sr (x :: y :: xs)[fn + 1]) := by
            have hx' : 2 * (fn / 2) = fn := by omega
            exact getElem?_pairUp_pair _ _ _ (by rw [hx', hsr]) (by rw [hx', hsibling])
          rcases ih _ hshorter _ _ _ _ (fn / 2) (sn / 2) hlen' hle' hnode
            (hold.pairUp_even (by omega) (by omega)) rfl with ⟨fr', sr', hloop, hys, hxs⟩
          refine ⟨fr', sr', ?_, by rwa [htops] at hys, by rwa [htops] at hxs⟩
          have hside : ¬(fn % 2 = 1 ∨ fn = sn) := by omega
          rw [hpath, sibling, if_neg hodd, hsibling, Option.toList_some, List.singleton_append,
            verifyConsistency.loop, if_neg hsn, Nat.and_one_is_mod, if_neg hside]
          exact hloop

theorem verifyInclusion.loop_of_consistency {fr sr fr' sr' : Bytes} {fn sn sn' : Nat}
    {path : List Bytes}
    (h : verifyConsistency.loop H fr sr fn sn path = some (fr', sr', sn'))
    : verifyInclusion.loop H sr fn sn path = (sr', sn') := by
  induction path generalizing fr sr fn sn with
  | nil =>
    simp only [verifyConsistency.loop, Option.some.injEq, Prod.mk.injEq] at h
    simp [verifyInclusion.loop, h]
  | cons c path ih =>
    rw [verifyConsistency.loop] at h
    split at h
    . simp at h
    . rw [verifyInclusion.loop]
      split at h
      . next hside =>
        rw [if_pos (Or.symm hside)]
        exact ih h
      . next hside =>
        rw [if_neg (mt Or.symm hside)]
        exact ih h

theorem verifyInclusionFromLeafHash.loop_of_consistency {fr sr fr' sr' : Bytes} {fn sn sn' : Nat}
    {path : List Bytes}
    (h : verifyConsistency.loop H fr sr fn sn path = some (fr', sr', sn'))
    : verifyInclusionFromLeafHash.loop H fn sn sr path = some (sr', sn') := by
  induction path generalizing fr sr fn sn with
  | nil =>
    simp only [verifyConsistency.loop, Option.some.injEq, Prod.mk.injEq] at h
    simp [verifyInclusionFromLeafHash.loop, h]
  | cons c path ih =>
    rw [verifyConsistency.loop] at h
    rw [verifyInclusionFromLeafHash.loop]
    split at h
    . simp at h
    . next hsn =>
      rw [if_neg hsn]
      split at h
      . next hside =>
        rw [if_pos hside]
        exact ih h
      . next hside =>
        rw [if_neg hside]
        exact ih h

/--
For every leaf there is an audit path, and both verifiers accept it.
-/
theorem inclusion_complete (leaves : List Bytes) (m : Nat) (hm : m < leaves.length)
    : ∃ proof, inclusionProof H m leaves = some proof ∧
        verifyInclusion H m leaves.length leaves[m] proof (mth H leaves) = true ∧
        verifyInclusionFromLeafHash H m leaves.length (leafHash H leaves[m]) proof
          (mth H leaves) = true := by
  have hne : leaves ≠ [] := List.length_pos_iff.mp (by omega)
  have hlen : (leafHashes H leaves).length = leaves.length - 1 + 1 := by
    rw [leafHashes, List.length_map]
    omega
  have hleaf : (leafHashes H leaves)[m]? = some (leafHash H leaves[m]) := by
    simp [leafHashes, hm]
  have hold : OldLevel (leafHashes H leaves) ((leafHashes H leaves).take (m + 1)) m
      (leafHash H leaves[m]) := by
    refine ⟨?_, ?_, ?_⟩
    . rw [List.length_take]
      omega
    . rw [List.take_take, Nat.min_eq_left (by omega)]
    . rw [List.getElem?_take_of_lt (by omega), hleaf]
  rcases loop_auditPath H _ _ _ _ m (leaves.length - 1) hlen (by omega) hleaf hold
    with ⟨fr, sr, hloop, _, htop⟩
  rw [mth_eq_top? H leaves hne] at htop
  refine ⟨_, inclusionProof_eq H m leaves hm, ?_, ?_⟩
  . rw [verifyInclusion, if_neg (by omega), verifyInclusion.loop_of_consistency H hloop]
    simp [Option.some.inj htop]
  . rw [verifyInclusionFromLeafHash, if_neg (by omega),
      verifyInclusionFromLeafHash.loop_of_consistency H hloop]
    simp [Option.some.inj htop]

theorem inclusion_complete_three_leaves
    : ∃ proof, inclusionProof sha256 2 [[0x61], [0x62], [0x63]] = some proof ∧
        verifyInclusion sha256 2 3 [0x63] proof (mth sha256 [[0x61], [0x62], [0x63]]) = true ∧
        verifyInclusionFromLeafHash sha256 2 3 (leafHash sha256 [0x63]) proof
          (mth sha256 [[0x61], [0x62], [0x63]]) = true :=
  inclusion_complete sha256 [[0x61], [0x62], [0x63]] 2 (by decide)

/-!
### Consistency
-/

/--
Where the verifier starts: it drops the levels on which the old tree is full.
-/
theorem prefixPath_skipOnes (f : β → β → β) (xs : List β) (fn sn : Nat)
    (hlen : xs.length = sn + 1) (hle : fn ≤ sn)
    : ∃ zs node, zs.length = (skipOnes fn sn).2 + 1 ∧ (skipOnes fn sn).1 ≤ (skipOnes fn sn).2 ∧
        zs[(skipOnes fn sn).1]? = some node ∧
        prefixPath f fn xs = node :: auditPath f (skipOnes fn sn).1 zs ∧
        top? f zs = top? f xs ∧
        top? f (zs.take ((skipOnes fn sn).1 + 1)) = top? f (xs.take (fn + 1)) := by
  fun_induction skipOnes fn sn generalizing xs with
  | case1 fn sn hodd ih =>
    rw [Nat.and_one_is_mod] at hodd
    simp only [Nat.shiftRight_one] at ih ⊢
    have hlen' : (pairUp f xs).length = sn / 2 + 1 := by
      rw [length_pairUp]
      omega
    rcases ih (pairUp f xs) hlen' (by omega) with ⟨zs, node, hzs, hle', hnode, hpath, htop, hold⟩
    have hhalf : fn / 2 + 1 = (fn + 1) / 2 := by omega
    refine ⟨zs, node, hzs, hle', hnode, ?_, ?_, ?_⟩
    . rw [prefixPath_odd f xs fn hodd, hpath]
    . rw [htop, top?_pairUp]
    . rw [hold, hhalf, ← pairUp_take f xs (fn + 1) (by omega) (by omega), top?_pairUp]
  | case2 fn sn heven =>
    rw [Nat.and_one_is_mod] at heven
    have hget : xs[fn]? = some xs[fn] := List.getElem?_eq_getElem (by omega)
    refine ⟨xs, xs[fn], hlen, hle, hget, ?_, rfl, rfl⟩
    rw [prefixPath_even f xs fn (by omega), hget]
    rfl

/--
What the verifier makes of the proof: the old root in front, if the proof leaves it out.
-/
theorem consistency_path (leaves : List Bytes) (m : Nat) (hpos : 0 < m) (hlt : m < leaves.length)
    : ∃ proof, subproof H m leaves true = some proof ∧
        (if m &&& (m - 1) = 0 then mth H (leaves.take m) :: proof else proof)
          = prefixPath (nodeHash H) (m - 1) (leafHashes H leaves) := by
  refine ⟨_, subproof_eq H m leaves true hpos (Or.inl hlt), ?_⟩
  have hbits := Nat.and_sub_one_eq_zero_iff_isPowerOfTwo (n := m) (by omega)
  by_cases hpow : m.isPowerOfTwo
  . rcases hpow with ⟨j, rfl⟩
    have hne : leaves.take (2 ^ j) ≠ [] := by
      rw [← List.length_pos_iff, List.length_take]
      omega
    rcases prefixPath_full (nodeHash H) (leafHashes H leaves) j (by simp [leafHashes]; omega)
      with ⟨top, rest, htop, hpath, _⟩
    rw [leafHashes, ← List.map_take, ← leafHashes, mth_eq_top? H _ hne] at htop
    have hpow : (2 ^ j).isPowerOfTwo := ⟨j, rfl⟩
    rw [if_pos (hbits.mpr hpow), if_pos ⟨rfl, hpow⟩, hpath, Option.some.inj htop]
    rfl
  . rw [if_neg (mt hbits.mp hpow), if_neg (fun h => hpow h.2)]

/--
A proof for at most `2 ^ k` leaves has at most `k + 1` hashes.
-/
theorem subproof_bounds {m k : Nat} {leaves : List Bytes} {b : Bool} {proof : List Bytes}
    (h : subproof H m leaves b = some proof) (hle : leaves.length ≤ 2 ^ k)
    : proof.length ≤ k + 1 ∧ ∀ hash ∈ proof, hash.length = 32 := by
  fun_induction subproof H m leaves b generalizing k proof with
  | case1 leaves b =>
    rw [Option.some.injEq] at h
    subst h
    split
    . simp
    . simpa using length_mth leaves
  | case2 => simp at h
  | case3 => simp at h
  | case4 m b x y xs hne hm ih =>
    rcases Option.map_eq_some_iff.mp h with ⟨sub, hsub, rfl⟩
    rcases largestPow2Below_spec (x :: y :: xs).length (by simp) with ⟨j, hj, hlt, _⟩
    have hjk : j < k := (Nat.pow_lt_pow_iff_right (by decide)).mp (hlt.trans_le hle)
    have hleft : (leftPart (x :: y :: xs)).length ≤ 2 ^ j := by
      rw [leftPart, List.length_take, hj]
      exact Nat.min_le_left _ _
    rcases ih hsub hleft with ⟨hlen, hhash⟩
    rw [List.length_append, List.length_singleton]
    refine ⟨by omega, ?_⟩
    rw [List.forall_mem_append, List.forall_mem_singleton]
    exact ⟨hhash, length_mth _⟩
  | case5 m b x y xs hne hm ih =>
    rcases Option.map_eq_some_iff.mp h with ⟨sub, hsub, rfl⟩
    rcases largestPow2Below_spec (x :: y :: xs).length (by simp) with ⟨j, hj, hlt, hge⟩
    have hjk : j < k := (Nat.pow_lt_pow_iff_right (by decide)).mp (hlt.trans_le hle)
    have hright : (rightPart (x :: y :: xs)).length ≤ 2 ^ j := by
      rw [rightPart, List.length_drop, hj]
      rw [Nat.pow_succ] at hge
      omega
    rcases ih hsub hright with ⟨hlen, hhash⟩
    rw [List.length_append, List.length_singleton]
    refine ⟨by omega, ?_⟩
    rw [List.forall_mem_append, List.forall_mem_singleton]
    exact ⟨hhash, length_mth _⟩

theorem consistencyProof_bounds {m k : Nat} {leaves proof : List Bytes}
    (h : consistencyProof H m leaves = some proof) (hle : leaves.length ≤ 2 ^ k)
    : proof.length ≤ k + 1 ∧ ∀ hash ∈ proof, hash.length = 32 := by
  unfold consistencyProof at h
  split at h
  . split at h
    . rw [← Option.some.inj h]
      simp
    . exact subproof_bounds H h hle
  . simp at h

/--
The proof of a shorter prefix is accepted, and both roots are rebuilt from it.
-/
theorem exists_consistencyProof (leaves : List Bytes) (m : Nat) (hpos : 0 < m)
    (hlt : m < leaves.length)
    : ∃ proof, consistencyProof H m leaves = some proof ∧
        verifyConsistency H m leaves.length proof (mth H (leaves.take m)) (mth H leaves) = true ∧
        consistencyRoots H m leaves.length proof (mth H (leaves.take m))
          = some (mth H (leaves.take m), mth H leaves) := by
  have hsizes : ¬(m = 0 ∨ m > leaves.length) := by omega
  have hne : leaves ≠ [] := List.length_pos_iff.mp (by omega)
  have htake : leaves.take m ≠ [] := by
    rw [← List.length_pos_iff, List.length_take]
    omega
  have hlen : (leafHashes H leaves).length = leaves.length - 1 + 1 := by
    rw [leafHashes, List.length_map]
    omega
  rcases consistency_path H leaves m hpos hlt with ⟨proof, hproof, hpath⟩
  rcases prefixPath_skipOnes (nodeHash H) _ (m - 1) _ hlen (by omega)
    with ⟨zs, node, hzs, hle, hnode, hstart, htop, hold⟩
  have hlevel : OldLevel zs (zs.take ((skipOnes (m - 1) (leaves.length - 1)).1 + 1))
      (skipOnes (m - 1) (leaves.length - 1)).1 node := by
    refine ⟨?_, ?_, ?_⟩
    . rw [List.length_take]
      omega
    . rw [List.take_take, Nat.min_eq_left (by omega)]
    . rw [List.getElem?_take_of_lt (by omega), hnode]
  rcases loop_auditPath H zs _ node node _ _ hzs hle hnode hlevel with ⟨fr, sr, hloop, hfr, hsr⟩
  rw [htop, mth_eq_top? H leaves hne] at hsr
  rw [hold, Nat.sub_add_cancel hpos, leafHashes, ← List.map_take, ← leafHashes,
    mth_eq_top? H _ htake] at hfr
  rw [hstart] at hpath
  refine ⟨proof, ?_, ?_, ?_⟩
  . rw [consistencyProof, if_pos ⟨hpos, by omega⟩, if_neg (by omega), hproof]
  . rw [verifyConsistency, if_neg hsizes, if_neg (by omega), hpath]
    simp [hloop, Option.some.inj hfr, Option.some.inj hsr]
  . rw [consistencyRoots, if_neg (by omega), if_neg hsizes, hpath]
    simp [hloop, Option.some.inj hfr, Option.some.inj hsr]

/--
For every prefix there is a consistency proof; the verifier accepts it and the receipt rebuilds both
roots from it.
-/
theorem consistency_complete (leaves : List Bytes) (m : Nat) (hpos : 0 < m)
    (hle : m ≤ leaves.length)
    : ∃ proof, consistencyProof H m leaves = some proof ∧
        verifyConsistency H m leaves.length proof (mth H (leaves.take m)) (mth H leaves) = true ∧
        consistencyRoots H m leaves.length proof (mth H (leaves.take m))
          = some (mth H (leaves.take m), mth H leaves) := by
  rcases Nat.lt_or_eq_of_le hle with hlt | rfl
  . exact exists_consistencyProof H leaves m hpos hlt
  . refine ⟨[], ?_, ?_, ?_⟩
    . rw [consistencyProof, if_pos ⟨hpos, Nat.le_refl _⟩, if_pos rfl]
    . rw [verifyConsistency, if_neg (by omega), if_pos rfl, List.take_length]
      simp
    . rw [consistencyRoots, if_pos rfl, if_pos rfl, List.take_length]

theorem consistency_complete_two_three
    : ∃ proof, consistencyProof sha256 2 [[0x61], [0x62], [0x63]] = some proof ∧
        verifyConsistency sha256 2 3 proof (mth sha256 [[0x61], [0x62]])
          (mth sha256 [[0x61], [0x62], [0x63]]) = true ∧
        consistencyRoots sha256 2 3 proof (mth sha256 [[0x61], [0x62]])
          = some (mth sha256 [[0x61], [0x62]], mth sha256 [[0x61], [0x62], [0x63]]) :=
  consistency_complete sha256 [[0x61], [0x62], [0x63]] 2 (by decide) (by decide)

end Merkle
end CryptoValid
