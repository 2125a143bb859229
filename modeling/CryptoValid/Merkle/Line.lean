import CryptoValid.Merkle.Consistency

/-!
This module contains append-only lines: roots of which only the last one has to be that of known
leaves. Every root before it then is the root of some of the first of these leaves.
-/

namespace CryptoValid
namespace Merkle

/--
`root` is the root of a tree over the leaves, and what is hashed for it is in `msgs`. The shape of the
tree does not matter.
-/
inductive RootOf (H : HashFn 32) (msgs : List Bytes) : Bytes → List Bytes → Prop
  | empty : RootOf H msgs (H []) []
  | tree (t : HashTree Bytes) (h : (scheme H).msgs t ⊆ msgs)
    : RootOf H msgs ((scheme H).digest t) t.leaves

/--
Whatever the new root is the root of, the old root is the root of a prefix of it.
-/
def Line (H : HashFn 32) (msgs : List Bytes) (old new : Bytes) : Prop :=
  Collides H msgs ∨
    ∀ leaves, RootOf H msgs new leaves → ∃ before, RootOf H msgs old before ∧ before <+: leaves

section

variable {H : HashFn 32} {msgs : List Bytes}

theorem Line.refl (root : Bytes) : Line H msgs root root :=
  Or.inr fun leaves h => ⟨leaves, h, List.prefix_rfl⟩

theorem Line.trans {a b c : Bytes} (h : Line H msgs a b) (h' : Line H msgs b c)
    : Line H msgs a c := by
  rcases h with h | h
  . exact Or.inl h
  . rcases h' with h' | h'
    . exact Or.inl h'
    . refine Or.inr ?_
      intro leaves hleaves
      rcases h' leaves hleaves with ⟨mid, hmid, hprefix⟩
      rcases h mid hmid with ⟨before, hbefore, hprefix'⟩
      exact ⟨before, hbefore, hprefix'.trans hprefix⟩

theorem Line.of_empty (new : Bytes) : Line H msgs (H []) new :=
  Or.inr fun _ _ => ⟨[], .empty, List.nil_prefix⟩

theorem rootOf_mth (leaves : List Bytes) (h : mthQueries H leaves ⊆ msgs)
    : RootOf H msgs (mth H leaves) leaves := by
  by_cases hne : leaves = []
  . subst hne
    rw [mth]
    exact .empty
  . rcases tree?_isSome leaves hne with ⟨t, ht⟩
    rw [mthQueries_eq_msgs H leaves ht] at h
    have hroot := RootOf.tree t h
    rw [leaves_of_tree? ht, ← mth_eq_digest H leaves ht] at hroot
    exact hroot

theorem length_mth (leaves : List Bytes) : (mth H leaves).length = 32 := by
  unfold mth
  split <;> exact H.length_digest _

theorem rootMsg_ne_nil (t : HashTree Bytes) : (scheme H).rootMsg t ≠ [] := by
  cases t <;> exact List.cons_ne_nil _ _

theorem RootOf.unique (hempty : [] ∈ msgs) {root : Bytes} {xs ys : List Bytes}
    (hx : RootOf H msgs root xs) (hy : RootOf H msgs root ys) : xs = ys ∨ Collides H msgs := by
  have hmixed : ∀ t : HashTree Bytes, (scheme H).msgs t ⊆ msgs → (scheme H).digest t = H [] →
      Collides H msgs := by
    intro t ht hdigest
    rw [HashTree.Scheme.digest_eq_hash_rootMsg] at hdigest
    exact Collides.of_mem (ht ((scheme H).rootMsg_mem_msgs t)) hempty (rootMsg_ne_nil t) hdigest
  generalize hroot : root = root' at hy
  cases hx with
  | empty =>
    cases hy with
    | empty => exact Or.inl rfl
    | tree u hu => exact Or.inr (hmixed u hu hroot.symm)
  | tree t ht =>
    cases hy with
    | empty => exact Or.inr (hmixed t ht hroot)
    | tree u hu =>
      rcases HashTree.Scheme.digest_inj (scheme H) t u hroot with rfl | hcol
      . exact Or.inl rfl
      . exact Or.inr (hcol.mono (List.append_subset.mpr ⟨ht, hu⟩))

/--
A climb ends in the hash of one of its messages, if it is a climb at all.
-/
theorem twinClimb_end (old new : Bytes) (steps : List (HashTree.TwinStep Unit Bytes))
    : (scheme H).twinClimb old new steps = (old, new) ∨
        ∃ msg ∈ (scheme H).twinMsgs old new steps, msg ≠ [] ∧
          ((scheme H).twinClimb old new steps).2 = H msg := by
  induction steps generalizing old new with
  | nil => exact Or.inl rfl
  | cons s steps ih =>
    refine Or.inr ?_
    have hmem : (scheme H).twinNewMsg new s ∈ (scheme H).twinMsgs old new (s :: steps) := by
      unfold HashTree.Scheme.twinMsgs
      dsimp only
      split <;> simp
    have hne : (scheme H).twinNewMsg new s ≠ [] := by
      unfold HashTree.Scheme.twinNewMsg
      split <;> exact List.cons_ne_nil _ _
    have hsub : ∀ msg ∈ (scheme H).twinMsgs (if s.shared then (scheme H).hash
        ((scheme H).twinOldMsg old s) else old) ((scheme H).hash ((scheme H).twinNewMsg new s)) steps,
        msg ∈ (scheme H).twinMsgs old new (s :: steps) := by
      intro msg hmsg
      unfold HashTree.Scheme.twinMsgs
      dsimp only
      split <;> simp_all
    unfold HashTree.Scheme.twinClimb
    rcases ih (if s.shared then (scheme H).hash ((scheme H).twinOldMsg old s) else old)
      ((scheme H).hash ((scheme H).twinNewMsg new s)) with hend | ⟨msg, hmsg, hmsgne, hend⟩
    . exact ⟨_, hmem, hne, by rw [hend]; rfl⟩
    . exact ⟨msg, hsub msg hmsg, hmsgne, hend⟩

/--
An accepted consistency proof puts the two roots on one line.
-/
theorem line_of_verifyConsistency {m n : Nat} {proof : List Bytes} {oldRoot newRoot : Bytes}
    (hlen : oldRoot.length = 32) (hproof : ∀ hash ∈ proof, hash.length = 32) (hempty : [] ∈ msgs)
    (hmsgs : verifyConsistencyQueries H m n proof oldRoot ⊆ msgs) (hne : m ≠ n)
    (h : verifyConsistency H m n proof oldRoot newRoot = true) : Line H msgs oldRoot newRoot := by
  rcases twinClimb_of_verifyConsistency H m n proof oldRoot newRoot hne h with
    ⟨start, steps, hstart, hclimb, hqueries⟩
  rw [← hqueries] at hmsgs
  have hv : (scheme H).valid start := by
    rcases hstart with rfl | hmem
    . exact hlen
    . exact hproof start hmem
  rcases twinClimb_end start start steps with hend | ⟨msg, hmsg, hmsgne, hend⟩
  . rw [hclimb, Prod.mk.injEq] at hend
    rw [hend.1, hend.2]
    exact Line.refl start
  . by_cases hcol : Collides H msgs
    . exact Or.inl hcol
    . refine Or.inr ?_
      intro leaves hleaves
      generalize hnew : newRoot = root at hleaves
      cases hleaves with
      | empty =>
        rw [hclimb, hnew] at hend
        exact absurd (Collides.of_mem (hmsgs hmsg) hempty hmsgne hend.symm) hcol
      | tree t ht =>
        rw [hnew] at hclimb
        rcases HashTree.Scheme.twinClimb_lift (fun _ _ _ _ => rfl) t steps start start oldRoot hv hclimb
          msgs hmsgs ht with ⟨⟨lift⟩⟩ | hcol'
        . rcases lift.complete lift.unew lift.digest_new lift.msgs_new with
            ⟨told, hdigest, htold, hsub⟩
          rw [← hdigest, lift.leaves_new, ← List.append_assoc, ← htold]
          exact ⟨_, .tree told hsub, List.prefix_append _ _⟩
        . exact absurd hcol' hcol

/--
The leaves of the two ends of a line.
-/
theorem Line.isPrefix {old new : List Bytes} (h : Line H msgs (mth H old) (mth H new))
    (hempty : [] ∈ msgs) (hold : mthQueries H old ⊆ msgs) (hnew : mthQueries H new ⊆ msgs)
    : old <+: new ∨ Collides H msgs := by
  rcases h with hcol | h
  . exact Or.inr hcol
  . rcases h new (rootOf_mth new hnew) with ⟨before, hbefore, hprefix⟩
    rcases RootOf.unique hempty (rootOf_mth old hold) hbefore with rfl | hcol
    . exact Or.inl hprefix
    . exact Or.inr hcol

end

end Merkle
end CryptoValid
