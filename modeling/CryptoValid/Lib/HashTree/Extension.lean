import CryptoValid.Lib.HashTree.Basic

/-!
This module contains twin climbs: one list of siblings rebuilds the roots of an old and of a new
tree at the same time, where the siblings on the right hand side only exist in the new one. If both
roots are digests of trees, the leaves of the old tree are a prefix of the leaves of the new one. If
only the new root is known to be one, an old tree can be built from the new one.
-/

namespace HashTree

/--
One step of a twin climb. A `shared` sibling is the left one in both trees, the others are the right
one in the new tree.
-/
structure TwinStep (ν δ : Type) where
  shared : Bool
  oldNote : ν
  newNote : ν
  sibling : δ

namespace Scheme

variable (S : Scheme α ν μ δ)

def twinOldMsg (old : δ) (s : TwinStep ν δ) : μ := S.nodeMsg s.oldNote s.sibling old

def twinNewMsg (new : δ) (s : TwinStep ν δ) : μ :=
  if s.shared then S.nodeMsg s.newNote s.sibling new else S.nodeMsg s.newNote new s.sibling

def twinClimb (old new : δ) : List (TwinStep ν δ) → δ × δ
  | [] => (old, new)
  | s :: steps =>
    let old' := if s.shared then S.hash (S.twinOldMsg old s) else old
    twinClimb old' (S.hash (S.twinNewMsg new s)) steps

/--
Every message that is hashed during a twin climb.
-/
def twinMsgs (old new : δ) : List (TwinStep ν δ) → List μ
  | [] => []
  | s :: steps =>
    let old' := if s.shared then S.hash (S.twinOldMsg old s) else old
    let msgs := twinMsgs old' (S.hash (S.twinNewMsg new s)) steps
    if s.shared then S.twinOldMsg old s :: S.twinNewMsg new s :: msgs
    else S.twinNewMsg new s :: msgs

variable {S}

theorem twinClimb_shared (old new : δ) (s : TwinStep ν δ) (steps : List (TwinStep ν δ))
    (hs : s.shared = true)
    : S.twinClimb old new (s :: steps)
        =
      S.twinClimb (S.hash (S.nodeMsg s.oldNote s.sibling old))
        (S.hash (S.nodeMsg s.newNote s.sibling new)) steps := by
  simp [twinClimb, twinOldMsg, twinNewMsg, hs]

theorem twinClimb_new (old new : δ) (s : TwinStep ν δ) (steps : List (TwinStep ν δ))
    (hs : s.shared = false)
    : S.twinClimb old new (s :: steps)
        =
      S.twinClimb old (S.hash (S.nodeMsg s.newNote new s.sibling)) steps := by
  simp [twinClimb, twinNewMsg, hs]

theorem twinMsgs_shared (old new : δ) (s : TwinStep ν δ) (steps : List (TwinStep ν δ))
    (hs : s.shared = true)
    : S.twinMsgs old new (s :: steps)
        =
      S.nodeMsg s.oldNote s.sibling old :: S.nodeMsg s.newNote s.sibling new ::
        S.twinMsgs (S.hash (S.nodeMsg s.oldNote s.sibling old))
          (S.hash (S.nodeMsg s.newNote s.sibling new)) steps := by
  simp [twinMsgs, twinOldMsg, twinNewMsg, hs]

theorem twinMsgs_new (old new : δ) (s : TwinStep ν δ) (steps : List (TwinStep ν δ))
    (hs : s.shared = false)
    : S.twinMsgs old new (s :: steps)
        =
      S.nodeMsg s.newNote new s.sibling ::
        S.twinMsgs old (S.hash (S.nodeMsg s.newNote new s.sibling)) steps := by
  simp [twinMsgs, twinNewMsg, hs]

/--
A tree whose digest is the hash of a node message is a node, up to a collision.
-/
theorem node_of_digest {msgs : List μ} {t : HashTree α} {x : ν} {a b : δ}
    (ht : S.msgs t ⊆ msgs) (hmem : S.nodeMsg x a b ∈ msgs)
    (hdig : S.digest t = S.hash (S.nodeMsg x a b))
    : (∃ l r, t = .node l r ∧
        S.nodeMsg (S.note l r) (S.digest l) (S.digest r) = S.nodeMsg x a b) ∨
      Collides S.hash msgs := by
  rw [digest_eq_hash_rootMsg] at hdig
  rcases Collides.eq_or (ht (S.rootMsg_mem_msgs t)) hmem hdig with hmsg | hcol
  . cases t with
    | leaf a => exact absurd hmsg (S.leafMsg_ne_nodeMsg _ _ _ _)
    | node l r => exact Or.inl ⟨l, r, rfl, hmsg⟩
  . exact Or.inr hcol

/--
The state of a twin climb whose end is known: `old` and `new` are the digests of the right ends of
two trees with the same leaves before them.
-/
structure Rest (S : Scheme α ν μ δ) (told tnew : HashTree α) (old new : δ) where
  uold : HashTree α
  unew : HashTree α
  before : List α
  after : List α
  digest_old : S.digest uold = old
  digest_new : S.digest unew = new
  leaves_old : told.leaves = before ++ uold.leaves
  leaves_new : tnew.leaves = before ++ (unew.leaves ++ after)
  msgs_old : S.msgs uold ⊆ S.msgs told
  msgs_new : S.msgs unew ⊆ S.msgs tnew

/--
Once the new digest is a valid one, a twin climb that ends in the digests of two trees can be taken
back step by step: each shared sibling is the digest of one and the same subtree of both.
-/
theorem twinClimb_sound (told tnew : HashTree α) (steps : List (TwinStep ν δ)) (old new : δ)
    (hv : S.valid new) (hclimb : S.twinClimb old new steps = (S.digest told, S.digest tnew))
    (msgs : List μ) (hsteps : S.twinMsgs old new steps ⊆ msgs) (hold : S.msgs told ⊆ msgs)
    (hnew : S.msgs tnew ⊆ msgs)
    : Nonempty (Rest S told tnew old new) ∨ Collides S.hash msgs := by
  induction steps generalizing old new with
  | nil =>
    simp only [twinClimb, Prod.mk.injEq] at hclimb
    exact Or.inl ⟨told, tnew, [], [], hclimb.1.symm, hclimb.2.symm, rfl, by simp,
      List.Subset.refl _, List.Subset.refl _⟩
  | cons s steps ih =>
    cases hs : s.shared with
    | true =>
      rw [twinClimb_shared _ _ _ _ hs] at hclimb
      rw [twinMsgs_shared _ _ _ _ hs] at hsteps
      simp only [List.cons_subset] at hsteps
      rcases ih _ _ (S.valid_hash _) hclimb hsteps.2.2 with ⟨⟨r⟩⟩ | hcol
      . rcases node_of_digest (List.Subset.trans r.msgs_new hnew) hsteps.2.1 r.digest_new
          with ⟨ln, rn, hun, hmsgn⟩ | hcol
        . rcases node_of_digest (List.Subset.trans r.msgs_old hold) hsteps.1 r.digest_old
            with ⟨lo, ro, huo, hmsgo⟩ | hcol
          . -- the new message is cut first, that makes the sibling a valid digest for the old one
            have hcutn := S.nodeMsg_inj (Or.inr hv) (S.valid_digest ln) (S.valid_digest rn)
              hmsgn.symm
            have hcuto := S.nodeMsg_inj (Or.inl (hcutn.1 ▸ S.valid_digest ln)) (S.valid_digest lo)
              (S.valid_digest ro) hmsgo.symm
            have hmo := r.msgs_old
            have hmn := r.msgs_new
            have hlo := r.leaves_old
            have hln := r.leaves_new
            rw [huo] at hmo hlo
            rw [hun] at hmn hln
            simp only [Scheme.msgs, List.cons_subset, List.append_subset] at hmo hmn
            simp only [leaves] at hlo hln
            rcases S.digest_inj lo ln (hcuto.1.symm.trans hcutn.1) with hsib | hcol
            . subst hsib
              exact Or.inl ⟨ro, rn, r.before ++ lo.leaves, r.after, hcuto.2.symm, hcutn.2.symm,
                by rw [hlo, List.append_assoc], by rw [hln]; simp only [List.append_assoc],
                hmo.2.2, hmn.2.2⟩
            . refine Or.inr (hcol.mono ?_)
              rw [List.append_subset]
              exact ⟨List.Subset.trans hmo.2.1 hold, List.Subset.trans hmn.2.1 hnew⟩
          . exact Or.inr hcol
        . exact Or.inr hcol
      . exact Or.inr hcol
    | false =>
      rw [twinClimb_new _ _ _ _ hs] at hclimb
      rw [twinMsgs_new _ _ _ _ hs] at hsteps
      simp only [List.cons_subset] at hsteps
      rcases ih _ _ (S.valid_hash _) hclimb hsteps.2 with ⟨⟨r⟩⟩ | hcol
      . rcases node_of_digest (List.Subset.trans r.msgs_new hnew) hsteps.1 r.digest_new
          with ⟨ln, rn, hun, hmsgn⟩ | hcol
        . have hcutn := S.nodeMsg_inj (Or.inl hv) (S.valid_digest ln) (S.valid_digest rn)
            hmsgn.symm
          have hmn := r.msgs_new
          have hln := r.leaves_new
          rw [hun] at hmn hln
          simp only [Scheme.msgs, List.cons_subset, List.append_subset] at hmn
          simp only [leaves] at hln
          exact Or.inl ⟨r.uold, ln, r.before, rn.leaves ++ r.after, r.digest_old, hcutn.1.symm,
            r.leaves_old, by rw [hln]; simp only [List.append_assoc], r.msgs_old, hmn.2.1⟩
        . exact Or.inr hcol
      . exact Or.inr hcol

/--
A twin climb that starts with one digest for both sides and ends in the digests of two trees shows
that the old leaves are a prefix of the new ones, up to a collision. Nothing is assumed about the
start or the siblings.
-/
theorem twinClimb_prefix (told tnew : HashTree α) (steps : List (TwinStep ν δ)) (start : δ)
    (hclimb : S.twinClimb start start steps = (S.digest told, S.digest tnew))
    (hnote : ∀ s ∈ steps, s.oldNote = s.newNote)
    (msgs : List μ) (hsteps : S.twinMsgs start start steps ⊆ msgs) (hold : S.msgs told ⊆ msgs)
    (hnew : S.msgs tnew ⊆ msgs)
    : told.leaves <+: tnew.leaves ∨ Collides S.hash msgs := by
  induction steps generalizing start with
  | nil =>
    simp only [twinClimb, Prod.mk.injEq] at hclimb
    rcases S.digest_inj told tnew (hclimb.1.symm.trans hclimb.2) with heq | hcol
    . exact Or.inl (heq ▸ List.prefix_rfl)
    . exact Or.inr (hcol.mono (List.append_subset.mpr ⟨hold, hnew⟩))
  | cons s steps ih =>
    have hnote' : ∀ u ∈ steps, u.oldNote = u.newNote := by
      intro u hu
      exact hnote u (List.mem_cons_of_mem _ hu)
    cases hs : s.shared with
    | true =>
      -- both sides still agree after a shared step
      have hsame := hnote s List.mem_cons_self
      rw [twinClimb_shared _ _ _ _ hs, hsame] at hclimb
      rw [twinMsgs_shared _ _ _ _ hs, hsame] at hsteps
      simp only [List.cons_subset] at hsteps
      exact ih _ hclimb hnote' hsteps.2.2
    | false =>
      rw [twinClimb_new _ _ _ _ hs] at hclimb
      rw [twinMsgs_new _ _ _ _ hs] at hsteps
      simp only [List.cons_subset] at hsteps
      rcases twinClimb_sound told tnew steps _ _ (S.valid_hash _) hclimb msgs hsteps.2 hold hnew
        with ⟨⟨r⟩⟩ | hcol
      . rcases node_of_digest (List.Subset.trans r.msgs_new hnew) hsteps.1 r.digest_new
          with ⟨ln, rn, hun, hmsgn⟩ | hcol
        . -- the old side still is the start, so it is the digest of a tree and hence a valid one
          have hv : S.valid start := r.digest_old ▸ S.valid_digest r.uold
          have hcutn := S.nodeMsg_inj (Or.inl hv) (S.valid_digest ln) (S.valid_digest rn)
            hmsgn.symm
          have hmn := r.msgs_new
          have hln := r.leaves_new
          rw [hun] at hmn hln
          simp only [Scheme.msgs, List.cons_subset, List.append_subset] at hmn
          simp only [leaves] at hln
          rcases S.digest_inj r.uold ln (r.digest_old.trans hcutn.1) with heq | hcol
          . refine Or.inl ⟨rn.leaves ++ r.after, ?_⟩
            rw [r.leaves_old, hln, heq]
            simp only [List.append_assoc]
          . refine Or.inr (hcol.mono ?_)
            rw [List.append_subset]
            exact ⟨List.Subset.trans r.msgs_old hold, List.Subset.trans hmn.2.1 hnew⟩
        . exact Or.inr hcol
      . exact Or.inr hcol

/--
What a twin climb into a known new tree leaves of it: its start on the new side is the digest of a
subtree, and every tree that has the old start as its digest can be completed to an old tree.
-/
structure Lift (S : Scheme α ν μ δ) (tnew : HashTree α) (old new oldRoot : δ) (msgs : List μ) where
  unew : HashTree α
  before : List α
  after : List α
  digest_new : S.digest unew = new
  leaves_new : tnew.leaves = before ++ (unew.leaves ++ after)
  msgs_new : S.msgs unew ⊆ msgs
  complete : ∀ (uold : HashTree α), S.digest uold = old → S.msgs uold ⊆ msgs →
    ∃ told, S.digest told = oldRoot ∧ told.leaves = before ++ uold.leaves ∧ S.msgs told ⊆ msgs

theorem twinClimb_lift (hnote : ∀ (x y : ν) (a b : δ), S.nodeMsg x a b = S.nodeMsg y a b)
    (tnew : HashTree α) (steps : List (TwinStep ν δ)) (old new oldRoot : δ)
    (hv : S.valid new) (hclimb : S.twinClimb old new steps = (oldRoot, S.digest tnew))
    (msgs : List μ) (hsteps : S.twinMsgs old new steps ⊆ msgs) (hnew : S.msgs tnew ⊆ msgs)
    : Nonempty (Lift S tnew old new oldRoot msgs) ∨ Collides S.hash msgs := by
  induction steps generalizing old new with
  | nil =>
    simp only [twinClimb, Prod.mk.injEq] at hclimb
    refine Or.inl ⟨tnew, [], [], hclimb.2.symm, by simp, hnew, ?_⟩
    intro uold hdig hsub
    exact ⟨uold, hdig.trans hclimb.1, rfl, hsub⟩
  | cons s steps ih =>
    cases hs : s.shared with
    | true =>
      rw [twinClimb_shared _ _ _ _ hs] at hclimb
      rw [twinMsgs_shared _ _ _ _ hs] at hsteps
      simp only [List.cons_subset] at hsteps
      rcases ih _ _ (S.valid_hash _) hclimb hsteps.2.2 with ⟨⟨r⟩⟩ | hcol
      . rcases node_of_digest r.msgs_new hsteps.2.1 r.digest_new with ⟨ln, rn, hun, hmsgn⟩ | hcol
        . have hcutn := S.nodeMsg_inj (Or.inr hv) (S.valid_digest ln) (S.valid_digest rn)
            hmsgn.symm
          have hmn := r.msgs_new
          have hln := r.leaves_new
          rw [hun] at hmn hln
          simp only [Scheme.msgs, List.cons_subset, List.append_subset] at hmn
          simp only [leaves] at hln
          refine Or.inl ⟨rn, r.before ++ ln.leaves, r.after, hcutn.2.symm, ?_, hmn.2.2, ?_⟩
          . rw [hln]
            simp only [List.append_assoc]
          . intro uold hdig hsub
            -- the old subtree gets the left sibling of the new one
            have hmsg : S.nodeMsg (S.note ln uold) (S.digest ln) (S.digest uold)
                = S.nodeMsg s.oldNote s.sibling old := by
              rw [← hcutn.1, hdig]
              apply hnote
            have hnode : S.digest (.node ln uold) = S.hash (S.nodeMsg s.oldNote s.sibling old) := by
              rw [← hmsg]
              rfl
            have hsub' : S.msgs (.node ln uold) ⊆ msgs := by
              simp only [Scheme.msgs, List.cons_subset, List.append_subset, hmsg]
              exact ⟨hsteps.1, hmn.2.1, hsub⟩
            rcases r.complete (.node ln uold) hnode hsub' with ⟨told, hroot, hleaves, hmsgs⟩
            exact ⟨told, hroot, by rw [hleaves]; simp [leaves], hmsgs⟩
        . exact Or.inr hcol
      . exact Or.inr hcol
    | false =>
      rw [twinClimb_new _ _ _ _ hs] at hclimb
      rw [twinMsgs_new _ _ _ _ hs] at hsteps
      simp only [List.cons_subset] at hsteps
      rcases ih _ _ (S.valid_hash _) hclimb hsteps.2 with ⟨⟨r⟩⟩ | hcol
      . rcases node_of_digest r.msgs_new hsteps.1 r.digest_new with ⟨ln, rn, hun, hmsgn⟩ | hcol
        . have hcutn := S.nodeMsg_inj (Or.inl hv) (S.valid_digest ln) (S.valid_digest rn)
            hmsgn.symm
          have hmn := r.msgs_new
          have hln := r.leaves_new
          rw [hun] at hmn hln
          simp only [Scheme.msgs, List.cons_subset, List.append_subset] at hmn
          simp only [leaves] at hln
          refine Or.inl ⟨ln, r.before, rn.leaves ++ r.after, hcutn.1.symm, ?_, hmn.2.1,
            r.complete⟩
          rw [hln]
          simp only [List.append_assoc]
        . exact Or.inr hcol
      . exact Or.inr hcol

end Scheme
end HashTree
