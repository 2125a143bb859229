import CryptoValid.Lib.Collision
import Mathlib.Data.List.Infix

/-!
This module contains binary hash trees: the digest of a tree, the climb from a digest to a root
along siblings that somebody else provides, and what an accepted climb says about the tree. A node
may hash an annotation (such as a sum over its leaves) besides the two child digests.
-/

/--
A binary tree with data at its leaves.
-/
inductive HashTree (α : Type) where
  | leaf (a : α)
  | node (l r : HashTree α)
  deriving DecidableEq

/--
Which child of its parent a node is.
-/
inductive Side where
  | left
  | right
  deriving DecidableEq, Repr

namespace HashTree

def leaves : HashTree α → List α
  | .leaf a => [a]
  | .node l r => l.leaves ++ r.leaves

def child : HashTree α → Side → Option (HashTree α)
  | .leaf _, _ => none
  | .node l _, .left => some l
  | .node _ r, .right => some r

/--
The subtree that is reached by following `path` from the root.
-/
def at? (t : HashTree α) : List Side → Option (HashTree α)
  | [] => some t
  | s :: path => (t.child s).bind (·.at? path)

@[simp]
theorem at?_nil (t : HashTree α) : t.at? [] = some t := rfl

theorem at?_append (t : HashTree α) (p q : List Side)
    : t.at? (p ++ q) = (t.at? p).bind (·.at? q) := by
  induction p generalizing t with
  | nil => rfl
  | cons s p ih =>
    simp only [List.cons_append, at?]
    cases t.child s with
    | none => rfl
    | some c => simp [ih]

@[simp]
theorem at?_leaf_cons (a : α) (s : Side) (path : List Side) : (leaf a).at? (s :: path) = none := rfl

@[simp]
theorem at?_node_left (l r : HashTree α) (path : List Side)
    : (node l r).at? (.left :: path) = l.at? path := rfl

@[simp]
theorem at?_node_right (l r : HashTree α) (path : List Side)
    : (node l r).at? (.right :: path) = r.at? path := rfl

theorem mem_leaves_of_at? {t : HashTree α} (h : t.at? path = some (.leaf a)) : a ∈ t.leaves := by
  induction path generalizing t with
  | nil =>
    simp only [at?, Option.some.injEq] at h
    simp [h, leaves]
  | cons s path ih =>
    cases t with
    | leaf b => simp at h
    | node l r =>
      cases s with
      | left => exact List.mem_append_left _ (ih h)
      | right => exact List.mem_append_right _ (ih h)

def map (f : α → β) : HashTree α → HashTree β
  | .leaf a => .leaf (f a)
  | .node l r => .node (map f l) (map f r)

theorem at?_map (f : α → β) (t : HashTree α) (path : List Side)
    : (t.map f).at? path = (t.at? path).map (map f) := by
  induction path generalizing t with
  | nil => rfl
  | cons s path ih =>
    cases t with
    | leaf a => rfl
    | node l r =>
      cases s with
      | left => exact ih l
      | right => exact ih r

theorem map_eq_leaf {f : α → β} {t : HashTree α} (h : t.map f = .leaf b)
    : ∃ a, t = .leaf a ∧ f a = b := by
  cases t with
  | leaf a => exact ⟨a, rfl, by simpa [map] using h⟩
  | node l r => simp [map] at h

/--
How the digests of a tree are computed: what is hashed at a leaf and at a node with annotation
`note`, and which strings are digests at all (`valid`). The laws are what a domain separated,
unambiguous encoding gives; `hash` itself may have collisions.
-/
structure Scheme (α ν μ δ : Type) where
  hash : μ → δ
  leafMsg : α → μ
  note : HashTree α → HashTree α → ν
  nodeMsg : ν → δ → δ → μ
  valid : δ → Prop
  valid_hash : ∀ m, valid (hash m)
  leafMsg_inj : ∀ {a b}, leafMsg a = leafMsg b → a = b
  leafMsg_ne_nodeMsg : ∀ a x d e, leafMsg a ≠ nodeMsg x d e
  /-- One valid digest on the left hand side is enough to cut the message in two. -/
  nodeMsg_inj : ∀ {x y a b c d}, valid a ∨ valid b → valid c → valid d →
    nodeMsg x a b = nodeMsg y c d → a = c ∧ b = d

namespace Scheme

variable (S : Scheme α ν μ δ)

def digest : HashTree α → δ
  | .leaf a => S.hash (S.leafMsg a)
  | .node l r => S.hash (S.nodeMsg (S.note l r) (digest l) (digest r))

/--
Every message that is hashed to get the digest of a tree.
-/
def msgs : HashTree α → List μ
  | .leaf a => [S.leafMsg a]
  | .node l r => S.nodeMsg (S.note l r) (S.digest l) (S.digest r) :: (msgs l ++ msgs r)

/--
The message at the root of a tree.
-/
def rootMsg : HashTree α → μ
  | .leaf a => S.leafMsg a
  | .node l r => S.nodeMsg (S.note l r) (S.digest l) (S.digest r)

theorem digest_eq_hash_rootMsg (t : HashTree α) : S.digest t = S.hash (S.rootMsg t) := by
  cases t <;> rfl

theorem rootMsg_mem_msgs (t : HashTree α) : S.rootMsg t ∈ S.msgs t := by
  cases t <;> simp [rootMsg, msgs]

theorem valid_digest (t : HashTree α) : S.valid (S.digest t) := by
  rw [digest_eq_hash_rootMsg]
  apply S.valid_hash

theorem msgs_subset_of_child {t c : HashTree α} (h : t.child s = some c)
    : S.msgs c ⊆ S.msgs t := by
  cases t with
  | leaf => simp [child] at h
  | node l r =>
    intro m hm
    cases s with
    | left =>
      simp only [child, Option.some.injEq] at h
      subst h
      simp [msgs, hm]
    | right =>
      simp only [child, Option.some.injEq] at h
      subst h
      simp [msgs, hm]

theorem msgs_subset_of_at? {t u : HashTree α} (h : t.at? path = some u)
    : S.msgs u ⊆ S.msgs t := by
  induction path generalizing t with
  | nil =>
    simp only [at?, Option.some.injEq] at h
    simp [h]
  | cons s path ih =>
    simp only [at?, Option.bind_eq_some_iff] at h
    rcases h with ⟨c, hc, hu⟩
    exact List.Subset.trans (ih hu) (S.msgs_subset_of_child hc)

/--
A digest determines its tree, up to a collision among the messages of the two trees.
-/
theorem digest_inj (t u : HashTree α) (h : S.digest t = S.digest u)
    : t = u ∨ Collides S.hash (S.msgs t ++ S.msgs u) := by
  induction t generalizing u with
  | leaf a =>
    have hmsg : S.leafMsg a = S.rootMsg u ∨ Collides S.hash (S.msgs (.leaf a) ++ S.msgs u) := by
      apply Collides.eq_or
      . simp [msgs]
      . simp [rootMsg_mem_msgs]
      . rw [← digest_eq_hash_rootMsg, ← h]
        rfl
    rcases hmsg with hmsg | hcol
    . cases u with
      | leaf b => exact Or.inl (by rw [S.leafMsg_inj hmsg])
      | node l r => exact absurd hmsg (S.leafMsg_ne_nodeMsg _ _ _ _)
    . exact Or.inr hcol
  | node l r lih rih =>
    have hmsg : S.rootMsg (.node l r) = S.rootMsg u ∨
        Collides S.hash (S.msgs (.node l r) ++ S.msgs u) := by
      apply Collides.eq_or
      . simp [rootMsg_mem_msgs]
      . simp [rootMsg_mem_msgs]
      . rw [← digest_eq_hash_rootMsg, ← digest_eq_hash_rootMsg, h]
    rcases hmsg with hmsg | hcol
    . cases u with
      | leaf b => exact absurd hmsg.symm (S.leafMsg_ne_nodeMsg _ _ _ _)
      | node l' r' =>
        have hkids := S.nodeMsg_inj (Or.inl (S.valid_digest l)) (S.valid_digest l')
          (S.valid_digest r') hmsg
        rcases lih l' hkids.1 with hl | hcol
        . rcases rih r' hkids.2 with hr | hcol
          . exact Or.inl (by rw [hl, hr])
          . refine Or.inr (hcol.mono ?_)
            intro m
            simp only [msgs, List.mem_append, List.mem_cons]
            grind
        . refine Or.inr (hcol.mono ?_)
          intro m
          simp only [msgs, List.mem_append, List.mem_cons]
          grind
    . exact Or.inr hcol

/-!
### Climbing
-/

end Scheme

/--
One step of a climb: the side the climber comes from, the annotation of the parent, and the digest
of the other child.
-/
structure Step (ν δ : Type) where
  side : Side
  note : ν
  sibling : δ

namespace Scheme

variable (S : Scheme α ν μ δ)

def stepMsg (h : δ) (s : Step ν δ) : μ :=
  match s.side with
  | .left => S.nodeMsg s.note h s.sibling
  | .right => S.nodeMsg s.note s.sibling h

def climb (h : δ) : List (Step ν δ) → δ
  | [] => h
  | s :: steps => climb (S.hash (S.stepMsg h s)) steps

/--
Every message that is hashed during a climb.
-/
def climbMsgs (h : δ) : List (Step ν δ) → List μ
  | [] => []
  | s :: steps => S.stepMsg h s :: climbMsgs (S.hash (S.stepMsg h s)) steps

end Scheme

/--
The path from the root to the node that a climb along `steps` starts at.
-/
def rootPath (steps : List (Step ν δ)) : List Side := (steps.map Step.side).reverse

@[simp]
theorem rootPath_nil : rootPath ([] : List (Step ν δ)) = [] := rfl

@[simp]
theorem rootPath_cons (s : Step ν δ) (steps : List (Step ν δ))
    : rootPath (s :: steps) = rootPath steps ++ [s.side] := by
  simp [rootPath]

namespace Scheme

variable (S : Scheme α ν μ δ)

/--
The one step of `climb_sound`: a node whose digest is the hash of a climbing step has the climber's
digest at the child the step comes from.
-/
theorem stepMsg_sound {t : HashTree α} {h : δ} {s : Step ν δ} (hv : S.valid h)
    (hmsg : S.rootMsg t = S.stepMsg h s)
    : ∃ u, t.child s.side = some u ∧ S.digest u = h := by
  rcases s with ⟨side, note, sib⟩
  cases t with
  | leaf a => cases side <;> exact absurd hmsg (S.leafMsg_ne_nodeMsg _ _ _ _)
  | node l r =>
    cases side with
    | left =>
      have hkids := S.nodeMsg_inj (Or.inl hv) (S.valid_digest l) (S.valid_digest r) hmsg.symm
      exact ⟨l, rfl, hkids.1.symm⟩
    | right =>
      have hkids := S.nodeMsg_inj (Or.inr hv) (S.valid_digest l) (S.valid_digest r) hmsg.symm
      exact ⟨r, rfl, hkids.2.symm⟩

/--
A climb that ends in the digest of a tree starts at the digest of the subtree its sides lead to, up
to a collision. Nothing is assumed about the siblings.
-/
theorem climb_sound (t : HashTree α) (steps : List (Step ν δ)) (h : δ) (hv : S.valid h)
    (hclimb : S.climb h steps = S.digest t)
    : (∃ u, t.at? (rootPath steps) = some u ∧ S.digest u = h) ∨
        Collides S.hash (S.climbMsgs h steps ++ S.msgs t) := by
  induction steps generalizing h with
  | nil => exact Or.inl ⟨t, rfl, hclimb.symm⟩
  | cons s steps ih =>
    rcases ih _ (S.valid_hash _) hclimb with ⟨u, hu, hdig⟩ | hcol
    . rw [digest_eq_hash_rootMsg] at hdig
      have hmsg : S.rootMsg u = S.stepMsg h s ∨
          Collides S.hash (S.climbMsgs h (s :: steps) ++ S.msgs t) := by
        apply Collides.eq_or
        . exact List.mem_append_right _ (S.msgs_subset_of_at? hu (S.rootMsg_mem_msgs u))
        . simp [climbMsgs]
        . exact hdig
      rcases hmsg with hmsg | hcol
      . rcases S.stepMsg_sound hv hmsg with ⟨v, hv, hdig⟩
        exact Or.inl ⟨v, by simp [at?_append, hu, at?, hv], hdig⟩
      . exact Or.inr hcol
    . refine Or.inr (hcol.mono ?_)
      intro m
      simp only [climbMsgs, List.mem_append, List.mem_cons]
      grind

/--
If the climb starts at the digest of a leaf, it is that leaf the sides lead to.
-/
theorem climb_leaf_sound (t : HashTree α) (steps : List (Step ν δ)) (a : α)
    (hclimb : S.climb (S.digest (.leaf a)) steps = S.digest t)
    : t.at? (rootPath steps) = some (.leaf a) ∨
        Collides S.hash
          (S.leafMsg a :: S.climbMsgs (S.digest (.leaf a)) steps ++ S.msgs t) := by
  rcases S.climb_sound t steps _ (S.valid_digest _) hclimb with ⟨u, hu, hdig⟩ | hcol
  . rcases S.digest_inj u (.leaf a) hdig with heq | hcol
    . exact Or.inl (heq ▸ hu)
    . refine Or.inr (hcol.mono ?_)
      intro m hm
      have := S.msgs_subset_of_at? hu (a := m)
      simp only [msgs, List.mem_append, List.mem_cons, List.not_mem_nil] at hm ⊢
      grind
  . refine Or.inr (hcol.mono ?_)
    intro m hm
    exact List.mem_cons_of_mem _ hm

end Scheme
end HashTree
