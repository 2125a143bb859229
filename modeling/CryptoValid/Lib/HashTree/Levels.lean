import CryptoValid.Lib.HashTree.Basic
import Mathlib.Algebra.Order.Group.Nat
import Mathlib.Tactic.Ring

/-!
This module contains the construction of a tree level by level: neighbours are paired, an odd last
element is promoted to the next level as it is. The trees that come out are left full, and building
them this way is the same as splitting the leaves at the largest power of two below their number.
-/

namespace Levels

variable (f : β → β → β)

/--
One level up: pair neighbours with `f`, promote an odd last element.
-/
def pairUp : List β → List β
  | x :: y :: xs => f x y :: pairUp xs
  | xs => xs

@[simp]
theorem pairUp_nil : pairUp f [] = [] := rfl

@[simp]
theorem pairUp_singleton (x : β) : pairUp f [x] = [x] := rfl

@[simp]
theorem pairUp_cons_cons (x y : β) (xs : List β) : pairUp f (x :: y :: xs) = f x y :: pairUp f xs :=
  rfl

theorem length_pairUp (xs : List β) : (pairUp f xs).length = (xs.length + 1) / 2 := by
  fun_induction pairUp f xs with
  | case1 x y xs ih =>
    simp only [List.length_cons, ih]
    omega
  | case2 xs hxs =>
    match xs, hxs with
    | [], _ => simp
    | [x], _ => simp
    | x :: y :: xs, h => exact absurd rfl (h x y xs)

theorem map_pairUp (g : β → γ) (f' : γ → γ → γ) (hg : ∀ x y, g (f x y) = f' (g x) (g y))
    (xs : List β) : (pairUp f xs).map g = pairUp f' (xs.map g) := by
  fun_induction pairUp f xs with
  | case1 x y xs ih => simp [hg, ih]
  | case2 xs hxs =>
    match xs, hxs with
    | [], _ => rfl
    | [x], _ => rfl
    | x :: y :: xs, h => exact absurd rfl (h x y xs)

/--
The element at `i` of the next level is made from the two below it, if there are two.
-/
theorem getElem?_pairUp_pair (xs : List β) (i : Nat) (hx : xs[2 * i]? = some x)
    (hy : xs[2 * i + 1]? = some y) : (pairUp f xs)[i]? = some (f x y) := by
  induction i generalizing xs with
  | zero =>
    match xs with
    | [] => simp at hx
    | [_] => simp at hy
    | a :: b :: xs => simp_all
  | succ i ih =>
    match xs with
    | [] => simp at hx
    | [_] => simp at hx
    | a :: b :: xs =>
      simp only [pairUp_cons_cons, List.getElem?_cons_succ]
      exact ih xs (by simpa [Nat.mul_add] using hx) (by simpa [Nat.mul_add] using hy)

/--
The odd last element is the last one of the next level too.
-/
theorem getElem?_pairUp_last (xs : List β) (i : Nat) (hlen : xs.length = 2 * i + 1)
    : (pairUp f xs)[i]? = xs[2 * i]? := by
  induction i generalizing xs with
  | zero =>
    match xs with
    | [_] => rfl
  | succ i ih =>
    match xs with
    | a :: b :: xs =>
      simp only [pairUp_cons_cons, List.getElem?_cons_succ, Nat.mul_add]
      exact ih xs (by simp at hlen; omega)

theorem pairUp_append (xs ys : List β) (heven : 2 ∣ xs.length)
    : pairUp f (xs ++ ys) = pairUp f xs ++ pairUp f ys := by
  fun_induction pairUp f xs with
  | case1 x y xs ih =>
    have : 2 ∣ xs.length := by
      simp only [List.length_cons] at heven
      omega
    simp [ih this]
  | case2 xs hxs =>
    match xs, hxs with
    | [], _ => rfl
    | [x], _ => simp at heven
    | x :: y :: xs, h => exact absurd rfl (h x y xs)

/--
Go up level by level until one element is left; there is none for the empty list.
-/
def top? (xs : List β) : Option β :=
  match xs with
  | [] => none
  | [x] => some x
  | x :: y :: xs => top? (pairUp f (x :: y :: xs))
termination_by xs.length
decreasing_by
  simp only [length_pairUp, List.length_cons]
  omega

@[simp]
theorem top?_nil : top? f [] = none := by
  rw [top?]

@[simp]
theorem top?_singleton (x : β) : top? f [x] = some x := by
  rw [top?]

theorem top?_pairUp (xs : List β) : top? f (pairUp f xs) = top? f xs := by
  match xs with
  | [] => rfl
  | [x] => rfl
  | x :: y :: xs => rw [top?.eq_3 f x y xs]

theorem top?_isSome (xs : List β) (h : xs ≠ []) : (top? f xs).isSome := by
  fun_induction top? f xs with
  | case1 => exact absurd rfl h
  | case2 => rfl
  | case3 x y xs ih => exact ih (by simp)

theorem map_top? (g : β → γ) (f' : γ → γ → γ) (hg : ∀ x y, g (f x y) = f' (g x) (g y))
    (xs : List β) : (top? f xs).map g = top? f' (xs.map g) := by
  fun_induction top? f xs with
  | case1 => simp
  | case2 => simp
  | case3 x y xs ih => rw [ih, map_pairUp f g f' hg, top?_pairUp]

theorem flatten_pairUp_append (xs : List (List γ))
    : (pairUp (· ++ ·) xs).flatten = xs.flatten := by
  fun_induction pairUp (· ++ ·) xs with
  | case1 x y xs ih => simp [ih]
  | case2 xs hxs => rfl

theorem flatten_of_top?_append {xs : List (List γ)} (h : top? (· ++ ·) xs = some x)
    : x = xs.flatten := by
  fun_induction top? (· ++ ·) xs with
  | case1 => simp at h
  | case2 y => simp_all
  | case3 y z xs ih => rw [ih h, flatten_pairUp_append]

/--
Splitting at a power of two that is less than the length, and at least half of it, commutes with
going up: both halves can be built on their own.
-/
theorem top?_split (xs : List β) (j : Nat) (hlo : 2 ^ j < xs.length)
    (hhi : xs.length ≤ 2 ^ (j + 1))
    : top? f xs =
        (top? f (xs.take (2 ^ j))).bind fun l => (top? f (xs.drop (2 ^ j))).map (f l) := by
  induction j generalizing xs with
  | zero =>
    match xs with
    | [x, y] =>
      have htake : [x, y].take (2 ^ 0) = [x] := rfl
      have hdrop : [x, y].drop (2 ^ 0) = [y] := rfl
      rw [← top?_pairUp, htake, hdrop]
      simp
    | [] => simp at hlo
    | [_] => simp at hlo
    | _ :: _ :: _ :: _ => simp at hhi
  | succ j ih =>
    have hpow : 2 ^ (j + 1) = 2 * 2 ^ j := by ring
    have hpow' : 2 ^ (j + 1 + 1) = 2 * 2 ^ (j + 1) := by ring
    have htake : (xs.take (2 ^ (j + 1))).length = 2 ^ (j + 1) := by
      rw [List.length_take]
      omega
    have hsplit : pairUp f xs
        = pairUp f (xs.take (2 ^ (j + 1))) ++ pairUp f (xs.drop (2 ^ (j + 1))) := by
      rw [← pairUp_append, List.take_append_drop]
      rw [htake, hpow]
      exact Nat.dvd_mul_right ..
    have hleft : (pairUp f (xs.take (2 ^ (j + 1)))).length = 2 ^ j := by
      rw [length_pairUp, htake]
      omega
    have hlen := length_pairUp f xs
    rw [← top?_pairUp f xs, ih (pairUp f xs) (by omega) (by omega), hsplit, ← hleft]
    simp only [List.take_left', List.drop_left', hleft, top?_pairUp]

end Levels

namespace HashTree

/--
All leaves at depth `h`.
-/
def Perfect : Nat → HashTree α → Prop
  | 0, .leaf _ => True
  | h + 1, .node l r => Perfect h l ∧ Perfect h r
  | _, _ => False

def height : HashTree α → Nat
  | .leaf _ => 0
  | .node l r => max l.height r.height + 1

/--
Every left subtree is perfect and at least as high as its right sibling.
-/
def LeftFull : HashTree α → Prop
  | .leaf _ => True
  | .node l r => (∃ h, Perfect h l ∧ r.height ≤ h) ∧ LeftFull r

theorem Perfect.height_eq {t : HashTree α} (hp : Perfect h t) : t.height = h := by
  induction t generalizing h with
  | leaf =>
    cases h with
    | zero => rfl
    | succ h => exact absurd hp (by simp [Perfect])
  | node l r lih rih =>
    cases h with
    | zero => exact absurd hp (by simp [Perfect])
    | succ h => simp [height, lih hp.1, rih hp.2]

theorem Perfect.leftFull {t : HashTree α} (hp : Perfect h t) : t.LeftFull := by
  induction t generalizing h with
  | leaf => trivial
  | node l r lih rih =>
    cases h with
    | zero => exact absurd hp (by simp [Perfect])
    | succ h => exact ⟨⟨h, hp.1, Nat.le_of_eq hp.2.height_eq⟩, rih hp.2⟩

/--
No path is longer than the tree is high.
-/
theorem at?_eq_none_of_height_lt (t : HashTree α) (path : List Side) (h : t.height < path.length)
    : t.at? path = none := by
  induction t generalizing path with
  | leaf =>
    match path with
    | [] => simp at h
    | s :: path => rfl
  | node l r lih rih =>
    simp only [height] at h
    match path with
    | [] => simp at h
    | .left :: path => exact lih path (by simp at h; omega)
    | .right :: path => exact rih path (by simp at h; omega)

/--
In a perfect tree every path to a leaf is as long as the tree is high.
-/
theorem Perfect.length_of_at?_leaf {t : HashTree α} {path : List Side} (hp : Perfect h t)
    (ha : t.at? path = some (.leaf a)) : path.length = h := by
  induction t generalizing h path with
  | leaf =>
    match path, h with
    | [], 0 => rfl
    | [], h + 1 => exact absurd hp (by simp [Perfect])
    | s :: path, _ => simp at ha
  | node l r lih rih =>
    match path, h with
    | _, 0 => exact absurd hp (by simp [Perfect])
    | [], h + 1 => simp at ha
    | .left :: path, h + 1 => simp [lih hp.1 ha]
    | .right :: path, h + 1 => simp [rih hp.2 ha]

/--
In a left full tree a path to a leaf leads nowhere once it is preceded by steps to the right: the
right subtrees are not high enough for it.
-/
theorem LeftFull.at?_right_append {t : HashTree α} {path : List Side} (ht : t.LeftFull)
    (ha : t.at? path = some (.leaf a)) (e : Nat)
    : t.at? (List.replicate (e + 1) .right ++ path) = none := by
  induction t generalizing path e with
  | leaf => rfl
  | node l r lih rih =>
    rcases ht with ⟨⟨h, hperf, hle⟩, hr⟩
    simp only [List.replicate_succ, List.cons_append, at?_node_right]
    match path with
    | [] => simp at ha
    | .left :: path =>
      apply at?_eq_none_of_height_lt
      have := hperf.length_of_at?_leaf ha
      simp only [List.length_append, List.length_replicate, List.length_cons]
      omega
    | .right :: path =>
      have hswap : List.replicate e Side.right ++ .right :: path
          = List.replicate (e + 1) .right ++ path := by
        simp [List.replicate_succ']
      rw [hswap]
      exact rih hr ha e

open Levels

/--
The forests that occur `h` levels above the leaves: perfect trees of height `h`, except that the
last tree may be a lower left full one.
-/
inductive Forest (h : Nat) : List (HashTree α) → Prop where
  | nil : Forest h []
  | last (t : HashTree α) (hfull : t.LeftFull) (hle : t.height ≤ h) : Forest h [t]
  | cons (t : HashTree α) (ts : List (HashTree α)) (hperf : Perfect h t) (hts : Forest h ts) :
    Forest h (t :: ts)

theorem Forest.leaves (as : List α) : Forest 0 (as.map leaf) := by
  induction as with
  | nil => exact .nil
  | cons a as ih => exact .cons _ _ trivial ih

theorem leaves_of_top? {as : List α} (htop : top? node (as.map leaf) = some t)
    : t.leaves = as := by
  have hmap := map_top? node HashTree.leaves (· ++ ·) (fun _ _ => rfl) (as.map leaf)
  rw [htop, Option.map_some, List.map_map] at hmap
  rw [flatten_of_top?_append hmap.symm, ← List.flatMap_def]
  simp [Function.comp_def, HashTree.leaves]

theorem Forest.pairUp {ts : List (HashTree α)} (hts : Forest h ts)
    : Forest (h + 1) (pairUp node ts) := by
  fun_induction Levels.pairUp node ts with
  | case1 t u ts ih =>
    rcases hts with _ | _ | ⟨_, _, hperf, _ | ⟨_, hfull, hle⟩ | ⟨_, _, hperf', hts⟩⟩
    . refine .last _ ⟨⟨h, hperf, hle⟩, hfull⟩ ?_
      simp only [height, hperf.height_eq]
      omega
    . exact .cons _ _ ⟨hperf, hperf'⟩ (ih hts)
  | case2 ts hne =>
    rcases hts with _ | ⟨t, hfull, hle⟩ | ⟨t, ts, hperf, _⟩
    . exact .nil
    . exact .last t hfull (by omega)
    . rcases ts with _ | ⟨u, ts⟩
      . exact .last t hperf.leftFull (by rw [hperf.height_eq]; omega)
      . exact absurd rfl (hne t u ts)

theorem Forest.leftFull_of_top? {ts : List (HashTree α)} (hts : Forest h ts)
    (htop : top? node ts = some t) : t.LeftFull := by
  induction hn : ts.length using Nat.strong_induction_on generalizing ts h with
  | _ n ih =>
    match ts, hts with
    | [], _ => simp at htop
    | [u], .last _ hfull _ =>
      simp only [top?_singleton, Option.some.injEq] at htop
      exact htop ▸ hfull
    | [u], .cons _ _ hperf _ =>
      simp only [top?_singleton, Option.some.injEq] at htop
      exact htop ▸ hperf.leftFull
    | t :: u :: ts, hts =>
      refine ih _ ?_ hts.pairUp (by rwa [top?_pairUp]) rfl
      rw [← hn, length_pairUp]
      simp
      omega

/--
The position of the leaf that a path leads to in the tree over `n` leaves.
-/
def position (n : Nat) (path : List Side) : Option Nat :=
  match (top? node ((List.range n).map leaf)).bind (·.at? path) with
  | some (.leaf q) => some q
  | _ => none

/--
The shape of the tree depends on the number of leaves only.
-/
theorem position_of_at?_leaf {as : List α} {t : HashTree α}
    (htop : top? node (as.map leaf) = some t) (ha : t.at? path = some (.leaf a))
    : ∃ q, position as.length path = some q ∧ as[q]? = some a := by
  match as with
  | [] => simp at htop
  | a₀ :: as =>
    have hlist : (List.range (a₀ :: as).length).map (fun i => (a₀ :: as).getD i a₀) = a₀ :: as := by
      apply List.ext_getElem
      . simp
      . intro i h₁ h₂
        simp [List.getD_eq_getElem?_getD, List.getElem?_eq_getElem h₂]
    have hmap := map_top? node (map fun i => (a₀ :: as).getD i a₀) node
      (fun _ _ => rfl) ((List.range (a₀ :: as).length).map leaf)
    have hleaves : ((List.range (a₀ :: as).length).map leaf).map (map fun i => (a₀ :: as).getD i a₀)
        = (a₀ :: as).map leaf := by
      rw [List.map_map, ← congrArg (List.map leaf) hlist, List.map_map]
      rfl
    rw [hleaves, htop, Option.map_eq_some_iff] at hmap
    rcases hmap with ⟨shape, hshape, rfl⟩
    rw [at?_map, Option.map_eq_some_iff] at ha
    rcases ha with ⟨u, hu, hleaf⟩
    rcases map_eq_leaf hleaf with ⟨q, rfl, hq⟩
    refine ⟨q, by simp only [position, hshape, Option.bind_some, hu], ?_⟩
    have hlt : q < (a₀ :: as).length := by
      have hmem := mem_leaves_of_at? hu
      rw [leaves_of_top? hshape] at hmem
      simpa using hmem
    rw [← hq, List.getD_eq_getElem?_getD, List.getElem?_eq_getElem hlt]
    rfl

end HashTree
