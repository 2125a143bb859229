import Mathlib.Data.List.Sort

/-!
This module contains sorting by a key: the sequence of keys does not depend on the order of the list,
and items with the same key stay in the order in which they were.
-/

namespace List

section

variable {α κ : Type} [LinearOrder κ] (key : α → κ)

def sortBy (xs : List α) : List α := xs.insertionSort fun a b => key a ≤ key b

instance total_key_le : Std.Total fun a b : α => key a ≤ key b := ⟨fun a b => le_total (key a) (key b)⟩

instance isTrans_key_le : IsTrans α fun a b : α => key a ≤ key b := ⟨fun _ _ _ hab hbc => le_trans hab hbc⟩

theorem perm_sortBy (xs : List α) : (sortBy key xs).Perm xs := perm_insertionSort _ xs

theorem mem_sortBy {xs : List α} {x : α} : x ∈ sortBy key xs ↔ x ∈ xs := (perm_sortBy key xs).mem_iff

theorem pairwise_sortBy (xs : List α) : (sortBy key xs).Pairwise fun a b => key a ≤ key b :=
  pairwise_insertionSort _ xs

/--
The keys come in the same sequence, whatever the order of the list is.
-/
theorem map_key_sortBy_of_perm {xs ys : List α} (h : xs.Perm ys)
    : (sortBy key xs).map key = (sortBy key ys).map key := by
  refine Perm.eq_of_pairwise' (r := (· ≤ ·)) ?_ ?_ ?_
  . exact pairwise_map.mpr (pairwise_sortBy key xs)
  . exact pairwise_map.mpr (pairwise_sortBy key ys)
  . exact (((perm_sortBy key xs).trans h).trans (perm_sortBy key ys).symm).map key

/--
Where the key tells items apart, the order of the list is of no importance.
-/
theorem sortBy_eq_of_perm {xs ys : List α} (h : xs.Perm ys)
    (hkey : ∀ x ∈ xs, ∀ y ∈ xs, key x = key y → x = y) : sortBy key xs = sortBy key ys := by
  refine @Perm.eq_of_pairwise _ (fun a b => key a ≤ key b) _ _ ?_ (pairwise_sortBy key xs)
    (pairwise_sortBy key ys) (((perm_sortBy key xs).trans h).trans (perm_sortBy key ys).symm)
  intro x y hx hy hxy hyx
  exact hkey x ((mem_sortBy key).mp hx) y (h.mem_iff.mpr ((mem_sortBy key).mp hy))
    (le_antisymm hxy hyx)

/--
The sort is stable.
-/
theorem filter_sortBy [DecidableEq κ] (xs : List α) (k : κ)
    : (sortBy key xs).filter (fun x => key x = k) = xs.filter fun x => key x = k := by
  have hpair : (xs.filter fun x => key x = k).Pairwise fun a b => key a ≤ key b := by
    rw [pairwise_iff_forall_sublist]
    intro a b hab
    have ha := of_mem_filter (hab.subset (mem_cons_self (a := a)))
    have hb := of_mem_filter (hab.subset (mem_cons_of_mem a (mem_singleton.mpr rfl)))
    simp only [decide_eq_true_eq] at ha hb
    rw [ha, hb]
  have hsub := (sublist_insertionSort (r := fun a b => key a ≤ key b) hpair filter_sublist).filter
    fun x => key x = k
  rw [filter_filter] at hsub
  simp only [Bool.and_self] at hsub
  exact (hsub.eq_of_length ((perm_sortBy key xs).filter _).length_eq.symm).symm

/--
What is dropped from a list does not matter for the order of the rest.
-/
theorem filter_orderedInsert (p : α → Bool) (x : α) {xs : List α}
    (h : xs.Pairwise fun a b => key a ≤ key b)
    : (xs.orderedInsert (fun a b => key a ≤ key b) x).filter p
        =
      if p x then (xs.filter p).orderedInsert (fun a b => key a ≤ key b) x else xs.filter p := by
  induction xs with
  | nil => simp [orderedInsert, filter_cons]
  | cons y xs ih =>
    rw [pairwise_cons] at h
    rw [orderedInsert]
    split
    . next hle =>
      have hleast : ∀ z ∈ (y :: xs).filter p, key x ≤ key z := by
        intro z hz
        rcases mem_cons.mp (mem_of_mem_filter hz) with rfl | hz
        . exact hle
        . exact le_trans hle (h.1 z hz)
      rw [filter_cons]
      split
      . cases hfilter : (y :: xs).filter p with
        | nil => rfl
        | cons z zs =>
          rw [orderedInsert, if_pos (hleast z (by simp [hfilter]))]
      . rfl
    . next hlt =>
      rw [filter_cons, ih h.2, filter_cons]
      by_cases hy : p y
      . rw [if_pos hy, if_pos hy]
        split
        . rw [orderedInsert, if_neg hlt]
        . rfl
      . rw [if_neg hy, if_neg hy]

theorem sortBy_cons (x : α) (xs : List α)
    : sortBy key (x :: xs) = (sortBy key xs).orderedInsert (fun a b => key a ≤ key b) x := rfl

theorem map_sortBy {β : Type} (key : β → κ) (f : α → β) (xs : List α)
    : sortBy key (xs.map f) = (sortBy (fun x => key (f x)) xs).map f :=
  (map_insertionSort (fun a b => key (f a) ≤ key (f b)) (fun a b => key a ≤ key b) f xs
    fun _ _ _ _ => Iff.rfl).symm

/--
Two lists whose elements are related, and have the same keys, are related when they are sorted.
-/
theorem forall₂_sortBy {β : Type} (key' : β → κ) {R : α → β → Prop}
    (hkey : ∀ x y, R x y → key' y = key x) {xs : List α} {ys : List β} (h : Forall₂ R xs ys)
    : Forall₂ R (sortBy key xs) (sortBy key' ys) := by
  have hinsert : ∀ {x : α} {y : β} {as : List α} {bs : List β}, R x y → Forall₂ R as bs →
      Forall₂ R (as.orderedInsert (fun a b => key a ≤ key b) x)
        (bs.orderedInsert (fun a b => key' a ≤ key' b) y) := by
    intro x y as bs hxy hab
    induction hab with
    | nil => exact .cons hxy .nil
    | cons hfirst htail ih =>
      rw [orderedInsert, orderedInsert, hkey _ _ hxy, hkey _ _ hfirst]
      split
      . exact .cons hxy (.cons hfirst htail)
      . exact .cons hfirst ih
  induction h with
  | nil => exact .nil
  | cons hxy _ ih =>
    rw [sortBy_cons, sortBy_cons]
    exact hinsert hxy ih

theorem filter_sortBy_eq (p : α → Bool) (xs : List α)
    : (sortBy key xs).filter p = sortBy key (xs.filter p) := by
  induction xs with
  | nil => rfl
  | cons x xs ih =>
    rw [sortBy_cons, filter_orderedInsert key p x (pairwise_sortBy key xs), ih, filter_cons]
    split <;> rfl

variable {κ' : Type} [LinearOrder κ'] (key' : α → κ')

theorem orderedInsert_congr {x : α} {xs : List α}
    (h : ∀ y ∈ xs, key x ≤ key y ↔ key' x ≤ key' y)
    : xs.orderedInsert (fun a b => key a ≤ key b) x
        = xs.orderedInsert (fun a b => key' a ≤ key' b) x := by
  induction xs with
  | nil => rfl
  | cons y xs ih =>
    rw [forall_mem_cons] at h
    simp only [orderedInsert, h.1, ih h.2]

theorem sortBy_congr {xs : List α}
    (h : xs.Pairwise fun a b => key a ≤ key b ↔ key' a ≤ key' b) : sortBy key xs = sortBy key' xs := by
  induction xs with
  | nil => rfl
  | cons x xs ih =>
    rw [pairwise_cons] at h
    rw [sortBy_cons, sortBy_cons, ih h.2]
    exact orderedInsert_congr key key' fun y hy => h.1 y ((mem_sortBy key').mp hy)

/--
Two keys sort a list in the same way if they order all pairs in the same way.
-/
theorem sortBy_eq_iff (xs : List α)
    : sortBy key xs = sortBy key' xs ↔
        xs.Pairwise fun a b => key a ≤ key b ↔ key' a ≤ key' b := by
  have hsorted : ∀ {κ : Type} [LinearOrder κ] (key : α → κ) {a b : α},
      [a, b] <+ sortBy key xs → key a ≤ key b := by
    intro κ _ key a b hab
    exact pairwise_iff_forall_sublist.mp (pairwise_sortBy key xs) hab
  have hstable : ∀ {κ : Type} [LinearOrder κ] (key : α → κ) {a b : α},
      [a, b] <+ xs → key a ≤ key b → [a, b] <+ sortBy key xs := by
    intro κ _ key a b hab hle
    exact pair_sublist_insertionSort (r := fun a b => key a ≤ key b) hle hab
  constructor
  . intro h
    rw [pairwise_iff_forall_sublist]
    intro a b hab
    constructor
    . intro hle
      exact hsorted key' (h ▸ hstable key hab hle)
    . intro hle
      exact hsorted key (h ▸ hstable key' hab hle)
  . exact sortBy_congr key key'

end

end List
