import CryptoValid.Lib.Dict
import CryptoValid.Lib.SortBy
import Mathlib.Data.List.Count

/-!
This module contains the grouping of a list by a key: what stands under a key, and that the groups say
what is in the list and how often.
-/

namespace Dict

section

variable {α κ ν : Type} [DecidableEq κ] (key : α → κ) (value : α → ν)

/--
`m.setdefault(key, []).append(value)` for every item.
-/
def groupBy (xs : List α) : Dict κ (List ν) :=
  xs.foldl (fun m x => m.set (key x) ((m.get? (key x)).getD [] ++ [value x])) empty

/--
What stands under a key.
-/
def rowsOf (xs : List α) (k : κ) : List ν := (xs.filter fun x => key x = k).map value

theorem get?_foldl_group (xs : List α) (m : Dict κ (List ν)) (k : κ)
    : (xs.foldl (fun m x => m.set (key x) ((m.get? (key x)).getD [] ++ [value x])) m).get? k
        =
      if rowsOf key value xs k = [] then m.get? k
      else some ((m.get? k).getD [] ++ rowsOf key value xs k) := by
  induction xs generalizing m with
  | nil => simp [rowsOf]
  | cons x xs ih =>
    rw [List.foldl_cons, ih, get?_set]
    by_cases hk : key x = k
    . subst hk
      have hrows : rowsOf key value (x :: xs) (key x) = value x :: rowsOf key value xs (key x) := by
        simp [rowsOf]
      rw [hrows, if_neg (List.cons_ne_nil _ _), if_pos rfl]
      split
      . next hnil => rw [hnil]
      . rw [Option.getD_some, List.append_assoc, List.singleton_append]
    . have hrows : rowsOf key value (x :: xs) k = rowsOf key value xs k := by
        simp [rowsOf, hk]
      rw [hrows, if_neg (Ne.symm hk)]

theorem get?_groupBy (xs : List α) (k : κ)
    : (groupBy key value xs).get? k
        = if rowsOf key value xs k = [] then none else some (rowsOf key value xs k) := by
  rw [groupBy, get?_foldl_group]
  simp

variable {key value}

theorem perm_rowsOf {xs ys : List α} (h : xs.Perm ys) (k : κ)
    : (rowsOf key value xs k).Perm (rowsOf key value ys k) :=
  (h.filter _).map value

variable (key value)

theorem count_rowsOf [DecidableEq α] [DecidableEq ν] (xs : List α) (x : α)
    (hinj : ∀ y ∈ xs, key y = key x → value y = value x → y = x)
    : (rowsOf key value xs (key x)).count (value x) = xs.count x := by
  induction xs with
  | nil => rfl
  | cons y xs ih =>
    rw [List.forall_mem_cons] at hinj
    have ih := ih hinj.2
    by_cases hyx : y = x
    . subst hyx
      rw [List.count_cons_self, ← ih]
      simp [rowsOf]
    . rw [List.count_cons_of_ne hyx, ← ih]
      by_cases hk : key y = key x
      . have hne : value y ≠ value x := fun hv => hyx (hinj.1 hk hv)
        simp [rowsOf, hk, List.count_cons_of_ne hne]
      . simp [rowsOf, hk]

/--
Lists with the same rows under every key have the same items.
-/
theorem perm_iff_rowsOf [DecidableEq α] [DecidableEq ν] {xs ys : List α}
    (hinj : ∀ x ∈ xs ++ ys, ∀ y ∈ xs ++ ys, key x = key y → value x = value y → x = y)
    : xs.Perm ys ↔ ∀ k, (rowsOf key value xs k).Perm (rowsOf key value ys k) := by
  constructor
  . exact fun h k => perm_rowsOf h k
  . intro h
    rw [List.perm_iff_count]
    intro x
    by_cases hx : x ∈ xs ++ ys
    . rw [← count_rowsOf key value xs x fun y hy =>
          hinj y (List.mem_append_left ys hy) x hx,
        ← count_rowsOf key value ys x fun y hy =>
          hinj y (List.mem_append_right xs hy) x hx]
      exact (h (key x)).count_eq (value x)
    . rw [List.mem_append, not_or] at hx
      rw [List.count_eq_zero.mpr hx.1, List.count_eq_zero.mpr hx.2]

end

end Dict
