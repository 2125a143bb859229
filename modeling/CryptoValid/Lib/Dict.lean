import Mathlib.Algebra.GroupWithZero.Nat
import Mathlib.Data.List.Basic
import Mathlib.Data.List.Induction
import Mathlib.Data.List.Nodup

/-!
This module contains lists of key value pairs, and dictionaries that keep their keys in the order of
insertion.
-/

namespace Assoc

variable [DecidableEq κ]

/--
The value of the first pair with key `k`.
-/
def lookup (k : κ) : List (κ × ν) → Option ν
  | [] => none
  | (a, v) :: rest => if k = a then some v else lookup k rest

@[simp]
theorem lookup_nil (k : κ) : lookup k ([] : List (κ × ν)) = none := rfl

theorem lookup_cons (k : κ) (p : κ × ν) (rest : List (κ × ν))
    : lookup k (p :: rest) = if k = p.1 then some p.2 else lookup k rest := rfl

theorem lookup_append (k : κ) (xs ys : List (κ × ν))
    : lookup k (xs ++ ys) = (lookup k xs).or (lookup k ys) := by
  induction xs with
  | nil => simp
  | cons p xs ih =>
    simp only [List.cons_append, lookup_cons]
    split
    . rfl
    . exact ih

theorem lookup_map {ν' : Type} (k : κ) (f : ν → ν') (xs : List (κ × ν))
    : lookup k (xs.map fun p => (p.1, f p.2)) = (lookup k xs).map f := by
  induction xs with
  | nil => rfl
  | cons p xs ih =>
    rw [List.map_cons, lookup_cons, lookup_cons, ih]
    split <;> rfl

theorem lookup_eq_none_iff (k : κ) (xs : List (κ × ν))
    : lookup k xs = none ↔ k ∉ xs.map Prod.fst := by
  induction xs with
  | nil => simp
  | cons p xs ih =>
    rw [lookup_cons]
    split
    . simp_all
    . simp_all

theorem mem_of_lookup {k : κ} {v : ν} {xs : List (κ × ν)} (h : lookup k xs = some v)
    : (k, v) ∈ xs := by
  induction xs with
  | nil => simp at h
  | cons p xs ih =>
    rw [lookup_cons] at h
    split at h
    . next hk =>
      simp only [Option.some.injEq] at h
      rw [hk, ← h]
      exact List.mem_cons_self
    . exact List.mem_cons_of_mem _ (ih h)

theorem lookup_of_mem {k : κ} {v : ν} {xs : List (κ × ν)} (hnodup : (xs.map Prod.fst).Nodup)
    (h : (k, v) ∈ xs) : lookup k xs = some v := by
  induction xs with
  | nil => simp at h
  | cons p xs ih =>
    rw [List.map_cons, List.nodup_cons] at hnodup
    rw [lookup_cons]
    rcases List.mem_cons.mp h with h | h
    . simp [← h]
    . have hne : k ≠ p.1 := by
        rintro rfl
        exact hnodup.1 (List.mem_map.mpr ⟨_, h, rfl⟩)
      rw [if_neg hne, ih hnodup.2 h]

theorem lookup_filter (k : κ) (p : κ → Bool) (xs : List (κ × ν))
    : lookup k (xs.filter fun x => p x.1) = if p k then lookup k xs else none := by
  induction xs with
  | nil => simp
  | cons x xs ih =>
    by_cases hk : k = x.1
    . subst hk
      by_cases hp : p x.1
      . simp [hp, lookup_cons]
      . simp [hp, ih]
    . by_cases hp : p x.1
      . simp [hp, lookup_cons, hk, ih]
      . simp [hp, lookup_cons, hk, ih]

/--
Give every pair with key `k` the value `v`.
-/
def replace (k : κ) (v : ν) (xs : List (κ × ν)) : List (κ × ν) :=
  xs.map fun p => (p.1, if p.1 = k then v else p.2)

@[simp]
theorem map_fst_replace (k : κ) (v : ν) (xs : List (κ × ν))
    : (replace k v xs).map Prod.fst = xs.map Prod.fst := by
  simp [replace]

theorem lookup_replace (k j : κ) (v : ν) (xs : List (κ × ν))
    : lookup j (replace k v xs)
        =
      if j = k then (lookup k xs).map (fun _ => v) else lookup j xs := by
  induction xs with
  | nil => simp [replace]
  | cons p xs ih =>
    simp only [replace, List.map_cons, lookup_cons] at ih ⊢
    by_cases hjk : j = k
    . subst hjk
      by_cases hj : j = p.1
      . simp [hj]
      . simp [hj, ih]
    . by_cases hj : j = p.1
      . have hpk : p.1 ≠ k := fun h => hjk (hj.trans h)
        simp [hj, hpk]
      . simp [hj, hjk, ih]

theorem filter_replace (k : κ) (v : ν) (xs : List (κ × ν))
    : (replace k v xs).filter (fun p => p.1 ≠ k) = xs.filter fun p => p.1 ≠ k := by
  induction xs with
  | nil => rfl
  | cons p xs ih =>
    simp only [replace, List.map_cons] at ih ⊢
    by_cases hk : p.1 = k
    . rw [List.filter_cons_of_neg (by simp [hk]), List.filter_cons_of_neg (by simp [hk]), ih]
    . rw [List.filter_cons_of_pos (by simp [hk]), List.filter_cons_of_pos (by simp [hk]), ih, if_neg hk]

theorem filter_of_lookup_eq_none {k : κ} {xs : List (κ × ν)} (h : lookup k xs = none)
    : (xs.filter fun p => p.1 ≠ k) = xs := by
  rw [lookup_eq_none_iff] at h
  rw [List.filter_eq_self]
  intro p hp
  simp only [ne_eq, decide_not, Bool.not_eq_true', decide_eq_false_iff_not]
  rintro rfl
  exact h (List.mem_map.mpr ⟨p, hp, rfl⟩)

/--
The pair that is found is what a list with unique keys loses when its key is dropped.
-/
theorem sum_filter {k : κ} {v : ν} {xs : List (κ × ν)} (f : ν → Nat)
    (hnodup : (xs.map Prod.fst).Nodup) (h : lookup k xs = some v)
    : ((xs.filter fun p => p.1 ≠ k).map fun p => f p.2).sum + f v = (xs.map fun p => f p.2).sum := by
  induction xs with
  | nil => simp at h
  | cons p xs ih =>
    rw [List.map_cons, List.nodup_cons] at hnodup
    rw [lookup_cons] at h
    split at h
    . next hk =>
      have hnone : lookup k xs = none := (lookup_eq_none_iff k xs).mpr (hk ▸ hnodup.1)
      rw [List.filter_cons_of_neg (by simp [hk]), filter_of_lookup_eq_none hnone, List.map_cons,
        List.sum_cons, Option.some.inj h, Nat.add_comm]
    . next hk =>
      rw [List.filter_cons_of_pos (by simpa using Ne.symm hk), List.map_cons, List.sum_cons,
        List.map_cons, List.sum_cons, ← ih hnodup.2 h, Nat.add_assoc]

end Assoc

structure Dict (κ ν : Type) where
  items : List (κ × ν)
  nodup : (items.map Prod.fst).Nodup

namespace Dict

variable [DecidableEq κ]

instance [DecidableEq ν] : DecidableEq (Dict κ ν) := fun d e =>
  decidable_of_iff (d.items = e.items) <| by
    cases d
    cases e
    simp

def empty : Dict κ ν := ⟨[], by simp⟩

def get? (d : Dict κ ν) (k : κ) : Option ν := Assoc.lookup k d.items

def contains (d : Dict κ ν) (k : κ) : Bool := (d.get? k).isSome

/--
A key that is there already keeps its place.
-/
def set (d : Dict κ ν) (k : κ) (v : ν) : Dict κ ν :=
  if h : k ∈ d.items.map Prod.fst then
    ⟨Assoc.replace k v d.items, by simpa using d.nodup⟩
  else
    ⟨d.items ++ [(k, v)], by
      rw [List.map_append, List.nodup_append]
      refine ⟨d.nodup, by simp, ?_⟩
      intro a ha b hb
      simp only [List.map_cons, List.map_nil, List.mem_singleton] at hb
      rintro rfl
      exact h (hb ▸ ha)⟩

def erase (d : Dict κ ν) (k : κ) : Dict κ ν :=
  ⟨d.items.filter fun p => p.1 ≠ k, by
    have hsub : ((d.items.filter fun p => p.1 ≠ k).map Prod.fst).Sublist (d.items.map Prod.fst) :=
      List.filter_sublist.map _
    exact hsub.nodup d.nodup⟩

@[simp]
theorem get?_empty (k : κ) : (empty : Dict κ ν).get? k = none := rfl

theorem get?_set (d : Dict κ ν) (k j : κ) (v : ν)
    : (d.set k v).get? j = if j = k then some v else d.get? j := by
  unfold set get?
  split
  . next h =>
    rw [Assoc.lookup_replace]
    have hsome : Assoc.lookup k d.items ≠ none := by
      rw [ne_eq, Assoc.lookup_eq_none_iff]
      simpa using h
    rcases Option.ne_none_iff_exists'.mp hsome with ⟨w, hw⟩
    simp [hw]
  . next h =>
    rw [← Assoc.lookup_eq_none_iff] at h
    simp only [Assoc.lookup_append, Assoc.lookup_cons, Assoc.lookup_nil]
    by_cases hj : j = k
    . simp [hj, h]
    . simp [hj]

@[simp]
theorem get?_set_self (d : Dict κ ν) (k : κ) (v : ν) : (d.set k v).get? k = some v := by
  simp [get?_set]

theorem get?_set_of_ne (d : Dict κ ν) (v : ν) (h : j ≠ k) : (d.set k v).get? j = d.get? j := by
  simp [get?_set, h]

theorem get?_erase (d : Dict κ ν) (k j : κ)
    : (d.erase k).get? j = if j = k then none else d.get? j := by
  unfold erase get?
  rw [Assoc.lookup_filter j (fun a => decide (a ≠ k))]
  by_cases hj : j = k <;> simp [hj]

theorem get?_erase_of_ne (d : Dict κ ν) (h : j ≠ k) : (d.erase k).get? j = d.get? j := by
  simp [get?_erase, h]

theorem mem_items_iff (d : Dict κ ν) (k : κ) (v : ν) : (k, v) ∈ d.items ↔ d.get? k = some v :=
  ⟨fun h => Assoc.lookup_of_mem d.nodup h, fun h => Assoc.mem_of_lookup h⟩

/--
A pass over `xs` that sets one key each: what is found afterwards was there, or was set last.
-/
theorem get?_foldl_set (key : α → κ) (value : α → ν) (xs : List α) (d : Dict κ ν) {k : κ} {v : ν}
    (h : (xs.foldl (fun d x => d.set (key x) (value x)) d).get? k = some v)
    : d.get? k = some v ∨ ∃ x ∈ xs, key x = k ∧ value x = v := by
  induction xs generalizing d with
  | nil => exact Or.inl h
  | cons x xs ih =>
    rcases ih _ h with hget | ⟨y, hy, hkey, hvalue⟩
    . rw [get?_set] at hget
      split at hget
      . next hk => exact Or.inr ⟨x, List.mem_cons_self, hk.symm, Option.some.inj hget⟩
      . exact Or.inl hget
    . exact Or.inr ⟨y, List.mem_cons_of_mem _ hy, hkey, hvalue⟩

theorem contains_eq_false_iff (d : Dict κ ν) (k : κ) : d.contains k = false ↔ d.get? k = none := by
  simp [contains]

/-!
### Every pair
-/

/--
`P` holds of every key with its value.
-/
def Each (P : κ → ν → Prop) (d : Dict κ ν) : Prop := ∀ k v, d.get? k = some v → P k v

section

variable {P : κ → ν → Prop} {d : Dict κ ν}

theorem each_empty : (empty : Dict κ ν).Each P := by simp [Each]

theorem Each.imp {Q : κ → ν → Prop} (h : d.Each P) (hpq : ∀ k v, P k v → Q k v) : d.Each Q :=
  fun k v hget => hpq k v (h k v hget)

theorem Each.set (h : d.Each P) {k : κ} {v : ν} (hv : P k v) : (d.set k v).Each P := by
  intro j w hw
  rw [get?_set] at hw
  split at hw
  . next hj =>
    rw [hj, ← Option.some.inj hw]
    exact hv
  . exact h j w hw

theorem Each.erase (h : d.Each P) (k : κ) : (d.erase k).Each P := by
  intro j w hw
  rw [get?_erase] at hw
  split at hw
  . simp at hw
  . exact h j w hw

theorem each_iff : d.Each P ↔ ∀ p ∈ d.items, P p.1 p.2 := by
  constructor
  . intro h p hp
    exact h p.1 p.2 ((mem_items_iff d p.1 p.2).mp hp)
  . intro h k v hget
    exact h (k, v) ((mem_items_iff d k v).mpr hget)

theorem Each.getD (h : d.Each P) (k : κ) {v : ν} (hv : P k v) : P k ((d.get? k).getD v) := by
  cases hget : d.get? k with
  | none => exact hv
  | some w => exact h k w hget

end

/-!
### Sums
-/

def total (f : ν → Nat) (d : Dict κ ν) : Nat := (d.items.map fun p => f p.2).sum

theorem erase_set (d : Dict κ ν) (k : κ) (v : ν) : (d.set k v).erase k = d.erase k := by
  unfold set erase
  split
  . simp only [Assoc.filter_replace]
  . simp

theorem erase_of_get?_eq_none {d : Dict κ ν} {k : κ} (h : d.get? k = none) : d.erase k = d := by
  unfold erase
  simp only [Assoc.filter_of_lookup_eq_none h]

theorem total_erase (f : ν → Nat) {d : Dict κ ν} {k : κ} {v : ν} (h : d.get? k = some v)
    : (d.erase k).total f + f v = d.total f := Assoc.sum_filter f d.nodup h

theorem total_erase_le (f : ν → Nat) (d : Dict κ ν) (k : κ) : (d.erase k).total f ≤ d.total f := by
  cases hget : d.get? k with
  | none => exact Nat.le_of_eq (by rw [erase_of_get?_eq_none hget])
  | some v =>
    rw [← total_erase f hget]
    exact Nat.le_add_right _ _

theorem total_set (f : ν → Nat) (d : Dict κ ν) (k : κ) (v : ν)
    : (d.set k v).total f = (d.erase k).total f + f v := by
  rw [← total_erase f (get?_set_self d k v), erase_set]

end Dict
