import CryptoValid.Lib.Dict
import Mathlib.Data.Fintype.EquivFin
import Mathlib.Data.List.Count
import Mathlib.Data.List.FinRange

/-!
This module contains dictionaries that are built in one pass over a list, and one-to-one matchings of
two lists of keyed items.
-/

namespace Dict

variable [DecidableEq κ]

/--
How often every key comes.
-/
def tally (keys : List κ) : Dict κ Nat :=
  keys.foldl (fun d k => d.set k ((d.get? k).getD 0 + 1)) empty

/--
The last item with each key.
-/
def lastBy (key : α → κ) (items : List α) : Dict κ α :=
  items.foldl (fun d a => d.set (key a) a) empty

theorem get?_foldl_tally [BEq κ] [LawfulBEq κ] (keys : List κ) (d : Dict κ Nat) (k : κ)
    : (keys.foldl (fun d k => d.set k ((d.get? k).getD 0 + 1)) d).get? k
        =
      if k ∈ keys then some ((d.get? k).getD 0 + keys.count k) else d.get? k := by
  induction keys generalizing d with
  | nil => simp
  | cons a keys ih =>
    rw [List.foldl_cons, ih, get?_set]
    by_cases hka : k = a
    . subst hka
      by_cases hk : k ∈ keys
      . simp only [hk, ↓reduceIte, Option.getD_some, List.mem_cons, or_true, List.count_cons_self,
          Option.some.injEq]
        omega
      . simp [hk, List.count_eq_zero.mpr hk]
    . simp [hka, List.count_cons_of_ne (Ne.symm hka)]

theorem get?_tally [BEq κ] [LawfulBEq κ] (keys : List κ) (k : κ)
    : (tally keys).get? k = if k ∈ keys then some (keys.count k) else none := by
  rw [tally, get?_foldl_tally]
  simp

theorem getD_get?_tally [BEq κ] [LawfulBEq κ] (keys : List κ) (k : κ)
    : ((tally keys).get? k).getD 0 = keys.count k := by
  rw [get?_tally]
  split
  . rfl
  . next h => simp [List.count_eq_zero.mpr h]

theorem mem_items_tally [BEq κ] [LawfulBEq κ] (keys : List κ) (k : κ) (n : Nat)
    : (k, n) ∈ (tally keys).items ↔ k ∈ keys ∧ n = keys.count k := by
  rw [mem_items_iff, get?_tally]
  split
  . next h => simp [h, eq_comm]
  . next h => simp [h]

theorem get?_foldl_lastBy (key : α → κ) (items : List α) (d : Dict κ α) (k : κ)
    : (∃ a ∈ items, key a = k ∧ (items.foldl (fun d a => d.set (key a) a) d).get? k = some a) ∨
        ((∀ a ∈ items, key a ≠ k) ∧
          (items.foldl (fun d a => d.set (key a) a) d).get? k = d.get? k) := by
  induction items generalizing d with
  | nil => exact Or.inr ⟨by simp, rfl⟩
  | cons b items ih =>
    rw [List.foldl_cons]
    rcases ih (d.set (key b) b) with ⟨a, ha, hkey, hget⟩ | ⟨hnone, hget⟩
    . exact Or.inl ⟨a, List.mem_cons_of_mem b ha, hkey, hget⟩
    . by_cases hb : key b = k
      . refine Or.inl ⟨b, List.mem_cons_self, hb, ?_⟩
        rw [hget, ← hb, get?_set_self]
      . refine Or.inr ⟨?_, ?_⟩
        . rw [List.forall_mem_cons]
          exact ⟨hb, hnone⟩
        . rw [hget, get?_set_of_ne d b (Ne.symm hb)]

/--
What is under a key is an item with this key.
-/
theorem mem_of_get?_lastBy {key : α → κ} {items : List α} {k : κ} {a : α}
    (h : (lastBy key items).get? k = some a) : a ∈ items ∧ key a = k := by
  rcases get?_foldl_lastBy key items empty k with ⟨b, hb, hkey, hget⟩ | ⟨_, hget⟩
  . have hab : b = a := Option.some.inj (hget.symm.trans h)
    exact hab ▸ ⟨hb, hkey⟩
  . have hnone : none = some a := hget.symm.trans h
    simp at hnone

end Dict

/-!
### Matchings
-/

namespace Matching

variable {α γ τ : Type}

/--
The places of two lists correspond one to one, and items at corresponding places are related.
-/
def OneToOne (related : α → γ → Prop) (xs : List α) (ys : List γ) : Prop :=
  ∃ e : Fin xs.length ≃ Fin ys.length, ∀ i, related (xs.get i) (ys.get (e i))

theorem perm_of_equiv {n m : Nat} (e : Fin n ≃ Fin m) (h : Fin m → τ)
    : (List.ofFn fun i => h (e i)).Perm (List.ofFn h) := by
  have hnm : n = m := Fin.equiv_iff_eq.mp ⟨e⟩
  subst hnm
  exact Equiv.Perm.ofFn_comp_perm e h

theorem map_eq_ofFn (f : α → τ) (xs : List α) : xs.map f = List.ofFn fun i => f (xs.get i) := by
  apply List.ext_get
  . simp
  . simp

/--
Items match by what they are mapped to: there is a matching if both lists have the same things
equally often.
-/
theorem oneToOne_iff_perm [DecidableEq τ] (f : α → τ) (g : γ → τ) (xs : List α) (ys : List γ)
    : OneToOne (fun x y => f x = g y) xs ys ↔ (xs.map f).Perm (ys.map g) := by
  constructor
  . rintro ⟨e, he⟩
    rw [map_eq_ofFn f, map_eq_ofFn g, funext he]
    exact perm_of_equiv e fun j => g (ys.get j)
  . intro hperm
    let e : Fin (xs.map f).length ≃ Fin (ys.map g).length := {
      toFun := hperm.idxBij
      invFun := hperm.symm.idxBij
      left_inv := hperm.idxBij_rightInverse_idxBij_symm
      right_inv := hperm.idxBij_leftInverse_idxBij_symm }
    refine ⟨(finCongr (List.length_map f).symm).trans (e.trans (finCongr (List.length_map g))), ?_⟩
    intro i
    have hi := hperm.getElem_idxBij_eq_getElem (finCongr (List.length_map f).symm i)
    simp only [List.getElem_map] at hi
    exact hi.symm

/--
Pairs with one key have one value.
-/
def Functional (ps : List (κ × ν)) : Prop := ∀ p ∈ ps, ∀ q ∈ ps, p.1 = q.1 → p.2 = q.2

theorem Functional.count_eq [BEq κ] [LawfulBEq κ] [BEq ν] [LawfulBEq ν] {ps : List (κ × ν)}
    (h : Functional ps) {p : κ × ν} (hp : p ∈ ps) : ps.count p = (ps.map Prod.fst).count p.1 := by
  rw [List.count, List.count, List.countP_map]
  apply List.countP_congr
  intro q hq
  simp only [beq_iff_eq, Function.comp_apply]
  constructor
  . rintro rfl
    rfl
  . intro hkey
    exact Prod.ext hkey (h q hq p hp hkey)

/--
Where each key comes equally often, and the right side is part of the left one with one value a key,
nothing but keys with several values on the left is in the way of a matching.
-/
theorem perm_iff_functional [BEq κ] [LawfulBEq κ] [BEq ν] [LawfulBEq ν]
    {ps qs : List (κ × ν)}
    (hcount : ∀ k, (ps.map Prod.fst).count k = (qs.map Prod.fst).count k)
    (hsub : ∀ q ∈ qs, q ∈ ps) (hqs : Functional qs) : ps.Perm qs ↔ Functional ps := by
  constructor
  . intro hperm p hp q hq
    exact hqs p (hperm.mem_iff.mp hp) q (hperm.mem_iff.mp hq)
  . intro hps
    rw [List.perm_iff_count]
    intro p
    by_cases hp : p ∈ ps
    . have hpos : 0 < (qs.map Prod.fst).count p.1 := by
        rw [← hcount, List.count_pos_iff]
        exact List.mem_map_of_mem hp
      rcases List.mem_map.mp (List.count_pos_iff.mp hpos) with ⟨q, hq, hkey⟩
      have hqp : q = p := Prod.ext hkey (hps q (hsub q hq) p hp hkey)
      rw [hps.count_eq hp, hcount, hqs.count_eq (hqp ▸ hq)]
    . rw [List.count_eq_zero.mpr hp, List.count_eq_zero.mpr fun hq => hp (hsub p hq)]

end Matching
