import Mathlib.Data.List.Forall2
import Mathlib.Data.List.Perm.Basic

/-!
This module contains the rules to take a computation apart that may raise, or that may come to
nothing.
-/

namespace Except

variable {ε α β : Type}

theorem ok_bind (a : α) (f : α → Except ε β) : (Except.ok a >>= f) = f a := rfl

theorem error_bind (e : ε) (f : α → Except ε β) : (Except.error e >>= f) = .error e := rfl

/--
A computation that returns has returned from its first step.
-/
theorem bind_eq_ok {x : Except ε α} {f : α → Except ε β} {b : β}
    : x >>= f = .ok b ↔ ∃ a, x = .ok a ∧ f a = .ok b := by
  cases x with
  | error e => simp [error_bind]
  | ok a => simp [ok_bind]

theorem map_eq_ok {x : Except ε α} {f : α → β} {b : β}
    : x.map f = .ok b ↔ ∃ a, x = .ok a ∧ f a = b := by
  cases x with
  | error e => simp [Except.map]
  | ok a => simp [Except.map]

theorem exists_of_isSome_toOption {x : Except ε α} (h : x.toOption.isSome = true)
    : ∃ a, x = .ok a := by
  cases x with
  | error e => simp [Except.toOption] at h
  | ok a => exact ⟨a, rfl⟩

/--
Two computations with the same result raise the same, or both return.
-/
theorem map_eq_map {γ : Type} {x : Except ε α} {y : Except ε β} {f : α → γ} {g : β → γ}
    (h : x.map f = y.map g)
    : (∃ e, x = .error e ∧ y = .error e) ∨ ∃ a b, x = .ok a ∧ y = .ok b ∧ f a = g b := by
  cases x with
  | error e =>
    cases y with
    | error e' =>
      refine Or.inl ⟨e, rfl, ?_⟩
      rw [Except.error.inj h]
    | ok b => simp [Except.map] at h
  | ok a =>
    cases y with
    | error e => simp [Except.map] at h
    | ok b => exact Or.inr ⟨a, b, rfl, rfl, Except.ok.inj h⟩

theorem pure_eq_ok {a b : α} : (pure a : Except ε α) = .ok b ↔ a = b := by
  simp [pure, Except.pure]

theorem mapError_ok {ε' : Type} (a : α) (f : ε → ε') : (Except.ok a).mapError f = .ok a := rfl

theorem mapError_eq_ok {ε' : Type} {x : Except ε α} {f : ε → ε'} {a : α}
    : x.mapError f = .ok a ↔ x = .ok a := by
  cases x with
  | error e => simp [Except.mapError]
  | ok b => simp [Except.mapError]

/--
An exception unless the condition holds.
-/
def require (condition : Bool) (e : ε) : Except ε Unit :=
  if condition then .ok () else .error e

theorem require_eq_ok {condition : Bool} {e : ε} {u : Unit}
    : require condition e = .ok u ↔ condition = true := by
  cases condition <;> simp [require]

/--
A loop that returns has returned from every pass, and the results come in the order of the passes.
-/
theorem mapM_eq_ok {f : α → Except ε β} {xs : List α} {ys : List β}
    : xs.mapM f = .ok ys ↔ List.Forall₂ (fun x y => f x = .ok y) xs ys := by
  induction xs generalizing ys with
  | nil => simp [pure, Except.pure, eq_comm]
  | cons x xs ih =>
    simp only [List.mapM_cons, bind_eq_ok, ih, pure_eq_ok, List.forall₂_cons_left_iff]
    constructor
    . rintro ⟨y, hy, ys, hys, rfl⟩
      exact ⟨y, ys, hy, hys, rfl⟩
    . rintro ⟨y, ys, hy, hys, rfl⟩
      exact ⟨y, hy, ys, hys, rfl⟩

theorem exists_mapM_eq_ok {f : α → Except ε β} {xs : List α}
    : (∃ ys, xs.mapM f = .ok ys) ↔ ∀ x ∈ xs, ∃ y, f x = .ok y := by
  induction xs with
  | nil => simp [pure, Except.pure]
  | cons x xs ih =>
    simp only [List.mapM_cons, bind_eq_ok, pure_eq_ok, List.forall_mem_cons, ← ih]
    constructor
    . rintro ⟨_, y, hy, ys, hys, rfl⟩
      exact ⟨⟨y, hy⟩, ys, hys⟩
    . rintro ⟨⟨y, hy⟩, ys, hys⟩
      exact ⟨y :: ys, y, hy, ys, hys, rfl⟩

theorem forM_congr {f g : α → Except ε Unit} {xs : List α} (h : ∀ x ∈ xs, f x = g x)
    : xs.forM f = xs.forM g := by
  induction xs with
  | nil => rfl
  | cons x xs ih =>
    rw [List.forall_mem_cons] at h
    rw [List.forM, List.forM, h.1, ih h.2]

theorem forM_eq_ok {f : α → Except ε Unit} {xs : List α}
    : xs.forM f = .ok () ↔ ∀ x ∈ xs, f x = .ok () := by
  induction xs with
  | nil => simp [List.forM, pure_eq_ok]
  | cons x xs ih =>
    rw [List.forM, bind_eq_ok, List.forall_mem_cons, ← ih]
    exact ⟨fun ⟨_, hx, hxs⟩ => ⟨hx, hxs⟩, fun ⟨hx, hxs⟩ => ⟨(), hx, hxs⟩⟩

theorem mapM_perm {f : α → Except ε β} {xs xs' : List α} {ys : List β} (h : xs.mapM f = .ok ys)
    (hperm : xs'.Perm xs) : ∃ ys', xs'.mapM f = .ok ys' ∧ ys'.Perm ys := by
  rcases List.perm_comp_forall₂ hperm (mapM_eq_ok.mp h) with ⟨ys', hys', hperm'⟩
  exact ⟨ys', mapM_eq_ok.mpr hys', hperm'⟩

end Except

namespace Option

variable {α β : Type}

theorem mapM_eq_some {f : α → Option β} {xs : List α} {ys : List β}
    : xs.mapM f = some ys ↔ List.Forall₂ (fun x y => f x = some y) xs ys := by
  induction xs generalizing ys with
  | nil => simp [eq_comm]
  | cons x xs ih =>
    simp only [List.mapM_cons, Option.bind_eq_bind, Option.bind_eq_some_iff, ih, Option.pure_def,
      Option.some.injEq, List.forall₂_cons_left_iff]
    constructor
    . rintro ⟨y, hy, ys, hys, rfl⟩
      exact ⟨y, ys, hy, hys, rfl⟩
    . rintro ⟨y, ys, hy, hys, rfl⟩
      exact ⟨y, hy, ys, hys, rfl⟩

end Option

namespace List

variable {α β : Type}

theorem forall₂_imp_of_mem {R S : α → β → Prop} {xs : List α} {ys : List β} (h : Forall₂ R xs ys)
    (himp : ∀ x ∈ xs, ∀ y, R x y → S x y) : Forall₂ S xs ys := by
  induction h with
  | nil => exact .nil
  | cons hxy _ ih =>
    rw [forall_mem_cons] at himp
    exact .cons (himp.1 _ hxy) (ih himp.2)

theorem exists_of_mem_left {R : α → β → Prop} {xs : List α} {ys : List β} (h : Forall₂ R xs ys)
    {x : α} (hx : x ∈ xs) : ∃ y ∈ ys, R x y := by
  induction h with
  | nil => simp at hx
  | cons hxy _ ih =>
    rcases List.mem_cons.mp hx with rfl | hx
    . exact ⟨_, List.mem_cons_self, hxy⟩
    . rcases ih hx with ⟨y, hy, hr⟩
      exact ⟨y, List.mem_cons_of_mem _ hy, hr⟩

theorem exists_of_mem_right {R : α → β → Prop} {xs : List α} {ys : List β} (h : Forall₂ R xs ys)
    {y : β} (hy : y ∈ ys) : ∃ x ∈ xs, R x y :=
  exists_of_mem_left h.flip hy

theorem forall₂_congr_of_mem {R S : α → β → Prop} {xs : List α} {ys : List β}
    (h : ∀ x ∈ xs, ∀ y, R x y ↔ S x y) : Forall₂ R xs ys ↔ Forall₂ S xs ys := by
  induction xs generalizing ys with
  | nil => simp
  | cons x xs ih =>
    rw [forall_mem_cons] at h
    simp only [forall₂_cons_left_iff, h.1, ih h.2]

theorem forall₂_zipIdx {R : α → β → Prop} {xs : List α} {ys : List β} (h : Forall₂ R xs ys)
    (n : Nat)
    : Forall₂ (fun p q => R p.1 q.1 ∧ q.2 = p.2) (xs.zipIdx n) (ys.zipIdx n) := by
  induction h generalizing n with
  | nil => exact .nil
  | cons hxy _ ih => exact .cons ⟨hxy, rfl⟩ (ih (n + 1))

/--
Two loops over lists whose elements do the same.
-/
theorem foldlM_congr {ε σ : Type} {f : σ → α → Except ε σ} {g : σ → β → Except ε σ} {xs : List α}
    {ys : List β} (h : Forall₂ (fun x y => ∀ s, g s y = f s x) xs ys) (s : σ)
    : ys.foldlM g s = xs.foldlM f s := by
  induction h generalizing s with
  | nil => rfl
  | cons hxy _ ih =>
    rw [foldlM_cons, foldlM_cons, hxy]
    exact bind_congr ih

/--
The pairs of a list and what a function says about its elements.
-/
theorem mem_zip_iff {f : α → β → Prop} (hf : ∀ x y z, f x y → f x z → y = z) {xs : List α}
    {ys : List β} (h : Forall₂ f xs ys) {x : α} {y : β} : (x, y) ∈ xs.zip ys ↔ x ∈ xs ∧ f x y := by
  induction h with
  | nil => simp
  | cons hxy _ ih =>
    rw [List.zip_cons_cons, List.mem_cons, ih, List.mem_cons, Prod.mk.injEq]
    constructor
    . rintro (⟨rfl, rfl⟩ | ⟨hx, hr⟩)
      . exact ⟨Or.inl rfl, hxy⟩
      . exact ⟨Or.inr hx, hr⟩
    . rintro ⟨rfl | hx, hr⟩
      . exact Or.inl ⟨rfl, hf _ _ _ hr hxy⟩
      . exact Or.inr ⟨hx, hr⟩

end List
