import Mathlib.Order.Lattice
import Mathlib.Data.List.Basic

/-!
This module contains timelines: values with starting times, of which the one with the latest start
that has been reached is in force. Among equal starts the first one counts.
It also contains passes in which what comes later overrides what came before.
-/

namespace Timeline

variable {τ α : Type} [LinearOrder τ]

/--
A pass of which every step overrides what is there, or leaves it: the last value that is given
counts.
-/
theorem foldl_override {σ β : Type} {step : σ → α → σ} {said : α → Option β} (get : σ → Option β)
    (hstep : ∀ s x, get (step s x) = (said x).or (get s)) (xs : List α) (s : σ)
    : get (xs.foldl step s) = (xs.reverse.findSome? said).or (get s) := by
  induction xs generalizing s with
  | nil => rfl
  | cons x xs ih =>
    rw [List.foldl_cons, ih, hstep, List.reverse_cons, List.findSome?_append, Option.or_assoc]
    simp

/--
The first of the greatest values.
-/
def maxBy? (key : α → τ) : List α → Option α
  | [] => none
  | x :: xs => some (xs.foldl (fun best y => if key best < key y then y else best) x)

/--
What is in force at a time.
-/
def inForce (start : α → τ) (time : τ) (xs : List α) : Option α :=
  maxBy? start (xs.filter fun x => start x ≤ time)

/--
`x` stands between values of which the earlier ones are less, and the later ones not greater.
-/
def Leads (key : α → τ) (x : α) (xs : List α) : Prop :=
  ∃ pre post, xs = pre ++ x :: post ∧ (∀ y ∈ pre, key y < key x) ∧ ∀ y ∈ post, key y ≤ key x

theorem leads_foldl (key : α → τ) (x : α) (xs : List α)
    : Leads key (xs.foldl (fun best y => if key best < key y then y else best) x) (x :: xs) := by
  induction xs generalizing x with
  | nil => exact ⟨[], [], rfl, by simp, by simp⟩
  | cons y ys ih =>
    rw [List.foldl_cons]
    split
    . next hlt =>
      rcases ih y with ⟨pre, post, hsplit, hpre, hpost⟩
      generalize ys.foldl (fun best y => if key best < key y then y else best) y = m at *
      refine ⟨x :: pre, post, by rw [hsplit]; rfl, ?_, hpost⟩
      intro z hz
      rcases List.mem_cons.mp hz with rfl | hz
      . cases pre with
        | nil =>
          rw [List.nil_append, List.cons.injEq] at hsplit
          rw [← hsplit.1]
          exact hlt
        | cons w pre =>
          rw [List.cons_append, List.cons.injEq] at hsplit
          exact hlt.trans (hpre y (by simp [hsplit.1]))
      . exact hpre z hz
    . next hle =>
      rcases ih x with ⟨pre, post, hsplit, hpre, hpost⟩
      generalize ys.foldl (fun best y => if key best < key y then y else best) x = m at *
      cases pre with
      | nil =>
        rw [List.nil_append, List.cons.injEq] at hsplit
        rcases hsplit with ⟨hx, hys⟩
        refine ⟨[], y :: ys, by rw [← hx]; rfl, by simp, ?_⟩
        intro z hz
        rcases List.mem_cons.mp hz with rfl | hz
        . rw [← hx]
          exact not_lt.mp hle
        . exact hpost z (hys ▸ hz)
      | cons w pre =>
        rw [List.cons_append, List.cons.injEq] at hsplit
        rcases hsplit with ⟨rfl, rfl⟩
        refine ⟨x :: y :: pre, post, rfl, ?_, hpost⟩
        intro z hz
        rcases List.mem_cons.mp hz with rfl | hz
        . exact hpre z List.mem_cons_self
        . rcases List.mem_cons.mp hz with rfl | hz
          . exact (not_lt.mp hle).trans_lt (hpre x List.mem_cons_self)
          . exact hpre z (List.mem_cons_of_mem _ hz)

theorem Leads.unique {key : α → τ} {x y : α} {xs : List α} (hx : Leads key x xs)
    (hy : Leads key y xs) : x = y := by
  rcases hx with ⟨pre, post, rfl, hpre, hpost⟩
  rcases hy with ⟨pre', post', hsplit, hpre', hpost'⟩
  rcases List.append_eq_append_iff.mp hsplit with ⟨as, rfl, has⟩ | ⟨as, rfl, has⟩
  . cases as with
    | nil => exact (List.cons.inj has).1
    | cons a as =>
      rcases List.cons.inj has with ⟨rfl, rfl⟩
      have hlt := hpre' x (by simp)
      have hle := hpost y (by simp)
      exact absurd hlt hle.not_gt
  . cases as with
    | nil => exact (List.cons.inj has).1.symm
    | cons a as =>
      rcases List.cons.inj has with ⟨rfl, rfl⟩
      have hlt := hpre y (by simp)
      have hle := hpost' x (by simp)
      exact absurd hlt hle.not_gt

theorem maxBy?_eq_some {key : α → τ} {x : α} {xs : List α}
    : maxBy? key xs = some x ↔ Leads key x xs := by
  cases xs with
  | nil =>
    simp [maxBy?, Leads]
  | cons y ys =>
    have hleads := leads_foldl key y ys
    rw [maxBy?, Option.some.injEq]
    constructor
    . rintro rfl
      exact hleads
    . exact hleads.unique

/--
The value in force: its start is reached, an earlier value that has started started before it, and a
later one not after it.
-/
theorem inForce_eq_some {start : α → τ} {time : τ} {x : α} {xs : List α}
    : inForce start time xs = some x ↔
        ∃ pre post, xs = pre ++ x :: post ∧ start x ≤ time ∧
          (∀ y ∈ pre, start y ≤ time → start y < start x) ∧
          ∀ y ∈ post, start y ≤ time → start y ≤ start x := by
  rw [inForce, maxBy?_eq_some]
  constructor
  . rintro ⟨pre, post, hsplit, hpre, hpost⟩
    rcases List.filter_eq_append_iff.mp hsplit with ⟨as, bs, rfl, has, hbs⟩
    rcases List.filter_eq_cons_iff.mp hbs with ⟨cs, ds, rfl, hcs, hx, hds⟩
    refine ⟨as ++ cs, ds, by simp, by simpa using hx, ?_, ?_⟩
    . intro y hy htime
      rcases List.mem_append.mp hy with hy | hy
      . exact hpre y (has ▸ List.mem_filter.mpr ⟨hy, by simpa using htime⟩)
      . exact absurd (by simpa using htime) (hcs y hy)
    . intro y hy htime
      exact hpost y (hds ▸ List.mem_filter.mpr ⟨hy, by simpa using htime⟩)
  . rintro ⟨pre, post, rfl, hx, hpre, hpost⟩
    refine ⟨_, _, by rw [List.filter_append, List.filter_cons_of_pos (by simpa using hx)], ?_, ?_⟩
    . intro y hy
      rcases List.mem_filter.mp hy with ⟨hy, htime⟩
      exact hpre y hy (by simpa using htime)
    . intro y hy
      rcases List.mem_filter.mp hy with ⟨hy, htime⟩
      exact hpost y hy (by simpa using htime)

/--
What is in force changes only at a start.
-/
theorem inForce_congr {start : α → τ} {time time' : τ} {xs : List α} (hle : time ≤ time')
    (h : ∀ x ∈ xs, start x ≤ time' → start x ≤ time)
    : inForce start time xs = inForce start time' xs := by
  have hfilter : xs.filter (fun x => start x ≤ time) = xs.filter fun x => start x ≤ time' := by
    apply List.filter_congr
    intro x hx
    simp only [decide_eq_decide]
    exact ⟨fun hstart => hstart.trans hle, h x hx⟩
  rw [inForce, inForce, hfilter]

end Timeline
