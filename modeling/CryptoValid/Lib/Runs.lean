import Mathlib.Data.List.Infix

/-!
This module contains runs of a machine over a list of inputs, and the two ways to say something about
a run: of every step that is taken, and of every state that is reached.
-/

namespace Runs

variable (step : σ → ι → σ)

def run (s : σ) (inputs : List ι) : σ := inputs.foldl step s

@[simp]
theorem run_nil (s : σ) : run step s [] = s := rfl

@[simp]
theorem run_cons (s : σ) (i : ι) (inputs : List ι)
    : run step s (i :: inputs) = run step (step s i) inputs := rfl

theorem run_append (s : σ) (xs ys : List ι)
    : run step s (xs ++ ys) = run step (run step s xs) ys := by
  simp [run]

/--
`P` holds of every step: of the state before it and its input.
-/
def EachStep (P : σ → ι → Prop) (s : σ) (inputs : List ι) : Prop :=
  match inputs with
  | [] => True
  | i :: inputs => P s i ∧ EachStep P (step s i) inputs

/--
`Q` holds of every state that is reached, the first one included.
-/
def EachState (Q : σ → Prop) (s : σ) (inputs : List ι) : Prop :=
  ∀ pre, pre <+: inputs → Q (run step s pre)

variable {step}

/--
A machine that keeps more than another one runs like it.
-/
theorem map_run {step' : τ → ι → τ} (f : σ → τ) (h : ∀ s i, f (step s i) = step' (f s) i) (s : σ)
    (inputs : List ι) : f (run step s inputs) = run step' (f s) inputs := by
  induction inputs generalizing s with
  | nil => rfl
  | cons i inputs ih => rw [run_cons, run_cons, ih, h]

@[simp]
theorem eachStep_nil (P : σ → ι → Prop) (s : σ) : EachStep step P s [] := trivial

@[simp]
theorem eachStep_cons (P : σ → ι → Prop) (s : σ) (i : ι) (inputs : List ι)
    : EachStep step P s (i :: inputs) ↔ P s i ∧ EachStep step P (step s i) inputs := Iff.rfl

instance decidableEachStep (P : σ → ι → Prop) [∀ s i, Decidable (P s i)] (s : σ)
    (inputs : List ι) : Decidable (EachStep step P s inputs) :=
  match inputs with
  | [] => isTrue trivial
  | i :: inputs =>
    have := decidableEachStep P (step s i) inputs
    inferInstanceAs (Decidable (P s i ∧ EachStep step P (step s i) inputs))

theorem EachState.start {Q : σ → Prop} {s : σ} {inputs : List ι} (h : EachState step Q s inputs)
    : Q s := h [] List.nil_prefix

theorem eachState_cons (Q : σ → Prop) (s : σ) (i : ι) (inputs : List ι)
    : EachState step Q s (i :: inputs) ↔ Q s ∧ EachState step Q (step s i) inputs := by
  constructor
  . intro h
    refine ⟨h.start, ?_⟩
    intro pre hpre
    exact h (i :: pre) (List.cons_prefix_cons.mpr ⟨rfl, hpre⟩)
  . rintro ⟨hs, h⟩ pre hpre
    cases pre with
    | nil => exact hs
    | cons j pre =>
      rcases List.cons_prefix_cons.mp hpre with ⟨rfl, htail⟩
      exact h pre htail

/--
What one step preserves as long as it meets the condition holds of every state, and what follows for
the step holds of every step.
-/
theorem EachStep.invariant {C P : σ → ι → Prop} {Inv : σ → Prop}
    (hstep : ∀ s i, Inv s → C s i → P s i ∧ Inv (step s i))
    {s : σ} {inputs : List ι} (hinv : Inv s) (h : EachStep step C s inputs)
    : EachStep step P s inputs ∧ EachState step Inv s inputs := by
  induction inputs generalizing s with
  | nil =>
    refine ⟨trivial, ?_⟩
    intro pre hpre
    rw [List.prefix_nil.mp hpre]
    exact hinv
  | cons i inputs ih =>
    rcases hstep s i hinv h.1 with ⟨hp, hinv'⟩
    rcases ih hinv' h.2 with ⟨hsteps, hstates⟩
    exact ⟨⟨hp, hsteps⟩, (eachState_cons Inv s i inputs).mpr ⟨hinv, hstates⟩⟩

theorem EachState.mono {Q R : σ → Prop} (himp : ∀ s, Q s → R s) {s : σ} {inputs : List ι}
    (h : EachState step Q s inputs) : EachState step R s inputs :=
  fun pre hpre => himp _ (h pre hpre)

/--
What every step does by a preorder, a run does from any of its states to its end.
-/
theorem EachStep.related {R : σ → σ → Prop} (hrefl : ∀ s, R s s)
    (htrans : ∀ s t u, R s t → R t u → R s u) {s : σ} {inputs rest : List ι}
    (h : EachStep step (fun s i => R s (step s i)) s (inputs ++ rest))
    : R (run step s inputs) (run step s (inputs ++ rest)) := by
  induction inputs generalizing s with
  | cons i inputs ih => exact ih h.2
  | nil =>
    induction rest generalizing s with
    | nil => exact hrefl s
    | cons i rest ih => exact htrans _ _ _ h.1 (ih h.2)

end Runs
