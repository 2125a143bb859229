import Mathlib.Logic.Basic

/-!
This module contains programs that are sequences of system calls, and a logic for them. It speaks of
the end of a program and of every state on the way, since a program may be cut off after any call.
-/

namespace Calls

/--
What a program comes to: its result, the state after it, and the states after each of its calls.
-/
structure Outcome (σ ε α : Type) where
  result : Except ε α
  final : σ
  passed : List σ

def Prog (σ ε α : Type) : Type := σ → Outcome σ ε α

variable {σ ε α β : Type}

namespace Prog

def pure (a : α) : Prog σ ε α := fun s => ⟨.ok a, s, []⟩

def throw (e : ε) : Prog σ ε α := fun s => ⟨.error e, s, []⟩

/--
One system call.
-/
def call (step : σ → Except ε α × σ) : Prog σ ε α := fun s =>
  ⟨(step s).1, (step s).2, [(step s).2]⟩

/--
The second program goes on with the result of the first one, whatever it is.
-/
def andThen (p : Prog σ ε α) (next : Except ε α → Prog σ ε β) : Prog σ ε β := fun s =>
  let second := next (p s).result (p s).final
  ⟨second.result, second.final, (p s).passed ++ second.passed⟩

def bind (p : Prog σ ε α) (next : α → Prog σ ε β) : Prog σ ε β :=
  p.andThen fun
    | .ok a => next a
    | .error e => throw e

/--
`try: p except e: handler e`
-/
def tryCatch (p : Prog σ ε α) (handler : ε → Prog σ ε α) : Prog σ ε α :=
  p.andThen fun
    | .ok a => pure a
    | .error e => handler e

/--
`try: p finally: last`: an exception of the last part takes the place of the result.
-/
def tryFinally (p : Prog σ ε α) (last : Prog σ ε Unit) : Prog σ ε α :=
  p.andThen fun result => last.andThen fun
    | .ok () => fun s => ⟨result, s, []⟩
    | .error e => throw e

instance : Monad (Prog σ ε) where
  pure := pure
  bind := bind

theorem bind_of_ok {p : Prog σ ε α} {s : σ} {a : α} (h : (p s).result = .ok a)
    (next : α → Prog σ ε β)
    : (p >>= next) s = ⟨(next a (p s).final).result, (next a (p s).final).final,
        (p s).passed ++ (next a (p s).final).passed⟩ := by
  simp only [Bind.bind, bind, andThen, h]

theorem bind_of_error {p : Prog σ ε α} {s : σ} {e : ε} (h : (p s).result = .error e)
    (next : α → Prog σ ε β)
    : (p >>= next) s = ⟨.error e, (p s).final, (p s).passed⟩ := by
  simp only [Bind.bind, bind, andThen, h, throw, List.append_nil]

end Prog

/--
From a state with `pre` the program passes states with `during` only, and ends with `post`.
-/
def Triple (pre : σ → Prop) (p : Prog σ ε α) (during : σ → Prop) (post : Except ε α → σ → Prop)
    : Prop :=
  ∀ s, pre s → (∀ t ∈ (p s).passed, during t) ∧ post (p s).result (p s).final

namespace Triple

variable {pre pre' during : σ → Prop} {post : Except ε α → σ → Prop}

theorem pure {a : α} (h : ∀ s, pre s → post (.ok a) s)
    : Triple pre (Pure.pure a : Prog σ ε α) during post :=
  fun s hs => ⟨by simp [Pure.pure, Prog.pure], h s hs⟩

theorem throw {e : ε} (h : ∀ s, pre s → post (.error e) s)
    : Triple pre (Prog.throw e : Prog σ ε α) during post :=
  fun s hs => ⟨by simp [Prog.throw], h s hs⟩

theorem call {step : σ → Except ε α × σ}
    (h : ∀ s, pre s → during (step s).2 ∧ post (step s).1 (step s).2)
    : Triple pre (Prog.call step) during post := by
  intro s hs
  refine ⟨?_, (h s hs).2⟩
  intro t ht
  rw [List.mem_singleton.mp ht]
  exact (h s hs).1

theorem andThen {p : Prog σ ε α} {next : Except ε α → Prog σ ε β} (mid : Except ε α → σ → Prop)
    {post : Except ε β → σ → Prop} (hp : Triple pre p during mid)
    (hnext : ∀ r, Triple (mid r) (next r) during post)
    : Triple pre (p.andThen next) during post := by
  intro s hs
  have hfirst := hp s hs
  have hsecond := hnext (p s).result (p s).final hfirst.2
  refine ⟨?_, hsecond.2⟩
  intro t ht
  rcases List.mem_append.mp ht with ht | ht
  . exact hfirst.1 t ht
  . exact hsecond.1 t ht

theorem bind {p : Prog σ ε α} {next : α → Prog σ ε β} (mid : α → σ → Prop)
    {post : Except ε β → σ → Prop}
    (hp : Triple pre p during fun
      | .ok a, s => mid a s
      | .error e, s => post (.error e) s)
    (hnext : ∀ a, Triple (mid a) (next a) during post)
    : Triple pre (p >>= next) during post := by
  refine andThen _ hp fun r => ?_
  cases r with
  | ok a => exact hnext a
  | error e => exact throw fun _ hs => hs

theorem tryCatch {p : Prog σ ε α} {handler : ε → Prog σ ε α} (mid : ε → σ → Prop)
    (hp : Triple pre p during fun
      | .ok a, s => post (.ok a) s
      | .error e, s => mid e s)
    (hhandler : ∀ e, Triple (mid e) (handler e) during post)
    : Triple pre (p.tryCatch handler) during post := by
  refine andThen _ hp fun r => ?_
  cases r with
  | ok a => exact pure fun _ hs => hs
  | error e => exact hhandler e

theorem tryFinally {p : Prog σ ε α} {last : Prog σ ε Unit} (mid : Except ε α → σ → Prop)
    (hp : Triple pre p during mid)
    (hlast : ∀ r, Triple (mid r) last during fun
      | .ok (), s => post r s
      | .error e, s => post (.error e) s)
    : Triple pre (p.tryFinally last) during post := by
  refine andThen mid hp fun r => andThen _ (hlast r) fun r' => ?_
  cases r' with
  | ok u => exact fun s hs => ⟨by simp, hs⟩
  | error e => exact throw fun _ hs => hs

theorem weaken {p : Prog σ ε α} {during' : σ → Prop} {post' : Except ε α → σ → Prop}
    (hp : Triple pre' p during' post') (hpre : ∀ s, pre s → pre' s)
    (hduring : ∀ s, during' s → during s) (hpost : ∀ r s, post' r s → post r s)
    : Triple pre p during post :=
  fun s hs => ⟨fun t ht => hduring t ((hp s (hpre s hs)).1 t ht),
    hpost _ _ (hp s (hpre s hs)).2⟩

theorem of_and {P : Prop} {p : Prog σ ε α} (h : P → Triple pre p during post)
    : Triple (fun s => P ∧ pre s) p during post :=
  fun s hs => h hs.1 s hs.2

theorem of_exists {ι : Type} {pre : ι → σ → Prop} {p : Prog σ ε α}
    (h : ∀ i, Triple (pre i) p during post) : Triple (fun s => ∃ i, pre i s) p during post := by
  rintro s ⟨i, hi⟩
  exact h i s hi

end Triple

end Calls
