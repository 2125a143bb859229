import Mathlib.Data.List.Dedup

/-!
This module contains the notion of a collision that soundness results fall back on: two different
members of a given finite list of messages with one digest. The list is always spelled out by the
result (the messages that were hashed to get there), so that a collision can be read off from it.
-/

/--
`f` maps two different messages of `msgs` to the same digest.
-/
def Collides (f : μ → δ) (msgs : List μ) : Prop :=
  ∃ a ∈ msgs, ∃ b ∈ msgs, a ≠ b ∧ f a = f b

namespace Collides

variable {f : μ → δ} {msgs msgs' : List μ}

instance [DecidableEq μ] [DecidableEq δ] : Decidable (Collides f msgs) :=
  inferInstanceAs (Decidable (∃ a ∈ msgs, ∃ b ∈ msgs, a ≠ b ∧ f a = f b))

theorem mono (h : Collides f msgs) (hsub : msgs ⊆ msgs') : Collides f msgs' := by
  rcases h with ⟨a, ha, b, hb, hne, heq⟩
  exact ⟨a, hsub ha, b, hsub hb, hne, heq⟩

theorem of_mem (ha : a ∈ msgs) (hb : b ∈ msgs) (hne : a ≠ b) (heq : f a = f b)
    : Collides f msgs :=
  ⟨a, ha, b, hb, hne, heq⟩

/--
The one step every soundness proof takes: equal digests come from equal messages, or from a
collision.
-/
theorem eq_or (ha : a ∈ msgs) (hb : b ∈ msgs) (heq : f a = f b) : a = b ∨ Collides f msgs := by
  by_cases hab : a = b
  . exact Or.inl hab
  . exact Or.inr (of_mem ha hb hab heq)

/--
No two digests are the same, so no two messages collide.
-/
theorem not_of_nodup_map (h : (msgs.map f).Nodup) : ¬Collides f msgs := by
  rintro ⟨a, ha, b, hb, hne, heq⟩
  exact hne (List.inj_on_of_nodup_map h ha hb heq)

end Collides

/--
Different messages, one of each list, have the same digest under two functions.
-/
def Clashes (f g : μ → δ) (msgs msgs' : List μ) : Prop :=
  ∃ a ∈ msgs, ∃ b ∈ msgs', a ≠ b ∧ f a = g b

namespace Clashes

variable {f g : μ → δ} {msgs msgs' : List μ}

theorem mono (h : Clashes f g msgs msgs') (hsub : msgs ⊆ ns) (hsub' : msgs' ⊆ ns')
    : Clashes f g ns ns' := by
  rcases h with ⟨a, ha, b, hb, hne, heq⟩
  exact ⟨a, hsub ha, b, hsub' hb, hne, heq⟩

theorem collides (h : Clashes f f msgs msgs') : Collides f (msgs ++ msgs') := by
  rcases h with ⟨a, ha, b, hb, hne, heq⟩
  exact Collides.of_mem (List.mem_append_left _ ha) (List.mem_append_right _ hb) hne heq

end Clashes
