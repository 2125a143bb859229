import Mathlib.Data.List.Basic

/-!
This module contains texts as pieces between separators, and texts that are cut at one place: at the
first separator, or at the last two separators in a row.
-/

namespace Separated

variable {α : Type} [DecidableEq α] (sep : α)

/--
The pieces between the separators, one more than there are separators.
-/
def split : List α → List (List α)
  | [] => [[]]
  | c :: s =>
    if c = sep then
      [] :: split s
    else
      match split s with
      | [] => [[c]]
      | piece :: pieces => (c :: piece) :: pieces

/--
Every piece with a separator after it.
-/
def terminated (pieces : List (List α)) : List α := pieces.flatMap (· ++ [sep])

@[simp]
theorem split_nil : split sep ([] : List α) = [[]] := rfl

theorem split_ne_nil (s : List α) : split sep s ≠ [] := by
  cases s with
  | nil => simp
  | cons c s =>
    unfold split
    split
    . simp
    . split <;> simp

omit [DecidableEq α] in
@[simp]
theorem terminated_nil : terminated sep ([] : List (List α)) = [] := rfl

omit [DecidableEq α] in
theorem terminated_cons (piece : List α) (pieces : List (List α))
    : terminated sep (piece :: pieces) = piece ++ sep :: terminated sep pieces := by
  simp [terminated]

omit [DecidableEq α] in
theorem terminated_append (xs ys : List (List α))
    : terminated sep (xs ++ ys) = terminated sep xs ++ terminated sep ys := by
  simp [terminated]

/--
One piece more than there are separators.
-/
theorem length_split (s : List α) : (split sep s).length = s.count sep + 1 := by
  induction s with
  | nil => rfl
  | cons c s ih =>
    unfold split
    split
    . next heq => rw [List.length_cons, ih, heq, List.count_cons_self]
    . next hne =>
      rw [List.count_cons_of_ne hne]
      split
      . next hnil => exact absurd hnil (split_ne_nil sep s)
      . next hcons =>
        rw [← ih, hcons]
        rfl

theorem split_append (piece s : List α) (h : sep ∉ piece)
    : split sep (piece ++ sep :: s) = piece :: split sep s := by
  induction piece with
  | nil => simp [split]
  | cons c piece ih =>
    rw [List.mem_cons, not_or] at h
    rw [List.cons_append, split, if_neg (Ne.symm h.1), ih h.2]

theorem split_of_not_mem (piece : List α) (h : sep ∉ piece) : split sep piece = [piece] := by
  induction piece with
  | nil => rfl
  | cons c piece ih =>
    rw [List.mem_cons, not_or] at h
    rw [split, if_neg (Ne.symm h.1), ih h.2]

theorem split_terminated (pieces : List (List α)) (h : ∀ piece ∈ pieces, sep ∉ piece)
    : split sep (terminated sep pieces) = pieces ++ [[]] := by
  induction pieces with
  | nil => rfl
  | cons piece pieces ih =>
    rw [List.forall_mem_cons] at h
    rw [terminated_cons, split_append sep _ _ h.1, ih h.2]
    rfl

theorem split_dropLast_terminated (pieces : List (List α)) (hne : pieces ≠ [])
    (h : ∀ piece ∈ pieces, sep ∉ piece) : split sep (terminated sep pieces).dropLast = pieces := by
  induction pieces with
  | nil => exact absurd rfl hne
  | cons piece pieces ih =>
    rw [List.forall_mem_cons] at h
    rw [terminated_cons]
    cases pieces with
    | nil =>
      rw [terminated_nil, List.dropLast_concat]
      exact split_of_not_mem sep piece h.1
    | cons next pieces =>
      have hrest : terminated sep (next :: pieces) ≠ [] := by simp [terminated_cons]
      rw [List.dropLast_append_of_ne_nil (by simp), List.dropLast_cons_of_ne_nil hrest,
        split_append sep _ _ h.1, ih (by simp) h.2]

/--
The last piece ends where the text ends.
-/
theorem terminated_split (s : List α) : terminated sep (split sep s) = s ++ [sep] := by
  induction s with
  | nil => rfl
  | cons c s ih =>
    unfold split
    split
    . next hc => rw [terminated_cons, ih, hc, List.nil_append, List.cons_append]
    . split
      . next hnil => exact absurd hnil (split_ne_nil sep s)
      . next piece pieces hsplit =>
        rw [hsplit, terminated_cons] at ih
        rw [terminated_cons, List.cons_append, ih, List.cons_append]

theorem not_mem_of_mem_split {s piece : List α} (h : piece ∈ split sep s) : sep ∉ piece := by
  induction s generalizing piece with
  | nil => simp_all
  | cons c s ih =>
    unfold split at h
    split at h
    . rcases List.mem_cons.mp h with rfl | h
      . simp
      . exact ih h
    . next hc =>
      split at h
      . next hnil => exact absurd hnil (split_ne_nil sep s)
      . next first rest hsplit =>
        rw [hsplit] at ih
        rcases List.mem_cons.mp h with rfl | h
        . rw [List.mem_cons, not_or]
          exact ⟨Ne.symm hc, ih List.mem_cons_self⟩
        . exact ih (List.mem_cons_of_mem _ h)

/-!
### Cuts
-/

/--
What is before and after the first separator.
-/
def cut? : List α → Option (List α × List α)
  | [] => none
  | c :: s => if c = sep then some ([], s) else (cut? s).map fun (before, after) => (c :: before, after)

theorem cut?_append (piece s : List α) (h : sep ∉ piece)
    : cut? sep (piece ++ sep :: s) = some (piece, s) := by
  induction piece with
  | nil => simp [cut?]
  | cons c piece ih =>
    rw [List.mem_cons, not_or] at h
    rw [List.cons_append, cut?, if_neg (Ne.symm h.1), ih h.2]
    rfl

/--
What is before and after the first two separators in a row.
-/
def cutPair? : List α → Option (List α × List α)
  | [] => none
  | c :: s =>
    if c = sep ∧ s.head? = some sep then some ([], s.tail)
    else (cutPair? s).map fun (before, after) => (c :: before, after)

theorem cutPair?_eq_some {s before after : List α} (h : cutPair? sep s = some (before, after))
    : s = before ++ sep :: sep :: after := by
  induction s generalizing before after with
  | nil => simp [cutPair?] at h
  | cons c s ih =>
    unfold cutPair? at h
    split at h
    . next hpair =>
      simp only [Option.some.injEq, Prod.mk.injEq] at h
      rw [← h.1, ← h.2, hpair.1]
      cases s with
      | nil => simp at hpair
      | cons d s =>
        have hd : d = sep := by simpa using hpair.2
        rw [hd]
        rfl
    . rcases Option.map_eq_some_iff.mp h with ⟨⟨b, a⟩, hcut, heq⟩
      simp only [Prod.mk.injEq] at heq
      rw [← heq.1, ← heq.2, ih hcut]
      rfl

theorem cutPair?_append_of_not_mem (piece s : List α) (h : sep ∉ piece)
    : cutPair? sep (piece ++ s) = (cutPair? sep s).map fun (b, a) => (piece ++ b, a) := by
  induction piece with
  | nil =>
    rw [List.nil_append]
    cases cutPair? sep s <;> rfl
  | cons c piece ih =>
    rw [List.mem_cons, not_or] at h
    rw [List.cons_append, cutPair?, if_neg (fun hpair => h.1 hpair.1.symm), ih h.2, Option.map_map]
    rfl

/--
The first empty piece ends the pieces before it.
-/
theorem cutPair?_terminated (pieces : List (List α)) (hne : pieces ≠ [])
    (h : ∀ piece ∈ pieces, piece ≠ [] ∧ sep ∉ piece) (rest : List α)
    : cutPair? sep (terminated sep pieces ++ sep :: rest)
        = some ((terminated sep pieces).dropLast, rest) := by
  induction pieces with
  | nil => exact absurd rfl hne
  | cons piece pieces ih =>
    rw [List.forall_mem_cons] at h
    cases pieces with
    | nil =>
      rw [terminated_cons, terminated_nil, List.append_assoc,
        cutPair?_append_of_not_mem sep _ _ h.1.2, List.dropLast_concat]
      simp [cutPair?]
    | cons next pieces =>
      have hterminated : terminated sep (next :: pieces) ≠ [] := by simp [terminated_cons]
      have hhead : (terminated sep (next :: pieces) ++ sep :: rest).head? ≠ some sep := by
        rcases List.exists_cons_of_ne_nil (h.2 next List.mem_cons_self).1 with ⟨c, cs, hcons⟩
        rw [terminated_cons, hcons]
        intro hc
        have hmem := (h.2 next List.mem_cons_self).2
        rw [hcons, List.mem_cons, not_or] at hmem
        exact hmem.1 (Option.some.inj hc).symm
      rw [terminated_cons, List.append_assoc, cutPair?_append_of_not_mem sep _ _ h.1.2,
        List.cons_append, cutPair?,
        if_neg (fun hpair => hhead hpair.2), ih (by simp) h.2,
        List.dropLast_append_of_ne_nil (by simp), List.dropLast_cons_of_ne_nil hterminated]
      rfl

/--
What is before and after the last two separators in a row.
-/
def cutLastPair? : List α → Option (List α × List α)
  | [] => none
  | c :: s =>
    match cutLastPair? s with
    | some (before, after) => some (c :: before, after)
    | none => if c = sep ∧ s.head? = some sep then some ([], s.tail) else none

theorem cutLastPair?_eq_some {s before after : List α}
    (h : cutLastPair? sep s = some (before, after)) : s = before ++ sep :: sep :: after := by
  induction s generalizing before after with
  | nil => simp [cutLastPair?] at h
  | cons c s ih =>
    unfold cutLastPair? at h
    split at h
    . next b a hcut =>
      simp only [Option.some.injEq, Prod.mk.injEq] at h
      rw [← h.1, ← h.2, ih hcut]
      rfl
    . split at h
      . next hpair =>
        simp only [Option.some.injEq, Prod.mk.injEq] at h
        rw [← h.1, ← h.2, hpair.1]
        cases s with
        | nil => simp at hpair
        | cons d s =>
          have hd : d = sep := by simpa using hpair.2
          rw [hd]
          rfl
      . simp at h

theorem cutLastPair?_append (before after : List α) (h : cutLastPair? sep (sep :: after) = none)
    : cutLastPair? sep (before ++ sep :: sep :: after) = some (before, after) := by
  induction before with
  | nil =>
    rw [List.nil_append]
    unfold cutLastPair?
    rw [h]
    simp
  | cons c before ih =>
    rw [List.cons_append]
    unfold cutLastPair?
    rw [ih]

theorem cutLastPair?_append_none (piece s : List α) (hpiece : sep ∉ piece)
    (h : cutLastPair? sep s = none) : cutLastPair? sep (piece ++ s) = none := by
  induction piece with
  | nil => exact h
  | cons c piece ih =>
    rw [List.mem_cons, not_or] at hpiece
    rw [List.cons_append]
    unfold cutLastPair?
    rw [ih hpiece.2]
    simp [Ne.symm hpiece.1]

/--
There is no empty piece between two others.
-/
theorem cutLastPair?_terminated (pieces : List (List α))
    (h : ∀ piece ∈ pieces, piece ≠ [] ∧ sep ∉ piece)
    : cutLastPair? sep (sep :: terminated sep pieces) = none := by
  induction pieces with
  | nil => simp [cutLastPair?]
  | cons piece pieces ih =>
    rw [List.forall_mem_cons] at h
    rcases h with ⟨⟨hne, hpiece⟩, hrest⟩
    rw [terminated_cons]
    unfold cutLastPair?
    rw [cutLastPair?_append_none sep _ _ hpiece (ih hrest)]
    cases piece with
    | nil => exact absurd rfl hne
    | cons c piece =>
      rw [List.mem_cons, not_or] at hpiece
      simp [Ne.symm hpiece.1]

end Separated
