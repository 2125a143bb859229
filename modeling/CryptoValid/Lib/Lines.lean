import Mathlib.Data.List.Basic

/-!
This module contains the lines of a file: pieces that end after a terminator, except for the last one
that may lack it.
-/

namespace Lines

section

variable {α : Type} [DecidableEq α] (nl : α)

/--
The lines with their terminators.
-/
def split : List α → List (List α)
  | [] => []
  | c :: s =>
    if c = nl then
      [c] :: split s
    else
      match split s with
      | [] => [[c]]
      | line :: lines => (c :: line) :: lines

@[simp]
theorem split_nil : split nl ([] : List α) = [] := rfl

theorem split_cons_nl (s : List α) : split nl (nl :: s) = [nl] :: split nl s := by
  simp [split]

/--
A line and its terminator are the first line.
-/
theorem split_append_nl (line s : List α) (h : nl ∉ line)
    : split nl (line ++ nl :: s) = (line ++ [nl]) :: split nl s := by
  induction line with
  | nil => exact split_cons_nl nl s
  | cons c line ih =>
    rw [List.mem_cons, not_or] at h
    rw [List.cons_append, split, if_neg (Ne.symm h.1), ih h.2]
    rfl

/--
What has no terminator is one line.
-/
theorem split_of_not_mem (line : List α) (hne : line ≠ []) (h : nl ∉ line)
    : split nl line = [line] := by
  induction line with
  | nil => exact absurd rfl hne
  | cons c line ih =>
    rw [List.mem_cons, not_or] at h
    rw [split, if_neg (Ne.symm h.1)]
    cases line with
    | nil => rfl
    | cons d line => rw [ih (by simp) h.2]

theorem flatten_split (s : List α) : (split nl s).flatten = s := by
  induction s with
  | nil => rfl
  | cons c s ih =>
    rw [split]
    split
    . simp [ih]
    . split
      . next hnil =>
        rw [hnil] at ih
        simp [← ih]
      . next line lines hcons =>
        rw [hcons] at ih
        simp [← ih]

/--
What comes after a terminator starts a line of its own.
-/
theorem split_append_of_terminated (a b : List α) (h : a = [] ∨ a.getLast? = some nl)
    : split nl (a ++ b) = split nl a ++ split nl b := by
  induction a with
  | nil => rfl
  | cons c a ih =>
    have hlast : (c :: a).getLast? = some nl := by simpa using h
    cases a with
    | nil =>
      rw [List.getLast?_singleton, Option.some.injEq] at hlast
      rw [hlast]
      simp [split]
    | cons d a =>
      have ih := ih (Or.inr (by rwa [List.getLast?_cons_cons] at hlast))
      by_cases hc : c = nl
      . rw [hc, List.cons_append, split_cons_nl, split_cons_nl, ih]
        rfl
      . rw [List.cons_append, split, if_neg hc, ih, split.eq_def nl (c :: d :: a)]
        dsimp only
        rw [if_neg hc]
        cases hsplit : split nl (d :: a) with
        | nil =>
          have hflat := flatten_split nl (d :: a)
          rw [hsplit] at hflat
          simp at hflat
        | cons line lines => rfl

/--
The text is a line with its terminator and what is after it, or one last line, or nothing.
-/
theorem cases_split (s : List α)
    : s = [] ∨ (s ≠ [] ∧ nl ∉ s) ∨ ∃ line rest, nl ∉ line ∧ s = line ++ nl :: rest := by
  induction s with
  | nil => exact Or.inl rfl
  | cons c s ih =>
    by_cases hc : c = nl
    . exact Or.inr (Or.inr ⟨[], s, by simp, by simp [hc]⟩)
    . rcases ih with rfl | ⟨_, hnot⟩ | ⟨line, rest, hnot, rfl⟩
      . exact Or.inr (Or.inl ⟨by simp, by simp [Ne.symm hc]⟩)
      . exact Or.inr (Or.inl ⟨by simp, by simp [Ne.symm hc, hnot]⟩)
      . exact Or.inr (Or.inr ⟨c :: line, rest, by simp [Ne.symm hc, hnot], by simp⟩)

/--
Only the last line may lack its terminator.
-/
theorem split_eq_append (s : List α)
    : ∃ lines last, split nl s = lines ++ last ∧ (∀ line ∈ lines, line.getLast? = some nl) ∧
        (last = [] ∨ ∃ torn, last = [torn] ∧ torn ≠ [] ∧ nl ∉ torn) := by
  induction hn : s.length using Nat.strongRecOn generalizing s with
  | _ n ih =>
    rcases cases_split nl s with rfl | ⟨hne, hnot⟩ | ⟨line, rest, hnot, rfl⟩
    . exact ⟨[], [], rfl, by simp, Or.inl rfl⟩
    . exact ⟨[], [s], split_of_not_mem nl s hne hnot, by simp, Or.inr ⟨s, rfl, hne, hnot⟩⟩
    . have hlt : rest.length < n := by
        rw [← hn, List.length_append, List.length_cons]
        omega
      rcases ih _ hlt rest rfl with ⟨lines, last, heq, hlines, hlast⟩
      refine ⟨(line ++ [nl]) :: lines, last, ?_, ?_, hlast⟩
      . rw [split_append_nl nl line rest hnot, heq, List.cons_append]
      . rw [List.forall_mem_cons]
        exact ⟨by simp, hlines⟩

/--
The terminator ends a line, it is nowhere else in it.
-/
theorem not_mem_dropLast_of_mem_split {s line : List α} (h : line ∈ split nl s)
    : nl ∉ line.dropLast := by
  induction hn : s.length using Nat.strongRecOn generalizing s with
  | _ n ih =>
    rcases cases_split nl s with rfl | ⟨hne, hnot⟩ | ⟨first, rest, hnot, rfl⟩
    . simp at h
    . rw [split_of_not_mem nl s hne hnot, List.mem_singleton] at h
      rw [h]
      exact fun hmem => hnot ((List.dropLast_sublist s).mem hmem)
    . have hlt : rest.length < n := by
        rw [← hn, List.length_append, List.length_cons]
        omega
      rw [split_append_nl nl first rest hnot] at h
      rcases List.mem_cons.mp h with rfl | h
      . rwa [List.dropLast_concat]
      . exact ih _ hlt h rfl

theorem exists_terminated_append (s : List α)
    : ∃ a b, s = a ++ b ∧ (a = [] ∨ a.getLast? = some nl) ∧ nl ∉ b := by
  induction s with
  | nil => exact ⟨[], [], rfl, Or.inl rfl, by simp⟩
  | cons c s ih =>
    rcases ih with ⟨a, b, rfl, ha, hb⟩
    cases a with
    | nil =>
      by_cases hc : c = nl
      . exact ⟨[c], b, rfl, Or.inr (by simp [hc]), hb⟩
      . exact ⟨[], c :: b, rfl, Or.inl rfl, by simp [Ne.symm hc, hb]⟩
    | cons d a =>
      refine ⟨c :: d :: a, b, rfl, Or.inr ?_, hb⟩
      rw [List.getLast?_cons_cons]
      simpa using ha

/--
What has no terminator in it is inside of one line.
-/
theorem split_around (u core v : List α) (hne : core ≠ []) (hnot : nl ∉ core)
    : ∃ before a b after, split nl (u ++ (core ++ v)) = before ++ (a ++ (core ++ b)) :: after ∧
        u = before.flatten ++ a ∧ v = b ++ after.flatten ∧
        (after = [] ∨ b.getLast? = some nl) := by
  rcases exists_terminated_append nl u with ⟨u, a, rfl, hu, ha⟩
  rw [List.append_assoc, split_append_of_terminated nl _ _ hu]
  have hflat := flatten_split nl u
  have hline : ∀ b, nl ∉ b → nl ∉ a ++ (core ++ b) := by
    intro b hb
    simp [ha, hnot, hb]
  by_cases hv : nl ∈ v
  . rcases cases_split nl v with rfl | ⟨_, hv'⟩ | ⟨b, rest, hb, rfl⟩
    . simp at hv
    . exact absurd hv hv'
    . refine ⟨split nl u, a, b ++ [nl], split nl rest, ?_, by rw [hflat], ?_, Or.inr (by simp)⟩
      . have heq : a ++ (core ++ (b ++ nl :: rest)) = (a ++ (core ++ b)) ++ nl :: rest := by simp
        rw [heq, split_append_nl nl _ _ (hline b hb)]
        simp
      . rw [flatten_split]
        simp
  . refine ⟨split nl u, a, v, [], ?_, by rw [hflat], by simp, Or.inl rfl⟩
    rw [split_of_not_mem nl _ (by simp [hne]) (hline v hv)]

end

end Lines
