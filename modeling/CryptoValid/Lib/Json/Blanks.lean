import CryptoValid.Lib.Json.Simulation
import Mathlib.Data.List.DropRight

/-!
This module contains what becomes of a text with something around it: blanks do not count, and
nothing else can come after a value.
-/

namespace Json

variable {ε ε' : Type} {H : Hooks ε} {H' : Hooks ε'} {v : Json} {s t : Str}

theorem simulates_eq : Simulates Eq where
  cons := by
    rintro c s _ rfl _
    exact ⟨s, rfl, rfl⟩
  skip := by
    rintro s _ rfl _
    rfl
  ends := by
    intro s s' h hs c hc
    rw [← h] at hc
    exact isBreak_of_isSpace (isSpace_of_isLayout (hs c hc))

theorem skipSpace_append_of_ne_nil (h : skipSpace s ≠ []) (t : Str)
    : skipSpace (s ++ t) = skipSpace s ++ t := by
  rw [skipSpace] at h
  rw [skipSpace, List.dropWhile_append, skipSpace]
  simp [h]

/--
A text to which something is appended that no token goes on with.
-/
theorem simulates_append (ht : Breaks t) : Simulates fun s s' => s' = s ++ t where
  cons := by
    rintro c s _ rfl _
    exact ⟨s ++ t, rfl, rfl⟩
  skip := by
    rintro s _ rfl hne
    exact skipSpace_append_of_ne_nil hne t
  ends := by
    rintro s _ rfl hs
    cases s with
    | nil => exact ht
    | cons c s => simpa using isBreak_of_isSpace (isSpace_of_isLayout (hs c (by simp)))

/--
After a line feed anything may be appended.
-/
theorem simulates_append_layout (t : Str)
    : Simulates fun s s' => (∃ l, s.getLast? = some l ∧ isLayout l = true) ∧ s' = s ++ t where
  cons := by
    rintro c s _ ⟨⟨l, hl, hlayout⟩, rfl⟩ hc
    refine ⟨s ++ t, rfl, ⟨l, ?_, hlayout⟩, rfl⟩
    cases s with
    | nil =>
      rw [List.getLast?_singleton, Option.some.injEq] at hl
      rw [hl, hlayout] at hc
      simp at hc
    | cons d s => rwa [List.getLast?_cons_cons] at hl
  skip := by
    rintro s _ ⟨⟨l, hl, hlayout⟩, rfl⟩ hne
    refine ⟨⟨l, ?_, hlayout⟩, skipSpace_append_of_ne_nil hne t⟩
    rcases List.dropWhile_suffix isSpace (l := s) with ⟨w, hw⟩
    have hlast : (w ++ skipSpace s).getLast? = some l := by
      rw [skipSpace, hw]
      exact hl
    rw [List.getLast?_append, List.getLast?_eq_some_getLast hne] at hlast
    rw [List.getLast?_eq_some_getLast hne]
    exact hlast
  ends := by
    rintro s _ ⟨⟨l, hl, _⟩, rfl⟩ hs
    cases s with
    | nil => simp at hl
    | cons c s => simpa using isBreak_of_isSpace (isSpace_of_isLayout (hs c (by simp)))

/--
A text that is loaded on the left is scanned on the right, and what is left over are blanks.
-/
theorem Simulates.loads {R : Str → Str → Prop} (hR : Simulates R) (hH : H.Refines H') {s s' : Str}
    (h : R s s') (hload : Json.loads H s = .ok v)
    : ∃ rest rest', R rest rest' ∧ skipSpace rest = [] ∧
        scanValue H' (s'.length + 1) H'.maxDepth (skipSpace s') = .ok (v, rest') := by
  rcases Except.bind_eq_ok.mp hload with ⟨⟨w, rest⟩, hw, hload⟩
  have hne : skipSpace s ≠ [] := by
    intro hnil
    rw [hnil, scanValue_nil] at hw
    simp at hw
  rcases (hR.scan hH _).1 _ _ _ _ _ _ hH.maxDepth (hR.skip h hne) hw with ⟨rest', hrest, _, hok⟩
  have hle : (skipSpace s').length ≤ s'.length := (List.dropWhile_suffix _).length_le
  simp only at hload
  split at hload
  . next hempty =>
    rw [Except.pure_eq_ok] at hload
    subst hload
    exact ⟨rest, rest', hrest, List.isEmpty_iff.mp hempty, hok _ (by omega)⟩
  . simp at hload

theorem loads_of_scanValue {rest : Str}
    (hscan : scanValue H (s.length + 1) H.maxDepth (skipSpace s) = .ok (v, rest))
    (hrest : skipSpace rest = []) : loads H s = .ok v := by
  rw [loads, hscan, Except.ok_bind]
  simp only [hrest, List.isEmpty_nil, ↓reduceIte]
  rfl

/--
A user that accepts more loads the same value.
-/
theorem loads_refines (hH : H.Refines H') (h : loads H s = .ok v) : loads H' s = .ok v := by
  rcases simulates_eq.loads hH rfl h with ⟨rest, _, rfl, hnil, hscan⟩
  exact loads_of_scanValue hscan hnil

theorem skipSpace_eq_nil : skipSpace s = [] ↔ s.all isSpace = true := by
  rw [skipSpace, List.dropWhile_eq_nil_iff, List.all_eq_true]

theorem breaks_of_blanks (h : s.all isSpace = true) : Breaks s := by
  intro c hc
  exact isBreak_of_isSpace (List.all_eq_true.mp h c (List.mem_of_mem_head? hc))

theorem loads_append_blanks {blanks : Str} (hblanks : blanks.all isSpace = true)
    (h : loads H s = .ok v) : loads H (s ++ blanks) = .ok v := by
  rcases (simulates_append (breaks_of_blanks hblanks)).loads (Hooks.Refines.refl H) rfl h with
    ⟨rest, _, rfl, hnil, hscan⟩
  refine loads_of_scanValue hscan ?_
  rw [skipSpace_eq_nil] at hnil ⊢
  rw [List.all_append, hnil, hblanks, Bool.and_true]

theorem skipSpace_blanks_append {blanks : Str} (hblanks : blanks.all isSpace = true) (s : Str)
    : skipSpace (blanks ++ s) = skipSpace s := by
  rw [List.all_eq_true] at hblanks
  rw [skipSpace, List.dropWhile_append_of_pos hblanks, skipSpace]

theorem loads_blanks_append {blanks : Str} (hblanks : blanks.all isSpace = true)
    (h : loads H s = .ok v) : loads H (blanks ++ s) = .ok v := by
  rcases Except.bind_eq_ok.mp h with ⟨⟨w, rest⟩, hw, h⟩
  rcases (simulates_eq.scan (Hooks.Refines.refl H) _).1 _ _ _ _ _ _ (Nat.le_refl _) rfl hw with
    ⟨_, rfl, _, hok⟩
  have hle : (skipSpace s).length ≤ s.length := (List.dropWhile_suffix _).length_le
  rw [loads, skipSpace_blanks_append hblanks, hok _ (by rw [List.length_append]; omega), Except.ok_bind]
  exact h

theorem loads_of_blanks_append {blanks : Str} (hblanks : blanks.all isSpace = true)
    (h : loads H (blanks ++ s) = .ok v) : loads H s = .ok v := by
  rcases Except.bind_eq_ok.mp h with ⟨⟨w, rest⟩, hw, h⟩
  rw [skipSpace_blanks_append hblanks] at hw
  rcases (simulates_eq.scan (Hooks.Refines.refl H) _).1 _ _ _ _ _ _ (Nat.le_refl _) rfl hw with
    ⟨_, rfl, _, hok⟩
  have hle : (skipSpace s).length ≤ s.length := (List.dropWhile_suffix _).length_le
  rw [loads, hok _ (by omega), Except.ok_bind]
  exact h

/--
Blanks after a line feed do not count, no string goes on there.
-/
theorem loads_of_append_layout {l : CodePoint} (hl : isLayout l = true)
    (hblank : t.all isSpace = true) (h : loads H (s ++ l :: t) = .ok v) : loads H s = .ok v := by
  have hall : (l :: t).all isSpace = true := by simp [isSpace_of_isLayout hl, hblank]
  have hsim : Simulates fun s s' => s = s' ++ l :: t := {
    cons := by
      rintro c s s' heq hc
      cases s' with
      | nil =>
        rw [List.nil_append] at heq
        rw [(List.cons.inj heq).1, hl] at hc
        simp at hc
      | cons d s' =>
        rcases List.cons.inj heq with ⟨rfl, rfl⟩
        exact ⟨s', rfl, rfl⟩
    skip := by
      rintro s s' rfl hne
      refine skipSpace_append_of_ne_nil (fun hnil => hne ?_) _
      rw [skipSpace_eq_nil] at hnil ⊢
      rw [List.all_append, hnil, hall]
      rfl
    ends := by
      rintro s s' rfl hs
      cases s' with
      | nil => exact breaks_nil
      | cons d s' => simpa using isBreak_of_isSpace (isSpace_of_isLayout (hs d (by simp))) }
  rcases hsim.loads (Hooks.Refines.refl H) rfl h with ⟨rest, rest', rfl, hnil, hscan⟩
  refine loads_of_scanValue hscan ?_
  rw [skipSpace_eq_nil, List.all_append, Bool.and_eq_true] at hnil
  exact skipSpace_eq_nil.mpr hnil.1

/--
A text that is not blank starts and ends inside of its blanks.
-/
theorem exists_core (h : s.all isSpace = false)
    : ∃ w core w', s = w ++ (core ++ w') ∧ w.all isSpace = true ∧ w'.all isSpace = true ∧
        core ≠ [] ∧ (∀ c ∈ core.head?, isSpace c = false) ∧
        ∀ c ∈ core.getLast?, isSpace c = false := by
  have hne : s.dropWhile isSpace ≠ [] := by
    intro hnil
    rw [List.dropWhile_eq_nil_iff, ← List.all_eq_true] at hnil
    rw [hnil] at h
    simp at h
  have hhead : ∀ c ∈ (s.dropWhile isSpace).head?, isSpace c = false := by
    intro c hc
    have hnot := List.head?_dropWhile_not isSpace s
    rw [Option.mem_def.mp hc] at hnot
    simpa using hnot
  have hcore : (s.dropWhile isSpace).rdropWhile isSpace ≠ [] := by
    intro hnil
    rw [List.rdropWhile_eq_nil_iff] at hnil
    rcases List.exists_cons_of_ne_nil hne with ⟨c, t, heq⟩
    have hspace := hnil c (by simp [heq])
    rw [hhead c (by simp [heq])] at hspace
    simp at hspace
  refine ⟨s.takeWhile isSpace, (s.dropWhile isSpace).rdropWhile isSpace,
    (s.dropWhile isSpace).rtakeWhile isSpace, ?_, ?_, ?_, hcore, ?_, ?_⟩
  . rw [List.rdropWhile_append_rtakeWhile, List.takeWhile_append_dropWhile]
  . exact List.all_eq_true.mpr fun c hc => List.mem_takeWhile_imp hc
  . exact List.all_eq_true.mpr fun c hc => List.mem_rtakeWhile_imp hc
  . intro c hc
    refine hhead c ?_
    rcases List.rdropWhile_prefix isSpace (l := s.dropWhile isSpace) with ⟨t, ht⟩
    rw [← ht, List.head?_append, Option.mem_def.mp hc]
    rfl
  . intro c hc
    have hlast := List.rdropWhile_last_not isSpace _ hcore
    rw [List.getLast?_eq_some_getLast hcore, Option.mem_def, Option.some.injEq] at hc
    rw [← hc]
    simpa using hlast

/--
A value is the whole of its text: only blanks can come after it.
-/
theorem all_isSpace_of_loads_append {v' : Json} (h : loads H s = .ok v)
    (h' : loads H (s ++ t) = .ok v')
    (ht : Breaks t ∨ ∃ l, s.getLast? = some l ∧ isLayout l = true) : t.all isSpace = true := by
  have hscan : ∃ rest, scanValue H ((s ++ t).length + 1) H.maxDepth (skipSpace (s ++ t))
      = .ok (v, rest ++ t) := by
    rcases ht with ht | ht
    . rcases (simulates_append ht).loads (Hooks.Refines.refl H) rfl h with
        ⟨rest, _, rfl, _, hscan⟩
      exact ⟨rest, hscan⟩
    . rcases (simulates_append_layout t).loads (Hooks.Refines.refl H) ⟨ht, rfl⟩ h with
        ⟨rest, _, ⟨_, rfl⟩, _, hscan⟩
      exact ⟨rest, hscan⟩
  rcases hscan with ⟨rest, hscan⟩
  rw [loads, hscan, Except.ok_bind] at h'
  simp only at h'
  split at h'
  . next hempty =>
    have hall := skipSpace_eq_nil.mp (List.isEmpty_iff.mp hempty)
    rw [List.all_append, Bool.and_eq_true] at hall
    exact hall.2
  . simp at h'

end Json
