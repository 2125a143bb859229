import CryptoValid.Lib.Digits
import Mathlib.Algebra.Order.Field.Rat
import Mathlib.Data.List.DropRight
import Mathlib.Order.Lex
import Mathlib.Order.Defs.LinearOrder
import Mathlib.Data.List.Lex
import Mathlib.Tactic.FieldSimp
import Mathlib.Tactic.Linarith
import Mathlib.Tactic.NormNum
import Mathlib.Tactic.Positivity

/-!
This module contains decimal fractions, written with the digits after the point: without zeros at
the end their order as texts is their order as numbers.
-/

namespace Json

/--
The fraction that digits after a point stand for.
-/
def fractionValue (f : Str) : ℚ := natOfText f / 10 ^ f.length

/--
`f.rstrip("0")`
-/
def trimZeros (f : Str) : Str := f.rdropWhile (· == 0x30)

/--
No zero at the end.
-/
def Trimmed (f : Str) : Prop := f.getLast? ≠ some 0x30

@[simp]
theorem fractionValue_nil : fractionValue [] = 0 := by
  simp [fractionValue, natOfText]

theorem fractionValue_cons (c : CodePoint) (f : Str)
    : fractionValue (c :: f) = ((c.val - 48 : ℕ) + fractionValue f) / 10 := by
  have hcons : natOfText (c :: f) = (c.val - 48) * 10 ^ f.length + natOfText f := by
    have happend := natOfText_append [c] f
    simpa [natOfText] using happend
  rw [fractionValue, fractionValue, hcons, List.length_cons, pow_succ]
  push_cast
  field_simp

theorem fractionValue_concat_zero (f : Str) : fractionValue (f ++ [0x30]) = fractionValue f := by
  rw [fractionValue, fractionValue, natOfText_concat, List.length_append, List.length_singleton,
    pow_succ]
  have hzero : (0x30 : CodePoint).val - 48 = 0 := rfl
  rw [hzero, Nat.add_zero]
  push_cast
  field_simp

theorem fractionValue_trimZeros (f : Str) : fractionValue (trimZeros f) = fractionValue f := by
  induction f using List.reverseRecOn with
  | nil => rfl
  | append_singleton f c ih =>
    by_cases hc : c = 0x30
    . subst hc
      rw [trimZeros, List.rdropWhile_concat_pos _ _ _ (by simp), ← trimZeros, ih,
        fractionValue_concat_zero]
    . rw [trimZeros, List.rdropWhile_concat_neg _ _ _ (by simpa using hc)]

theorem trimmed_trimZeros (f : Str) : Trimmed (trimZeros f) := by
  intro hlast
  have hne : trimZeros f ≠ [] := by
    intro hnil
    simp [hnil] at hlast
  have hneg := List.rdropWhile_last_not (· == (0x30 : CodePoint)) f hne
  rw [List.getLast?_eq_some_getLast hne, Option.some.injEq] at hlast
  exact hneg (by simpa [trimZeros] using hlast)

theorem isDigit_trimZeros {f : Str} (hf : ∀ c ∈ f, isDigit c = true)
    : ∀ c ∈ trimZeros f, isDigit c = true :=
  fun c hc => hf c ((List.rdropWhile_prefix _ f).mem hc)

theorem Trimmed.tail {c : CodePoint} {f : Str} (h : Trimmed (c :: f)) : Trimmed f := by
  cases f with
  | nil => simp [Trimmed]
  | cons d f => simpa [Trimmed] using h

theorem fractionValue_nonneg (f : Str) : 0 ≤ fractionValue f := by
  rw [fractionValue]
  positivity

theorem fractionValue_lt_one {f : Str} (hf : ∀ c ∈ f, isDigit c = true) : fractionValue f < 1 := by
  rw [fractionValue, div_lt_one (by positivity)]
  exact_mod_cast natOfText_lt hf

theorem fractionValue_pos {f : Str} (hne : f ≠ []) (hf : ∀ c ∈ f, isDigit c = true)
    (h : Trimmed f) : 0 < fractionValue f := by
  induction f with
  | nil => exact absurd rfl hne
  | cons c f ih =>
    rw [List.forall_mem_cons] at hf
    rw [fractionValue_cons]
    by_cases hnil : f = []
    . subst hnil
      have hc : c ≠ 0x30 := by
        rintro rfl
        simp [Trimmed] at h
      have hdigit := hf.1
      simp only [isDigit, Bool.and_eq_true, decide_eq_true_eq] at hdigit
      have hval : c.val ≠ 48 := fun heq => hc (Fin.ext heq)
      have hpos : 0 < c.val - 48 := by omega
      rw [fractionValue_nil, add_zero]
      exact div_pos (Nat.cast_pos.mpr hpos) (by norm_num)
    . have := ih hnil hf.2 h.tail
      positivity

/--
The texts are compared from the left, one digit after the other, and so are the numbers.
-/
theorem lt_iff_fractionValue_lt {f g : Str} (hf : ∀ c ∈ f, isDigit c = true)
    (hg : ∀ c ∈ g, isDigit c = true) (hf' : Trimmed f) (hg' : Trimmed g)
    : f < g ↔ fractionValue f < fractionValue g := by
  induction f generalizing g with
  | nil =>
    cases g with
    | nil => simp
    | cons d g =>
      have hpos := fractionValue_pos (List.cons_ne_nil d g) hg hg'
      simpa using hpos
  | cons c f ih =>
    cases g with
    | nil => simp [fractionValue_nonneg]
    | cons d g =>
      rw [List.forall_mem_cons] at hf hg
      rw [List.cons_lt_cons_iff, ih hf.2 hg.2 hf'.tail hg'.tail, fractionValue_cons,
        fractionValue_cons, div_lt_div_iff_of_pos_right (by norm_num)]
      have hc := hf.1
      have hd := hg.1
      simp only [isDigit, Bool.and_eq_true, decide_eq_true_eq] at hc hd
      have hf0 := fractionValue_nonneg f
      have hf1 := fractionValue_lt_one hf.2
      have hg0 := fractionValue_nonneg g
      have hg1 := fractionValue_lt_one hg.2
      rcases lt_trichotomy (c.val - 48) (d.val - 48) with hlt | heq | hgt
      . have hstep : ((c.val - 48 : ℕ) : ℚ) + 1 ≤ (d.val - 48 : ℕ) := by
          exact_mod_cast hlt
        have hcd : c < d := Fin.lt_def.mpr (by omega)
        exact ⟨fun _ => by linarith, fun _ => Or.inl hcd⟩
      . have hcd : c = d := Fin.ext (by omega)
        subst hcd
        simp
      . have hstep : ((d.val - 48 : ℕ) : ℚ) + 1 ≤ (c.val - 48 : ℕ) := by
          exact_mod_cast hgt
        have hdc : ¬c < d := by
          rw [Fin.lt_def]
          omega
        have hne : c ≠ d := by
          rintro rfl
          exact absurd hgt (lt_irrefl _)
        constructor
        . rintro (hlt | ⟨heq, _⟩)
          . exact absurd hlt hdc
          . exact absurd heq hne
        . intro hlt
          linarith

theorem eq_of_fractionValue_eq {f g : Str} (hf : ∀ c ∈ f, isDigit c = true)
    (hg : ∀ c ∈ g, isDigit c = true) (hf' : Trimmed f) (hg' : Trimmed g)
    (heq : fractionValue f = fractionValue g) : f = g := by
  rcases lt_trichotomy f g with hlt | rfl | hgt
  . exact absurd ((lt_iff_fractionValue_lt hf hg hf' hg').mp hlt) (by rw [heq]; exact lt_irrefl _)
  . rfl
  . exact absurd ((lt_iff_fractionValue_lt hg hf hg' hf').mp hgt) (by rw [heq]; exact lt_irrefl _)

end Json
