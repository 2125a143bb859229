import CryptoValid.Lib.Json.RoundTrip
import Mathlib.Tactic.Ring

/-!
This module contains numbers written with decimal digits: how long the text of a number is, how large
the number in a text can be, and that a text without leading zeros is the text of its number.
-/

namespace Json

theorem natOfText_concat (s : Str) (c : CodePoint)
    : natOfText (s ++ [c]) = 10 * natOfText s + (c.val - 48) := by
  simp [natOfText]

theorem natOfText_lt {s : Str} (hs : ∀ c ∈ s, isDigit c = true) : natOfText s < 10 ^ s.length := by
  induction s using List.reverseRecOn with
  | nil => simp [natOfText]
  | append_singleton s c ih =>
    have hc := hs c (by simp)
    simp only [isDigit, Bool.and_eq_true, decide_eq_true_eq] at hc
    have hlt := ih fun d hd => hs d (by simp [hd])
    rw [natOfText_concat, List.length_append, List.length_singleton, pow_succ]
    omega

theorem digit_val {c : CodePoint} (hc : isDigit c = true)
    : c.val - 48 < 10 ∧ digit (c.val - 48) = c := by
  simp only [isDigit, Bool.and_eq_true, decide_eq_true_eq] at hc
  refine ⟨by omega, ?_⟩
  rw [digit, Nat.add_sub_cancel' hc.1]
  exact CodePoint.ofNat_val c

theorem natText_natOfText {s : Str} (h : s ≠ []) (hdigits : ∀ c ∈ s, isDigit c = true)
    (hzero : s.head? = some 0x30 → s = [0x30]) : natText (natOfText s) = s := by
  induction s using List.reverseRecOn with
  | nil => exact absurd rfl h
  | append_singleton s c ih =>
    rcases digit_val (hdigits c (by simp)) with ⟨hlt, hc⟩
    by_cases hs : s = []
    . rw [natOfText_concat, hs, natText]
      simpa [natOfText, hlt] using hc
    . have hhead : s.head? ≠ some 0x30 := by
        intro hhead
        have hone := hzero (by rw [List.head?_append_of_ne_nil _ hs, hhead])
        have hlen := congrArg List.length hone
        have := List.length_pos_of_ne_nil hs
        simp only [List.length_append, List.length_singleton] at hlen
        omega
      have ih := ih hs (fun c hc => hdigits c (List.mem_append_left _ hc))
        fun hzero => absurd hzero hhead
      have hpos : natOfText s ≠ 0 := by
        intro hnil
        rw [hnil, natText] at ih
        exact hhead (by rw [← ih]; rfl)
      rw [natOfText_concat, natText, if_neg (by omega),
        show (10 * natOfText s + (c.val - 48)) / 10 = natOfText s by omega,
        show (10 * natOfText s + (c.val - 48)) % 10 = c.val - 48 by omega, ih, hc]

theorem length_natText_le {n k : Nat} (h : n < 10 ^ (k + 1)) : (natText n).length ≤ k + 1 := by
  induction k generalizing n with
  | zero =>
    rw [natText, if_pos (by omega)]
    simp
  | succ k ih =>
    rw [natText]
    split
    . simp
    . have hlen := ih (n := n / 10) (by rw [Nat.pow_succ] at h; omega)
      rw [List.length_append, List.length_singleton]
      omega

theorem lt_pow_length_natText (n : Nat) : n < 10 ^ (natText n).length := by
  have hlt := natOfText_lt (natText_isDigit n)
  rwa [natOfText_natText] at hlt

theorem length_natText_le_iff {n k : Nat} (hk : 0 < k) : (natText n).length ≤ k ↔ n < 10 ^ k := by
  constructor
  . exact fun h => (lt_pow_length_natText n).trans_le (Nat.pow_le_pow_right (by decide) h)
  . intro h
    rcases Nat.exists_eq_succ_of_ne_zero (Nat.pos_iff_ne_zero.mp hk) with ⟨k, rfl⟩
    exact length_natText_le h

theorem length_natText_mono {m n : Nat} (h : m ≤ n) : (natText m).length ≤ (natText n).length := by
  rw [length_natText_le_iff (List.length_pos_iff.mpr (natText_ne_nil n))]
  exact h.trans_lt (lt_pow_length_natText n)

theorem natOfText_append (s t : Str)
    : natOfText (s ++ t) = natOfText s * 10 ^ t.length + natOfText t := by
  induction t using List.reverseRecOn with
  | nil => simp [natOfText]
  | append_singleton t c ih =>
    rw [← List.append_assoc, natOfText_concat, natOfText_concat, ih, List.length_append,
      List.length_singleton, pow_succ]
    ring

theorem natOfText_zeros (n : Nat) : natOfText (List.replicate n 0x30) = 0 := by
  induction n with
  | zero => rfl
  | succ n ih =>
    rw [List.replicate_succ', natOfText_concat, ih]
    rfl

theorem natOfText_zeros_append (n : Nat) (s : Str)
    : natOfText (List.replicate n 0x30 ++ s) = natOfText s := by
  rw [natOfText_append, natOfText_zeros, Nat.zero_mul, Nat.zero_add]

/--
A number other than zero is shifted by writing zeros after it.
-/
theorem natText_mul_pow {c : Nat} (hc : c ≠ 0) (n : Nat)
    : natText (c * 10 ^ n) = natText c ++ List.replicate n 0x30 := by
  rcases natText_eq_cons c with ⟨d, ds, heq, hdigit, hzero⟩
  have hdigits : ∀ x ∈ natText c ++ List.replicate n 0x30, isDigit x = true := by
    intro x hx
    rcases List.mem_append.mp hx with hx | hx
    . exact natText_isDigit c x hx
    . rw [List.eq_of_mem_replicate hx]
      decide
  have hhead : (natText c ++ List.replicate n 0x30).head? = some 0x30 →
      natText c ++ List.replicate n 0x30 = [0x30] := by
    rw [heq]
    intro hd
    rw [List.cons_append, List.head?_cons, Option.some.injEq] at hd
    exact absurd (by rw [heq, hd, hzero hd]) (natText_ne_zero c hc)
  have h := natText_natOfText (by simp [natText_ne_nil]) hdigits hhead
  rwa [natOfText_append, natOfText_natText, natOfText_zeros, List.length_replicate,
    Nat.add_zero] at h

end Json
