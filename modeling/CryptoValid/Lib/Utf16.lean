import CryptoValid.Lib.Text
import Mathlib.Data.List.Lex

/-!
This module contains the UTF-16 code units of a text and the order of texts that they give, which is
also the order of their bytes, the higher one first.
-/

namespace Utf16

def unitsOf (c : CodePoint) : List Nat :=
  if c.val < 0x10000 then [c.val]
  else [0xD800 + (c.val - 0x10000) / 0x400, 0xDC00 + (c.val - 0x10000) % 0x400]

def units (s : Str) : List Nat := s.flatMap unitsOf

/--
The text of the units. A surrogate without a partner is a character of its own.
-/
def join : List Nat → Str
  | [] => []
  | [u] => [.ofNat u]
  | u :: l :: us =>
    if 0xD800 ≤ u ∧ u ≤ 0xDBFF ∧ 0xDC00 ≤ l ∧ l ≤ 0xDFFF then
      .ofNat (0x10000 + (u - 0xD800) * 0x400 + (l - 0xDC00)) :: join us
    else
      .ofNat u :: join (l :: us)

def bigEndian (us : List Nat) : Bytes :=
  us.flatMap fun u => [UInt8.ofNat (u / 256), UInt8.ofNat (u % 256)]

theorem units_cons (c : CodePoint) (s : Str) : units (c :: s) = unitsOf c ++ units s :=
  List.flatMap_cons

theorem unitsOf_lt {c : CodePoint} : ∀ u ∈ unitsOf c, u < 0x10000 := by
  have hc := c.isLt
  unfold unitsOf
  split
  . next hsmall =>
    intro u hu
    rw [List.mem_singleton.mp hu]
    exact hsmall
  . intro u hu
    simp only [List.mem_cons, List.not_mem_nil, or_false] at hu
    omega

theorem units_lt {s : Str} : ∀ u ∈ units s, u < 0x10000 := by
  intro u hu
  rcases List.mem_flatMap.mp hu with ⟨c, _, hc⟩
  exact unitsOf_lt u hc

/-!
### The text of the units
-/

/--
The units of a character tell it from every other character, and where the next one starts.
-/
theorem unitsOf_append_inj {c d : CodePoint} {us vs : List Nat} (hc : c.isSurrogate = false)
    (hd : d.isSurrogate = false) (h : unitsOf c ++ us = unitsOf d ++ vs) : c = d ∧ us = vs := by
  have hltc := c.isLt
  have hltd := d.isLt
  simp only [CodePoint.isSurrogate, Bool.and_eq_false_iff, decide_eq_false_iff_not] at hc hd
  unfold unitsOf at h
  split at h
  . split at h
    . simp only [List.cons_append, List.nil_append, List.cons.injEq] at h
      exact ⟨Fin.ext h.1, h.2⟩
    . simp only [List.cons_append, List.nil_append, List.cons.injEq] at h
      omega
  . split at h
    . simp only [List.cons_append, List.nil_append, List.cons.injEq] at h
      omega
    . simp only [List.cons_append, List.nil_append, List.cons.injEq] at h
      exact ⟨Fin.ext (by omega), h.2.2⟩

theorem unitsOf_of_lt {u : Nat} (hu : u < 0x10000) : unitsOf (.ofNat u) = [u] := by
  rw [unitsOf, CodePoint.val_ofNat _ (by omega), if_pos hu]

theorem units_join {us : List Nat} (hus : ∀ u ∈ us, u < 0x10000) : units (join us) = us := by
  fun_induction join us with
  | case1 => rfl
  | case2 u => rw [units_cons, unitsOf_of_lt (hus u List.mem_cons_self), units, List.flatMap_nil,
      List.append_nil]
  | case3 u l us hpair ih =>
    simp only [List.forall_mem_cons] at hus
    rw [units_cons, ih hus.2.2, unitsOf, CodePoint.val_ofNat _ (by omega), if_neg (by omega),
      List.cons_append, List.cons_append, List.nil_append, List.cons.injEq, List.cons.injEq]
    exact ⟨by omega, by omega, rfl⟩
  | case4 u l us hpair ih =>
    rw [List.forall_mem_cons] at hus
    rw [units_cons, unitsOf_of_lt hus.1, ih hus.2]
    rfl

theorem unitsOf_ne_nil (c : CodePoint) : unitsOf c ≠ [] := by
  unfold unitsOf
  split <;> simp

theorem units_inj {s t : Str} (hs : s.Scalar) (ht : t.Scalar) (h : units s = units t) : s = t := by
  induction s generalizing t with
  | nil =>
    cases t with
    | nil => rfl
    | cons d t =>
      rw [units_cons] at h
      exact absurd (List.append_eq_nil_iff.mp h.symm).1 (unitsOf_ne_nil d)
  | cons c s ih =>
    cases t with
    | nil =>
      rw [units_cons] at h
      exact absurd (List.append_eq_nil_iff.mp h).1 (unitsOf_ne_nil c)
    | cons d t =>
      rw [Str.scalar_cons] at hs ht
      rw [units_cons, units_cons] at h
      rcases unitsOf_append_inj hs.1 ht.1 h with ⟨rfl, hrest⟩
      rw [ih hs.2 ht.2 hrest]

/-!
### The order of the bytes
-/

theorem bigEndian_cons (u : Nat) (us : List Nat)
    : bigEndian (u :: us) = UInt8.ofNat (u / 256) :: UInt8.ofNat (u % 256) :: bigEndian us := rfl

theorem lt_iff_of_lt {a b : Nat} (ha : a < 256) (hb : b < 256)
    : (UInt8.ofNat a < UInt8.ofNat b ↔ a < b) ∧ (UInt8.ofNat a = UInt8.ofNat b ↔ a = b) := by
  rw [UInt8.lt_iff_toNat_lt, ← UInt8.toNat_inj, UInt8.toNat_ofNat', UInt8.toNat_ofNat',
    Nat.mod_eq_of_lt ha, Nat.mod_eq_of_lt hb]
  exact ⟨Iff.rfl, Iff.rfl⟩

theorem bigEndian_lt_iff {us vs : List Nat} (hus : ∀ u ∈ us, u < 0x10000)
    (hvs : ∀ v ∈ vs, v < 0x10000) : bigEndian us < bigEndian vs ↔ us < vs := by
  induction us generalizing vs with
  | nil =>
    cases vs with
    | nil => simp [bigEndian]
    | cons v vs => simp [bigEndian]
  | cons u us ih =>
    cases vs with
    | nil => simp [bigEndian]
    | cons v vs =>
      have hu := hus u List.mem_cons_self
      have hv := hvs v List.mem_cons_self
      have hhigh := lt_iff_of_lt (show u / 256 < 256 by omega) (show v / 256 < 256 by omega)
      have hlow := lt_iff_of_lt (show u % 256 < 256 by omega) (show v % 256 < 256 by omega)
      rw [bigEndian_cons, bigEndian_cons, List.cons_lt_cons_iff, List.cons_lt_cons_iff,
        List.cons_lt_cons_iff, hhigh.1, hhigh.2, hlow.1, hlow.2,
        ih (fun u hu => hus u (List.mem_cons_of_mem _ hu))
          (fun v hv => hvs v (List.mem_cons_of_mem _ hv))]
      constructor
      . rintro (h | ⟨h, h' | ⟨h', hlt⟩⟩)
        . exact Or.inl (by omega)
        . exact Or.inl (by omega)
        . exact Or.inr ⟨by omega, hlt⟩
      . rintro (h | ⟨rfl, hlt⟩)
        . by_cases heq : u / 256 = v / 256
          . exact Or.inr ⟨heq, Or.inl (by omega)⟩
          . exact Or.inl (by omega)
        . exact Or.inr ⟨rfl, Or.inr ⟨rfl, hlt⟩⟩

theorem bigEndian_units_le_iff (s t : Str)
    : bigEndian (units s) ≤ bigEndian (units t) ↔ units s ≤ units t := by
  rw [← not_lt (a := units t), ← bigEndian_lt_iff units_lt units_lt]
  exact Iff.rfl

end Utf16
