import CryptoValid.Lib.Json.Prescan

/-!
This module contains when two texts are parsed alike: they may differ in the blanks between their
tokens and in what follows, and the second parser may accept more.
-/

namespace Json

/--
The blanks that a string cannot contain.
-/
def isLayout (c : CodePoint) : Bool := c = 0x09 || c = 0x0a || c = 0x0d

/--
A character that no word and no number goes on with.
-/
def isBreak (c : CodePoint) : Bool :=
  isSpace c || [0x22, 0x2c, 0x3a, 0x5b, 0x5d, 0x7b, 0x7d].contains c

def Breaks (s : Str) : Prop := ∀ c ∈ s.head?, isBreak c = true

@[simp]
theorem breaks_nil : Breaks [] := by
  simp [Breaks]

@[simp]
theorem breaks_cons (c : CodePoint) (s : Str) : Breaks (c :: s) ↔ isBreak c = true := by
  simp [Breaks]

theorem isBreak_of_isSpace {c : CodePoint} (h : isSpace c = true) : isBreak c = true := by
  simp [isBreak, h]

theorem isSpace_of_isLayout {c : CodePoint} (h : isLayout c = true) : isSpace c = true := by
  simp only [isLayout, Bool.or_eq_true, decide_eq_true_eq] at h
  rcases h with (rfl | rfl) | rfl <;> decide

theorem isLayout_of_le {c : CodePoint} (h : 0x20 ≤ c.val) : isLayout c = false := by
  simp only [isLayout, Bool.or_eq_false_iff, decide_eq_false_iff_not]
  refine ⟨⟨?_, ?_⟩, ?_⟩ <;> (rintro rfl; revert h; decide)

theorem isDigit_of_isBreak {c : CodePoint} (h : isBreak c = true) : isDigit c = false := by
  simp only [isBreak, isSpace, List.contains_eq_mem, List.mem_cons, List.not_mem_nil, or_false,
    Bool.or_eq_true, decide_eq_true_eq] at h
  rcases h with (((rfl | rfl) | rfl) | rfl) | rfl | rfl | rfl | rfl | rfl | rfl | rfl <;> decide

theorem ne_of_isBreak {c d : CodePoint} (h : isBreak c = true) (hd : isBreak d = false) : c ≠ d := by
  rintro rfl
  simp [h] at hd

/--
What every token of a text carries over to the other one.
-/
structure Simulates (R : Str → Str → Prop) : Prop where
  cons : ∀ {c : CodePoint} {s s' : Str}, R (c :: s) s' → isLayout c = false →
    ∃ t, s' = c :: t ∧ R s t
  skip : ∀ {s s' : Str}, R s s' → skipSpace s ≠ [] → R (skipSpace s) (skipSpace s')
  ends : ∀ {s s' : Str}, R s s' → (∀ c ∈ s.head?, isLayout c = true) → Breaks s'

/--
The second user of the parser accepts at least as much, and makes the same of it.
-/
structure Hooks.Refines {ε ε' : Type} (H : Hooks ε) (H' : Hooks ε') : Prop where
  parseInt : ∀ {s text rest i}, scanNumber? s = some (text, false, rest) →
    H.parseInt text = .ok i → H'.parseInt text = .ok i
  parseFloat : ∀ {text x}, H.parseFloat text = .ok x → H'.parseFloat text = .ok x
  parseConstant : ∀ {text x}, H.parseConstant text = .ok x → H'.parseConstant text = .ok x
  objectPairs : ∀ {pairs ms}, H.objectPairs pairs = .ok ms → H'.objectPairs pairs = .ok ms
  lone : H.lone = H'.lone
  maxDepth : H.maxDepth ≤ H'.maxDepth

theorem Hooks.Refines.refl {ε : Type} (H : Hooks ε) : H.Refines H :=
  ⟨fun _ => id, id, id, id, rfl, Nat.le_refl _⟩

section

variable {R : Str → Str → Prop} (hR : Simulates R) {s s' : Str}

include hR

/--
Characters of a token are the same on both sides.
-/
theorem Simulates.append {w rest : Str} (h : R (w ++ rest) s')
    (hw : ∀ c ∈ w, isLayout c = false) : ∃ rest', s' = w ++ rest' ∧ R rest rest' := by
  induction w generalizing s' with
  | nil => exact ⟨s', rfl, h⟩
  | cons c w ih =>
    rcases hR.cons h (hw c List.mem_cons_self) with ⟨t, rfl, ht⟩
    rcases ih ht (fun d hd => hw d (List.mem_cons_of_mem _ hd)) with ⟨rest', rfl, hrest⟩
    exact ⟨rest', rfl, hrest⟩

/--
The next character is the same, or a token cannot go on with it on the other side.
-/
theorem Simulates.head {c : CodePoint} {s : Str} (h : R (c :: s) s')
    : (∃ t, s' = c :: t ∧ R s t) ∨ isLayout c = true ∧ Breaks s' := by
  cases hc : isLayout c with
  | false => exact Or.inl (hR.cons h hc)
  | true => exact Or.inr ⟨rfl, hR.ends h (by simpa using hc)⟩

theorem Simulates.digits (h : R s s')
    : s'.takeWhile isDigit = s.takeWhile isDigit ∧
        R (s.dropWhile isDigit) (s'.dropWhile isDigit) := by
  have hbreaks : ∀ t : Str, Breaks t → t.takeWhile isDigit = [] ∧ t.dropWhile isDigit = t := by
    intro t ht
    cases t with
    | nil => exact ⟨rfl, rfl⟩
    | cons c t =>
      have hdigit := isDigit_of_isBreak ((breaks_cons c t).mp ht)
      simp [hdigit]
  induction s generalizing s' with
  | nil =>
    rcases hbreaks s' (hR.ends h (by simp)) with ⟨htake, hdrop⟩
    rw [htake, hdrop]
    exact ⟨rfl, h⟩
  | cons c s ih =>
    rcases hR.head h with ⟨t, rfl, ht⟩ | ⟨hc, hbreak⟩
    . cases hdigit : isDigit c with
      | true => simpa [hdigit] using ih ht
      | false => simpa [hdigit] using h
    . have hdigit := isDigit_of_isBreak (isBreak_of_isSpace (isSpace_of_isLayout hc))
      rcases hbreaks s' hbreak with ⟨htake, hdrop⟩
      rw [htake, hdrop]
      simpa [hdigit] using h

theorem Simulates.scanFraction {frac rest : Str} (h : R s s')
    (hscan : scanNumber?.scanFraction s = (frac, rest))
    : ∃ rest', scanNumber?.scanFraction s' = (frac, rest') ∧ R rest rest' ∧
        s' = frac ++ rest' := by
  have hnone : ∀ t : Str, (∀ d e, t = 0x2e :: d :: e → isDigit d = false) →
      scanNumber?.scanFraction t = ([], t) := by
    intro t ht
    unfold scanNumber?.scanFraction
    split
    . next c d tail =>
      split
      . next hcd =>
        have hdigit := ht d tail (by rw [hcd.1])
        simp [hdigit] at hcd
      . rfl
    . rfl
  -- no fraction on one side is none on the other
  have hsame : (∀ d e, s = 0x2e :: d :: e → isDigit d = false) →
      (∀ d e, s' = 0x2e :: d :: e → isDigit d = false) →
      ∃ rest', scanNumber?.scanFraction s' = (frac, rest') ∧ R rest rest' ∧
        s' = frac ++ rest' := by
    intro hs hs'
    rw [hnone s hs] at hscan
    rcases Prod.mk.inj hscan with ⟨rfl, rfl⟩
    exact ⟨s', hnone s' hs', h, rfl⟩
  have hbreaks : ∀ t : Str, Breaks t → ∀ d e, t = 0x2e :: d :: e → isDigit d = false := by
    rintro t ht d e rfl
    exact absurd ((breaks_cons _ _).mp ht) (by decide)
  cases s with
  | nil => exact hsame (by simp) (hbreaks s' (hR.ends h (by simp)))
  | cons c tail =>
    rcases hR.head h with ⟨t, rfl, ht⟩ | ⟨hc, hbreak⟩
    . by_cases hdot : c = 0x2e
      . subst hdot
        cases tail with
        | nil =>
          refine hsame (by simp) ?_
          rintro d e heq
          rw [(List.cons.inj heq).2] at ht
          exact isDigit_of_isBreak ((breaks_cons _ _).mp (hR.ends ht (by simp)))
        | cons d tail =>
          rcases hR.head ht with ⟨t, rfl, _⟩ | ⟨hd, hbreak⟩
          . cases hdigit : isDigit d with
            | false =>
              exact hsame (by simpa using hdigit) (by simpa using hdigit)
            | true =>
              rcases hR.digits ht with ⟨htake, hdrop⟩
              simp only [scanNumber?.scanFraction, hdigit, and_self, ↓reduceIte,
                Prod.mk.injEq] at hscan
              rcases hscan with ⟨rfl, rfl⟩
              refine ⟨(d :: t).dropWhile isDigit, ?_, hdrop, ?_⟩
              . simp only [scanNumber?.scanFraction, hdigit, and_self, ↓reduceIte, htake]
              . rw [← htake, List.cons_append, List.takeWhile_append_dropWhile]
          . have hdigit := isDigit_of_isBreak (isBreak_of_isSpace (isSpace_of_isLayout hd))
            refine hsame (by simpa using hdigit) ?_
            rintro e f heq
            rw [(List.cons.inj heq).2] at hbreak
            exact isDigit_of_isBreak ((breaks_cons _ _).mp hbreak)
      . have hne : ∀ u d e, c :: u = 0x2e :: d :: e → isDigit d = false :=
          fun u d e heq => absurd (List.cons.inj heq).1 hdot
        exact hsame (hne tail) (hne t)
    . have hbreak' : Breaks (c :: tail) := by
        simpa using isBreak_of_isSpace (isSpace_of_isLayout hc)
      exact hsame (hbreaks _ hbreak') (hbreaks s' hbreak)

/--
The sign of an exponent.
-/
def scanSign : Str → Str × Str
  | d :: rest => if d = 0x2b ∨ d = 0x2d then ([d], rest) else ([], d :: rest)
  | [] => ([], [])

omit hR in
theorem scanExponent_cons {c : CodePoint} (hc : c = 0x65 ∨ c = 0x45) (rest : Str)
    : scanNumber?.scanExponent (c :: rest)
        =
      if ((scanSign rest).2.takeWhile isDigit).isEmpty then ([], c :: rest)
      else (c :: ((scanSign rest).1 ++ (scanSign rest).2.takeWhile isDigit),
        (scanSign rest).2.dropWhile isDigit) := by
  simp only [scanNumber?.scanExponent, hc, ↓reduceIte]
  cases rest with
  | nil => rfl
  | cons d rest =>
    simp only [scanSign]
    split <;> rfl

omit hR in
theorem scanExponent_of_ne {s : Str} (h : ∀ c ∈ s.head?, c ≠ 0x65 ∧ c ≠ 0x45)
    : scanNumber?.scanExponent s = ([], s) := by
  cases s with
  | nil => rfl
  | cons c s =>
    have hc := h c (by simp)
    simp [scanNumber?.scanExponent, hc.1, hc.2]

theorem Simulates.scanSign (h : R s s')
    : (Json.scanSign s').1 = (Json.scanSign s).1 ∧ R (Json.scanSign s).2 (Json.scanSign s').2 ∧
        s' = (Json.scanSign s').1 ++ (Json.scanSign s').2 := by
  have hbreaks : ∀ t : Str, Breaks t → Json.scanSign t = ([], t) := by
    intro t ht
    cases t with
    | nil => rfl
    | cons c t =>
      have hbreak := (breaks_cons _ _).mp ht
      rw [Json.scanSign, if_neg]
      rintro (rfl | rfl)
      . exact absurd hbreak (by decide)
      . exact absurd hbreak (by decide)
  cases s with
  | nil =>
    rw [hbreaks s' (hR.ends h (by simp))]
    exact ⟨rfl, h, rfl⟩
  | cons c s =>
    rcases hR.head h with ⟨t, rfl, ht⟩ | ⟨hc, hbreak⟩
    . by_cases hsign : c = 0x2b ∨ c = 0x2d
      . simp only [Json.scanSign, hsign, ↓reduceIte]
        exact ⟨trivial, ht, rfl⟩
      . simp only [Json.scanSign, hsign, ↓reduceIte]
        exact ⟨trivial, h, rfl⟩
    . have hself : Breaks (c :: s) := by
        simpa using isBreak_of_isSpace (isSpace_of_isLayout hc)
      rw [hbreaks s' hbreak, hbreaks _ hself]
      exact ⟨rfl, h, rfl⟩

theorem Simulates.scanExponent {exp rest : Str} (h : R s s')
    (hscan : scanNumber?.scanExponent s = (exp, rest))
    : ∃ rest', scanNumber?.scanExponent s' = (exp, rest') ∧ R rest rest' ∧ s' = exp ++ rest' := by
  have hnone : ∀ t : Str, Breaks t → scanNumber?.scanExponent t = ([], t) := by
    intro t ht
    refine scanExponent_of_ne ?_
    intro c hc
    exact ⟨ne_of_isBreak (ht c hc) (by decide), ne_of_isBreak (ht c hc) (by decide)⟩
  cases s with
  | nil =>
    rcases Prod.mk.inj hscan with ⟨rfl, rfl⟩
    exact ⟨s', hnone s' (hR.ends h (by simp)), h, rfl⟩
  | cons c s =>
    rcases hR.head h with ⟨t, rfl, ht⟩ | ⟨hc, hbreak⟩
    . by_cases hexp : c = 0x65 ∨ c = 0x45
      . rcases hR.scanSign ht with ⟨hsign, hafter, happend⟩
        rcases hR.digits hafter with ⟨htake, hdrop⟩
        rw [scanExponent_cons hexp] at hscan
        rw [scanExponent_cons hexp, hsign, htake]
        split at hscan
        . next hempty =>
          rcases Prod.mk.inj hscan with ⟨rfl, rfl⟩
          rw [if_pos hempty]
          exact ⟨_, rfl, h, rfl⟩
        . next hempty =>
          rcases Prod.mk.inj hscan with ⟨rfl, rfl⟩
          rw [if_neg hempty]
          refine ⟨_, rfl, hdrop, ?_⟩
          rw [← htake, ← hsign, List.cons_append, List.append_assoc,
            List.takeWhile_append_dropWhile, ← happend]
      . rw [not_or] at hexp
        rw [scanExponent_of_ne (by simpa using hexp)] at hscan
        rcases Prod.mk.inj hscan with ⟨rfl, rfl⟩
        exact ⟨_, scanExponent_of_ne (by simpa using hexp), h, rfl⟩
    . have hself : Breaks (c :: s) := by
        simpa using isBreak_of_isSpace (isSpace_of_isLayout hc)
      rw [hnone _ hself] at hscan
      rcases Prod.mk.inj hscan with ⟨rfl, rfl⟩
      exact ⟨s', hnone s' hbreak, h, rfl⟩

omit hR in
theorem mul_pow_le_foldl (t : Str) (n : Nat)
    : n * 10 ^ t.length ≤ t.foldl (fun n c => 10 * n + (c.val - 48)) n := by
  induction t generalizing n with
  | nil => simp
  | cons c t ih =>
    rw [List.length_cons, List.foldl_cons]
    calc n * 10 ^ (t.length + 1)
        = 10 * n * 10 ^ t.length := by rw [Nat.pow_succ]; ring
      _ ≤ (10 * n + (c.val - 48)) * 10 ^ t.length := Nat.mul_le_mul_right _ (Nat.le_add_right _ _)
      _ ≤ _ := ih _

omit hR in
/--
An integer is written without leading zeros, so that a small one has few digits.
-/
theorem length_filter_isDigit_le {text rest : Str} (h : Json.scanNumber? s = some (text, false, rest))
    {k : Nat} (hk : 0 < k) (hsmall : (intOfText text).natAbs < 10 ^ k)
    : (text.filter isDigit).length ≤ k := by
  rw [scanNumber?_eq, Option.map_eq_some_iff] at h
  rcases h with ⟨⟨digits, isFloat, rest'⟩, hscan, heq⟩
  simp only [Prod.mk.injEq] at heq
  rcases heq with ⟨rfl, rfl, rfl⟩
  have hdigits : ∃ c ds, digits = c :: ds ∧ (∀ d ∈ digits, isDigit d = true) ∧
      (c = 0x30 → ds = []) := by
    cases hbody : (minusOf s).2 with
    | nil => simp [scanUnsigned, hbody] at hscan
    | cons c tail =>
      rw [hbody] at hscan
      simp only [scanUnsigned] at hscan
      split at hscan
      . simp at hscan
      . next hdigit =>
        have hc : isDigit c = true := by simpa using hdigit
        simp only [Option.some.injEq, Prod.mk.injEq, Bool.not_eq_false', Bool.and_eq_true,
          List.isEmpty_iff] at hscan
        rcases hscan with ⟨hdigits, ⟨hfrac, hexp⟩, -⟩
        rw [hfrac, hexp, List.append_nil, List.append_nil] at hdigits
        by_cases hzero : c = 0x30
        . rw [if_pos hzero] at hdigits
          exact ⟨c, [], hdigits.symm, by simp [← hdigits, hc], fun _ => rfl⟩
        . rw [if_neg hzero] at hdigits
          refine ⟨c, tail.takeWhile isDigit, ?_, ?_, fun h => absurd h hzero⟩
          . simp [← hdigits, hc]
          . rw [← hdigits]
            exact fun d hd => List.mem_takeWhile_imp hd
  rcases hdigits with ⟨c, ds, rfl, hall, hzero⟩
  have hfilter : ((minusOf s).1 ++ c :: ds).filter isDigit = c :: ds := by
    have hsign : (minusOf s).1.filter isDigit = [] := by
      unfold minusOf
      split
      . split
        . next hminus => simp [hminus, show isDigit 0x2d = false by decide]
        . rfl
      . rfl
    rw [List.filter_append, hsign, List.nil_append, List.filter_eq_self.mpr hall]
  have hnat : (intOfText ((minusOf s).1 ++ c :: ds)).natAbs = natOfText (c :: ds) := by
    have hplus : c ≠ 0x2d := by
      rintro rfl
      exact absurd (hall _ List.mem_cons_self) (by decide)
    unfold minusOf
    split
    . split
      . next hminus => simp [intOfText, hminus]
      . simp [intOfText, hplus]
    . simp [intOfText, hplus]
  rw [hfilter]
  by_cases hc : c = 0x30
  . rw [hzero hc]
    exact hk
  . have hval : 1 ≤ c.val - 48 := by
      have hdigit := hall c List.mem_cons_self
      simp only [isDigit, Bool.and_eq_true, decide_eq_true_eq] at hdigit
      have hne : c.val ≠ 48 := fun h => hc (Fin.ext h)
      omega
    have hle : 10 ^ ds.length ≤ natOfText (c :: ds) := by
      have hgo := mul_pow_le_foldl ds (c.val - 48)
      rw [natOfText, List.foldl_cons, Nat.mul_zero, Nat.zero_add]
      calc 10 ^ ds.length
          = 1 * 10 ^ ds.length := (Nat.one_mul _).symm
        _ ≤ (c.val - 48) * 10 ^ ds.length := Nat.mul_le_mul_right _ hval
        _ ≤ _ := hgo
    rw [hnat] at hsmall
    have hlt : 10 ^ ds.length < 10 ^ k := Nat.lt_of_le_of_lt hle hsmall
    rw [Nat.pow_lt_pow_iff_right (by decide)] at hlt
    rw [List.length_cons]
    exact hlt

theorem Simulates.scanUnsigned {text rest : Str} {isFloat : Bool} (h : R s s')
    (hscan : Json.scanUnsigned s = some (text, isFloat, rest))
    : ∃ rest', Json.scanUnsigned s' = some (text, isFloat, rest') ∧ R rest rest' ∧
        s' = text ++ rest' ∧ text ≠ [] := by
  cases s with
  | nil => simp [Json.scanUnsigned] at hscan
  | cons c tail =>
    cases hdigit : isDigit c with
    | false => simp [Json.scanUnsigned, hdigit] at hscan
    | true =>
      have hlayout : isLayout c = false := by
        simp only [isDigit, Bool.and_eq_true, decide_eq_true_eq] at hdigit
        exact isLayout_of_le (by omega)
      rcases hR.cons h hlayout with ⟨t, rfl, ht⟩
      -- the digits before the fraction
      have hdigits : ∃ digits after after',
          (if c = 0x30 then ([c], tail)
            else ((c :: tail).takeWhile isDigit, (c :: tail).dropWhile isDigit))
            = (digits, after) ∧
          (if c = 0x30 then ([c], t)
            else ((c :: t).takeWhile isDigit, (c :: t).dropWhile isDigit)) = (digits, after') ∧
          R after after' ∧ c :: t = digits ++ after' ∧ digits ≠ [] := by
        by_cases hzero : c = 0x30
        . exact ⟨[c], tail, t, by rw [if_pos hzero], by rw [if_pos hzero], ht, rfl, by simp⟩
        . rcases hR.digits h with ⟨htake, hdrop⟩
          refine ⟨_, _, _, by rw [if_neg hzero], by rw [if_neg hzero, htake], hdrop, ?_, ?_⟩
          . rw [← htake, List.takeWhile_append_dropWhile]
          . simp [hdigit]
      rcases hdigits with ⟨digits, after, after', hleft, hright, hafter, happend, hne⟩
      simp only [Json.scanUnsigned, hdigit, hleft, Bool.not_true, Bool.false_eq_true, ↓reduceIte,
        Option.some.injEq, Prod.mk.injEq] at hscan
      rcases hscan with ⟨rfl, rfl, rfl⟩
      rcases hR.scanFraction hafter (Prod.mk.eta.symm) with ⟨rest1, hfrac, hrest1, happend1⟩
      rcases hR.scanExponent hrest1 (Prod.mk.eta.symm) with ⟨rest2, hexp, hrest2, happend2⟩
      refine ⟨rest2, ?_, hrest2, ?_, by simp [hne]⟩
      . simp only [Json.scanUnsigned, hdigit, hright, hfrac, hexp, Bool.not_true,
          Bool.false_eq_true, ↓reduceIte]
      . rw [happend, happend1, happend2, List.append_assoc, List.append_assoc]

theorem Simulates.scanNumber? {text rest : Str} {isFloat : Bool} (h : R s s')
    (hscan : Json.scanNumber? s = some (text, isFloat, rest))
    : ∃ rest', Json.scanNumber? s' = some (text, isFloat, rest') ∧ R rest rest' ∧
        s' = text ++ rest' ∧ text ≠ [] := by
  rw [scanNumber?_eq] at hscan
  rcases Option.map_eq_some_iff.mp hscan with ⟨⟨digits, isFloat', rest1⟩, hdigits, heq⟩
  simp only [Prod.mk.injEq] at heq
  rcases heq with ⟨rfl, rfl, rfl⟩
  -- a minus sign is there on both sides or on none
  have hminus : (minusOf s').1 = (minusOf s).1 ∧ R (minusOf s).2 (minusOf s').2 ∧
      s' = (minusOf s').1 ++ (minusOf s').2 := by
    cases s with
    | nil => simp [minusOf, Json.scanUnsigned] at hdigits
    | cons c tail =>
      have hlayout : isLayout c = false := by
        by_contra hc
        rw [Bool.not_eq_false] at hc
        have hdigit := isDigit_of_isBreak (isBreak_of_isSpace (isSpace_of_isLayout hc))
        have hne : c ≠ 0x2d := by
          rintro rfl
          exact absurd hc (by decide)
        simp [minusOf, hne, Json.scanUnsigned, hdigit] at hdigits
      rcases hR.cons h hlayout with ⟨t, rfl, ht⟩
      by_cases hc : c = 0x2d
      . simp only [minusOf, hc, ↓reduceIte]
        exact ⟨trivial, ht, rfl⟩
      . simp only [minusOf, hc, ↓reduceIte]
        exact ⟨trivial, h, rfl⟩
  rcases hminus with ⟨hsign, hafter, happend⟩
  rcases hR.scanUnsigned hafter hdigits with ⟨rest', hscan', hrest', happend', hne⟩
  refine ⟨rest', ?_, hrest', ?_, by simp [hne]⟩
  . rw [scanNumber?_eq, hscan', hsign]
    rfl
  . rw [List.append_assoc, ← hsign, ← happend', ← happend]

/--
A word is there on both sides or on none.
-/
theorem Simulates.stripPrefix? (w : Str) (hw : w.all (!isBreak ·) = true) (h : R s s')
    : (∃ rest rest', Json.stripPrefix? w s = some rest ∧ Json.stripPrefix? w s' = some rest' ∧
          R rest rest' ∧ s' = w ++ rest') ∨
        (Json.stripPrefix? w s = none ∧ Json.stripPrefix? w s' = none) := by
  have hbreak : ∀ c ∈ w, isBreak c = false := by
    simpa [List.all_eq_true] using hw
  have hlayout : ∀ c ∈ w, isLayout c = false := by
    intro c hc
    cases hl : isLayout c with
    | false => rfl
    | true =>
      have hbreak' := isBreak_of_isSpace (isSpace_of_isLayout hl)
      rw [hbreak c hc] at hbreak'
      exact hbreak'.symm
  cases hstrip : Json.stripPrefix? w s with
  | some rest =>
    rw [stripPrefix?_eq_some hstrip] at h
    rcases hR.append h hlayout with ⟨rest', rfl, hrest⟩
    exact Or.inl ⟨rest, rest', rfl, stripPrefix?_append w rest', hrest, rfl⟩
  | none =>
    refine Or.inr ⟨rfl, ?_⟩
    rw [Option.eq_none_iff_forall_ne_some]
    intro rest' hrest'
    -- the word would be on the left side too, character by character
    have hleft : ∀ (w s : Str), R s (w ++ rest') → (∀ c ∈ w, isBreak c = false) →
        ∃ rest, s = w ++ rest := by
      intro w
      induction w with
      | nil => exact fun s _ _ => ⟨s, rfl⟩
      | cons c w ih =>
        intro s hs hw
        have hbreak := hw c List.mem_cons_self
        cases s with
        | nil =>
          have hends := (breaks_cons _ _).mp (hR.ends hs (by simp))
          simp [hbreak] at hends
        | cons d s =>
          rcases hR.head hs with ⟨t, heq, ht⟩ | ⟨_, hends⟩
          . rcases List.cons.inj heq with ⟨rfl, rfl⟩
            rcases ih s ht (fun e he => hw e (List.mem_cons_of_mem _ he)) with ⟨rest, rfl⟩
            exact ⟨rest, rfl⟩
          . have hends := (breaks_cons _ _).mp hends
            simp [hbreak] at hends
    rw [stripPrefix?_eq_some hrest'] at h
    rcases hleft w s h hbreak with ⟨rest, rfl⟩
    simp [stripPrefix?_append] at hstrip

/--
A word or a number, with at least one character.
-/
theorem Simulates.scanAtom {ε ε' : Type} {H : Hooks ε} {H' : Hooks ε'} (hH : H.Refines H')
    {v : Json} {rest : Str} (h : R s s') (hscan : Json.scanAtom H s = .ok (v, rest))
    : ∃ rest', Json.scanAtom H' s' = .ok (v, rest') ∧ R rest rest' ∧
        rest'.length < s'.length := by
  have hlength : ∀ {w rest' : Str}, w ≠ [] → s' = w ++ rest' → rest'.length < s'.length := by
    rintro w rest' hne rfl
    have hpos := List.length_pos_iff.mpr hne
    rw [List.length_append]
    omega
  unfold Json.scanAtom at hscan ⊢
  rcases hR.stripPrefix? (txt "null") (by decide) h with
    ⟨r, r', hleft, hright, hr, happend⟩ | ⟨hnull, hnull'⟩
  . simp only [hleft, hright, Except.ok.injEq, Prod.mk.injEq] at hscan ⊢
    rcases hscan with ⟨rfl, rfl⟩
    exact ⟨r', ⟨rfl, rfl⟩, hr, hlength (by decide) happend⟩
  rcases hR.stripPrefix? (txt "true") (by decide) h with
    ⟨r, r', hleft, hright, hr, happend⟩ | ⟨htrue, htrue'⟩
  . simp only [hnull, hnull', hleft, hright, Except.ok.injEq, Prod.mk.injEq] at hscan ⊢
    rcases hscan with ⟨rfl, rfl⟩
    exact ⟨r', ⟨rfl, rfl⟩, hr, hlength (by decide) happend⟩
  rcases hR.stripPrefix? (txt "false") (by decide) h with
    ⟨r, r', hleft, hright, hr, happend⟩ | ⟨hfalse, hfalse'⟩
  . simp only [hnull, hnull', htrue, htrue', hleft, hright, Except.ok.injEq,
      Prod.mk.injEq] at hscan ⊢
    rcases hscan with ⟨rfl, rfl⟩
    exact ⟨r', ⟨rfl, rfl⟩, hr, hlength (by decide) happend⟩
  -- the constants are left to the hooks
  have hconstant : ∀ {name r r' : Str} {v : Json}, name ≠ [] → s' = name ++ r' → R r r' →
      (do return (.float (← H.parseConstant name), r) : Except ε (Json × Str)) = .ok (v, rest) →
      ∃ rest', (do return (.float (← H'.parseConstant name), r') : Except ε' (Json × Str))
        = .ok (v, rest') ∧ R rest rest' ∧ rest'.length < s'.length := by
    intro name r r' v hne happend hr heq
    rcases Except.bind_eq_ok.mp heq with ⟨x, hx, heq⟩
    rcases Prod.mk.inj (Except.pure_eq_ok.mp heq) with ⟨rfl, rfl⟩
    exact ⟨r', by rw [hH.parseConstant hx]; rfl, hr, hlength hne happend⟩
  rcases hR.stripPrefix? (txt "NaN") (by decide) h with
    ⟨r, r', hleft, hright, hr, happend⟩ | ⟨hnan, hnan'⟩
  . simp only [hnull, hnull', htrue, htrue', hfalse, hfalse', hleft, hright] at hscan ⊢
    exact hconstant (by decide) happend hr hscan
  rcases hR.stripPrefix? (txt "Infinity") (by decide) h with
    ⟨r, r', hleft, hright, hr, happend⟩ | ⟨hinf, hinf'⟩
  . simp only [hnull, hnull', htrue, htrue', hfalse, hfalse', hnan, hnan', hleft,
      hright] at hscan ⊢
    exact hconstant (by decide) happend hr hscan
  rcases hR.stripPrefix? (txt "-Infinity") (by decide) h with
    ⟨r, r', hleft, hright, hr, happend⟩ | ⟨hneg, hneg'⟩
  . simp only [hnull, hnull', htrue, htrue', hfalse, hfalse', hnan, hnan', hinf, hinf', hleft,
      hright] at hscan ⊢
    exact hconstant (by decide) happend hr hscan
  simp only [hnull, hnull', htrue, htrue', hfalse, hfalse', hnan, hnan', hinf, hinf', hneg,
    hneg'] at hscan ⊢
  split at hscan
  . simp at hscan
  . next text r hnum =>
    rcases hR.scanNumber? h hnum with ⟨r', hnum', hr, happend, hne⟩
    rcases Except.bind_eq_ok.mp hscan with ⟨x, hx, heq⟩
    rcases Prod.mk.inj (Except.pure_eq_ok.mp heq) with ⟨rfl, rfl⟩
    exact ⟨r', by rw [hnum']; simp only [hH.parseFloat hx]; rfl, hr, hlength hne happend⟩
  . next text r hnum =>
    rcases hR.scanNumber? h hnum with ⟨r', hnum', hr, happend, hne⟩
    rcases Except.bind_eq_ok.mp hscan with ⟨x, hx, heq⟩
    rcases Prod.mk.inj (Except.pure_eq_ok.mp heq) with ⟨rfl, rfl⟩
    exact ⟨r', by rw [hnum']; simp only [hH.parseInt hnum hx]; rfl, hr, hlength hne happend⟩

end

theorem isLayout_of_hexDigit {c : CodePoint} {d : Nat} (h : Hex.digit? c = some d)
    : isLayout c = false := by
  cases hc : isLayout c with
  | false => rfl
  | true =>
    simp only [isLayout, Bool.or_eq_true, decide_eq_true_eq] at hc
    rcases hc with (rfl | rfl) | rfl <;> exact absurd h (by decide +revert)

theorem isLayout_of_hex4? {a b c d n : CodePoint} (h : hex4? a b c d = some n)
    : ∀ e ∈ [a, b, c, d], isLayout e = false := by
  simp only [hex4?, Option.bind_eq_bind, Option.bind_eq_some_iff] at h
  rcases h with ⟨_, ha, _, hb, _, hc, _, hd, _⟩
  simp only [List.mem_cons, List.not_mem_nil, or_false, forall_eq_or_imp, forall_eq]
  exact ⟨isLayout_of_hexDigit ha, isLayout_of_hexDigit hb, isLayout_of_hexDigit hc,
    isLayout_of_hexDigit hd⟩

theorem isLayout_of_unescape? {l c : CodePoint} (h : unescape? l = some c)
    : isLayout l = false := by
  cases hl : isLayout l with
  | false => rfl
  | true =>
    simp only [isLayout, Bool.or_eq_true, decide_eq_true_eq] at hl
    rcases hl with (rfl | rfl) | rfl <;> simp [unescape?] at h

/--
A string depends on its own characters only, and control characters are not among them.
-/
theorem scanPieces_eq_append {s rest : Str} {ps : List Piece} (h : scanPieces s = some (ps, rest))
    : ∃ w, s = w ++ rest ∧ w ≠ [] ∧ (∀ c ∈ w, isLayout c = false) ∧
        ∀ t, scanPieces (w ++ t) = some (ps, t) := by
  fun_induction scanPieces s generalizing ps with
  | case1 => simp at h
  | case2 s =>
    rcases Prod.mk.inj (Option.some.inj h) with ⟨rfl, rfl⟩
    refine ⟨[0x22], rfl, by simp, by simp [isLayout], ?_⟩
    intro t
    rw [List.cons_append, scanPieces.eq_def]
    rfl
  | case3 => simp at h
  | case4 h1 h2 h3 h4 s n hn _ ih =>
    rcases Option.map_eq_some_iff.mp h with ⟨⟨qs, rest'⟩, hqs, heq⟩
    rcases Prod.mk.inj heq with ⟨rfl, rfl⟩
    rcases ih hqs with ⟨w, rfl, _, hw, hscan⟩
    have hhex := isLayout_of_hex4? hn
    refine ⟨0x5c :: 0x75 :: h1 :: h2 :: h3 :: h4 :: w, rfl, by simp, ?_, ?_⟩
    . simp only [List.mem_cons, List.not_mem_nil, or_false, forall_eq_or_imp, forall_eq] at hhex ⊢
      exact ⟨by decide, by decide, hhex.1, hhex.2.1, hhex.2.2.1, hhex.2.2.2, hw⟩
    . intro t
      simp only [List.cons_append]
      rw [scanPieces.eq_def]
      simp [hn, hscan]
  | case5 => simp at h
  | case6 => simp at h
  | case7 l s hu c hc _ ih =>
    rcases Option.map_eq_some_iff.mp h with ⟨⟨qs, rest'⟩, hqs, heq⟩
    rcases Prod.mk.inj heq with ⟨rfl, rfl⟩
    rcases ih hqs with ⟨w, rfl, _, hw, hscan⟩
    refine ⟨0x5c :: l :: w, rfl, by simp, ?_, ?_⟩
    . simp only [List.mem_cons, forall_eq_or_imp]
      exact ⟨by decide, isLayout_of_unescape? hc, hw⟩
    . intro t
      simp only [List.cons_append]
      rw [scanPieces.eq_def]
      simp [hu, hc, hscan]
  | case8 => simp at h
  | case9 => simp at h
  | case10 c s hquote hslash hctl ih =>
    rcases Option.map_eq_some_iff.mp h with ⟨⟨qs, rest'⟩, hqs, heq⟩
    rcases Prod.mk.inj heq with ⟨rfl, rfl⟩
    rcases ih hqs with ⟨w, rfl, _, hw, hscan⟩
    refine ⟨c :: w, rfl, by simp, ?_, ?_⟩
    . simp only [List.mem_cons, forall_eq_or_imp]
      exact ⟨isLayout_of_le (by omega), hw⟩
    . intro t
      rw [List.cons_append, scanPieces.eq_def]
      simp [hquote, hslash, hctl, hscan]

theorem scanValue_nil {ε : Type} (H : Hooks ε) (fuel depth : Nat)
    : scanValue H fuel depth [] = .error H.syntaxError := by
  cases fuel <;> rfl

/--
No word and no number starts with a character that would end it.
-/
theorem scanAtom_of_breaks {ε : Type} (H : Hooks ε) {s : Str} (h : Breaks s)
    : scanAtom H s = .error H.syntaxError := by
  have hword : ∀ c w, isBreak c = false → stripPrefix? (c :: w) s = none := by
    intro c w hc
    rw [Option.eq_none_iff_forall_ne_some]
    intro rest hrest
    rw [stripPrefix?_eq_some hrest, List.cons_append, breaks_cons] at h
    simp [hc] at h
  have hnumber : scanNumber? s = none := by
    cases s with
    | nil => rfl
    | cons c s =>
      have hbreak := (breaks_cons c s).mp h
      have hminus : c ≠ 0x2d := ne_of_isBreak hbreak (by decide)
      simp [scanNumber?_eq, minusOf, hminus, scanUnsigned, isDigit_of_isBreak hbreak]
  have h1 : stripPrefix? (txt "null") s = none := hword _ _ (by decide)
  have h2 : stripPrefix? (txt "true") s = none := hword _ _ (by decide)
  have h3 : stripPrefix? (txt "false") s = none := hword _ _ (by decide)
  have h4 : stripPrefix? (txt "NaN") s = none := hword _ _ (by decide)
  have h5 : stripPrefix? (txt "Infinity") s = none := hword _ _ (by decide)
  have h6 : stripPrefix? (txt "-Infinity") s = none := hword _ _ (by decide)
  simp only [scanAtom, h1, h2, h3, h4, h5, h6, hnumber]

theorem scanValue_of_not_break {ε : Type} (H : Hooks ε) (fuel depth : Nat) {c : CodePoint}
    (hc : isBreak c = false) (s : Str)
    : scanValue H (fuel + 1) depth (c :: s) = scanAtom H (c :: s) := by
  have hne : ∀ d, isBreak d = true → c ≠ d := fun d hd => (ne_of_isBreak hd hc).symm
  simp only [scanValue, hne 0x22 (by decide), hne 0x5b (by decide), hne 0x7b (by decide),
    ↓reduceIte]

section

variable {R : Str → Str → Prop} (hR : Simulates R)

include hR

theorem Simulates.scanString {lone : CodePoint → CodePoint} {s s' t rest : Str} (h : R s s')
    (hscan : Json.scanString lone s = some (t, rest))
    : ∃ rest', Json.scanString lone s' = some (t, rest') ∧ R rest rest' ∧
        rest'.length < s'.length := by
  rcases Option.map_eq_some_iff.mp hscan with ⟨⟨ps, rest1⟩, hps, heq⟩
  rcases Prod.mk.inj heq with ⟨rfl, rfl⟩
  rcases scanPieces_eq_append hps with ⟨w, rfl, hne, hw, hsame⟩
  rcases hR.append h hw with ⟨rest', rfl, hrest⟩
  refine ⟨rest', by rw [Json.scanString, hsame]; rfl, hrest, ?_⟩
  have hpos := List.length_pos_iff.mpr hne
  rw [List.length_append]
  omega

omit hR in
theorem isLayout_of_skipSpace {s tail : Str} {d : CodePoint} (h : skipSpace s = d :: tail)
    : isLayout d = false := by
  cases hd : isLayout d with
  | false => rfl
  | true =>
    have hspace := List.head?_dropWhile_not isSpace s
    rw [skipSpace] at h
    rw [h] at hspace
    simp [isSpace_of_isLayout hd] at hspace

/--
What comes after a token: the next one, on both sides.
-/
theorem Simulates.skip_cons {s s' tail : Str} {d : CodePoint} (h : R s s')
    (hskip : skipSpace s = d :: tail)
    : ∃ tail', skipSpace s' = d :: tail' ∧ R (d :: tail) (d :: tail') ∧ R tail tail' ∧
        tail'.length < s'.length := by
  have hne : skipSpace s ≠ [] := by simp [hskip]
  have hR' := hR.skip h hne
  rw [hskip] at hR'
  rcases hR.cons hR' (isLayout_of_skipSpace hskip) with ⟨tail', heq, htail⟩
  refine ⟨tail', heq, heq ▸ hR', htail, ?_⟩
  have hle : (skipSpace s').length ≤ s'.length := (List.dropWhile_suffix _).length_le
  rw [heq, List.length_cons] at hle
  exact hle

/--
A scan on the right needs no more fuel than it takes characters.
-/
theorem Simulates.scan {ε ε' : Type} {H : Hooks ε} {H' : Hooks ε'} (hH : H.Refines H')
    (fuel : Nat)
    : (∀ depth depth' s s' v rest, depth ≤ depth' → R s s' →
          scanValue H fuel depth s = .ok (v, rest) →
          ∃ rest', R rest rest' ∧ rest'.length < s'.length ∧
            ∀ fuel', s'.length ≤ fuel' + rest'.length →
              scanValue H' fuel' depth' s' = .ok (v, rest')) ∧
        (∀ depth depth' s s' xs rest, depth ≤ depth' → R s s' →
          scanElems H fuel depth s = .ok (xs, rest) →
          ∃ rest', R rest rest' ∧ rest'.length < s'.length ∧
            ∀ fuel', s'.length ≤ fuel' + rest'.length →
              scanElems H' fuel' depth' s' = .ok (xs, rest')) ∧
        (∀ depth depth' s s' ms rest, depth ≤ depth' → R s s' →
          scanMembers H fuel depth s = .ok (ms, rest) →
          ∃ rest', R rest rest' ∧ rest'.length < s'.length ∧
            ∀ fuel', s'.length ≤ fuel' + rest'.length →
              scanMembers H' fuel' depth' s' = .ok (ms, rest')) := by
  induction fuel with
  | zero =>
    refine ⟨?_, ?_, ?_⟩ <;>
    . intro depth depth' s s' v rest _ _ hscan
      simp [scanValue, scanElems, scanMembers] at hscan
  | succ fuel ih =>
    rcases ih with ⟨ihvalue, ihelems, ihmembers⟩
    refine ⟨?_, ?_, ?_⟩
    -- values
    . intro depth depth' s s' v rest hdepth h hscan
      cases s with
      | nil => simp [scanValue] at hscan
      | cons c s =>
        by_cases hquote : c = 0x22
        . subst hquote
          rcases hR.cons h (by decide) with ⟨t, rfl, ht⟩
          simp only [scanValue, ↓reduceIte] at hscan
          split at hscan
          . simp at hscan
          . next text tail hstring =>
            rcases Prod.mk.inj (Except.ok.inj hscan) with ⟨rfl, rfl⟩
            rcases hR.scanString ht hstring with ⟨rest', hstring', hrest, hlen⟩
            refine ⟨rest', hrest, by rw [List.length_cons]; omega, ?_⟩
            intro fuel' hfuel
            cases fuel' with
            | zero => rw [List.length_cons] at hfuel; omega
            | succ k => simp only [scanValue, ↓reduceIte, ← hH.lone, hstring']
        . by_cases harr : c = 0x5b
          . subst harr
            rcases hR.cons h (by decide) with ⟨t, rfl, ht⟩
            cases depth with
            | zero => simp [scanValue] at hscan
            | succ depth =>
              rcases Nat.exists_eq_add_of_le hdepth with ⟨more, rfl⟩
              simp only [scanValue, hquote, ↓reduceIte] at hscan
              split at hscan
              . simp at hscan
              . next d tail hskip =>
                rcases hR.skip_cons ht hskip with ⟨tail', hskip', hcons, htail, hlen⟩
                split at hscan
                . next hd =>
                  rcases Prod.mk.inj (Except.ok.inj hscan) with ⟨rfl, rfl⟩
                  refine ⟨tail', htail, by rw [List.length_cons]; omega, ?_⟩
                  intro fuel' hfuel
                  cases fuel' with
                  | zero => rw [List.length_cons] at hfuel; omega
                  | succ k =>
                    rw [Nat.add_right_comm]
                    simp only [scanValue, hquote, ↓reduceIte, hskip', if_pos hd]
                . next hd =>
                  rcases Except.bind_eq_ok.mp hscan with ⟨⟨xs, rest1⟩, hxs, hscan⟩
                  rcases Prod.mk.inj (Except.pure_eq_ok.mp hscan) with ⟨rfl, rfl⟩
                  rcases ihelems depth (depth + more) _ _ _ _ (Nat.le_add_right _ _) hcons hxs with
                    ⟨rest', hrest, hlen', hok⟩
                  rw [List.length_cons] at hlen' hok
                  refine ⟨rest', hrest, by rw [List.length_cons]; omega, ?_⟩
                  intro fuel' hfuel
                  rw [List.length_cons] at hfuel
                  cases fuel' with
                  | zero => omega
                  | succ k =>
                    rw [Nat.add_right_comm]
                    simp only [scanValue, hquote, ↓reduceIte, hskip', if_neg hd,
                      hok k (by omega), Except.ok_bind]
                    rfl
          . by_cases hobj : c = 0x7b
            . subst hobj
              rcases hR.cons h (by decide) with ⟨t, rfl, ht⟩
              cases depth with
              | zero => simp [scanValue] at hscan
              | succ depth =>
                rcases Nat.exists_eq_add_of_le hdepth with ⟨more, rfl⟩
                simp only [scanValue, hquote, harr, ↓reduceIte] at hscan
                split at hscan
                . simp at hscan
                . next d tail hskip =>
                  rcases hR.skip_cons ht hskip with ⟨tail', hskip', hcons, htail, hlen⟩
                  split at hscan
                  . next hd =>
                    rcases Except.bind_eq_ok.mp hscan with ⟨ms, hms, hscan⟩
                    rcases Prod.mk.inj (Except.pure_eq_ok.mp hscan) with ⟨rfl, rfl⟩
                    refine ⟨tail', htail, by rw [List.length_cons]; omega, ?_⟩
                    intro fuel' hfuel
                    cases fuel' with
                    | zero => rw [List.length_cons] at hfuel; omega
                    | succ k =>
                      rw [Nat.add_right_comm]
                      simp only [scanValue, hquote, harr, ↓reduceIte, hskip', if_pos hd,
                        hH.objectPairs hms, Except.ok_bind]
                      rfl
                  . next hd =>
                    rcases Except.bind_eq_ok.mp hscan with ⟨⟨pairs, rest1⟩, hpairs, hscan⟩
                    rcases Except.bind_eq_ok.mp hscan with ⟨ms, hms, hscan⟩
                    rcases Prod.mk.inj (Except.pure_eq_ok.mp hscan) with ⟨rfl, rfl⟩
                    rcases ihmembers depth (depth + more) _ _ _ _ (Nat.le_add_right _ _) hcons
                      hpairs with ⟨rest', hrest, hlen', hok⟩
                    rw [List.length_cons] at hlen' hok
                    refine ⟨rest', hrest, by rw [List.length_cons]; omega, ?_⟩
                    intro fuel' hfuel
                    rw [List.length_cons] at hfuel
                    cases fuel' with
                    | zero => omega
                    | succ k =>
                      rw [Nat.add_right_comm]
                      simp only [scanValue, hquote, harr, ↓reduceIte, hskip', if_neg hd,
                        hok k (by omega), Except.ok_bind, hH.objectPairs hms]
                      rfl
            . simp only [scanValue, hquote, harr, hobj, ↓reduceIte] at hscan
              rcases hR.scanAtom hH h hscan with ⟨rest', hatom, hrest, hlen⟩
              refine ⟨rest', hrest, hlen, ?_⟩
              intro fuel' hfuel
              cases fuel' with
              | zero => omega
              | succ k =>
                cases s' with
                | nil => simp at hlen
                | cons d t =>
                  cases hbreak : isBreak d with
                  | false => rw [scanValue_of_not_break H' k depth' hbreak, hatom]
                  | true =>
                    rw [scanAtom_of_breaks H' (by simpa using hbreak)] at hatom
                    simp at hatom
    -- elements
    . intro depth depth' s s' xs rest hdepth h hscan
      simp only [scanElems] at hscan
      rcases Except.bind_eq_ok.mp hscan with ⟨⟨x, rest1⟩, hx, hscan⟩
      rcases ihvalue _ _ _ _ _ _ hdepth h hx with ⟨rest1', hrest1, hlen1, hok1⟩
      simp only at hscan
      split at hscan
      . simp at hscan
      . next d tail hskip =>
        rcases hR.skip_cons hrest1 hskip with ⟨tail', hskip', _, htail, hlen2⟩
        split at hscan
        . next hd =>
          rcases Prod.mk.inj (Except.pure_eq_ok.mp hscan) with ⟨rfl, rfl⟩
          refine ⟨tail', htail, by omega, ?_⟩
          intro fuel' hfuel
          cases fuel' with
          | zero => omega
          | succ k =>
            simp only [scanElems, hok1 k (by omega), Except.ok_bind, hskip', if_pos hd]
            rfl
        . next hd =>
          split at hscan
          . next hcomma =>
            rcases Except.bind_eq_ok.mp hscan with ⟨⟨ys, final⟩, hys, hscan⟩
            rcases Prod.mk.inj (Except.pure_eq_ok.mp hscan) with ⟨rfl, rfl⟩
            have hne : skipSpace tail ≠ [] := by
              intro hnil
              rw [hnil] at hys
              cases fuel with
              | zero => simp [scanElems] at hys
              | succ fuel => simp [scanElems, scanValue_nil, Except.error_bind] at hys
            rcases ihelems _ _ _ _ _ _ hdepth (hR.skip htail hne) hys with
              ⟨rest', hrest, hlen3, hok2⟩
            have hle : (skipSpace tail').length ≤ tail'.length :=
              (List.dropWhile_suffix _).length_le
            refine ⟨rest', hrest, by omega, ?_⟩
            intro fuel' hfuel
            cases fuel' with
            | zero => omega
            | succ k =>
              simp only [scanElems, hok1 k (by omega), Except.ok_bind, hskip', if_neg hd,
                if_pos hcomma, hok2 k (by omega)]
              rfl
          . simp at hscan
    -- members
    . intro depth depth' s s' ms rest hdepth h hscan
      cases s with
      | nil => simp [scanMembers] at hscan
      | cons c s =>
        by_cases hquote : c = 0x22
        . subst hquote
          rcases hR.cons h (by decide) with ⟨t, rfl, ht⟩
          simp only [scanMembers, ne_eq, not_true_eq_false, ↓reduceIte] at hscan
          split at hscan
          . simp at hscan
          . next key after hstring =>
            rcases hR.scanString ht hstring with ⟨after', hstring', hafter, hlen0⟩
            split at hscan
            . simp at hscan
            . next colon tail0 hskip0 =>
              rcases hR.skip_cons hafter hskip0 with ⟨tail0', hskip0', _, htail0, hlen1⟩
              split at hscan
              . simp at hscan
              . next hcolon =>
                rcases Except.bind_eq_ok.mp hscan with ⟨⟨v, rest1⟩, hv, hscan⟩
                have hne : skipSpace tail0 ≠ [] := by
                  intro hnil
                  rw [hnil, scanValue_nil] at hv
                  simp at hv
                rcases ihvalue _ _ _ _ _ _ hdepth (hR.skip htail0 hne) hv with
                  ⟨rest1', hrest1, hlen2, hok1⟩
                have hle : (skipSpace tail0').length ≤ tail0'.length :=
                  (List.dropWhile_suffix _).length_le
                simp only at hscan
                split at hscan
                . simp at hscan
                . next d tail hskip =>
                  rcases hR.skip_cons hrest1 hskip with ⟨tail', hskip', _, htail, hlen3⟩
                  split at hscan
                  . next hd =>
                    rcases Prod.mk.inj (Except.pure_eq_ok.mp hscan) with ⟨rfl, rfl⟩
                    refine ⟨tail', htail, by rw [List.length_cons]; omega, ?_⟩
                    intro fuel' hfuel
                    rw [List.length_cons] at hfuel
                    cases fuel' with
                    | zero => omega
                    | succ k =>
                      simp only [scanMembers, ne_eq, not_true_eq_false, ↓reduceIte, ← hH.lone,
                        hstring', hskip0', if_neg hcolon, hok1 k (by omega), Except.ok_bind,
                        hskip', if_pos hd]
                      rfl
                  . next hd =>
                    split at hscan
                    . next hcomma =>
                      rcases Except.bind_eq_ok.mp hscan with ⟨⟨ns, final⟩, hns, hscan⟩
                      rcases Prod.mk.inj (Except.pure_eq_ok.mp hscan) with ⟨rfl, rfl⟩
                      have hne' : skipSpace tail ≠ [] := by
                        intro hnil
                        rw [hnil] at hns
                        cases fuel <;> simp [scanMembers] at hns
                      rcases ihmembers _ _ _ _ _ _ hdepth (hR.skip htail hne') hns with
                        ⟨rest', hrest, hlen4, hok2⟩
                      have hle' : (skipSpace tail').length ≤ tail'.length :=
                        (List.dropWhile_suffix _).length_le
                      refine ⟨rest', hrest, by rw [List.length_cons]; omega, ?_⟩
                      intro fuel' hfuel
                      rw [List.length_cons] at hfuel
                      cases fuel' with
                      | zero => omega
                      | succ k =>
                        simp only [scanMembers, ne_eq, not_true_eq_false, ↓reduceIte, ← hH.lone,
                          hstring', hskip0', if_neg hcolon, hok1 k (by omega), Except.ok_bind,
                          hskip', if_neg hd, if_pos hcomma, hok2 k (by omega)]
                        rfl
                    . simp at hscan
        . simp [scanMembers, hquote] at hscan

end

end Json
