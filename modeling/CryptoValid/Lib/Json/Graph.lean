import CryptoValid.Lib.Except
import CryptoValid.Lib.Json.Parse
import Mathlib.Data.List.TakeWhile

/-!
This module contains the graph of the parser: how a value, the elements of an array or the members of an
object are read off the front of a text. Facts about everything that is parsed are proved by induction
on it.
-/

namespace Json

/-!
### Numbers
-/

def Digits (s : Str) : Prop := s ≠ [] ∧ ∀ c ∈ s, isDigit c = true

def Fraction (s : Str) : Prop := s = [] ∨ ∃ digits, s = 0x2e :: digits ∧ Digits digits

def Exponent (s : Str) : Prop :=
  s = [] ∨ ∃ e sign digits, s = e :: (sign ++ digits) ∧ (e = 0x65 ∨ e = 0x45) ∧
    (sign = [] ∨ sign = [0x2b] ∨ sign = [0x2d]) ∧ Digits digits

theorem digits_takeWhile {c : CodePoint} {s : Str} (hc : isDigit c = true)
    : Digits ((c :: s).takeWhile isDigit) := by
  refine ⟨?_, fun d hd => List.mem_takeWhile_imp hd⟩
  rw [List.takeWhile_cons_of_pos hc]
  exact List.cons_ne_nil _ _

theorem scanFraction_append {s frac rest : Str} (h : scanNumber?.scanFraction s = (frac, rest))
    : s = frac ++ rest ∧ Fraction frac := by
  unfold scanNumber?.scanFraction at h
  split at h
  . next c d tail =>
    split at h
    . next hcd =>
      rcases Prod.mk.inj h with ⟨rfl, rfl⟩
      refine ⟨by simp [List.takeWhile_append_dropWhile], Or.inr ⟨(d :: tail).takeWhile isDigit, ?_, ?_⟩⟩
      . rw [hcd.1]
      . exact digits_takeWhile hcd.2
    . rcases Prod.mk.inj h with ⟨rfl, rfl⟩
      exact ⟨rfl, Or.inl rfl⟩
  . rcases Prod.mk.inj h with ⟨rfl, rfl⟩
    exact ⟨rfl, Or.inl rfl⟩

theorem scanExponent_append {s exp rest : Str} (h : scanNumber?.scanExponent s = (exp, rest))
    : s = exp ++ rest ∧ Exponent exp := by
  unfold scanNumber?.scanExponent at h
  split at h
  . next c tail =>
    split at h
    . next hc =>
      -- the sign is one character or nothing
      have hsign : ∀ sign digits : Str, tail = sign ++ digits →
          (sign = [] ∨ sign = [0x2b] ∨ sign = [0x2d]) →
          (if (digits.takeWhile isDigit).isEmpty then (([], c :: tail) : Str × Str)
            else (c :: (sign ++ digits.takeWhile isDigit), digits.dropWhile isDigit)) = (exp, rest) →
          c :: tail = exp ++ rest ∧ Exponent exp := by
        intro sign digits htail hshape heq
        split at heq
        . rcases Prod.mk.inj heq with ⟨rfl, rfl⟩
          exact ⟨rfl, Or.inl rfl⟩
        . next hempty =>
          rcases Prod.mk.inj heq with ⟨rfl, rfl⟩
          refine ⟨by simp [htail, List.takeWhile_append_dropWhile],
            Or.inr ⟨c, sign, _, rfl, hc, hshape, ?_, fun d hd => List.mem_takeWhile_imp hd⟩⟩
          rwa [List.isEmpty_iff] at hempty
      cases tail with
      | nil => exact hsign [] [] rfl (Or.inl rfl) h
      | cons d tail =>
        simp only at h
        split at h
        . next hd =>
          refine hsign [d] tail rfl (Or.inr ?_) h
          rcases hd with rfl | rfl
          . exact Or.inl rfl
          . exact Or.inr rfl
        . exact hsign [] (d :: tail) rfl (Or.inl rfl) h
    . rcases Prod.mk.inj h with ⟨rfl, rfl⟩
      exact ⟨rfl, Or.inl rfl⟩
  . rcases Prod.mk.inj h with ⟨rfl, rfl⟩
    exact ⟨rfl, Or.inl rfl⟩

/--
The digits of a number and what comes after them, once its sign is read.
-/
def scanUnsigned : Str → Option (Str × Bool × Str)
  | [] => none
  | c :: rest =>
    if !isDigit c then
      none
    else
      let (digits, s) := if c = 0x30 then ([c], rest)
        else ((c :: rest).takeWhile isDigit, (c :: rest).dropWhile isDigit)
      let (frac, s) := scanNumber?.scanFraction s
      let (exp, s) := scanNumber?.scanExponent s
      some (digits ++ frac ++ exp, !(frac.isEmpty && exp.isEmpty), s)

def minusOf : Str → Str × Str
  | c :: rest => if c = 0x2d then ([c], rest) else ([], c :: rest)
  | [] => ([], [])

theorem scanNumber?_eq (s : Str)
    : scanNumber? s
        =
      (scanUnsigned (minusOf s).2).map fun r => ((minusOf s).1 ++ r.1, r.2.1, r.2.2) := by
  have hbody : ∀ sign body : Str,
      (match body with
        | [] => none
        | c :: tail =>
          if !isDigit c then
            none
          else
            let (digits, s) := if c = 0x30 then ([c], tail)
              else (body.takeWhile isDigit, body.dropWhile isDigit)
            let (frac, s) := scanNumber?.scanFraction s
            let (exp, s) := scanNumber?.scanExponent s
            some (sign ++ digits ++ frac ++ exp, !(frac.isEmpty && exp.isEmpty), s))
        = (scanUnsigned body).map fun r => (sign ++ r.1, r.2.1, r.2.2) := by
    intro sign body
    cases body with
    | nil => rfl
    | cons c tail =>
      simp only [scanUnsigned]
      split
      . rfl
      . simp
  unfold scanNumber?
  cases s with
  | nil => exact hbody [] []
  | cons c tail =>
    by_cases hminus : c = 0x2d
    . simp only [minusOf, hminus, ↓reduceIte]
      exact hbody [0x2d] tail
    . simp only [minusOf, hminus, ↓reduceIte]
      exact hbody [] (c :: tail)

/--
The parts of a number; it is a float when one of the last two is there.
-/
theorem scanNumber?_eq_some {s text rest : Str} {isFloat : Bool}
    (h : scanNumber? s = some (text, isFloat, rest))
    : ∃ sign digits frac exp, s = text ++ rest ∧ text = sign ++ digits ++ frac ++ exp ∧
        (sign = [] ∨ sign = [0x2d]) ∧ Digits digits ∧ Fraction frac ∧ Exponent exp ∧
        isFloat = !(frac.isEmpty && exp.isEmpty) := by
  have hminus : s = (minusOf s).1 ++ (minusOf s).2 ∧
      ((minusOf s).1 = [] ∨ (minusOf s).1 = [0x2d]) := by
    unfold minusOf
    split
    . next c rest =>
      split
      . next hc => exact ⟨rfl, Or.inr (by rw [hc])⟩
      . exact ⟨rfl, Or.inl rfl⟩
    . exact ⟨rfl, Or.inl rfl⟩
  rw [scanNumber?_eq] at h
  generalize (minusOf s).1 = sign at hminus h
  generalize (minusOf s).2 = unsigned at hminus h
  rcases Option.map_eq_some_iff.mp h with ⟨⟨body, isFloat', rest'⟩, hbody, heq⟩
  rcases Prod.mk.inj heq with ⟨htext, htail⟩
  rcases Prod.mk.inj htail with ⟨hfloat, hrest⟩
  dsimp only at htext hfloat hrest
  subst htext hfloat hrest
  cases unsigned with
  | nil => cases hbody
  | cons c tail =>
    rw [scanUnsigned] at hbody
    split at hbody
    . cases hbody
    . next hdigit =>
      rw [Bool.not_eq_true, Bool.not_eq_false'] at hdigit
      have hdigits : ∀ digits after : Str, c :: tail = digits ++ after → Digits digits →
          (let (frac, s) := scanNumber?.scanFraction after
            let (exp, s) := scanNumber?.scanExponent s
            some (digits ++ frac ++ exp, !(frac.isEmpty && exp.isEmpty), s))
            = some (body, isFloat', rest') →
          ∃ sign' digits frac exp, s = (sign ++ body) ++ rest' ∧
            sign ++ body = sign' ++ digits ++ frac ++ exp ∧ (sign' = [] ∨ sign' = [0x2d]) ∧
            Digits digits ∧ Fraction frac ∧ Exponent exp ∧
            isFloat' = !(frac.isEmpty && exp.isEmpty) := by
        intro digits after hafter hshape heq
        cases hfrac : scanNumber?.scanFraction after with | mk frac s1 => ?_
        cases hexp : scanNumber?.scanExponent s1 with | mk exp s2 => ?_
        simp only [hfrac, hexp, Option.some.injEq, Prod.mk.injEq] at heq
        rcases heq with ⟨rfl, rfl, rfl⟩
        rcases scanFraction_append hfrac with ⟨rfl, hfraction⟩
        rcases scanExponent_append hexp with ⟨rfl, hexponent⟩
        refine ⟨sign, digits, frac, exp, ?_, by simp, hminus.2, hshape, hfraction, hexponent, rfl⟩
        rw [hminus.1, hafter]
        simp
      by_cases hzero : c = 0x30
      . rw [if_pos hzero] at hbody
        refine hdigits [c] tail rfl ⟨List.cons_ne_nil _ _, ?_⟩ hbody
        exact List.forall_mem_singleton.mpr hdigit
      . rw [if_neg hzero] at hbody
        exact hdigits _ _ List.takeWhile_append_dropWhile.symm (digits_takeWhile hdigit) hbody

/-!
### Values
-/

/--
What the three scanners return.
-/
inductive Part where
  | value (v : Json)
  | elems (xs : List Json)
  | members (ms : List (Str × Json))

/--
A text, what it starts with, and the rest of it; the number is how many levels are left.
-/
inductive Scans {ε : Type} (H : Hooks ε) : Nat → Str → Part → Str → Prop where
  | str {n : Nat} {s t rest : Str} (h : scanString H.lone s = some (t, rest))
    : Scans H n (0x22 :: s) (.value (.str t)) rest
  | atom {n : Nat} {s rest : Str} {v : Json} (h : scanAtom H s = .ok (v, rest))
    : Scans H n s (.value v) rest
  | nilArr {n : Nat} {s rest : Str} (h : skipSpace s = 0x5d :: rest)
    : Scans H (n + 1) (0x5b :: s) (.value (.arr [])) rest
  | arr {n : Nat} {s rest : Str} {xs : List Json} (h : Scans H n (skipSpace s) (.elems xs) rest)
    : Scans H (n + 1) (0x5b :: s) (.value (.arr xs)) rest
  | nilObj {n : Nat} {s rest : Str} {ms : List (Str × Json)} (h : skipSpace s = 0x7d :: rest)
    (hms : H.objectPairs [] = .ok ms) : Scans H (n + 1) (0x7b :: s) (.value (.obj ms)) rest
  | obj {n : Nat} {s rest : Str} {ps ms : List (Str × Json)}
    (h : Scans H n (skipSpace s) (.members ps) rest) (hms : H.objectPairs ps = .ok ms)
    : Scans H (n + 1) (0x7b :: s) (.value (.obj ms)) rest
  | lastElem {n : Nat} {s t rest : Str} {x : Json} (hx : Scans H n s (.value x) t)
    (ht : skipSpace t = 0x5d :: rest) : Scans H n s (.elems [x]) rest
  | elem {n : Nat} {s t u rest : Str} {x : Json} {xs : List Json} (hx : Scans H n s (.value x) t)
    (ht : skipSpace t = 0x2c :: u) (hxs : Scans H n (skipSpace u) (.elems xs) rest)
    : Scans H n s (.elems (x :: xs)) rest
  | lastMember {n : Nat} {s t u w rest : Str} {k : Str} {v : Json}
    (hk : scanString H.lone s = some (k, t)) (ht : skipSpace t = 0x3a :: u)
    (hv : Scans H n (skipSpace u) (.value v) w) (hw : skipSpace w = 0x7d :: rest)
    : Scans H n (0x22 :: s) (.members [(k, v)]) rest
  | member {n : Nat} {s t u w x rest : Str} {k : Str} {v : Json} {ms : List (Str × Json)}
    (hk : scanString H.lone s = some (k, t)) (ht : skipSpace t = 0x3a :: u)
    (hv : Scans H n (skipSpace u) (.value v) w) (hw : skipSpace w = 0x2c :: x)
    (hms : Scans H n (skipSpace x) (.members ms) rest)
    : Scans H n (0x22 :: s) (.members ((k, v) :: ms)) rest

section

variable {ε : Type} {H : Hooks ε}

/--
The three scanners call each other, so that the induction on the fuel is about all of them.
-/
theorem scans_of_scan (fuel : Nat)
    : (∀ n s v rest, scanValue H fuel n s = .ok (v, rest) → Scans H n s (.value v) rest) ∧
      (∀ n s xs rest, scanElems H fuel n s = .ok (xs, rest) → Scans H n s (.elems xs) rest) ∧
      (∀ n s ms rest, scanMembers H fuel n s = .ok (ms, rest) → Scans H n s (.members ms) rest) := by
  induction fuel with
  | zero =>
    refine ⟨?_, ?_, ?_⟩ <;> intro _ _ _ _ h
    . simp [scanValue] at h
    . simp [scanElems] at h
    . simp [scanMembers] at h
  | succ fuel ih =>
    rcases ih with ⟨ihvalue, ihelems, ihmembers⟩
    refine ⟨?_, ?_, ?_⟩
    . intro n s v rest h
      unfold scanValue at h
      split at h
      . cases h
      . split at h
        . next hc =>
          subst hc
          split at h
          . cases h
          . next hstring =>
            rcases Prod.mk.inj (Except.ok.inj h) with ⟨rfl, rfl⟩
            exact .str hstring
        . split at h
          . next hc =>
            subst hc
            split at h
            . cases h
            . split at h
              . cases h
              . next d after hskip =>
                split at h
                . next hd =>
                  subst hd
                  rcases Prod.mk.inj (Except.ok.inj h) with ⟨rfl, rfl⟩
                  exact .nilArr hskip
                . rcases Except.bind_eq_ok.mp h with ⟨⟨xs, final⟩, hxs, h⟩
                  rcases Prod.mk.inj (Except.pure_eq_ok.mp h) with ⟨rfl, rfl⟩
                  rw [← hskip] at hxs
                  exact .arr (ihelems _ _ _ _ hxs)
          . split at h
            . next hc =>
              subst hc
              split at h
              . cases h
              . split at h
                . cases h
                . next d after hskip =>
                  split at h
                  . next hd =>
                    subst hd
                    rcases Except.bind_eq_ok.mp h with ⟨ms, hms, h⟩
                    rcases Prod.mk.inj (Except.pure_eq_ok.mp h) with ⟨rfl, rfl⟩
                    exact .nilObj hskip hms
                  . rcases Except.bind_eq_ok.mp h with ⟨⟨ms, final⟩, hms, h⟩
                    rcases Except.bind_eq_ok.mp h with ⟨ms', hpairs, h⟩
                    rcases Prod.mk.inj (Except.pure_eq_ok.mp h) with ⟨rfl, rfl⟩
                    rw [← hskip] at hms
                    exact .obj (ihmembers _ _ _ _ hms) hpairs
            . exact .atom h
    . intro n s xs rest h
      unfold scanElems at h
      rcases Except.bind_eq_ok.mp h with ⟨⟨x, after⟩, hx, h⟩
      dsimp only at h
      split at h
      . cases h
      . next d tail hskip =>
        split at h
        . next hd =>
          subst hd
          rcases Prod.mk.inj (Except.pure_eq_ok.mp h) with ⟨rfl, rfl⟩
          exact .lastElem (ihvalue _ _ _ _ hx) hskip
        . split at h
          . next hd =>
            subst hd
            rcases Except.bind_eq_ok.mp h with ⟨⟨ys, final⟩, hys, h⟩
            rcases Prod.mk.inj (Except.pure_eq_ok.mp h) with ⟨rfl, rfl⟩
            exact .elem (ihvalue _ _ _ _ hx) hskip (ihelems _ _ _ _ hys)
          . cases h
    . intro n s ms rest h
      unfold scanMembers at h
      split at h
      . cases h
      . split at h
        . cases h
        . next hc =>
          rw [ne_eq, not_not] at hc
          subst hc
          split at h
          . cases h
          . next k after hstring =>
            split at h
            . cases h
            . next colon after' hskip =>
              split at h
              . cases h
              . next hcolon =>
                rw [ne_eq, not_not] at hcolon
                subst hcolon
                rcases Except.bind_eq_ok.mp h with ⟨⟨v, next⟩, hv, h⟩
                dsimp only at h
                split at h
                . cases h
                . next d tail' hskip' =>
                  split at h
                  . next hd =>
                    subst hd
                    rcases Prod.mk.inj (Except.pure_eq_ok.mp h) with ⟨rfl, rfl⟩
                    exact .lastMember hstring hskip (ihvalue _ _ _ _ hv) hskip'
                  . split at h
                    . next hd =>
                      subst hd
                      rcases Except.bind_eq_ok.mp h with ⟨⟨ns, final⟩, hns, h⟩
                      rcases Prod.mk.inj (Except.pure_eq_ok.mp h) with ⟨rfl, rfl⟩
                      exact .member hstring hskip (ihvalue _ _ _ _ hv) hskip' (ihmembers _ _ _ _ hns)
                    . cases h

/--
A whole text has blanks, a value and blanks.
-/
theorem scans_of_loads {s : Str} {v : Json} (h : loads H s = .ok v)
    : ∃ rest, Scans H H.maxDepth (skipSpace s) (.value v) rest ∧ skipSpace rest = [] := by
  rcases Except.bind_eq_ok.mp h with ⟨⟨w, rest⟩, hw, h⟩
  dsimp only at h
  split at h
  . next hempty =>
    have hv := Except.pure_eq_ok.mp h
    subst hv
    exact ⟨rest, (scans_of_scan _).1 _ _ _ _ hw, List.isEmpty_iff.mp hempty⟩
  . cases h

end

end Json
