import CryptoValid.Lib.HashTree.Levels

/-!
This module contains the siblings on the way up from an element, level by level, and that they can be
collected half by half as well, splitting at the largest power of two below the length.
-/

namespace Levels

variable (f : β → β → β)

/--
The neighbour that an element is paired with; the odd last one has none.
-/
def sibling (xs : List β) (i : Nat) : List β :=
  if i % 2 = 1 then xs[i - 1]?.toList else xs[i + 1]?.toList

/--
The siblings from the element at `i` to the top.
-/
def auditPath (i : Nat) (xs : List β) : List β :=
  match xs with
  | x :: y :: xs => sibling (x :: y :: xs) i ++ auditPath (i / 2) (pairUp f (x :: y :: xs))
  | _ => []
termination_by xs.length
decreasing_by
  simp only [length_pairUp, List.length_cons]
  omega

/--
The way up from the highest node that has only elements up to `i` below it, and `i` as the last one:
the node, then the siblings.
-/
def prefixPath (i : Nat) (xs : List β) : List β :=
  if i % 2 = 1 then prefixPath (i / 2) (pairUp f xs) else xs[i]?.toList ++ auditPath f i xs
termination_by i

@[simp]
theorem auditPath_singleton (i : Nat) (x : β) : auditPath f i [x] = [] := by
  rw [auditPath]
  simp

theorem auditPath_eq (xs : List β) (i : Nat) (hi : i < xs.length)
    : auditPath f i xs = sibling xs i ++ auditPath f (i / 2) (pairUp f xs) := by
  match xs with
  | [x] =>
    have hzero : i = 0 := by simpa using hi
    simp [hzero, sibling]
  | x :: y :: xs => rw [auditPath]

theorem prefixPath_odd (xs : List β) (i : Nat) (hi : i % 2 = 1)
    : prefixPath f i xs = prefixPath f (i / 2) (pairUp f xs) := by
  rw [prefixPath, if_pos hi]

theorem prefixPath_even (xs : List β) (i : Nat) (hi : i % 2 = 0)
    : prefixPath f i xs = xs[i]?.toList ++ auditPath f i xs := by
  rw [prefixPath, if_neg (by omega)]

/-!
### Halves
-/

/--
The next level of the first elements, if they are all in pairs.
-/
theorem pairUp_take (xs : List β) (n : Nat) (hn : 2 ∣ n) (hle : n ≤ xs.length)
    : pairUp f (xs.take n) = (pairUp f xs).take (n / 2) := by
  have hlen : (xs.take n).length = n := by
    rw [List.length_take]
    omega
  have hsplit := pairUp_append f (xs.take n) (xs.drop n) (by rwa [hlen])
  rw [List.take_append_drop] at hsplit
  have hpair : (pairUp f (xs.take n)).length = n / 2 := by
    rw [length_pairUp, hlen]
    omega
  rw [hsplit, List.take_left' hpair]

theorem sibling_take (xs : List β) (n i : Nat) (hn : 2 ∣ n) (hi : i < n)
    : sibling (xs.take n) i = sibling xs i := by
  unfold sibling
  split
  . rw [List.getElem?_take_of_lt (by omega)]
  . rw [List.getElem?_take_of_lt (by omega)]

theorem sibling_drop (xs : List β) (n i : Nat) (hn : 2 ∣ n) (hi : n ≤ i)
    : sibling (xs.drop n) (i - n) = sibling xs i := by
  have hmod : (i - n) % 2 = i % 2 := by omega
  unfold sibling
  rw [hmod]
  split
  . rw [List.getElem?_drop]
    congr 2
    omega
  . rw [List.getElem?_drop]
    congr 2
    omega

/--
The next level of a list that is split at an even place.
-/
theorem pairUp_halves (xs : List β) (j : Nat) (hlo : 2 ^ (j + 1) < xs.length)
    : pairUp f (xs.take (2 ^ (j + 1))) = (pairUp f xs).take (2 ^ j) ∧
        pairUp f (xs.drop (2 ^ (j + 1))) = (pairUp f xs).drop (2 ^ j) := by
  have hpow : 2 ^ (j + 1) = 2 * 2 ^ j := by ring
  have htake : (xs.take (2 ^ (j + 1))).length = 2 ^ (j + 1) := by
    rw [List.length_take]
    omega
  have hsplit : pairUp f xs
      = pairUp f (xs.take (2 ^ (j + 1))) ++ pairUp f (xs.drop (2 ^ (j + 1))) := by
    rw [← pairUp_append, List.take_append_drop]
    rw [htake, hpow]
    exact Nat.dvd_mul_right ..
  have hleft : (pairUp f (xs.take (2 ^ (j + 1)))).length = 2 ^ j := by
    rw [length_pairUp, htake]
    omega
  rw [hsplit, ← hleft]
  simp

/--
What the two halves of a list have to do with a path, the top of the other half is its end.
-/
def HalfWise (path : Nat → List β → List β) (xs : List β) (j i : Nat) : Prop :=
  path i xs =
    if i < 2 ^ j then path i (xs.take (2 ^ j)) ++ (top? f (xs.drop (2 ^ j))).toList
    else path (i - 2 ^ j) (xs.drop (2 ^ j)) ++ (top? f (xs.take (2 ^ j))).toList

theorem auditPath_halves (xs : List β) (j i : Nat) (hlo : 2 ^ j < xs.length)
    (hhi : xs.length ≤ 2 ^ (j + 1)) (hi : i < xs.length)
    : HalfWise f (auditPath f) xs j i := by
  unfold HalfWise
  induction j generalizing xs i with
  | zero =>
    match xs with
    | [x, y] =>
      have htake : [x, y].take (2 ^ 0) = [x] := rfl
      have hdrop : [x, y].drop (2 ^ 0) = [y] := rfl
      have hcases : i = 0 ∨ i = 1 := by
        simp only [List.length_cons, List.length_nil] at hi
        omega
      rw [auditPath, htake, hdrop]
      rcases hcases with rfl | rfl <;> simp [sibling]
    | [] => simp at hlo
    | [_] => simp at hlo
    | _ :: _ :: _ :: _ => simp at hhi
  | succ j ih =>
    have hpow : 2 ^ (j + 1) = 2 * 2 ^ j := by ring
    have hpow' : 2 ^ (j + 1 + 1) = 2 * 2 ^ (j + 1) := by ring
    have heven : 2 ∣ 2 ^ (j + 1) := by
      rw [hpow]
      exact Nat.dvd_mul_right ..
    have hlen := length_pairUp f xs
    rcases pairUp_halves f xs j hlo with ⟨htake, hdrop⟩
    rw [auditPath_eq f xs i hi, ih (pairUp f xs) (i / 2) (by omega) (by omega) (by omega),
      ← htake, ← hdrop, top?_pairUp, top?_pairUp]
    by_cases hside : i < 2 ^ (j + 1)
    . rw [if_pos hside, if_pos (by omega), auditPath_eq f (xs.take _) i (by simp; omega),
        sibling_take xs _ i heven hside, List.append_assoc]
    . have hhalf : (i - 2 ^ (j + 1)) / 2 = i / 2 - 2 ^ j := by omega
      rw [if_neg hside, if_neg (by omega), auditPath_eq f (xs.drop _) _ (by simp; omega),
        sibling_drop xs _ i heven (by omega), hhalf, List.append_assoc]

theorem prefixPath_halves (xs : List β) (j i : Nat) (hlo : 2 ^ j < xs.length)
    (hhi : xs.length ≤ 2 ^ (j + 1)) (hi : i + 1 < xs.length)
    : HalfWise f (prefixPath f) xs j i := by
  unfold HalfWise
  induction j generalizing xs i with
  | zero =>
    have hzero : i = 0 := by
      simp only [Nat.zero_add, Nat.pow_one] at hhi
      omega
    have haudit := auditPath_halves f xs 0 0 hlo hhi (by omega)
    simp only [HalfWise, Nat.pow_zero, Nat.lt_add_one, ↓reduceIte] at haudit
    rw [hzero, prefixPath_even f xs 0 rfl, Nat.pow_zero, if_pos Nat.one_pos,
      prefixPath_even f _ 0 rfl, haudit, List.getElem?_take_of_lt Nat.one_pos,
      List.append_assoc]
  | succ j ih =>
    have hpow : 2 ^ (j + 1) = 2 * 2 ^ j := by ring
    have hpow' : 2 ^ (j + 1 + 1) = 2 * 2 ^ (j + 1) := by ring
    have hlen := length_pairUp f xs
    rcases pairUp_halves f xs j hlo with ⟨htake, hdrop⟩
    by_cases hodd : i % 2 = 1
    . rw [prefixPath_odd f xs i hodd,
        ih (pairUp f xs) (i / 2) (by omega) (by omega) (by omega), ← htake, ← hdrop,
        top?_pairUp, top?_pairUp]
      by_cases hside : i < 2 ^ (j + 1)
      . rw [if_pos hside, if_pos (by omega), prefixPath_odd f (xs.take _) i hodd]
      . have hhalf : (i - 2 ^ (j + 1)) / 2 = i / 2 - 2 ^ j := by omega
        rw [if_neg hside, if_neg (by omega), prefixPath_odd f (xs.drop _) _ (by omega), hhalf]
    . rw [prefixPath_even f xs i (by omega),
        auditPath_halves f xs (j + 1) i hlo hhi (by omega)]
      by_cases hside : i < 2 ^ (j + 1)
      . rw [if_pos hside, if_pos hside, prefixPath_even f (xs.take _) i (by omega),
          List.getElem?_take_of_lt hside, List.append_assoc]
      . rw [if_neg hside, if_neg hside, prefixPath_even f (xs.drop _) _ (by omega),
          List.getElem?_drop, Nat.add_sub_cancel' (by omega), List.append_assoc]

/-!
### Full prefixes
-/

/--
When the elements up to `i` are a full half, or all that there is, the way up starts at their top.
-/
theorem prefixPath_full (xs : List β) (j : Nat) (hlen : 2 ^ j ≤ xs.length)
    : ∃ top rest, top? f (xs.take (2 ^ j)) = some top ∧
        prefixPath f (2 ^ j - 1) xs = top :: rest ∧ (xs.length = 2 ^ j → rest = []) := by
  induction j generalizing xs with
  | zero =>
    match xs with
    | [] => simp at hlen
    | x :: xs =>
      refine ⟨x, auditPath f 0 (x :: xs), top?_singleton f x, ?_, ?_⟩
      . rw [Nat.pow_zero, Nat.sub_self, prefixPath_even f _ 0 rfl]
        rfl
      . intro hone
        have hnil : xs = [] := by simpa using hone
        simp [hnil]
  | succ j ih =>
    have hpow : 2 ^ (j + 1) = 2 * 2 ^ j := by ring
    have hpos := Nat.two_pow_pos j
    have hlen' := length_pairUp f xs
    rcases ih (pairUp f xs) (by omega) with ⟨top, rest, htop, hpath, hrest⟩
    have hhalf : (2 ^ (j + 1) - 1) / 2 = 2 ^ j - 1 := by omega
    refine ⟨top, rest, ?_, ?_, ?_⟩
    . by_cases hlt : 2 ^ (j + 1) < xs.length
      . rw [← top?_pairUp, (pairUp_halves f xs j hlt).1, htop]
      . rw [List.take_of_length_le (by omega), ← top?_pairUp]
        rwa [List.take_of_length_le (by omega)] at htop
    . rw [prefixPath_odd f xs _ (by omega), hhalf, hpath]
    . intro hall
      exact hrest (by omega)

end Levels
