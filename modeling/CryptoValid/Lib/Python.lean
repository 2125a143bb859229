import CryptoValid.Lib.Json.Prescan

/-!
This module contains what readers in Python take from its standard library: `int(text, 16)`,
`str.strip`, universal newlines, and `==` on parsed JSON.
-/

namespace Python

/-!
### Numbers
-/

/--
The zeros of the decimal digits of Unicode, each followed by the other nine.
-/
def decimalZeros : List Nat := [
  0x30, 0x660, 0x6f0, 0x7c0, 0x966, 0x9e6, 0xa66, 0xae6, 0xb66, 0xbe6, 0xc66, 0xce6, 0xd66, 0xde6,
  0xe50, 0xed0, 0xf20, 0x1040, 0x1090, 0x17e0, 0x1810, 0x1946, 0x19d0, 0x1a80, 0x1a90, 0x1b50,
  0x1bb0, 0x1c40, 0x1c50, 0xa620, 0xa8d0, 0xa900, 0xa9d0, 0xa9f0, 0xaa50, 0xabf0, 0xff10, 0x104a0,
  0x10d30, 0x11066, 0x110f0, 0x11136, 0x111d0, 0x112f0, 0x11450, 0x114d0, 0x11650, 0x116c0,
  0x11730, 0x118e0, 0x11950, 0x11c50, 0x11d50, 0x11da0, 0x16a60, 0x16ac0, 0x16b50, 0x1d7ce,
  0x1d7d8, 0x1d7e2, 0x1d7ec, 0x1d7f6, 0x1e140, 0x1e2f0, 0x1e950, 0x1fbf0]

def wideSpaces : List Nat := [
  0x85, 0xa0, 0x1680, 0x2000, 0x2001, 0x2002, 0x2003, 0x2004, 0x2005, 0x2006, 0x2007, 0x2008,
  0x2009, 0x200a, 0x2028, 0x2029, 0x202f, 0x205f, 0x3000]

/--
Digits and blanks of any script become those of ASCII before a number is read.
-/
def toAscii (c : CodePoint) : CodePoint :=
  if c.val < 127 then c
  else if wideSpaces.contains c.val then 0x20
  else
    match decimalZeros.find? fun z => z ≤ c.val && c.val < z + 10 with
    | some z => .ofNat (0x30 + (c.val - z))
    | none => 0x3f

def isAsciiSpace (c : CodePoint) : Bool := c = 0x20 || (0x09 ≤ c.val && c.val ≤ 0x0d)

/--
Digits with single underscores between them, and the text after them.
-/
def hexDigits (afterUnderscore : Bool) (value : Option Nat) : Str → Option (Option Nat × Str)
  | [] => if afterUnderscore then none else some (value, [])
  | c :: s =>
    if c = 0x5f then
      if afterUnderscore then none else hexDigits true value s
    else
      match Hex.digit? c with
      | some d => hexDigits false (some (value.getD 0 * 16 + d)) s
      | none => if afterUnderscore then none else some (value, c :: s)

/--
`int(text, 16)`, `none` stands for `ValueError`.
-/
def int16 (text : Str) : Option Int :=
  match (text.map toAscii).dropWhile isAsciiSpace with
  | [] => none
  | c :: s =>
    if c = 0x2d then (unsigned s).map fun n => -Int.ofNat n
    else if c = 0x2b then (unsigned s).map Int.ofNat
    else (unsigned (c :: s)).map Int.ofNat
where
  unsigned (s : Str) : Option Nat :=
    match s with
    | z :: x :: digits =>
      if z = 0x30 ∧ (x = 0x78 ∨ x = 0x58) then
        match digits with
        | u :: rest => if u = 0x5f then number rest else number digits
        | [] => number digits
      else
        number s
    | _ => number s
  number (s : Str) : Option Nat :=
    if s.head? = some 0x5f then none
    else
      match hexDigits false none s with
      | some (value, rest) => if rest.all isAsciiSpace then value else none
      | none => none

/--
Digits with single underscores between them.
-/
def grouped : Str → Bool
  | [] => false
  | [c] => Json.isDigit c
  | c :: d :: s => Json.isDigit c && if d = 0x5f then grouped s else grouped (d :: s)

/--
`int(text)`, `none` stands for `ValueError`.
-/
def int10? (text : Str) : Option Int :=
  let s := (((text.map toAscii).dropWhile isAsciiSpace).reverse.dropWhile isAsciiSpace).reverse
  match s with
  | [] => none
  | c :: rest =>
    if c = 0x2d then (unsigned rest).map fun n => -Int.ofNat n
    else if c = 0x2b then (unsigned rest).map Int.ofNat
    else (unsigned s).map Int.ofNat
where
  unsigned (s : Str) : Option Nat :=
    if grouped s then some (Json.natOfText (s.filter Json.isDigit)) else none

theorem toAscii_of_isDigit {c : CodePoint} (h : Json.isDigit c = true)
    : toAscii c = c ∧ isAsciiSpace c = false ∧ c ≠ 0x2d ∧ c ≠ 0x2b := by
  have hval : 48 ≤ c.val ∧ c.val ≤ 57 := by simpa [Json.isDigit] using h
  refine ⟨?_, ?_, ?_, ?_⟩
  . rw [toAscii, if_pos (by omega)]
  . have hne : c ≠ 0x20 := by
      rintro rfl
      simp at hval
    simp only [isAsciiSpace, hne, decide_false, Bool.false_or, Bool.and_eq_false_iff,
      decide_eq_false_iff_not]
    omega
  . rintro rfl
    simp at hval
  . rintro rfl
    simp at hval

theorem grouped_of_isDigit {s : Str} (hne : s ≠ []) (h : ∀ c ∈ s, Json.isDigit c = true)
    : grouped s = true := by
  induction s with
  | nil => exact absurd rfl hne
  | cons c s ih =>
    cases s with
    | nil => exact h c List.mem_cons_self
    | cons d s =>
      have hd := h d (by simp)
      have hdval : d ≠ 0x5f := by
        rintro rfl
        simp [Json.isDigit] at hd
      rw [grouped, h c List.mem_cons_self, if_neg hdval, Bool.true_and]
      exact ih (by simp) fun x hx => h x (List.mem_cons_of_mem c hx)

/--
Plain digits are read as the number that they write.
-/
theorem int10?_of_isDigit {s : Str} (hne : s ≠ []) (h : ∀ c ∈ s, Json.isDigit c = true)
    : int10? s = some (Json.natOfText s : Int) := by
  have hmap : s.map toAscii = s := by
    rw [List.map_congr_left fun c hc => (toAscii_of_isDigit (h c hc)).1, List.map_id']
  have hdrop : ∀ (t : Str), (∀ c ∈ t, Json.isDigit c = true) → t.dropWhile isAsciiSpace = t := by
    intro t ht
    cases t with
    | nil => rfl
    | cons c t => simp [(toAscii_of_isDigit (ht c List.mem_cons_self)).2.1]
  have hfilter : s.filter Json.isDigit = s := List.filter_eq_self.mpr h
  have hunsigned : int10?.unsigned s = some (Json.natOfText s) := by
    rw [int10?.unsigned, if_pos (grouped_of_isDigit hne h), hfilter]
  have hback : (s.reverse.dropWhile isAsciiSpace).reverse = s := by
    rw [hdrop s.reverse fun c hc => h c (List.mem_reverse.mp hc), List.reverse_reverse]
  rw [int10?, hmap, hdrop s h, hback]
  cases s with
  | nil => exact absurd rfl hne
  | cons c s =>
    have hc := (toAscii_of_isDigit (h c List.mem_cons_self)).2.2
    simp only [if_neg hc.1, if_neg hc.2, hunsigned, Option.map_some]
    rfl

theorem val_of_digit? {c : CodePoint} {d : Nat} (h : Hex.digit? c = some d)
    : (0x30 ≤ c.val ∧ c.val ≤ 0x39) ∨ (0x41 ≤ c.val ∧ c.val ≤ 0x46) ∨
        (0x61 ≤ c.val ∧ c.val ≤ 0x66) := by
  unfold Hex.digit? at h
  split at h
  . omega
  . split at h
    . omega
    . split at h
      . omega
      . simp at h

theorem toAscii_of_digit? {c : CodePoint} {d : Nat} (h : Hex.digit? c = some d)
    : toAscii c = c := by
  have := val_of_digit? h
  rw [toAscii, if_pos (by omega)]

theorem isAsciiSpace_of_digit? {c : CodePoint} {d : Nat} (h : Hex.digit? c = some d)
    : isAsciiSpace c = false := by
  have hval := val_of_digit? h
  have hne : c ≠ 0x20 := by
    rintro rfl
    simp at hval
  simp only [isAsciiSpace, hne, decide_false, Bool.false_or, Bool.and_eq_false_iff,
    decide_eq_false_iff_not]
  omega

/--
What a digit is not.
-/
theorem ne_of_digit? {c : CodePoint} {d : Nat} (h : Hex.digit? c = some d)
    : c ≠ 0x2d ∧ c ≠ 0x2b ∧ c ≠ 0x5f ∧ c ≠ 0x78 ∧ c ≠ 0x58 := by
  have hval := val_of_digit? h
  refine ⟨?_, ?_, ?_, ?_, ?_⟩ <;>
  . rintro rfl
    simp at hval

theorem hexDigits_digit {c : CodePoint} {d : Nat} (h : Hex.digit? c = some d) (value : Option Nat)
    (s : Str) : hexDigits false value (c :: s) = hexDigits false (some (value.getD 0 * 16 + d)) s := by
  rw [hexDigits, if_neg (ne_of_digit? h).2.2.1, h]

theorem readsHex_int16 : Json.ReadsHex int16 := by
  intro a b c d n h
  rcases Json.hex4?_eq_some h with ⟨va, vb, vc, vd, ha, hb, hc, hd, hn, _⟩
  have hnumber : int16.number [a, b, c, d] = some n.val := by
    have hdigits : hexDigits false none [a, b, c, d] = some (some n.val, []) := by
      rw [hexDigits_digit ha, hexDigits_digit hb, hexDigits_digit hc, hexDigits_digit hd, hexDigits,
        hn]
      simp only [Bool.false_eq_true, ↓reduceIte, Option.getD_none, Option.getD_some,
        Option.some.injEq, Prod.mk.injEq, and_true]
      omega
    simp [int16.number, (ne_of_digit? ha).2.2.1, hdigits]
  have hne := ne_of_digit? hb
  have hunsigned : int16.unsigned [a, b, c, d] = some n.val := by
    simp only [int16.unsigned, hne.2.2.2.1, hne.2.2.2.2, or_self, and_false, ↓reduceIte, hnumber]
  have hne := ne_of_digit? ha
  simp only [int16, List.map_cons, List.map_nil, toAscii_of_digit? ha, toAscii_of_digit? hb,
    toAscii_of_digit? hc, toAscii_of_digit? hd, List.dropWhile_cons, isAsciiSpace_of_digit? ha,
    Bool.false_eq_true, ↓reduceIte, hne.1, hne.2.1, hunsigned, Option.map_some]
  rfl

/-!
### Text
-/

def strip (chars : Str) (s : Str) : Str :=
  ((s.dropWhile chars.contains).reverse.dropWhile chars.contains).reverse

/--
A file opened as text: `\\r\\n` and `\\r` are read as `\\n`.
-/
def universalNewlines : Str → Str
  | [] => []
  | [c] => [if c = 0x0d then 0x0a else c]
  | c :: d :: s =>
    if c = 0x0d then
      if d = 0x0a then 0x0a :: universalNewlines s else 0x0a :: universalNewlines (d :: s)
    else
      c :: universalNewlines (d :: s)

/-!
### Equality
-/

mutual

/--
Booleans are numbers, and the order of the members of a dict does not count.
-/
def comparable : Json → Json
  | .bool b => .int (if b then 1 else 0)
  | .arr xs => .arr (comparableElems xs)
  | .obj ms => .obj (Json.sortMembers (comparableMembers ms))
  | v => v

def comparableElems : List Json → List Json
  | [] => []
  | x :: xs => comparable x :: comparableElems xs

def comparableMembers : List (Str × Json) → List (Str × Json)
  | [] => []
  | (k, v) :: ms => (k, comparable v) :: comparableMembers ms

end

/--
`a == b` for values without floats.
-/
def eq (a b : Json) : Bool := comparable a = comparable b

theorem eq_str_iff (v : Json) (s : Str) : eq v (.str s) = true ↔ v = .str s := by
  cases v <;> simp [eq, comparable]

end Python
