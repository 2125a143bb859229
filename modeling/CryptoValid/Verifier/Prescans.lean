import CryptoValid.Lib.Json.Spelled
import CryptoValid.Lib.PythonJson
import CryptoValid.Lib.Utf16
import CryptoValid.Verifier.Loads

/-!
This module contains the linear scans that the verifiers make before they parse a line, `verifier.py`,
`prescan.go` and `cvverify.mjs`, and that each finds out exactly what a parser would.
-/

namespace CryptoValid
namespace Verifier

/-!
### JSON texts
-/

/--
The grammar of JSON: no constants, every member of an object is kept, and there is no bound on nesting
but the length of the text.
-/
def grammar (maxDepth : Nat) : Json.Hooks Unit where
  syntaxError := ()
  recursionError := ()
  parseInt text := .ok (Json.intOfText text)
  parseFloat text := .ok (Python.floatOfText text)
  parseConstant _ := .error ()
  objectPairs pairs := .ok pairs
  lone := id
  maxDepth := maxDepth

/--
The text is JSON, and what it says.
-/
def Says (text : Str) (v : Json) : Prop := Json.loads (grammar text.length) text = .ok v

theorem faithful_grammar (n : Nat) : (grammar n).Faithful where
  objectPairs h := (Except.ok.inj h).symm
  lone _ := rfl

/-!
### Go
-/

namespace Go

/--
The bytes as characters.
-/
def chars (text : Bytes) : Str := text.map fun b => .ofNat b.toNat

/--
`NestingDepth`
-/
def nestingDepth (text : Bytes) : Int := Json.nestingDepth (chars text)

/--
`strconv.ParseInt(s, 16, 32)` of a text that is too short for a number out of range.
-/
def parseInt16 (s : Str) : Option Int :=
  match s with
  | [] => none
  | c :: rest =>
    if c = 0x2b then (unsigned rest).map Int.ofNat
    else if c = 0x2d then (unsigned rest).map fun n => -Int.ofNat n
    else (unsigned (c :: rest)).map Int.ofNat
where
  unsigned (digits : Str) : Option Nat :=
    if digits = [] then none
    else (digits.mapM Hex.digit?).map fun ds => ds.foldl (fun n d => 16 * n + d) 0

def hex4 (b : Str) : Option Int := if b.length < 4 then none else parseInt16 (b.take 4)

/--
`HasLoneSurrogate`
-/
def hasLoneSurrogate (text : Bytes) : Bool := Json.hasLoneSurrogate hex4 (chars text)

theorem readsHex_hex4 : Json.ReadsHex hex4 := by
  intro a b c d n h
  rcases Json.hex4?_eq_some h with ⟨va, vb, vc, vd, ha, hb, hc, hd, hn, _⟩
  have hne := Python.ne_of_digit? ha
  have hunsigned : parseInt16.unsigned [a, b, c, d] = some n.val := by
    have hdigits : [a, b, c, d].mapM Hex.digit? = some [va, vb, vc, vd] := by
      simp [ha, hb, hc, hd]
    rw [parseInt16.unsigned, if_neg (List.cons_ne_nil _ _), hdigits, hn]
    simp only [Option.map_some, List.foldl_cons, List.foldl_nil, Option.some.injEq]
    omega
  have htake : [a, b, c, d].take 4 = [a, b, c, d] := rfl
  rw [hex4, if_neg (by simp), htake, parseInt16, if_neg hne.2.1, if_neg hne.1, hunsigned]
  rfl

theorem spelling_encodePoint : Json.Spelling fun c => chars (Utf8.encodePoint c) where
  ascii {c} hc := by
    rw [Utf8.encodePoint, if_pos hc]
    have hval : (UInt8.ofNat c.val).toNat = c.val := by
      rw [UInt8.toNat_ofNat']
      omega
    simp [chars, hval]
  wide {c} hc := by
    have hlt := c.isLt
    have hbyte : ∀ n : Nat, 0x80 ≤ n → n < 0x100 →
        0x80 ≤ (CodePoint.ofNat (UInt8.ofNat n).toNat).val := fun n hn hlt => by
      rw [UInt8.toNat_ofNat', CodePoint.val_ofNat _ (by omega)]
      omega
    unfold Utf8.encodePoint
    rw [if_neg (by omega)]
    split
    . simp only [chars, List.map_cons, List.map_nil, List.forall_mem_cons]
      exact ⟨List.cons_ne_nil _ _, hbyte _ (by omega) (by omega), hbyte _ (by omega) (by omega),
        fun _ h => absurd h List.not_mem_nil⟩
    . split
      . simp only [chars, List.map_cons, List.map_nil, List.forall_mem_cons]
        exact ⟨List.cons_ne_nil _ _, hbyte _ (by omega) (by omega), hbyte _ (by omega) (by omega),
          hbyte _ (by omega) (by omega), fun _ h => absurd h List.not_mem_nil⟩
      . simp only [chars, List.map_cons, List.map_nil, List.forall_mem_cons]
        exact ⟨List.cons_ne_nil _ _, hbyte _ (by omega) (by omega), hbyte _ (by omega) (by omega),
          hbyte _ (by omega) (by omega), hbyte _ (by omega) (by omega),
          fun _ h => absurd h List.not_mem_nil⟩

theorem spell_eq_chars (text : Str)
    : Json.spell (fun c => chars (Utf8.encodePoint c)) text = chars (text.flatMap Utf8.encodePoint) := by
  rw [Json.spell, chars, List.map_flatMap]
  rfl

end Go

theorem hasLoneSurrogate_iff {text : Str} {v : Json} (hscalar : Str.Scalar text) (h : Says text v)
    : hasLoneSurrogate text = true ↔ ¬v.All Json.ScalarText := by
  have hlone := Json.hasLoneSurrogate_spell Python.readsHex_int16 Json.Spelling.self
    (faithful_grammar text.length) h hscalar
  rwa [Json.spell_self] at hlone

/--
The scans of Python and Go are exact: they find out how deep arrays and objects are nested, and whether
a string or a name has a surrogate.
-/
theorem prescans_exact (text : Str) (v : Json) (hscalar : Str.Scalar text) (h : Says text v)
    : jsonNestingDepth text = v.depth ∧
      (hasLoneSurrogate text = true ↔ ¬v.All Json.ScalarText) ∧
      Go.nestingDepth (text.flatMap Utf8.encodePoint) = jsonNestingDepth text ∧
      Go.hasLoneSurrogate (text.flatMap Utf8.encodePoint) = hasLoneSurrogate text := by
  have hH := faithful_grammar text.length
  have hdepth := Json.nestingDepth_spell hH Json.Spelling.self h
  have hdepth' := Json.nestingDepth_spell hH Go.spelling_encodePoint h
  have hlone := hasLoneSurrogate_iff hscalar h
  have hlone' := Json.hasLoneSurrogate_spell Go.readsHex_hex4 Go.spelling_encodePoint hH h hscalar
  rw [Json.spell_self] at hdepth
  rw [Go.spell_eq_chars] at hdepth' hlone'
  refine ⟨hdepth, hlone, hdepth'.trans hdepth.symm, ?_⟩
  rw [Bool.eq_iff_iff]
  exact hlone'.trans hlone.symm

/--
A name with half of a pair, and three levels.
-/
def exampleText : Str := txt "\x7b\"k\\ud83d\":[[1,\"]\"]]\x7d"

theorem says_exampleText
    : Says exampleText (.obj [(txt "k" ++ [0xD83D], .arr [.arr [.int 1, .str (txt "]")]])]) := by
  rw [Says]
  decide +kernel

theorem prescans_exact_example
    : jsonNestingDepth exampleText = 3 ∧
      (hasLoneSurrogate exampleText = true ↔
        ¬(Json.obj [(txt "k" ++ [0xD83D], .arr [.arr [.int 1, .str (txt "]")]])]).All
          Json.ScalarText) ∧
      Go.nestingDepth (exampleText.flatMap Utf8.encodePoint) = jsonNestingDepth exampleText ∧
      Go.hasLoneSurrogate (exampleText.flatMap Utf8.encodePoint) = hasLoneSurrogate exampleText :=
  prescans_exact exampleText _ (by decide) says_exampleText

/-!
### JavaScript
-/

namespace Js

/--
A string is the sequence of its code units.
-/
def unitsOf (c : CodePoint) : Str := (Utf16.unitsOf c).map .ofNat

def units (text : Str) : Str := text.flatMap unitsOf

/--
The blanks that `parseInt` skips.
-/
def isSpace (c : CodePoint) : Bool :=
  (0x09 ≤ c.val && c.val ≤ 0x0d) || (0x2000 ≤ c.val && c.val ≤ 0x200a) ||
    [0x20, 0xa0, 0x1680, 0x2028, 0x2029, 0x202f, 0x205f, 0x3000, 0xfeff].contains c

/--
`parseInt(s, 16)`, `none` stands for `NaN`.
-/
def parseInt16 (s : Str) : Option Int :=
  match s.dropWhile isSpace with
  | [] => none
  | c :: rest =>
    if c = 0x2d then (unsigned rest).map fun n => -Int.ofNat n
    else if c = 0x2b then (unsigned rest).map Int.ofNat
    else (unsigned (c :: rest)).map Int.ofNat
where
  unsigned (s : Str) : Option Nat :=
    let digits := ((withoutPrefix s).map Hex.digit?).takeWhile Option.isSome
    if digits = [] then none
    else some (digits.foldl (fun n d => 16 * n + d.getD 0) 0)
  withoutPrefix (s : Str) : Str :=
    match s with
    | z :: x :: rest => if z = 0x30 ∧ (x = 0x78 ∨ x = 0x58) then rest else s
    | _ => s

/--
`String.fromCharCode(parseInt(hex, 16))`
-/
def fromHex (hex : Str) : CodePoint :=
  match parseInt16 hex with
  | none => 0
  | some i => .ofNat (i % 0x10000).toNat

/--
What a letter after a backslash stands for in a name.
-/
def keyEscape (c : CodePoint) : CodePoint :=
  if c = .ofChar 'n' then 0x0a
  else if c = .ofChar 't' then 0x09
  else if c = .ofChar 'r' then 0x0d
  else if c = .ofChar 'b' then 0x08
  else if c = .ofChar 'f' then 0x0c
  else c

/--
The innermost object or array comes first in `seen`; an array has no set of names.
-/
structure KeyScan where
  seen : List (Option (List Str))
  inStr : Bool
  esc : Bool
  expectKey : Bool
  readingKey : Bool
  curKey : Option Str

namespace KeyScan

/--
`curKey += x`
-/
def add (k : KeyScan) (x : Str) : KeyScan := { k with curKey := some (k.curKey.getD (txt "null") ++ x) }

def scan (k : KeyScan) (text : Str) : Bool :=
  match text with
  | [] => false
  | c :: s =>
    if k.inStr then
      if k.esc then
        if k.readingKey then
          if c = 0x75 then { k with esc := false }.add [fromHex (s.take 4)] |>.scan (s.drop 4)
          else { k with esc := false }.add [keyEscape c] |>.scan s
        else { k with esc := false }.scan s
      else if c = 0x5c then { k with esc := true }.scan s
      else if c = 0x22 then { k with inStr := false, readingKey := false }.scan s
      else if k.readingKey then (k.add [c]).scan s
      else k.scan s
    else if c = 0x22 then
      if k.expectKey then { k with inStr := true, readingKey := true, curKey := some [] }.scan s
      else { k with inStr := true }.scan s
    else if c = 0x7b then { k with seen := some [] :: k.seen, expectKey := true }.scan s
    else if c = 0x7d then { k with seen := k.seen.tail, expectKey := false }.scan s
    else if c = 0x5b then { k with seen := none :: k.seen, expectKey := false }.scan s
    else if c = 0x5d then { k with seen := k.seen.tail, expectKey := false }.scan s
    else if c = 0x3a then
      match k.curKey, k.seen with
      | some key, some names :: outer =>
        if key ∈ names then true
        else { k with seen := some (key :: names) :: outer, curKey := none, expectKey := false }.scan s
      | _, _ => { k with curKey := none, expectKey := false }.scan s
    else if c = 0x2c then { k with expectKey := (k.seen.head?.getD none).isSome }.scan s
    else k.scan s
termination_by text.length
decreasing_by
  all_goals simp only [List.length_cons, List.length_drop]
  all_goals omega

end KeyScan

def hasDuplicateKeys (text : Str) : Bool := KeyScan.scan ⟨[], false, false, false, false, none⟩ text

/--
What is left to scan, in a string or not.
-/
def floatFrom (inStr esc : Bool) : Str → Bool
  | [] => false
  | c :: s =>
    if inStr then
      if esc then floatFrom inStr false s
      else if c = 0x5c then floatFrom inStr true s
      else if c = 0x22 then floatFrom false esc s
      else floatFrom inStr esc s
    else if c = 0x22 then floatFrom true esc s
    else if Json.isDigit c ∧ (s.head? = some 0x2e ∨ s.head? = some 0x65 ∨ s.head? = some 0x45) then true
    else floatFrom inStr esc s

def hasFloatLexeme (t : Str) : Bool := floatFrom false false t

theorem spelling_unitsOf : Json.Spelling unitsOf where
  ascii {c} hc := by
    rw [unitsOf, Utf16.unitsOf, if_pos (by omega)]
    simp
  wide {c} hc := by
    have hlt := c.isLt
    unfold unitsOf Utf16.unitsOf
    split
    . exact ⟨List.cons_ne_nil _ _, by simpa using hc⟩
    . refine ⟨List.cons_ne_nil _ _, ?_⟩
      simp only [List.map_cons, List.map_nil, List.forall_mem_cons]
      rw [CodePoint.val_ofNat _ (by omega), CodePoint.val_ofNat _ (by omega)]
      exact ⟨by omega, by omega, fun _ h => absurd h List.not_mem_nil⟩

/-!
### Floats
-/

theorem floatFrom_cons {c : CodePoint} (hquote : c ≠ 0x22) (hdigit : Json.isDigit c = false) (s : Str)
    : floatFrom false false (c :: s) = floatFrom false false s := by
  rw [floatFrom, if_neg Bool.false_ne_true, if_neg hquote, if_neg (by simp [hdigit])]

theorem skips_floatFrom : Json.Skips (floatFrom true) (floatFrom false false) where
  quote s := rfl
  slash s := rfl
  raw hquote hslash s := by
    rw [floatFrom, if_pos rfl, if_neg Bool.false_ne_true, if_neg hslash, if_neg hquote]
  escaped c s := rfl

/--
After digits comes a point or an exponent, or what comes after them is scanned.
-/
theorem floatFrom_digits {digits : Str} (h : Json.Digits digits) (s : Str)
    : floatFrom false false (digits ++ s) = true ↔
        (s.head? = some 0x2e ∨ s.head? = some 0x65 ∨ s.head? = some 0x45) ∨
          floatFrom false false s = true := by
  have hstep : ∀ c t, Json.isDigit c = true → (floatFrom false false (c :: t) = true ↔
      (t.head? = some 0x2e ∨ t.head? = some 0x65 ∨ t.head? = some 0x45) ∨
        floatFrom false false t = true) := by
    intro c t hc
    have hquote : c ≠ 0x22 := by
      rintro rfl
      revert hc
      decide
    rw [floatFrom, if_neg Bool.false_ne_true, if_neg hquote]
    split
    . next hcond => exact iff_of_true rfl (Or.inl hcond.2)
    . next hcond => exact (or_iff_right fun hhead => hcond ⟨hc, hhead⟩).symm
  rcases h with ⟨hne, hall⟩
  induction digits with
  | nil => exact absurd rfl hne
  | cons c digits ih =>
    rw [List.forall_mem_cons] at hall
    rw [List.cons_append, hstep c _ hall.1]
    cases digits with
    | nil => rfl
    | cons d digits =>
      have hd := (List.forall_mem_cons.mp hall.2).1
      refine (or_iff_right ?_).trans (ih (List.cons_ne_nil _ _) hall.2)
      rw [List.cons_append, List.head?_cons, Option.some.injEq, Option.some.injEq,
        Option.some.injEq]
      rintro (rfl | rfl | rfl) <;> (revert hd; decide)

theorem not_head_of_breaks {s : Str} (h : Json.Breaks s)
    : ¬(s.head? = some 0x2e ∨ s.head? = some 0x65 ∨ s.head? = some 0x45) := by
  rintro (hs | hs | hs) <;> exact absurd (h _ hs) (by decide)

theorem breaks_units {s : Str} (h : Json.Breaks s) : Json.Breaks (units s) := by
  cases s with
  | nil => exact Json.breaks_nil
  | cons c s =>
    rw [Json.breaks_cons] at h
    have hascii : c.val < 0x80 := by
      simp only [Json.isBreak, Json.isSpace, List.contains_eq_mem, List.mem_cons, List.not_mem_nil,
        or_false, Bool.or_eq_true, decide_eq_true_eq] at h
      rcases h with (((rfl | rfl) | rfl) | rfl) | rfl | rfl | rfl | rfl | rfl | rfl | rfl <;> decide
    have hcons : units (c :: s) = c :: units s := Json.spell_cons spelling_unitsOf hascii s
    rwa [hcons, Json.breaks_cons]

/--
A number is found when it has a fraction or an exponent.
-/
theorem floatFrom_number {s text rest : Str} {isFloat : Bool}
    (h : Json.scanNumber? s = some (text, isFloat, rest)) {t : Str} (ht : Json.Breaks t)
    : floatFrom false false (text ++ t) = true ↔
        isFloat = true ∨ floatFrom false false t = true := by
  rcases Json.scanNumber?_eq_some h with
    ⟨sign, digits, frac, exp, _, rfl, hsign, hdigits, hfrac, hexp, rfl⟩
  have hskip : ∀ u, floatFrom false false (sign ++ u) = floatFrom false false u := by
    intro u
    rcases hsign with rfl | rfl
    . rfl
    . exact floatFrom_cons (by decide) (by decide) u
  rw [List.append_assoc, List.append_assoc, List.append_assoc, hskip, floatFrom_digits hdigits]
  rcases hfrac with rfl | ⟨ds, rfl, hds⟩
  . rcases hexp with rfl | ⟨e, sign', ds, rfl, he, _⟩
    . rw [List.nil_append, List.nil_append, or_iff_right (not_head_of_breaks ht)]
      simp
    . have hhead : (e :: (sign' ++ ds)).head? = some e := rfl
      refine iff_of_true (Or.inl (Or.inr ?_)) (Or.inl rfl)
      rw [List.nil_append, List.cons_append, List.head?_cons]
      rcases he with rfl | rfl
      . exact Or.inl rfl
      . exact Or.inr rfl
  . exact iff_of_true (Or.inl (Or.inl rfl)) (Or.inl rfl)

theorem floatFrom_word {word : Str} (h : word.all fun c => c ≠ 0x22 && !Json.isDigit c) (t : Str)
    : floatFrom false false (word ++ t) = floatFrom false false t := by
  induction word with
  | nil => rfl
  | cons c word ih =>
    simp only [List.all_cons, Bool.and_eq_true, decide_eq_true_eq, Bool.not_eq_true'] at h
    rw [List.cons_append, floatFrom_cons h.1.1 h.1.2, ih h.2]

/--
The scan looks for numbers that are floats.
-/
theorem detects_floatFrom (n : Nat)
    : Json.Detects (grammar n) (fun _ => True) (fun s => floatFrom false false (units s) = true)
        (fun _ => False) (fun v => ¬v.All Json.NotFloat) where
  skip _ _ _ _ := trivial
  pass {c} hbreak hquote s := by
    have hdigit := Json.isDigit_of_isBreak hbreak
    have hword : (units [c]).all fun c => c ≠ 0x22 && !Json.isDigit c := by
      rw [List.all_eq_true]
      have hunits := Json.forall_units spelling_unitsOf
        (p := fun c => (c ≠ 0x22 && !Json.isDigit c) = true) (fun d hd => ?_) (c := c)
      . simpa [units] using hunits (by simp [hquote, hdigit])
      . have hne := Json.ne_of_wide (c := 0x22) (by decide) hd
        have hnot : Json.isDigit d = false := by
          simp only [Json.isDigit, Bool.and_eq_false_iff, decide_eq_false_iff_not]
          omega
        simp [hne, hnot]
    have hcons : units (c :: s) = units [c] ++ units s := by simp [units]
    rw [hcons, floatFrom_word hword]
  string {s t rest} h _ := by
    have hcons : units (0x22 :: s) = 0x22 :: units s :=
      Json.spell_cons spelling_unitsOf (by decide) s
    refine ⟨trivial, ?_⟩
    rw [hcons, false_or]
    exact iff_of_eq (congrArg (· = true) (skips_floatFrom.string spelling_unitsOf h))
  atom {s v rest} h hrest := by
    have hbreaks := breaks_units hrest
    have hspell : ∀ word tail : Str, (∀ c ∈ word, Json.isWordChar c = true) →
        units (word ++ tail) = word ++ units tail := fun word tail hword =>
      Json.spell_append spelling_unitsOf (fun c hc => Json.val_lt_of_isWordChar (hword c hc)) tail
    have hword : ∀ word tail : Str, (word.all fun c => Json.isWordChar c && (c ≠ 0x22 && !Json.isDigit c)) →
        Json.stripPrefix? word s = some tail → ∀ w : Json, w.All Json.NotFloat →
        (floatFrom false false (units s) = true ↔
          ¬w.All Json.NotFloat ∨ floatFrom false false (units tail) = true) := by
      intro word tail hall hstrip w hw
      rw [List.all_eq_true] at hall
      simp only [Bool.and_eq_true] at hall
      rw [Json.stripPrefix?_eq_some hstrip, hspell word tail fun c hc => (hall c hc).1,
        floatFrom_word (List.all_eq_true.mpr fun c hc => by
          rw [Bool.and_eq_true]
          exact (hall c hc).2)]
      exact (or_iff_right (not_not.mpr hw)).symm
    unfold Json.scanAtom at h
    split at h
    . next tail hstrip =>
      rcases Prod.mk.inj (Except.ok.inj h) with ⟨rfl, rfl⟩
      exact hword _ _ (by decide) hstrip _ trivial
    split at h
    . next tail hstrip =>
      rcases Prod.mk.inj (Except.ok.inj h) with ⟨rfl, rfl⟩
      exact hword _ _ (by decide) hstrip _ trivial
    split at h
    . next tail hstrip =>
      rcases Prod.mk.inj (Except.ok.inj h) with ⟨rfl, rfl⟩
      exact hword _ _ (by decide) hstrip _ trivial
    split at h
    . cases h
    split at h
    . cases h
    split at h
    . cases h
    split at h
    . cases h
    . next text tail hnum =>
      rcases Except.bind_eq_ok.mp h with ⟨x, _, h⟩
      rcases Prod.mk.inj (Except.pure_eq_ok.mp h) with ⟨rfl, rfl⟩
      rcases Json.scanNumber?_eq_some hnum with ⟨_, _, _, _, hs, _⟩
      conv_lhs => rw [hs]
      rw [hspell _ _ (Json.isWordChar_of_number hnum), floatFrom_number hnum hbreaks]
      simp [Json.All, Json.NotFloat]
    . next text tail hnum =>
      rcases Except.bind_eq_ok.mp h with ⟨i, _, h⟩
      rcases Prod.mk.inj (Except.pure_eq_ok.mp h) with ⟨rfl, rfl⟩
      rcases Json.scanNumber?_eq_some hnum with ⟨_, _, _, _, hs, _⟩
      conv_lhs => rw [hs]
      rw [hspell _ _ (Json.isWordChar_of_number hnum), floatFrom_number hnum hbreaks]
      simp [Json.All, Json.NotFloat]
  str t := by simp [Json.All, Json.NotFloat]
  arr xs := by
    rw [Json.all_arr]
    simp [Json.NotFloat]
  obj {ps ms} hms := by
    rw [(faithful_grammar n).objectPairs hms, Json.all_obj]
    simp [Json.NotFloat]

/-!
### Names
-/

theorem keyEscape_eq {l c : CodePoint} (hu : l ≠ 0x75) (h : Json.unescape? l = some c)
    : keyEscape l = c := by
  unfold Json.unescape? at h
  repeat' split at h
  all_goals
    simp only [Option.some.injEq, reduceCtorEq] at h
  all_goals
    subst_vars
    decide

theorem lt_of_unescape? {l c : CodePoint} (h : Json.unescape? l = some c) : c.val < 0x80 := by
  unfold Json.unescape? at h
  repeat' split at h
  all_goals
    simp only [Option.some.injEq, reduceCtorEq] at h
  all_goals
    subst h
    decide

theorem fromHex_eq {h1 h2 h3 h4 n : CodePoint} (h : Json.hex4? h1 h2 h3 h4 = some n)
    : fromHex [h1, h2, h3, h4] = n ∧ n.val < 0x10000 := by
  rcases Json.hex4?_eq_some h with ⟨va, vb, vc, vd, ha, hb, hc, hd, hn, hlt⟩
  refine ⟨?_, hlt⟩
  have hval := Python.val_of_digit? ha
  have hspace : isSpace h1 = false := by
    have hne : ∀ d : CodePoint, d.val ≤ 0x2f ∨ 0x67 ≤ d.val → h1 ≠ d := by
      rintro _ hd rfl
      omega
    simp only [isSpace, List.contains_eq_mem, List.mem_cons, List.not_mem_nil, or_false,
      Bool.or_eq_false_iff, Bool.and_eq_false_iff, decide_eq_false_iff_not, not_or]
    exact ⟨⟨by omega, by omega⟩, hne _ (by decide), hne _ (by decide), hne _ (by decide),
      hne _ (by decide), hne _ (by decide), hne _ (by decide), hne _ (by decide),
      hne _ (by decide), hne _ (by decide)⟩
  have hne := Python.ne_of_digit? ha
  have hprefix : parseInt16.withoutPrefix [h1, h2, h3, h4] = [h1, h2, h3, h4] := by
    have hx := Python.ne_of_digit? hb
    rw [parseInt16.withoutPrefix, if_neg fun h => h.2.elim hx.2.2.2.1 hx.2.2.2.2]
  have hdigits : (([h1, h2, h3, h4].map Hex.digit?).takeWhile Option.isSome) =
      [some va, some vb, some vc, some vd] := by
    simp [ha, hb, hc, hd]
  have hunsigned : parseInt16.unsigned [h1, h2, h3, h4] = some n.val := by
    rw [parseInt16.unsigned, hprefix, hdigits, if_neg (List.cons_ne_nil _ _), hn]
    simp only [List.foldl_cons, List.foldl_nil, Option.getD_some, Option.some.injEq]
    omega
  have hint : parseInt16 [h1, h2, h3, h4] = some (n.val : Int) := by
    rw [parseInt16, List.dropWhile_cons_of_neg (by simp [hspace])]
    dsimp only
    rw [if_neg hne.1, if_neg hne.2.1, hunsigned]
    rfl
  rw [fromHex, hint]
  dsimp only
  have hmod : ((n.val : Int) % 0x10000).toNat = n.val := by omega
  rw [hmod, CodePoint.ofNat_val]

namespace KeyScan

/--
Outside of a string.
-/
def out (seen : List (Option (List Str))) (expectKey : Bool) (curKey : Option Str) : KeyScan :=
  ⟨seen, false, false, expectKey, false, curKey⟩

/--
In a name.
-/
def key (seen : List (Option (List Str))) (expectKey : Bool) (curKey : Str) : KeyScan :=
  ⟨seen, true, false, expectKey, true, some curKey⟩

variable {seen : List (Option (List Str))} {expectKey : Bool} {curKey : Option Str}

theorem scan_nil (k : KeyScan) : k.scan [] = false := by
  rw [scan.eq_def]

/--
The characters that the scan takes no notice of.
-/
def Quiet (c : CodePoint) : Prop :=
  c ≠ 0x22 ∧ c ≠ 0x7b ∧ c ≠ 0x7d ∧ c ≠ 0x5b ∧ c ≠ 0x5d ∧ c ≠ 0x3a ∧ c ≠ 0x2c

theorem scan_quiet {word : Str} (h : ∀ c ∈ word, Quiet c) (s : Str)
    : (out seen expectKey curKey).scan (word ++ s) = (out seen expectKey curKey).scan s := by
  induction word with
  | nil => rfl
  | cons c word ih =>
    rw [List.forall_mem_cons] at h
    rcases h.1 with ⟨h1, h2, h3, h4, h5, h6, h7⟩
    rw [List.cons_append, scan.eq_def]
    simp only [out, h1, h2, h3, h4, h5, h6, h7, Bool.false_eq_true, ↓reduceIte]
    exact ih h.2

theorem scan_openObject (s : Str)
    : (out seen expectKey curKey).scan (0x7b :: s) = (out (some [] :: seen) true curKey).scan s := by
  rw [scan.eq_def]
  rfl

theorem scan_openArray (s : Str)
    : (out seen expectKey curKey).scan (0x5b :: s) = (out (none :: seen) false curKey).scan s := by
  rw [scan.eq_def]
  rfl

theorem scan_close {c : CodePoint} (hc : c = 0x7d ∨ c = 0x5d) (s : Str)
    : (out seen expectKey curKey).scan (c :: s) = (out seen.tail false curKey).scan s := by
  rw [scan.eq_def]
  rcases hc with rfl | rfl <;> rfl

theorem scan_comma (s : Str)
    : (out seen expectKey curKey).scan (0x2c :: s) =
        (out seen (seen.head?.getD none).isSome curKey).scan s := by
  rw [scan.eq_def]
  rfl

theorem scan_colon (k : Str) (names : List Str) (s : Str)
    : (out (some names :: seen) expectKey (some k)).scan (0x3a :: s) =
        if k ∈ names then true else (out (some (k :: names) :: seen) false none).scan s := by
  rw [scan.eq_def]
  rfl

theorem scan_value_quote (s : Str)
    : (out seen false curKey).scan (0x22 :: s) =
        KeyScan.scan ⟨seen, true, false, false, false, curKey⟩ s := by
  rw [scan.eq_def]
  rfl

theorem scan_name_quote (s : Str)
    : (out seen true curKey).scan (0x22 :: s) = (key seen true []).scan s := by
  rw [scan.eq_def]
  rfl

theorem skips_scan
    : Json.Skips (fun esc s => KeyScan.scan ⟨seen, true, esc, expectKey, false, curKey⟩ s)
        (fun s => (out seen expectKey curKey).scan s) where
  quote s := by
    rw [scan.eq_def]
    rfl
  slash s := by
    rw [scan.eq_def]
    rfl
  raw {c} hquote hslash s := by
    rw [scan.eq_def]
    simp only [hquote, hslash, Bool.false_eq_true, ↓reduceIte]
  escaped c s := by
    rw [scan.eq_def]
    simp only [Bool.false_eq_true, ↓reduceIte]

theorem scan_key_append {word acc : Str} (h : ∀ c ∈ word, c ≠ 0x22 ∧ c ≠ 0x5c) (s : Str)
    : (key seen expectKey acc).scan (word ++ s) = (key seen expectKey (acc ++ word)).scan s := by
  induction word generalizing acc with
  | nil => rw [List.append_nil, List.nil_append]
  | cons c word ih =>
    rw [List.forall_mem_cons] at h
    rw [List.cons_append, scan.eq_def]
    simp only [key, h.1.1, h.1.2, Bool.false_eq_true, ↓reduceIte]
    refine (ih h.2).trans ?_
    rw [Option.getD_some, List.append_assoc, List.singleton_append]
    rfl

theorem scan_key_slash (acc s : Str)
    : (key seen expectKey acc).scan (0x5c :: s) =
        KeyScan.scan ⟨seen, true, true, expectKey, true, some acc⟩ s := by
  rw [scan.eq_def]
  rfl

theorem scan_key_letter {l : CodePoint} (hu : l ≠ 0x75) (acc s : Str)
    : (key seen expectKey acc).scan (0x5c :: l :: s) =
        (key seen expectKey (acc ++ [keyEscape l])).scan s := by
  rw [scan_key_slash, scan.eq_def]
  simp only [hu, ↓reduceIte]
  rfl

theorem scan_key_hex (h1 h2 h3 h4 : CodePoint) (acc s : Str)
    : (key seen expectKey acc).scan (0x5c :: 0x75 :: h1 :: h2 :: h3 :: h4 :: s) =
        (key seen expectKey (acc ++ [fromHex [h1, h2, h3, h4]])).scan s := by
  rw [scan_key_slash, scan.eq_def]
  rfl

theorem scan_key_quote (acc s : Str)
    : (key seen expectKey acc).scan (0x22 :: s) = (out seen expectKey (some acc)).scan s := by
  rw [scan.eq_def]
  rfl

def pieceUnits : Json.Piece → Str
  | .raw c => unitsOf c
  | .esc c => unitsOf c

theorem unitsOf_of_lt {c : CodePoint} (h : c.val < 0x10000) : unitsOf c = [c] := by
  rw [unitsOf, Utf16.unitsOf, if_pos h, List.map_singleton, CodePoint.ofNat_val]

theorem unitsOf_combine {h l : CodePoint} (hh : h.isHighSurrogate = true)
    (hl : l.isLowSurrogate = true) : unitsOf (Json.combine h l) = unitsOf h ++ unitsOf l := by
  simp only [CodePoint.isHighSurrogate, CodePoint.isLowSurrogate, Bool.and_eq_true,
    decide_eq_true_eq] at hh hl
  have hval : (Json.combine h l).val = 0x10000 + (h.val - 0xD800) * 0x400 + (l.val - 0xDC00) :=
    CodePoint.val_ofNat _ (by omega)
  rw [unitsOf_of_lt (c := h) (by omega), unitsOf_of_lt (c := l) (by omega), unitsOf, Utf16.unitsOf,
    if_neg (by omega), hval]
  have hhigh : 0xD800 + (0x10000 + (h.val - 0xD800) * 0x400 + (l.val - 0xDC00) - 0x10000) / 0x400 =
      h.val := by omega
  have hlow : 0xDC00 + (0x10000 + (h.val - 0xD800) * 0x400 + (l.val - 0xDC00) - 0x10000) % 0x400 =
      l.val := by omega
  rw [hhigh, hlow, List.map_cons, List.map_singleton, CodePoint.ofNat_val, CodePoint.ofNat_val]
  rfl

/--
The units of a string are those of its pieces, and a pair of escapes gives both halves.
-/
theorem units_joinPieces (ps : List Json.Piece)
    : units (Json.joinPieces id ps) = ps.flatMap pieceUnits := by
  fun_induction Json.joinPieces id ps with
  | case1 => rfl
  | case2 c ps ih =>
    rw [List.flatMap_cons, ← ih]
    rfl
  | case3 h l rest hpair ih =>
    rw [Bool.and_eq_true] at hpair
    rw [List.flatMap_cons, List.flatMap_cons, ← ih, ← List.append_assoc]
    exact congrArg (· ++ units (Json.joinPieces id rest)) (unitsOf_combine hpair.1 hpair.2)
  | case4 h l rest hpair ih =>
    rw [List.flatMap_cons, ← ih]
    simp [units, pieceUnits]
  | case5 h ps hps ih =>
    rw [List.flatMap_cons, ← ih]
    simp [units, pieceUnits]

theorem scan_key_pieces {s rest : Str} {ps : List Json.Piece}
    (h : Json.scanPieces s = some (ps, rest)) (acc : Str)
    : (key seen expectKey acc).scan (units s) =
        (out seen expectKey (some (acc ++ ps.flatMap pieceUnits))).scan (units rest) := by
  have hascii : ∀ {c : CodePoint} {t : Str}, c.val < 0x80 → units (c :: t) = c :: units t :=
    fun hc => Json.spell_cons spelling_unitsOf hc _
  fun_induction Json.scanPieces s generalizing ps acc with
  | case1 => cases h
  | case2 s =>
    rcases Prod.mk.inj (Option.some.inj h) with ⟨rfl, rfl⟩
    rw [hascii (by decide), scan_key_quote, List.flatMap_nil, List.append_nil]
  | case3 => cases h
  | case4 h1 h2 h3 h4 s n hn _ ih =>
    rcases Json.cons_piece_eq_some h with ⟨qs, hqs, rfl⟩
    rcases fromHex_eq hn with ⟨hhex, hlt⟩
    have hspell : units (0x5c :: 0x75 :: h1 :: h2 :: h3 :: h4 :: s) =
        0x5c :: 0x75 :: h1 :: h2 :: h3 :: h4 :: units s := Json.spell_esc spelling_unitsOf hn s
    rw [hspell, scan_key_hex, ih hqs, hhex, List.flatMap_cons, pieceUnits, unitsOf_of_lt hlt,
      List.append_assoc]
  | case5 => cases h
  | case6 => cases h
  | case7 l s hu c hc _ ih =>
    rcases Json.cons_piece_eq_some h with ⟨qs, hqs, rfl⟩
    have hraw : unitsOf c = [keyEscape l] := by
      rw [keyEscape_eq hu hc]
      exact spelling_unitsOf.ascii (lt_of_unescape? hc)
    rw [hascii (by decide), hascii (Json.val_lt_of_unescape? hc), scan_key_letter hu, ih hqs,
      List.flatMap_cons, pieceUnits, hraw, List.append_assoc]
  | case8 => cases h
  | case9 => cases h
  | case10 c s hquote hslash hctl ih =>
    rcases Json.cons_piece_eq_some h with ⟨qs, hqs, rfl⟩
    have hunits := Json.forall_units spelling_unitsOf (p := fun d => d ≠ 0x22 ∧ d ≠ 0x5c)
      (fun d hd => ⟨Json.ne_of_wide (by decide) hd, Json.ne_of_wide (by decide) hd⟩)
      ⟨hquote, hslash⟩
    have hcons : units (c :: s) = unitsOf c ++ units s := List.flatMap_cons
    rw [hcons, scan_key_append hunits, ih hqs, List.flatMap_cons, pieceUnits, List.append_assoc]

theorem scan_key_string {s t rest : Str} (h : Json.scanString id s = some (t, rest))
    : (out seen true curKey).scan (units (0x22 :: s)) =
        (out seen true (some (units t))).scan (units rest) := by
  rcases Option.map_eq_some_iff.mp h with ⟨⟨ps, rest'⟩, hps, heq⟩
  rcases Prod.mk.inj heq with ⟨rfl, rfl⟩
  have hcons : units (0x22 :: s) = 0x22 :: units s := Json.spell_cons spelling_unitsOf (by decide) s
  rw [hcons, scan_name_quote, scan_key_pieces hps, units_joinPieces, List.nil_append]

theorem quiet_of_isWordChar {c : CodePoint} (h : Json.isWordChar c = true) : Quiet c := by
  have hne : ∀ d, Json.isWordChar d = false → c ≠ d := fun d hd => Json.ne_of_isWordChar h hd
  exact ⟨hne _ (by decide), hne _ (by decide), hne _ (by decide), hne _ (by decide),
    hne _ (by decide), hne _ (by decide), hne _ (by decide)⟩

theorem scan_skipSpace (s : Str)
    : (out seen expectKey curKey).scan (units (Json.skipSpace s)) =
        (out seen expectKey curKey).scan (units s) := by
  rcases Json.skipSpace_prefix s with ⟨blanks, hs, hblanks⟩
  have hspell : units s = blanks ++ units (Json.skipSpace s) := by
    conv_lhs => rw [hs]
    exact Json.spell_append spelling_unitsOf (fun c hc => Json.val_lt_of_isSpace (hblanks c hc)) _
  rw [hspell, scan_quiet fun c hc => ?_]
  have hspace := hblanks c hc
  simp only [Json.isSpace, Bool.or_eq_true, decide_eq_true_eq] at hspace
  rcases hspace with ((rfl | rfl) | rfl) | rfl <;> (rw [Quiet]; decide)

/--
The names of a part are proper characters, as are those of everything in it.
-/
def ScalarPart : Json.Part → Prop
  | .value v => v.All Json.ScalarText
  | .elems xs => ∀ x ∈ xs, x.All Json.ScalarText
  | .members ms => ∀ m ∈ ms, Str.Scalar m.1 ∧ m.2.All Json.ScalarText

/--
What the scan finds in a part, whatever is around it; of an object, `names` were there before.
-/
def Finds (s rest : Str) : Json.Part → Prop
  | .value v => ∀ seen, ((out seen false none).scan s = true ↔
      ¬v.All Json.UniqueKeys ∨ (out seen false none).scan rest = true)
  | .elems xs => ∀ seen, ((out (none :: seen) false none).scan s = true ↔
      (∃ x ∈ xs, ¬x.All Json.UniqueKeys) ∨ (out seen false none).scan rest = true)
  | .members ms => ∀ seen, ∀ names : List Str, (∀ k ∈ names, Str.Scalar k) →
      ((out (some (names.map units) :: seen) true none).scan s = true ↔
        ((∃ m ∈ ms, m.1 ∈ names) ∨ ¬(ms.map Prod.fst).Nodup ∨
            ∃ m ∈ ms, ¬m.2.All Json.UniqueKeys) ∨
          (out seen false none).scan rest = true)

theorem units_inj {s t : Str} (hs : Str.Scalar s) (ht : Str.Scalar t) (h : units s = units t)
    : s = t := by
  have hunits : ∀ u : Str, (units u).map Fin.val = Utf16.units u := by
    intro u
    rw [units, List.map_flatMap]
    refine List.flatMap_congr fun c _ => ?_
    rw [unitsOf, List.map_map]
    refine (List.map_congr_left fun u hu => ?_).trans (List.map_id _)
    have hlt := Utf16.unitsOf_lt u hu
    exact CodePoint.val_ofNat u (by omega)
  refine Utf16.units_inj hs ht ?_
  rw [← hunits, ← hunits, h]

theorem or_reorder {a b c d e f : Prop}
    : (a ∨ ((b ∨ c) ∨ d ∨ e) ∨ f) ↔ (c ∨ (b ∨ d) ∨ a ∨ e) ∨ f := by
  tauto

/--
The induction is on what is parsed. The names of an object are compared as they are decoded.
-/
theorem finds_of_scans {n k : Nat} {s rest : Str} {part : Json.Part}
    (h : Json.Scans (grammar n) k s part rest) (hpart : ScalarPart part)
    : Finds (units s) (units rest) part := by
  have hascii : ∀ {c : CodePoint} {t : Str}, c.val < 0x80 → units (c :: t) = c :: units t :=
    fun hc => Json.spell_cons spelling_unitsOf hc _
  have hnext : ∀ {c : CodePoint} {t u : Str} (seen expectKey curKey), Json.skipSpace t = c :: u →
      c.val < 0x80 → (out seen expectKey curKey).scan (units t) =
        (out seen expectKey curKey).scan (c :: units u) := by
    intro c t u seen expectKey curKey ht hc
    rw [← scan_skipSpace, ht, hascii hc]
  have hmem : ∀ {k : Str} {names : List Str}, Str.Scalar k → (∀ k ∈ names, Str.Scalar k) →
      (units k ∈ names.map units ↔ k ∈ names) := by
    intro k names hk hnames
    refine ⟨fun h => ?_, List.mem_map_of_mem⟩
    rcases List.mem_map.mp h with ⟨k', hk', heq⟩
    rwa [← units_inj (hnames k' hk') hk heq]
  induction h with
  | str h =>
    intro seen
    rw [hascii (by decide), scan_value_quote]
    refine (iff_of_eq (congrArg (· = true) (skips_scan.string spelling_unitsOf h))).trans ?_
    exact (or_iff_right (not_not.mpr trivial)).symm
  | atom h =>
    intro seen
    rcases Json.scanAtom_eq_ok h with ⟨hatom, word, rfl, hword⟩
    have hspell : ∀ t, units (word ++ t) = word ++ units t := Json.spell_append spelling_unitsOf
      fun c hc => Json.val_lt_of_isWordChar (hword c hc)
    rw [hspell, scan_quiet fun c hc => quiet_of_isWordChar (hword c hc)]
    exact (or_iff_right (not_not.mpr hatom.text.2)).symm
  | nilArr h =>
    intro seen
    rw [hascii (by decide), scan_openArray, hnext _ _ _ h (by decide), scan_close (Or.inr rfl)]
    exact (or_iff_right (by simp [Json.UniqueKeys])).symm
  | arr _ ih =>
    intro seen
    rw [hascii (by decide), scan_openArray, ← scan_skipSpace,
      ih ((Json.all_arr _ _).mp hpart).2 seen]
    exact or_congr_left (by simp [Json.UniqueKeys])
  | nilObj h hms =>
    intro seen
    cases hms
    rw [hascii (by decide), scan_openObject, hnext _ _ _ h (by decide), scan_close (Or.inl rfl)]
    exact (or_iff_right (by simp [Json.UniqueKeys])).symm
  | obj _ hms ih =>
    intro seen
    cases hms
    rw [ScalarPart, Json.all_obj, Json.ScalarText, ← forall₂_and] at hpart
    have hfound := ih hpart seen [] (fun _ h => absurd h List.not_mem_nil)
    rw [List.map_nil] at hfound
    rw [hascii (by decide), scan_openObject, ← scan_skipSpace, hfound]
    refine or_congr_left ?_
    rw [Json.all_obj, Json.UniqueKeys, not_and_or]
    simp
  | lastElem _ ht ih =>
    intro seen
    rw [ih (hpart _ List.mem_cons_self) (none :: seen), hnext _ _ _ ht (by decide),
      scan_close (Or.inr rfl), List.tail_cons]
    exact or_congr_left (by simp)
  | elem _ ht _ ih ihs =>
    intro seen
    rw [ScalarPart, List.forall_mem_cons] at hpart
    rw [ih hpart.1 (none :: seen), hnext _ _ _ ht (by decide), scan_comma, ← scan_skipSpace]
    refine (or_congr_right (ihs hpart.2 seen)).trans ?_
    simp [or_assoc]
  | @lastMember _ _ _ _ _ _ name v hk ht _ hw ih =>
    intro seen names hnames
    rcases hpart _ List.mem_cons_self with ⟨hkey, hvalue⟩
    rw [scan_key_string hk, hnext _ _ _ ht (by decide), scan_colon, ← scan_skipSpace]
    by_cases hin : name ∈ names
    . rw [if_pos ((hmem hkey hnames).mpr hin)]
      simp [hin]
    . rw [if_neg (mt (hmem hkey hnames).mp hin), ih hvalue, hnext _ _ _ hw (by decide),
        scan_close (Or.inl rfl), List.tail_cons]
      simp [hin]
  | @member _ _ _ _ _ _ _ name v ms hk ht _ hw _ ih ihs =>
    intro seen names hnames
    rw [ScalarPart, List.forall_mem_cons] at hpart
    rcases hpart with ⟨⟨hkey, hvalue⟩, hrest⟩
    rw [scan_key_string hk, hnext _ _ _ ht (by decide), scan_colon, ← scan_skipSpace]
    by_cases hin : name ∈ names
    . rw [if_pos ((hmem hkey hnames).mpr hin)]
      simp [hin]
    . have hfound := ihs hrest seen _ (List.forall_mem_cons.mpr ⟨hkey, hnames⟩)
      rw [List.map_cons] at hfound
      rw [if_neg (mt (hmem hkey hnames).mp hin), ih hvalue, hnext _ _ _ hw (by decide), scan_comma,
        ← scan_skipSpace]
      refine (or_congr_right hfound).trans ?_
      have hsame : (∃ m ∈ ms, m.1 ∈ name :: names) ↔
          name ∈ ms.map Prod.fst ∨ ∃ m ∈ ms, m.1 ∈ names := by
        simp only [List.mem_cons, List.mem_map, and_or_left, exists_or]
      rw [hsame, List.map_cons, List.nodup_cons, not_and_or, not_not, List.exists_mem_cons_iff,
        List.exists_mem_cons_iff]
      rw [or_iff_right hin]
      exact or_reorder

end KeyScan

theorem hasDuplicateKeys_iff {text : Str} {v : Json} (h : Says text v)
    (hv : v.All Json.ScalarText)
    : hasDuplicateKeys (units text) = true ↔ ¬v.All Json.UniqueKeys := by
  rcases Json.scans_of_loads h with ⟨rest, hscans, hrest⟩
  have hfound := KeyScan.finds_of_scans hscans hv []
  rw [KeyScan.scan_skipSpace, ← KeyScan.scan_skipSpace rest, hrest] at hfound
  refine hfound.trans (or_iff_left ?_)
  rw [units, List.flatMap_nil, KeyScan.scan_nil]
  exact Bool.false_ne_true

end Js

/--
The scans of JavaScript are exact: they find out whether an object has two members of one name, however
it is spelled, and whether a number has a fraction or an exponent.
-/
theorem jsPrescans_exact (text : Str) (v : Json) (hscalar : Str.Scalar text) (h : Says text v)
    (hlone : hasLoneSurrogate text = false)
    : (Js.hasDuplicateKeys (Js.units text) = true ↔ ¬v.All Json.UniqueKeys) ∧
      (Js.hasFloatLexeme (Js.units text) = true ↔ ¬v.All Json.NotFloat) := by
  have hv : v.All Json.ScalarText := by
    by_contra hnot
    rw [(hasLoneSurrogate_iff hscalar h).mpr hnot] at hlone
    cases hlone
  exact ⟨Js.hasDuplicateKeys_iff h hv,
    (Js.detects_floatFrom text.length).loads Bool.false_ne_true h trivial⟩

/--
One name spelled in two ways, and a float.
-/
def exampleNames : Str := txt "\x7b\"a\":1,\"\\u0061\":2.5\x7d"

def exampleMembers : Json :=
  .obj [(txt "a", .int 1), (txt "a", .float (Python.floatOfText (txt "2.5")))]

theorem says_exampleNames : Says exampleNames exampleMembers := by
  rw [Says]
  decide +kernel

theorem jsPrescans_exact_example
    : (Js.hasDuplicateKeys (Js.units exampleNames) = true ↔ ¬exampleMembers.All Json.UniqueKeys) ∧
      (Js.hasFloatLexeme (Js.units exampleNames) = true ↔ ¬exampleMembers.All Json.NotFloat) := by
  have hscalar : exampleMembers.All Json.ScalarText := by
    rw [exampleMembers, Json.all_obj, Json.ScalarText]
    exact ⟨by decide, by simp [Json.All, Json.ScalarText]⟩
  refine jsPrescans_exact exampleNames exampleMembers (by decide) says_exampleNames ?_
  rw [← Bool.not_eq_true, hasLoneSurrogate_iff (by decide) says_exampleNames]
  exact not_not.mpr hscalar

end Verifier
end CryptoValid
