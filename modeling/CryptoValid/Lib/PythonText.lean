import CryptoValid.Lib.Base64
import CryptoValid.Lib.Lines
import CryptoValid.Lib.PythonJson

/-!
This module contains files that Python opens as text, line by line, and what it makes of values from
JSON: whether they count as true, when two are equal, their texts, and base64 that is read
leniently.
-/

namespace Python

/-!
### Text files
-/

/--
`open(path, encoding="utf-8").read()`, `none` stands for `UnicodeDecodeError`.
-/
def readText? (content : Bytes) : Option Str := (Utf8.decode? content).map universalNewlines

/--
The lines of a text file, as far as they come, and whether all of them do. A file that is not UTF-8
fails at a line that depends on how far its reader buffers: `early` are the lines before it.
-/
def textLines (early : Bytes → List Str) (content : Bytes) : List Str × Bool :=
  match readText? content with
  | some text => (Lines.split 0x0a text, true)
  | none => (early content, false)

/--
`not line.strip()`.
-/
def isBlankLine (line : Str) : Bool := line.all isSpace

/--
`text.strip()`.
-/
def stripBlanks (text : Str) : Str := ((text.dropWhile isSpace).reverse.dropWhile isSpace).reverse

/--
The tables of the interpreter for the characters of other scripts: `str.upper`, `str.lower`, and the
two properties of characters that are asked for.
-/
structure Unicode where
  upper : Str → Str
  lower : Str → Str
  isAlnum : CodePoint → Bool
  isAlpha : CodePoint → Bool

/--
The tables as far as they are about ASCII.
-/
def Unicode.ascii : Unicode where
  upper := List.map fun c => if 0x61 ≤ c.val ∧ c.val ≤ 0x7a then .ofNat (c.val - 0x20) else c
  lower := List.map fun c => if 0x41 ≤ c.val ∧ c.val ≤ 0x5a then .ofNat (c.val + 0x20) else c
  isAlnum c := c.val < 0x80 && (Char.ofNat c.val).isAlphanum
  isAlpha c := c.val < 0x80 && (Char.ofNat c.val).isAlpha

theorem stripBlanks_append_blank (s : Str) {c : CodePoint} (hc : isSpace c = true)
    : stripBlanks (s ++ [c]) = stripBlanks s := by
  rw [stripBlanks, stripBlanks, List.dropWhile_append]
  split
  . next hnil =>
    rw [List.isEmpty_iff.mp hnil, List.dropWhile_cons_of_pos hc]
    rfl
  . rw [List.reverse_append, List.reverse_singleton, List.singleton_append,
      List.dropWhile_cons_of_pos hc]

theorem stripBlanks_of_plain {s : Str} (hs : ∀ c ∈ s, isSpace c = false) : stripBlanks s = s := by
  have hdrop : ∀ t : Str, (∀ c ∈ t, isSpace c = false) → t.dropWhile isSpace = t := by
    intro t ht
    cases t with
    | nil => rfl
    | cons c t => simp [ht c List.mem_cons_self]
  rw [stripBlanks, hdrop s hs, hdrop _ fun c hc => hs c (List.mem_reverse.mp hc),
    List.reverse_reverse]

theorem isSpace_of_val {c : CodePoint} (hmin : 0x20 < c.val) (hmax : c.val < 0x85)
    : isSpace c = false := by
  have hne : c ≠ 0x20 := by
    rintro rfl
    simp at hmin
  have hwide : c.val ∉ wideSpaces := by
    intro hmem
    have hall : ∀ n ∈ wideSpaces, 0x85 ≤ n := by decide
    have := hall _ hmem
    omega
  simp only [isSpace, isAsciiSpace, hne, decide_false, Bool.false_or, Bool.or_eq_false_iff,
    Bool.and_eq_false_iff, decide_eq_false_iff_not, List.contains_eq_mem, hwide, and_true]
  omega

/-!
### Values
-/

/--
`bool(v)`.
-/
def truthy : Json → Bool
  | .null => false
  | .bool b => b
  | .int i => i ≠ 0
  | .float x => !x.eqInt 0
  | .str s => !s.isEmpty
  | .arr xs => !xs.isEmpty
  | .obj ms => !ms.isEmpty

/--
`x == y` for floats.
-/
def eqFloat (x y : Binary64) : Bool :=
  !x.isNaN && (x = y || (x.eqInt 0 && y.eqInt 0))

mutual

/--
`a == b` for values that were loaded. The decoder has one object for `NaN`, so that inside of lists
and dicts it equals itself.
-/
def eqLoaded (inside : Bool) : Json → Json → Bool
  | .null, .null => true
  | .float x, .float y => eqFloat x y || (inside && x.isNaN && y.isNaN)
  | .float x, .int i => x.eqInt i
  | .float x, .bool b => x.eqInt (if b then 1 else 0)
  | .int i, w => eqInt w i
  | .bool b, w => eqInt w (if b then 1 else 0)
  | .str s, .str t => s = t
  | .arr xs, .arr ys => eqElems xs ys
  | .obj ms, .obj ns => ms.length = ns.length && eqMembers ms ns
  | _, _ => false

def eqElems : List Json → List Json → Bool
  | [], [] => true
  | x :: xs, y :: ys => eqLoaded true x y && eqElems xs ys
  | _, _ => false

def eqMembers : List (Str × Json) → List (Str × Json) → Bool
  | [], _ => true
  | (k, v) :: ms, ns =>
    match Assoc.lookup k ns with
    | some w => eqLoaded true v w && eqMembers ms ns
    | none => false

end

theorem eqLoaded_str_iff (inside : Bool) (s : Str) (w : Json)
    : eqLoaded inside (.str s) w = true ↔ w = .str s := by
  cases w <;> simp [eqLoaded, eq_comm]

theorem eqLoaded_null_iff (inside : Bool) (w : Json)
    : eqLoaded inside .null w = true ↔ w = .null := by
  cases w <;> simp [eqLoaded]

theorem eqLoaded_str_right_iff (inside : Bool) (v : Json) (s : Str)
    : eqLoaded inside v (.str s) = true ↔ v = .str s := by
  cases v <;> simp [eqLoaded, eqInt]

section

variable (reprText : Str → Str)

mutual

/--
`repr(v)`. How a text is quoted depends on the interpreter's tables of printable characters.
-/
def repr : Json → Str
  | .null => txt "None"
  | .bool b => if b then txt "True" else txt "False"
  | .int i => Json.intText i
  | .float x => x.repr
  | .str s => reprText s
  | .arr xs => txt "[" ++ (txt ", ").intercalate (reprElems xs) ++ txt "]"
  | .obj ms => txt "\x7b" ++ (txt ", ").intercalate (reprMembers ms) ++ txt "\x7d"

def reprElems : List Json → List Str
  | [] => []
  | x :: xs => repr x :: reprElems xs

def reprMembers : List (Str × Json) → List Str
  | [] => []
  | (k, v) :: ms => (reprText k ++ txt ": " ++ repr v) :: reprMembers ms

end

/--
`str(v)`
-/
def str : Json → Str
  | .str s => s
  | v => repr reprText v

end

theorem mem_intText {i : Int} {c : CodePoint} (hc : c ∈ Json.intText i)
    : (c.val = 45 ∨ 48 ≤ c.val) ∧ c.val ≤ 57 := by
  have hnat : ∀ d ∈ Json.natText i.natAbs, 48 ≤ d.val ∧ d.val ≤ 57 := by
    intro d hd
    simpa [Json.isDigit] using Json.natText_isDigit _ d hd
  unfold Json.intText at hc
  split at hc
  . rcases List.mem_cons.mp hc with rfl | hc
    . decide
    . exact ⟨Or.inr (hnat c hc).1, (hnat c hc).2⟩
  . exact ⟨Or.inr (hnat c hc).1, (hnat c hc).2⟩

/--
The text of a float has a point, an exponent or a name.
-/
theorem exists_mem_repr (x : Binary64) : ∃ c ∈ x.repr, 57 < c.val ∨ c.val = 46 := by
  have hdot : CodePoint.ofChar '.' ∈ txt "." := by decide
  have hzero : CodePoint.ofChar '.' ∈ txt "0." := by decide
  have hend : CodePoint.ofChar '.' ∈ txt ".0" := by decide
  have hboth : CodePoint.ofChar '.' ∈ txt "0.0" := by decide
  have hnan : CodePoint.ofChar 'n' ∈ txt "nan" := by decide
  have hinf : CodePoint.ofChar 'n' ∈ txt "inf" := by decide
  have he : CodePoint.ofChar 'e' ∈ txt "e" := by decide
  have hpoint : 57 < (CodePoint.ofChar '.').val ∨ (CodePoint.ofChar '.').val = 46 := by decide
  have hn : 57 < (CodePoint.ofChar 'n').val ∨ (CodePoint.ofChar 'n').val = 46 := by decide
  have hexp : 57 < (CodePoint.ofChar 'e').val ∨ (CodePoint.ofChar 'e').val = 46 := by decide
  unfold Binary64.repr
  dsimp only
  split
  . exact ⟨_, hnan, hn⟩
  . split
    . exact ⟨_, List.mem_append_right _ hinf, hn⟩
    . split
      . exact ⟨_, List.mem_append_right _ hboth, hpoint⟩
      . split
        . split
          . refine ⟨_, ?_, hpoint⟩
            simp only [List.mem_append]
            exact Or.inl (Or.inl (Or.inr hzero))
          . split
            . exact ⟨_, List.mem_append_right _ hend, hpoint⟩
            . refine ⟨_, ?_, hpoint⟩
              simp only [List.mem_append]
              exact Or.inl (Or.inr hdot)
        . refine ⟨_, ?_, hexp⟩
          simp only [List.mem_append]
          exact Or.inl (Or.inl (Or.inr he))

/--
Only the integer itself and its text have the text of an integer.
-/
theorem str_eq_intText {reprText : Str → Str} {v : Json} {i : Int}
    (h : str reprText v = Json.intText i) : v = .int i ∨ v = .str (Json.intText i) := by
  have hno : ∀ c ∈ str reprText v, (c.val = 45 ∨ 48 ≤ c.val) ∧ c.val ≤ 57 := by
    rw [h]
    exact fun c hc => mem_intText hc
  cases v with
  | str s => exact Or.inr (congrArg Json.str h)
  | int j => exact Or.inl (congrArg Json.int (Json.intText_inj h))
  | null => exact absurd (hno (.ofChar 'N') (by simp [str, repr, txt])) (by decide)
  | bool b =>
    have hmem : CodePoint.ofChar 'e' ∈ str reprText (.bool b) := by
      cases b <;> simp [str, repr, txt]
    exact absurd (hno _ hmem) (by decide)
  | float x =>
    rcases exists_mem_repr x with ⟨c, hc, hval⟩
    have hrange := hno c hc
    omega
  | arr xs => exact absurd (hno (.ofChar '[') (by simp [str, repr, txt])) (by decide)
  | obj ms => exact absurd (hno (.ofChar '\x7b') (by simp [str, repr, txt])) (by decide)

/--
`base64.b64decode(text)`: other characters are skipped, and padding that fills a quantum is the end.
`quantum` are the digits of the last quantum that is not full, and `pads` the padding after them.
-/
def b64Lenient? (text : Str) : Option Bytes :=
  if text.all fun c => c.val < 128 then go [] 0 text else none
where
  go (quantum : List Nat) (pads : Nat) : Str → Option Bytes
    | [] => if quantum.isEmpty then some [] else none
    | c :: s =>
      if c = 0x3d then
        if 2 ≤ quantum.length then
          if 4 ≤ quantum.length + pads + 1 then some [] else go quantum (pads + 1) s
        else
          go quantum pads s
      else
        match Base64.digit? c, quantum with
        | none, _ => go quantum pads s
        | some d, [] => go [d] 0 s
        | some d, [a] => (go [a, d] 0 s).map (.ofNat (a * 4 + d / 16) :: ·)
        | some d, [a, b] => (go [a, b, d] 0 s).map (.ofNat (b % 16 * 16 + d / 4) :: ·)
        | some d, _ :: _ :: c :: _ => (go [] 0 s).map (.ofNat (c % 4 * 64 + d) :: ·)

/--
`base64.urlsafe_b64decode(text)`, which takes the standard alphabet too.
-/
def b64UrlLenient? (text : Str) : Option Bytes := b64Lenient? (text.map Base64.standard)

end Python
