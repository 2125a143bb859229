import CryptoValid.Lib.Json.Basic

/-!
This module contains the compact text of a JSON value, as `json.dumps` with `separators=(",", ":")`
writes it. The flag `ascii` is `ensure_ascii`.
-/

namespace Json

def digit (n : Nat) : CodePoint := .ofNat (48 + n)

def natText (n : Nat) : Str :=
  if n < 10 then [digit n] else natText (n / 10) ++ [digit (n % 10)]

def intText (i : Int) : Str :=
  if i < 0 then .ofNat 0x2d :: natText i.natAbs else natText i.natAbs

/--
Four hexadecimal digits.
-/
def hex4 (n : Nat) : Str :=
  [Hex.digit (n / 4096), Hex.digit (n / 256 % 16), Hex.digit (n / 16 % 16), Hex.digit (n % 16)]

def unicodeEscape (n : Nat) : Str := .ofNat 0x5c :: .ofNat 0x75 :: hex4 n

/--
The letter after the backslash for the characters that have a short escape.
-/
def shortEscape? (c : CodePoint) : Option CodePoint :=
  if c = 0x22 then some 0x22
  else if c = 0x5c then some 0x5c
  else if c = 0x0a then some 0x6e
  else if c = 0x0d then some 0x72
  else if c = 0x09 then some 0x74
  else if c = 0x08 then some 0x62
  else if c = 0x0c then some 0x66
  else none

def escape (ascii : Bool) (c : CodePoint) : Str :=
  match shortEscape? c with
  | some letter => [0x5c, letter]
  | none =>
    if c.val < 0x20 then unicodeEscape c.val
    else if !ascii || c.val < 0x7f then [c]
    else if c.val < 0x10000 then unicodeEscape c.val
    else
      unicodeEscape (0xD800 + (c.val - 0x10000) / 0x400) ++
        unicodeEscape (0xDC00 + (c.val - 0x10000) % 0x400)

def stringText (ascii : Bool) (s : Str) : Str := 0x22 :: (s.flatMap (escape ascii) ++ [0x22])

/--
`float.__repr__`, except for the three numbers that JSON has no text for.
-/
def floatText (x : Binary64) : Str :=
  if x.isNaN then txt "NaN"
  else if x.isInfinite then
    if x.negative then txt "-Infinity" else txt "Infinity"
  else x.repr

mutual

def dumps (ascii : Bool) : Json → Str
  | .null => txt "null"
  | .bool true => txt "true"
  | .bool false => txt "false"
  | .int i => intText i
  | .float x => floatText x
  | .str s => stringText ascii s
  | .arr [] => [0x5b, 0x5d]
  | .arr (x :: xs) => 0x5b :: (dumps ascii x ++ (dumpsTail ascii xs ++ [0x5d]))
  | .obj [] => [0x7b, 0x7d]
  | .obj ((k, v) :: ms) =>
    0x7b :: (stringText ascii k ++ (0x3a :: (dumps ascii v ++ (dumpsMembers ascii ms ++ [0x7d]))))

def dumpsTail (ascii : Bool) : List Json → Str
  | [] => []
  | x :: xs => 0x2c :: (dumps ascii x ++ dumpsTail ascii xs)

def dumpsMembers (ascii : Bool) : List (Str × Json) → Str
  | [] => []
  | (k, v) :: ms =>
    0x2c :: (stringText ascii k ++ (0x3a :: (dumps ascii v ++ dumpsMembers ascii ms)))

end

/--
The blanks of a text with line breaks or spaces; what is inside a bracket is one level below it.
-/
structure Layout where
  opening : Nat → Str
  comma : Nat → Str
  closing : Nat → Str
  colon : Str

namespace Layout

def compact : Layout := ⟨fun _ => [], fun _ => [], fun _ => [], []⟩

/--
`json.dumps(v)`.
-/
def spaced : Layout := ⟨fun _ => [], fun _ => [0x20], fun _ => [], [0x20]⟩

/--
`json.dumps(v, indent=1)`.
-/
def indented : Layout :=
  let line level := 0x0a :: List.replicate level 0x20
  ⟨line, line, line, [0x20]⟩

end Layout

mutual

def dumpsIn (L : Layout) (ascii : Bool) (level : Nat) : Json → Str
  | .null => txt "null"
  | .bool true => txt "true"
  | .bool false => txt "false"
  | .int i => intText i
  | .float x => floatText x
  | .str s => stringText ascii s
  | .arr [] => [0x5b, 0x5d]
  | .arr (x :: xs) =>
    0x5b :: (L.opening (level + 1) ++ (dumpsIn L ascii (level + 1) x ++
      (dumpsInTail L ascii (level + 1) xs ++ (L.closing level ++ [0x5d]))))
  | .obj [] => [0x7b, 0x7d]
  | .obj ((k, v) :: ms) =>
    0x7b :: (L.opening (level + 1) ++ (stringText ascii k ++ (0x3a :: (L.colon ++
      (dumpsIn L ascii (level + 1) v ++
        (dumpsInMembers L ascii (level + 1) ms ++ (L.closing level ++ [0x7d])))))))

def dumpsInTail (L : Layout) (ascii : Bool) (level : Nat) : List Json → Str
  | [] => []
  | x :: xs => 0x2c :: (L.comma level ++ (dumpsIn L ascii level x ++ dumpsInTail L ascii level xs))

def dumpsInMembers (L : Layout) (ascii : Bool) (level : Nat) : List (Str × Json) → Str
  | [] => []
  | (k, v) :: ms =>
    0x2c :: (L.comma level ++ (stringText ascii k ++ (0x3a :: (L.colon ++
      (dumpsIn L ascii level v ++ dumpsInMembers L ascii level ms)))))

end

/--
`json.dumps(v, sort_keys=True, separators=(",", ":"))`.
-/
def canonical (v : Json) : Str := dumps true (sortKeys v)

end Json
