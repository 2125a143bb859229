import CryptoValid.Lib.Json.Basic

/-!
This module contains the parser of JSON texts: the grammar of `json.loads` (`encoding/json` of Go takes
the same texts), with hooks for what its users decide themselves.
-/

namespace Json

/--
What the user of the parser decides: its exceptions, what becomes of numbers, constants, the members
of an object and surrogate escapes without a partner, and how deep the parser may recurse.
-/
structure Hooks (ε : Type) where
  syntaxError : ε
  recursionError : ε
  parseInt : Str → Except ε Int
  parseFloat : Str → Except ε Binary64
  parseConstant : Str → Except ε Binary64
  objectPairs : List (Str × Json) → Except ε (List (Str × Json))
  lone : CodePoint → CodePoint
  maxDepth : Nat

/-!
### Strings
-/

/--
A character of a string, or the number of a `\\u` escape.
-/
inductive Piece where
  | raw (c : CodePoint)
  | esc (c : CodePoint)
  deriving DecidableEq

def hex4? (a b c d : CodePoint) : Option CodePoint := do
  let a ← Hex.digit? a
  let b ← Hex.digit? b
  let c ← Hex.digit? c
  let d ← Hex.digit? d
  return .ofNat (a * 4096 + b * 256 + c * 16 + d)

def unescape? (letter : CodePoint) : Option CodePoint :=
  if letter = 0x22 then some 0x22
  else if letter = 0x5c then some 0x5c
  else if letter = 0x2f then some 0x2f
  else if letter = 0x62 then some 0x08
  else if letter = 0x66 then some 0x0c
  else if letter = 0x6e then some 0x0a
  else if letter = 0x72 then some 0x0d
  else if letter = 0x74 then some 0x09
  else none

/--
The pieces of a string up to its closing quote, and the text after it.
-/
def scanPieces : Str → Option (List Piece × Str)
  | [] => none
  | c :: s =>
    if c = 0x22 then
      some ([], s)
    else if c = 0x5c then
      match s with
      | [] => none
      | letter :: s =>
        if letter = 0x75 then
          match s with
          | h1 :: h2 :: h3 :: h4 :: s =>
            match hex4? h1 h2 h3 h4 with
            | some n => (scanPieces s).map fun (ps, rest) => (.esc n :: ps, rest)
            | none => none
          | _ => none
        else
          match unescape? letter with
          | some r => (scanPieces s).map fun (ps, rest) => (.raw r :: ps, rest)
          | none => none
    else if c.val < 0x20 then
      none
    else
      (scanPieces s).map fun (ps, rest) => (.raw c :: ps, rest)

def combine (high low : CodePoint) : CodePoint :=
  .ofNat (0x10000 + (high.val - 0xD800) * 0x400 + (low.val - 0xDC00))

/--
A high surrogate escape and a low one right after it are one character.
-/
def joinPieces (lone : CodePoint → CodePoint) : List Piece → Str
  | [] => []
  | .raw c :: ps => c :: joinPieces lone ps
  | .esc h :: ps =>
    match ps with
    | .esc l :: rest =>
      if h.isHighSurrogate && l.isLowSurrogate then
        combine h l :: joinPieces lone rest
      else
        (if h.isSurrogate then lone h else h) :: joinPieces lone (.esc l :: rest)
    | ps => (if h.isSurrogate then lone h else h) :: joinPieces lone ps

def scanString (lone : CodePoint → CodePoint) (s : Str) : Option (Str × Str) :=
  (scanPieces s).map fun (ps, rest) => (joinPieces lone ps, rest)

/-!
### Numbers and constants
-/

def isDigit (c : CodePoint) : Bool := 48 ≤ c.val && c.val ≤ 57

def isSpace (c : CodePoint) : Bool := c = 0x20 || c = 0x09 || c = 0x0a || c = 0x0d

def skipSpace (s : Str) : Str := s.dropWhile isSpace

/--
A number's text, whether it has a fraction or an exponent, and the text after it.
-/
def scanNumber? (s : Str) : Option (Str × Bool × Str) :=
  let (sign, s) :=
    match s with
    | c :: rest => if c = 0x2d then ([c], rest) else ([], s)
    | [] => ([], s)
  match s with
  | [] => none
  | c :: rest =>
    if !isDigit c then
      none
    else
      let (digits, s) := if c = 0x30 then ([c], rest) else (s.takeWhile isDigit, s.dropWhile isDigit)
      let (frac, s) := scanFraction s
      let (exp, s) := scanExponent s
      some (sign ++ digits ++ frac ++ exp, !(frac.isEmpty && exp.isEmpty), s)
where
  scanFraction (s : Str) : Str × Str :=
    match s with
    | c :: d :: rest =>
      if c = 0x2e ∧ isDigit d then
        (c :: (d :: rest).takeWhile isDigit, (d :: rest).dropWhile isDigit)
      else
        ([], s)
    | _ => ([], s)
  scanExponent (s : Str) : Str × Str :=
    match s with
    | c :: rest =>
      if c = 0x65 ∨ c = 0x45 then
        let (sign, rest) :=
          match rest with
          | d :: rest' => if d = 0x2b ∨ d = 0x2d then ([d], rest') else ([], rest)
          | [] => ([], rest)
        if (rest.takeWhile isDigit).isEmpty then
          ([], s)
        else
          (c :: (sign ++ rest.takeWhile isDigit), rest.dropWhile isDigit)
      else
        ([], s)
    | [] => ([], s)

def natOfText (s : Str) : Nat := s.foldl (fun n c => 10 * n + (c.val - 48)) 0

/--
The integer that a sequence of digits with or without a minus sign stands for.
-/
def intOfText : Str → Int
  | c :: s => if c = 0x2d then -(natOfText s : Int) else natOfText (c :: s)
  | [] => 0

def stripPrefix? (word s : Str) : Option Str :=
  if word.isPrefixOf s then some (s.drop word.length) else none

/--
`null`, `true`, `false`, a constant or a number.
-/
def scanAtom {ε : Type} (H : Hooks ε) (s : Str) : Except ε (Json × Str) :=
  if let some rest := stripPrefix? (txt "null") s then
    .ok (.null, rest)
  else if let some rest := stripPrefix? (txt "true") s then
    .ok (.bool true, rest)
  else if let some rest := stripPrefix? (txt "false") s then
    .ok (.bool false, rest)
  else if let some rest := stripPrefix? (txt "NaN") s then do
    return (.float (← H.parseConstant (txt "NaN")), rest)
  else if let some rest := stripPrefix? (txt "Infinity") s then do
    return (.float (← H.parseConstant (txt "Infinity")), rest)
  else if let some rest := stripPrefix? (txt "-Infinity") s then do
    return (.float (← H.parseConstant (txt "-Infinity")), rest)
  else
    match scanNumber? s with
    | none => .error H.syntaxError
    | some (text, true, rest) => do return (.float (← H.parseFloat text), rest)
    | some (text, false, rest) => do return (.int (← H.parseInt text), rest)

/-!
### Values
-/

mutual

/--
One value and the text after it. Every call uses up a character at least, so that the length of the
text is fuel enough.
-/
def scanValue {ε : Type} (H : Hooks ε) (fuel depth : Nat) (s : Str) : Except ε (Json × Str) :=
  match fuel with
  | 0 => .error H.syntaxError
  | fuel + 1 =>
    match s with
    | [] => .error H.syntaxError
    | c :: rest =>
      if c = 0x22 then
        match scanString H.lone rest with
        | none => .error H.syntaxError
        | some (t, rest) => .ok (.str t, rest)
      else if c = 0x5b then
        match depth with
        | 0 => .error H.recursionError
        | depth + 1 =>
          match skipSpace rest with
          | [] => .error H.syntaxError
          | d :: tail =>
            if d = 0x5d then .ok (.arr [], tail)
            else do
              let (xs, rest) ← scanElems H fuel depth (d :: tail)
              return (.arr xs, rest)
      else if c = 0x7b then
        match depth with
        | 0 => .error H.recursionError
        | depth + 1 =>
          match skipSpace rest with
          | [] => .error H.syntaxError
          | d :: tail =>
            if d = 0x7d then do return (.obj (← H.objectPairs []), tail)
            else do
              let (ms, rest) ← scanMembers H fuel depth (d :: tail)
              return (.obj (← H.objectPairs ms), rest)
      else
        scanAtom H s

/--
The elements of an array, from the first one up to the closing bracket.
-/
def scanElems {ε : Type} (H : Hooks ε) (fuel depth : Nat) (s : Str)
    : Except ε (List Json × Str) :=
  match fuel with
  | 0 => .error H.syntaxError
  | fuel + 1 => do
    let (x, rest) ← scanValue H fuel depth s
    match skipSpace rest with
    | [] => .error H.syntaxError
    | d :: tail =>
      if d = 0x5d then return ([x], tail)
      else if d = 0x2c then do
        let (xs, rest) ← scanElems H fuel depth (skipSpace tail)
        return (x :: xs, rest)
      else .error H.syntaxError

/--
The members of an object, from the first key up to the closing brace.
-/
def scanMembers {ε : Type} (H : Hooks ε) (fuel depth : Nat) (s : Str)
    : Except ε (List (Str × Json) × Str) :=
  match fuel with
  | 0 => .error H.syntaxError
  | fuel + 1 =>
    match s with
    | [] => .error H.syntaxError
    | c :: rest =>
      if c ≠ 0x22 then
        .error H.syntaxError
      else
        match scanString H.lone rest with
        | none => .error H.syntaxError
        | some (k, rest) =>
          match skipSpace rest with
          | [] => .error H.syntaxError
          | colon :: rest =>
            if colon ≠ 0x3a then
              .error H.syntaxError
            else do
              let (v, rest) ← scanValue H fuel depth (skipSpace rest)
              match skipSpace rest with
              | [] => .error H.syntaxError
              | d :: tail =>
                if d = 0x7d then return ([(k, v)], tail)
                else if d = 0x2c then do
                  let (ms, rest) ← scanMembers H fuel depth (skipSpace tail)
                  return ((k, v) :: ms, rest)
                else .error H.syntaxError

end

/--
A whole text: one value with blanks around it.
-/
def loads {ε : Type} (H : Hooks ε) (s : Str) : Except ε Json := do
  let (v, rest) ← scanValue H (s.length + 1) H.maxDepth (skipSpace s)
  if (skipSpace rest).isEmpty then return v else .error H.syntaxError

/--
A dict from pairs: the last value of a key counts, at the place of its first one.
-/
def dictOfPairs (pairs : List (Str × Json)) : List (Str × Json) :=
  (pairs.foldl (fun d p => d.set p.1 p.2) (Dict.empty : Dict Str Json)).items

end Json
