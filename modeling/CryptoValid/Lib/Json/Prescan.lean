import CryptoValid.Lib.Json.RoundTrip
import CryptoValid.Lib.Json.Sound

/-!
This module contains the two linear scans of a JSON text that its readers make before they parse it:
how deep brackets are nested, and whether a surrogate escape has no partner. How a reader turns four
characters into a number is up to it.
-/

namespace Json

/-!
### Nesting
-/

structure Nesting where
  inStr : Bool
  esc : Bool
  depth : Int
  max : Int
  deriving DecidableEq

namespace Nesting

def start : Nesting := ⟨false, false, 0, 0⟩

def step (n : Nesting) (c : CodePoint) : Nesting :=
  if n.inStr then
    if n.esc then { n with esc := false }
    else if c = 0x5c then { n with esc := true }
    else if c = 0x22 then { n with inStr := false }
    else n
  else if c = 0x22 then { n with inStr := true }
  else if c = 0x5b ∨ c = 0x7b then
    { n with depth := n.depth + 1, max := if n.max < n.depth + 1 then n.depth + 1 else n.max }
  else if c = 0x5d ∨ c = 0x7d then { n with depth := n.depth - 1 }
  else n

end Nesting

/--
Brackets in strings do not count.
-/
def nestingDepth (text : Str) : Int := (text.foldl Nesting.step Nesting.start).max

/-!
### Surrogate escapes
-/

def isHigh (n : Int) : Bool := 0xD800 ≤ n && n ≤ 0xDBFF

def isLow (n : Int) : Bool := 0xDC00 ≤ n && n ≤ 0xDFFF

/--
Is there a `\\uD800` to `\\uDFFF` that is not one half of a pair? `int16` reads the number of an
escape.
-/
def hasLoneSurrogate (int16 : Str → Option Int) (text : Str) : Bool :=
  match text with
  | [] => false
  | c :: s =>
    if c ≠ 0x5c then
      hasLoneSurrogate int16 s
    else
      match s with
      | [] => false
      | u :: s =>
        if u = 0x75 ∧ 4 ≤ s.length then
          match int16 (s.take 4) with
          | none => hasLoneSurrogate int16 s
          | some cp =>
            if isHigh cp then
              if (s.drop 4).take 2 ≠ [0x5c, 0x75] then true
              else
                match int16 ((s.drop 6).take 4) with
                | none => true
                | some lo => if isLow lo then hasLoneSurrogate int16 (s.drop 10) else true
            else if isLow cp then true
            else hasLoneSurrogate int16 (s.drop 4)
        else
          hasLoneSurrogate int16 s
termination_by text.length
decreasing_by
  all_goals simp only [List.length_cons, List.length_drop]
  all_goals omega

/--
Four hexadecimal digits are read as what they are.
-/
def ReadsHex (int16 : Str → Option Int) : Prop :=
  ∀ a b c d n, hex4? a b c d = some n → int16 [a, b, c, d] = some (n.val : Int)

theorem hex4?_eq_some {a b c d n : CodePoint} (h : hex4? a b c d = some n)
    : ∃ va vb vc vd, Hex.digit? a = some va ∧ Hex.digit? b = some vb ∧ Hex.digit? c = some vc ∧
        Hex.digit? d = some vd ∧ n.val = va * 4096 + vb * 256 + vc * 16 + vd ∧ n.val < 0x10000 := by
  simp only [hex4?, Option.bind_eq_bind, Option.bind_eq_some_iff] at h
  rcases h with ⟨va, ha, vb, hb, vc, hc, vd, hd, h⟩
  have hlta := Hex.lt_of_digit? ha
  have hltb := Hex.lt_of_digit? hb
  have hltc := Hex.lt_of_digit? hc
  have hltd := Hex.lt_of_digit? hd
  have hn : n.val = va * 4096 + vb * 256 + vc * 16 + vd := by
    rw [← Option.some.inj h]
    exact CodePoint.val_ofNat _ (by omega)
  exact ⟨va, vb, vc, vd, ha, hb, hc, hd, hn, by omega⟩

/-!
### What is parsed from a text without lone surrogates
-/

/--
The graph of `scanPieces`.
-/
inductive ScanPieces : Str → List Piece → Str → Prop where
  | quote (s : Str) : ScanPieces (0x22 :: s) [] s
  | raw {c : CodePoint} {s rest : Str} {ps : List Piece} (hslash : c ≠ 0x5c)
    (h : ScanPieces s ps rest) : ScanPieces (c :: s) (.raw c :: ps) rest
  | letter {l c : CodePoint} {s rest : Str} {ps : List Piece} (hu : l ≠ 0x75)
    (hc : unescape? l = some c) (h : ScanPieces s ps rest)
    : ScanPieces (0x5c :: l :: s) (.raw c :: ps) rest
  | esc {h1 h2 h3 h4 n : CodePoint} {s rest : Str} {ps : List Piece}
    (hn : hex4? h1 h2 h3 h4 = some n) (h : ScanPieces s ps rest)
    : ScanPieces (0x5c :: 0x75 :: h1 :: h2 :: h3 :: h4 :: s) (.esc n :: ps) rest

theorem cons_piece_eq_some {p : Piece} {r : Option (List Piece × Str)} {ps : List Piece} {rest : Str}
    (h : r.map (fun (qs, rest) => (p :: qs, rest)) = some (ps, rest))
    : ∃ qs, r = some (qs, rest) ∧ ps = p :: qs := by
  rcases Option.map_eq_some_iff.mp h with ⟨⟨qs, rest'⟩, hqs, heq⟩
  rcases Prod.mk.inj heq with ⟨rfl, rfl⟩
  exact ⟨qs, hqs, rfl⟩

theorem scanPieces_graph {s rest : Str} {ps : List Piece} (h : scanPieces s = some (ps, rest))
    : ScanPieces s ps rest := by
  fun_induction scanPieces s generalizing ps with
  | case1 => simp at h
  | case2 s =>
    rcases Prod.mk.inj (Option.some.inj h) with ⟨rfl, rfl⟩
    exact .quote _
  | case3 => simp at h
  | case4 h1 h2 h3 h4 s n hn _ ih =>
    rcases cons_piece_eq_some h with ⟨qs, hqs, rfl⟩
    exact .esc hn (ih hqs)
  | case5 => simp at h
  | case6 => simp at h
  | case7 l s hu c hc _ ih =>
    rcases cons_piece_eq_some h with ⟨qs, hqs, rfl⟩
    exact .letter hu hc (ih hqs)
  | case8 => simp at h
  | case9 => simp at h
  | case10 c s hquote hslash hctl ih =>
    rcases cons_piece_eq_some h with ⟨qs, hqs, rfl⟩
    exact .raw hslash (ih hqs)

section

variable {int16 : Str → Option Int}

theorem hasLoneSurrogate_nil : hasLoneSurrogate int16 [] = false := by
  rw [hasLoneSurrogate.eq_def]

theorem hasLoneSurrogate_cons {c : CodePoint} {s : Str} (hc : c ≠ 0x5c)
    : hasLoneSurrogate int16 (c :: s) = hasLoneSurrogate int16 s := by
  rw [hasLoneSurrogate.eq_def]
  simp [hc]

theorem hasLoneSurrogate_letter {l : CodePoint} {s : Str} (hl : l ≠ 0x75)
    : hasLoneSurrogate int16 (0x5c :: l :: s) = hasLoneSurrogate int16 s := by
  rw [hasLoneSurrogate.eq_def]
  simp [hl]

variable (hint16 : ReadsHex int16)

include hint16

theorem hasLoneSurrogate_single {h1 h2 h3 h4 n : CodePoint} {s : Str}
    (hn : hex4? h1 h2 h3 h4 = some n) (hhigh : isHigh n.val = false)
    : hasLoneSurrogate int16 (0x5c :: 0x75 :: h1 :: h2 :: h3 :: h4 :: s)
        = (isLow n.val || hasLoneSurrogate int16 s) := by
  rw [hasLoneSurrogate.eq_def]
  cases hlow : isLow n.val <;> simp [hint16 _ _ _ _ _ hn, hhigh, hlow]

theorem hasLoneSurrogate_pair {h1 h2 h3 h4 n g1 g2 g3 g4 m : CodePoint} {s : Str}
    (hn : hex4? h1 h2 h3 h4 = some n) (hm : hex4? g1 g2 g3 g4 = some m)
    (hhigh : isHigh n.val = true)
    : hasLoneSurrogate int16
        (0x5c :: 0x75 :: h1 :: h2 :: h3 :: h4 :: 0x5c :: 0x75 :: g1 :: g2 :: g3 :: g4 :: s)
        = (!isLow m.val || hasLoneSurrogate int16 s) := by
  rw [hasLoneSurrogate.eq_def]
  cases hlow : isLow m.val <;>
    simp [hint16 _ _ _ _ _ hn, hint16 _ _ _ _ _ hm, hhigh, hlow]

theorem hasLoneSurrogate_high {h1 h2 h3 h4 n : CodePoint} {s : Str}
    (hn : hex4? h1 h2 h3 h4 = some n) (hhigh : isHigh n.val = true)
    (hs : s.take 2 ≠ [0x5c, 0x75])
    : hasLoneSurrogate int16 (0x5c :: 0x75 :: h1 :: h2 :: h3 :: h4 :: s) = true := by
  rw [hasLoneSurrogate.eq_def]
  simp [hint16 _ _ _ _ _ hn, hhigh, hs]

end

theorem isSurrogate_eq (c : CodePoint) : c.isSurrogate = (isHigh c.val || isLow c.val) := by
  rw [Bool.eq_iff_iff]
  simp only [CodePoint.isSurrogate, isHigh, isLow, Bool.and_eq_true, Bool.or_eq_true,
    decide_eq_true_eq]
  omega

theorem isHighSurrogate_eq (c : CodePoint) : c.isHighSurrogate = isHigh c.val := by
  rw [Bool.eq_iff_iff]
  simp only [CodePoint.isHighSurrogate, isHigh, Bool.and_eq_true, decide_eq_true_eq]
  omega

theorem isLowSurrogate_eq (c : CodePoint) : c.isLowSurrogate = isLow c.val := by
  rw [Bool.eq_iff_iff]
  simp only [CodePoint.isLowSurrogate, isLow, Bool.and_eq_true, decide_eq_true_eq]
  omega

theorem isSurrogate_unescape? {l c : CodePoint} (h : unescape? l = some c)
    : c.isSurrogate = false := by
  unfold unescape? at h
  repeat' split at h
  all_goals
    simp only [Option.some.injEq, reduceCtorEq] at h
  all_goals
    subst h
    decide

theorem isSurrogate_combine {h l : CodePoint} (hhigh : isHigh h.val = true)
    (hlow : isLow l.val = true) : (combine h l).isSurrogate = false := by
  simp only [isHigh, isLow, Bool.and_eq_true, decide_eq_true_eq] at hhigh hlow
  have hval : (combine h l).val = 0x10000 + (h.val - 0xD800) * 0x400 + (l.val - 0xDC00) :=
    CodePoint.val_ofNat _ (by omega)
  rw [CodePoint.isSurrogate, Bool.and_eq_false_iff, hval]
  simp only [decide_eq_false_iff_not]
  omega

/--
The induction is on the length, since a pair of escapes is two steps of the parser. Every escape that
is left over is no surrogate, so it does not matter what becomes of lone ones.
-/
theorem scanPieces_scalar {int16 : Str → Option Int} (hint16 : ReadsHex int16)
    (lone : CodePoint → CodePoint) {s rest : Str} {ps : List Piece} (h : ScanPieces s ps rest)
    (hs : Str.Scalar s) (hlone : hasLoneSurrogate int16 s = false)
    : Str.Scalar (joinPieces lone ps) ∧ Str.Scalar rest ∧
        hasLoneSurrogate int16 rest = false := by
  induction hn : s.length using Nat.strong_induction_on generalizing s ps with
  | _ n ih =>
    cases h with
    | quote s =>
      rw [Str.scalar_cons] at hs
      rw [hasLoneSurrogate_cons (by decide)] at hlone
      exact ⟨Str.scalar_nil, hs.2, hlone⟩
    | @raw c s _ ps hslash h =>
      rw [Str.scalar_cons] at hs
      rw [hasLoneSurrogate_cons hslash] at hlone
      rcases ih _ (by rw [← hn]; simp) h hs.2 hlone rfl with ⟨hps, hrest⟩
      exact ⟨(Str.scalar_cons _ _).mpr ⟨hs.1, hps⟩, hrest⟩
    | @letter l c s _ ps hu hc h =>
      rw [Str.scalar_cons, Str.scalar_cons] at hs
      rw [hasLoneSurrogate_letter hu] at hlone
      rcases ih _ (by rw [← hn]; simp only [List.length_cons]; omega) h hs.2.2 hlone rfl with ⟨hps, hrest⟩
      exact ⟨(Str.scalar_cons _ _).mpr ⟨isSurrogate_unescape? hc, hps⟩, hrest⟩
    | @esc h1 h2 h3 h4 n s _ ps hhex h =>
      simp only [Str.scalar_cons] at hs
      cases hhigh : isHigh n.val with
      | false =>
        rw [hasLoneSurrogate_single hint16 hhex hhigh, Bool.or_eq_false_iff] at hlone
        rcases ih _ (by rw [← hn]; simp; omega) h hs.2.2.2.2.2.2 hlone.2 rfl with ⟨hps, hrest⟩
        have hscalar : n.isSurrogate = false := by rw [isSurrogate_eq, hhigh, hlone.1]; rfl
        rw [joinPieces_esc lone n ps hscalar]
        exact ⟨(Str.scalar_cons _ _).mpr ⟨hscalar, hps⟩, hrest⟩
      | true =>
        -- the partner has to follow
        by_cases htake : s.take 2 = [0x5c, 0x75]
        . cases h with
          | quote s => simp at htake
          | raw hslash h => simp [hslash] at htake
          | letter hu hc h => simp [hu] at htake
          | @esc g1 g2 g3 g4 m s _ ps hhex' h =>
            rw [hasLoneSurrogate_pair hint16 hhex hhex' hhigh, Bool.or_eq_false_iff] at hlone
            have hlow : isLow m.val = true := by simpa using hlone.1
            have hs' : Str.Scalar s := by
              have := hs.2.2.2.2.2.2
              simp only [Str.scalar_cons] at this
              exact this.2.2.2.2.2.2
            rcases ih _ (by rw [← hn]; simp; omega) h hs' hlone.2 rfl with ⟨hps, hrest⟩
            have hpair : joinPieces lone (.esc n :: .esc m :: ps)
                = combine n m :: joinPieces lone ps := by
              simp [joinPieces, isHighSurrogate_eq, isLowSurrogate_eq, hhigh, hlow]
            rw [hpair]
            exact ⟨(Str.scalar_cons _ _).mpr ⟨isSurrogate_combine hhigh hlow, hps⟩, hrest⟩
        . rw [hasLoneSurrogate_high hint16 hhex hhigh htake] at hlone
          simp at hlone

/--
Text that passed the scan only has proper characters, and so has what is parsed from it.
-/
theorem scanString_scalar {int16 : Str → Option Int} (hint16 : ReadsHex int16)
    {lone : CodePoint → CodePoint} {s t rest : Str} (h : scanString lone s = some (t, rest))
    (hs : Str.Scalar s) (hlone : hasLoneSurrogate int16 s = false)
    : Str.Scalar t ∧ Str.Scalar rest ∧ hasLoneSurrogate int16 rest = false := by
  rcases Option.map_eq_some_iff.mp h with ⟨⟨ps, rest'⟩, hps, heq⟩
  rcases Prod.mk.inj heq with ⟨rfl, rfl⟩
  exact scanPieces_scalar hint16 lone (scanPieces_graph hps) hs hlone

end Json
