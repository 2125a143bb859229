import CryptoValid.Lib.Text
import Mathlib.Data.List.Infix
import Mathlib.Data.List.Nodup
import Mathlib.Data.List.TakeWhile

/-!
This module contains the patterns of `fnmatch`, and `glob` over the names of directories.
-/

namespace Glob

inductive Item where
  | star
  | one
  | cls (negated : Bool) (chars : Str)
  | lit (c : CodePoint)
  deriving DecidableEq

/--
What is between brackets, and the pattern after them. A first `]` is one of the characters.
-/
def parseClass (s : Str) : Option (Bool × Str × Str) :=
  let negated := s.head? = some 0x21
  match if negated then s.drop 1 else s with
  | [] => none
  | c :: t =>
    match t.dropWhile (· ≠ 0x5d) with
    | [] => none
    | _ :: rest => some (negated, c :: t.takeWhile (· ≠ 0x5d), rest)

/--
The length of the pattern is fuel enough.
-/
def parseGo (fuel : Nat) (pattern : Str) : List Item :=
  match fuel, pattern with
  | 0, _ | _, [] => []
  | fuel + 1, c :: rest =>
    if c = 0x2a then .star :: parseGo fuel rest
    else if c = 0x3f then .one :: parseGo fuel rest
    else if c = 0x5b then
      match parseClass rest with
      | some (negated, chars, rest) => .cls negated chars :: parseGo fuel rest
      | none => .lit c :: parseGo fuel rest
    else .lit c :: parseGo fuel rest

def parse (pattern : Str) : List Item := parseGo pattern.length pattern

/--
Characters and ranges of characters.
-/
def inClass : Str → CodePoint → Bool
  | a :: d :: b :: rest, c =>
    if d = 0x2d then (a ≤ c && c ≤ b) || inClass rest c
    else a = c || inClass (d :: b :: rest) c
  | a :: rest, c => a = c || inClass rest c
  | [], _ => false

def matchItems : List Item → Str → Bool
  | [], s => s.isEmpty
  | .star :: items, s => s.tails.any (matchItems items)
  | .one :: items, _ :: s => matchItems items s
  | .cls negated chars :: items, c :: s => (inClass chars c != negated) && matchItems items s
  | .lit a :: items, c :: s => a = c && matchItems items s
  | _ :: _, [] => false

def fnmatch (name pattern : Str) : Bool := matchItems (parse pattern) name

/--
A first dot hides a name from patterns that do not start with one.
-/
def isHidden (name : Str) : Bool := name.head? = some 0x2e

def isMagic (c : CodePoint) : Bool := c = 0x2a || c = 0x3f || c = 0x5b

def hasMagic (s : Str) : Bool := s.any isMagic

/--
What is on the disk: the names in each directory, and the directories that a pattern with
metacharacters expands to.
-/
structure World where
  names : Str → List Str
  expand : Str → List Str
  nodup_names : ∀ d, (names d).Nodup
  nodup_expand : ∀ d, (expand d).Nodup

def dirs (w : World) (dirname : Str) : List Str :=
  if hasMagic dirname then w.expand dirname else [dirname]

def glob1 (w : World) (dirname pattern : Str) : List Str :=
  ((w.names dirname).filter fun name => isHidden pattern || !isHidden name).filter fun name =>
    fnmatch name pattern

/--
`glob.glob(os.path.join(dirname, pattern))`: directories and names in them.
-/
def glob (w : World) (dirname pattern : Str) : List (Str × Str) :=
  (dirs w dirname).flatMap fun d => (glob1 w d pattern).map fun name => (d, name)

theorem mem_glob (w : World) (dirname pattern d name : Str)
    : (d, name) ∈ glob w dirname pattern
        ↔
      d ∈ dirs w dirname ∧ name ∈ w.names d ∧ (isHidden pattern ∨ isHidden name = false) ∧
        fnmatch name pattern := by
  simp only [glob, glob1, List.mem_flatMap, List.mem_map, List.mem_filter, Prod.mk.injEq,
    Bool.or_eq_true, Bool.not_eq_true']
  constructor
  . rintro ⟨_, hd, _, ⟨⟨hname, hhidden⟩, hmatch⟩, rfl, rfl⟩
    exact ⟨hd, hname, hhidden, hmatch⟩
  . rintro ⟨hd, hname, hhidden, hmatch⟩
    exact ⟨d, hd, name, ⟨⟨hname, hhidden⟩, hmatch⟩, rfl, rfl⟩

theorem nodup_glob (w : World) (dirname pattern : Str) : (glob w dirname pattern).Nodup := by
  have hdirs : (dirs w dirname).Nodup := by
    rw [dirs]
    split
    . exact w.nodup_expand dirname
    . exact List.nodup_singleton dirname
  rw [glob, List.nodup_flatMap]
  constructor
  . intro d _
    refine List.Nodup.map (fun a b h => (Prod.mk.inj h).2) ?_
    exact ((w.nodup_names d).filter _).filter _
  . refine hdirs.imp fun {a b} hab => ?_
    refine List.disjoint_left.mpr ?_
    rintro p hp hq
    rcases List.mem_map.mp hp with ⟨_, _, rfl⟩
    rcases List.mem_map.mp hq with ⟨_, _, heq⟩
    exact hab (Prod.mk.inj heq).1.symm

/-!
### Patterns without metacharacters at the start
-/

theorem parseGo_lit {s : Str} (h : hasMagic s = false) (fuel : Nat) (rest : Str)
    : parseGo (s.length + fuel) (s ++ rest) = s.map .lit ++ parseGo fuel rest := by
  induction s with
  | nil => simp
  | cons c s ih =>
    simp only [hasMagic, List.any_cons, isMagic, Bool.or_eq_false_iff, decide_eq_false_iff_not] at h
    rcases h with ⟨⟨⟨hstar, hone⟩, hclass⟩, hs⟩
    rw [List.length_cons, show s.length + 1 + fuel = (s.length + fuel) + 1 by omega,
      List.cons_append, parseGo, if_neg hstar, if_neg hone, if_neg hclass, ih hs]
    rfl

theorem parse_append {s : Str} (h : hasMagic s = false) (rest : Str)
    : parse (s ++ rest) = s.map .lit ++ parse rest := by
  rw [parse, List.length_append, parseGo_lit h, parse]

theorem matchItems_lit (lits : Str) (items : List Item) (s : Str)
    : matchItems (lits.map .lit ++ items) s ↔ ∃ t, s = lits ++ t ∧ matchItems items t := by
  induction lits generalizing s with
  | nil => simp
  | cons a lits ih =>
    cases s with
    | nil => simp [matchItems]
    | cons c s =>
      rw [List.map_cons, List.cons_append, matchItems, Bool.and_eq_true, ih, decide_eq_true_eq]
      constructor
      . rintro ⟨rfl, t, rfl, ht⟩
        exact ⟨t, rfl, ht⟩
      . rintro ⟨t, heq, ht⟩
        rw [List.cons_append, List.cons.injEq] at heq
        exact ⟨heq.1.symm, t, heq.2, ht⟩

theorem matchItems_star (items : List Item) (s : Str)
    : matchItems (.star :: items) s ↔ ∃ u t, s = u ++ t ∧ matchItems items t := by
  rw [matchItems, List.any_eq_true]
  constructor
  . rintro ⟨t, ht, hitems⟩
    rcases (List.mem_tails t s).mp ht with ⟨u, rfl⟩
    exact ⟨u, t, rfl, hitems⟩
  . rintro ⟨u, t, rfl, hitems⟩
    exact ⟨t, (List.mem_tails t (u ++ t)).mpr (List.suffix_append u t), hitems⟩

theorem matchItems_nil (s : Str) : matchItems [] s ↔ s = [] := by
  simp [matchItems]

end Glob
