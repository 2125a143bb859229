import CryptoValid.Lib.PythonLines
import CryptoValid.Verifier.Extend

/-!
This module contains how a ledger without errors looks to readers that open it as text: they find the
same entries in it, or they fail.
-/

namespace CryptoValid
namespace Verifier

theorem parseLines_eq_iff (lines : List Str) (entries : List Entry)
    : parseLines lines = (entries, []) ↔
        List.Forall₂ (fun line e => loadsStrict line = .ok (.obj e)) lines entries := by
  have hgo : ∀ i, parseLines.go i lines = (entries, []) ↔
      List.Forall₂ (fun line e => loadsStrict line = .ok (.obj e)) lines entries := by
    induction lines generalizing entries with
    | nil => simp [parseLines.go, eq_comm]
    | cons line lines ih =>
      intro i
      rcases hrest : parseLines.go (i + 1) lines with ⟨rest, errors⟩
      rw [parseLines.go, hrest, List.forall₂_cons_left_iff]
      constructor
      . intro h
        cases hload : loadsStrict line with
        | error e => simp [hload] at h
        | ok v =>
          cases v with
          | obj e =>
            simp only [hload, Prod.mk.injEq] at h
            rcases h with ⟨rfl, rfl⟩
            exact ⟨e, rest, rfl, (ih rest (i + 1)).mp hrest, rfl⟩
          | _ => simp [hload] at h
      . rintro ⟨e, rest', he, hforall, rfl⟩
        rw [(ih rest' (i + 1)).mpr hforall] at hrest
        rcases Prod.mk.inj hrest with ⟨rfl, rfl⟩
        rw [he]
  exact hgo 0

/--
What the strict loader takes, the plain one takes too.
-/
theorem refines_hooks (interp : Python.Interp)
    : hooks.Refines (Python.plainHooks (interp.lifted maxJsonDepth)) where
  parseInt := by
    intro s text rest i _ h
    simp only [hooks, boundedInt] at h
    split at h
    . simp at h
    . simpa [Python.plainHooks, Python.Interp.lifted] using h
  parseFloat := by
    intro text x h
    simp [hooks] at h
  parseConstant := by
    intro text x h
    simp [hooks] at h
  objectPairs := by
    intro pairs ms h
    rcases rejectDup_eq_ok h with ⟨rfl, hnodup⟩
    simp [Python.plainHooks, Json.dictOfPairs_of_nodup hnodup]
  lone := rfl
  maxDepth := Nat.le_max_right _ _

/--
An interpreter that can follow everything that the strict loader takes, by the least limits that it
can be set to.
-/
structure Roomy (interp : Python.Interp) : Prop where
  decoder : maxJsonDepth ≤ interp.recursionLimit
  encoder : maxJsonDepth ≤ interp.encoderLimit
  digits : ∀ limit ∈ interp.maxStrDigits, 640 ≤ limit

theorem refines_hooks_of_roomy {interp : Python.Interp} (hroomy : Roomy interp)
    : hooks.Refines (Python.plainHooks interp) where
  parseInt := by
    intro s text rest i hscan h
    simp only [hooks, boundedInt] at h
    split at h
    . simp at h
    . next hle =>
      have hsmall : (Json.intOfText text).natAbs < 10 ^ 16 :=
        Nat.lt_of_le_of_lt (Nat.not_lt.mp hle) (by decide)
      have hlength := Json.length_filter_isDigit_le hscan (by decide) hsmall
      have hdigits : ¬interp.maxStrDigits.any fun limit =>
          limit < (text.filter Json.isDigit).length := by
        rw [Option.any_eq_true]
        rintro ⟨limit, hlimit, hlt⟩
        have := hroomy.digits limit hlimit
        have hlt := of_decide_eq_true hlt
        omega
      simp only [Python.plainHooks, if_neg hdigits, Except.ok.inj h]
  parseFloat := by
    intro text x h
    simp [hooks] at h
  parseConstant := by
    intro text x h
    simp [hooks] at h
  objectPairs := (refines_hooks interp).objectPairs
  lone := rfl
  maxDepth := hroomy.decoder

theorem loads_of_loadsStrict {line : Str} {v : Json} (h : loadsStrict line = .ok v)
    : Str.Scalar line ∧ Json.loads hooks line = .ok v := by
  simp only [loadsStrict] at h
  split at h
  . simp at h
  split at h
  . simp at h
  . next hraw =>
    split at h
    . simp at h
    . refine ⟨?_, h⟩
      intro c hc
      simp only [List.any_eq_true, not_exists, not_and, Bool.not_eq_true] at hraw
      exact hraw c hc

/-!
### Pieces
-/

/--
The pieces that a line comes in when it is read as text.
-/
def pieces (line : Str) : List Str := Lines.split 0x0a (Python.universalNewlines line)

/--
A text of blanks is no value.
-/
theorem loads_blank {ε : Type} {H : Json.Hooks ε} {s : Str} {v : Json}
    (hs : s.all Python.isSpace = true) : Json.loads H s ≠ .ok v := by
  intro h
  rcases hskip : Json.skipSpace s with _ | ⟨c, t⟩
  . rcases Except.bind_eq_ok.mp h with ⟨⟨w, rest⟩, hw, _⟩
    rw [hskip, Json.scanValue_nil] at hw
    simp at hw
  . have hhead := Python.isValueHead_of_loads h hskip
    have hmem : c ∈ s := by
      rcases List.dropWhile_suffix Json.isSpace (l := s) with ⟨w, hw⟩
      rw [← Json.skipSpace, hskip] at hw
      rw [← hw]
      simp
    have hspace := List.all_eq_true.mp hs c hmem
    rw [Python.isSpace_of_isValueHead hhead] at hspace
    simp at hspace

theorem isSpace_of_json {c : CodePoint} (h : Json.isSpace c = true) : Python.isSpace c = true := by
  simp only [Json.isSpace, Bool.or_eq_true, decide_eq_true_eq] at h
  rcases h with ((rfl | rfl) | rfl) | rfl <;> decide

theorem isBlankLine_of_json {s : Str} (h : s.all Json.isSpace = true)
    : Python.isBlankLine s = true := by
  rw [List.all_eq_true] at h
  exact List.all_eq_true.mpr fun c hc => isSpace_of_json (h c hc)

/--
A line that is blank comes in blank pieces.
-/
theorem isBlankLine_of_mem_pieces {line : Str} (h : isBlank line = true)
    : ∀ p ∈ pieces line, Python.isBlankLine p = true := by
  intro p hp
  have hun := Python.isSpace_universalNewlines (isBlank_eq line ▸ h)
  rw [← Lines.flatten_split 0x0a (Python.universalNewlines line), List.all_flatten] at hun
  exact isBlankLine_of_json (List.all_eq_true.mp hun p hp)

theorem flatten_pieces (line : Str) : (pieces line).flatten = Python.universalNewlines line :=
  Lines.flatten_split 0x0a _

/--
Line ends do not change how a line is loaded.
-/
theorem loads_universalNewlines {ε : Type} {H : Json.Hooks ε} (hH : hooks.Refines H) {line : Str}
    {v : Json} (h : loadsStrict line = .ok v)
    : Json.loads H (Python.universalNewlines line) = .ok v := by
  rcases Python.simulates_universalNewlines.loads hH rfl (loads_of_loadsStrict h).2 with
    ⟨rest, _, rfl, hnil, hscan⟩
  refine Json.loads_of_scanValue hscan ?_
  rw [Json.skipSpace_eq_nil] at hnil ⊢
  exact Python.isSpace_universalNewlines hnil

theorem all_flatten {α : Type} {p : α → Bool} {xss : List (List α)}
    : xss.flatten.all p = true ↔ ∀ xs ∈ xss, xs.all p = true := by
  rw [List.all_flatten, List.all_eq_true]

/--
The first piece of an entry that is not blank is the whole entry, if it is a value.
-/
theorem pieces_of_loadsStrict (interp : Python.Interp) {line : Str} {v : Json}
    (h : loadsStrict line = .ok v)
    : ∃ blanks p more, pieces line = blanks ++ p :: more ∧
        blanks.flatten.all Json.isSpace = true ∧ Python.isBlankLine p = false ∧
        ∀ v', Python.loads interp p = .ok v' → v' = v ∧ more.flatten.all Json.isSpace = true := by
  have hwhole := loads_universalNewlines (refines_hooks interp) h
  have htake := List.takeWhile_append_dropWhile (p := Python.isBlankLine) (l := pieces line)
  have hblanks : ((pieces line).takeWhile Python.isBlankLine).flatten.all Python.isSpace = true :=
    all_flatten.mpr fun q hq => List.mem_takeWhile_imp (p := Python.isBlankLine) hq
  cases hdrop : (pieces line).dropWhile Python.isBlankLine with
  | nil =>
    refine absurd hwhole (loads_blank ?_)
    rw [hdrop, List.append_nil] at htake
    rw [← flatten_pieces, ← htake]
    exact hblanks
  | cons p more =>
    rw [hdrop] at htake
    have hp : Python.isBlankLine p = false := by
      have hhead := List.head?_dropWhile_not Python.isBlankLine (pieces line)
      rw [hdrop] at hhead
      simpa using hhead
    have hsplit : Python.universalNewlines line =
        ((pieces line).takeWhile Python.isBlankLine).flatten ++ (p ++ more.flatten) := by
      rw [← flatten_pieces]
      nth_rewrite 1 [← htake]
      rw [List.flatten_append, List.flatten_cons]
    refine ⟨_, p, more, htake.symm, ?_, hp, ?_⟩
    . rw [hsplit] at hwhole
      exact Python.all_isSpace_of_loads hwhole hblanks
    . intro v' hv'
      have hlast : more.flatten = [] ∨ p.getLast? = some 0x0a := by
        rcases Lines.split_eq_append 0x0a (Python.universalNewlines line) with
          ⟨lines, last, heq, hlines, hlast⟩
        rw [← pieces, ← htake] at heq
        cases more with
        | nil => exact Or.inl rfl
        | cons q more =>
          right
          rcases hlast with rfl | ⟨torn, rfl, _, _⟩
          . rw [List.append_nil] at heq
            exact hlines p (heq ▸ by simp)
          . have hfront : (pieces line).takeWhile Python.isBlankLine ++ p :: (q :: more).dropLast =
                lines := by
              have hdropLast := congrArg List.dropLast heq
              rw [List.dropLast_concat, List.dropLast_append_of_ne_nil (by simp)] at hdropLast
              simpa using hdropLast
            exact hlines p (hfront ▸ by simp)
      exact Python.loads_piece (refines_hooks interp) (loads_of_loadsStrict h).2 hsplit hblanks hv'
        hlast

/-!
### Carriage returns
-/

/--
A carriage return with something on both sides that is not blank.
-/
def InnerReturn (line : Str) : Prop :=
  ∃ a b, line = a ++ 0x0d :: b ∧ isBlank a = false ∧ isBlank b = false

/--
Text readers see two lines, and none of them is a value.
-/
theorem not_loads_of_innerReturn (interp : Python.Interp) {line : Str} {v : Json}
    (h : loadsStrict line = .ok v) (hline : (0x0a : CodePoint) ∉ line.dropLast)
    (hreturn : InnerReturn line)
    : ∃ p ∈ pieces line, Python.isBlankLine p = false ∧
        ∀ v', Python.loads interp p ≠ .ok v' := by
  rcases hreturn with ⟨a, b, rfl, ha, hb⟩
  rcases pieces_of_loadsStrict interp h with ⟨blanks, p, more, hpieces, hblanks, hp, hloads⟩
  refine ⟨p, by simp [hpieces], hp, fun v' hv' => ?_⟩
  rcases hloads v' hv' with ⟨-, hmore⟩
  have hhead : b.head? ≠ some 0x0a := by
    intro hhead
    match b with
    | [] => simp at hhead
    | [c] =>
      rw [List.head?_cons, Option.some.injEq] at hhead
      rw [hhead] at hb
      revert hb
      decide
    | c :: d :: b =>
      rw [List.head?_cons, Option.some.injEq] at hhead
      simp [hhead] at hline
  have hun : Python.universalNewlines (a ++ 0x0d :: b)
      = (Python.universalNewlines a ++ [0x0a]) ++ Python.universalNewlines b := by
    have heq : a ++ 0x0d :: b = (a ++ [0x0d]) ++ b := by simp
    rw [heq, Python.universalNewlines_append _ _ (Or.inr hhead),
      Python.universalNewlines_append _ _ (Or.inr (by decide))]
    rfl
  rw [pieces, hun, Lines.split_append_of_terminated _ _ _ (Or.inr (by simp))] at hpieces
  have hfront : ¬(Lines.split 0x0a (Python.universalNewlines a ++ [0x0a])).flatten.all
      Json.isSpace = true := by
    rw [Lines.flatten_split, List.all_append, Python.all_isSpace_universalNewlines, ← isBlank_eq,
      ha]
    simp
  have hback : ¬(Lines.split 0x0a (Python.universalNewlines b)).flatten.all
      Json.isSpace = true := by
    rw [Lines.flatten_split, Python.all_isSpace_universalNewlines, ← isBlank_eq, hb]
    simp
  rcases List.append_eq_append_iff.mp hpieces with ⟨c, hc, -⟩ | ⟨c, hc, hrest⟩
  . rw [hc, List.flatten_append, List.all_append, Bool.and_eq_true] at hblanks
    exact hfront hblanks.1
  . cases c with
    | nil =>
      rw [List.append_nil] at hc
      rw [hc] at hfront
      exact hfront hblanks
    | cons q c =>
      rw [List.cons_append, List.cons.injEq] at hrest
      rw [hrest.2, List.flatten_append, List.all_append, Bool.and_eq_true] at hmore
      exact hback hmore.2

/--
Without such a return the line is one line for text readers too, and blank ones.
-/
theorem pieces_of_not_innerReturn {interp : Python.Interp} (hroomy : Roomy interp) {line : Str}
    {v : Json} (h : loadsStrict line = .ok v) (hline : (0x0a : CodePoint) ∉ line.dropLast)
    (hreturn : ¬InnerReturn line)
    : ∃ p, (pieces line).filter (fun q => !Python.isBlankLine q) = [p] ∧
        Python.loads interp p = .ok v := by
  have hrefines := refines_hooks_of_roomy hroomy
  have hnot : line.all Json.isSpace = false := by
    by_contra hblank
    refine loads_blank ?_ (loads_of_loadsStrict h).2
    exact isBlankLine_of_json (by simpa using hblank)
  rcases Json.exists_core hnot with ⟨w, core, w', rfl, hw, hw', hne, hhead, hlast⟩
  have hcr : (0x0d : CodePoint) ∉ core := by
    intro hmem
    rcases List.append_of_mem hmem with ⟨c, d, rfl⟩
    refine hreturn ⟨w ++ c, d ++ w', by simp, ?_, ?_⟩
    . rw [isBlank_eq, List.all_append, hw, Bool.true_and]
      cases c with
      | nil => exact absurd (hhead 0x0d (by simp)) (by decide)
      | cons x c => simp [hhead x (by simp)]
    . rw [isBlank_eq, List.all_append, hw', Bool.and_true]
      rcases List.eq_nil_or_concat d with rfl | ⟨d, x, rfl⟩
      . exact absurd (hlast 0x0d (by simp)) (by decide)
      . have hx : Json.isSpace x = false := hlast x (by simp [List.getLast?_cons])
        simp [hx]
  have hlf : (0x0a : CodePoint) ∉ core := by
    intro hmem
    rcases List.append_of_mem hmem with ⟨c, d, rfl⟩
    rcases List.eq_nil_or_concat d with rfl | ⟨d, x, rfl⟩
    . exact absurd (hlast 0x0a (by simp)) (by decide)
    . refine hline ?_
      have heq : w ++ (c ++ 0x0a :: (d.concat x) ++ w')
          = (w ++ c ++ [0x0a]) ++ (d ++ x :: w') := by simp
      rw [heq, List.dropLast_append_of_ne_nil (by simp)]
      simp
  have hun : Python.universalNewlines (w ++ (core ++ w'))
      = Python.universalNewlines w ++ (core ++ Python.universalNewlines w') := by
    have hfirst : (core ++ w').head? ≠ some 0x0a := by
      rw [List.head?_append_of_ne_nil _ hne]
      intro heq
      exact absurd (hhead 0x0a heq) (by decide)
    have hfinal : core.getLast? ≠ some 0x0d := by
      intro heq
      exact absurd (hlast 0x0d heq) (by decide)
    rw [Python.universalNewlines_append _ _ (Or.inr hfirst),
      Python.universalNewlines_append _ _ (Or.inl hfinal),
      Python.universalNewlines_of_not_mem hcr]
  rw [← Python.all_isSpace_universalNewlines] at hw hw'
  rcases Lines.split_around 0x0a (Python.universalNewlines w) core
    (Python.universalNewlines w') hne hlf with ⟨before, a, b, after, hsplit, hu, hv, hend⟩
  rw [hu, List.all_append, Bool.and_eq_true] at hw
  rw [hv, List.all_append, Bool.and_eq_true] at hw'
  have hwhole := loads_universalNewlines hrefines h
  rw [hun, hu, hv, List.append_assoc] at hwhole
  have hloads : Python.loads interp (a ++ (core ++ b)) = .ok v := by
    have hrest := Json.loads_of_blanks_append hw.1 hwhole
    have heq : a ++ (core ++ (b ++ after.flatten)) = (a ++ (core ++ b)) ++ after.flatten := by simp
    rw [heq] at hrest
    rcases hend with rfl | hterminated
    . rw [List.flatten_nil, List.append_nil] at hrest
      exact hrest
    . rcases List.getLast?_eq_some_iff.mp hterminated with ⟨b, rfl⟩
      have heq : a ++ (core ++ (b ++ [0x0a])) ++ after.flatten
          = (a ++ (core ++ b)) ++ 0x0a :: after.flatten := by simp
      rw [heq] at hrest
      have hshort := Json.loads_of_append_layout (by decide) hw'.2 hrest
      have hlong := @Json.loads_append_blanks _ _ _ _ [0x0a] (by decide) hshort
      rw [List.append_assoc, List.append_assoc] at hlong
      exact hlong
  refine ⟨a ++ (core ++ b), ?_, hloads⟩
  have hdropped : ∀ lines : List Str, lines.flatten.all Json.isSpace = true →
      lines.filter (fun q => !Python.isBlankLine q) = [] := by
    intro lines hlines
    rw [List.filter_eq_nil_iff]
    intro q hq
    simp [isBlankLine_of_json (all_flatten.mp hlines q hq)]
  have hkept : Python.isBlankLine (a ++ (core ++ b)) = false := by
    rw [Bool.eq_false_iff]
    exact fun hblank => loads_blank hblank hloads
  rw [pieces, hun, hsplit, List.filter_append, List.filter_cons, hdropped _ hw.1,
    hdropped _ hw'.2, hkept]
  rfl

end Verifier
end CryptoValid
