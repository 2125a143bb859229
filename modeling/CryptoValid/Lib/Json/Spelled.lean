import CryptoValid.Lib.Json.Printed
import CryptoValid.Lib.Json.Simulation
import Mathlib.Data.List.DropRight

/-!
This module contains the proof that the two linear scans are exact: they find out what a parser would,
whatever code units the text is spelled in.
-/

namespace Json

/--
Code points below 0x80 are their own units, the units of the others are not below it.
-/
structure Spelling (w : CodePoint → Str) : Prop where
  ascii : ∀ {c}, c.val < 0x80 → w c = [c]
  wide : ∀ {c}, 0x80 ≤ c.val → w c ≠ [] ∧ ∀ d ∈ w c, 0x80 ≤ d.val

def spell (w : CodePoint → Str) (s : Str) : Str := s.flatMap w

theorem Spelling.self : Spelling fun c => [c] where
  ascii _ := rfl
  wide hc := ⟨List.cons_ne_nil _ _, List.forall_mem_singleton.mpr hc⟩

theorem spell_self (s : Str) : spell (fun c => [c]) s = s := by
  rw [spell, List.flatMap_singleton']

theorem val_lt_of_unescape? {l c : CodePoint} (h : unescape? l = some c) : l.val < 0x80 := by
  by_contra hl
  have hne : ∀ d : CodePoint, d.val < 0x80 → l ≠ d := fun d hd heq => hl (heq ▸ hd)
  unfold unescape? at h
  rw [if_neg (hne _ (by decide)), if_neg (hne _ (by decide)), if_neg (hne _ (by decide)),
    if_neg (hne _ (by decide)), if_neg (hne _ (by decide)), if_neg (hne _ (by decide)),
    if_neg (hne _ (by decide)), if_neg (hne _ (by decide))] at h
  cases h

section

variable {w : CodePoint → Str} (hw : Spelling w)

include hw

theorem spell_cons {c : CodePoint} (hc : c.val < 0x80) (s : Str)
    : spell w (c :: s) = c :: spell w s := by
  rw [spell, List.flatMap_cons, hw.ascii hc]
  rfl

theorem spell_append {word : Str} (hword : ∀ c ∈ word, c.val < 0x80) (s : Str)
    : spell w (word ++ s) = word ++ spell w s := by
  induction word with
  | nil => rfl
  | cons c word ih =>
    rw [List.forall_mem_cons] at hword
    rw [List.cons_append, spell_cons hw hword.1, ih hword.2, List.cons_append]

/--
What holds of a character and of everything that is no ASCII holds of its units.
-/
theorem forall_units {p : CodePoint → Prop} (hwide : ∀ d, 0x80 ≤ d.val → p d) {c : CodePoint}
    (hc : p c) : ∀ d ∈ w c, p d := by
  by_cases hascii : c.val < 0x80
  . rw [hw.ascii hascii]
    exact List.forall_mem_singleton.mpr hc
  . exact fun d hd => hwide d ((hw.wide (Nat.le_of_not_lt hascii)).2 d hd)

end

theorem ne_of_wide {c d : CodePoint} (hc : c.val < 0x80) (hd : 0x80 ≤ d.val) : d ≠ c := by
  rintro rfl
  omega

/-!
### Blanks, words and strings
-/

theorem skipSpace_prefix (s : Str) : ∃ blanks, s = blanks ++ skipSpace s ∧ ∀ c ∈ blanks, isSpace c = true :=
  ⟨s.takeWhile isSpace, List.takeWhile_append_dropWhile.symm, fun _ hc => List.mem_takeWhile_imp hc⟩

theorem skipSpace_skipSpace (s : Str) : skipSpace (skipSpace s) = skipSpace s :=
  List.dropWhile_idempotent isSpace s

theorem val_lt_of_isSpace {c : CodePoint} (h : isSpace c = true) : c.val < 0x80 := by
  simp only [isSpace, Bool.or_eq_true, decide_eq_true_eq] at h
  rcases h with ((rfl | rfl) | rfl) | rfl <;> decide

/--
The characters of numbers and of the words of JSON.
-/
def isWordChar (c : CodePoint) : Bool :=
  isDigit c || (0x41 ≤ c.val && c.val ≤ 0x5a) || (0x61 ≤ c.val && c.val ≤ 0x7a) || c = 0x2b ||
    c = 0x2d || c = 0x2e

theorem val_lt_of_isWordChar {c : CodePoint} (h : isWordChar c = true) : c.val < 0x80 := by
  simp only [isWordChar, isDigit, Bool.or_eq_true, Bool.and_eq_true, decide_eq_true_eq] at h
  rcases h with ((((h | h) | h) | rfl) | rfl) | rfl
  . omega
  . omega
  . omega
  . decide
  . decide
  . decide

theorem ne_of_isWordChar {c d : CodePoint} (h : isWordChar c = true) (hd : isWordChar d = false)
    : c ≠ d := by
  rintro rfl
  rw [h] at hd
  cases hd

theorem isWordChar_of_isDigit {c : CodePoint} (h : isDigit c = true) : isWordChar c = true := by
  rw [isWordChar, h]
  rfl

theorem isWordChar_of_digit? {c : CodePoint} {d : Nat} (h : Hex.digit? c = some d)
    : isWordChar c = true := by
  simp only [isWordChar, isDigit, Bool.or_eq_true, Bool.and_eq_true, decide_eq_true_eq]
  unfold Hex.digit? at h
  repeat' split at h
  all_goals
    first
      | omega
      | cases h

theorem isWordChar_of_hex4? {h1 h2 h3 h4 n : CodePoint} (h : hex4? h1 h2 h3 h4 = some n)
    : ∀ c ∈ [h1, h2, h3, h4], isWordChar c = true := by
  simp only [hex4?, Option.bind_eq_bind, Option.bind_eq_some_iff] at h
  rcases h with ⟨_, ha, _, hb, _, hc, _, hd, _⟩
  simp only [List.forall_mem_cons]
  exact ⟨isWordChar_of_digit? ha, isWordChar_of_digit? hb, isWordChar_of_digit? hc,
    isWordChar_of_digit? hd, fun c hc => absurd hc List.not_mem_nil⟩

theorem isWordChar_of_number {s text rest : Str} {isFloat : Bool}
    (h : scanNumber? s = some (text, isFloat, rest)) : ∀ c ∈ text, isWordChar c = true := by
  rcases scanNumber?_eq_some h with ⟨sign, digits, frac, exp, _, rfl, hsign, hdigits, hfrac, hexp, _⟩
  have hall : ∀ ds : Str, Digits ds → ∀ c ∈ ds, isWordChar c = true :=
    fun ds hds c hc => isWordChar_of_isDigit (hds.2 c hc)
  simp only [List.forall_mem_append]
  refine ⟨⟨⟨?_, hall _ hdigits⟩, ?_⟩, ?_⟩
  . rcases hsign with rfl | rfl <;> exact List.all_eq_true.mp (by decide)
  . rcases hfrac with rfl | ⟨ds, rfl, hds⟩
    . exact fun c hc => absurd hc List.not_mem_nil
    . exact List.forall_mem_cons.mpr ⟨by decide, hall ds hds⟩
  . rcases hexp with rfl | ⟨e, sign, ds, rfl, he, hsign, hds⟩
    . exact fun c hc => absurd hc List.not_mem_nil
    . refine List.forall_mem_cons.mpr ⟨?_, List.forall_mem_append.mpr ⟨?_, hall ds hds⟩⟩
      . rcases he with rfl | rfl <;> decide
      . rcases hsign with rfl | rfl | rfl <;> exact List.all_eq_true.mp (by decide)

/--
Neither a string nor an array or an object.
-/
def IsAtom : Json → Prop
  | .str _ => False
  | .arr _ => False
  | .obj _ => False
  | _ => True

theorem scanAtom_eq_ok {ε : Type} {H : Hooks ε} {s rest : Str} {v : Json}
    (h : scanAtom H s = .ok (v, rest))
    : IsAtom v ∧ ∃ word, s = word ++ rest ∧ ∀ c ∈ word, isWordChar c = true := by
  have hconstant : ∀ word tail : Str, (∀ c ∈ word, isWordChar c = true) →
      stripPrefix? word s = some tail →
      (do return (.float (← H.parseConstant word), tail) : Except ε (Json × Str)) = .ok (v, rest) →
      IsAtom v ∧ ∃ word, s = word ++ rest ∧ ∀ c ∈ word, isWordChar c = true := by
    intro word tail hword hstrip heq
    rcases Except.bind_eq_ok.mp heq with ⟨x, _, heq⟩
    rcases Prod.mk.inj (Except.pure_eq_ok.mp heq) with ⟨rfl, rfl⟩
    exact ⟨trivial, word, stripPrefix?_eq_some hstrip, hword⟩
  unfold scanAtom at h
  split at h
  . next tail hstrip =>
    rcases Prod.mk.inj (Except.ok.inj h) with ⟨rfl, rfl⟩
    exact ⟨trivial, _, stripPrefix?_eq_some hstrip, List.all_eq_true.mp (by decide)⟩
  split at h
  . next tail hstrip =>
    rcases Prod.mk.inj (Except.ok.inj h) with ⟨rfl, rfl⟩
    exact ⟨trivial, _, stripPrefix?_eq_some hstrip, List.all_eq_true.mp (by decide)⟩
  split at h
  . next tail hstrip =>
    rcases Prod.mk.inj (Except.ok.inj h) with ⟨rfl, rfl⟩
    exact ⟨trivial, _, stripPrefix?_eq_some hstrip, List.all_eq_true.mp (by decide)⟩
  split at h
  . next tail hstrip => exact hconstant _ _ (List.all_eq_true.mp (by decide)) hstrip h
  split at h
  . next tail hstrip => exact hconstant _ _ (List.all_eq_true.mp (by decide)) hstrip h
  split at h
  . next tail hstrip => exact hconstant _ _ (List.all_eq_true.mp (by decide)) hstrip h
  split at h
  . cases h
  . next text tail hnum =>
    rcases Except.bind_eq_ok.mp h with ⟨x, _, h⟩
    rcases Prod.mk.inj (Except.pure_eq_ok.mp h) with ⟨rfl, rfl⟩
    rcases scanNumber?_eq_some hnum with ⟨_, _, _, _, hs, _⟩
    exact ⟨trivial, text, hs, isWordChar_of_number hnum⟩
  . next text tail hnum =>
    rcases Except.bind_eq_ok.mp h with ⟨i, _, h⟩
    rcases Prod.mk.inj (Except.pure_eq_ok.mp h) with ⟨rfl, rfl⟩
    rcases scanNumber?_eq_some hnum with ⟨_, _, _, _, hs, _⟩
    exact ⟨trivial, text, hs, isWordChar_of_number hnum⟩

/--
A scan that takes no notice of what is in a string: `F` inside of it, after a backslash or not, and `G`
after it.
-/
structure Skips {β : Type} (F : Bool → Str → β) (G : Str → β) : Prop where
  quote : ∀ s, F false (0x22 :: s) = G s
  slash : ∀ s, F false (0x5c :: s) = F true s
  raw : ∀ {c}, c ≠ 0x22 → c ≠ 0x5c → ∀ s, F false (c :: s) = F false s
  escaped : ∀ c s, F true (c :: s) = F false s

theorem Skips.append {β : Type} {F : Bool → Str → β} {G : Str → β} (h : Skips F G) {word : Str}
    (hword : ∀ c ∈ word, c ≠ 0x22 ∧ c ≠ 0x5c) (s : Str) : F false (word ++ s) = F false s := by
  induction word with
  | nil => rfl
  | cons c word ih =>
    rw [List.forall_mem_cons] at hword
    rw [List.cons_append, h.raw hword.1.1 hword.1.2, ih hword.2]

theorem Skips.pieces {β : Type} {F : Bool → Str → β} {G : Str → β} (h : Skips F G)
    {w : CodePoint → Str} (hw : Spelling w) {s rest : Str} {ps : List Piece}
    (hps : scanPieces s = some (ps, rest)) : F false (spell w s) = G (spell w rest) := by
  fun_induction scanPieces s generalizing ps with
  | case1 => cases hps
  | case2 s =>
    rcases Prod.mk.inj (Option.some.inj hps) with ⟨rfl, rfl⟩
    rw [spell_cons hw (by decide), h.quote]
  | case3 => cases hps
  | case4 h1 h2 h3 h4 s n hn _ ih =>
    rcases cons_piece_eq_some hps with ⟨qs, hqs, rfl⟩
    have hhex := isWordChar_of_hex4? hn
    have hdigits : ∀ c ∈ [h1, h2, h3, h4], c ≠ 0x22 ∧ c ≠ 0x5c := fun c hc =>
      ⟨ne_of_isWordChar (hhex c hc) (by decide), ne_of_isWordChar (hhex c hc) (by decide)⟩
    have hspell := spell_append hw (fun c hc => val_lt_of_isWordChar (hhex c hc)) s
    rw [spell_cons hw (by decide), spell_cons hw (by decide), h.slash, h.escaped]
    exact (congrArg (F false) hspell).trans ((h.append hdigits (spell w s)).trans (ih hqs))
  | case5 => cases hps
  | case6 => cases hps
  | case7 l s hu c hc _ ih =>
    rcases cons_piece_eq_some hps with ⟨qs, hqs, rfl⟩
    rw [spell_cons hw (by decide), spell_cons hw (val_lt_of_unescape? hc), h.slash, h.escaped, ih hqs]
  | case8 => cases hps
  | case9 => cases hps
  | case10 c s hquote hslash hctl ih =>
    rcases cons_piece_eq_some hps with ⟨qs, hqs, rfl⟩
    have hunits := forall_units hw (p := fun d => d ≠ 0x22 ∧ d ≠ 0x5c)
      (fun d hd => ⟨ne_of_wide (by decide) hd, ne_of_wide (by decide) hd⟩) ⟨hquote, hslash⟩
    rw [spell, List.flatMap_cons]
    exact (h.append hunits (spell w s)).trans (ih hqs)

theorem Skips.string {β : Type} {F : Bool → Str → β} {G : Str → β} (h : Skips F G)
    {w : CodePoint → Str} (hw : Spelling w) {lone : CodePoint → CodePoint} {s t rest : Str}
    (ht : scanString lone s = some (t, rest)) : F false (spell w s) = G (spell w rest) := by
  rcases Option.map_eq_some_iff.mp ht with ⟨⟨ps, rest'⟩, hps, heq⟩
  rcases Prod.mk.inj heq with ⟨_, rfl⟩
  exact h.pieces hw hps

/-!
### Nesting
-/

/--
Every member is kept, and a lone surrogate stays what it is.
-/
structure Hooks.Faithful {ε : Type} (H : Hooks ε) : Prop where
  objectPairs : ∀ {ps ms}, H.objectPairs ps = .ok ms → ms = ps
  lone : ∀ c, H.lone c = c

namespace Nesting

theorem skips {n : Nesting} (hn : n.Outside)
    : Skips (fun esc s => List.foldl step { n with inStr := true, esc := esc } s)
        (fun s => List.foldl step n s) where
  quote s := by
    rcases n with ⟨inStr, esc, depth, max⟩
    rcases hn with ⟨hstr, hesc, _⟩
    dsimp only at hstr hesc
    subst hstr hesc
    rfl
  slash s := rfl
  raw hquote hslash s := by
    rw [List.foldl_cons, step_inStr rfl rfl hquote hslash]
  escaped c s := rfl

theorem foldl_step_skipSpace {w : CodePoint → Str} (hw : Spelling w) {n : Nesting} (hn : n.Outside)
    (s : Str) : List.foldl step n (spell w (skipSpace s)) = List.foldl step n (spell w s) := by
  rcases skipSpace_prefix s with ⟨blanks, hs, hblanks⟩
  conv_rhs => rw [hs]
  rw [spell_append hw (fun c hc => val_lt_of_isSpace (hblanks c hc)), List.foldl_append,
    foldl_step_blanks hn (List.all_eq_true.mpr hblanks)]

theorem isPlain_of_isWordChar {c : CodePoint} (h : isWordChar c = true) : isPlain c = true := by
  have hne : ∀ d, isWordChar d = false → c ≠ d := fun d hd => ne_of_isWordChar h hd
  simp only [isPlain, Bool.and_eq_true, decide_eq_true_eq]
  exact ⟨⟨⟨⟨hne _ (by decide), hne _ (by decide)⟩, hne _ (by decide)⟩, hne _ (by decide)⟩,
    hne _ (by decide)⟩

end Nesting

/--
An atom has neither names nor text.
-/
theorem IsAtom.text {v : Json} (h : IsAtom v) : All ScalarText v ∧ All UniqueKeys v := by
  cases v with
  | str s => exact absurd h id
  | arr xs => exact absurd h id
  | obj ms => exact absurd h id
  | _ => exact ⟨trivial, trivial⟩

theorem IsAtom.depth {v : Json} (h : IsAtom v) : v.depth = 0 := by
  cases v with
  | str s => exact absurd h id
  | arr xs => exact absurd h id
  | obj ms => exact absurd h id
  | _ => rfl

/--
What the scan of a part leaves behind. Inside of brackets, `d` is how deep the elements before it were.
-/
def Part.Nests (s rest : Str) : Part → Prop
  | .value v => ∀ n : Nesting, n.Outside →
    List.foldl Nesting.step n s = List.foldl Nesting.step (n.deepen v.depth) rest
  | .elems xs => ∀ (n : Nesting) (d : Nat), n.Outside →
    List.foldl Nesting.step (n.enter.deepen d) s =
      List.foldl Nesting.step (n.deepen (max d (depthElems xs) + 1)) rest
  | .members ms => ∀ (n : Nesting) (d : Nat), n.Outside →
    List.foldl Nesting.step (n.enter.deepen d) s =
      List.foldl Nesting.step (n.deepen (max d (depthMembers ms) + 1)) rest

section

variable {ε : Type} {H : Hooks ε} (hH : H.Faithful) {w : CodePoint → Str} (hw : Spelling w)

include hH hw

theorem Scans.nests {k : Nat} {s rest : Str} {part : Part} (h : Scans H k s part rest)
    : part.Nests (spell w s) (spell w rest) := by
  -- a bracket, and what it was before
  have hopen : ∀ {c : CodePoint} {t : Str} {n : Nesting}, n.Outside → c = 0x5b ∨ c = 0x7b →
      List.foldl Nesting.step n (spell w (c :: t)) =
        List.foldl Nesting.step (n.enter.deepen 0) (spell w (skipSpace t)) := by
    intro c t n hn hc
    have hascii : c.val < 0x80 := by
      rcases hc with rfl | rfl <;> decide
    rw [spell_cons hw hascii, List.foldl_cons, Nesting.step_open hn hc,
      Nesting.deepen_zero hn.enter, Nesting.foldl_step_skipSpace hw hn.enter]
  have hclose : ∀ {c : CodePoint} {t u : Str} {n : Nesting} (d : Nat), n.Outside →
      skipSpace t = c :: u → c = 0x5d ∨ c = 0x7d →
      List.foldl Nesting.step (n.enter.deepen d) (spell w t) =
        List.foldl Nesting.step (n.deepen (d + 1)) (spell w u) := by
    intro c t u n d hn ht hc
    have hascii : c.val < 0x80 := by
      rcases hc with rfl | rfl <;> decide
    rw [← Nesting.foldl_step_skipSpace hw (hn.enter.deepen d), ht, spell_cons hw hascii,
      List.foldl_cons, Nesting.step_close hn d hc]
  have hplain : ∀ {c : CodePoint} {t u : Str} {n : Nesting}, n.Outside →
      skipSpace t = c :: u → c = 0x2c ∨ c = 0x3a →
      List.foldl Nesting.step n (spell w t) =
        List.foldl Nesting.step n (spell w (skipSpace u)) := by
    intro c t u n hn ht hc
    have hascii : c.val < 0x80 ∧ Nesting.isPlain c = true := by
      rcases hc with rfl | rfl <;> decide
    rw [← Nesting.foldl_step_skipSpace hw hn, ht, spell_cons hw hascii.1, List.foldl_cons,
      Nesting.step_plain hn hascii.2, Nesting.foldl_step_skipSpace hw hn]
  have hstring : ∀ {t k u : Str} {n : Nesting}, n.Outside →
      scanString H.lone t = some (k, u) →
      List.foldl Nesting.step n (spell w (0x22 :: t)) =
        List.foldl Nesting.step n (spell w u) := by
    intro t k u n hn ht
    rw [spell_cons hw (by decide), List.foldl_cons]
    have hquote : n.step 0x22 = { n with inStr := true, esc := false } := by
      rcases n with ⟨inStr, esc, depth, max⟩
      rcases hn with ⟨hstr, hesc, _⟩
      dsimp only at hstr hesc
      subst hstr hesc
      rfl
    rw [hquote]
    exact (Nesting.skips hn).string hw ht
  induction h with
  | str h =>
    intro n hn
    have hdepth : ∀ t, depth (.str t) = 0 := fun t => by simp [depth]
    rw [hstring hn h, hdepth, Nesting.deepen_zero hn]
  | atom h =>
    intro n hn
    rcases scanAtom_eq_ok h with ⟨hatom, word, rfl, hword⟩
    have hplain := List.all_eq_true.mpr fun c hc => Nesting.isPlain_of_isWordChar (hword c hc)
    rw [spell_append hw (fun c hc => val_lt_of_isWordChar (hword c hc)), List.foldl_append,
      Nesting.foldl_step_plain hn word hplain, hatom.depth, Nesting.deepen_zero hn]
  | nilArr h =>
    intro n hn
    have hskip := (skipSpace_skipSpace _).trans h
    rw [hopen hn (Or.inl rfl), hclose 0 hn hskip (Or.inl rfl)]
    rfl
  | arr _ ih =>
    intro n hn
    rw [hopen hn (Or.inl rfl), ih n 0 hn, depth, Nat.zero_max]
  | nilObj h hms =>
    intro n hn
    have hskip := (skipSpace_skipSpace _).trans h
    rw [hopen hn (Or.inr rfl), hclose 0 hn hskip (Or.inr rfl), hH.objectPairs hms]
    rfl
  | obj _ hms ih =>
    intro n hn
    rw [hopen hn (Or.inr rfl), ih n 0 hn, hH.objectPairs hms, depth, Nat.zero_max]
  | lastElem _ ht ih =>
    intro n d hn
    rw [ih _ (hn.enter.deepen d), Nesting.deepen_deepen, hclose _ hn ht (Or.inl rfl), depthElems,
      depthElems, Nat.max_zero]
  | elem _ ht _ ih ihs =>
    intro n d hn
    rw [ih _ (hn.enter.deepen d), Nesting.deepen_deepen, hplain (hn.enter.deepen _) ht (Or.inl rfl),
      ihs n _ hn, depthElems, Nat.max_assoc]
  | lastMember hk ht _ hw' ih =>
    intro n d hn
    have hout := hn.enter.deepen d
    rw [hstring hout hk, hplain hout ht (Or.inr rfl), ih _ hout, Nesting.deepen_deepen,
      hclose _ hn hw' (Or.inr rfl), depthMembers, depthMembers, Nat.max_zero]
  | member hk ht _ hw' _ ih ihs =>
    intro n d hn
    have hout := hn.enter.deepen d
    rw [hstring hout hk, hplain hout ht (Or.inr rfl), ih _ hout, Nesting.deepen_deepen,
      hplain (hn.enter.deepen _) hw' (Or.inl rfl), ihs n _ hn, depthMembers, Nat.max_assoc]

/--
The scan finds out how deep the value is.
-/
theorem nestingDepth_spell {s : Str} {v : Json} (h : loads H s = .ok v)
    : nestingDepth (spell w s) = v.depth := by
  have hstart : Nesting.start.Outside := ⟨rfl, rfl, Int.le_refl 0⟩
  rcases scans_of_loads h with ⟨rest, hscans, hrest⟩
  have hnests := hscans.nests hH hw Nesting.start hstart
  rw [nestingDepth, ← Nesting.foldl_step_skipSpace hw hstart, hnests,
    ← Nesting.foldl_step_skipSpace hw (hstart.deepen _), hrest]
  exact (Int.max_eq_right (by simp [Nesting.start])).trans (by simp [Nesting.start])

end

/-!
### Scans that look for something
-/

/--
Something that a part is made of.
-/
def Part.Has (q : Str → Prop) (p : Json → Prop) : Part → Prop
  | .value v => p v
  | .elems xs => ∃ x ∈ xs, p x
  | .members ms => ∃ m ∈ ms, q m.1 ∨ p m.2

theorem breaks_of_skipSpace {c : CodePoint} {s t : Str} (h : skipSpace s = c :: t)
    (hc : isBreak c = true) : Breaks s := by
  cases s with
  | nil => exact breaks_nil
  | cons d s =>
    rw [breaks_cons]
    cases hspace : isSpace d with
    | true => exact isBreak_of_isSpace hspace
    | false =>
      rw [skipSpace_cons d s hspace] at h
      rwa [(List.cons.inj h).1]

theorem breaks_of_skipSpace_eq_nil {s : Str} (h : skipSpace s = []) : Breaks s := by
  cases s with
  | nil => exact breaks_nil
  | cons d s =>
    rw [breaks_cons]
    cases hspace : isSpace d with
    | true => exact isBreak_of_isSpace hspace
    | false =>
      rw [skipSpace_cons d s hspace] at h
      cases h

/--
What it takes that `F` finds out whether `q` holds of a string or `p` of a value, in texts with `C`.
-/
structure Detects {ε : Type} (H : Hooks ε) (C F q : Str → Prop) (p : Json → Prop) : Prop where
  skip : ∀ c s, c ≠ 0x5c → C (c :: s) → C s
  pass : ∀ {c}, isBreak c = true → c ≠ 0x22 → ∀ s, F (c :: s) ↔ F s
  string : ∀ {s t rest}, scanString H.lone s = some (t, rest) → C s →
    C rest ∧ (F (0x22 :: s) ↔ q t ∨ F rest)
  atom : ∀ {s v rest}, scanAtom H s = .ok (v, rest) → Breaks rest → (F s ↔ p v ∨ F rest)
  str : ∀ t, p (.str t) ↔ q t
  arr : ∀ xs, p (.arr xs) ↔ ∃ x ∈ xs, p x
  obj : ∀ {ps ms}, H.objectPairs ps = .ok ms → (p (.obj ms) ↔ ∃ m ∈ ps, q m.1 ∨ p m.2)

section

variable {ε : Type} {H : Hooks ε} {C F q : Str → Prop} {p : Json → Prop} (hF : Detects H C F q p)

include hF

theorem Detects.skipSpace (s : Str) : F (skipSpace s) ↔ F s := by
  induction s with
  | nil => exact Iff.rfl
  | cons c s ih =>
    cases hspace : isSpace c with
    | true =>
      have hskip : Json.skipSpace (c :: s) = Json.skipSpace s := List.dropWhile_cons_of_pos hspace
      rw [hskip, ih, hF.pass (isBreak_of_isSpace hspace) (by rintro rfl; revert hspace; decide)]
    | false => rw [skipSpace_cons c s hspace]

/--
What is found in a text is in its first part or after it.
-/
theorem Detects.scans {k : Nat} {s rest : Str} {part : Part} (h : Scans H k s part rest) (hs : C s)
    (hrest : ∀ v, part = .value v → Breaks rest)
    : C rest ∧ (F s ↔ part.Has q p ∨ F rest) := by
  -- a character of JSON, and the blanks before it or after it
  have hpass : ∀ {c : CodePoint} {t : Str}, isBreak c = true → c ≠ 0x22 ∧ c ≠ 0x5c → C (c :: t) →
      C (Json.skipSpace t) ∧ (F (c :: t) ↔ F (Json.skipSpace t)) := by
    intro c t hbreak hc ht
    refine ⟨skip_skipSpace hF.skip _ (hF.skip c t hc.2 ht), ?_⟩
    rw [hF.pass hbreak hc.1, hF.skipSpace]
  have hnext : ∀ {c : CodePoint} {t u : Str}, Json.skipSpace t = c :: u → isBreak c = true →
      c ≠ 0x22 ∧ c ≠ 0x5c → C t → C u ∧ (F t ↔ F u) := by
    intro c t u heq hbreak hc ht
    have hskip := skip_skipSpace hF.skip _ ht
    rw [heq] at hskip
    refine ⟨hF.skip c u hc.2 hskip, ?_⟩
    rw [← hF.skipSpace t, heq, hF.pass hbreak hc.1]
  induction h with
  | str h =>
    rcases hF.string h (hF.skip _ _ (by decide) hs) with ⟨hc, hiff⟩
    exact ⟨hc, hiff.trans (or_congr_left (hF.str _).symm)⟩
  | atom h =>
    rcases scanAtom_eq_ok h with ⟨_, word, rfl, hword⟩
    have hslash : (0x5c : CodePoint) ∉ word := fun hmem => absurd (hword _ hmem) (by decide)
    exact ⟨skip_append hF.skip _ _ hslash hs, hF.atom h (hrest _ rfl)⟩
  | nilArr h =>
    rcases hpass (by decide) (by decide) hs with ⟨hc, hopen⟩
    rcases hnext ((skipSpace_skipSpace _).trans h) (by decide) (by decide) hc with ⟨hc, hclose⟩
    refine ⟨hc, hopen.trans (hclose.trans (or_iff_right fun hp => ?_).symm)⟩
    rcases (hF.arr []).mp hp with ⟨_, hx, _⟩
    cases hx
  | arr _ ih =>
    rcases hpass (by decide) (by decide) hs with ⟨hc, hopen⟩
    rcases ih hc (fun _ h => nomatch h) with ⟨hc, hiff⟩
    exact ⟨hc, hopen.trans (hiff.trans (or_congr_left (hF.arr _).symm))⟩
  | nilObj h hms =>
    rcases hpass (by decide) (by decide) hs with ⟨hc, hopen⟩
    rcases hnext ((skipSpace_skipSpace _).trans h) (by decide) (by decide) hc with ⟨hc, hclose⟩
    refine ⟨hc, hopen.trans (hclose.trans (or_iff_right fun hp => ?_).symm)⟩
    rcases (hF.obj hms).mp hp with ⟨_, hx, _⟩
    cases hx
  | obj _ hms ih =>
    rcases hpass (by decide) (by decide) hs with ⟨hc, hopen⟩
    rcases ih hc (fun _ h => nomatch h) with ⟨hc, hiff⟩
    exact ⟨hc, hopen.trans (hiff.trans (or_congr_left (hF.obj hms).symm))⟩
  | lastElem _ ht ih =>
    rcases ih hs (fun _ _ => breaks_of_skipSpace ht (by decide)) with ⟨hc, hiff⟩
    rcases hnext ht (by decide) (by decide) hc with ⟨hc, hclose⟩
    refine ⟨hc, hiff.trans (or_congr ?_ hclose)⟩
    simp [Part.Has]
  | elem _ ht _ ih ihs =>
    rcases ih hs (fun _ _ => breaks_of_skipSpace ht (by decide)) with ⟨hc, hiff⟩
    rcases hnext ht (by decide) (by decide) hc with ⟨hc, hcomma⟩
    rcases ihs (skip_skipSpace hF.skip _ hc) (fun _ h => nomatch h) with ⟨hc, hiff'⟩
    rw [hF.skipSpace] at hiff'
    refine ⟨hc, ?_⟩
    rw [hiff, hcomma, hiff', ← or_assoc]
    simp [Part.Has]
  | lastMember hk ht _ hw ih =>
    rcases hF.string hk (hF.skip _ _ (by decide) hs) with ⟨hc, hkey⟩
    rcases hnext ht (by decide) (by decide) hc with ⟨hc, hcolon⟩
    rcases ih (skip_skipSpace hF.skip _ hc) (fun _ _ => breaks_of_skipSpace hw (by decide)) with
      ⟨hc, hiff⟩
    rcases hnext hw (by decide) (by decide) hc with ⟨hc, hclose⟩
    rw [hF.skipSpace] at hiff
    refine ⟨hc, ?_⟩
    rw [hkey, hcolon, hiff, hclose, ← or_assoc]
    simp [Part.Has]
  | member hk ht _ hw _ ih ihs =>
    rcases hF.string hk (hF.skip _ _ (by decide) hs) with ⟨hc, hkey⟩
    rcases hnext ht (by decide) (by decide) hc with ⟨hc, hcolon⟩
    rcases ih (skip_skipSpace hF.skip _ hc) (fun _ _ => breaks_of_skipSpace hw (by decide)) with
      ⟨hc, hiff⟩
    rcases hnext hw (by decide) (by decide) hc with ⟨hc, hcomma⟩
    rcases ihs (skip_skipSpace hF.skip _ hc) (fun _ h => nomatch h) with ⟨hc, hiff'⟩
    rw [hF.skipSpace] at hiff hiff'
    refine ⟨hc, ?_⟩
    rw [hkey, hcolon, hiff, hcomma, hiff', ← or_assoc, ← or_assoc]
    simp [Part.Has, or_assoc]

/--
What is found in a whole text is in its value.
-/
theorem Detects.loads (hnil : ¬F []) {s : Str} {v : Json} (h : Json.loads H s = .ok v) (hs : C s)
    : F s ↔ p v := by
  rcases scans_of_loads h with ⟨rest, hscans, hrest⟩
  have hiff := (hF.scans hscans (skip_skipSpace hF.skip _ hs) fun _ _ =>
    breaks_of_skipSpace_eq_nil hrest).2
  rw [hF.skipSpace, ← hF.skipSpace rest, hrest] at hiff
  exact hiff.trans (or_iff_left hnil)

end

/-!
### Surrogate escapes
-/

/--
An escape is a character of its own but where it is the first half of a pair.
-/
theorem joinPieces_id_esc {n : CodePoint} {ps : List Piece}
    (h : isHigh n.val = true → ∀ m qs, ps = .esc m :: qs → isLow m.val = false)
    : joinPieces id (.esc n :: ps) = n :: joinPieces id ps := by
  match ps with
  | [] => simp [joinPieces]
  | .raw d :: ps => simp [joinPieces]
  | .esc d :: ps =>
    have hpair : ¬(n.isHighSurrogate && d.isLowSurrogate) = true := by
      rw [isHighSurrogate_eq, isLowSurrogate_eq, Bool.and_eq_true]
      rintro ⟨hhigh, hlow⟩
      rw [h hhigh d ps rfl] at hlow
      cases hlow
    rw [joinPieces, if_neg hpair]
    simp

section

variable {int16 : Str → Option Int} (hint16 : ReadsHex int16) {w : CodePoint → Str} (hw : Spelling w)

include hw

theorem hasLoneSurrogate_spell_append {word : Str} (hword : ∀ c ∈ word, c ≠ 0x5c) (s : Str)
    : hasLoneSurrogate int16 (spell w (word ++ s)) = hasLoneSurrogate int16 (spell w s) := by
  induction word with
  | nil => rfl
  | cons c word ih =>
    rw [List.forall_mem_cons] at hword
    have hunits := forall_units hw (fun d hd => ne_of_wide (c := 0x5c) (by decide) hd) hword.1
    rw [List.cons_append, spell, List.flatMap_cons,
      hasLoneSurrogate_append_of_not_mem fun hmem => hunits _ hmem rfl]
    exact ih hword.2

/--
The first two units after an escape are a backslash and a `u` only where another such escape is.
-/
theorem take_two_spell {s rest : Str} {ps : List Piece} (h : ScanPieces s ps rest)
    : (spell w s).take 2 = [0x5c, 0x75] ↔ ∃ m qs, ps = .esc m :: qs := by
  cases h with
  | quote s => simp [spell_cons hw (show (0x22 : CodePoint).val < 0x80 by decide)]
  | @raw c s _ ps hslash h =>
    simp only [List.cons.injEq, reduceCtorEq, false_and, exists_false, iff_false]
    have hunits := forall_units hw (fun d hd => ne_of_wide (c := 0x5c) (by decide) hd) hslash
    have hne : w c ≠ [] := by
      by_cases hascii : c.val < 0x80
      . rw [hw.ascii hascii]
        exact List.cons_ne_nil _ _
      . exact (hw.wide (Nat.le_of_not_lt hascii)).1
    rcases List.exists_cons_of_ne_nil hne with ⟨d, ds, hds⟩
    rw [spell, List.flatMap_cons, hds, List.cons_append, List.take_succ_cons]
    intro heq
    exact hunits d (by rw [hds]; exact List.mem_cons_self) (List.cons.inj heq).1
  | letter hu hc h =>
    rw [spell_cons hw (by decide), spell_cons hw (val_lt_of_unescape? hc)]
    simp [hu]
  | esc hn h =>
    rw [spell_cons hw (by decide), spell_cons hw (by decide)]
    simp

theorem spell_esc {h1 h2 h3 h4 n : CodePoint} (hn : hex4? h1 h2 h3 h4 = some n) (s : Str)
    : spell w (0x5c :: 0x75 :: h1 :: h2 :: h3 :: h4 :: s) =
        0x5c :: 0x75 :: h1 :: h2 :: h3 :: h4 :: spell w s := by
  have hhex := isWordChar_of_hex4? hn
  have hspell := spell_append hw (fun c hc => val_lt_of_isWordChar (hhex c hc)) s
  rw [spell_cons hw (by decide), spell_cons hw (by decide)]
  exact congrArg (fun t => 0x5c :: 0x75 :: t) hspell

include hint16

/--
The induction is on the length, since a pair of escapes is two steps of the parser.
-/
theorem hasLoneSurrogate_pieces {s rest : Str} {ps : List Piece} (h : ScanPieces s ps rest)
    (hs : Str.Scalar s)
    : Str.Scalar rest ∧ (hasLoneSurrogate int16 (spell w s) = true ↔
        ¬Str.Scalar (joinPieces id ps) ∨ hasLoneSurrogate int16 (spell w rest) = true) := by
  induction hn : s.length using Nat.strong_induction_on generalizing s ps with
  | _ n ih =>
    cases h with
    | quote s =>
      rw [Str.scalar_cons] at hs
      rw [spell_cons hw (by decide), hasLoneSurrogate_cons (by decide)]
      exact ⟨hs.2, by simp [joinPieces, Str.scalar_nil]⟩
    | @raw c s _ ps hslash h =>
      rw [Str.scalar_cons] at hs
      rcases ih _ (by rw [← hn]; simp) h hs.2 rfl with ⟨hrest, hiff⟩
      have hskip : hasLoneSurrogate int16 (spell w ([c] ++ s)) = hasLoneSurrogate int16 (spell w s) :=
        hasLoneSurrogate_spell_append hw (List.forall_mem_singleton.mpr hslash) s
      rw [List.singleton_append] at hskip
      refine ⟨hrest, ?_⟩
      rw [hskip, hiff, joinPieces, Str.scalar_cons]
      simp [hs.1]
    | @letter l c s _ ps hu hc h =>
      rw [Str.scalar_cons, Str.scalar_cons] at hs
      rcases ih _ (by rw [← hn]; simp only [List.length_cons]; omega) h hs.2.2 rfl with
        ⟨hrest, hiff⟩
      refine ⟨hrest, ?_⟩
      rw [spell_cons hw (by decide), spell_cons hw (val_lt_of_unescape? hc),
        hasLoneSurrogate_letter hu, hiff, joinPieces, Str.scalar_cons]
      simp [isSurrogate_unescape? hc]
    | @esc h1 h2 h3 h4 n s _ ps hhex h =>
      simp only [Str.scalar_cons] at hs
      have hs := hs.2.2.2.2.2.2
      rw [spell_esc hw hhex]
      have hsurrogate : isHigh n.val = true → n.isSurrogate = true := fun hhigh => by
        rw [isSurrogate_eq, hhigh, Bool.true_or]
      cases hhigh : isHigh n.val with
      | false =>
        rcases ih _ (by rw [← hn]; simp; omega) h hs rfl with ⟨hrest, hiff⟩
        refine ⟨hrest, ?_⟩
        have hscalar : n.isSurrogate = isLow n.val := by rw [isSurrogate_eq, hhigh, Bool.false_or]
        rw [hasLoneSurrogate_single hint16 hhex hhigh, Bool.or_eq_true, hiff,
          joinPieces_id_esc (fun hn => by rw [hhigh] at hn; cases hn), Str.scalar_cons, hscalar]
        cases isLow n.val <;> simp
      | true =>
        by_cases htake : (spell w s).take 2 = [0x5c, 0x75]
        . rcases (take_two_spell hw h).mp htake with ⟨m, qs, rfl⟩
          cases h with
          | @esc g1 g2 g3 g4 _ s _ _ hhex' h =>
            have hs' : Str.Scalar s := by
              simp only [Str.scalar_cons] at hs
              exact hs.2.2.2.2.2.2
            rcases ih _ (by rw [← hn]; simp; omega) h hs' rfl with ⟨hrest, hiff⟩
            refine ⟨hrest, ?_⟩
            rw [spell_esc hw hhex', hasLoneSurrogate_pair hint16 hhex hhex' hhigh, Bool.or_eq_true,
              hiff]
            cases hlow : isLow m.val with
            | true =>
              have hpair : joinPieces id (.esc n :: .esc m :: qs)
                  = combine n m :: joinPieces id qs := by
                simp [joinPieces, isHighSurrogate_eq, isLowSurrogate_eq, hhigh, hlow]
              rw [hpair, Str.scalar_cons]
              simp [isSurrogate_combine hhigh hlow]
            | false =>
              have hjoin : joinPieces id (.esc n :: .esc m :: qs)
                  = n :: joinPieces id (.esc m :: qs) := by
                refine joinPieces_id_esc fun _ m' qs' heq => ?_
                rw [← (Piece.esc.inj (List.cons.inj heq).1), hlow]
              rw [hjoin, Str.scalar_cons, hsurrogate hhigh]
              simp
        . have hrest := (ih _ (by rw [← hn]; simp; omega) h hs rfl).1
          have hjoin : joinPieces id (.esc n :: ps) = n :: joinPieces id ps :=
            joinPieces_id_esc fun _ m qs heq => absurd ((take_two_spell hw h).mpr ⟨m, qs, heq⟩) htake
          refine ⟨hrest, ?_⟩
          rw [hasLoneSurrogate_high hint16 hhex hhigh htake, hjoin, Str.scalar_cons,
            hsurrogate hhigh]
          simp

variable {ε : Type} {H : Hooks ε} (hH : H.Faithful)

include hH

/--
The scan looks for strings with a surrogate.
-/
theorem detects_hasLoneSurrogate
    : Detects H Str.Scalar (fun s => hasLoneSurrogate int16 (spell w s) = true)
        (fun t => ¬Str.Scalar t) (fun v => ¬All ScalarText v) where
  skip c s _ hs := ((Str.scalar_cons c s).mp hs).2
  pass {c} hbreak hquote s := by
    have hslash := ne_of_isBreak hbreak (d := 0x5c) (by decide)
    have hskip : hasLoneSurrogate int16 (spell w ([c] ++ s)) = hasLoneSurrogate int16 (spell w s) :=
      hasLoneSurrogate_spell_append hw (List.forall_mem_singleton.mpr hslash) s
    rw [← List.singleton_append, hskip]
  string {s t rest} h hs := by
    rcases Option.map_eq_some_iff.mp h with ⟨⟨ps, rest'⟩, hps, heq⟩
    rcases Prod.mk.inj heq with ⟨rfl, rfl⟩
    have hlone : H.lone = id := funext hH.lone
    rw [spell_cons hw (by decide), hasLoneSurrogate_cons (by decide), hlone]
    exact hasLoneSurrogate_pieces hint16 hw (scanPieces_graph hps) hs
  atom {s v rest} h _ := by
    rcases scanAtom_eq_ok h with ⟨hatom, word, rfl, hword⟩
    rw [hasLoneSurrogate_spell_append hw fun c hc => ne_of_isWordChar (hword c hc) (by decide)]
    exact (or_iff_right (not_not.mpr hatom.text.1)).symm
  str t := Iff.rfl
  arr xs := by
    rw [all_arr]
    simp [ScalarText]
  obj {ps ms} hms := by
    rw [hH.objectPairs hms, all_obj, ScalarText, ← forall₂_and]
    simp only [not_forall, not_and_or, exists_prop]

/--
The scan finds out whether a string of the value has a surrogate.
-/
theorem hasLoneSurrogate_spell {s : Str} {v : Json} (h : loads H s = .ok v) (hs : Str.Scalar s)
    : hasLoneSurrogate int16 (spell w s) = true ↔ ¬All ScalarText v := by
  refine (detects_hasLoneSurrogate hint16 hw hH).loads ?_ h hs
  rw [spell, List.flatMap_nil, hasLoneSurrogate_nil]
  exact Bool.false_ne_true

end

end Json
