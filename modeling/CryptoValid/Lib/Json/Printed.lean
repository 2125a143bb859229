import CryptoValid.Lib.Json.Prescan

/-!
This module contains what the linear scans see in a printed value: characters that can be printed, the
depth of the value, and no lone surrogate escape.
-/

namespace Json

/-!
### Characters
-/

/--
From the blank to the tilde.
-/
def Printable (s : Str) : Prop := ∀ c ∈ s, 0x20 ≤ c.val ∧ c.val < 0x7f

instance (s : Str) : Decidable (Printable s) :=
  decidable_of_iff (s.all fun c => 0x20 ≤ c.val && c.val < 0x7f) (by simp [Printable])

@[simp]
theorem printable_nil : Printable [] := by
  simp [Printable]

@[simp]
theorem printable_cons (c : CodePoint) (s : Str)
    : Printable (c :: s) ↔ (0x20 ≤ c.val ∧ c.val < 0x7f) ∧ Printable s := by
  simp [Printable]

@[simp]
theorem printable_append (s t : Str) : Printable (s ++ t) ↔ Printable s ∧ Printable t := by
  simp only [Printable, List.mem_append, or_imp, forall_and]
  tauto

theorem printable_scalar {s : Str} (h : Printable s) : Str.Scalar s := by
  intro c hc
  have hrange := h c hc
  simp only [CodePoint.isSurrogate, Bool.and_eq_false_iff, decide_eq_false_iff_not]
  omega

theorem printable_digit (n : Nat) (h : n < 16)
    : 0x20 ≤ (Hex.digit n).val ∧ (Hex.digit n).val < 0x7f := by
  revert n
  decide

theorem printable_unicodeEscape (n : Nat) (h : n < 0x10000) : Printable (unicodeEscape n) := by
  simp only [unicodeEscape, hex4, printable_cons, printable_nil]
  exact ⟨by decide, by decide, printable_digit _ (by omega), printable_digit _ (by omega),
    printable_digit _ (by omega), printable_digit _ (by omega), trivial⟩

theorem printable_shortEscape {c letter : CodePoint} (h : shortEscape? c = some letter)
    : Printable [0x5c, letter] := by
  unfold shortEscape? at h
  repeat' split at h
  all_goals
    simp only [Option.some.injEq, reduceCtorEq] at h
  all_goals
    subst h
    simp

theorem printable_escape (c : CodePoint) : Printable (escape true c) := by
  have hlt := c.isLt
  unfold escape
  split
  . next h => exact printable_shortEscape h
  . split
    . exact printable_unicodeEscape _ (by omega)
    . next hlow =>
      split
      . next hhigh =>
        simp only [Bool.not_true, Bool.false_or, decide_eq_true_eq] at hhigh
        simpa using ⟨Nat.not_lt.mp hlow, hhigh⟩
      . split
        . exact printable_unicodeEscape _ (by omega)
        . exact (printable_append _ _).mpr
            ⟨printable_unicodeEscape _ (by omega), printable_unicodeEscape _ (by omega)⟩

theorem printable_stringText (s : Str) : Printable (stringText true s) := by
  have hbody : Printable (s.flatMap (escape true)) := by
    intro c hc
    rcases List.mem_flatMap.mp hc with ⟨d, _, hd⟩
    exact printable_escape d c hd
  simp only [stringText, printable_cons, printable_append]
  exact ⟨by decide, hbody, by decide, printable_nil⟩

theorem printable_intText (i : Int) : Printable (intText i) := by
  have hnat : ∀ n, Printable (natText n) := by
    intro n c hc
    have hdigit := natText_isDigit n c hc
    simp only [isDigit, Bool.and_eq_true, decide_eq_true_eq] at hdigit
    omega
  unfold intText
  split
  . exact (printable_cons _ _).mpr ⟨by decide, hnat _⟩
  . exact hnat _

/--
What holds of the characters of a layout.
-/
structure Layout.Chars (L : Layout) (P : CodePoint → Prop) : Prop where
  opening : ∀ level, ∀ c ∈ L.opening level, P c
  comma : ∀ level, ∀ c ∈ L.comma level, P c
  closing : ∀ level, ∀ c ∈ L.closing level, P c
  colon : ∀ c ∈ L.colon, P c

/--
What holds of the characters of the texts in a node.
-/
def TextChars (ascii : Bool) (P : CodePoint → Prop) : Json → Prop
  | .str s => ∀ c ∈ stringText ascii s, P c
  | .obj ms => ∀ m ∈ ms, ∀ c ∈ stringText ascii m.1, P c
  | _ => True

/--
Outside of its texts a printed value has printable characters and those of its layout.
-/
theorem forall_mem_dumpsIn {L : Layout} {ascii : Bool} {P : CodePoint → Prop} (hL : L.Chars P)
    (hP : ∀ c : CodePoint, 0x20 ≤ c.val → c.val < 0x7f → P c) (v : Json)
    (hv : All (fun v => NotFloat v ∧ TextChars ascii P v) v) (level : Nat)
    : ∀ c ∈ dumpsIn L ascii level v, P c := by
  have hprintable : ∀ s : Str, Printable s → ∀ c ∈ s, P c :=
    fun s hs c hc => hP c (hs c hc).1 (hs c hc).2
  have hbracket : P 0x5b ∧ P 0x5d ∧ P 0x7b ∧ P 0x7d ∧ P 0x2c ∧ P 0x3a := by
    refine ⟨?_, ?_, ?_, ?_, ?_, ?_⟩ <;> exact hP _ (by decide) (by decide)
  rcases hbracket with ⟨hopenArr, hcloseArr, hopenObj, hcloseObj, hcomma, hcolon⟩
  induction v generalizing level with
  | null => exact hprintable (txt "null") (by decide)
  | bool b =>
    cases b with
    | false => exact hprintable (txt "false") (by decide)
    | true => exact hprintable (txt "true") (by decide)
  | int i => exact hprintable _ (printable_intText i)
  | float x => exact absurd hv.self.1 id
  | str s => exact hv.self.2
  | arr xs ih =>
    rw [all_arr] at hv
    have htail : ∀ (ys : List Json) level, (∀ y ∈ ys, y ∈ xs) →
        ∀ c ∈ dumpsInTail L ascii level ys, P c := by
      intro ys
      induction ys with
      | nil => simp [dumpsInTail]
      | cons y ys ihy =>
        intro level hsub
        have hy := hsub y List.mem_cons_self
        simp only [dumpsInTail, List.forall_mem_cons, List.forall_mem_append]
        exact ⟨hcomma, hL.comma level, ih y hy (hv.2 y hy) level,
          ihy level fun z hz => hsub z (List.mem_cons_of_mem _ hz)⟩
    cases xs with
    | nil => simpa [dumpsIn] using ⟨hopenArr, hcloseArr⟩
    | cons x xs =>
      simp only [dumpsIn, List.forall_mem_cons, List.forall_mem_append]
      exact ⟨hopenArr, hL.opening _, ih x List.mem_cons_self (hv.2 x List.mem_cons_self) _,
        htail xs _ fun y hy => List.mem_cons_of_mem _ hy, hL.closing _, hcloseArr, by simp⟩
  | obj ms ih =>
    rw [all_obj] at hv
    have htail : ∀ (ns : List (Str × Json)) level, (∀ n ∈ ns, n ∈ ms) →
        ∀ c ∈ dumpsInMembers L ascii level ns, P c := by
      intro ns
      induction ns with
      | nil => simp [dumpsInMembers]
      | cons n ns ihn =>
        intro level hsub
        have hn := hsub n List.mem_cons_self
        simp only [dumpsInMembers, List.forall_mem_cons, List.forall_mem_append]
        exact ⟨hcomma, hL.comma level, hv.1.2 n hn, hcolon, hL.colon, ih n hn (hv.2 n hn) level,
          ihn level fun z hz => hsub z (List.mem_cons_of_mem _ hz)⟩
    cases ms with
    | nil => simpa [dumpsIn] using ⟨hopenObj, hcloseObj⟩
    | cons m ms =>
      simp only [dumpsIn, List.forall_mem_cons, List.forall_mem_append]
      exact ⟨hopenObj, hL.opening _, hv.1.2 m List.mem_cons_self, hcolon, hL.colon,
        ih m List.mem_cons_self (hv.2 m List.mem_cons_self) _,
        htail ms _ fun n hn => List.mem_cons_of_mem _ hn, hL.closing _, hcloseObj, by simp⟩

theorem printable_dumpsIn {L : Layout}
    (hL : L.Chars fun c => 0x20 ≤ c.val ∧ c.val < 0x7f) (v : Json) (hv : All NotFloat v)
    (level : Nat) : Printable (dumpsIn L true level v) := by
  refine forall_mem_dumpsIn hL (fun c hlow hhigh => ⟨hlow, hhigh⟩) v (hv.imp ?_) level
  intro w hw
  refine ⟨hw, ?_⟩
  cases w with
  | str s => exact printable_stringText s
  | obj ms => exact fun m _ => printable_stringText m.1
  | _ => trivial

theorem Layout.printable_compact : Layout.compact.Chars fun c => 0x20 ≤ c.val ∧ c.val < 0x7f :=
  ⟨fun _ => by simp [compact], fun _ => by simp [compact], fun _ => by simp [compact],
    by simp [compact]⟩

theorem printable_dumps (v : Json) (hv : All NotFloat v) : Printable (dumps true v) := by
  rw [← dumpsIn_compact true v 0]
  exact printable_dumpsIn Layout.printable_compact v hv 0

/-!
### Texts without escapes
-/

/--
Printed as it is, a text without surrogates stays one.
-/
theorem scalar_stringText {s : Str} (hs : Str.Scalar s) : Str.Scalar (stringText false s) := by
  have hescape : ∀ c ∈ s, Str.Scalar (escape false c) := by
    intro c hc
    unfold escape
    split
    . next h => exact printable_scalar (printable_shortEscape h)
    . split
      . exact printable_scalar (printable_unicodeEscape _ (by omega))
      . simpa [Str.scalar_nil] using hs c hc
  rw [stringText, Str.scalar_cons, Str.scalar_append]
  refine ⟨by decide, ?_, by simp; decide⟩
  intro c hc
  rcases List.mem_flatMap.mp hc with ⟨d, hd, hmem⟩
  exact hescape d hd c hmem

/--
A surrogate is printed as it is.
-/
theorem scalar_of_stringText {s : Str} (h : Str.Scalar (stringText false s)) : Str.Scalar s := by
  intro c hc
  by_contra hsurrogate
  rw [Bool.not_eq_false] at hsurrogate
  have hraw : escape false c = [c] := by
    have hval : 0xD800 ≤ c.val := by
      simp only [CodePoint.isSurrogate, Bool.and_eq_true, decide_eq_true_eq] at hsurrogate
      exact hsurrogate.1
    rw [escape, shortEscape?_of_surrogate hsurrogate]
    dsimp only
    rw [if_neg (by omega), Bool.not_false, Bool.true_or, if_pos rfl]
  have hmem : c ∈ stringText false s := by
    refine List.mem_cons_of_mem _ (List.mem_append_left _ (List.mem_flatMap.mpr ⟨c, hc, ?_⟩))
    rw [hraw]
    exact List.mem_singleton.mpr rfl
  rw [h c hmem] at hsurrogate
  cases hsurrogate

theorem scalar_stringText_iff {s : Str} : Str.Scalar (stringText false s) ↔ Str.Scalar s :=
  ⟨scalar_of_stringText, scalar_stringText⟩

theorem scalar_dumpsIn {L : Layout} (hL : L.Chars fun c => c.isSurrogate = false) (v : Json)
    (hv : All (fun v => NotFloat v ∧ ScalarText v) v) (level : Nat)
    : Str.Scalar (dumpsIn L false level v) := by
  refine forall_mem_dumpsIn hL (fun c hlow hhigh => ?_) v (hv.imp ?_) level
  . simp only [CodePoint.isSurrogate, Bool.and_eq_false_iff, decide_eq_false_iff_not]
    omega
  . intro w hw
    refine ⟨hw.1, ?_⟩
    cases w with
    | str s => exact scalar_stringText hw.2
    | obj ms => exact fun m hm => scalar_stringText (hw.2 m hm)
    | _ => trivial

theorem Layout.scalar_compact : Layout.compact.Chars fun c => c.isSurrogate = false :=
  ⟨fun _ => by simp [compact], fun _ => by simp [compact], fun _ => by simp [compact],
    by simp [compact]⟩

theorem Layout.scalar_indented : Layout.indented.Chars fun c => c.isSurrogate = false := by
  have hline : ∀ level, ∀ c ∈ (0x0a : CodePoint) :: List.replicate level 0x20,
      c.isSurrogate = false := by
    intro level c hc
    rcases List.mem_cons.mp hc with rfl | hc
    . decide
    . rw [List.eq_of_mem_replicate hc]
      decide
  refine ⟨hline, hline, hline, fun c hc => ?_⟩
  rw [List.mem_singleton.mp hc]
  decide

theorem scalar_dumps (v : Json) (hv : All (fun v => NotFloat v ∧ ScalarText v) v)
    : Str.Scalar (dumps false v) := by
  rw [← dumpsIn_compact false v 0]
  exact scalar_dumpsIn Layout.scalar_compact v hv 0

theorem le_of_mem_stringText (s : Str) : ∀ c ∈ stringText false s, 0x20 ≤ c.val := by
  have hescape : ∀ d : CodePoint, ∀ c ∈ escape false d, 0x20 ≤ c.val := by
    intro d c hc
    unfold escape at hc
    split at hc
    . next h => exact (printable_shortEscape h c hc).1
    . split at hc
      . exact (printable_unicodeEscape _ (by omega) c hc).1
      . next hlow =>
        simp only [Bool.not_false, Bool.true_or, if_true, List.mem_singleton] at hc
        rw [hc]
        omega
  intro c hc
  rcases List.mem_cons.mp hc with rfl | hc
  . decide
  . rcases List.mem_append.mp hc with hc | hc
    . rcases List.mem_flatMap.mp hc with ⟨d, _, hc⟩
      exact hescape d c hc
    . rw [List.mem_singleton.mp hc]
      decide

/--
Control characters are never printed as they are.
-/
theorem le_of_mem_dumps (v : Json) (hv : All NotFloat v) : ∀ c ∈ dumps false v, 0x20 ≤ c.val := by
  rw [← dumpsIn_compact false v 0]
  have hcompact : Layout.compact.Chars fun c => 0x20 ≤ c.val :=
    ⟨fun _ => by simp [Layout.compact], fun _ => by simp [Layout.compact],
      fun _ => by simp [Layout.compact], by simp [Layout.compact]⟩
  refine forall_mem_dumpsIn hcompact (fun c hlow _ => hlow) v (hv.imp ?_) 0
  intro w hw
  refine ⟨hw, ?_⟩
  cases w with
  | str s => exact le_of_mem_stringText s
  | obj ms => exact fun m _ => le_of_mem_stringText m.1
  | _ => trivial

theorem dumps_eq_cons_ascii (ascii : Bool) (v : Json) (hv : NotFloat v)
    : ∃ c s, dumps ascii v = c :: s ∧ c.val < 0x80 := by
  match v with
  | .null => exact ⟨_, _, rfl, by decide⟩
  | .bool true => exact ⟨_, _, rfl, by decide⟩
  | .bool false => exact ⟨_, _, rfl, by decide⟩
  | .int i =>
    rcases dumps_eq_cons ascii (.int i) trivial with ⟨c, s, hcons, _⟩
    have hprintable := printable_intText i
    rw [dumps] at hcons ⊢
    rw [hcons, printable_cons] at hprintable
    exact ⟨c, s, hcons, by have := hprintable.1; omega⟩
  | .float x => exact absurd hv (by simp [NotFloat])
  | .str s => exact ⟨_, _, rfl, by decide⟩
  | .arr [] => exact ⟨_, _, rfl, by decide⟩
  | .arr (x :: xs) => exact ⟨_, _, by rw [dumps], by decide⟩
  | .obj [] => exact ⟨_, _, rfl, by decide⟩
  | .obj ((k, v) :: ms) => exact ⟨_, _, by rw [dumps], by decide⟩

/-!
### Nesting
-/

namespace Nesting

/--
What a value of depth `d` leaves behind.
-/
def deepen (n : Nesting) (d : Nat) : Nesting := { n with max := Max.max n.max (n.depth + d) }

/--
Outside of strings, and the depth counts already.
-/
def Outside (n : Nesting) : Prop := n.inStr = false ∧ n.esc = false ∧ n.depth ≤ n.max

theorem step_inStr {n : Nesting} (hstr : n.inStr = true) (hesc : n.esc = false) {c : CodePoint}
    (hquote : c ≠ 0x22) (hslash : c ≠ 0x5c) : n.step c = n := by
  simp [step, hstr, hesc, hquote, hslash]

theorem foldl_step_escaped {n : Nesting} (hstr : n.inStr = true) (hesc : n.esc = false)
    (letter : CodePoint) : List.foldl step n [0x5c, letter] = n := by
  rcases n with ⟨inStr, esc, depth, max⟩
  subst hstr hesc
  simp [step]

theorem foldl_step_unicodeEscape {n : Nesting} (hstr : n.inStr = true) (hesc : n.esc = false)
    (m : Nat) (hm : m < 0x10000) : List.foldl step n (unicodeEscape m) = n := by
  have hdigit : ∀ k < 16, n.step (Hex.digit k) = n := by
    intro k hk
    have hne : ∀ k < 16, Hex.digit k ≠ 0x22 ∧ Hex.digit k ≠ 0x5c := by decide
    exact step_inStr hstr hesc (hne k hk).1 (hne k hk).2
  have hhead := foldl_step_escaped hstr hesc 0x75
  simp only [List.foldl_cons, List.foldl_nil] at hhead
  have hslash : (CodePoint.ofNat 0x5c) = 0x5c := by decide
  have hletter : (CodePoint.ofNat 0x75) = 0x75 := by decide
  simp only [unicodeEscape, hex4, List.foldl_cons, List.foldl_nil, hslash, hletter, hhead]
  rw [hdigit _ (by omega), hdigit _ (by omega), hdigit _ (by omega), hdigit _ (by omega)]

theorem foldl_step_escape {n : Nesting} (hstr : n.inStr = true) (hesc : n.esc = false)
    (ascii : Bool) (c : CodePoint) : List.foldl step n (escape ascii c) = n := by
  have hlt := c.isLt
  unfold escape
  split
  . exact foldl_step_escaped hstr hesc _
  . next hshort =>
    split
    . exact foldl_step_unicodeEscape hstr hesc _ (by omega)
    . split
      . have hquote : c ≠ 0x22 := by
          rintro rfl
          simp [shortEscape?] at hshort
        have hslash : c ≠ 0x5c := by
          rintro rfl
          simp [shortEscape?] at hshort
        exact step_inStr hstr hesc hquote hslash
      . split
        . exact foldl_step_unicodeEscape hstr hesc _ (by omega)
        . rw [List.foldl_append, foldl_step_unicodeEscape hstr hesc _ (by omega),
            foldl_step_unicodeEscape hstr hesc _ (by omega)]

theorem foldl_step_stringText {n : Nesting} (hn : n.Outside) (ascii : Bool) (s : Str)
    : List.foldl step n (stringText ascii s) = n := by
  rcases n with ⟨inStr, esc, depth, max⟩
  rcases hn with ⟨hstr, hesc, _⟩
  dsimp only at hstr hesc
  subst hstr hesc
  have hbody : ∀ s : Str, List.foldl step ⟨true, false, depth, max⟩ (s.flatMap (escape ascii))
      = ⟨true, false, depth, max⟩ := by
    intro s
    induction s with
    | nil => rfl
    | cons c s ih => rw [List.flatMap_cons, List.foldl_append, foldl_step_escape rfl rfl ascii, ih]
  rw [stringText, List.foldl_cons, List.foldl_append]
  have hopen : step ⟨false, false, depth, max⟩ 0x22 = ⟨true, false, depth, max⟩ := rfl
  rw [hopen, hbody]
  rfl

/--
Nothing but quotes and brackets counts outside of strings.
-/
def isPlain (c : CodePoint) : Bool :=
  c ≠ 0x22 && c ≠ 0x5b && c ≠ 0x7b && c ≠ 0x5d && c ≠ 0x7d

theorem step_plain {n : Nesting} (hn : n.Outside) {c : CodePoint} (hc : isPlain c = true)
    : n.step c = n := by
  simp only [isPlain, Bool.and_eq_true, decide_eq_true_eq] at hc
  simp [step, hn.1, hc]

theorem foldl_step_plain {n : Nesting} (hn : n.Outside) (s : Str) (hs : s.all isPlain = true)
    : List.foldl step n s = n := by
  induction s with
  | nil => rfl
  | cons c s ih =>
    rw [List.all_cons, Bool.and_eq_true] at hs
    rw [List.foldl_cons, step_plain hn hs.1, ih hs.2]

theorem all_isPlain_intText (i : Int) : (intText i).all isPlain = true := by
  have hdigit : ∀ c : CodePoint, isDigit c = true → isPlain c = true := by
    intro c hc
    simp only [isDigit, Bool.and_eq_true, decide_eq_true_eq] at hc
    simp only [isPlain, Bool.and_eq_true, decide_eq_true_eq, ne_eq, Fin.ext_iff]
    refine ⟨⟨⟨⟨?_, ?_⟩, ?_⟩, ?_⟩, ?_⟩ <;> (intro h; rw [h] at hc; revert hc; decide)
  have hnat : ∀ n, (natText n).all isPlain = true := by
    intro n
    rw [List.all_eq_true]
    exact fun c hc => hdigit c (natText_isDigit n c hc)
  unfold intText
  split
  . rw [List.all_cons, hnat]
    decide
  . exact hnat _

theorem Outside.deepen {n : Nesting} (hn : n.Outside) (d : Nat) : (n.deepen d).Outside :=
  ⟨hn.1, hn.2.1, Int.le_trans hn.2.2 (Int.le_max_left _ _)⟩

theorem deepen_zero {n : Nesting} (hn : n.Outside) : n.deepen 0 = n := by
  rcases n with ⟨inStr, esc, depth, m⟩
  have hle : depth ≤ m := hn.2.2
  simp [Nesting.deepen, hle]

theorem deepen_deepen (n : Nesting) (d e : Nat) : (n.deepen d).deepen e = n.deepen
    (Max.max d e) := by
  simp only [Nesting.deepen, Nesting.mk.injEq, true_and]
  omega

/--
An opening bracket.
-/
def enter (n : Nesting) : Nesting :=
  { n with depth := n.depth + 1, max := Max.max n.max (n.depth + 1) }

theorem step_open {n : Nesting} (hn : n.Outside) {c : CodePoint} (hc : c = 0x5b ∨ c = 0x7b)
    : n.step c = n.enter := by
  rcases hc with rfl | rfl <;> simp [step, enter, hn.1] <;> omega

theorem Outside.enter {n : Nesting} (hn : n.Outside) : n.enter.Outside :=
  ⟨hn.1, hn.2.1, Int.le_max_right _ _⟩

/--
A closing bracket after what is inside.
-/
theorem step_close {n : Nesting} (hn : n.Outside) (d : Nat) {c : CodePoint}
    (hc : c = 0x5d ∨ c = 0x7d) : (n.enter.deepen d).step c = n.deepen (d + 1) := by
  rcases n with ⟨inStr, esc, depth, m⟩
  rcases hn with ⟨hstr, hesc, _⟩
  dsimp only at hstr hesc
  subst hstr hesc
  have hmax : Max.max (Max.max m (depth + 1)) (depth + 1 + d) = Max.max m (depth + ↑(d + 1)) := by
    omega
  rcases hc with rfl | rfl <;> simp [step, Nesting.enter, Nesting.deepen, hmax]

theorem foldl_step_blanks {n : Nesting} (hn : n.Outside) {s : Str} (hs : s.all isSpace = true)
    : List.foldl step n s = n := by
  refine foldl_step_plain hn s (List.all_eq_true.mpr ?_)
  intro c hc
  have hspace := List.all_eq_true.mp hs c hc
  simp only [isSpace, Bool.or_eq_true, decide_eq_true_eq] at hspace
  rcases hspace with ((rfl | rfl) | rfl) | rfl <;> decide

section

variable {L : Layout} (hL : L.Blank) (ascii : Bool)

include hL

/--
Elements after the first one, or members after the first one.
-/
theorem foldl_step_dumpsInTail (xs : List Json) (level : Nat)
    (ih : ∀ x ∈ xs, ∀ n : Nesting, n.Outside →
      List.foldl step n (dumpsIn L ascii level x) = n.deepen x.depth)
    {n : Nesting} (hn : n.Outside)
    : List.foldl step n (dumpsInTail L ascii level xs) = n.deepen (depthElems xs) := by
  induction xs generalizing n with
  | nil => exact (deepen_zero hn).symm
  | cons x xs ihx =>
    rw [dumpsInTail, List.foldl_cons, step_plain hn (by decide), List.foldl_append,
      foldl_step_blanks hn (hL.comma level), List.foldl_append, ih x List.mem_cons_self n hn,
      ihx (fun y hy => ih y (List.mem_cons_of_mem _ hy)) (hn.deepen _), deepen_deepen, depthElems]

theorem foldl_step_dumpsInMembers (ms : List (Str × Json)) (level : Nat)
    (ih : ∀ m ∈ ms, ∀ n : Nesting, n.Outside →
      List.foldl step n (dumpsIn L ascii level m.2) = n.deepen m.2.depth)
    {n : Nesting} (hn : n.Outside)
    : List.foldl step n (dumpsInMembers L ascii level ms) = n.deepen (depthMembers ms) := by
  induction ms generalizing n with
  | nil => exact (deepen_zero hn).symm
  | cons m ms ihm =>
    rw [dumpsInMembers, List.foldl_cons, step_plain hn (by decide), List.foldl_append,
      foldl_step_blanks hn (hL.comma level), List.foldl_append, foldl_step_stringText hn,
      List.foldl_cons, step_plain hn (by decide), List.foldl_append,
      foldl_step_blanks hn hL.colon, List.foldl_append, ih m List.mem_cons_self n hn,
      ihm (fun y hy => ih y (List.mem_cons_of_mem _ hy)) (hn.deepen _), deepen_deepen,
      depthMembers]

theorem foldl_step_dumpsIn (v : Json) (hv : All NotFloat v) (level : Nat) (n : Nesting)
    (hn : n.Outside) : List.foldl step n (dumpsIn L ascii level v) = n.deepen v.depth := by
  have hplain : ∀ (n : Nesting) (s : Str), n.Outside → s.all isPlain = true →
      List.foldl step n s = n.deepen 0 := by
    intro n s hn hs
    rw [foldl_step_plain hn s hs, deepen_zero hn]
  induction v generalizing level n with
  | null => exact hplain n (txt "null") hn (by decide)
  | bool b =>
    cases b with
    | false => exact hplain n (txt "false") hn (by decide)
    | true => exact hplain n (txt "true") hn (by decide)
  | int i => exact hplain n _ hn (all_isPlain_intText i)
  | float x => exact absurd hv.self id
  | str s =>
    rw [dumpsIn, foldl_step_stringText hn]
    exact (deepen_zero hn).symm
  | arr xs ih =>
    rw [all_arr] at hv
    have ih : ∀ x ∈ xs, ∀ level, ∀ n : Nesting, n.Outside →
        List.foldl step n (dumpsIn L ascii level x) = n.deepen x.depth :=
      fun x hx level n hn => ih x hx (hv.2 x hx) level n hn
    cases xs with
    | nil =>
      have hclose := step_close hn 0 (c := 0x5d) (Or.inl rfl)
      rw [deepen_zero hn.enter] at hclose
      rw [dumpsIn, List.foldl_cons, List.foldl_cons, List.foldl_nil, step_open hn (Or.inl rfl)]
      exact hclose
    | cons x xs =>
      rw [dumpsIn, List.foldl_cons, step_open hn (Or.inl rfl), List.foldl_append,
        foldl_step_blanks hn.enter (hL.opening _), List.foldl_append,
        ih x List.mem_cons_self _ _ hn.enter, List.foldl_append,
        foldl_step_dumpsInTail hL ascii xs _ (fun y hy => ih y (List.mem_cons_of_mem _ hy) _)
          (hn.enter.deepen _),
        deepen_deepen, List.foldl_append,
        foldl_step_blanks (hn.enter.deepen _) (hL.closing _), List.foldl_cons, List.foldl_nil,
        step_close hn _ (Or.inl rfl)]
      rfl
  | obj ms ih =>
    rw [all_obj] at hv
    have ih : ∀ m ∈ ms, ∀ level, ∀ n : Nesting, n.Outside →
        List.foldl step n (dumpsIn L ascii level m.2) = n.deepen m.2.depth :=
      fun m hm level n hn => ih m hm (hv.2 m hm) level n hn
    cases ms with
    | nil =>
      have hclose := step_close hn 0 (c := 0x7d) (Or.inr rfl)
      rw [deepen_zero hn.enter] at hclose
      rw [dumpsIn, List.foldl_cons, List.foldl_cons, List.foldl_nil, step_open hn (Or.inr rfl)]
      exact hclose
    | cons m ms =>
      rw [dumpsIn, List.foldl_cons, step_open hn (Or.inr rfl), List.foldl_append,
        foldl_step_blanks hn.enter (hL.opening _), List.foldl_append,
        foldl_step_stringText hn.enter, List.foldl_cons, step_plain hn.enter (by decide),
        List.foldl_append, foldl_step_blanks hn.enter hL.colon, List.foldl_append,
        ih m List.mem_cons_self _ _ hn.enter, List.foldl_append,
        foldl_step_dumpsInMembers hL ascii ms _ (fun y hy => ih y (List.mem_cons_of_mem _ hy) _)
          (hn.enter.deepen _),
        deepen_deepen, List.foldl_append,
        foldl_step_blanks (hn.enter.deepen _) (hL.closing _), List.foldl_cons, List.foldl_nil,
        step_close hn _ (Or.inr rfl)]
      rfl

end

end Nesting

/-!
### Surrogate escapes
-/

section

variable {int16 : Str → Option Int} (hint16 : ReadsHex int16)

include hint16

theorem hasLoneSurrogate_unicodeEscape (n : Nat) (hn : n < 0x10000)
    (hscalar : (CodePoint.ofNat n).isSurrogate = false) (s : Str)
    : hasLoneSurrogate int16 (unicodeEscape n ++ s) = hasLoneSurrogate int16 s := by
  rw [isSurrogate_eq, Bool.or_eq_false_iff] at hscalar
  have hslash : (CodePoint.ofNat 0x5c) = 0x5c := by decide
  have hletter : (CodePoint.ofNat 0x75) = 0x75 := by decide
  simp only [unicodeEscape, hex4, hslash, hletter, List.cons_append, List.nil_append]
  rw [hasLoneSurrogate_single hint16 (hex4?_hex4 n hn) hscalar.1, hscalar.2, Bool.false_or]

theorem hasLoneSurrogate_unicodeEscape_pair (n m : Nat) (hn : n < 0x10000) (hm : m < 0x10000)
    (hhigh : isHigh n = true) (hlow : isLow m = true) (s : Str)
    : hasLoneSurrogate int16 (unicodeEscape n ++ unicodeEscape m ++ s)
        = hasLoneSurrogate int16 s := by
  have hslash : (CodePoint.ofNat 0x5c) = 0x5c := by decide
  have hletter : (CodePoint.ofNat 0x75) = 0x75 := by decide
  have hvaln : (CodePoint.ofNat n).val = n := CodePoint.val_ofNat n (by omega)
  have hvalm : (CodePoint.ofNat m).val = m := CodePoint.val_ofNat m (by omega)
  simp only [unicodeEscape, hex4, hslash, hletter, List.cons_append, List.nil_append]
  rw [hasLoneSurrogate_pair hint16 (hex4?_hex4 n hn) (hex4?_hex4 m hm) (by rw [hvaln, hhigh]),
    hvalm, hlow, Bool.not_true, Bool.false_or]

theorem hasLoneSurrogate_escape {c : CodePoint} (hc : c.isSurrogate = false) (s : Str)
    : hasLoneSurrogate int16 (escape true c ++ s) = hasLoneSurrogate int16 s := by
  have hlt := c.isLt
  unfold escape
  split
  . next letter hshort => exact hasLoneSurrogate_letter (shortEscape?_spec hshort).1
  . next hshort =>
    split
    . exact hasLoneSurrogate_unicodeEscape hint16 _ (by omega) (by rwa [CodePoint.ofNat_val]) s
    . split
      . refine hasLoneSurrogate_cons ?_
        rintro rfl
        simp [shortEscape?] at hshort
      . split
        . exact hasLoneSurrogate_unicodeEscape hint16 _ (by omega)
            (by rwa [CodePoint.ofNat_val]) s
        . refine hasLoneSurrogate_unicodeEscape_pair hint16 _ _ (by omega) (by omega) ?_ ?_ s
          . simp only [isHigh, Bool.and_eq_true, decide_eq_true_eq]
            omega
          . simp only [isLow, Bool.and_eq_true, decide_eq_true_eq]
            omega

theorem hasLoneSurrogate_stringText {t : Str} (ht : Str.Scalar t) (s : Str)
    : hasLoneSurrogate int16 (stringText true t ++ s) = hasLoneSurrogate int16 s := by
  have hbody : ∀ s, hasLoneSurrogate int16 (t.flatMap (escape true) ++ s)
      = hasLoneSurrogate int16 s := by
    induction t with
    | nil => exact fun s => rfl
    | cons c t ih =>
      intro s
      rw [Str.scalar_cons] at ht
      rw [List.flatMap_cons, List.append_assoc, hasLoneSurrogate_escape hint16 ht.1, ih ht.2]
  rw [stringText, List.cons_append, hasLoneSurrogate_cons (by decide), List.append_assoc, hbody]
  exact hasLoneSurrogate_cons (by decide)

omit hint16 in
theorem hasLoneSurrogate_append_of_not_mem {word : Str} (hword : (0x5c : CodePoint) ∉ word)
    (s : Str) : hasLoneSurrogate int16 (word ++ s) = hasLoneSurrogate int16 s := by
  induction word with
  | nil => rfl
  | cons c word ih =>
    rw [List.mem_cons, not_or] at hword
    rw [List.cons_append, hasLoneSurrogate_cons (Ne.symm hword.1), ih hword.2]

omit hint16 in
theorem hasLoneSurrogate_blanks_append {blanks : Str} (hblanks : blanks.all isSpace = true)
    (s : Str) : hasLoneSurrogate int16 (blanks ++ s) = hasLoneSurrogate int16 s := by
  refine hasLoneSurrogate_append_of_not_mem ?_ s
  intro hmem
  have hspace := List.all_eq_true.mp hblanks _ hmem
  revert hspace
  decide

theorem hasLoneSurrogate_dumpsIn_append {L : Layout} (hL : L.Blank) (v : Json)
    (hv : All (fun v => NotFloat v ∧ ScalarText v) v) (level : Nat) (s : Str)
    : hasLoneSurrogate int16 (dumpsIn L true level v ++ s) = hasLoneSurrogate int16 s := by
  induction v generalizing level s with
  | null =>
    exact hasLoneSurrogate_append_of_not_mem
      (show (0x5c : CodePoint) ∉ txt "null" by decide) s
  | bool b =>
    cases b with
    | false =>
      exact hasLoneSurrogate_append_of_not_mem
        (show (0x5c : CodePoint) ∉ txt "false" by decide) s
    | true =>
      exact hasLoneSurrogate_append_of_not_mem
        (show (0x5c : CodePoint) ∉ txt "true" by decide) s
  | int i =>
    have hslash : (0x5c : CodePoint) ∉ intText i := by
      have hnat : ∀ n, (0x5c : CodePoint) ∉ natText n := by
        intro n hmem
        have hdigit := natText_isDigit n _ hmem
        simp [isDigit] at hdigit
      unfold intText
      split
      . rw [List.mem_cons, not_or]
        exact ⟨by decide, hnat _⟩
      . exact hnat _
    exact hasLoneSurrogate_append_of_not_mem hslash s
  | float x => exact absurd hv.self.1 id
  | str t => exact hasLoneSurrogate_stringText hint16 hv.self.2 s
  | arr xs ih =>
    rw [all_arr] at hv
    have htail : ∀ (ys : List Json) level s, (∀ y ∈ ys, y ∈ xs) →
        hasLoneSurrogate int16 (dumpsInTail L true level ys ++ s)
          = hasLoneSurrogate int16 s := by
      intro ys
      induction ys with
      | nil => exact fun _ s _ => rfl
      | cons y ys ihy =>
        intro level s hsub
        have hy := hsub y List.mem_cons_self
        rw [dumpsInTail, List.cons_append, hasLoneSurrogate_cons (by decide), List.append_assoc,
          hasLoneSurrogate_blanks_append (hL.comma level), List.append_assoc,
          ih y hy (hv.2 y hy), ihy level s fun z hz => hsub z (List.mem_cons_of_mem _ hz)]
    cases xs with
    | nil =>
      exact hasLoneSurrogate_append_of_not_mem
        (show (0x5c : CodePoint) ∉ ([0x5b, 0x5d] : Str) by decide) s
    | cons x xs =>
      rw [dumpsIn, List.cons_append, hasLoneSurrogate_cons (by decide), List.append_assoc,
        hasLoneSurrogate_blanks_append (hL.opening _), List.append_assoc,
        ih x List.mem_cons_self (hv.2 x List.mem_cons_self), List.append_assoc,
        htail xs _ _ fun y hy => List.mem_cons_of_mem _ hy, List.append_assoc,
        hasLoneSurrogate_blanks_append (hL.closing _)]
      exact hasLoneSurrogate_cons (by decide)
  | obj ms ih =>
    rw [all_obj] at hv
    have hmember : ∀ m ∈ ms, ∀ level s, hasLoneSurrogate int16
        (stringText true m.1 ++ (0x3a :: (L.colon ++ (dumpsIn L true level m.2 ++ s))))
          = hasLoneSurrogate int16 s := by
      intro m hm level s
      rw [hasLoneSurrogate_stringText hint16 (hv.1.2 m hm), hasLoneSurrogate_cons (by decide),
        hasLoneSurrogate_blanks_append hL.colon, ih m hm (hv.2 m hm)]
    have htail : ∀ (ns : List (Str × Json)) level s, (∀ n ∈ ns, n ∈ ms) →
        hasLoneSurrogate int16 (dumpsInMembers L true level ns ++ s)
          = hasLoneSurrogate int16 s := by
      intro ns
      induction ns with
      | nil => exact fun _ s _ => rfl
      | cons n ns ihn =>
        intro level s hsub
        simp only [dumpsInMembers, List.cons_append, List.append_assoc]
        rw [hasLoneSurrogate_cons (by decide), hasLoneSurrogate_blanks_append (hL.comma level),
          hmember n (hsub n List.mem_cons_self),
          ihn level s fun z hz => hsub z (List.mem_cons_of_mem _ hz)]
    cases ms with
    | nil =>
      exact hasLoneSurrogate_append_of_not_mem
        (show (0x5c : CodePoint) ∉ ([0x7b, 0x7d] : Str) by decide) s
    | cons m ms =>
      simp only [dumpsIn, List.cons_append, List.append_assoc]
      rw [hasLoneSurrogate_cons (by decide), hasLoneSurrogate_blanks_append (hL.opening _),
        hmember m List.mem_cons_self, htail ms _ _ fun n hn => List.mem_cons_of_mem _ hn,
        hasLoneSurrogate_blanks_append (hL.closing _)]
      exact hasLoneSurrogate_cons (by decide)

end

end Json
