import CryptoValid.Lib.Json.Blanks
import CryptoValid.Lib.PythonText

/-!
This module contains how JSON lines look to a reader that opens the file as text: carriage returns end
lines as well, so that a line of the file may come in pieces, and one of the pieces is the whole value
if any piece is a value at all.
-/

namespace Python

/-!
### Universal newlines
-/

@[simp]
theorem universalNewlines_nil : universalNewlines [] = [] := rfl

theorem universalNewlines_cons {c : CodePoint} (hc : c ≠ 0x0d) (s : Str)
    : universalNewlines (c :: s) = c :: universalNewlines s := by
  cases s <;> simp [universalNewlines, hc]

/--
Two texts are read one after the other, unless they meet inside of a `\\r\\n`.
-/
theorem universalNewlines_append (a b : Str)
    (h : a.getLast? ≠ some 0x0d ∨ b.head? ≠ some 0x0a)
    : universalNewlines (a ++ b) = universalNewlines a ++ universalNewlines b := by
  fun_induction universalNewlines a with
  | case1 => rfl
  | case2 c =>
    by_cases hc : c = 0x0d
    . subst hc
      cases b with
      | nil => rfl
      | cons d b =>
        have hd : d ≠ 0x0a := by simpa using h
        simp [universalNewlines, hd]
    . rw [List.singleton_append, universalNewlines_cons hc, if_neg hc, List.singleton_append]
  | case3 s ih =>
    have hs : s.getLast? ≠ some 0x0d ∨ b.head? ≠ some 0x0a := by
      rcases h with h | h
      . refine Or.inl fun hlast => h ?_
        rw [List.getLast?_cons, List.getLast?_cons, hlast]
        rfl
      . exact Or.inr h
    simp [universalNewlines, ih hs]
  | case4 d s hd ih =>
    have hs := h
    rw [List.getLast?_cons_cons] at hs
    rw [List.cons_append, List.cons_append, universalNewlines, if_pos rfl, if_neg hd]
    exact congrArg _ (ih hs)
  | case5 c d s hc ih =>
    rw [List.getLast?_cons_cons] at h
    rw [List.cons_append, universalNewlines_cons hc]
    exact congrArg _ (ih h)

theorem all_isSpace_universalNewlines (s : Str)
    : (universalNewlines s).all Json.isSpace = s.all Json.isSpace := by
  have hnl : Json.isSpace 0x0a = true := by decide
  have hcr : Json.isSpace 0x0d = true := by decide
  fun_induction universalNewlines s with
  | case1 => rfl
  | case2 c =>
    split
    . next hc => simp [hc, hnl, hcr]
    . rfl
  | case3 s ih => simp [hnl, hcr, ih]
  | case4 d s hd ih =>
    rw [List.all_cons, ih, List.all_cons, List.all_cons, hnl, hcr]
    simp
  | case5 c d s hc ih =>
    rw [List.all_cons, ih]
    rfl

theorem isSpace_universalNewlines {s : Str} (hs : s.all Json.isSpace = true)
    : (universalNewlines s).all Json.isSpace = true := by
  rw [all_isSpace_universalNewlines, hs]

theorem universalNewlines_of_not_mem {s : Str} (h : (0x0d : CodePoint) ∉ s)
    : universalNewlines s = s := by
  induction s with
  | nil => rfl
  | cons c s ih =>
    rw [List.mem_cons, not_or] at h
    rw [universalNewlines_cons (Ne.symm h.1), ih h.2]

/--
The blanks between tokens are all that changes for a parser.
-/
theorem simulates_universalNewlines
    : Json.Simulates fun s s' => s' = universalNewlines s where
  cons := by
    rintro c s _ rfl hc
    refine ⟨universalNewlines s, universalNewlines_cons ?_ s, rfl⟩
    rintro rfl
    revert hc
    decide
  skip := by
    rintro s _ rfl hne
    rcases hskip : Json.skipSpace s with _ | ⟨c, t⟩
    . exact absurd hskip hne
    . rcases List.dropWhile_suffix Json.isSpace (l := s) with ⟨w, hw⟩
      rw [← Json.skipSpace, hskip] at hw
      have hblank : w.all Json.isSpace = true := by
        have htake := List.takeWhile_append_dropWhile (p := Json.isSpace) (l := s)
        rw [← Json.skipSpace, hskip, ← hw] at htake
        have hw' : w = (w ++ c :: t).takeWhile Json.isSpace :=
          (List.append_cancel_right htake).symm
        rw [hw', List.all_eq_true]
        exact fun x hx => List.mem_takeWhile_imp hx
      have hc : Json.isSpace c = false := by
        have hhead := List.head?_dropWhile_not Json.isSpace s
        rw [← Json.skipSpace, hskip] at hhead
        simpa using hhead
      have hne' : c ≠ 0x0a ∧ c ≠ 0x0d := by
        constructor <;>
        . rintro rfl
          revert hc
          decide
      rw [← hw, universalNewlines_append _ _ (Or.inr (by simpa using hne'.1)),
        universalNewlines_cons hne'.2,
        Json.skipSpace_blanks (isSpace_universalNewlines hblank) _ _ hc]
  ends := by
    rintro s _ rfl hs
    cases s with
    | nil => exact Json.breaks_nil
    | cons c s =>
      have hc := Json.isSpace_of_isLayout (hs c (by simp))
      intro d hd
      refine Json.isBreak_of_isSpace ?_
      have hhead : ∀ d ∈ (universalNewlines (c :: s)).head?, d = c ∨ d = 0x0a := by
        by_cases hcr : c = 0x0d
        . cases s with
          | nil => simp [universalNewlines, hcr]
          | cons e s =>
            rw [universalNewlines, if_pos hcr]
            split <;> simp
        . rw [universalNewlines_cons hcr]
          simp
      rcases hhead d hd with rfl | rfl
      . exact hc
      . decide

theorem loads_universalNewlines {ε : Type} {H : Json.Hooks ε} {s : Str} {v : Json}
    (h : Json.loads H s = .ok v) : Json.loads H (universalNewlines s) = .ok v := by
  rcases simulates_universalNewlines.loads (Json.Hooks.Refines.refl H) rfl h with
    ⟨rest, _, rfl, hnil, hscan⟩
  refine Json.loads_of_scanValue hscan ?_
  rw [Json.skipSpace_eq_nil] at hnil ⊢
  exact isSpace_universalNewlines hnil

/--
The pieces of a text are those of its lines.
-/
theorem split_universalNewlines (s : Str)
    : Lines.split 0x0a (universalNewlines s)
        =
      (Lines.split 0x0a s).flatMap fun line => Lines.split 0x0a (universalNewlines line) := by
  induction hn : s.length using Nat.strongRecOn generalizing s with
  | _ n ih =>
    rcases Lines.cases_split 0x0a s with rfl | ⟨hne, hnot⟩ | ⟨line, rest, hnot, rfl⟩
    . rfl
    . rw [Lines.split_of_not_mem _ _ hne hnot, List.flatMap_singleton]
    . have hlt : rest.length < n := by
        rw [← hn, List.length_append, List.length_cons]
        omega
      have hlast : (line ++ [(0x0a : CodePoint)]).getLast? = some 0x0a := by simp
      have hun : (universalNewlines (line ++ [0x0a])).getLast? = some 0x0a := by
        by_cases hcr : line.getLast? = some 0x0d
        . rcases List.getLast?_eq_some_iff.mp hcr with ⟨front, rfl⟩
          rw [List.append_assoc, universalNewlines_append _ _ (Or.inr (by simp))]
          simp [universalNewlines]
        . rw [universalNewlines_append _ _ (Or.inl hcr)]
          simp [universalNewlines]
      have heq : line ++ 0x0a :: rest = (line ++ [0x0a]) ++ rest := by simp
      rw [Lines.split_append_nl _ _ _ hnot, heq,
        universalNewlines_append _ _ (Or.inl (by rw [hlast]; decide)),
        Lines.split_append_of_terminated _ _ _ (Or.inr hun), ih _ hlt rest rfl, List.flatMap_cons]

/-!
### Values
-/

/--
A character that the text of a value can start with.
-/
def isValueHead (c : CodePoint) : Bool :=
  Json.isDigit c || (txt "\"[\x7bntfNI-").contains c

theorem isSpace_of_isValueHead {c : CodePoint} (h : isValueHead c = true) : isSpace c = false := by
  simp only [isValueHead, Bool.or_eq_true, List.contains_iff_mem] at h
  rcases h with h | h
  . simp only [Json.isDigit, Bool.and_eq_true, decide_eq_true_eq] at h
    have hspace : ∀ n : Fin 10, isSpace (.ofNat (48 + n)) = false := by decide
    have hc := hspace ⟨c.val - 48, by omega⟩
    have hval : 48 + (c.val - 48) = c.val := by omega
    rwa [hval, CodePoint.ofNat_val] at hc
  . have hspace : ∀ d ∈ txt "\"[\x7bntfNI-", isSpace d = false := by
      have hlist : (txt "\"[\x7bntfNI-").all (fun d => !isSpace d) = true := by decide
      simpa using hlist
    exact hspace c h

theorem scanAtom_of_not_isValueHead {ε : Type} (H : Json.Hooks ε) {c : CodePoint}
    (hc : isValueHead c = false) (s : Str) : Json.scanAtom H (c :: s) = .error H.syntaxError := by
  simp only [isValueHead, Bool.or_eq_false_iff] at hc
  have hne : ∀ d ∈ txt "\"[\x7bntfNI-", d ≠ c := by
    rintro d hd rfl
    have hmem := List.contains_iff_mem.mpr hd
    rw [hc.2] at hmem
    simp at hmem
  have hstrip : ∀ (d : CodePoint) (word : Str), d ∈ txt "\"[\x7bntfNI-" →
      Json.stripPrefix? (d :: word) (c :: s) = none :=
    fun d word hd => Json.stripPrefix?_of_head_ne word d c s (hne d hd)
  have hnumber : Json.scanNumber? (c :: s) = none := by
    have hminus : c ≠ 0x2d := Ne.symm (hne _ (by decide))
    simp [Json.scanNumber?, hminus, hc.1]
  have hnull := hstrip (.ofChar 'n') (txt "ull") (by decide)
  have htrue := hstrip (.ofChar 't') (txt "rue") (by decide)
  have hfalse := hstrip (.ofChar 'f') (txt "alse") (by decide)
  have hnan := hstrip (.ofChar 'N') (txt "aN") (by decide)
  have hinfinity := hstrip (.ofChar 'I') (txt "nfinity") (by decide)
  have hnegative := hstrip (.ofChar '-') (txt "Infinity") (by decide)
  have hword : txt "null" = .ofChar 'n' :: txt "ull" ∧ txt "true" = .ofChar 't' :: txt "rue" ∧
      txt "false" = .ofChar 'f' :: txt "alse" ∧ txt "NaN" = .ofChar 'N' :: txt "aN" ∧
      txt "Infinity" = .ofChar 'I' :: txt "nfinity" ∧
      txt "-Infinity" = .ofChar '-' :: txt "Infinity" := by decide
  rcases hword with ⟨h1, h2, h3, h4, h5, h6⟩
  rw [← h1] at hnull
  rw [← h2] at htrue
  rw [← h3] at hfalse
  rw [← h4] at hnan
  rw [← h5] at hinfinity
  rw [← h6] at hnegative
  simp only [Json.scanAtom, hnull, htrue, hfalse, hnan, hinfinity, hnegative, hnumber]

/--
Only what JSON calls a blank can come before a value.
-/
theorem isValueHead_of_loads {ε : Type} {H : Json.Hooks ε} {s : Str} {v : Json}
    (h : Json.loads H s = .ok v) {c : CodePoint} {t : Str} (hskip : Json.skipSpace s = c :: t)
    : isValueHead c = true := by
  rcases Except.bind_eq_ok.mp h with ⟨⟨w, rest⟩, hw, _⟩
  rw [hskip] at hw
  cases hhead : isValueHead c with
  | true => rfl
  | false =>
    have hne : c ≠ 0x22 ∧ c ≠ 0x5b ∧ c ≠ 0x7b := by
      refine ⟨?_, ?_, ?_⟩ <;>
      . rintro rfl
        revert hhead
        decide
    rw [Json.scanValue_atom H _ _ _ _ hne, scanAtom_of_not_isValueHead H hhead] at hw
    simp at hw

/--
A text starts with the blanks of Python as with those of JSON.
-/
theorem all_isSpace_of_loads {ε : Type} {H : Json.Hooks ε} {a s : Str} {v : Json}
    (h : Json.loads H (a ++ s) = .ok v) (ha : a.all isSpace = true)
    : a.all Json.isSpace = true := by
  rw [List.all_eq_true]
  by_contra hnot
  have hne : Json.skipSpace a ≠ [] := by
    intro hnil
    exact hnot (List.all_eq_true.mp (Json.skipSpace_eq_nil.mp hnil))
  rcases hskip : Json.skipSpace a with _ | ⟨c, t⟩
  . exact hne hskip
  . have happend : Json.skipSpace (a ++ s) = c :: (t ++ s) := by
      rw [Json.skipSpace_append_of_ne_nil hne, hskip, List.cons_append]
    have hhead := isValueHead_of_loads h happend
    have hmem : c ∈ a := by
      rcases List.dropWhile_suffix Json.isSpace (l := a) with ⟨w, hw⟩
      rw [← Json.skipSpace, hskip] at hw
      rw [← hw]
      simp
    have hspace := List.all_eq_true.mp ha c hmem
    rw [isSpace_of_isValueHead hhead] at hspace
    simp at hspace

/-!
### Pieces
-/

/--
The interpreter with its limits lifted.
-/
def Interp.lifted (interp : Interp) (d : Nat) : Interp :=
  ⟨Max.max interp.recursionLimit d, interp.encoderLimit, none⟩

theorem refines_lifted (interp : Interp) (d : Nat)
    : (plainHooks interp).Refines (plainHooks (interp.lifted d)) where
  parseInt := by
    intro s text rest i _ h
    simp only [plainHooks, Interp.lifted, Option.any_none, Bool.false_eq_true, ↓reduceIte] at h ⊢
    split at h
    . simp at h
    . exact h
  parseFloat := id
  parseConstant := id
  objectPairs := id
  lone := rfl
  maxDepth := Nat.le_max_left _ _

/--
A piece that is a value is the whole line: what comes before it and after it is blank.
-/
theorem loads_piece {ε : Type} {H : Json.Hooks ε} {interp : Interp} {d : Nat}
    (hH : H.Refines (plainHooks (interp.lifted d))) {line a p b : Str} {v v' : Json}
    (hline : Json.loads H line = .ok v) (hpieces : universalNewlines line = a ++ (p ++ b))
    (ha : a.all isSpace = true) (hp : loads interp p = .ok v')
    (hend : b = [] ∨ p.getLast? = some 0x0a) : v' = v ∧ b.all Json.isSpace = true := by
  have hp : Json.loads (plainHooks (interp.lifted d)) p = .ok v' :=
    Json.loads_refines (refines_lifted interp d) hp
  have hwhole : Json.loads (plainHooks (interp.lifted d)) (a ++ (p ++ b)) = .ok v := by
    rcases simulates_universalNewlines.loads hH rfl hline with ⟨rest, _, rfl, hnil, hscan⟩
    rw [← hpieces]
    refine Json.loads_of_scanValue hscan ?_
    rw [Json.skipSpace_eq_nil] at hnil ⊢
    exact isSpace_universalNewlines hnil
  have hrest := Json.loads_of_blanks_append (all_isSpace_of_loads hwhole ha) hwhole
  have hbreaks : Json.Breaks b ∨ ∃ l, p.getLast? = some l ∧ Json.isLayout l = true := by
    rcases hend with rfl | hlast
    . exact Or.inl Json.breaks_nil
    . exact Or.inr ⟨_, hlast, by decide⟩
  have hblank := Json.all_isSpace_of_loads_append hp hrest hbreaks
  have hsame := Json.loads_append_blanks hblank hp
  rw [hsame] at hrest
  exact ⟨Except.ok.inj hrest, hblank⟩

/-!
### Files that are read as bytes
-/

/--
The lines of the bytes are the bytes of the lines.
-/
theorem split_flatMap_encodePoint (s : Str)
    : Lines.split (0x0a : UInt8) (s.flatMap Utf8.encodePoint)
        =
      (Lines.split (0x0a : CodePoint) s).map fun line => line.flatMap Utf8.encodePoint := by
  have hbytes : ∀ line : Str, (0x0a : CodePoint) ∉ line →
      (0x0a : UInt8) ∉ line.flatMap Utf8.encodePoint := by
    intro line hline hmem
    rcases List.mem_flatMap.mp hmem with ⟨c, hc, hnl⟩
    exact Utf8.nl_not_mem_encodePoint (fun heq => hline (heq ▸ hc)) hnl
  have hfeed : ∀ line rest : Str, (line ++ 0x0a :: rest).flatMap Utf8.encodePoint
      = line.flatMap Utf8.encodePoint ++ 0x0a :: rest.flatMap Utf8.encodePoint := by
    intro line rest
    rw [List.flatMap_append, List.flatMap_cons]
    rfl
  induction hn : s.length using Nat.strongRecOn generalizing s with
  | _ n ih =>
    rcases Lines.cases_split 0x0a s with rfl | ⟨hne, hnot⟩ | ⟨line, rest, hnot, rfl⟩
    . rfl
    . rw [Lines.split_of_not_mem _ _ hne hnot, Lines.split_of_not_mem _ _ _ (hbytes s hnot)]
      . rfl
      . rcases List.exists_cons_of_ne_nil hne with ⟨c, t, rfl⟩
        rcases Utf8.head?_encodePoint true c (Or.inl rfl) with ⟨b, bs, hb, _⟩
        simp [hb]
    . have hlt : rest.length < n := by
        rw [← hn, List.length_append, List.length_cons]
        omega
      rw [hfeed, Lines.split_append_nl _ _ _ (hbytes line hnot),
        Lines.split_append_nl _ _ _ hnot, List.map_cons, ih _ hlt rest rfl, hfeed line []]
      rfl

theorem scanAtom_ne_obj {ε : Type} {H : Json.Hooks ε} {s rest : Str} {ms : List (Str × Json)}
    : Json.scanAtom H s ≠ .ok (.obj ms, rest) := by
  have hbind : ∀ {α : Type} (x : Except ε α) (f : α → Json × Str),
      (∀ a, (f a).1 ≠ .obj ms) → (do return f (← x) : Except ε (Json × Str)) ≠ .ok (.obj ms, rest) := by
    intro α x f hf heq
    rcases Except.bind_eq_ok.mp heq with ⟨a, _, heq⟩
    exact hf a (congrArg Prod.fst (Except.pure_eq_ok.mp heq))
  unfold Json.scanAtom
  split
  . simp
  split
  . simp
  split
  . simp
  split
  . exact hbind _ _ (by simp)
  split
  . exact hbind _ _ (by simp)
  split
  . exact hbind _ _ (by simp)
  split
  . simp
  . exact hbind _ _ (by simp)
  . exact hbind _ _ (by simp)

/--
An object starts with a brace, and after it comes a key or the other brace.
-/
theorem scanValue_obj {ε : Type} {H : Json.Hooks ε} {fuel depth : Nat} {c : CodePoint}
    {s rest : Str} {ms : List (Str × Json)}
    (h : Json.scanValue H fuel depth (c :: s) = .ok (.obj ms, rest))
    : c = 0x7b ∧ ∃ d t, Json.skipSpace s = d :: t ∧ (d = 0x7d ∨ d = 0x22) := by
  cases fuel with
  | zero => simp [Json.scanValue] at h
  | succ fuel =>
    unfold Json.scanValue at h
    dsimp only at h
    split at h
    . split at h <;> simp at h
    . split at h
      . split at h
        . simp at h
        . split at h
          . simp at h
          . split at h
            . simp at h
            . rcases Except.bind_eq_ok.mp h with ⟨xs, _, heq⟩
              have heq := congrArg Prod.fst (Except.pure_eq_ok.mp heq)
              simp at heq
      . split at h
        . next hc =>
          refine ⟨hc, ?_⟩
          split at h
          . simp at h
          . split at h
            . simp at h
            . next d t hskip =>
              refine ⟨d, t, hskip, ?_⟩
              split at h
              . next hd => exact Or.inl hd
              . right
                rcases Except.bind_eq_ok.mp h with ⟨_, hms, _⟩
                cases fuel with
                | zero => simp [Json.scanMembers] at hms
                | succ fuel =>
                  unfold Json.scanMembers at hms
                  dsimp only at hms
                  split at hms
                  . simp at hms
                  . next hd => exact not_not.mp hd
        . exact absurd h scanAtom_ne_obj

/--
A character of one byte that is not zero.
-/
def isPlain (c : CodePoint) : Bool := 0 < c.val && c.val < 0x80

theorem isPlain_of_isSpace {c : CodePoint} (h : Json.isSpace c = true) : isPlain c = true := by
  simp only [Json.isSpace, Bool.or_eq_true, decide_eq_true_eq] at h
  rcases h with ((rfl | rfl) | rfl) | rfl <;> decide

theorem skipSpace_of_loads {ε : Type} {H : Json.Hooks ε} {s : Str} {ms : List (Str × Json)}
    (h : Json.loads H s = .ok (.obj ms))
    : ∃ t d t', Json.skipSpace s = 0x7b :: t ∧ Json.skipSpace t = d :: t' ∧
        (d = 0x7d ∨ d = 0x22) := by
  rcases Except.bind_eq_ok.mp h with ⟨⟨v, rest⟩, hscan, h⟩
  dsimp only at h
  split at h
  swap
  . simp at h
  rw [Except.pure_eq_ok.mp h] at hscan
  cases hskip : Json.skipSpace s with
  | nil =>
    rw [hskip, Json.scanValue_nil] at hscan
    simp at hscan
  | cons c t =>
    rw [hskip] at hscan
    rcases scanValue_obj hscan with ⟨rfl, d, t', hnext, hd⟩
    exact ⟨t, d, t', rfl, hnext, hd⟩

theorem exists_plain_of_loads {ε : Type} {H : Json.Hooks ε} {s : Str} {ms : List (Str × Json)}
    (h : Json.loads H s = .ok (.obj ms))
    : ∃ c d t, s = c :: d :: t ∧ isPlain c = true ∧ isPlain d = true := by
  rcases skipSpace_of_loads h with ⟨t, d, t', hskip, hnext, hd⟩
  have hplain : ∀ x ∈ s.takeWhile Json.isSpace, isPlain x = true :=
    fun x hx => isPlain_of_isSpace (List.mem_takeWhile_imp hx)
  have hs := List.takeWhile_append_dropWhile (p := Json.isSpace) (l := s)
  rw [← Json.skipSpace, hskip] at hs
  rcases hw : s.takeWhile Json.isSpace with _ | ⟨x, _ | ⟨y, w⟩⟩
  . rw [hw, List.nil_append] at hs
    cases t with
    | nil => simp [Json.skipSpace] at hnext
    | cons x t =>
      refine ⟨0x7b, x, t, hs.symm, by decide, ?_⟩
      cases hx : Json.isSpace x with
      | true => exact isPlain_of_isSpace hx
      | false =>
        rw [Json.skipSpace, List.dropWhile_cons_of_neg (by simp [hx])] at hnext
        rw [(List.cons.inj hnext).1]
        rcases hd with rfl | rfl <;> decide
  . rw [hw] at hs hplain
    exact ⟨x, 0x7b, t, hs.symm, hplain x (by simp), by decide⟩
  . rw [hw] at hs hplain
    exact ⟨x, y, w ++ 0x7b :: t, by rw [← hs]; rfl, hplain x (by simp), hplain y (by simp)⟩

/--
The bytes of a text that starts plainly are taken for UTF-8.
-/
theorem decodeDetected?_of_plain {c d : CodePoint} (s : Str) (hc : isPlain c = true)
    (hd : isPlain d = true)
    : decodeDetected? ((c :: d :: s).flatMap Utf8.encodePoint) = some (c :: d :: s) := by
  have hutf8 := Utf8.decodeWith_flatMap_encodePoint true (fun _ => none) (c :: d :: s) (Or.inl rfl)
  simp only [isPlain, Bool.and_eq_true, decide_eq_true_eq] at hc hd
  have hne : ∀ (x : CodePoint) (n : Nat), 0 < x.val → x.val < 0x80 → n = 0 ∨ 0x80 ≤ n → n < 256 →
      UInt8.ofNat x.val ≠ UInt8.ofNat n := by
    intro x n hpos hlt hn hn256 heq
    have heq := congrArg UInt8.toNat heq
    rw [Utf8.toNat_ofNat _ (by omega), Utf8.toNat_ofNat _ hn256] at heq
    omega
  have hbytes : (c :: d :: s).flatMap Utf8.encodePoint
      = UInt8.ofNat c.val :: UInt8.ofNat d.val :: s.flatMap Utf8.encodePoint := by
    rw [List.flatMap_cons, List.flatMap_cons, Utf8.encodePoint, Utf8.encodePoint, if_pos hc.2,
      if_pos hd.2]
    rfl
  have hc0 : UInt8.ofNat c.val ≠ 0 := hne c 0 hc.1 hc.2 (Or.inl rfl) (by decide)
  have hd0 : UInt8.ofNat d.val ≠ 0 := hne d 0 hd.1 hd.2 (Or.inl rfl) (by decide)
  have hff : UInt8.ofNat c.val ≠ 0xff := hne c 0xff hc.1 hc.2 (by decide) (by decide)
  have hfe : UInt8.ofNat c.val ≠ 0xfe := hne c 0xfe hc.1 hc.2 (by decide) (by decide)
  have hef : UInt8.ofNat c.val ≠ 0xef := hne c 0xef hc.1 hc.2 (by decide) (by decide)
  rw [← Utf8.decodeSurrogatePass?] at hutf8
  rw [hbytes] at hutf8 ⊢
  simp only [decodeDetected?, List.isPrefixOf, beq_iff_eq, Bool.and_eq_true, Ne.symm hc0,
    Ne.symm hff, Ne.symm hfe, Ne.symm hef, false_and, if_false]
  split
  . rw [if_neg (by simp_all), if_neg (by simp_all), hutf8]
  . rw [if_neg (by simp_all), if_neg (by simp_all), hutf8]
  . exact hutf8

theorem ne_zero_of_mem_encodePoint {c : CodePoint} (hc : c.val ≠ 0)
    : ∀ b ∈ Utf8.encodePoint c, b ≠ 0 := by
  have hlt := c.isLt
  have hofNat : ∀ n, n ≠ 0 → n < 256 → UInt8.ofNat n ≠ 0 := by
    intro n hn hn256 heq
    have heq := congrArg UInt8.toNat heq
    rw [Utf8.toNat_ofNat _ hn256] at heq
    exact hn heq
  unfold Utf8.encodePoint
  intro b hb
  split at hb
  . rw [List.mem_singleton.mp hb]
    exact hofNat _ hc (by omega)
  . split at hb
    . simp only [List.mem_cons, List.not_mem_nil, or_false] at hb
      rcases hb with rfl | rfl <;> exact hofNat _ (by omega) (by omega)
    . split at hb
      . simp only [List.mem_cons, List.not_mem_nil, or_false] at hb
        rcases hb with rfl | rfl | rfl <;> exact hofNat _ (by omega) (by omega)
      . simp only [List.mem_cons, List.not_mem_nil, or_false] at hb
        rcases hb with rfl | rfl | rfl | rfl <;> exact hofNat _ (by omega) (by omega)

/--
The bytes of a text without zeros that starts plainly are taken for UTF-8.
-/
theorem decodeDetected?_of_ne_zero {c : CodePoint} {s : Str} (hc : c.val < 0x80)
    (hs : ∀ d ∈ c :: s, d.val ≠ 0)
    : decodeDetected? ((c :: s).flatMap Utf8.encodePoint) = some (c :: s) := by
  have hutf8 := Utf8.decodeWith_flatMap_encodePoint true (fun _ => none) (c :: s) (Or.inl rfl)
  rw [← Utf8.decodeSurrogatePass?] at hutf8
  have hbytes : (c :: s).flatMap Utf8.encodePoint
      = UInt8.ofNat c.val :: s.flatMap Utf8.encodePoint := by
    rw [List.flatMap_cons, Utf8.encodePoint, if_pos hc]
    rfl
  have hne : ∀ b ∈ (c :: s).flatMap Utf8.encodePoint, b ≠ 0 := by
    intro b hb
    rcases List.mem_flatMap.mp hb with ⟨d, hd, hb⟩
    exact ne_zero_of_mem_encodePoint (hs d hd) b hb
  rw [hbytes] at hutf8 hne ⊢
  have hlarge : ∀ n, 0x80 ≤ n → n < 256 → UInt8.ofNat n ≠ UInt8.ofNat c.val := by
    intro n hn hn256 heq
    have heq := congrArg UInt8.toNat heq
    rw [Utf8.toNat_ofNat n hn256, Utf8.toNat_ofNat c.val (by omega)] at heq
    omega
  have h0 : 0 ≠ UInt8.ofNat c.val := (hne _ List.mem_cons_self).symm
  have hff : 0xff ≠ UInt8.ofNat c.val := hlarge 0xff (by decide) (by decide)
  have hfe : 0xfe ≠ UInt8.ofNat c.val := hlarge 0xfe (by decide) (by decide)
  have hef : 0xef ≠ UInt8.ofNat c.val := hlarge 0xef (by decide) (by decide)
  simp only [decodeDetected?, List.isPrefixOf, beq_iff_eq, Bool.and_eq_true, h0, hff, hfe, hef,
    false_and, if_false]
  split
  . next heq =>
    rcases List.cons.inj heq with ⟨rfl, heq⟩
    rw [if_neg (hne _ List.mem_cons_self), if_neg (hne _ (by rw [heq]; simp)), hutf8]
  . next heq =>
    rcases List.cons.inj heq with ⟨rfl, heq⟩
    rw [if_neg (hne _ List.mem_cons_self), if_neg (hne _ (by rw [heq]; simp)), hutf8]
  . exact hutf8

/--
An object is loaded from the bytes of its text as from the text.
-/
theorem loadsBytes_eq {ε : Type} {H : Json.Hooks ε} (interp : Interp) {s : Str}
    {ms : List (Str × Json)} (h : Json.loads H s = .ok (.obj ms))
    : loadsBytes interp (s.flatMap Utf8.encodePoint) = loads interp s := by
  rcases exists_plain_of_loads h with ⟨c, d, t, rfl, hc, hd⟩
  rw [loadsBytes, decodeDetected?_of_plain t hc hd]

/--
Blank bytes are those of a blank text.
-/
theorem isByteSpace_of_isSpace {s : Str} (h : s.all Json.isSpace = true)
    : (s.flatMap Utf8.encodePoint).all isByteSpace = true := by
  rw [List.all_flatMap, List.all_eq_true]
  intro c hc
  have hc := List.all_eq_true.mp h c hc
  simp only [Json.isSpace, Bool.or_eq_true, decide_eq_true_eq] at hc
  rcases hc with ((rfl | rfl) | rfl) | rfl <;> decide

theorem isByteSpace_of_loads {ε : Type} {H : Json.Hooks ε} {s : Str} {ms : List (Str × Json)}
    (h : Json.loads H s = .ok (.obj ms))
    : (s.flatMap Utf8.encodePoint).all isByteSpace = false := by
  rcases skipSpace_of_loads h with ⟨t, _, _, hskip, _, _⟩
  have hmem : (0x7b : CodePoint) ∈ s := by
    have hsuffix := List.dropWhile_suffix Json.isSpace (l := s)
    rw [← Json.skipSpace, hskip] at hsuffix
    exact hsuffix.mem List.mem_cons_self
  rw [List.all_flatMap, List.all_eq_false]
  exact ⟨0x7b, hmem, by decide⟩

end Python
